import Concordance.Proofs.Traversal
import Concordance.Render.Dump
import Mathlib.Data.List.Perm.Basic

/-!
# What a dump shows of a graph

A dump is made of the entries of an outline, and an outline is a walk of its own:
it goes down from a node where the node is listed in full, and lists all other
references without going on from them. So it follows the pre-order walk, and
every child reference of a node that is listed in full is an entry, one level
below the node. Nothing is asked of the graph but that only nodes have kinds and
children: nodes may be shared, lie on cycles, or be missing. The graphs of
expressions and of merged expressions meet this, and what a walk of theirs comes
to is always listed in full.
-/
namespace Concordance.Graph

variable {g : Graph} {listed order : List Nat} {entries : List Entry}

/-- A number names a node if it has a kind. -/
def isNode (g : Graph) (n : Nat) : Bool :=
  (g.kind? n).isSome

/-- Only numbers in range have kinds, and only what has a kind has children. -/
structure Typed (g : Graph) : Prop where
  lt_size : ∀ n, g.isNode n = true → n < g.size
  children_eq_nil : ∀ n, g.isNode n = false → g.children n = []

/-- The node of an entry that is listed in full. -/
def Entry.full? (e : Entry) : Option Nat :=
  match e.listing with
  | .full _ => some e.node
  | .repeated => none
  | .missing => none

/-- The nodes that are listed in full, in order. -/
def inFull (entries : List Entry) : List Nat :=
  entries.filterMap Entry.full?

/-- The references, with their depths, that an entry is followed by. -/
def references (g : Graph) (e : Entry) : List (Nat × Nat) :=
  match e.listing with
  | .full _ => descend (g.children e.node) (e.depth + 1) []
  | .repeated => []
  | .missing => []

/-- An entry shows what the graph has under its number: the kind of a node that was not listed
before, a repeat of a node that was, or nothing. -/
def Entry.Shows (g : Graph) (before : List Nat) (e : Entry) : Prop :=
  match e.listing with
  | .full kind => g.kind? e.node = some kind ∧ e.node ∉ before
  | .repeated => e.node ∈ before
  | .missing => g.kind? e.node = none

/-- The line of an entry: two spaces for every level, the number in brackets, and behind it the label
and the note of a node that is listed in full, or a mark. No label and note look like a mark. -/
def Entry.Prints (g : Graph) (namer : Namer) (annotate : Nat → String) (before : List Nat)
    (e : Entry) (line : String) : Prop :=
  ∃ text, line = String.join (List.replicate e.depth "  ") ++ "[" ++ toString e.node ++ "] " ++
      text ++ "\n" ∧
    match e.listing with
    | .full kind => g.kind? e.node = some kind ∧ e.node ∉ before ∧
      text = namer.label kind ++ annotate e.node ∧ text ≠ "^" ∧ text ≠ "<missing>"
    | .repeated => e.node ∈ before ∧ text = "^"
    | .missing => g.kind? e.node = none ∧ text = "<missing>"

@[simp] theorem inFull_nil : inFull [] = [] := rfl

@[simp] theorem inFull_full (n depth : Nat) (kind : Kind) :
    inFull (⟨n, depth, .full kind⟩ :: entries) = n :: inFull entries := rfl

@[simp] theorem inFull_repeated (n depth : Nat) :
    inFull (⟨n, depth, .repeated⟩ :: entries) = inFull entries := rfl

@[simp] theorem inFull_missing (n depth : Nat) :
    inFull (⟨n, depth, .missing⟩ :: entries) = inFull entries := rfl

theorem isNode_of_kind? {n : Nat} {kind : Kind} (h : g.kind? n = some kind) : g.isNode n = true := by
  rw [isNode, h]
  rfl

theorem isNode_of_none {n : Nat} (h : g.kind? n = none) : g.isNode n = false := by
  rw [isNode, h]
  rfl

theorem Typed.kind?_eq_none (h : g.Typed) {n : Nat} (hn : ¬ n < g.size) : g.kind? n = none := by
  cases hkind : g.kind? n with
  | none => rfl
  | some kind => exact absurd (h.lt_size n (isNode_of_kind? hkind)) hn

/-- An outline lists in full what a pre-order walk from the same stack adds, but for the numbers
without a kind. -/
theorem inFull_outlineFrom (h : g.Typed) (stack : List (Nat × Nat))
    (hlisted : listed = order.filter g.isNode) :
    listed ++ inFull (g.outlineFrom stack listed) =
      (g.preOrderFrom (stack.map Prod.fst) order).filter g.isNode := by
  fun_induction g.outlineFrom stack listed generalizing order with
  | case1 listed => rw [List.map_nil, preOrderFrom, inFull_nil, List.append_nil, hlisted]
  | case2 listed n depth rest hrange hkind ih =>
    have hnone := isNode_of_none hkind
    rw [inFull_missing, List.map_cons, preOrderFrom]
    split
    · rw [h.children_eq_nil n hnone, List.nil_append]
      refine ih ?_
      rw [List.filter_append, List.filter_singleton, hnone, hlisted]
      simp
    · exact ih hlisted
  | case3 listed n depth rest hrange kind hkind hfresh ih =>
    have hnode := isNode_of_kind? hkind
    have hnew : n ∉ order := fun hmem => hfresh (hlisted ▸ List.mem_filter.2 ⟨hmem, hnode⟩)
    have hstack : (descend (g.children n) (depth + 1) rest).map Prod.fst =
        g.children n ++ rest.map Prod.fst := by
      simp [descend, Function.comp_def]
    rw [inFull_full, List.map_cons, preOrderFrom, if_pos ⟨hrange, hnew⟩, ← hstack,
      ← ih (by rw [List.filter_append, List.filter_singleton, hnode, hlisted]; rfl)]
    simp
  | case4 listed n depth rest hrange kind hkind hold ih =>
    have hmem : n ∈ order := by
      have hn : n ∈ listed := Decidable.not_not.1 hold
      rw [hlisted] at hn
      exact List.mem_of_mem_filter hn
    rw [inFull_repeated, List.map_cons, preOrderFrom, if_neg fun hn => hn.2 hmem]
    exact ih hlisted
  | case5 listed n depth rest hrange ih =>
    rw [inFull_missing, List.map_cons, preOrderFrom, if_neg fun hn => hrange hn.1]
    exact ih hlisted

theorem outlineFrom_perm (g : Graph) (stack : List (Nat × Nat)) (listed : List Nat) :
    ((g.outlineFrom stack listed).map fun e => (e.node, e.depth)).Perm
      (stack ++ (g.outlineFrom stack listed).flatMap g.references) := by
  fun_induction g.outlineFrom stack listed with
  | case1 listed => exact .refl _
  | case2 listed n depth rest hrange hkind ih => exact ih.cons _
  | case3 listed n depth rest hrange kind hkind hfresh ih =>
    have hbelow : (⟨n, depth, .full kind⟩ :: g.outlineFrom (descend (g.children n) (depth + 1) rest)
          (listed ++ [n])).flatMap g.references =
        (g.children n).map (·, depth + 1) ++
          (g.outlineFrom (descend (g.children n) (depth + 1) rest) (listed ++ [n])).flatMap
            g.references := by
      rw [List.flatMap_cons]
      simp [references, descend]
    rw [hbelow, List.map_cons, List.cons_append]
    refine List.Perm.cons _ (ih.trans ?_)
    -- the stack goes on with the children of the node in front of what waits below them
    rw [descend, ← List.append_assoc]
    exact List.perm_append_comm.append_right _
  | case4 listed n depth rest hrange kind hkind hold ih => exact ih.cons _
  | case5 listed n depth rest hrange ih => exact ih.cons _

theorem shows_outlineFrom (h : g.Typed) (stack : List (Nat × Nat)) (listed : List Nat) :
    ∀ (i : Nat) (e : Entry),
    (g.outlineFrom stack listed)[i]? = some e →
      e.Shows g (listed ++ inFull ((g.outlineFrom stack listed).take i)) := by
  fun_induction g.outlineFrom stack listed with
  | case1 listed => simp
  | case2 listed n depth rest hrange hkind ih =>
    rintro (_ | i) e he
    · obtain rfl := Option.some.inj he
      exact hkind
    · exact ih i e he
  | case3 listed n depth rest hrange kind hkind hfresh ih =>
    rintro (_ | i) e he
    · obtain rfl := Option.some.inj he
      exact ⟨hkind, by simpa using hfresh⟩
    · have hshows := ih i e he
      rwa [List.append_assoc] at hshows
  | case4 listed n depth rest hrange kind hkind hold ih =>
    rintro (_ | i) e he
    · obtain rfl := Option.some.inj he
      exact List.mem_append_left _ (Decidable.not_not.1 hold)
    · exact ih i e he
  | case5 listed n depth rest hrange ih =>
    rintro (_ | i) e he
    · obtain rfl := Option.some.inj he
      exact h.kind?_eq_none hrange
    · exact ih i e he

theorem length_flatMap_references (g : Graph) (entries : List Entry) :
    (entries.flatMap g.references).length =
      total ((inFull entries).map fun n => (g.children n).length) := by
  induction entries with
  | nil => rfl
  | cons e entries ih =>
    obtain ⟨n, depth, listing⟩ := e
    rw [List.flatMap_cons, List.length_append, ih]
    cases listing with
    | full kind => simp [references, descend]
    | repeated => simp [references]
    | missing => simp [references]

theorem inFull_outline (h : g.Typed) : inFull g.outline = g.preOrder.filter g.isNode :=
  inFull_outlineFrom h [(g.root, 0)] (List.filter_nil (p := g.isNode)).symm

/-- One entry is the reference to the root, and the others are the references of the nodes that are
listed in full. -/
theorem outline_perm (g : Graph) : (g.outline.map fun e => (e.node, e.depth)).Perm
    ((g.root, 0) :: g.outline.flatMap g.references) :=
  g.outlineFrom_perm [(g.root, 0)] []

theorem length_outline (g : Graph) :
    g.outline.length = 1 + total ((inFull g.outline).map fun n => (g.children n).length) := by
  have hlength := g.outline_perm.length_eq
  rw [List.length_map, List.length_cons, length_flatMap_references] at hlength
  omega

/-- A label begins with a letter, and the marks do not. -/
theorem label_append_ne_marks (namer : Namer) (kind : Kind) (note : String) :
    namer.label kind ++ note ≠ "^" ∧ namer.label kind ++ note ≠ "<missing>" := by
  have hhead : ∃ c, (namer.label kind ++ note).toList.head? = some c ∧ c.isAlpha = true := by
    cases kind <;> simp [Namer.label, Kind.name]
  obtain ⟨c, hc, hletter⟩ := hhead
  constructor
  · intro h
    rw [h] at hc
    obtain rfl := Option.some.inj hc
    cases hletter
  · intro h
    rw [h] at hc
    obtain rfl := Option.some.inj hc
    cases hletter

theorem join_replicate (depth : Nat) : String.join (List.replicate depth "  ") =
    String.ofList (List.replicate (2 * depth) ' ') := by
  induction depth with
  | zero => rfl
  | succ depth ih =>
    have hlevel : List.replicate (2 * (depth + 1)) ' ' =
        [' ', ' '] ++ List.replicate (2 * depth) ' ' := by
      rw [Nat.mul_succ, Nat.add_comm, List.replicate_add]
      rfl
    rw [List.replicate_succ, String.join_cons, ih, hlevel, String.ofList_append]

theorem line_eq (namer : Namer) (annotate : Nat → String) (e : Entry) :
    e.line namer annotate = String.join (List.replicate e.depth "  ") ++ "[" ++ toString e.node ++
      "] " ++ e.listing.text namer (annotate e.node) ++ "\n" := by
  have hbracket : "] " = "]" ++ " " := rfl
  rw [Entry.line, indexText, join_replicate, hbracket]
  simp only [String.append_assoc]

theorem Entry.Shows.prints {e : Entry} {before : List Nat} (h : e.Shows g before) (namer : Namer)
    (annotate : Nat → String) : e.Prints g namer annotate before (e.line namer annotate) := by
  refine ⟨_, line_eq namer annotate e, ?_⟩
  obtain ⟨n, depth, listing⟩ := e
  cases listing with
  | full kind => exact ⟨h.1, h.2, rfl, label_append_ne_marks namer kind _⟩
  | repeated => exact ⟨h, rfl⟩
  | missing => exact ⟨h, rfl⟩

/-- A dump of any graph is made of lines, whatever the names and notes, and each line is the text of
an entry of the outline. The nodes that are printed in full are those of the pre-order walk, each of
them once. The entries are the root and the children of these nodes, one level below them, and
nothing else; where an entry is not in full, it repeats a node that was in full before or stands for
no node, and the line says which. -/
theorem dump_lists_references (g : Graph) (h : g.Typed) (namer : Namer) (annotate : Nat → String) :
    (∃ lines : List String, g.dumpWith namer annotate = String.join lines ∧
      lines.length = g.outline.length ∧
      ∀ (i : Nat) (e : Entry), g.outline[i]? = some e → ∃ line, lines[i]? = some line ∧
        e.Prints g namer annotate (inFull (g.outline.take i)) line) ∧
      inFull g.outline = g.preOrder.filter g.isNode ∧ (inFull g.outline).Nodup ∧
      (g.outline.map fun e => (e.node, e.depth)).Perm
        ((g.root, 0) :: g.outline.flatMap g.references) ∧
      g.outline.length = 1 + total ((inFull g.outline).map fun n => (g.children n).length) := by
  have hfull := inFull_outline h
  refine ⟨⟨g.outline.map (Entry.line namer annotate), rfl, List.length_map _, ?_⟩, hfull, ?_,
    g.outline_perm, g.length_outline⟩
  · intro i e he
    have hshows : e.Shows g (inFull (g.outline.take i)) :=
      shows_outlineFrom h [(g.root, 0)] [] i e he
    exact ⟨_, by rw [List.getElem?_map, he]; rfl, hshows.prints namer annotate⟩
  · rw [hfull]
    exact g.listed_preOrder.nodup.filter _

/-- A graph with a cycle, a shared node, a number in range without a kind, and a child out of
range. -/
def Sample.tangle : Graph where
  root := 0
  size := 4
  kind? n :=
    match n with
    | 0 => some .conjunction
    | 1 => some .disjunction
    | 3 => some (.concept 5)
    | _ => none
  children n :=
    match n with
    | 0 => [1, 2, 7, 1]
    | 1 => [0, 3, 3]
    | _ => []

theorem Sample.typed_tangle : Sample.tangle.Typed := by
  constructor
  · intro n hn
    match n with
    | 0 | 1 | 2 | 3 => decide
    | n + 4 => simp [isNode, tangle] at hn
  · intro n hn
    match n with
    | 0 | 1 => simp [isNode, tangle] at hn
    | n + 2 => rfl

theorem Sample.outline_tangle : Sample.tangle.outline =
    [⟨0, 0, .full .conjunction⟩, ⟨1, 1, .full .disjunction⟩, ⟨0, 2, .repeated⟩,
      ⟨3, 2, .full (.concept 5)⟩, ⟨3, 2, .repeated⟩, ⟨2, 1, .missing⟩, ⟨7, 1, .missing⟩,
      ⟨1, 1, .repeated⟩] := by
  decide +kernel

/-- Eight lines, the third of which refers back to the root. -/
theorem dump_lists_references_tangle :
    (∃ lines, Sample.tangle.dump Namer.raw = String.join lines ∧ lines.length = 8 ∧
      lines[2]? = some "    [0] ^\n") ∧
    Sample.tangle.preOrder.filter Sample.tangle.isNode = [0, 1, 3] := by
  obtain ⟨⟨lines, htext, hlength, hlines⟩, hfull, -⟩ :=
    dump_lists_references Sample.tangle Sample.typed_tangle Namer.raw fun _ => ""
  rw [Sample.outline_tangle] at hfull hlength hlines
  obtain ⟨line, hthird, text, hline, -, hmark⟩ := hlines 2 ⟨0, 2, .repeated⟩ rfl
  subst hmark
  exact ⟨⟨lines, htext, hlength, by rw [hthird, hline]; rfl⟩, hfull.symm⟩

end Concordance.Graph
