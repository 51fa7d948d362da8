/-!
# Append-only storage

An arena stores values in slots numbered from zero. Slots are only ever added,
so the number of a slot stays the identity of its value, and tables kept beside
an arena can be addressed by the same numbers.

A slot is named by an index of 32 bits. Numbers of slots are natural numbers
here and do not wrap around, so arenas, and the expressions and merged graphs
that are built on them, are meant for fewer slots than there are indices.
-/
namespace Concordance

/-- Number of indices. -/
def indexCount : Nat :=
  Nat.pow 2 32

variable {α : Type}

/-- Values in numbered slots. -/
structure Arena (α : Type) where
  slots : Array α
deriving DecidableEq

namespace Arena

def empty : Arena α :=
  ⟨#[]⟩

def ofList (values : List α) : Arena α :=
  ⟨values.toArray⟩

/-- Number of slots, which is also the number of the slot to be added next. -/
def size (a : Arena α) : Nat :=
  a.slots.size

def isEmpty (a : Arena α) : Bool :=
  a.size == 0

def push (a : Arena α) (value : α) : Arena α :=
  ⟨a.slots.push value⟩

def get? (a : Arena α) (slot : Nat) : Option α :=
  a.slots[slot]?

/-- Replaces the value of a slot; an arena without that slot stays as it is. -/
def set (a : Arena α) (slot : Nat) (value : α) : Arena α :=
  ⟨a.slots.setIfInBounds slot value⟩

def contains (a : Arena α) (slot : Nat) : Bool :=
  decide (slot < a.size)

/-- All values by ascending slot. -/
def toList (a : Arena α) : List α :=
  a.slots.toList

def entries (a : Arena α) : List (Nat × α) :=
  a.toList.zipIdx.map fun entry => (entry.2, entry.1)

def indices (a : Arena α) : List Nat :=
  List.range a.size

theorem length_toList (a : Arena α) : a.toList.length = a.size := by
  simp [toList, size]

theorem map_fst_entries (a : Arena α) : a.entries.map Prod.fst = a.indices := by
  rw [entries, List.map_map, indices, ← length_toList, List.range_eq_range']
  exact List.zipIdx_map_snd 0 _

theorem map_snd_entries (a : Arena α) : a.entries.map Prod.snd = a.toList := by
  rw [entries, List.map_map]
  exact List.zipIdx_map_fst 0 _

theorem get?_eq (a : Arena α) (slot : Nat) : a.get? slot = a.toList[slot]? := by
  simp [get?, toList]

end Arena
end Concordance
