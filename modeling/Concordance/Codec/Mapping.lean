import Concordance.Cbor.Schema
import Concordance.Config
import Concordance.Mapping

/-!
# Settings and mappings as CBOR items
-/
namespace Concordance

open Cbor (Item)

namespace Config

def toItem (c : Config) : Item :=
  .record [("best_effort", .boolean c.bestEffort), ("min_overlap", .unsigned c.minOverlap),
    ("connect_spine", .boolean c.connectSpine)]

/-- The settings of an item; a field that is not there has its default. -/
def ofItem? (i : Item) : Option Config := do
  let initial : Config := {}
  match ← i.slots? ["best_effort", "min_overlap", "connect_spine"] true with
  | [bestEffort, minOverlap, connectSpine] =>
    return { bestEffort := ← Item.defaulted? Item.bool? initial.bestEffort bestEffort
             minOverlap := ← Item.defaulted? Item.size? initial.minOverlap minOverlap
             connectSpine := ← Item.defaulted? Item.bool? initial.connectSpine connectSpine }
  | _ => none

end Config

def Quality.toItem : Quality → Item
  | .exact => .text "Exact"
  | .approximate => .text "Approximate"

def Quality.ofItem? (i : Item) : Option Quality :=
  i.unitVariant? [("Exact", .exact), ("Approximate", .approximate)]

def Correspondence.toItem (c : Correspondence) : Item :=
  .record [("comparison", .unsigned c.comparison), ("quality", c.quality.toItem)]

def Correspondence.ofItem? (i : Item) : Option Correspondence := do
  match ← i.fields? ["comparison", "quality"] with
  | [comparison, quality] =>
    return { comparison := ← Item.required? Item.index? comparison
             quality := ← Item.required? Quality.ofItem? quality }
  | _ => none

namespace Mapping

def toItem (m : Mapping) : Item :=
  .record
    [("forward", .ofList (Item.ofOption Correspondence.toItem) m.forward.toList),
     ("backward", .ofList (Item.ofOption Item.unsigned) m.backward.toList)]

/-- The mapping of an item. Both sides are taken as they are. -/
def ofItem? (i : Item) : Option Mapping := do
  match ← i.fields? ["forward", "backward"] with
  | [forward, backward] =>
    let forward ← Item.required? (Item.list? (Item.option? Correspondence.ofItem?)) forward
    let backward ← Item.required? (Item.list? (Item.option? Item.index?)) backward
    return { forward := forward.toArray, backward := backward.toArray }
  | _ => none

end Mapping
end Concordance
