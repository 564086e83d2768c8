import Sentential.Explanation.Basic
import Sentential.Json.Reader
import Sentential.Json.Writer

/-!
# Explanations as JSON

A tree for other programs to read: a record with the fields `expr`, `value`, `why` and `children`.
A reason that is missing is left out in writing and may be null in reading.

* `Record.toJson`, `Record.ofJson?`: the tree as a value.
* `nestingRoom`: how many containers a document may nest where records are read.
-/

namespace Sentential.Explanation

/-- A node as it is written. -/
structure Record where
  expr : String
  value : Bool
  why : Option String
  children : List Record

mutual

/-- The tree as a record. -/
def toRecord : Explanation → Record
  | ⟨label, value, why, children⟩ => ⟨label, value, why, toRecords children⟩

/-- Several trees as records. -/
def toRecords : List Explanation → List Record
  | [] => []
  | e :: es => toRecord e :: toRecords es

end

/-- How many arrays and objects may stand inside each other where records are read. -/
def nestingRoom : Nat := 127

namespace Record

mutual

/-- The value of a record. -/
def toJson : Record → Json.Value
  | ⟨expr, value, why, children⟩ =>
    .ofFields ([("expr", .ofText expr), ("value", .bool value)] ++
      (why.map fun reason => ("why", Json.Value.ofText reason)).toList ++
      [("children", .array (toJsons children))])

/-- The values of several records. -/
def toJsons : List Record → List Json.Value
  | [] => []
  | r :: rs => toJson r :: toJsons rs

end

/-- A reason, which may be missing or null. -/
def why? : Option Json.Value → Option (Option String)
  | none | some .null => some none
  | some v => v.text?.map some

/-- The record that a value writes, if it needs no more than `room` nested containers: one for the
record and one for its children. -/
def ofJson? : (room : Nat) → Json.Value → Option Record
  | room + 2, v => do
    let [some expr, some value, why, some children] ←
      v.record? ["expr", "value", "why", "children"] | none
    return ⟨← expr.text?, ← value.bool?, ← why? why,
      ← (← children.items?).mapM (ofJson? room)⟩
  | _, _ => none

/-- The record that a text writes. -/
def parse? (text : String) : Option Record := do
  ofJson? nestingRoom (← Json.parse? text)

/-- The text of a record. -/
def text (layout : Json.Layout) (r : Record) : String :=
  r.toJson.toText layout

end Record

end Sentential.Explanation
