import Sentential.TruthTable

/-!
# Explanations

A tree of labelled values that says how an answer came about. Its text has one line for each node,
indented by two spaces for every node above it.

* `Explanation.text`: the text of a tree.
-/

namespace Sentential

/-- A node of an explanation: what it is about, its value, a reason in words if it has one, and
what it rests on. -/
structure Explanation where
  label : String
  value : Bool
  why : Option String
  children : List Explanation

namespace Explanation

/-- A node that rests on nothing else. -/
def leaf (label : String) (value : Bool) (why : String) : Explanation :=
  ⟨label, value, some why, []⟩

/-- The line of a node `depth` nodes below the root. -/
def line (depth : Nat) (label : String) (value : Bool) (why : Option String) : String :=
  String.ofList (List.replicate (2 * depth) ' ') ++ label ++ " = " ++ TruthTable.word value ++
    (match why with
      | some reason => " (" ++ reason ++ ")"
      | none => "") ++ "\n"

mutual

/-- The lines of a tree whose root stands `depth` nodes below another. -/
def textAt (depth : Nat) : Explanation → String
  | ⟨label, value, why, children⟩ =>
    line depth label value why ++ textsAt (depth + 1) children

/-- The lines of several trees, one below the other. -/
def textsAt (depth : Nat) : List Explanation → String
  | [] => ""
  | e :: es => textAt depth e ++ textsAt depth es

end

/-- The text of a tree. -/
def text (e : Explanation) : String :=
  e.textAt 0

end Explanation

end Sentential
