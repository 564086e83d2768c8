import Sentential.Json.Basic

/-!
# Writing JSON

The text of a value, on one line without spaces or with one item a line, two spaces deeper inside
every array and object. In a string the quotation mark, the backslash and the controls are escaped
and nothing else is. An empty array or object has no space inside in either layout.
-/

namespace Sentential.Json

/-! ## Strings -/

/-- The letter that escapes a character after a backslash, if it has one. -/
def escapeLetter? (c : Char) : Option Char :=
  match c with
  | '"' => some '"'
  | '\\' => some '\\'
  | '\x08' => some 'b'
  | '\x0c' => some 'f'
  | '\n' => some 'n'
  | '\r' => some 'r'
  | '\t' => some 't'
  | _ => none

/-- How a character is written inside a string. -/
def escaped (c : Char) : List Char :=
  match escapeLetter? c with
  | some letter => ['\\', letter]
  | none =>
    if c.toNat < 0x20 then
      ['\\', 'u', '0', '0', Nat.digitChar (c.toNat / 16), Nat.digitChar (c.toNat % 16)]
    else [c]

/-- The literal of a string. The one that denotes no text is written as a surrogate. -/
def literal : Content → String
  | some s => String.ofList ('"' :: s.toList.flatMap escaped ++ ['"'])
  | none => "\"\\ud800\""

/-! ## Values -/

/-- Where lines are broken. -/
inductive Layout where
  | compact
  | indented
  deriving DecidableEq

namespace Layout

/-- What stands before an item `depth` containers deep. -/
def lineBreak (layout : Layout) (depth : Nat) : String :=
  match layout with
  | compact => ""
  | indented => "\n" ++ String.ofList (List.replicate (2 * depth) ' ')

/-- What stands between the name of a field and its value. -/
def colon : Layout → String
  | compact => ":"
  | indented => ": "

end Layout

mutual

/-- The text of a value `depth` containers deep. -/
def write (layout : Layout) (depth : Nat) : Value → String
  | .null => "null"
  | .bool true => "true"
  | .bool false => "false"
  | .number digits => digits
  | .string t => literal t
  | .array [] => "[]"
  | .array (v :: vs) =>
    "[" ++ layout.lineBreak (depth + 1) ++ write layout (depth + 1) v ++
      writeItems layout (depth + 1) vs ++ layout.lineBreak depth ++ "]"
  | .object [] => "\x7b\x7d"
  | .object ((name, v) :: fields) =>
    "\x7b" ++ layout.lineBreak (depth + 1) ++ literal name ++ layout.colon ++
      write layout (depth + 1) v ++ writeFields layout (depth + 1) fields ++
      layout.lineBreak depth ++ "\x7d"

/-- The text of the items after the first. -/
def writeItems (layout : Layout) (depth : Nat) : List Value → String
  | [] => ""
  | v :: vs =>
    "," ++ layout.lineBreak depth ++ write layout depth v ++ writeItems layout depth vs

/-- The text of the fields after the first. -/
def writeFields (layout : Layout) (depth : Nat) : List (Content × Value) → String
  | [] => ""
  | (name, v) :: fields =>
    "," ++ layout.lineBreak depth ++ literal name ++ layout.colon ++ write layout depth v ++
      writeFields layout depth fields

end

/-- The text of a document. -/
def Value.toText (layout : Layout) (v : Value) : String :=
  write layout 0 v

end Sentential.Json
