/-!
# JSON values

Values of a document as they stand in it: numbers by their digits, the fields of an object in
their order and with repeats. A string literal may hold an unpaired surrogate; it is well formed,
but there is no text that it denotes.

* `Value.record?`: the fields of a record, which a document writes as an object or as an array.
-/

namespace Sentential.Json

/-- What a string literal denotes: a text, or nothing if it has an unpaired surrogate. -/
abbrev Content := Option String

/-- A value of a JSON document. -/
inductive Value where
  | null
  | bool (b : Bool)
  | number (digits : String)
  | string (t : Content)
  | array (items : List Value)
  | object (fields : List (Content × Value))

namespace Value

/-- The string of a text. -/
def ofText (s : String) : Value :=
  string (some s)

/-- The number that `n` writes in decimal digits. -/
def ofNat (n : Nat) : Value :=
  number (String.ofList (Nat.toDigits 10 n))

/-- The object with the given fields. -/
def ofFields (fields : List (String × Value)) : Value :=
  object (fields.map fun field => (some field.1, field.2))

/-- The text, if the value is a string that denotes one. -/
def text? : Value → Option String
  | string t => t
  | _ => none

/-- The truth value, if it is one. -/
def bool? : Value → Option Bool
  | bool b => some b
  | _ => none

/-- The items, if the value is an array. -/
def items? : Value → Option (List Value)
  | array items => some items
  | _ => none

/-- The number that decimal digits write. -/
def ofDigits (digits : List Char) : Nat :=
  digits.foldl (fun n c => 10 * n + (c.toNat - '0'.toNat)) 0

/-- The natural number below `bound`, if the value is one and is written with digits only. -/
def natural? (bound : Nat) : Value → Option Nat
  | number digits =>
    let n := ofDigits digits.toList
    if digits.toList.all Char.isDigit ∧ n < bound then some n else none
  | _ => none

/-- The value of the field `name`: absent (`none` inside) or there once. Twice is an error. -/
def uniqueField? (fields : List (String × Value)) (name : String) : Option (Option Value) :=
  match fields.filter (·.1 = name) with
  | [] => some none
  | [field] => some (some field.2)
  | _ => none

/-- The values of the fields `names` of a record, each present or absent. An object names its
fields, in any order and together with fields that do not matter; every name must be a text. An
array lists the values in the order of `names` and may end early. -/
def record? (names : List String) : Value → Option (List (Option Value))
  | object fields => do
    let fields ← fields.mapM fun field => field.1.map (·, field.2)
    names.mapM (uniqueField? fields)
  | array items =>
    if items.length ≤ names.length then
      some (items.map some ++ List.replicate (names.length - items.length) none)
    else none
  | _ => none

end Value

end Sentential.Json
