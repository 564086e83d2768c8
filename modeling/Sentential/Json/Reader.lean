import Sentential.Json.Basic

/-!
# Reading JSON

A document is first cut into lexemes: signs, strings and other scalars. Then one pass over the
lexemes builds its value, with a frame for every array and object that is open. Containers may be
nested to any depth here; how deep a record may be is a matter of the record.

* `lexemes?`: the lexemes of a text, unless one of them is malformed.
* `parse?`: the value of a text.
-/

namespace Sentential.Json

/-! ## Strings -/

/-- A part of a string: a character, or a surrogate given by its number. -/
inductive StringPart where
  | char (c : Char)
  | surrogate (n : Nat)
  deriving DecidableEq

/-- The value of a hexadecimal digit, in either case. -/
def hexDigit? (c : Char) : Option Nat :=
  if c.isDigit then some (c.toNat - '0'.toNat)
  else if 'a' ≤ c ∧ c ≤ 'f' then some (c.toNat - 'a'.toNat + 10)
  else if 'A' ≤ c ∧ c ≤ 'F' then some (c.toNat - 'A'.toNat + 10)
  else none

/-- What the four digits after `\u` denote. -/
def unit? (a b c d : Char) : Option StringPart := do
  let n := 16 * (16 * (16 * (← hexDigit? a) + (← hexDigit? b)) + (← hexDigit? c)) + (← hexDigit? d)
  return if 0xd800 ≤ n ∧ n ≤ 0xdfff then .surrogate n else .char (Char.ofNat n)

/-- The character that a letter after a backslash denotes. -/
def unescaped? : Char → Option Char
  | '"' => some '"'
  | '\\' => some '\\'
  | '/' => some '/'
  | 'b' => some '\x08'
  | 'f' => some '\x0c'
  | 'n' => some '\n'
  | 'r' => some '\r'
  | 't' => some '\t'
  | _ => none

/-- The parts of a string whose opening quotation mark has been read, and what follows its closing
one. Control characters must be escaped. -/
def stringParts? : List Char → Option (List StringPart × List Char)
  | [] => none
  | '"' :: rest => some ([], rest)
  | '\\' :: 'u' :: a :: b :: c :: d :: rest => do
    let part ← unit? a b c d
    let (parts, after) ← stringParts? rest
    return (part :: parts, after)
  | '\\' :: letter :: rest => do
    let c ← unescaped? letter
    let (parts, after) ← stringParts? rest
    return (.char c :: parts, after)
  | c :: rest =>
    if c.toNat < 0x20 then none
    else do
      let (parts, after) ← stringParts? rest
      return (.char c :: parts, after)

theorem length_lt_of_stringParts? {cs after : List Char} {parts : List StringPart}
    (h : stringParts? cs = some (parts, after)) : after.length < cs.length := by
  fun_induction stringParts? cs generalizing parts with
  | case1 => cases h
  | case2 rest => simp_all
  | case3 a b c d rest ih =>
    simp only [Option.bind_eq_bind, Option.bind_eq_some_iff] at h
    obtain ⟨part, -, ⟨ps, r⟩, hrest, heq⟩ := h
    cases heq
    have : r.length < rest.length := ih hrest
    simp only [List.length_cons]; omega
  | case4 letter rest _ ih =>
    simp only [Option.bind_eq_bind, Option.bind_eq_some_iff] at h
    obtain ⟨c, -, ⟨ps, r⟩, hrest, heq⟩ := h
    cases heq
    have : r.length < rest.length := ih hrest
    simp only [List.length_cons]; omega
  | case5 => cases h
  | case6 c rest _ _ _ _ ih =>
    simp only [Option.bind_eq_bind, Option.bind_eq_some_iff] at h
    obtain ⟨⟨ps, r⟩, hrest, heq⟩ := h
    cases heq
    have : r.length < rest.length := ih hrest
    simp only [List.length_cons]; omega

/-- The characters that parts denote: a high surrogate and the low one after it are one character,
any other surrogate is unpaired. -/
def joinParts : List StringPart → Option (List Char)
  | [] => some []
  | .char c :: parts => (joinParts parts).map (c :: ·)
  | .surrogate high :: .surrogate low :: parts =>
    if high < 0xdc00 ∧ 0xdc00 ≤ low then
      (joinParts parts).map
        (Char.ofNat (0x10000 + (high - 0xd800) * 0x400 + (low - 0xdc00)) :: ·)
    else none
  | .surrogate _ :: _ => none

/-- The text of a string, if it denotes one. -/
def textOfParts (parts : List StringPart) : Content :=
  (joinParts parts).map String.ofList

/-! ## Numbers -/

/-- How many digits a text starts with. -/
def digitCount (cs : List Char) : Nat :=
  (cs.takeWhile Char.isDigit).length

/-- The size of an integer part: a zero, or digits that do not start with one. -/
def integerSize? : List Char → Option Nat
  | [] => none
  | c :: rest =>
    if c = '0' then some 1 else if c.isDigit then some (1 + digitCount rest) else none

/-- The size of a fraction, which may be missing. -/
def fractionSize? : List Char → Option Nat
  | '.' :: rest => if digitCount rest = 0 then none else some (1 + digitCount rest)
  | _ => some 0

/-- The size of a sign, which may be missing. -/
def signSize : List Char → Nat
  | '+' :: _ | '-' :: _ => 1
  | _ => 0

/-- The size of an exponent, which may be missing. -/
def exponentSize? : List Char → Option Nat
  | [] => some 0
  | c :: rest =>
    if c = 'e' ∨ c = 'E' then
      let size := digitCount (rest.drop (signSize rest))
      if size = 0 then none else some (1 + signSize rest + size)
    else some 0

/-- How many characters of a text belong to the number at its start, if there is one. -/
def numberSize? (cs : List Char) : Option Nat := do
  let sign := if cs.head? = some '-' then 1 else 0
  let integer ← integerSize? (cs.drop sign)
  let fraction ← fractionSize? (cs.drop (sign + integer))
  let exponent ← exponentSize? (cs.drop (sign + integer + fraction))
  return sign + integer + fraction + exponent

/-! ## Lexemes -/

/-- A sign or a scalar of a document. -/
inductive Lexeme where
  | openArray
  | closeArray
  | openObject
  | closeObject
  | comma
  | colon
  | string (t : Content)
  | scalar (v : Value)

/-- The four characters that may stand between lexemes. -/
def isSpace (c : Char) : Bool :=
  c = ' ' || c = '\t' || c = '\n' || c = '\r'

/-- The sign that a character is. -/
def signOf? : Char → Option Lexeme
  | '[' => some .openArray
  | ']' => some .closeArray
  | '\x7b' => some .openObject
  | '\x7d' => some .closeObject
  | ',' => some .comma
  | ':' => some .colon
  | _ => none

/-- The words of the language, without their first letter. -/
def wordAfter? : Char → Option (List Char × Value)
  | 't' => some (['r', 'u', 'e'], .bool true)
  | 'f' => some (['a', 'l', 's', 'e'], .bool false)
  | 'n' => some (['u', 'l', 'l'], .null)
  | _ => none

/-- The lexemes of a text; `none` if one is malformed. -/
def lexemes? : List Char → Option (List Lexeme)
  | [] => some []
  | c :: rest =>
    if isSpace c then lexemes? rest
    else if c = '"' then
      match h : stringParts? rest with
      | some (parts, after) =>
        have := length_lt_of_stringParts? h
        (lexemes? after).map (.string (textOfParts parts) :: ·)
      | none => none
    else
      match signOf? c, wordAfter? c, numberSize? (c :: rest) with
      | some sign, _, _ => (lexemes? rest).map (sign :: ·)
      | none, some (word, v), _ =>
        if rest.take word.length = word then
          (lexemes? (rest.drop word.length)).map (.scalar v :: ·)
        else none
      | none, none, some size =>
        let number := Value.number (String.ofList ((c :: rest).take size))
        (lexemes? (rest.drop (size - 1))).map (.scalar number :: ·)
      | none, none, none => none
termination_by cs => cs.length
decreasing_by
  all_goals simp only [List.length_cons, List.length_drop]; omega

/-! ## Values -/

/-- A container that is still open: its items or fields, the last read first, and in an object the
name of the field whose value comes next. -/
inductive Frame where
  | array (items : List Value)
  | object (fields : List (Content × Value)) (name : Content)

/-- What has been read, up to the frames that are open, the innermost first. -/
inductive State where
  /-- A value must come. -/
  | value (frames : List Frame)
  /-- An array has been opened: an item or the end of it must come. -/
  | arrayStart (frames : List Frame)
  /-- An object has been opened: a name or the end of it must come. -/
  | objectStart (frames : List Frame)
  /-- After a comma in an object a name must come. -/
  | name (fields : List (Content × Value)) (frames : List Frame)
  /-- After a name a colon must come. -/
  | colon (fields : List (Content × Value)) (name : Content) (frames : List Frame)
  /-- A value has just ended. -/
  | after (v : Value) (frames : List Frame)

/-- Begins a value. -/
def beginValue (frames : List Frame) : Lexeme → Option State
  | .openArray => some (.arrayStart frames)
  | .openObject => some (.objectStart frames)
  | .string t => some (.after (.string t) frames)
  | .scalar v => some (.after v frames)
  | _ => none

/-- What one lexeme does. -/
def step : State → Lexeme → Option State
  | .value frames, lexeme => beginValue frames lexeme
  | .arrayStart frames, .closeArray => some (.after (.array []) frames)
  | .arrayStart frames, lexeme => beginValue (.array [] :: frames) lexeme
  | .objectStart frames, .closeObject => some (.after (.object []) frames)
  | .objectStart frames, .string t => some (.colon [] t frames)
  | .name fields frames, .string t => some (.colon fields t frames)
  | .colon fields name frames, .colon => some (.value (.object fields name :: frames))
  | .after v (.array items :: frames), .comma => some (.value (.array (v :: items) :: frames))
  | .after v (.array items :: frames), .closeArray =>
    some (.after (.array (v :: items).reverse) frames)
  | .after v (.object fields name :: frames), .comma => some (.name ((name, v) :: fields) frames)
  | .after v (.object fields name :: frames), .closeObject =>
    some (.after (.object ((name, v) :: fields).reverse) frames)
  | _, _ => none

/-- The value read when the lexemes end. -/
def finish : State → Option Value
  | .after v [] => some v
  | _ => none

/-- The value of a document. -/
def parse? (text : String) : Option Value := do
  finish (← (← lexemes? text.toList).foldlM step (.value []))

end Sentential.Json
