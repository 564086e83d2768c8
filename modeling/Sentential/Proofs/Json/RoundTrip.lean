import Sentential.Json.Reader
import Sentential.Json.Writer

/-!
# Reading a written document

The text of a value is cut into the lexemes of the value, in either layout, and these lexemes build
the value again. Numbers are kept as they are written, so a value is read back if every number in
it is a decimal numeral; nothing else about a value matters, neither its depth nor its strings.

* `stringParts?_flatMap_escaped`: escaping a text and reading the escapes.
* `numberSize?_append`: a numeral is a number on its own.
* `lexemes?_write`: the lexemes of a written value.
* `foldlM_step_lexemes`: what the lexemes of a value build.
* `parse?_toText`: a written value is read back.
-/

namespace Sentential.Json

/-! ## Strings -/

theorem hexDigit?_digitChar {n : Nat} (h : n < 16) : hexDigit? n.digitChar = some n := by
  revert n
  decide

/-- The four digits in which a control character is written denote it. -/
theorem unit?_of_control {c : Char} (h : c.toNat < 0x20) :
    unit? '0' '0' (c.toNat / 16).digitChar (c.toNat % 16).digitChar = some (.char c) := by
  have hzero : hexDigit? '0' = some 0 := rfl
  have hvalue : 16 * (c.toNat / 16) + c.toNat % 16 = c.toNat := Nat.div_add_mod _ _
  have hsmall : ¬ (0xd800 ≤ c.toNat ∧ c.toNat ≤ 0xdfff) := by omega
  simp only [unit?, hzero, hexDigit?_digitChar (show c.toNat / 16 < 16 by omega),
    hexDigit?_digitChar (show c.toNat % 16 < 16 by omega), Option.bind_eq_bind, Option.bind_some,
    Nat.mul_zero, Nat.zero_add, hvalue, if_neg hsmall, Char.ofNat_toNat]
  rfl

theorem unescaped?_of_escapeLetter? {c letter : Char} (h : escapeLetter? c = some letter) :
    unescaped? letter = some c ∧ letter ≠ 'u' := by
  unfold escapeLetter? at h
  split at h <;> cases h <;> decide

/-- An escaped character is one part of a string. -/
theorem stringParts?_escaped (c : Char) (rest : List Char) :
    stringParts? (escaped c ++ rest) =
      (stringParts? rest).map fun (parts, after) => (.char c :: parts, after) := by
  rw [escaped]
  cases hletter : escapeLetter? c with
  | some letter =>
    obtain ⟨hc, hu⟩ := unescaped?_of_escapeLetter? hletter
    simp only [List.cons_append, List.nil_append]
    rw [stringParts?, hc]
    · cases stringParts? rest <;> rfl
    · rintro _ _ _ _ _ rfl
      exact absurd rfl hu
  | none =>
    simp only
    split
    · next hcontrol =>
      simp only [List.cons_append, List.nil_append, stringParts?, unit?_of_control hcontrol]
      cases stringParts? rest <;> rfl
    · next hprinted =>
      have hquote : c ≠ '"' := by
        rintro rfl
        cases hletter
      have hslash : c ≠ '\\' := by
        rintro rfl
        cases hletter
      simp only [List.cons_append, List.nil_append]
      rw [stringParts?, if_neg hprinted]
      · cases stringParts? rest <;> rfl
      · exact hquote
      · exact fun _ _ _ _ _ h => absurd h hslash
      · exact fun _ _ h => absurd h hslash

/-- The parts of a written text are its characters. -/
theorem stringParts?_flatMap_escaped (cs rest : List Char) :
    stringParts? (cs.flatMap escaped ++ '"' :: rest) = some (cs.map .char, rest) := by
  induction cs with
  | nil => rfl
  | cons c cs ih =>
    rw [List.flatMap_cons, List.append_assoc, stringParts?_escaped, ih]
    rfl

theorem joinParts_map_char (cs : List Char) : joinParts (cs.map .char) = some cs := by
  induction cs with
  | nil => rfl
  | cons c cs ih => rw [List.map_cons, joinParts, ih, Option.map_some]

/-! ## Numbers -/

/-- Whether characters are the decimal digits of a natural number, without a zero in front. -/
def isNumeral : List Char → Bool
  | [] => false
  | c :: cs => c.isDigit && cs.all Char.isDigit && (c != '0' || cs.isEmpty)

/-- Nothing follows that would go on with a numeral. -/
def EndsNumber (rest : List Char) : Prop :=
  ∀ c ∈ rest.head?, (c.isDigit || c == '.' || c == 'e' || c == 'E') = false

theorem endsNumber_nil : EndsNumber [] := by
  simp [EndsNumber]

theorem endsNumber_cons {c : Char} {rest : List Char}
    (h : (c.isDigit || c == '.' || c == 'e' || c == 'E') = false) : EndsNumber (c :: rest) := by
  simpa [EndsNumber] using h

section Numeral

variable {cs rest : List Char}

theorem digitCount_append (hcs : cs.all Char.isDigit = true) (hrest : EndsNumber rest) :
    digitCount (cs ++ rest) = cs.length := by
  have hstop : rest.takeWhile Char.isDigit = [] := by
    cases rest with
    | nil => rfl
    | cons c rest =>
      have hc := hrest c rfl
      simp only [Bool.or_eq_false_iff] at hc
      simp [hc.1.1.1]
  rw [digitCount, List.takeWhile_append_of_pos (List.all_eq_true.1 hcs), hstop, List.append_nil]

theorem integerSize?_append (hcs : isNumeral cs = true) (hrest : EndsNumber rest) :
    integerSize? (cs ++ rest) = some cs.length := by
  cases cs with
  | nil => cases hcs
  | cons c cs =>
    simp only [isNumeral, Bool.and_eq_true, Bool.or_eq_true, bne_iff_ne, List.isEmpty_iff] at hcs
    obtain ⟨⟨hdigit, hdigits⟩, hzero⟩ := hcs
    rw [List.cons_append, integerSize?, digitCount_append hdigits hrest]
    split
    · next hc =>
      obtain rfl : cs = [] := hzero.resolve_left (not_not_intro hc)
      rfl
    · rw [List.length_cons, Nat.add_comm]

theorem fractionSize?_of_endsNumber (hrest : EndsNumber rest) : fractionSize? rest = some 0 := by
  unfold fractionSize?
  split
  · cases hrest '.' rfl
  · rfl

theorem exponentSize?_of_endsNumber (hrest : EndsNumber rest) : exponentSize? rest = some 0 := by
  cases rest with
  | nil => rfl
  | cons c rest =>
    have hc := hrest c rfl
    simp only [Bool.or_eq_false_iff, beq_eq_false_iff_ne] at hc
    rw [exponentSize?, if_neg]
    rintro (h | h)
    · exact hc.1.2 h
    · exact hc.2 h

/-- A numeral is a number on its own. -/
theorem numberSize?_append (hcs : isNumeral cs = true) (hrest : EndsNumber rest) :
    numberSize? (cs ++ rest) = some cs.length := by
  have hsign : (cs ++ rest).head? ≠ some '-' := by
    cases cs with
    | nil => cases hcs
    | cons c cs =>
      rintro ⟨rfl⟩
      cases hcs
  simp only [numberSize?, if_neg hsign, List.drop_zero, integerSize?_append hcs hrest,
    Option.bind_eq_bind, Option.bind_some, Nat.zero_add, List.drop_left,
    fractionSize?_of_endsNumber hrest, exponentSize?_of_endsNumber hrest, Nat.add_zero]
  rfl

end Numeral

/-! ## Lexemes -/

section Lexemes

variable {rest : List Char}

theorem lexemes?_space {c : Char} (h : isSpace c = true) :
    lexemes? (c :: rest) = lexemes? rest := by
  rw [lexemes?, if_pos h]

theorem lexemes?_sign {c : Char} {sign : Lexeme} (h : signOf? c = some sign) :
    lexemes? (c :: rest) = (lexemes? rest).map (sign :: ·) := by
  have hspace : isSpace c = false := by
    unfold signOf? at h
    split at h <;> first | rfl | cases h
  have hquote : c ≠ '"' := by
    rintro rfl
    cases h
  rw [lexemes?, if_neg (by simp [hspace]), if_neg hquote]
  simp only [h]

theorem lexemes?_word {c : Char} {word : List Char} {v : Value}
    (h : wordAfter? c = some (word, v)) :
    lexemes? (c :: (word ++ rest)) = (lexemes? rest).map (.scalar v :: ·) := by
  have hspace : isSpace c = false ∧ c ≠ '"' ∧ signOf? c = none := by
    unfold wordAfter? at h
    split at h <;> first | decide | cases h
  rw [lexemes?, if_neg (by simp [hspace.1]), if_neg hspace.2.1]
  simp only [h, hspace.2.2, List.take_left', List.drop_left', if_true]

theorem lexemes?_string {parts : List StringPart} {after : List Char}
    (h : stringParts? rest = some (parts, after)) :
    lexemes? ('"' :: rest) = (lexemes? after).map (.string (textOfParts parts) :: ·) := by
  rw [lexemes?, if_neg (by decide), if_pos rfl]
  split
  · next heq =>
    cases h.symm.trans heq
    rfl
  · next heq => cases h.symm.trans heq

theorem lexemes?_literal (t : Content) :
    lexemes? ((literal t).toList ++ rest) = (lexemes? rest).map (.string t :: ·) := by
  cases t with
  | none =>
    have hparts : stringParts? ("\\ud800\"".toList ++ rest) =
        some ([.surrogate 0xd800], rest) := rfl
    exact lexemes?_string hparts
  | some s =>
    have hparts : stringParts? (s.toList.flatMap escaped ++ '"' :: rest) =
        some (s.toList.map .char, rest) := stringParts?_flatMap_escaped _ _
    have htext : textOfParts (s.toList.map .char) = some s := by
      rw [textOfParts, joinParts_map_char, Option.map_some, String.ofList_toList]
    rw [← htext, ← lexemes?_string hparts, htext]
    simp [literal]

/-- A digit begins no other lexeme than a number. -/
theorem of_isDigit {c : Char} (h : c.isDigit = true) :
    isSpace c = false ∧ c ≠ '"' ∧ signOf? c = none ∧ wordAfter? c = none := by
  have hne : ∀ d : Char, d.isDigit = false → c ≠ d := by
    rintro d hd rfl
    cases h.symm.trans hd
  refine ⟨?_, hne _ (by decide), ?_, ?_⟩
  · simp only [isSpace, Bool.or_eq_false_iff, decide_eq_false_iff_not]
    exact ⟨⟨⟨hne _ (by decide), hne _ (by decide)⟩, hne _ (by decide)⟩, hne _ (by decide)⟩
  all_goals
    first | unfold signOf? | unfold wordAfter?
    split <;> first | rfl | cases h

theorem lexemes?_numeral {digits : String} (h : isNumeral digits.toList = true)
    (hrest : EndsNumber rest) :
    lexemes? (digits.toList ++ rest) = (lexemes? rest).map (.scalar (.number digits) :: ·) := by
  have hsize := numberSize?_append h hrest
  have hback : String.ofList digits.toList = digits := String.ofList_toList
  generalize digits.toList = cs at h hsize hback
  cases cs with
  | nil => cases h
  | cons c cs =>
    have hdigit : c.isDigit = true := by
      simp only [isNumeral, Bool.and_eq_true] at h
      exact h.1.1
    obtain ⟨hspace, hquote, hsign, hword⟩ := of_isDigit hdigit
    rw [List.cons_append] at hsize ⊢
    rw [lexemes?, if_neg (by simp [hspace]), if_neg hquote]
    simp only [hsign, hword, hsize, List.length_cons, Nat.add_sub_cancel, List.take_succ_cons,
      List.take_left, List.drop_left, hback]

end Lexemes

/-! ## The lexemes of a value -/

mutual

/-- The lexemes that write a value. -/
def Value.lexemes : Value → List Lexeme
  | .null => [.scalar .null]
  | .bool b => [.scalar (.bool b)]
  | .number digits => [.scalar (.number digits)]
  | .string t => [.string t]
  | .array [] => [.openArray, .closeArray]
  | .array (v :: vs) => .openArray :: v.lexemes ++ itemLexemes vs ++ [.closeArray]
  | .object [] => [.openObject, .closeObject]
  | .object ((name, v) :: fields) =>
    .openObject :: .string name :: .colon :: v.lexemes ++ fieldLexemes fields ++ [.closeObject]

/-- The lexemes of the items after the first. -/
def itemLexemes : List Value → List Lexeme
  | [] => []
  | v :: vs => .comma :: v.lexemes ++ itemLexemes vs

/-- The lexemes of the fields after the first. -/
def fieldLexemes : List (Content × Value) → List Lexeme
  | [] => []
  | (name, v) :: fields => .comma :: .string name :: .colon :: v.lexemes ++ fieldLexemes fields

end

mutual

/-- Whether every number in a value is a numeral. -/
def Value.hasNumerals : Value → Bool
  | .number digits => isNumeral digits.toList
  | .array items => itemsHaveNumerals items
  | .object fields => fieldsHaveNumerals fields
  | _ => true

/-- Whether every number in a list of items is a numeral. -/
def itemsHaveNumerals : List Value → Bool
  | [] => true
  | v :: vs => v.hasNumerals && itemsHaveNumerals vs

/-- Whether every number in a list of fields is a numeral. -/
def fieldsHaveNumerals : List (Content × Value) → Bool
  | [] => true
  | (_, v) :: fields => v.hasNumerals && fieldsHaveNumerals fields

end

section Written

variable {layout : Layout} {depth : Nat} {rest : List Char}

theorem lexemes?_lineBreak :
    lexemes? ((layout.lineBreak depth).toList ++ rest) = lexemes? rest := by
  have hspaces : ∀ n, lexemes? (List.replicate n ' ' ++ rest) = lexemes? rest := by
    intro n
    induction n with
    | zero => rfl
    | succ n ih =>
      rw [List.replicate_succ, List.cons_append, lexemes?_space (by decide), ih]
  cases layout with
  | compact => rfl
  | indented =>
    simp only [Layout.lineBreak, String.toList_append, String.toList_ofList, List.append_assoc]
    exact (lexemes?_space (by decide)).trans (hspaces _)

theorem lexemes?_colon :
    lexemes? (layout.colon.toList ++ rest) = (lexemes? rest).map (.colon :: ·) := by
  cases layout with
  | compact => exact lexemes?_sign (c := ':') rfl
  | indented =>
    have hspace : lexemes? (' ' :: rest) = lexemes? rest := lexemes?_space (by decide)
    rw [← hspace]
    exact lexemes?_sign (c := ':') rfl

theorem endsNumber_lineBreak (h : EndsNumber rest) :
    EndsNumber ((layout.lineBreak depth).toList ++ rest) := by
  cases layout with
  | compact => exact h
  | indented =>
    simp only [Layout.lineBreak, String.toList_append, List.append_assoc]
    exact endsNumber_cons (by decide)

theorem endsNumber_writeItems (vs : List Value) (h : EndsNumber rest) :
    EndsNumber ((writeItems layout depth vs).toList ++ rest) := by
  cases vs with
  | nil => simpa [writeItems] using h
  | cons v vs =>
    simp only [writeItems, String.toList_append, List.append_assoc]
    exact endsNumber_cons (by decide)

theorem endsNumber_writeFields (fields : List (Content × Value)) (h : EndsNumber rest) :
    EndsNumber ((writeFields layout depth fields).toList ++ rest) := by
  cases fields with
  | nil => simpa [writeFields] using h
  | cons field fields =>
    simp only [writeFields, String.toList_append, List.append_assoc]
    exact endsNumber_cons (by decide)

end Written

mutual

/-- The lexemes of a written value, in either layout. -/
theorem lexemes?_write (layout : Layout) (depth : Nat) (v : Value) (hv : v.hasNumerals = true)
    {rest : List Char} (hrest : EndsNumber rest) :
    lexemes? ((write layout depth v).toList ++ rest) = (lexemes? rest).map (v.lexemes ++ ·) := by
  cases v with
  | null =>
    rw [write, Value.lexemes]
    exact lexemes?_word (c := 'n') rfl
  | bool b =>
    cases b with
    | false =>
      rw [write, Value.lexemes]
      exact lexemes?_word (c := 'f') rfl
    | true =>
      rw [write, Value.lexemes]
      exact lexemes?_word (c := 't') rfl
  | number digits => exact lexemes?_numeral hv hrest
  | string t => exact lexemes?_literal t
  | array items =>
    cases items with
    | nil =>
      have hclose : lexemes? (']' :: rest) = (lexemes? rest).map (.closeArray :: ·) :=
        lexemes?_sign rfl
      have hopen : lexemes? ('[' :: ']' :: rest) = _ := lexemes?_sign rfl
      rw [hclose, Option.map_map] at hopen
      rw [write, Value.lexemes]
      exact hopen
    | cons v vs =>
      obtain ⟨hv, hvs⟩ := Bool.and_eq_true_iff.1 hv
      -- the last item may be a number, and in the compact layout only the bracket ends it
      have hclose : EndsNumber ((layout.lineBreak depth).toList ++ ']' :: rest) :=
        endsNumber_lineBreak (endsNumber_cons (by decide))
      calc lexemes? ((write layout depth (.array (v :: vs))).toList ++ rest)
          = lexemes? ('[' :: ((layout.lineBreak (depth + 1)).toList ++
              ((write layout (depth + 1) v).toList ++ ((writeItems layout (depth + 1) vs).toList ++
                ((layout.lineBreak depth).toList ++ ']' :: rest))))) := by
            simp [write]
        _ = (lexemes? rest).map ((Value.array (v :: vs)).lexemes ++ ·) := by
            rw [lexemes?_sign rfl, lexemes?_lineBreak,
              lexemes?_write layout (depth + 1) v hv (endsNumber_writeItems vs hclose),
              lexemes?_writeItems layout (depth + 1) vs hvs hclose, lexemes?_lineBreak,
              lexemes?_sign rfl]
            cases lexemes? rest <;> simp [Value.lexemes]
  | object fields =>
    cases fields with
    | nil =>
      have hclose : lexemes? ('\x7d' :: rest) = (lexemes? rest).map (.closeObject :: ·) :=
        lexemes?_sign rfl
      have hopen : lexemes? ('\x7b' :: '\x7d' :: rest) = _ := lexemes?_sign rfl
      rw [hclose, Option.map_map] at hopen
      rw [write, Value.lexemes]
      exact hopen
    | cons field fields =>
      obtain ⟨name, v⟩ := field
      obtain ⟨hv, hfields⟩ := Bool.and_eq_true_iff.1 hv
      have hclose : EndsNumber ((layout.lineBreak depth).toList ++ '\x7d' :: rest) :=
        endsNumber_lineBreak (endsNumber_cons (by decide))
      calc lexemes? ((write layout depth (.object ((name, v) :: fields))).toList ++ rest)
          = lexemes? ('\x7b' :: ((layout.lineBreak (depth + 1)).toList ++
              ((literal name).toList ++ (layout.colon.toList ++
                ((write layout (depth + 1) v).toList ++
                  ((writeFields layout (depth + 1) fields).toList ++
                    ((layout.lineBreak depth).toList ++ '\x7d' :: rest))))))) := by
            simp [write]
        _ = (lexemes? rest).map ((Value.object ((name, v) :: fields)).lexemes ++ ·) := by
            rw [lexemes?_sign rfl, lexemes?_lineBreak, lexemes?_literal, lexemes?_colon,
              lexemes?_write layout (depth + 1) v hv (endsNumber_writeFields fields hclose),
              lexemes?_writeFields layout (depth + 1) fields hfields hclose, lexemes?_lineBreak,
              lexemes?_sign rfl]
            cases lexemes? rest <;> simp [Value.lexemes]

theorem lexemes?_writeItems (layout : Layout) (depth : Nat) (vs : List Value)
    (hvs : itemsHaveNumerals vs = true) {rest : List Char} (hrest : EndsNumber rest) :
    lexemes? ((writeItems layout depth vs).toList ++ rest) =
      (lexemes? rest).map (itemLexemes vs ++ ·) := by
  cases vs with
  | nil => simp [writeItems, itemLexemes]
  | cons v vs =>
    obtain ⟨hv, hvs⟩ := Bool.and_eq_true_iff.1 hvs
    calc lexemes? ((writeItems layout depth (v :: vs)).toList ++ rest)
        = lexemes? (',' :: ((layout.lineBreak depth).toList ++
            ((write layout depth v).toList ++ ((writeItems layout depth vs).toList ++ rest)))) := by
          simp [writeItems]
      _ = (lexemes? rest).map (itemLexemes (v :: vs) ++ ·) := by
          rw [lexemes?_sign rfl, lexemes?_lineBreak,
            lexemes?_write layout depth v hv (endsNumber_writeItems vs hrest),
            lexemes?_writeItems layout depth vs hvs hrest]
          cases lexemes? rest <;> simp [itemLexemes]

theorem lexemes?_writeFields (layout : Layout) (depth : Nat) (fields : List (Content × Value))
    (hfields : fieldsHaveNumerals fields = true) {rest : List Char} (hrest : EndsNumber rest) :
    lexemes? ((writeFields layout depth fields).toList ++ rest) =
      (lexemes? rest).map (fieldLexemes fields ++ ·) := by
  cases fields with
  | nil => simp [writeFields, fieldLexemes]
  | cons field fields =>
    obtain ⟨name, v⟩ := field
    obtain ⟨hv, hfields⟩ := Bool.and_eq_true_iff.1 hfields
    calc lexemes? ((writeFields layout depth ((name, v) :: fields)).toList ++ rest)
        = lexemes? (',' :: ((layout.lineBreak depth).toList ++ ((literal name).toList ++
            (layout.colon.toList ++ ((write layout depth v).toList ++
              ((writeFields layout depth fields).toList ++ rest)))))) := by
          simp [writeFields]
      _ = (lexemes? rest).map (fieldLexemes ((name, v) :: fields) ++ ·) := by
          rw [lexemes?_sign rfl, lexemes?_lineBreak, lexemes?_literal, lexemes?_colon,
            lexemes?_write layout depth v hv (endsNumber_writeFields fields hrest),
            lexemes?_writeFields layout depth fields hfields hrest]
          cases lexemes? rest <;> simp [fieldLexemes]

end

/-! ## What lexemes build -/

/-- A value begins with what can begin an item, so the first item is no different from the rest. -/
theorem foldlM_step_arrayStart (v : Value) (frames : List Frame) :
    v.lexemes.foldlM step (.arrayStart frames) =
      v.lexemes.foldlM step (.value (.array [] :: frames)) := by
  cases v with
  | null | bool | number | string => rw [Value.lexemes]; rfl
  | array items => cases items <;> (rw [Value.lexemes]; rfl)
  | object fields => cases fields <;> (rw [Value.lexemes]; rfl)

mutual

/-- The lexemes of a value build it, whatever is open around it. -/
theorem foldlM_step_lexemes (v : Value) (frames : List Frame) :
    v.lexemes.foldlM step (.value frames) = some (.after v frames) := by
  cases v with
  | null | bool | number | string => rw [Value.lexemes]; rfl
  | array items =>
    cases items with
    | nil => rw [Value.lexemes]; rfl
    | cons v vs =>
      rw [Value.lexemes, List.append_assoc]
      calc (v.lexemes ++ (itemLexemes vs ++ [Lexeme.closeArray])).foldlM step (.arrayStart frames)
          = (itemLexemes vs ++ [Lexeme.closeArray]).foldlM step
              (.after v (.array [] :: frames)) := by
            rw [List.foldlM_append, foldlM_step_arrayStart, foldlM_step_lexemes]
            rfl
        _ = some (.after (.array (v :: vs)) frames) := foldlM_step_itemLexemes vs v [] frames
  | object fields =>
    cases fields with
    | nil => rw [Value.lexemes]; rfl
    | cons field fields =>
      obtain ⟨name, v⟩ := field
      rw [Value.lexemes, List.append_assoc]
      calc (v.lexemes ++ (fieldLexemes fields ++ [Lexeme.closeObject])).foldlM step
            (.value (.object [] name :: frames))
          = (fieldLexemes fields ++ [Lexeme.closeObject]).foldlM step
              (.after v (.object [] name :: frames)) := by
            rw [List.foldlM_append, foldlM_step_lexemes]
            rfl
        _ = some (.after (.object ((name, v) :: fields)) frames) :=
            foldlM_step_fieldLexemes fields name v [] frames

/-- After an item, the lexemes of the others and the closing bracket build the array. -/
theorem foldlM_step_itemLexemes (vs : List Value) (v : Value) (items : List Value)
    (frames : List Frame) :
    (itemLexemes vs ++ [Lexeme.closeArray]).foldlM step (.after v (.array items :: frames)) =
      some (.after (.array (items.reverse ++ v :: vs)) frames) := by
  cases vs with
  | nil => simp [itemLexemes, step]
  | cons w vs =>
    rw [itemLexemes, List.append_assoc]
    calc (w.lexemes ++ (itemLexemes vs ++ [Lexeme.closeArray])).foldlM step
          (.value (.array (v :: items) :: frames))
        = (itemLexemes vs ++ [Lexeme.closeArray]).foldlM step
            (.after w (.array (v :: items) :: frames)) := by
          rw [List.foldlM_append, foldlM_step_lexemes]
          rfl
      _ = some (.after (.array (items.reverse ++ v :: w :: vs)) frames) := by
          rw [foldlM_step_itemLexemes, List.reverse_cons, List.append_assoc]
          rfl

/-- After a field, the lexemes of the others and the closing brace build the object. -/
theorem foldlM_step_fieldLexemes (rest : List (Content × Value)) (name : Content) (v : Value)
    (fields : List (Content × Value)) (frames : List Frame) :
    (fieldLexemes rest ++ [Lexeme.closeObject]).foldlM step
        (.after v (.object fields name :: frames)) =
      some (.after (.object (fields.reverse ++ (name, v) :: rest)) frames) := by
  cases rest with
  | nil => simp [fieldLexemes, step]
  | cons field rest =>
    obtain ⟨next, w⟩ := field
    rw [fieldLexemes, List.append_assoc]
    calc (w.lexemes ++ (fieldLexemes rest ++ [Lexeme.closeObject])).foldlM step
          (.value (.object ((name, v) :: fields) next :: frames))
        = (fieldLexemes rest ++ [Lexeme.closeObject]).foldlM step
            (.after w (.object ((name, v) :: fields) next :: frames)) := by
          rw [List.foldlM_append, foldlM_step_lexemes]
          rfl
      _ = some (.after (.object (fields.reverse ++ (name, v) :: (next, w) :: rest)) frames) := by
          rw [foldlM_step_fieldLexemes, List.reverse_cons, List.append_assoc]
          rfl

end

/-- A written value is read back, in either layout. -/
theorem parse?_toText (layout : Layout) {v : Value} (hv : v.hasNumerals = true) :
    parse? (v.toText layout) = some v := by
  have hlexemes : lexemes? (v.toText layout).toList = some v.lexemes := by
    have := lexemes?_write layout 0 v hv endsNumber_nil
    rwa [List.append_nil, lexemes?, Option.map_some, List.append_nil] at this
  rw [parse?, hlexemes]
  simp [foldlM_step_lexemes, finish]

end Sentential.Json
