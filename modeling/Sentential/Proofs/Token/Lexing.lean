import Sentential.Token.Lexer

/-!
# What tokens a text has

The kinds of the tokens do not depend on where the text stands, so they follow the text piece by
piece: a sign, a word that ends where no character continues it, or a blank. A token that may be
part of a formula is spelled by its sign or word, and tokens that are spelled with a blank after
each are read back. So any such tokens are those of some text.

* `Token.kinds`: the kinds of the tokens of a text, without the mark of its end.
* `Token.charKinds_sign`, `Token.charKinds_word`: the token of a sign and of a word.
* `Token.isIdentifier_of_mem_kinds`: the names among the tokens are identifiers.
* `TokenKind.isLegal`: the tokens that may be part of a formula.
* `Token.isLegal_of_mem_scan`: the tokens of a text are legal or single illegal characters.
* `Token.kinds_spelled`: legal tokens are the tokens of their spelling.
-/

namespace Sentential

namespace Token

/-- The kinds of the tokens of some characters. -/
def charKinds (cs : List Char) : List TokenKind :=
  (scan 0 cs).map kind

/-- The kinds of the tokens of a text, without the one that marks its end. -/
def kinds (text : String) : List TokenKind :=
  ((lex text).dropLast).map kind

theorem kinds_eq (text : String) : kinds text = charKinds text.toList := by
  simp [kinds, charKinds, lex]

theorem map_kind_lex (text : String) : (lex text).map kind = kinds text ++ [.finish] := by
  simp [kinds, lex]

/-- The kinds do not depend on where the characters stand. -/
theorem map_kind_scan (offset : Nat) (cs : List Char) :
    (scan offset cs).map kind = charKinds cs := by
  suffices h : ∀ offset', (scan offset cs).map kind = (scan offset' cs).map kind from h 0
  intro offset'
  fun_induction scan offset cs generalizing offset' with
  | case1 offset => simp [scan]
  | case2 offset c rest hblank ih =>
    rw [scan, if_pos hblank]
    exact ih _
  | case3 offset c rest hblank token count hread ih =>
    rw [scan, if_neg hblank, hread]
    simp only [List.map_cons, List.cons.injEq, true_and]
    exact ih _

theorem charKinds_nil : charKinds [] = [] := by
  simp [charKinds, scan]

theorem charKinds_blank {c : Char} (h : Text.isBlank c = true) (rest : List Char) :
    charKinds (c :: rest) = charKinds rest := by
  rw [charKinds, scan, if_pos h, map_kind_scan]

theorem charKinds_cons {c : Char} (h : Text.isBlank c = false) (rest : List Char) :
    charKinds (c :: rest) = (read c rest).1 :: charKinds (rest.drop (read c rest).2) := by
  rw [charKinds, scan, if_neg (by rw [h]; exact Bool.false_ne_true)]
  simp only [List.map_cons, map_kind_scan]

/-! ## Signs and words -/

theorem charKinds_neg (rest : List Char) : charKinds ('!' :: rest) = .neg :: charKinds rest := by
  rw [charKinds_cons (by decide)]
  rfl

theorem charKinds_opening (rest : List Char) :
    charKinds ('(' :: rest) = .opening :: charKinds rest := by
  rw [charKinds_cons (by decide)]
  rfl

theorem charKinds_closing (rest : List Char) :
    charKinds (')' :: rest) = .closing :: charKinds rest := by
  rw [charKinds_cons (by decide)]
  rfl

theorem charKinds_connective (op : Connective) (rest : List Char) :
    charKinds (op.symbol.toList ++ rest) = .connective op :: charKinds rest := by
  cases op
  all_goals
    simp only [Connective.symbol, String.reduceToList, List.cons_append, List.nil_append]
    rw [charKinds_cons (by decide)]
    rfl

/-- A character that starts a name is an ASCII letter or the underscore. -/
theorem isNameStart_iff {c : Char} : isNameStart c = true ↔
    ('A'.toNat ≤ c.toNat ∧ c.toNat ≤ 'Z'.toNat) ∨ ('a'.toNat ≤ c.toNat ∧ c.toNat ≤ 'z'.toNat) ∨
      c = '_' := by
  have hstart : isNameStart c = (decide ('A'.val ≤ c.val ∧ c.val ≤ 'Z'.val) ||
      (decide ('a'.val ≤ c.val) && decide (c.val ≤ 'z'.val)) || c == '_') := rfl
  simp only [hstart, Bool.or_eq_true, Bool.and_eq_true, decide_eq_true_eq, beq_iff_eq,
    UInt32.le_iff_toNat_le, or_assoc]
  rfl

theorem toNat_of_isNameStart {c : Char} (h : isNameStart c = true) :
    65 ≤ c.toNat ∧ c.toNat ≤ 122 := by
  rcases isNameStart_iff.1 h with h | h | rfl
  · exact ⟨h.1, Nat.le_trans h.2 (by decide)⟩
  · exact ⟨Nat.le_trans (by decide) h.1, h.2⟩
  · decide

/-- A character that continues a name may start one, or it is a digit. -/
theorem isNameChar_eq (c : Char) : isNameChar c = (isNameStart c || c.isDigit) := by
  rw [isNameChar, Char.isAlphanum, isNameStart, Bool.or_right_comm]

/-- No ASCII character from the exclamation mark on is blank. -/
theorem isBlank_of_toNat {c : Char} (hlow : 33 ≤ c.toNat) (hhigh : c.toNat < 128) :
    Text.isBlank c = false := by
  rw [Bool.eq_false_iff]
  intro hblank
  obtain ⟨r, hr, hle, hge⟩ := Text.CharClass.contains_iff.1 hblank
  have hall : ∀ r ∈ Text.blanks.ranges, r.2 < 33 ∨ 128 ≤ r.1 := by decide
  rcases hall r hr with hr | hr <;> omega

theorem isBlank_of_isNameStart {c : Char} (h : isNameStart c = true) : Text.isBlank c = false := by
  obtain ⟨hlow, hhigh⟩ := toNat_of_isNameStart h
  exact isBlank_of_toNat (by omega) (by omega)

theorem read_of_isNameStart {c : Char} (h : isNameStart c = true) (rest : List Char) :
    read c rest = (.ofWord (String.ofList (c :: rest.takeWhile isNameChar)),
      (rest.takeWhile isNameChar).length) := by
  have hne : ∀ d, isNameStart d = false → c ≠ d := by
    rintro d hd rfl
    rw [h] at hd
    cases hd
  rw [read, if_neg (fun hc => hne '<' (by decide) hc.1),
    if_neg (fun hc => hne '=' (by decide) hc.1), if_neg (hne '!' (by decide)),
    if_neg (hne '&' (by decide)), if_neg (hne '|' (by decide)), if_neg (hne '(' (by decide)),
    if_neg (hne ')' (by decide)), if_pos h]

/-- No character of `cs` at its start continues a word. -/
def EndsWord (cs : List Char) : Prop :=
  ∀ c rest, cs = c :: rest → isNameChar c = false

theorem endsWord_nil : EndsWord [] := by
  intro c rest h
  cases h

theorem endsWord_cons {c : Char} {rest : List Char} (h : isNameChar c = false) :
    EndsWord (c :: rest) := by
  intro d rest' heq
  cases heq
  exact h

theorem takeWhile_of_endsWord {word rest : List Char} (hword : word.all isNameChar = true)
    (hrest : EndsWord rest) : (word ++ rest).takeWhile isNameChar = word := by
  rw [List.takeWhile_append_of_pos (List.all_eq_true.1 hword)]
  cases rest with
  | nil => simp
  | cons c rest => simp [hrest c rest rfl]

/-- A word is read as far as its characters go. -/
theorem charKinds_word {word : String} {c : Char} {cs rest : List Char}
    (hword : word.toList = c :: cs) (hc : isNameStart c = true) (hcs : cs.all isNameChar = true)
    (hrest : EndsWord rest) :
    charKinds (word.toList ++ rest) = .ofWord word :: charKinds rest := by
  rw [hword, List.cons_append, charKinds_cons (isBlank_of_isNameStart hc),
    read_of_isNameStart hc, takeWhile_of_endsWord hcs hrest, List.drop_left, ← hword,
    String.ofList_toList]

/-! ## Identifiers -/

theorem isIdentifier_iff {name : String} : isIdentifier name = true ↔
    ∃ c cs, name.toList = c :: cs ∧ isNameStart c = true ∧ cs.all isNameChar = true ∧
      reservedWords.lookup name = none := by
  rw [isIdentifier]
  cases name.toList with
  | nil => simp
  | cons c cs => simp [and_assoc]

theorem ofWord_of_isIdentifier {name : String} (h : isIdentifier name = true) :
    TokenKind.ofWord name = .identifier name := by
  obtain ⟨c, cs, -, -, -, hlookup⟩ := isIdentifier_iff.1 h
  rw [TokenKind.ofWord, hlookup]
  rfl

theorem charKinds_identifier {name : String} (h : isIdentifier name = true) {rest : List Char}
    (hrest : EndsWord rest) :
    charKinds (name.toList ++ rest) = .identifier name :: charKinds rest := by
  obtain ⟨c, cs, hname, hc, hcs, -⟩ := isIdentifier_iff.1 h
  rw [charKinds_word hname hc hcs hrest, ofWord_of_isIdentifier h]

/-- A reserved word is no name. -/
theorem ofWord_of_lookup {word : String} {kind : TokenKind}
    (h : reservedWords.lookup word = some kind) (name : String) :
    TokenKind.ofWord word ≠ .identifier name := by
  have hkind : ∀ entry ∈ reservedWords, entry.2 = .top ∨ entry.2 = .bottom := by decide
  rw [TokenKind.ofWord, h, Option.getD_some]
  obtain ⟨before, after, hsplit, -⟩ := List.lookup_eq_some_iff.1 h
  rcases hkind (word, kind) (by rw [hsplit]; simp) with rfl | rfl <;> simp

theorem isIdentifier_of_read {c : Char} {rest : List Char} {name : String}
    (h : (read c rest).1 = .identifier name) : isIdentifier name = true := by
  by_cases hc : isNameStart c = true
  · rw [read_of_isNameStart hc] at h
    cases hlookup : reservedWords.lookup (String.ofList (c :: rest.takeWhile isNameChar)) with
    | some kind => exact absurd h (ofWord_of_lookup hlookup name)
    | none =>
      rw [TokenKind.ofWord, hlookup] at h
      cases h
      exact isIdentifier_iff.2 ⟨c, rest.takeWhile isNameChar, String.toList_ofList, hc,
        List.all_takeWhile, hlookup⟩
  · rw [read, if_neg hc] at h
    repeat' split at h
    all_goals cases h

theorem isIdentifier_of_mem_scan {offset : Nat} {cs : List Char} {name : String}
    (h : .identifier name ∈ (scan offset cs).map kind) : isIdentifier name = true := by
  fun_induction scan offset cs with
  | case1 offset => cases h
  | case2 offset c rest hblank ih => exact ih h
  | case3 offset c rest hblank token count hread ih =>
    rcases List.mem_cons.1 h with heq | h
    · have hname : (read c rest).1 = .identifier name := by rw [hread]; exact heq.symm
      exact isIdentifier_of_read hname
    · exact ih h

/-- The names among the tokens of a text are identifiers. -/
theorem isIdentifier_of_mem_kinds {text name : String} (h : .identifier name ∈ kinds text) :
    isIdentifier name = true := by
  rw [kinds_eq, charKinds] at h
  exact isIdentifier_of_mem_scan h

end Token

/-! ## Legal tokens -/

namespace TokenKind

/-- How a token is written. The end of a text is not written. -/
def spelling : TokenKind → String
  | identifier name => name
  | top => "TRUE"
  | bottom => "FALSE"
  | neg => "!"
  | connective op => op.symbol
  | opening => "("
  | closing => ")"
  | illegal c => c.toString
  | finish => ""

/-- Whether a token may be part of a formula. -/
def isLegal : TokenKind → Bool
  | identifier name => isIdentifier name
  | illegal _ | finish => false
  | _ => true

end TokenKind

namespace Token

/-- The token of a word is legal if the word is one character by character. -/
theorem isLegal_ofWord {word : String} {c : Char} {cs : List Char} (hword : word.toList = c :: cs)
    (hc : isNameStart c = true) (hcs : cs.all isNameChar = true) :
    (TokenKind.ofWord word).isLegal = true := by
  rw [TokenKind.ofWord]
  cases hlookup : reservedWords.lookup word with
  | none => exact isIdentifier_iff.2 ⟨c, cs, hword, hc, hcs, hlookup⟩
  | some kind =>
    have hall : ∀ entry ∈ reservedWords, entry.2.isLegal = true := by decide
    obtain ⟨before, after, hsplit, -⟩ := List.lookup_eq_some_iff.1 hlookup
    exact hall (word, kind) (by rw [hsplit]; simp)

/-- A token that is read is legal or a single illegal character. -/
theorem isLegal_read (c : Char) (rest : List Char) :
    (read c rest).1.isLegal = true ∨ (read c rest).1 = .illegal c := by
  by_cases hc : isNameStart c = true
  · rw [read_of_isNameStart hc]
    exact .inl (isLegal_ofWord String.toList_ofList hc List.all_takeWhile)
  · rw [read, if_neg hc]
    iterate 7 (split; · exact .inl rfl)
    exact .inr rfl

/-- The tokens of a text are legal or single illegal characters. -/
theorem isLegal_of_mem_scan {offset : Nat} {cs : List Char} {token : Token}
    (h : token ∈ scan offset cs) : token.kind.isLegal = true ∨ ∃ c, token.kind = .illegal c := by
  fun_induction scan offset cs with
  | case1 offset => cases h
  | case2 offset c rest hblank ih => exact ih h
  | case3 offset c rest hblank first count hread ih =>
    rcases List.mem_cons.1 h with rfl | h
    · have hfirst := isLegal_read c rest
      rw [hread] at hfirst
      exact hfirst.imp_right fun heq => ⟨c, heq⟩
    · exact ih h

/-! ## Reading the spelling back -/

/-- The text in which a blank follows each token. -/
def spelled (ts : List TokenKind) : String :=
  String.join (ts.map fun t => t.spelling ++ " ")

/-- A legal token is read back as far as the blank behind it. -/
theorem charKinds_spelling {t : TokenKind} (h : t.isLegal = true) (rest : List Char) :
    charKinds (t.spelling.toList ++ ' ' :: rest) = t :: charKinds rest := by
  have hblank : EndsWord (' ' :: rest) := endsWord_cons (by decide)
  rw [← charKinds_blank (c := ' ') (by decide) rest]
  cases t with
  | identifier name => exact charKinds_identifier h hblank
  | top | bottom => exact charKinds_word rfl (by decide) (by decide) hblank
  | neg => exact charKinds_neg _
  | connective op => exact charKinds_connective op _
  | opening => exact charKinds_opening _
  | closing => exact charKinds_closing _
  | illegal | finish => cases h

/-- Legal tokens are the tokens of their spelling. -/
theorem kinds_spelled {ts : List TokenKind} (h : ∀ t ∈ ts, t.isLegal = true) :
    kinds (spelled ts) = ts := by
  rw [kinds_eq]
  induction ts with
  | nil => exact charKinds_nil
  | cons t ts ih =>
    obtain ⟨ht, hts⟩ := List.forall_mem_cons.1 h
    have hcons : (spelled (t :: ts)).toList = t.spelling.toList ++ ' ' :: (spelled ts).toList := by
      simp [spelled]
    rw [hcons, charKinds_spelling ht, ih hts]

end Token

end Sentential
