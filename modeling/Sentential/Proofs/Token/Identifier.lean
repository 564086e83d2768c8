import Mathlib.Computability.Language
import Sentential.Proofs.Formula.Reading
import Sentential.Proofs.Token.Slicing

/-!
# One notion of a name

Three parts say what a name is: the check of a name, the tokens of a text and the reader. The check
goes by a regular expression and the reserved words, the tokens by the longest word that starts at a
character. All three agree on every text: it passes the check exactly when it is its own only token,
and exactly when it is read as the atom that it names.

* `namePattern`: the regular expression `[A-Za-z_][A-Za-z0-9_]*`.
* `mem_namePattern_iff`: its words, character by character.
* `isIdentifier_iff_mem_namePattern`: the check goes by the expression.
* `Token.kinds_eq_identifier_iff`, `Formula.parseRaw_eq_atom_iff`: a name as the only token.
* `isIdentifier_iff_read`: the three agree.
-/

namespace Sentential

open Text

variable {cs word : List Char} {s name : String}

/-! ## The regular expression -/

/-- The class `[A-Za-z_]`. -/
def nameStarts : CharClass :=
  ⟨[('A'.toNat, 'Z'.toNat), ('a'.toNat, 'z'.toNat), ('_'.toNat, '_'.toNat)]⟩

/-- The class `[A-Za-z0-9_]`. -/
def nameChars : CharClass :=
  ⟨('0'.toNat, '9'.toNat) :: nameStarts.ranges⟩

/-- The words of a single character of the class. -/
def oneOf (s : CharClass) : Language Char :=
  {word | ∃ c, s.contains c = true ∧ word = [c]}

/-- The regular expression `[A-Za-z_][A-Za-z0-9_]*`, for a text as a whole. -/
def namePattern : Language Char :=
  oneOf nameStarts * KStar.kstar (oneOf nameChars)

theorem mem_oneOf_iff {s : CharClass} : word ∈ oneOf s ↔ ∃ c, s.contains c = true ∧ word = [c] :=
  Iff.rfl

/-- Any number of characters of a class. -/
theorem mem_kstar_oneOf_iff {s : CharClass} :
    cs ∈ KStar.kstar (oneOf s) ↔ cs.all s.contains = true := by
  rw [Language.mem_kstar, List.all_eq_true]
  constructor
  · rintro ⟨words, rfl, hwords⟩ c hc
    obtain ⟨word, hword, hc⟩ := List.mem_flatten.1 hc
    obtain ⟨d, hd, rfl⟩ := mem_oneOf_iff.1 (hwords word hword)
    rwa [List.mem_singleton.1 hc]
  · intro hcs
    refine ⟨cs.map fun c => [c], (List.flatMap_singleton' cs).symm, fun word hword => ?_⟩
    obtain ⟨c, hc, rfl⟩ := List.mem_map.1 hword
    exact mem_oneOf_iff.2 ⟨c, hcs c hc, rfl⟩

theorem contains_nameStarts (c : Char) : nameStarts.contains c = isNameStart c := by
  have hunderscore : c = '_' ↔ '_'.toNat ≤ c.toNat ∧ c.toNat ≤ '_'.toNat := by
    rw [← Char.toNat_inj, Nat.le_antisymm_iff, and_comm]
  rw [Bool.eq_iff_iff, Token.isNameStart_iff, hunderscore, CharClass.contains_iff]
  simp only [nameStarts, List.mem_cons, List.not_mem_nil, or_false, exists_eq_or_imp,
    exists_eq_left]

theorem contains_nameChars (c : Char) : nameChars.contains c = isNameChar c := by
  rw [Bool.eq_iff_iff, Token.isNameChar_eq, Bool.or_eq_true, or_comm, ← contains_nameStarts,
    CharClass.contains_iff, CharClass.contains_iff, Char.isDigit_iff_toNat]
  simp only [nameChars, List.mem_cons, exists_eq_or_imp]

/-- The words of the pattern, character by character. -/
theorem mem_namePattern_iff : word ∈ namePattern ↔
    ∃ c cs, word = c :: cs ∧ isNameStart c = true ∧ cs.all isNameChar = true := by
  have hclass : nameChars.contains = isNameChar := funext contains_nameChars
  simp only [namePattern, Language.mem_mul, mem_oneOf_iff, mem_kstar_oneOf_iff, hclass,
    contains_nameStarts]
  constructor
  · rintro ⟨_, ⟨c, hc, rfl⟩, cs, hcs, rfl⟩
    exact ⟨c, cs, rfl, hc, hcs⟩
  · rintro ⟨c, cs, rfl, hc, hcs⟩
    exact ⟨[c], ⟨c, hc, rfl⟩, cs, hcs, rfl⟩

/-- The check of a name goes by the regular expression and the reserved words. -/
theorem isIdentifier_iff_mem_namePattern :
    isIdentifier s = true ↔ s.toList ∈ namePattern ∧ s ≠ "TRUE" ∧ s ≠ "FALSE" := by
  have hlookup : reservedWords.lookup s = none ↔ s ≠ "TRUE" ∧ s ≠ "FALSE" := by
    simp [reservedWords, List.lookup_eq_none_iff]
  simp only [Token.isIdentifier_iff, mem_namePattern_iff, hlookup, ← and_assoc, exists_and_right]

/-! ## A name as the only token -/

namespace Token

/-- A text is its only token exactly when it passes the check of a name. -/
theorem kinds_eq_identifier_iff : kinds s = [.identifier s] ↔ isIdentifier s = true := by
  constructor
  · intro h
    exact isIdentifier_of_mem_kinds (h ▸ List.mem_singleton_self _)
  · intro h
    have hword := charKinds_identifier h endsWord_nil
    rwa [List.append_nil, charKinds_nil, ← kinds_eq] at hword

/-- That token starts where the text does, and the text ends behind it. -/
theorem lex_eq_identifier_iff :
    lex s = [⟨.identifier s, 0⟩, ⟨.finish, s.utf8ByteSize⟩] ↔ isIdentifier s = true := by
  constructor
  · intro h
    rw [← kinds_eq_identifier_iff, kinds, h]
    rfl
  · intro h
    have hends : (TokenKind.identifier s).Ends [] := ⟨h, endsWord_nil⟩
    have hscan := scan_of_ends hends 0
    rw [List.append_nil, scan] at hscan
    exact congrArg (· ++ _) hscan

end Token

namespace Formula

/-- A text is read as an atom exactly when its only token is the name. -/
theorem parseRaw_eq_atom_iff : parseRaw s = .ok (.atom name) ↔
    Token.kinds s = [.identifier name] := by
  rw [parseRaw_eq_ok_iff]
  constructor
  · rintro ⟨hderives, -⟩
    exact hderives.kinds_eq.symm
  · intro hkinds
    rw [hkinds]
    have hatom : Derives .atom [.identifier name] (.atom name) := .name name
    exact ⟨hatom.loosen (Nat.zero_le _), Nat.zero_le _⟩

end Formula

/-- The check of a name, the tokens and the reader agree on what a name is. A text passes the check
exactly when it matches the regular expression and is not reserved, exactly when it is itself its
only token, and exactly when it is read as the atom of that name. -/
theorem isIdentifier_iff_read (s : String) :
    (isIdentifier s = true ↔ s.toList ∈ namePattern ∧ s ≠ "TRUE" ∧ s ≠ "FALSE") ∧
    (isIdentifier s = true ↔ Token.lex s = [⟨.identifier s, 0⟩, ⟨.finish, s.utf8ByteSize⟩]) ∧
    (isIdentifier s = true ↔ Formula.parseRaw s = .ok (.atom s)) := by
  refine ⟨isIdentifier_iff_mem_namePattern, Token.lex_eq_identifier_iff.symm, ?_⟩
  rw [Formula.parseRaw_eq_atom_iff, Token.kinds_eq_identifier_iff]

end Sentential
