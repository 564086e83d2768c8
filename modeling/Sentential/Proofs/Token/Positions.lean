import Sentential.Formula.Parser
import Sentential.Proofs.Token.Lexing

/-!
# Where tokens stand

A token starts between two characters of its text: its offset counts the bytes of the characters
before it. Only the first character of a token may take more than one byte.

* `Text.byteLength_append`, `Text.byteLength_toList`: the bytes of characters and of a text.
* `Token.byteLength_take_read`: after its first character a token takes a byte for each.
* `Token.exists_split_of_mem_lex`: the characters before a token.
* `ParseError.atOffset_of_boundary`: an error between two characters has its offset and column.
-/

namespace Sentential

namespace Text

theorem byteLength_append (cs ds : List Char) :
    byteLength (cs ++ ds) = byteLength cs + byteLength ds := by
  induction cs with
  | nil => simp [byteLength]
  | cons c cs ih =>
    simp only [List.cons_append, byteLength, ih]
    omega

/-- The bytes of a text are those of its characters. -/
theorem byteLength_toList (text : String) : byteLength text.toList = text.utf8ByteSize := by
  suffices h : ∀ cs, byteLength cs = (String.ofList cs).utf8ByteSize by
    rw [h, String.ofList_toList]
  intro cs
  induction cs with
  | nil => rfl
  | cons c cs ih =>
    rw [byteLength, ih, String.ofList_cons, String.utf8ByteSize_append,
      String.utf8ByteSize_singleton]

/-- Each ASCII character takes one byte. -/
theorem byteLength_eq_length {cs : List Char} (h : ∀ c ∈ cs, c.toNat < 128) :
    byteLength cs = cs.length := by
  induction cs with
  | nil => rfl
  | cons c cs ih =>
    obtain ⟨hc, hcs⟩ := List.forall_mem_cons.1 h
    have hsize : c.utf8Size = 1 := by
      rw [Char.utf8Size_eq_one_iff, UInt32.le_iff_toNat_le]
      exact Nat.le_of_lt_succ hc
    rw [byteLength, hsize, ih hcs, List.length_cons]
    omega

end Text

namespace Token

open Text

theorem toNat_of_isNameChar {c : Char} (h : isNameChar c = true) :
    48 ≤ c.toNat ∧ c.toNat < 128 := by
  rw [isNameChar_eq, Bool.or_eq_true] at h
  rcases h with h | h
  · have := toNat_of_isNameStart h
    omega
  · obtain ⟨hlow, hhigh⟩ := Char.isDigit_iff_toNat.1 h
    exact ⟨hlow, Nat.lt_of_le_of_lt hhigh (by decide)⟩

/-- After its first character a token has ASCII characters only. -/
theorem toNat_of_mem_take_read {c d : Char} {rest : List Char}
    (h : d ∈ rest.take (read c rest).2) : d.toNat < 128 := by
  unfold read at h
  split at h
  · next hsign =>
    have hall : ∀ d ∈ ['=', '>'], d.toNat < 128 := by simp
    exact hall d (hsign.2 ▸ h)
  split at h
  · next hsign =>
    have hall : ∀ d ∈ ['>'], d.toNat < 128 := by simp
    exact hall d (hsign.2 ▸ h)
  iterate 5 (split at h; · cases h)
  split at h
  · rw [← List.prefix_iff_eq_take.1 (List.takeWhile_prefix isNameChar)] at h
    exact (toNat_of_isNameChar (List.all_eq_true.1 List.all_takeWhile d h)).2
  · cases h

/-- After its first character a token takes one byte for each character. -/
theorem byteLength_take_read (c : Char) (rest : List Char) :
    byteLength (rest.take (read c rest).2) = (read c rest).2 := by
  rw [byteLength_eq_length fun _ => toNat_of_mem_take_read, List.length_take,
    Nat.min_eq_left (read_count_le c rest)]

/-- A token stands behind some of the characters. -/
theorem exists_split_of_mem_scan {offset : Nat} {cs : List Char} {token : Token}
    (h : token ∈ scan offset cs) :
    ∃ before after, cs = before ++ after ∧ token.offset = offset + byteLength before := by
  fun_induction scan offset cs with
  | case1 offset => cases h
  | case2 offset c rest hblank ih =>
    obtain ⟨before, after, hsplit, hoffset⟩ := ih h
    refine ⟨c :: before, after, by rw [hsplit, List.cons_append], ?_⟩
    rw [hoffset, byteLength, Nat.add_assoc]
  | case3 offset c rest hblank first count hread ih =>
    rcases List.mem_cons.1 h with rfl | h
    · exact ⟨[], c :: rest, rfl, rfl⟩
    · obtain ⟨before, after, hsplit, hoffset⟩ := ih h
      have hcount : (read c rest).2 = count := by rw [hread]
      refine ⟨c :: (rest.take count ++ before), after, ?_, ?_⟩
      · rw [List.cons_append, List.append_assoc, ← hsplit, List.take_append_drop]
      · have htake : byteLength (rest.take count) = count := hcount ▸ byteLength_take_read c rest
        rw [hoffset, byteLength, byteLength_append, htake]
        omega

/-- A token of a text stands between two characters, and so does the mark of the end. -/
theorem exists_split_of_mem_lex {text : String} {token : Token} (h : token ∈ lex text) :
    ∃ before after, text.toList = before ++ after ∧ token.offset = byteLength before := by
  rcases List.mem_append.1 h with h | h
  · simpa using exists_split_of_mem_scan h
  · obtain rfl := List.mem_singleton.1 h
    exact ⟨text.toList, [], (List.append_nil _).symm, (byteLength_toList text).symm⟩

end Token

/-- An error between two characters has its offset and the column after the characters before. -/
theorem ParseError.atOffset_of_boundary {text : String} {before after : List Char}
    (h : text.toList = before ++ after) (detail : String) :
    atOffset text (Text.byteLength before) detail =
      ⟨Text.byteLength before, before.length + 1, detail⟩ := by
  have hle : Text.byteLength before ≤ text.utf8ByteSize := by
    rw [← Text.byteLength_toList, h, Text.byteLength_append]
    exact Nat.le_add_right _ _
  simp only [atOffset, Nat.min_eq_left hle, Text.columnAt_of_boundary h]

end Sentential
