import Sentential.Proofs.Token.Spans

/-!
# Reading tokens by byte offsets

The tokens of a text can be read over byte offsets: a slice of the text from an offset on, the
blanks at its start, a slice behind them, the token at the start of that one. A slice has to start
between two characters. It always does, because an offset moves over whole characters only, and each
round leaves a shorter text.

* `Text.sliceFrom?_append`, `Text.sliceTo?_append`: slices between two characters.
* `Token.readSlice_cons`: the token at the start of a slice, and the bytes that it takes.
* `Token.lexSlices_eq`: reading over byte offsets ends with the tokens of the text.
* `Token.lex_lossless`: what the tokens of a text are and where they stand.
-/

namespace Sentential

namespace Text

/-- What a text has from a byte offset on, unless the offset is inside a character or too large. -/
def sliceFrom? (cs : List Char) (offset : Nat) : Option (List Char) :=
  (charsBefore? cs offset).map cs.drop

/-- What a text has up to a byte offset, unless the offset is inside a character or too large. -/
def sliceTo? (cs : List Char) (offset : Nat) : Option (List Char) :=
  (charsBefore? cs offset).map cs.take

theorem sliceFrom?_append (cs ds : List Char) :
    sliceFrom? (cs ++ ds) (byteLength cs) = some ds := by
  rw [sliceFrom?, charsBefore?_byteLength, Option.map_some, List.drop_left]

theorem sliceTo?_append (cs ds : List Char) : sliceTo? (cs ++ ds) (byteLength cs) = some cs := by
  rw [sliceTo?, charsBefore?_byteLength, Option.map_some, List.take_left]

/-- The bytes of the longest start of a slice whose characters all pass the test. -/
def bytesWhile (test : Char → Bool) (cs : List Char) : Nat :=
  byteLength (cs.takeWhile test)

theorem sliceTo?_bytesWhile (test : Char → Bool) (cs : List Char) :
    sliceTo? cs (bytesWhile test cs) = some (cs.takeWhile test) := by
  have hslice := sliceTo?_append (cs.takeWhile test) (cs.dropWhile test)
  rwa [List.takeWhile_append_dropWhile] at hslice

end Text

namespace Token

open Text

variable {c : Char} {cs rest before : List Char}

/-! ## One token -/

/-- The token at the start of a slice and the bytes that it takes. The signs are tried in their
order, then a word is cut off the slice. -/
def readSlice (slice : List Char) : Option (TokenKind × Nat) :=
  match TokenKind.signs.find? (·.spelling.toList.isPrefixOf slice) with
  | some sign => some (sign, sign.spelling.utf8ByteSize)
  | none =>
    if isNameStart (slice.headD '\x00') then
      let bound := bytesWhile isNameChar slice
      (sliceTo? slice bound).map fun word => (.ofWord (String.ofList word), bound)
    else some (.illegal (slice.headD '\x00'), (slice.headD '\x00').utf8Size)

theorem isNameChar_of_isNameStart (h : isNameStart c = true) : isNameChar c = true := by
  rw [isNameChar_eq, h, Bool.true_or]

/-- The token at the start of a slice is the one that is read there, and it takes the bytes of its
spelling. -/
theorem readSlice_cons (c : Char) (rest : List Char) :
    readSlice (c :: rest) = some ((read c rest).1, (read c rest).1.spelling.utf8ByteSize) := by
  rw [readSlice]
  cases hfind : TokenKind.signs.find? (·.spelling.toList.isPrefixOf (c :: rest)) with
  | some sign =>
    have hprefix : sign.spelling.toList <+: c :: rest :=
      List.isPrefixOf_iff_prefix.1 (List.find?_some hfind :)
    rw [read_of_sign (List.mem_of_find?_eq_some hfind) hprefix]
  | none =>
    have hsign : ∀ sign ∈ TokenKind.signs, ¬ sign.spelling.toList <+: c :: rest := by
      simpa [List.isPrefixOf_iff_prefix] using hfind
    rw [List.headD_cons]
    by_cases hc : isNameStart c = true
    · have hword : (c :: rest).takeWhile isNameChar = c :: rest.takeWhile isNameChar := by
        rw [List.takeWhile_cons, if_pos (isNameChar_of_isNameStart hc)]
      have hspelling := (ends_ofWord (String.toList_ofList (l := c :: rest.takeWhile isNameChar)) hc
        List.all_takeWhile endsWord_nil).1
      rw [if_pos hc]
      simp only [sliceTo?_bytesWhile, Option.map_some]
      rw [read_of_isNameStart hc, hspelling, ← byteLength_toList, String.toList_ofList, bytesWhile,
        hword]
    · rw [read_of_no_sign (Bool.eq_false_iff.2 hc) hsign, if_neg hc]
      simp [TokenKind.spelling]

/-! ## All tokens -/

/-- The tokens of a text from a byte offset on, each with the bytes that it takes, in so many rounds
at most. There are none if the rounds do not suffice, or if a slice would cut a character. -/
def lexSlices (text : String) : (rounds : Nat) → (offset : Nat) → Option (List (Token × Nat))
  | 0, _ => none
  | rounds + 1, offset => do
    let slice ← sliceFrom? text.toList offset
    let start := offset + bytesWhile isBlank slice
    if text.utf8ByteSize ≤ start then
      return [(⟨.finish, text.utf8ByteSize⟩, 0)]
    let (kind, length) ← readSlice (← sliceFrom? text.toList start)
    return (⟨kind, start⟩, length) :: (← lexSlices text rounds (start + length))

theorem scan_dropWhile (offset : Nat) (cs : List Char) :
    scan offset cs = scan (offset + bytesWhile isBlank cs) (cs.dropWhile isBlank) := by
  induction cs generalizing offset with
  | nil => simp [bytesWhile, byteLength]
  | cons c cs ih =>
    cases hblank : isBlank c with
    | false => simp [bytesWhile, hblank, byteLength]
    | true =>
      rw [scan, if_pos hblank, ih]
      simp [bytesWhile, hblank, byteLength, Nat.add_assoc]

/-- The token with the bytes of its spelling. -/
def measured (t : Token) : Token × Nat :=
  (t, t.kind.spelling.utf8ByteSize)

/-- Behind some of the characters, reading goes on with the tokens of the others. -/
theorem lexSlices_append (text : String) {rounds : Nat} (htext : text.toList = before ++ cs)
    (hrounds : cs.length < rounds) : lexSlices text rounds (byteLength before) =
      some ((scan (byteLength before) cs).map measured ++ [(⟨.finish, text.utf8ByteSize⟩, 0)]) := by
  induction rounds generalizing before cs with
  | zero => exact absurd hrounds (Nat.not_lt_zero _)
  | succ rounds ih =>
    have hsplit : text.toList = (before ++ cs.takeWhile isBlank) ++ cs.dropWhile isBlank := by
      rw [htext, List.append_assoc, List.takeWhile_append_dropWhile]
    have hstart : byteLength before + bytesWhile isBlank cs =
        byteLength (before ++ cs.takeWhile isBlank) := by
      rw [byteLength_append, bytesWhile]
    have hsize : text.utf8ByteSize =
        byteLength (before ++ cs.takeWhile isBlank) + byteLength (cs.dropWhile isBlank) := by
      rw [← byteLength_toList, hsplit, byteLength_append]
    have hslice : sliceFrom? text.toList (byteLength before) = some cs := by
      rw [htext, sliceFrom?_append]
    have hslice' : sliceFrom? text.toList (byteLength (before ++ cs.takeWhile isBlank)) =
        some (cs.dropWhile isBlank) := by
      rw [hsplit, sliceFrom?_append]
    rw [lexSlices, scan_dropWhile]
    simp only [hslice, Option.bind_eq_bind, Option.bind_some, hstart, hslice']
    cases hrest : cs.dropWhile isBlank with
    | nil =>
      rw [hrest, byteLength, Nat.add_zero] at hsize
      rw [if_pos (Nat.le_of_eq hsize), scan]
      rfl
    | cons c rest =>
      have hblank : isBlank c = false := by
        have hhead := List.head?_dropWhile_not isBlank cs
        rwa [hrest] at hhead
      have hpos := c.utf8Size_pos
      rw [hrest, byteLength] at hsize
      have hnext : text.toList = (before ++ cs.takeWhile isBlank ++
          (read c rest).1.spelling.toList) ++ rest.drop (read c rest).2 := by
        rw [List.append_assoc, spelling_append_drop_read hblank, ← hrest, hsplit]
      have hlength : (rest.drop (read c rest).2).length < rounds := by
        have hle := (List.dropWhile_sublist (l := cs) isBlank).length_le
        rw [hrest, List.length_cons] at hle
        rw [List.length_drop]
        omega
      have hmore := ih hnext hlength
      rw [byteLength_append, byteLength_toList] at hmore
      rw [if_neg (by omega), readSlice_cons, Option.bind_some, hmore, scan_cons hblank]
      rfl

/-- Reading over byte offsets ends with the tokens of the text, after a round for each character and
one more at most. -/
theorem lexSlices_eq (text : String) :
    lexSlices text (text.length + 1) 0 = some ((lex text).map measured) := by
  have htext : text.toList = [] ++ text.toList := rfl
  have hslices := lexSlices_append text htext (Nat.lt_succ_self _)
  rw [String.length_toList] at hslices
  rw [lex, List.map_append]
  exact hslices

/-- The tokens of a text with the blanks between them make up the text. Reading over byte offsets
ends, after a round for each character and one more at most. It never cuts a character, and each
token takes the bytes of its spelling. The last token marks the end, behind the last byte, and no
other one does. Every other token takes up the characters of its spelling, at least one, between two
characters of the text, and it ends before the next one starts. No character behind a word continues
it, and an illegal character starts neither a sign nor a word. Just the blanks are left out. No
other tokens take up the text in this way. -/
theorem lex_lossless (text : String) :
    lexSlices text (text.length + 1) 0 = some ((lex text).map measured) ∧
    ∃ ts, lex text = ts ++ [⟨.finish, text.utf8ByteSize⟩] ∧
      (∀ t ∈ ts, t.kind ≠ .finish ∧ t.offset < t.stop ∧ ∃ before after,
        text.toList = before ++ t.kind.spelling.toList ++ after ∧
          t.offset = byteLength before ∧ t.kind.Ends after) ∧
      ts.Pairwise (fun t u => t.stop ≤ u.offset) ∧
      (∀ before c after, text.toList = before ++ c :: after → (isBlank c = false ↔
        ∃ t ∈ ts, t.offset ≤ byteLength before ∧ byteLength before < t.stop)) ∧
      ∀ ts', Spans 0 text.toList ts' ↔ ts' = ts := by
  have hspans : Spans 0 text.toList (scan 0 text.toList) := spans_scan 0 text.toList
  refine ⟨lexSlices_eq text, scan 0 text.toList, rfl, fun t ht => ?_, hspans.pairwise, ?_, ?_⟩
  · obtain ⟨before, after, hsplit, hoffset, hends⟩ := hspans.split_of_mem ht
    rw [Nat.zero_add] at hoffset
    refine ⟨?_, ?_, before, after, hsplit, hoffset, hends⟩
    · intro hkind
      rw [hkind] at hends
      exact hends
    · exact Nat.lt_add_of_pos_right (utf8ByteSize_pos_of_ends hends)
  · intro before c after hsplit
    simpa using hspans.isBlank_iff hsplit
  · exact fun ts' => spans_iff

end Token

end Sentential
