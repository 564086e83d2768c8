import Sentential.Proofs.Token.Positions

/-!
# Tokens and blanks make up a text

A token takes up the characters of its spelling, and what is between two tokens is blank. A word
ends where no character continues it, and a character is illegal only where neither a sign nor a
word starts. These rules leave no choice, so they say which tokens a text has.

* `TokenKind.Ends`: what may follow a token.
* `Token.spells_read`: a token that is read takes up its spelling.
* `Token.Spans`, `Token.spans_iff`: the tokens of some characters are those that the rules give.
* `Token.Spans.split_of_mem`, `Token.Spans.pairwise`, `Token.Spans.isBlank_iff`: where they stand,
  that they do not overlap, and that just the blanks are left out.
-/

namespace Sentential

open Text

namespace TokenKind

/-- The signs, a longer one before any that it ends with. -/
def signs : List TokenKind :=
  [connective .iff, connective .imp, neg, connective .conj, connective .disj, opening, closing]

/-- Whether a token may end where the characters `after` follow it. No character continues a word.
An illegal character starts no sign and no word, and it is not blank. -/
def Ends (after : List Char) : TokenKind → Prop
  | identifier name => isIdentifier name = true ∧ Token.EndsWord after
  | top | bottom => Token.EndsWord after
  | neg | connective _ | opening | closing => True
  | illegal c => isBlank c = false ∧ isNameStart c = false ∧
    ∀ sign ∈ signs, ¬ sign.spelling.toList <+: c :: after
  | finish => False

end TokenKind

namespace Token

variable {offset : Nat} {c : Char} {cs rest after : List Char} {kind : TokenKind} {ts : List Token}

/-! ## One token -/

theorem drop_length_takeWhile (test : Char → Bool) (cs : List Char) :
    cs.drop (cs.takeWhile test).length = cs.dropWhile test := by
  induction cs with
  | nil => rfl
  | cons c cs ih => cases h : test c <;> simp [h, ih]

theorem endsWord_dropWhile (cs : List Char) : EndsWord (cs.dropWhile isNameChar) := by
  intro c rest h
  have hhead := List.head?_dropWhile_not isNameChar cs
  rwa [h] at hhead

theorem ends_ofWord {word : String} (hword : word.toList = c :: cs) (hc : isNameStart c = true)
    (hcs : cs.all isNameChar = true) (hafter : EndsWord after) :
    (TokenKind.ofWord word).spelling = word ∧ (TokenKind.ofWord word).Ends after := by
  rw [TokenKind.ofWord]
  cases hlookup : reservedWords.lookup word with
  | none => exact ⟨rfl, isIdentifier_iff.2 ⟨c, cs, hword, hc, hcs, hlookup⟩, hafter⟩
  | some kind =>
    have hall : ∀ entry ∈ reservedWords, entry.2.spelling = entry.1 ∧
        (entry.2 = .top ∨ entry.2 = .bottom) := by decide
    obtain ⟨before, later, hsplit, -⟩ := List.lookup_eq_some_iff.1 hlookup
    obtain ⟨hspelling, hkind⟩ := hall (word, kind) (by rw [hsplit]; simp)
    refine ⟨hspelling, ?_⟩
    rcases hkind with rfl | rfl <;> exact hafter

/-- A sign is read where it starts. -/
theorem read_of_sign {sign : TokenKind} (hsign : sign ∈ TokenKind.signs)
    (h : sign.spelling.toList <+: c :: rest) :
    read c rest = (sign, sign.spelling.toList.length - 1) := by
  obtain ⟨after, h⟩ := h
  simp only [TokenKind.signs, List.mem_cons, List.not_mem_nil, or_false] at hsign
  rcases hsign with rfl | rfl | rfl | rfl | rfl | rfl | rfl
  all_goals
    simp only [TokenKind.spelling, Connective.symbol, String.reduceToList, List.cons_append,
      List.nil_append, List.cons.injEq] at h
    obtain ⟨rfl, rfl⟩ := h
    rfl

/-- A character that starts neither a sign nor a word is read as illegal. -/
theorem read_of_no_sign (hc : isNameStart c = false)
    (h : ∀ sign ∈ TokenKind.signs, ¬ sign.spelling.toList <+: c :: rest) :
    read c rest = (.illegal c, 0) := by
  simp only [TokenKind.signs, List.forall_mem_cons, TokenKind.spelling, Connective.symbol,
    String.reduceToList, List.cons_prefix_cons, List.nil_prefix, and_true] at h
  obtain ⟨hiff, himp, hneg, hconj, hdisj, hopening, hclosing, -⟩ := h
  have hiff' : ¬ (c = '<' ∧ rest.take 2 = ['=', '>']) := fun h =>
    hiff ⟨h.1.symm, h.2 ▸ List.take_prefix 2 rest⟩
  have himp' : ¬ (c = '=' ∧ rest.take 1 = ['>']) := fun h =>
    himp ⟨h.1.symm, h.2 ▸ List.take_prefix 1 rest⟩
  rw [read, if_neg hiff', if_neg himp', if_neg (Ne.symm hneg), if_neg (Ne.symm hconj),
    if_neg (Ne.symm hdisj), if_neg (Ne.symm hopening), if_neg (Ne.symm hclosing), hc,
    if_neg Bool.false_ne_true]

/-- A token that is read takes up its spelling, and it may end where it does. -/
theorem spells_read (hblank : isBlank c = false) (rest : List Char) :
    c :: rest.take (read c rest).2 = (read c rest).1.spelling.toList ∧
      (read c rest).1.Ends (rest.drop (read c rest).2) := by
  by_cases hsign : ∃ sign ∈ TokenKind.signs, sign.spelling.toList <+: c :: rest
  · obtain ⟨sign, hsign, hprefix⟩ := hsign
    have hall : ∀ sign ∈ TokenKind.signs, 0 < sign.spelling.toList.length ∧
        ∀ after, sign.Ends after := by
      simp [TokenKind.signs, TokenKind.Ends, TokenKind.spelling, Connective.symbol]
    obtain ⟨hpos, hends⟩ := hall sign hsign
    rw [read_of_sign hsign hprefix]
    refine ⟨?_, hends _⟩
    rw [← List.take_cons hpos, ← List.prefix_iff_eq_take.1 hprefix]
  · by_cases hc : isNameStart c = true
    · rw [read_of_isNameStart hc, drop_length_takeWhile,
        ← List.prefix_iff_eq_take.1 (List.takeWhile_prefix isNameChar)]
      obtain ⟨hspelling, hends⟩ := ends_ofWord String.toList_ofList hc List.all_takeWhile
        (endsWord_dropWhile rest)
      exact ⟨by rw [hspelling, String.toList_ofList], hends⟩
    · rw [Bool.not_eq_true] at hc
      simp only [not_exists, not_and] at hsign
      rw [read_of_no_sign hc hsign]
      refine ⟨?_, hblank, hc, hsign⟩
      simp [TokenKind.spelling]

/-- A word is read up to where it ends. -/
theorem read_fst_of_word {word : String} {d : Char} {ds : List Char} (hword : word.toList = d :: ds)
    (hd : isNameStart d = true) (hds : ds.all isNameChar = true) (hafter : EndsWord after)
    (hcs : c :: rest = word.toList ++ after) : (read c rest).1 = .ofWord word := by
  rw [hword, List.cons_append] at hcs
  obtain ⟨rfl, rfl⟩ := List.cons.inj hcs
  rw [read_of_isNameStart hd, takeWhile_of_endsWord hds hafter, ← hword, String.ofList_toList]

/-- The first token of some characters is the one that may end where its spelling does. -/
theorem read_fst_of_ends (h : kind.Ends after) (hcs : c :: rest = kind.spelling.toList ++ after) :
    (read c rest).1 = kind := by
  have hsigns : ∀ sign ∈ TokenKind.signs, sign = kind → (read c rest).1 = kind := by
    rintro sign hsign rfl
    rw [read_of_sign hsign ⟨after, hcs.symm⟩]
  cases kind with
  | identifier name =>
    obtain ⟨d, ds, hname, hd, hds, -⟩ := isIdentifier_iff.1 h.1
    rw [read_fst_of_word hname hd hds h.2 hcs, ofWord_of_isIdentifier h.1]
  | top | bottom => exact read_fst_of_word rfl (by decide) (by decide) h hcs
  | neg | opening | closing => exact hsigns _ (by decide) rfl
  | connective op => exact hsigns _ (by cases op <;> decide) rfl
  | illegal d =>
    obtain ⟨rfl, rfl⟩ : c = d ∧ rest = after := by simpa [TokenKind.spelling] using hcs
    rw [read_of_no_sign h.2.1 h.2.2]
  | finish => exact h.elim

theorem isBlank_of_isNameChar (h : isNameChar c = true) : isBlank c = false := by
  obtain ⟨hlow, hhigh⟩ := toNat_of_isNameChar h
  exact isBlank_of_toNat (by omega) hhigh

/-- A token takes up a character, and no blank. -/
theorem spelling_of_ends (h : kind.Ends after) : kind.spelling.toList ≠ [] ∧
    ∀ c ∈ kind.spelling.toList, isBlank c = false := by
  have hforall : ∀ cs : List Char, cs.any isBlank = false → ∀ c ∈ cs, isBlank c = false := by simp
  have hsigns : ∀ sign ∈ TokenKind.signs, sign.spelling.toList ≠ [] ∧
      ∀ c ∈ sign.spelling.toList, isBlank c = false := by
    have hany : ∀ sign ∈ TokenKind.signs, sign.spelling.toList ≠ [] ∧
        sign.spelling.toList.any isBlank = false := by decide
    exact fun sign hsign => (hany sign hsign).imp_right (hforall _)
  cases kind with
  | identifier name =>
    obtain ⟨c, cs, hname, hc, hcs, -⟩ := isIdentifier_iff.1 h.1
    simp only [TokenKind.spelling, hname]
    refine ⟨List.cons_ne_nil c cs, List.forall_mem_cons.2 ⟨isBlank_of_isNameStart hc, ?_⟩⟩
    exact fun d hd => isBlank_of_isNameChar (List.all_eq_true.1 hcs d hd)
  | top | bottom => exact ⟨by decide, hforall _ (by decide)⟩
  | neg | opening | closing => exact hsigns _ (by decide)
  | connective op => exact hsigns _ (by cases op <;> decide)
  | illegal c => simpa [TokenKind.spelling] using h.1
  | finish => exact h.elim

/-! ## The tokens of some characters -/

/-- The tokens take up the characters, of which the first stands at `offset`, up to blanks. -/
inductive Spans : (offset : Nat) → List Char → List Token → Prop
  | nil {offset : Nat} : Spans offset [] []
  | blank {offset : Nat} {c : Char} {cs : List Char} {ts : List Token} (hblank : isBlank c = true)
    (h : Spans (offset + c.utf8Size) cs ts) : Spans offset (c :: cs) ts
  | token {offset : Nat} {kind : TokenKind} {after : List Char} {ts : List Token}
    (hends : kind.Ends after) (h : Spans (offset + kind.spelling.utf8ByteSize) after ts) :
    Spans offset (kind.spelling.toList ++ after) (⟨kind, offset⟩ :: ts)

theorem spelling_append_drop_read (hblank : isBlank c = false) (rest : List Char) :
    (read c rest).1.spelling.toList ++ rest.drop (read c rest).2 = c :: rest := by
  rw [← (spells_read hblank rest).1, List.cons_append, List.take_append_drop]

/-- The bytes of a token that is read. -/
theorem utf8ByteSize_spelling_read (hblank : isBlank c = false) (rest : List Char) :
    (read c rest).1.spelling.utf8ByteSize = c.utf8Size + (read c rest).2 := by
  rw [← byteLength_toList, ← (spells_read hblank rest).1, byteLength, byteLength_take_read]

theorem scan_cons (hblank : isBlank c = false) (offset : Nat) (rest : List Char) :
    scan offset (c :: rest) = ⟨(read c rest).1, offset⟩ ::
      scan (offset + (read c rest).1.spelling.utf8ByteSize) (rest.drop (read c rest).2) := by
  rw [scan, hblank, if_neg Bool.false_ne_true, utf8ByteSize_spelling_read hblank, ← Nat.add_assoc]

/-- Where a token may end, the scan goes on behind its spelling. -/
theorem scan_of_ends (h : kind.Ends after) (offset : Nat) :
    scan offset (kind.spelling.toList ++ after) =
      ⟨kind, offset⟩ :: scan (offset + kind.spelling.utf8ByteSize) after := by
  obtain ⟨hne, hvisible⟩ := spelling_of_ends h
  obtain ⟨c, cs, hspelling⟩ := List.exists_cons_of_ne_nil hne
  have hblank : isBlank c = false := hvisible c (by simp [hspelling])
  have hkind : (read c (cs ++ after)).1 = kind :=
    read_fst_of_ends h (by rw [hspelling, List.cons_append])
  have htake := (spells_read hblank (cs ++ after)).1
  have hdrop : (cs ++ after).drop (read c (cs ++ after)).2 = after := by
    have happend := List.take_append_drop (read c (cs ++ after)).2 (cs ++ after)
    rw [(List.cons.inj (htake.trans (by rw [hkind, hspelling]))).2] at happend
    exact List.append_cancel_left happend
  rw [hspelling, List.cons_append, scan_cons hblank, hkind, hdrop]

/-- The tokens that are read take up the characters. -/
theorem spans_scan (offset : Nat) (cs : List Char) : Spans offset cs (scan offset cs) := by
  fun_induction scan offset cs with
  | case1 offset => exact .nil
  | case2 offset c rest hblank ih => exact .blank hblank ih
  | case3 offset c rest hblank kind count hread ih =>
    rw [Bool.not_eq_true] at hblank
    have hends := (spells_read hblank rest).2
    have hcs := spelling_append_drop_read hblank rest
    have hsize := utf8ByteSize_spelling_read hblank rest
    rw [hread] at hends hcs hsize
    rw [Nat.add_assoc, ← hsize] at ih ⊢
    rw [← hcs]
    exact .token hends ih

/-- The tokens of some characters are those that take them up. -/
theorem spans_iff : Spans offset cs ts ↔ ts = scan offset cs := by
  refine ⟨fun h => ?_, fun h => h ▸ spans_scan offset cs⟩
  induction h with
  | nil => rw [scan]
  | blank hblank _ ih => rw [scan, if_pos hblank, ih]
  | token hends _ ih => rw [scan_of_ends hends, ih]

/-! ## Where the tokens stand -/

/-- Where a token stands in the text ends. -/
def stop (t : Token) : Nat :=
  t.offset + t.kind.spelling.utf8ByteSize

/-- A token stands behind the characters before it, and takes up those of its spelling. -/
theorem Spans.split_of_mem (h : Spans offset cs ts) {t : Token} (ht : t ∈ ts) :
    ∃ before after, cs = before ++ t.kind.spelling.toList ++ after ∧
      t.offset = offset + byteLength before ∧ t.kind.Ends after := by
  induction h with
  | nil => cases ht
  | @blank _ c _ _ _ _ ih =>
    obtain ⟨before, after, hsplit, hoffset, hends⟩ := ih ht
    refine ⟨c :: before, after, by simp [hsplit], ?_, hends⟩
    rw [hoffset, byteLength, Nat.add_assoc]
  | @token _ kind after _ hends _ ih =>
    rcases List.mem_cons.1 ht with rfl | ht
    · exact ⟨[], after, rfl, rfl, hends⟩
    · obtain ⟨before, after', hsplit, hoffset, hends'⟩ := ih ht
      refine ⟨kind.spelling.toList ++ before, after', by simp [hsplit], ?_, hends'⟩
      rw [hoffset, byteLength_append, byteLength_toList, Nat.add_assoc]

theorem Spans.le_offset (h : Spans offset cs ts) {t : Token} (ht : t ∈ ts) : offset ≤ t.offset := by
  obtain ⟨before, after, -, hoffset, -⟩ := h.split_of_mem ht
  omega

/-- A token ends before the next one starts. -/
theorem Spans.pairwise (h : Spans offset cs ts) : ts.Pairwise fun t u => t.stop ≤ u.offset := by
  induction h with
  | nil => exact .nil
  | blank _ _ ih => exact ih
  | token _ h ih => exact .cons (fun u hu => h.le_offset hu) ih

theorem utf8ByteSize_pos_of_ends (h : kind.Ends after) : 0 < kind.spelling.utf8ByteSize := by
  obtain ⟨c, cs, hspelling⟩ := List.exists_cons_of_ne_nil (spelling_of_ends h).1
  have hpos := c.utf8Size_pos
  rw [← byteLength_toList, hspelling, byteLength]
  omega

/-- Just the blanks are left out: a character is no blank exactly when some token takes it up. -/
theorem Spans.isBlank_iff (h : Spans offset cs ts) {before after : List Char} {c : Char}
    (hcs : cs = before ++ c :: after) : isBlank c = false ↔
      ∃ t ∈ ts, t.offset ≤ offset + byteLength before ∧ offset + byteLength before < t.stop := by
  induction h generalizing before with
  | nil => simp at hcs
  | @blank offset d cs ts hblank h ih =>
    cases before with
    | nil =>
      obtain ⟨rfl, -⟩ := List.cons.inj hcs
      have hpos := d.utf8Size_pos
      simp only [hblank, Bool.true_eq_false, false_iff, not_exists, not_and, byteLength]
      intro t ht hle
      have hge := h.le_offset ht
      omega
    | cons d' before =>
      obtain ⟨rfl, hrest⟩ := List.cons.inj hcs
      rw [ih hrest, byteLength, Nat.add_assoc]
  | @token offset kind behind ts hends h ih =>
    have hstop : stop ⟨kind, offset⟩ = offset + kind.spelling.utf8ByteSize := rfl
    simp only [List.mem_cons, exists_eq_or_imp, hstop]
    -- the character is one of the first token, or it stands behind that token
    have hpart : (∃ spelled, kind.spelling.toList = before ++ c :: spelled) ∨
        ∃ between, before = kind.spelling.toList ++ between ∧ behind = between ++ c :: after := by
      rcases List.append_eq_append_iff.1 hcs with h | ⟨_ | ⟨d, spelled⟩, hspelling, hrest⟩
      · exact .inr h
      · exact .inr ⟨[], by simpa using hspelling.symm, hrest.symm⟩
      · obtain ⟨rfl, -⟩ := List.cons.inj hrest
        exact .inl ⟨spelled, hspelling⟩
    rcases hpart with ⟨spelled, hspelling⟩ | ⟨between, rfl, hbehind⟩
    · have hpos := c.utf8Size_pos
      have hsize : kind.spelling.utf8ByteSize =
          byteLength before + (c.utf8Size + byteLength spelled) := by
        rw [← byteLength_toList, hspelling, byteLength_append, byteLength]
      have hblank : isBlank c = false := (spelling_of_ends hends).2 c (by simp [hspelling])
      exact iff_of_true hblank (.inl (by omega))
    · rw [ih hbehind, byteLength_append, byteLength_toList, ← Nat.add_assoc]
      exact ⟨.inr, fun h => h.resolve_left (by omega)⟩

end Token

end Sentential
