import Sentential.Proofs.Formula.Groups
import Sentential.Proofs.Formula.Reading

/-!
# Reading what was written

The tokens of a formula's text derive the formula with the groups that the text shows. So a formula
whose names are identifiers is read back from its text, up to groups, exactly when the text is not
nested too deeply.

* `kinds_text`: the tokens of the text.
* `parseRaw_text_iff`: what the text is read as.
* `parse_text_iff`: what it is read as when the reader simplifies.
* `isIdentifier_of_parse`: the names of a formula that was read are identifiers.
* `text_inj`: no two formulas without groups have the same text.
* `parseRaw_text_exact`: writing and reading are inverse up to groups.
-/

namespace Sentential.Formula

/-! ## Derivations of bracketed formulas -/

theorem nesting_bracketed (f : Formula) : f.bracketed.nesting = f.printedDepth := by
  induction f with
  | bottom | top | atom => rfl
  | neg p ih => rw [bracketed, nesting, printedDepth, ih]
  | binary op p q ihp ihq => rw [bracketed, nesting, nesting, printedDepth, ihp, ihq]
  | group p ih =>
    rw [bracketed, printedDepth]
    split
    · exact ih
    · rw [nesting, ih]

theorem derives_bracketed (f : Formula) : Derives .unary f.bracketed.kinds f.bracketed := by
  induction f with
  | bottom => exact .ofAtom .bottom
  | top => exact .ofAtom .top
  | atom name => exact .ofAtom (.name name)
  | neg p ih => exact .neg ih
  | binary op p q ihp ihq =>
    have hop := op.strength_lt_four
    have hoperand : (Level.ofOperands op).strength ≤ Level.unary.strength := by
      rw [Level.strength_ofOperands]
      exact hop
    have hchain : Derives (.chain op) _ (.binary op p.bracketed q.bracketed) :=
      .snoc (ihp.loosen (Nat.le_of_lt hop)) (ihq.loosen hoperand)
    exact .ofAtom (.group (hchain.loosen (Nat.zero_le _)))
  | group p ih =>
    rw [bracketed]
    split
    · exact ih
    · exact .ofAtom (.group (ih.loosen (Nat.zero_le _)))

/-! ## The tokens of a text -/

open Token

/-- The text of a formula has the tokens of its bracketed form, whatever ends its last word. -/
theorem charKinds_text {f : Formula} (hnames : ∀ name ∈ f.occurrences, isIdentifier name = true)
    {rest : List Char} (hrest : EndsWord rest) :
    charKinds (f.text.toList ++ rest) = f.bracketed.kinds ++ charKinds rest := by
  have hclosing : ∀ cs, EndsWord (')' :: cs) := fun cs => endsWord_cons (by decide)
  have hblank : ∀ cs, EndsWord (' ' :: cs) := fun cs => endsWord_cons (by decide)
  induction f generalizing rest with
  | bottom | top => exact charKinds_word rfl (by decide) (by decide) hrest
  | atom name => exact charKinds_identifier (hnames name (by simp)) hrest
  | neg p ih =>
    simp only [text, bracketed, kinds, String.toList_append, List.append_assoc, List.cons_append]
    rw [← ih hnames hrest]
    exact charKinds_neg _
  | binary op p q ihp ihq =>
    have hp : ∀ name ∈ p.occurrences, isIdentifier name = true :=
      fun name hname => hnames name (by simp [hname])
    have hq : ∀ name ∈ q.occurrences, isIdentifier name = true :=
      fun name hname => hnames name (by simp [hname])
    calc charKinds ((binary op p q).text.toList ++ rest)
        = charKinds ('(' :: (p.text.toList ++ ' ' :: (op.symbol.toList ++
            ' ' :: (q.text.toList ++ ')' :: rest)))) := by
          simp [text]
      _ = .opening :: (p.bracketed.kinds ++ .connective op ::
            (q.bracketed.kinds ++ .closing :: charKinds rest)) := by
          rw [charKinds_opening, ihp hp (hblank _), charKinds_blank (by decide),
            charKinds_connective, charKinds_blank (by decide), ihq hq (hclosing _),
            charKinds_closing]
      _ = (binary op p q).bracketed.kinds ++ charKinds rest := by
          simp [bracketed, kinds]
  | group p ih =>
    rw [text_group, bracketed]
    split
    · exact ih hnames hrest
    · calc charKinds (("(" ++ p.text ++ ")").toList ++ rest)
          = charKinds ('(' :: (p.text.toList ++ ')' :: rest)) := by
            simp
        _ = .opening :: (p.bracketed.kinds ++ .closing :: charKinds rest) := by
            rw [charKinds_opening, ih hnames (hclosing _), charKinds_closing]
        _ = (group p.bracketed).kinds ++ charKinds rest := by
            simp [kinds]

variable {f g : Formula}

theorem kinds_text (hnames : ∀ name ∈ f.occurrences, isIdentifier name = true) :
    Token.kinds f.text = f.bracketed.kinds := by
  rw [Token.kinds_eq, ← List.append_nil f.text.toList, charKinds_text hnames endsWord_nil,
    charKinds_nil, List.append_nil]

/-! ## Reading a text back -/

/-- A written formula is read as its bracketed form, unless it is nested too deeply. -/
theorem parseRaw_text_iff (hnames : ∀ name ∈ f.occurrences, isIdentifier name = true) :
    parseRaw f.text = .ok g ↔ f.printedDepth ≤ nestingLimit ∧ g = f.bracketed := by
  have hderives : Derives (.chain .iff) f.bracketed.kinds f.bracketed :=
    (derives_bracketed f).loosen (Nat.zero_le _)
  rw [parseRaw_eq_ok_iff, kinds_text hnames, ← nesting_bracketed]
  constructor
  · rintro ⟨hg, hnesting⟩
    obtain rfl : g = f.bracketed := hg.unique hderives
    exact ⟨hnesting, rfl⟩
  · rintro ⟨hdepth, rfl⟩
    exact ⟨hderives, hdepth⟩

theorem parse_eq_ok_iff {text : String} :
    parse text = .ok f ↔ ∃ g, parseRaw text = .ok g ∧ g.simplify = f := by
  rw [parse]
  cases parseRaw text with
  | ok g => simp [Except.map]
  | error e => simp [Except.map]

/-- A written formula is read and simplified to the formula simplified. -/
theorem parse_text_iff (hnames : ∀ name ∈ f.occurrences, isIdentifier name = true) :
    parse f.text = .ok g ↔ f.printedDepth ≤ nestingLimit ∧ f.simplify = g := by
  have hsimplify : f.bracketed.simplify = f.simplify := simplify_congr (withoutGroups_bracketed f)
  simp only [parse_eq_ok_iff, parseRaw_text_iff hnames, and_assoc, exists_and_left,
    exists_eq_left, hsimplify]

/-- The names of a formula that was read and simplified are identifiers. -/
theorem isIdentifier_of_parse {text : String} (h : parse text = .ok f) :
    ∀ name ∈ f.occurrences, isIdentifier name = true := by
  intro name hname
  obtain ⟨g, hg, rfl⟩ := parse_eq_ok_iff.1 h
  obtain ⟨hderives, -⟩ := parseRaw_eq_ok_iff.1 hg
  have hmem := identifier_mem_kinds (occurrences_simplify_subset g hname)
  rw [hderives.kinds_eq] at hmem
  exact isIdentifier_of_mem_kinds hmem

/-- Texts tell formulas apart up to groups. -/
theorem withoutGroups_eq_of_text_eq (hf : ∀ name ∈ f.occurrences, isIdentifier name = true)
    (hg : ∀ name ∈ g.occurrences, isIdentifier name = true) (h : f.text = g.text) :
    f.withoutGroups = g.withoutGroups := by
  have hkinds : f.bracketed.kinds = g.bracketed.kinds := by
    rw [← kinds_text hf, h, kinds_text hg]
  have hbracketed : f.bracketed = g.bracketed :=
    (derives_bracketed f).unique (hkinds ▸ derives_bracketed g)
  rw [← withoutGroups_bracketed f, hbracketed, withoutGroups_bracketed]

/-- Texts tell formulas without groups apart. -/
theorem text_inj (hf : ∀ name ∈ f.occurrences, isIdentifier name = true)
    (hg : ∀ name ∈ g.occurrences, isIdentifier name = true) (hfgroup : f.hasGroup = false)
    (hggroup : g.hasGroup = false) : f.text = g.text ↔ f = g := by
  constructor
  · intro h
    have heq := withoutGroups_eq_of_text_eq hf hg h
    rwa [withoutGroups_of_hasGroup hfgroup, withoutGroups_of_hasGroup hggroup] at heq
  · rintro rfl
    rfl

/-- Writing and reading are inverse up to groups. A formula whose names are identifiers can be read
back from its text exactly when no more negations and brackets stand inside each other there than
the reader allows. What is read then is the formula up to groups, has its value under every
valuation and is written as the same text. -/
theorem parseRaw_text_exact (f : Formula)
    (hnames : ∀ name ∈ f.occurrences, isIdentifier name = true) :
    ((∃ g, parseRaw f.text = .ok g) ↔ f.printedDepth ≤ nestingLimit) ∧
    ∀ g, parseRaw f.text = .ok g →
      g.withoutGroups = f.withoutGroups ∧ (∀ v, g.eval v = f.eval v) ∧ g.text = f.text := by
  simp only [parseRaw_text_iff hnames, exists_and_left, exists_eq, and_true, true_and]
  rintro g ⟨-, rfl⟩
  have hgroups := withoutGroups_bracketed f
  refine ⟨hgroups, fun v => ?_, text_bracketed f⟩
  rw [← eval_withoutGroups, hgroups, eval_withoutGroups]

/-- A group around a negated chain, and one around an atom in it. -/
def mixedGroups : Formula :=
  group (neg (imp (conj (atom "a") (group (atom "TRUE_1"))) bottom))

theorem parseRaw_text_exact_mixed :
    (∀ name ∈ mixedGroups.occurrences, isIdentifier name = true) ∧
    mixedGroups.text = "(!((a & (TRUE_1)) => FALSE))" ∧
    ∃ g, parseRaw mixedGroups.text = .ok g ∧ g.withoutGroups = mixedGroups.withoutGroups ∧
      (∀ v, g.eval v = mixedGroups.eval v) ∧ g.text = mixedGroups.text := by
  have hnames : ∀ name ∈ mixedGroups.occurrences, isIdentifier name = true := by decide
  obtain ⟨hread, hsame⟩ := parseRaw_text_exact mixedGroups hnames
  obtain ⟨g, hg⟩ := hread.2 (by decide)
  exact ⟨hnames, by decide, g, hg, hsame g hg⟩

end Sentential.Formula
