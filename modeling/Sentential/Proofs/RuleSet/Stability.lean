import Sentential.Proofs.Formula.Chains
import Sentential.Proofs.RuleSet.Document
import Sentential.Proofs.TruthTable

/-!
# Saving, loading and saving again

A saved rule is read back as an equal rule exactly when the text of its simplified condition is read
as an equivalent formula. If the names in the condition are identifiers, only the depth of the text
matters. A loaded rule set can always be saved; what was saved can be loaded unless a condition is
nested too deeply, and it is saved as the same text unless simplifying stopped before the end.

A rule comes back as it was exactly when there was nothing to simplify, its names can be read, and
its text is not nested too deeply. No other condition comes back as itself by way of a different
one, because every pass that changes a formula makes it smaller.

* `reread_iff`: what a rule is read back as.
* `save_load_equals_iff`: when saved rules are read back as equal ones.
* `load_save_stable_iff`: when loading, saving, loading and saving gives the same text.
* `save_load_not_equals`, `load_save_unstable_links`: rules that do not come back, and a text that
  does not stay the same.
* `reread_self_iff`, `load_save_lossless_iff`: when rules come back as they were.
-/

namespace Sentential.RuleSet

open Formula

/-! ## Rules -/

section

variable {r r' : Rule}

/-- A rule is read back as an equal one when its condition keeps its meaning. -/
theorem Reread.equals_iff (h : Reread r r') :
    r.equals r' = true ↔ ∀ v, r.condition.eval v = r'.condition.eval v := by
  simp only [Rule.equals, h.id, h.conclusion, decide_true, Bool.true_and, equivalent_iff]

theorem Reread.equals_iff_parseRaw (h : Reread r r') : r.equals r' = true ↔
    ∃ f, parseRaw r.condition.simplify.text = .ok f ∧
      ∀ v, f.eval v = r.condition.eval v := by
  obtain ⟨f, hf, hcondition⟩ := parse_eq_ok_iff.1 h.condition
  simp [h.equals_iff, hf, ← hcondition, eq_comm]

/-- If the names in the condition are identifiers, only the depth of its text matters. -/
theorem reread_iff (hnames : ∀ name ∈ r.condition.simplify.occurrences, isIdentifier name = true) :
    Reread r r' ↔ r.condition.simplify.printedDepth ≤ nestingLimit ∧
      r' = ⟨r.id, r.condition.simplify.simplify, r.conclusion⟩ := by
  have hparse : ∀ g, parse r.condition.simplify.text = .ok g ↔
      r.condition.simplify.printedDepth ≤ nestingLimit ∧ r.condition.simplify.simplify = g :=
    fun g => parse_text_iff hnames
  constructor
  · intro h
    obtain ⟨hdepth, hcondition⟩ := (hparse _).1 h.condition
    exact ⟨hdepth, by rw [hcondition, ← h.id, ← h.conclusion]⟩
  · rintro ⟨hdepth, rfl⟩
    exact ⟨rfl, rfl, (hparse _).2 ⟨hdepth, rfl⟩⟩

/-- A rule that was read back is written as before exactly when no pass changes what was written. -/
theorem Reread.written_eq_iff (h : Reread r r')
    (hnames : ∀ name ∈ r.condition.simplify.occurrences, isIdentifier name = true) :
    Record.written r = Record.written r' ↔
      r.condition.simplify.simplifyPass = r.condition.simplify := by
  obtain ⟨-, rfl⟩ := (reread_iff hnames).1 h
  -- it was simplified when it was read back and is simplified once more when it is written
  have hagain : ∀ name ∈ r.condition.simplify.simplify.simplify.occurrences,
      isIdentifier name = true :=
    fun name hname => hnames name
      (occurrences_simplify_subset _ (occurrences_simplify_subset _ hname))
  have htext := text_inj hnames hagain (hasGroup_simplify _) (hasGroup_simplify _)
  rw [← simplify_simplify_eq_self_iff, eq_comm (b := r.condition.simplify), ← htext]
  simp [Record.written]

end

variable {rules again : List Rule} {saved : String}

/-! ## Documents of one rule -/

theorem save_singleton {r : Rule} (h : isIdentifier r.conclusion = true) :
    save [r] = .ok ((document [Record.written r]).toText .indented) :=
  save_eq_ok_iff.2 ⟨by simpa using h, rfl⟩

theorem load_singleton (id : String) {condition conclusion : String} {f : Formula}
    (hconclusion : isIdentifier conclusion = true) (hcondition : parse condition = .ok f) :
    load ((document [⟨id, condition, conclusion⟩]).toText .indented) =
      .ok [⟨id, f, conclusion⟩] := by
  have hrule : Record.toRule ⟨id, condition, conclusion⟩ = .ok ⟨id, f, conclusion⟩ :=
    Rule.parse_eq_ok_iff.2 ⟨hconclusion, f, hcondition, rfl⟩
  rw [load_document, List.mapM_cons, hrule]
  rfl

/-! ## Saving and loading -/

/-- Rules with identifiers only: the depth of the texts decides whether they can be loaded. -/
theorem exists_load_iff_depth (h : save rules = .ok saved)
    (hnames : ∀ r ∈ rules, ∀ name ∈ r.condition.simplify.occurrences, isIdentifier name = true) :
    (∃ again, load saved = .ok again) ↔
      ∀ r ∈ rules, r.condition.simplify.printedDepth ≤ nestingLimit := by
  simp only [load_save_iff h, exists_forall₂_iff]
  refine forall₂_congr fun r hr => ?_
  simp [reread_iff (hnames r hr)]

/-- Rules with identifiers only are loaded as equal ones. -/
theorem equals_of_load_save (h : save rules = .ok saved)
    (hnames : ∀ r ∈ rules, ∀ name ∈ r.condition.simplify.occurrences, isIdentifier name = true)
    (hload : load saved = .ok again) :
    List.Forall₂ (fun r r' => r.equals r' = true) rules again := by
  have hequals : ∀ r ∈ rules, ∀ r', Reread r r' → (r.equals r' = true ↔ True) := by
    intro r hr r' hreread
    obtain ⟨-, rfl⟩ := (reread_iff (hnames r hr)).1 hreread
    simp [hreread.equals_iff]
  exact (forall₂_iff_of_forall₂ ((load_save_iff h).1 hload) hequals).2 fun _ _ => trivial

/-- The rules that `save` accepts are read back as equal rules exactly when the text of each
simplified condition is read as an equivalent formula. If the names in the conditions are
identifiers, they are read back unless a text is nested too deeply, and never as other rules. -/
theorem save_load_equals_iff (h : save rules = .ok saved) :
    ((∃ again, load saved = .ok again ∧
        List.Forall₂ (fun r r' => r.equals r' = true) rules again) ↔
      ∀ r ∈ rules, ∃ f, parseRaw r.condition.simplify.text = .ok f ∧
        ∀ v, f.eval v = r.condition.eval v) ∧
    ((∀ r ∈ rules, ∀ name ∈ r.condition.simplify.occurrences, isIdentifier name = true) →
      ((∃ again, load saved = .ok again) ↔
        ∀ r ∈ rules, r.condition.simplify.printedDepth ≤ nestingLimit) ∧
      ∀ again, load saved = .ok again →
        List.Forall₂ (fun r r' => r.equals r' = true) rules again) := by
  refine ⟨?_, fun hnames =>
    ⟨exists_load_iff_depth h hnames, fun again => equals_of_load_save h hnames⟩⟩
  have hequals : ∀ again, List.Forall₂ Reread rules again →
      (List.Forall₂ (fun r r' => r.equals r' = true) rules again ↔
        ∀ r ∈ rules, ∃ f, parseRaw r.condition.simplify.text = .ok f ∧
          ∀ v, f.eval v = r.condition.eval v) :=
    fun again hreread => forall₂_iff_of_forall₂ hreread fun _ _ _ h => h.equals_iff_parseRaw
  constructor
  · rintro ⟨again, hload, hall⟩
    exact (hequals again ((load_save_iff h).1 hload)).1 hall
  · intro hall
    -- reading simplifies, which keeps the meaning, so the groups of `f` do not matter
    have hread : ∀ r ∈ rules, ∃ f, parse r.condition.simplify.text = .ok f := by
      intro r hr
      obtain ⟨f, hf, -⟩ := hall r hr
      exact ⟨f.simplify, parse_eq_ok_iff.2 ⟨f, hf, rfl⟩⟩
    obtain ⟨again, hload⟩ := (exists_load_save_iff h).2 hread
    exact ⟨again, hload, (hequals again ((load_save_iff h).1 hload)).2 hall⟩

/-- A rule with groups and a double negation, which are gone when it is read back. -/
def groupedRule : Rule :=
  ⟨"r1", neg (neg (group (conj (atom "x") (group (atom "y"))))), "z"⟩

theorem save_load_equals_grouped :
    ∃ saved, save [groupedRule] = .ok saved ∧ ∃ again, load saved = .ok again ∧
      List.Forall₂ (fun r r' => r.equals r' = true) [groupedRule] again := by
  have hsave : save [groupedRule] = .ok _ := save_singleton (by decide)
  obtain ⟨hdepth, hequals⟩ := (save_load_equals_iff hsave).2 (by decide)
  obtain ⟨again, hagain⟩ := hdepth.2 (by decide)
  exact ⟨_, hsave, again, hagain, hequals again hagain⟩

/-- A rule whose only name reads as a disjunction. -/
def misnamedRule : Rule :=
  ⟨"r1", atom "a | b", "c"⟩

theorem not_equals_of_load_misnamed :
    ∃ saved again, save [misnamedRule] = .ok saved ∧ load saved = .ok again ∧
      ¬ List.Forall₂ (fun r r' => r.equals r' = true) [misnamedRule] again := by
  have hsub : atom "a" :: [atom "b"] ⊆ [atom "a", atom "b"] := List.Subset.refl _
  have hread : parse (chainText .disj (atom "a") [atom "b"]) = .ok (disj (atom "a") (atom "b")) :=
    parse_eq_ok_iff.2 ⟨_, parseRaw_chainText_of_subset (by decide) hsub, by decide⟩
  have hsave : save [misnamedRule] = .ok _ := save_singleton (by decide)
  refine ⟨_, _, hsave, load_singleton "r1" (by decide) hread, fun hall => ?_⟩
  obtain ⟨hequals, -⟩ := List.forall₂_cons.1 hall
  simp only [Rule.equals, Bool.and_eq_true, equivalent_iff] at hequals
  have hvalue := hequals.2 ((∅ : Valuation).insert "a" true)
  simp only [misnamedRule, eval, Valuation.value_insert] at hvalue
  exact absurd hvalue (by decide)

/-- A flat conjunction is read and saved however long it is, but the text that is saved has a pair
of brackets for every `&`. -/
theorem not_load_of_longConjunction {n : Nat} (hn : nestingLimit < n) :
    ∃ r saved, Rule.parse "r1" (longConjunctionText n) "c" = .ok r ∧ save [r] = .ok saved ∧
      ∀ again, load saved ≠ .ok again := by
  have hsimplify : (longConjunction n).simplify = longConjunction n :=
    simplify_eq_self_iff.2 (simplifyPass_longConjunction n)
  have hcondition : parse (longConjunctionText n) = .ok (longConjunction n) :=
    parse_eq_ok_iff.2 ⟨_, parseRaw_longConjunctionText n, hsimplify⟩
  have hconclusion : isIdentifier "c" = true := by decide
  have hsave : save [⟨"r1", longConjunction n, "c"⟩] = .ok _ := save_singleton hconclusion
  refine ⟨_, _, Rule.parse_eq_ok_iff.2 ⟨hconclusion, _, hcondition, rfl⟩, hsave,
    fun again h => ?_⟩
  have hnames : ∀ name ∈ (longConjunction n).occurrences, isIdentifier name = true :=
    isIdentifier_of_parse hcondition
  have hdepth := (exists_load_iff_depth hsave (by simpa [hsimplify] using hnames)).1 ⟨again, h⟩
  have hle : (longConjunction n).printedDepth ≤ nestingLimit := by
    simpa [hsimplify] using hdepth
  have := le_printedDepth_longConjunction n
  omega

/-- Two rules that are saved and do not come back: one is loaded as another rule, and one is not
loaded at all. -/
theorem save_load_not_equals :
    (∃ saved again, save [misnamedRule] = .ok saved ∧ load saved = .ok again ∧
      ¬ List.Forall₂ (fun r r' => r.equals r' = true) [misnamedRule] again) ∧
    ∃ r saved, Rule.parse "r1" (longConjunctionText 257) "c" = .ok r ∧ save [r] = .ok saved ∧
      ∀ again, load saved ≠ .ok again :=
  ⟨not_equals_of_load_misnamed, not_load_of_longConjunction (by decide)⟩

/-- A loaded rule set can be saved. What is saved then can be loaded unless a condition is nested
too deeply; it is loaded as equal rules, and those are saved as the same text exactly when no pass
changes a simplified condition. -/
theorem load_save_stable_iff {text : String} (h : load text = .ok rules) :
    ∃ saved, save rules = .ok saved ∧
      ((∃ again, load saved = .ok again) ↔
        ∀ r ∈ rules, r.condition.simplify.printedDepth ≤ nestingLimit) ∧
      ∀ again, load saved = .ok again →
        List.Forall₂ (fun r r' => r.equals r' = true) rules again ∧
        (save again = .ok saved ↔
          ∀ r ∈ rules, r.condition.simplify.simplifyPass = r.condition.simplify) := by
  have hrule : ∀ r ∈ rules, isIdentifier r.conclusion = true ∧
      ∀ name ∈ r.condition.simplify.occurrences, isIdentifier name = true := by
    intro r hr
    obtain ⟨condition, hparse⟩ := exists_parse_of_load h hr
    obtain ⟨hconclusion, f, hf, heq⟩ := Rule.parse_eq_ok_iff.1 hparse
    have hcondition : r.condition = f := congrArg Rule.condition heq
    refine ⟨hconclusion, fun name hname => isIdentifier_of_parse hf name ?_⟩
    exact occurrences_simplify_subset f (hcondition ▸ hname)
  have hnames := fun r hr => (hrule r hr).2
  obtain ⟨saved, hsaved⟩ : ∃ saved, save rules = .ok saved :=
    ⟨_, save_eq_ok_iff.2 ⟨fun r hr => (hrule r hr).1, rfl⟩⟩
  refine ⟨saved, hsaved, exists_load_iff_depth hsaved hnames, fun again hagain =>
    ⟨equals_of_load_save hsaved hnames hagain, ?_⟩⟩
  rw [save_eq_save_iff hsaved]
  exact forall₂_iff_of_forall₂ ((load_save_iff hsaved).1 hagain)
    fun r hr _ hreread => hreread.written_eq_iff (hnames r hr)

/-- A document of one rule, loaded, saved and loaded again. -/
theorem load_save_stable_conjunction :
    ∃ rules saved again,
      load ((document [⟨"r1", "(a & b)", "c"⟩]).toText .indented) = .ok rules ∧
      save rules = .ok saved ∧ load saved = .ok again ∧
      List.Forall₂ (fun r r' => r.equals r' = true) rules again ∧ save again = .ok saved := by
  have hparse : parse (conj (atom "a") (atom "b")).text = .ok (conj (atom "a") (atom "b")) :=
    (parse_text_iff (by decide)).2 ⟨by decide, by decide⟩
  have hload : load ((document [⟨"r1", "(a & b)", "c"⟩]).toText .indented) =
      .ok [⟨"r1", conj (atom "a") (atom "b"), "c"⟩] := load_singleton "r1" (by decide) hparse
  obtain ⟨saved, hsave, hdepth, hstable⟩ := load_save_stable_iff hload
  obtain ⟨again, hagain⟩ := hdepth.2 (by decide)
  obtain ⟨hequals, hsame⟩ := hstable again hagain
  exact ⟨_, saved, again, hload, hsave, hagain, hequals, hsame.2 (by decide)⟩

/-- A flat text of links is loaded as a condition that simplifying does not finish. It is saved with
one link left, and that link is gone when it is saved again. -/
theorem load_save_unstable_links :
    ∃ rules saved again,
      load ((document [⟨"r1", linksText 128, "b"⟩]).toText .indented) = .ok rules ∧
      save rules = .ok saved ∧ load saved = .ok again ∧ save again ≠ .ok saved := by
  have hloaded : parse (linksText 128) = .ok (cascade 65) :=
    parse_eq_ok_iff.2 ⟨_, parseRaw_linksText 128, simplify_links 65⟩
  have hsimplify : (cascade 65).simplify = cascade 1 := simplify_cascade 1
  have hsave : save [⟨"r1", cascade 65, "b"⟩] =
      .ok ((document [⟨"r1", (cascade 1).text, "b"⟩]).toText .indented) := by
    rw [← hsimplify]
    exact save_singleton (by decide)
  have hreloaded : parse (cascade 1).text = .ok bottom :=
    (parse_text_iff (by decide)).2 ⟨by decide, by decide⟩
  refine ⟨_, _, _, load_singleton "r1" (by decide) hloaded, hsave,
    load_singleton "r1" (by decide) hreloaded, fun hsame => ?_⟩
  have hrecords := (save_eq_save_iff hsave).1 hsame
  have htext : (cascade 65).simplify.text = bottom.simplify.text := by
    simpa [Record.written] using hrecords
  rw [hsimplify] at htext
  exact absurd htext (by decide)

/-! ## Nothing to simplify -/

/-- A rule is read back as it was exactly when no pass changes its condition, the names in the
condition are identifiers and its text is not nested too deeply. -/
theorem reread_self_iff {r : Rule} : Reread r r ↔ r.condition.simplifyPass = r.condition ∧
    (∀ name ∈ r.condition.occurrences, isIdentifier name = true) ∧
    r.condition.printedDepth ≤ nestingLimit := by
  constructor
  · intro h
    have hnames := isIdentifier_of_parse h.condition
    obtain ⟨hdepth, hself⟩ := (reread_iff fun name hname =>
      hnames name (occurrences_simplify_subset _ hname)).1 h
    -- two simplifications, one when saving and one when loading, came back to the condition
    have hcondition : r.condition.simplify.simplify = r.condition :=
      (congrArg Rule.condition hself).symm
    have hpass := simplify_simplify_eq_self_iff.1 hcondition
    rw [simplify_eq_self_iff.2 hpass] at hdepth
    exact ⟨hpass, hnames, hdepth⟩
  · rintro ⟨hpass, hnames, hdepth⟩
    have hcondition := simplify_eq_self_iff.2 hpass
    refine ⟨rfl, rfl, ?_⟩
    rw [hcondition, parse_text_iff hnames]
    exact ⟨hdepth, hcondition⟩

/-- Rules whose conclusions are identifiers can be saved. They are loaded again with the same ids,
conditions and conclusions in the same order exactly when no pass changes a condition, the names in
the conditions are identifiers and no text has more negations and brackets inside each other than
the reader allows. -/
theorem load_save_lossless_iff {rules : List Rule}
    (h : ∀ r ∈ rules, isIdentifier r.conclusion = true) :
    ∃ saved, save rules = .ok saved ∧ (load saved = .ok rules ↔
      ∀ r ∈ rules, r.condition.simplifyPass = r.condition ∧
        (∀ name ∈ r.condition.occurrences, isIdentifier name = true) ∧
        r.condition.printedDepth ≤ nestingLimit) := by
  have hsave : save rules = .ok _ := save_eq_ok_iff.2 ⟨h, rfl⟩
  refine ⟨_, hsave, ?_⟩
  rw [load_save_iff hsave, List.forall₂_same]
  exact forall₂_congr fun r _ => reread_self_iff

/-- Two rules under one id that needs escapes, with nothing to simplify. -/
def plainRules : List Rule :=
  [⟨"\"1\"\n", imp (neg (atom "a")) (disj (atom "b_1") (iff (atom "a") (atom "TRUE_"))), "c"⟩,
    ⟨"\"1\"\n", top, "a"⟩]

theorem load_save_lossless_plain :
    ∃ saved, save plainRules = .ok saved ∧ load saved = .ok plainRules := by
  have hconclusions : ∀ r ∈ plainRules, isIdentifier r.conclusion = true := by decide
  obtain ⟨saved, hsave, hload⟩ := load_save_lossless_iff hconclusions
  exact ⟨saved, hsave, hload.2 (by decide)⟩

end Sentential.RuleSet
