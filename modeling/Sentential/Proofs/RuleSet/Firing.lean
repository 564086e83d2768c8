import Sentential.Proofs.Rule.Firing
import Sentential.Proofs.RuleSet.Stability

/-!
# When a rule that was written fires

A rule that is read from a text has the simplified condition, and one that was saved and loaded has
it simplified twice. Both fire like the rule as it was written exactly when simplifying leaves the
form of the condition alone: a condition that has the form `p => name` or `name <=> p`, where `name`
is what the rule concludes, must keep it, and any other must not get it.

* `simplified_fires_alike_iff`: when a rule fires like its simplified, its parsed and its loaded
  form.
* `simplified_fires_otherwise`: a rule that fires on other facts when its condition is simplified.
-/

namespace Sentential

open Formula RuleSet

namespace Rule

/-- The rule with its condition simplified. -/
def simplified (r : Rule) : Rule :=
  { r with condition := r.condition.simplify }

/-- A rule is read from texts with the simplified condition. -/
theorem parse_eq_simplified {r : Rule} {text : String} (h : parseRaw text = .ok r.condition)
    (hconclusion : isIdentifier r.conclusion = true) :
    Rule.parse r.id text r.conclusion = .ok r.simplified :=
  parse_eq_ok_iff.2 ⟨hconclusion, _, Formula.parse_eq_ok_iff.2 ⟨_, h, rfl⟩, rfl⟩

/-- Saved rules with identifiers only are loaded with the conditions simplified twice. -/
theorem load_save_eq_simplified {rules again : List Rule} {saved : String}
    (hsave : save rules = .ok saved) (hload : load saved = .ok again)
    (hnames : ∀ r ∈ rules, ∀ name ∈ r.condition.simplify.occurrences, isIdentifier name = true) :
    again = rules.map fun r => r.simplified.simplified := by
  have hreread := (load_save_iff hsave).1 hload
  clear hsave hload
  induction hreread with
  | nil => rfl
  | @cons r r' rules again h _ ih =>
    obtain ⟨hr, hrules⟩ := List.forall_mem_cons.1 hnames
    obtain ⟨-, rfl⟩ := (reread_iff hr).1 h
    rw [List.map_cons, ← ih hrules]
    rfl

theorem simplified_isReady_iff (r : Rule) :
    (∀ facts, r.simplified.isReady facts = r.isReady facts) ↔
      r.condition.simplify.concludes r.conclusion = r.condition.concludes r.conclusion :=
  isReady_eq_isReady_iff rfl (eval_simplify r.condition)

theorem simplified_simplified_isReady_iff (r : Rule) :
    (∀ facts, r.simplified.simplified.isReady facts = r.isReady facts) ↔
      r.condition.simplify.simplify.concludes r.conclusion =
        r.condition.concludes r.conclusion :=
  isReady_eq_isReady_iff rfl fun v => by
    show r.condition.simplify.simplify.eval v = r.condition.eval v
    rw [eval_simplify, eval_simplify]

/-- Simplifying the condition of a rule keeps when the rule fires exactly when it keeps whether the
condition has the form `p => name` or `name <=> p`, where the rule concludes `name`. A condition
that has the form keeps it unless `p` is simplified to a constant, to `name` or, in an equivalence,
to the negation of `name`. So a rule that is read from a text, or one that is loaded from saved
rules with identifiers only, fires on the same fact bases as the rule that was written exactly when
both conditions have the form or neither has it. -/
theorem simplified_fires_alike_iff (r : Rule) :
    (∀ facts : FactBase, facts.get r.conclusion = false →
      (r.simplified.holds facts = r.holds facts ↔
        r.condition.simplify.concludes r.conclusion = r.condition.concludes r.conclusion)) ∧
    (∀ p q, r.condition.ungroup = imp p q → q.atomName? = some r.conclusion →
      (r.condition.simplify.concludes r.conclusion = true ↔
        p.simplify ∉ [top, bottom, atom r.conclusion])) ∧
    (∀ p q, r.condition.ungroup = iff q p → q.atomName? = some r.conclusion →
      (r.condition.simplify.concludes r.conclusion = true ↔
        p.simplify ∉ [top, bottom, atom r.conclusion, neg (atom r.conclusion)])) ∧
    (∀ text, parseRaw text = .ok r.condition → isIdentifier r.conclusion = true →
      Rule.parse r.id text r.conclusion = .ok r.simplified ∧
      ((∀ facts, r.simplified.isReady facts = r.isReady facts) ↔
        r.condition.simplify.concludes r.conclusion = r.condition.concludes r.conclusion)) ∧
    ∀ (rules again : List Rule) (saved : String), save rules = .ok saved →
      load saved = .ok again →
      (∀ r ∈ rules, ∀ name ∈ r.condition.simplify.occurrences, isIdentifier name = true) →
      again = (rules.map fun r => r.simplified.simplified) ∧
      ∀ r ∈ rules, (∀ facts, r.simplified.simplified.isReady facts = r.isReady facts) ↔
        r.condition.simplify.simplify.concludes r.conclusion =
          r.condition.concludes r.conclusion := by
  refine ⟨fun facts => holds_eq_holds_iff rfl (eval_simplify r.condition), fun p q hf hq =>
    concludes_simplify_of_imp hf hq, fun p q hf hq => concludes_simplify_of_iff hf hq,
    fun text htext hconclusion => ⟨parse_eq_simplified htext hconclusion, r.simplified_isReady_iff⟩,
    fun rules again saved hsave hload hnames => ⟨load_save_eq_simplified hsave hload hnames,
      fun r _ => r.simplified_simplified_isReady_iff⟩⟩

/-- A repetition in front of the implication. -/
def repeatingRule : Rule :=
  ⟨"r1", group (imp (group (conj (atom "a") (atom "a"))) (atom "c")), "c"⟩

theorem simplified_fires_alike_repeating :
    Rule.parse "r1" "((a & a) => c)" "c" = .ok repeatingRule.simplified ∧
      ∀ facts, repeatingRule.simplified.isReady facts = repeatingRule.isReady facts := by
  have hread : parseRaw repeatingRule.condition.text = .ok repeatingRule.condition :=
    (parseRaw_text_iff (by decide)).2 ⟨by decide, rfl⟩
  have htext : repeatingRule.condition.text = "((a & a) => c)" := by decide
  obtain ⟨-, himp, -, hparse, -⟩ := simplified_fires_alike_iff repeatingRule
  obtain ⟨hparsed, hready⟩ := hparse _ hread (by decide)
  have hform : repeatingRule.condition.simplify.concludes "c" = true :=
    (himp _ _ rfl rfl).2 (by decide)
  exact ⟨htext ▸ hparsed, hready.2 hform⟩

/-- The implication is inside a conjunction, so the whole condition decides. -/
def conjoinedRule : Rule :=
  ⟨"r1", group (conj (group (imp (atom "a") (atom "c"))) top), "c"⟩

/-- Simplifying takes the conjunction away, and `a` decides. -/
theorem simplified_fires_otherwise :
    (∅ : FactBase).get "c" = false ∧ conjoinedRule.holds ∅ = true ∧
      conjoinedRule.simplified.holds ∅ = false ∧
      Rule.parse "r1" "((a => c) & TRUE)" "c" = .ok conjoinedRule.simplified := by
  have hread : parseRaw conjoinedRule.condition.text = .ok conjoinedRule.condition :=
    (parseRaw_text_iff (by decide)).2 ⟨by decide, rfl⟩
  have htext : conjoinedRule.condition.text = "((a => c) & TRUE)" := by decide
  exact ⟨FactBase.get_empty "c", by decide, by decide,
    htext ▸ parse_eq_simplified hread (by decide)⟩

end Rule

end Sentential
