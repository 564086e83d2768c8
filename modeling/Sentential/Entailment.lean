import Sentential.Clause.OfFormula
import Sentential.Dpll.Search
import Sentential.TruthTable

/-!
# Entailment

A knowledge base entails a goal when no valuation makes all of the base true and the goal false.
So the question is put to the solver as the refutation, the base together with the negated goal; a
model of the refutation is a counter-model.

* `entails`, `entailment`: whether the goal follows, without and with a counter-model.
* `eval_refutation`: the refutation is true where the base holds and the goal fails.
-/

namespace Sentential

/-- The base together with the negated goal. -/
def refutation (base : List Formula) (goal : Formula) : Formula :=
  .conjunction (base ++ [.neg goal])

/-- The refutation is true where the base holds and the goal fails. -/
theorem eval_refutation (base : List Formula) (goal : Formula) (v : Valuation) :
    (refutation base goal).eval v = (base.all (·.eval v) && !goal.eval v) := by
  simp [refutation, Formula.eval]

/-- Whether every valuation that makes the base true makes the goal true. -/
def entails (base : List Formula) (goal : Formula) : Except ClauseError Bool :=
  return !((← ClauseSet.ofFormula (refutation base goal)).solve {} ∅).1

/-- Whether a goal is entailed, and if it is not a valuation that shows why. -/
structure Entailment where
  entails : Bool
  counterModel : Option Valuation
  deriving DecidableEq

/-- The names in the base and the goal. -/
def mentionedNames (base : List Formula) (goal : Formula) : List String :=
  (goal :: base).foldl (fun names f => names ∪ f.atoms) (∅ : Std.ExtTreeSet String) |>.toList

/-- Gives every name without a value the value false. -/
def Valuation.complete (v : Valuation) (names : List String) : Valuation :=
  names.foldl (fun v name => v.insertIfNew name false) v

/-- Decides entailment. A counter-model has a value for every name in the base and the goal. Were
there no clauses for the refutation, its truth table would decide, without a counter-model. -/
def entailment (base : List Formula) (goal : Formula) : Entailment :=
  match ClauseSet.ofFormula (refutation base goal) with
  | .ok s =>
    match s.solve {} ∅ with
    | (true, model) => ⟨false, some (Valuation.complete model (mentionedNames base goal))⟩
    | (false, _) => ⟨true, none⟩
  | .error _ => ⟨(refutation base goal).unsatisfiable, none⟩

end Sentential
