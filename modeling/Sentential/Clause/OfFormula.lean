import Sentential.Clause.Basic
import Sentential.Formula.NormalForm
import Sentential.Formula.Simplify

/-!
# Clauses from formulas

A conjunction of disjunctions of literals becomes a clause set. Groups are looked through and
constants absorbed; any other formula in the place of a literal is an error, even in a clause that
a constant makes true.

* `ClauseSet.ofClausal`: the clauses of a formula that already has that shape.
* `ClauseSet.ofFormula`: the clauses of any formula, through its conjunctive normal form.
-/

namespace Sentential

/-- A formula that stands where a literal should. -/
inductive ClauseError where
  | notALiteral (found : Formula)
  | negatedNonAtom (found : Formula)
  deriving DecidableEq

/-- The wording of the error. -/
def ClauseError.message : ClauseError → String
  | notALiteral found => "expected a literal inside a clause, found " ++ found.text
  | negatedNonAtom found =>
    "negation of non-atomic formula " ++ found.text ++ " inside a clause"

namespace Formula

/-- The parts of a conjunction, in reading order. The constant `top` is the empty conjunction. -/
def conjuncts : Formula → List Formula
  | conj p q => p.conjuncts ++ q.conjuncts
  | group p => p.conjuncts
  | top => []
  | f => [f]

/-- The literals of a disjunction, in reading order; `none` if it contains `top` and so is true.
An error on the left is found before one on the right. -/
def disjuncts : Formula → Except ClauseError (Option (List Literal))
  | disj p q => do
    let left ← p.disjuncts
    let right ← q.disjuncts
    return do return (← left) ++ (← right)
  | group p => p.disjuncts
  | bottom => .ok (some [])
  | top => .ok none
  | atom name => .ok (some [⟨name, false⟩])
  | neg p =>
    match p.ungroup with
    | atom name => .ok (some [⟨name, true⟩])
    | found => .error (.negatedNonAtom found)
  | found => .error (.notALiteral found)

end Formula

namespace ClauseSet

/-- The clauses of a conjunction of disjunctions of literals. Clauses that are true are left out,
and of equal ones the first is kept. -/
def ofClausal (f : Formula) : Except ClauseError ClauseSet := do
  let parts ← f.conjuncts.mapM Formula.disjuncts
  return ⟨((parts.filterMap id).map Clause.ofList).eraseDups⟩

/-- The clauses of the simplified formula's conjunctive normal form. -/
def ofFormula (f : Formula) : Except ClauseError ClauseSet :=
  ofClausal f.simplify.cnf

end ClauseSet

end Sentential
