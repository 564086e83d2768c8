import Sentential.Clause.OfFormula
import Sentential.Dpll.Search
import Sentential.TruthTable

/-!
# Evaluating formulas

Questions about the models of a formula. A formula with few variables is decided by its truth
table, a larger one by a solver for clause sets if the evaluator has one.

* `Evaluator.solverFor?`: which formulas go to the solver.
-/

namespace Sentential

/-- A decision procedure for clause sets under a partial assignment, which answers as
`ClauseSet.solve` does. -/
abbrev Solver := ClauseSet → Valuation → Bool × Valuation

/-- The Davis-Putnam-Logemann-Loveland search as a solver. -/
def Solver.dpll (settings : SolverSettings) : Solver :=
  fun s initial => s.solve settings initial

/-- What decides questions about formulas. -/
structure Evaluator where
  settings : EvaluatorSettings := {}
  solver : Option Solver := none

/-- An answer and how many questions the solver was asked for it. -/
structure Reply (α : Type) where
  answer : α
  solverCalls : Nat
  deriving DecidableEq

/-- Changes the answer of a reply. -/
def Reply.map {α β : Type} (f : α → β) (r : Reply α) : Reply β :=
  ⟨f r.answer, r.solverCalls⟩

namespace Evaluator

/-- The solver that decides questions about `f`, if the truth table does not. -/
def solverFor? (e : Evaluator) (f : Formula) : Option Solver :=
  if e.settings.truthTableThreshold < f.vars.length then e.solver else none

/-- A valuation that makes `f` true, if there is one; from the solver it may be partial. -/
def findModel? (e : Evaluator) (f : Formula) : Except ClauseError (Reply (Option Valuation)) :=
  match e.solverFor? f with
  | some solver => do
    let (sat, model) := solver (← ClauseSet.ofFormula f) ∅
    return ⟨if sat then some model else none, 1⟩
  | none => .ok ⟨f.findValuation? f.eval, 0⟩

/-- Whether some valuation makes `f` true. -/
def satisfiable (e : Evaluator) (f : Formula) : Except ClauseError (Reply Bool) :=
  match e.solverFor? f with
  | some solver => do
    return ⟨(solver (← ClauseSet.ofFormula f) ∅).1, 1⟩
  | none => .ok ⟨f.satisfiable, 0⟩

/-- Whether no valuation makes `f` true. -/
def contradiction (e : Evaluator) (f : Formula) : Except ClauseError (Reply Bool) :=
  return (← e.satisfiable f).map (! ·)

/-- Whether every valuation makes `f` true: its negation is a contradiction. -/
def tautology (e : Evaluator) (f : Formula) : Except ClauseError (Reply Bool) :=
  e.contradiction (.neg f)

/-- Whether `f` and `g` are true under the same valuations: their equivalence is a tautology. -/
def equivalent (e : Evaluator) (f g : Formula) : Except ClauseError (Reply Bool) :=
  e.tautology (.iff f g)

end Evaluator

end Sentential
