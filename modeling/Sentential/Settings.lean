/-!
# Settings

What can be tuned in the solver, the evaluator and the engine, with the values in force when
nothing else is said.
-/

namespace Sentential

/-- The settings of the clause solver. -/
structure SolverSettings where
  /-- Whether pure literals are made true before a split. -/
  pureLiteralElimination : Bool := true
  deriving DecidableEq

/-- The settings of the evaluator. -/
structure EvaluatorSettings where
  /-- Formulas with at most this many variables are decided by truth table. -/
  truthTableThreshold : Nat := 12
  deriving DecidableEq

/-- The settings of the rule engine. -/
structure EngineSettings where
  /-- How many passes a run may take. -/
  maxIterations : Nat := 16
  deriving DecidableEq

/-- All settings. -/
structure Settings where
  solver : SolverSettings := {}
  evaluator : EvaluatorSettings := {}
  engine : EngineSettings := {}
  deriving DecidableEq

end Sentential
