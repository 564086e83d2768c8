import Sentential.Json.Reader
import Sentential.Settings

/-!
# Settings documents

Settings are read from JSON. Every record and every field may be left out and then has its default;
what is there must be well formed.

* `Settings.parse?`: the settings of a text.
-/

namespace Sentential

/-- Numbers in settings are below this bound. -/
def settingBound : Nat := UInt64.size

/-- Reads a field that has a default. -/
def fieldOr {α : Type} (default : α) (read? : Json.Value → Option α) : Option Json.Value → Option α
  | none => some default
  | some v => read? v

/-- The settings of the solver that a value writes. -/
def SolverSettings.ofJson? (v : Json.Value) : Option SolverSettings := do
  let [pureToo] ← v.record? ["pure_literal_elimination"] | none
  let default : SolverSettings := {}
  return ⟨← fieldOr default.pureLiteralElimination Json.Value.bool? pureToo⟩

/-- The settings of the evaluator that a value writes. -/
def EvaluatorSettings.ofJson? (v : Json.Value) : Option EvaluatorSettings := do
  let [threshold] ← v.record? ["truth_table_threshold"] | none
  let default : EvaluatorSettings := {}
  return ⟨← fieldOr default.truthTableThreshold (Json.Value.natural? settingBound) threshold⟩

/-- The settings of the engine that a value writes. -/
def EngineSettings.ofJson? (v : Json.Value) : Option EngineSettings := do
  let [iterations] ← v.record? ["max_iterations"] | none
  let default : EngineSettings := {}
  return ⟨← fieldOr default.maxIterations (Json.Value.natural? settingBound) iterations⟩

/-- The settings that a value writes. -/
def Settings.ofJson? (v : Json.Value) : Option Settings := do
  let [solver, evaluator, engine] ← v.record? ["solver", "evaluator", "engine"] | none
  return ⟨← fieldOr {} SolverSettings.ofJson? solver,
    ← fieldOr {} EvaluatorSettings.ofJson? evaluator, ← fieldOr {} EngineSettings.ofJson? engine⟩

/-- The settings of a text. -/
def Settings.parse? (text : String) : Option Settings := do
  Settings.ofJson? (← Json.parse? text)

end Sentential
