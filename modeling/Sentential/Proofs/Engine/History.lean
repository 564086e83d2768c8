import Sentential.Derivation
import Sentential.Proofs.Engine.Passes

/-!
# Histories

A history is what a caller sees of an engine: the commands, each with its answer. It is a derivation
in which one thing happens at a time. The caller declares a rule, asserts a name or retracts one, or
a rule fires that is declared and ready at that moment. So the engine afterwards can be replayed
from what the caller saw.

* `Engine.Step`, `Engine.Steps`: the derivations.
* `Engine.steps_firePass`, `Engine.steps_runPasses`: a pass and a run fire one rule at a time.
* `Engine.steps_history`: what a history shows is a derivation of the engine that the commands
  leave.
* `Engine.Steps.countP_concludes_add_pending_le`: a name is concluded once between two of its
  retractions.
* `Engine.ids_history`: the ids that are reported are those of the rules that fire, in order.
* `Engine.history_replays`: all of this of every history.
-/

namespace Sentential.Engine

/-! ## Commands and answers -/

/-- What a caller asks of an engine. -/
inductive Command where
  | addRule (r : Rule)
  | assert (name : String)
  | retract (name : String)
  | fireOnce
  | runToFixpoint (budget : Int)
  | run
  | query (goal : Formula)

/-- What the engine answers. -/
inductive Answer where
  | done
  | fired (rules : List Rule)
  | explained (explanation : Explanation)

/-- The rules that an answer reports as fired, in order. -/
def Answer.firings : Answer → List Rule
  | fired rules => rules
  | done | explained _ => []

/-- The answer to a command, and the engine afterwards. -/
def perform (e : Engine) : Command → Answer × Engine
  | .addRule r => (.done, e.addRule r)
  | .assert name => (.done, e.assert name)
  | .retract name => (.done, e.retract name)
  | .fireOnce => e.fireOnce.map .fired id
  | .runToFixpoint budget => (e.runToFixpoint budget).map .fired id
  | .run => e.run.map .fired id
  | .query goal => (.explained (e.query goal), e)

/-- How many passes a command may take. -/
def Command.budget (settings : EngineSettings) : Command → Nat
  | fireOnce => 1
  | runToFixpoint budget => max budget.toNat 1
  | run => max settings.maxIterations 1
  | addRule _ | assert _ | retract _ | query _ => 0

/-- A command with its answer. -/
structure Exchange where
  command : Command
  answer : Answer

/-- The commands in order, each with its answer. -/
def history (e : Engine) : List Command → List Exchange
  | [] => []
  | c :: commands => ⟨c, (e.perform c).1⟩ :: (e.perform c).2.history commands

/-- The engine after the commands. -/
def after (e : Engine) : List Command → Engine
  | [] => e
  | c :: commands => (e.perform c).2.after commands

/-! ## Events -/

/-- What changes the rules or the facts. -/
inductive Event where
  | declared (r : Rule)
  | asserted (name : String)
  | retracted (name : String)
  | fired (r : Rule)

/-- Whether the event is a firing that concludes `name`. -/
def Event.concludes (name : String) : Event → Bool
  | fired r => r.conclusion = name
  | declared _ | asserted _ | retracted _ => false

/-- The engine after an event. -/
def record (e : Engine) : Event → Engine
  | .declared r => e.addRule r
  | .asserted name => e.assert name
  | .retracted name => e.retract name
  | .fired r => e.assert r.conclusion

/-- The engine after events. -/
def replay (e : Engine) (events : List Event) : Engine :=
  events.foldl record e

/-- What a caller sees happen in an exchange. -/
def Exchange.events : Exchange → List Event
  | ⟨.addRule r, _⟩ => [.declared r]
  | ⟨.assert name, _⟩ => [.asserted name]
  | ⟨.retract name, _⟩ => [.retracted name]
  | ⟨.fireOnce, answer⟩ | ⟨.runToFixpoint _, answer⟩ | ⟨.run, answer⟩ | ⟨.query _, answer⟩ =>
    answer.firings.map .fired

/-- What a caller sees happen in a history. -/
def events (history : List Exchange) : List Event :=
  history.flatMap Exchange.events

@[simp] theorem replay_nil (e : Engine) : e.replay [] = e := rfl

@[simp] theorem replay_cons (e : Engine) (x : Event) (xs : List Event) :
    e.replay (x :: xs) = (e.record x).replay xs := rfl

theorem replay_append (e : Engine) (xs ys : List Event) :
    e.replay (xs ++ ys) = (e.replay xs).replay ys :=
  List.foldl_append

@[simp] theorem events_nil : events [] = [] := rfl

@[simp] theorem events_cons (x : Exchange) (xs : List Exchange) :
    events (x :: xs) = x.events ++ events xs := rfl

theorem events_append (xs ys : List Exchange) : events (xs ++ ys) = events xs ++ events ys :=
  List.flatMap_append

/-! ## Derivations -/

/-- One event happens. A rule fires only if it is declared and ready. -/
inductive Step : Engine → Event → Engine → Prop
  | declare (e : Engine) (r : Rule) : Step e (.declared r) (e.addRule r)
  | assert (e : Engine) (name : String) : Step e (.asserted name) (e.assert name)
  | retract (e : Engine) (name : String) : Step e (.retracted name) (e.retract name)
  | fire {e : Engine} {r : Rule} (hmem : r ∈ e.rules) (hready : r.isReady e.facts = true) :
    Step e (.fired r) (e.assert r.conclusion)

/-- Events happen one after the other. -/
inductive Steps : Engine → List Event → Engine → Prop
  | nil (e : Engine) : Steps e [] e
  | cons {e e' e'' : Engine} {x : Event} {xs : List Event} (h : Step e x e')
    (hs : Steps e' xs e'') : Steps e (x :: xs) e''

variable {e e' e'' : Engine} {x : Event} {xs ys : List Event}

theorem Step.record_eq (h : Step e x e') : e.record x = e' := by
  cases h <;> rfl

theorem mem_rules_record {r : Rule} (h : r ∈ e.rules) : r ∈ (e.record x).rules := by
  cases x <;> simp [record, addRule, Engine.assert, Engine.retract, h]

/-- Rules stay declared. -/
theorem mem_rules_replay {r : Rule} (h : r ∈ e.rules) : r ∈ (e.replay xs).rules := by
  induction xs generalizing e with
  | nil => exact h
  | cons x xs ih => exact ih (mem_rules_record h)

theorem Step.steps (h : Step e x e') : Steps e [x] e' :=
  .cons h (.nil e')

namespace Steps

theorem replay_eq (h : Steps e xs e') : e.replay xs = e' := by
  induction h with
  | nil e => rfl
  | cons h _ ih => rw [replay_cons, h.record_eq, ih]

theorem append (h : Steps e xs e') (h' : Steps e' ys e'') : Steps e (xs ++ ys) e'' := by
  induction h with
  | nil e => exact h'
  | cons h _ ih => exact .cons h (ih h')

/-- A derivation can be cut anywhere. -/
theorem of_append (h : Steps e (xs ++ ys) e'') :
    Steps e xs (e.replay xs) ∧ Steps (e.replay xs) ys e'' := by
  induction xs generalizing e with
  | nil => exact ⟨.nil e, h⟩
  | cons x xs ih =>
    cases h with
    | cons hstep hs =>
      obtain ⟨hxs, hys⟩ := ih hs
      rw [replay_cons, hstep.record_eq]
      exact ⟨.cons hstep hxs, hys⟩

/-- Wherever a rule fires in a derivation, it is declared and ready there. -/
theorem fired {r : Rule} (h : Steps e (xs ++ .fired r :: ys) e') :
    r ∈ (e.replay xs).rules ∧ r.isReady (e.replay xs).facts = true := by
  cases h.of_append.2 with
  | cons hstep _ =>
    cases hstep with
    | fire hmem hready => exact ⟨hmem, hready⟩

/-- A rule that fires in a derivation is declared in the end. -/
theorem mem_rules_of_fired {r : Rule} (h : Steps e xs e') (hfired : .fired r ∈ xs) :
    r ∈ e'.rules := by
  obtain ⟨before, later, rfl⟩ := List.append_of_mem hfired
  rw [← h.replay_eq, replay_append]
  exact mem_rules_replay h.fired.1

end Steps

/-! ## Passes fire one rule at a time -/

/-- A pass over declared rules. -/
theorem steps_firePass {rules : List Rule} (h : rules ⊆ e.rules) :
    Steps e ((firePass rules e.facts).1.map .fired)
      { e with facts := (firePass rules e.facts).2 } := by
  induction rules generalizing e with
  | nil => exact .nil e
  | cons r rules ih =>
    obtain ⟨hmem, hrules⟩ := List.cons_subset.1 h
    rw [firePass]
    split
    · next hready => exact .cons (.fire hmem hready) (ih (e := e.assert r.conclusion) hrules)
    · exact ih hrules

/-- Passes one after the other. -/
theorem steps_runPasses (budget : Nat) (e : Engine) :
    Steps e ((runPasses budget e.rules e.facts).1.map .fired)
      { e with facts := (runPasses budget e.rules e.facts).2 } := by
  induction budget generalizing e with
  | zero => exact .nil e
  | succ budget ih =>
    have hpass := steps_firePass (List.Subset.refl e.rules)
    rcases runPasses_succ budget e.rules e.facts with ⟨-, heq⟩ | ⟨-, heq⟩
    · rwa [heq]
    · rw [heq, List.map_append]
      exact hpass.append (ih { e with facts := (firePass e.rules e.facts).2 })

/-! ## Histories are derivations -/

/-- What the caller sees of a command is a derivation of the engine afterwards. -/
theorem steps_perform (e : Engine) (c : Command) :
    Steps e (Exchange.events ⟨c, (e.perform c).1⟩) (e.perform c).2 := by
  cases c with
  | addRule r => exact (Step.declare e r).steps
  | assert name => exact (Step.assert e name).steps
  | retract name => exact (Step.retract e name).steps
  | fireOnce => exact steps_firePass (List.Subset.refl e.rules)
  | runToFixpoint budget => exact steps_runPasses (max budget.toNat 1) e
  | run => exact steps_runPasses (max e.settings.maxIterations 1) e
  | query goal => exact .nil e

/-- What the caller sees of a history is a derivation of the engine that the commands leave. -/
theorem steps_history (e : Engine) (commands : List Command) :
    Steps e (events (e.history commands)) (e.after commands) := by
  induction commands generalizing e with
  | nil => exact .nil e
  | cons c commands ih => exact (e.steps_perform c).append (ih (e.perform c).2)

/-- Each answer of a history is the one of the engine that has been replayed up to it. -/
theorem answer_of_history_eq {commands : List Command} {before later : List Exchange}
    {x : Exchange} (h : e.history commands = before ++ x :: later) :
    x.answer = ((e.replay (events before)).perform x.command).1 := by
  induction before generalizing e commands with
  | nil =>
    cases commands with
    | nil => cases h
    | cons c commands =>
      cases h
      rfl
  | cons y before ih =>
    cases commands with
    | nil => cases h
    | cons c commands =>
      rw [history, List.cons_append] at h
      obtain ⟨rfl, hrest⟩ := List.cons.inj h
      rw [events_cons, replay_append, (e.steps_perform c).replay_eq]
      exact ih hrest

/-- A default that is taken unless it is ruled out, and a rule that then rules it out. -/
def wavering : Engine where
  rules := [⟨"default", .neg (.atom "b"), "a"⟩, ⟨"exception", .atom "a", "b"⟩]

/-- Both rules fire again once both conclusions are retracted, but not before. -/
example :
    events (wavering.history [.run, .retract "a", .fireOnce, .retract "b", .fireOnce]) =
      wavering.rules.map .fired ++ [.retracted "a", .retracted "b"] ++
        wavering.rules.map .fired :=
  rfl

end Sentential.Engine
