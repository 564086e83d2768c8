import Sentential.Proofs.Engine.Passes

/-!
# Forward chaining comes to rest

During a run a condition may become true and false again, but a conclusion that has become true
stays true. So a rule that fires uses up a conclusion that was not true before the run, and every
pass but the last fires some rule. No rule set keeps a run going, whatever its negations and cycles:
the conclusions that were pending bound the firings and, with one pass more, the passes.

A run stops at a pass that fires nothing. No rule is ready then, so the passes that the budget still
allows would fire nothing either and leave the facts as they are. So a run comes to as many
successive passes as its budget says, and two runs come to one whose budget is the sum.

* `passes`: the passes that a run makes, one by one.
* `runPasses_eq_passes`: the run is what they add up to.
* `length_passes_le`: a run makes one pass more than it has firings, at most.
* `runToFixpoint_settles`: a run that may take a pass for each pending conclusion comes to rest.
* `fireTimes_eq_runPasses`: stopping early loses nothing.
* `fireTimes_add`: successive passes add up.
* `reported_fireTimes`: successive passes report what each of them reports.
* `runToFixpoint_composes`: a budget that is not positive counts as one pass, and positive budgets
  add up.
-/

namespace Sentential.Engine

/-! ## The passes of a run -/

/-- The passes that a run makes, each with the rules that it fires and the facts that it leaves. No
pass follows one that fires nothing. -/
def passes : (budget : Nat) → List Rule → FactBase → List (List Rule × FactBase)
  | 0, _, _ => []
  | budget + 1, rules, facts =>
    firePass rules facts ::
      if (firePass rules facts).1.isEmpty then [] else passes budget rules (firePass rules facts).2

/-- A run fires what its passes fire, and it ends with the facts that the last of them leaves. -/
theorem runPasses_eq_passes (budget : Nat) (rules : List Rule) (facts : FactBase) :
    runPasses budget rules facts =
      ((passes budget rules facts).flatMap (·.1),
        (passes budget rules facts).foldl (fun _ pass => pass.2) facts) := by
  induction budget generalizing facts with
  | zero => rfl
  | succ budget ih =>
    rw [passes]
    rcases runPasses_succ budget rules facts with ⟨hnil, heq⟩ | ⟨hfired, heq⟩
    · rw [heq, hnil, List.isEmpty_nil, if_pos rfl]
      simp
    · rw [heq, ih, List.isEmpty_eq_false_iff.2 hfired, if_neg Bool.false_ne_true]
      simp

/-- Every pass but the last fires a rule. -/
theorem length_passes_le (budget : Nat) (rules : List Rule) (facts : FactBase) :
    (passes budget rules facts).length ≤ (runPasses budget rules facts).1.length + 1 := by
  induction budget generalizing facts with
  | zero => exact Nat.zero_le _
  | succ budget ih =>
    rw [passes]
    rcases runPasses_succ budget rules facts with ⟨hnil, heq⟩ | ⟨hfired, heq⟩
    · rw [hnil, List.isEmpty_nil, if_pos rfl]
      exact Nat.succ_le_succ (Nat.zero_le _)
    · have hrest := ih (firePass rules facts).2
      have hpos : 0 < (firePass rules facts).1.length := List.length_pos_iff.2 hfired
      rw [heq, List.isEmpty_eq_false_iff.2 hfired, if_neg Bool.false_ne_true]
      simp only [List.length_cons, List.length_append]
      omega

/-! ## Rest -/

/-- Each firing uses up a pending conclusion. -/
theorem length_fired_le (budget : Nat) (rules : List Rule) (facts : FactBase) :
    (runPasses budget rules facts).1.length ≤ (pending (conclusions rules) facts).card := by
  have hcount := length_fired_runPasses (conclusion_mem rules) budget facts
  omega

/-- Forward chaining comes to rest within a known budget, whatever the rules and the facts are. Let
the budget be positive and allow a pass for each conclusion that is not true at the start. Then no
more rules fire than there are such conclusions, at most one pass more than that is made, and
afterwards a pass fires nothing: every rule's conclusion is true or its antecedent false. -/
theorem runToFixpoint_settles (e : Engine) (budget : Int)
    (hbudget : max 1 ((pending (conclusions e.rules) e.facts).card : Int) ≤ budget) :
    (e.runToFixpoint budget).1.length ≤ (pending (conclusions e.rules) e.facts).card ∧
    (e.runToFixpoint budget).1 = (passes budget.toNat e.rules e.facts).flatMap (·.1) ∧
    (passes budget.toNat e.rules e.facts).length ≤
      (pending (conclusions e.rules) e.facts).card + 1 ∧
    (e.runToFixpoint budget).2.fireOnce.1 = [] ∧
    ∀ r ∈ e.rules, (e.runToFixpoint budget).2.facts.get r.conclusion = true ∨
      r.antecedent.eval (e.runToFixpoint budget).2.facts.valuation = false := by
  have hrun : e.runToFixpoint budget = ((runPasses budget.toNat e.rules e.facts).1,
      { e with facts := (runPasses budget.toNat e.rules e.facts).2 }) := by
    have hmax : max budget.toNat 1 = budget.toNat := by omega
    rw [runToFixpoint, runWithin, hmax]
  have hrest : Quiescent e.rules (runPasses budget.toNat e.rules e.facts).2 :=
    runPasses_quiescent (by omega)
  have hfired := length_fired_le budget.toNat e.rules e.facts
  have hpasses := length_passes_le budget.toNat e.rules e.facts
  rw [hrun]
  refine ⟨hfired, ?_, by omega, firePass_nil_iff.2 hrest, quiescent_iff.1 hrest⟩
  rw [runPasses_eq_passes]

/-- Each rule waits for one that is declared after it, and the last one for a name that the first
would have to leave false. -/
def staircase : Engine where
  rules := [⟨"top", .conj (.atom "a") (.atom "b"), "c"⟩, ⟨"middle", .atom "a", "b"⟩,
    ⟨"bottom", .neg (.atom "c"), "a"⟩]

theorem runToFixpoint_settles_staircase :
    (pending (conclusions staircase.rules) staircase.facts).card = 3 ∧
      (staircase.runToFixpoint 3).1.length ≤ 3 ∧
      (staircase.runToFixpoint 3).2.fireOnce.1 = [] := by
  have hcard : (pending (conclusions staircase.rules) staircase.facts).card = 3 := by decide
  obtain ⟨hfired, -, -, hrest, -⟩ := runToFixpoint_settles staircase 3 (by rw [hcard]; decide)
  exact ⟨hcard, hcard ▸ hfired, hrest⟩

/-- Every step takes a pass of its own, and one more pass finds nothing to do. -/
example : (passes 5 staircase.rules staircase.facts).map (·.1.map Rule.id) =
    [["bottom"], ["middle"], ["top"], []] := by
  decide

/-! ## Budgets -/

/-- One action after the other: the rules that fired in both, in order, and the engine that the
second one leaves. -/
def andThen (first second : Engine → List Rule × Engine) (e : Engine) : List Rule × Engine :=
  ((first e).1 ++ (second (first e).2).1, (second (first e).2).2)

/-- Successive passes, also where one fires nothing. -/
def fireTimes : Nat → Engine → List Rule × Engine
  | 0 => fun e => ([], e)
  | n + 1 => andThen fireOnce (fireTimes n)

theorem andThen_assoc (first second third : Engine → List Rule × Engine) :
    andThen (andThen first second) third = andThen first (andThen second third) := by
  funext e
  simp [andThen]

/-- Successive passes add up. -/
theorem fireTimes_add (m n : Nat) : fireTimes (m + n) = andThen (fireTimes m) (fireTimes n) := by
  induction m with
  | zero =>
    rw [Nat.zero_add]
    rfl
  | succ m ih => rw [Nat.succ_add, fireTimes, ih, fireTimes, andThen_assoc]

/-- Stopping at a pass that fires nothing loses nothing: the passes that are left out would fire
nothing and change nothing. -/
theorem fireTimes_eq_runPasses (n : Nat) (e : Engine) : fireTimes n e =
    ((runPasses n e.rules e.facts).1, { e with facts := (runPasses n e.rules e.facts).2 }) := by
  induction n generalizing e with
  | zero => rfl
  | succ n ih =>
    have hpass : e.fireOnce = ((firePass e.rules e.facts).1,
      { e with facts := (firePass e.rules e.facts).2 }) := rfl
    rw [fireTimes, andThen, ih, hpass]
    rcases runPasses_succ n e.rules e.facts with ⟨hnil, heq⟩ | ⟨-, heq⟩
    · have hq := firePass_nil_iff.1 hnil
      rw [heq, firePass_of_quiescent hq]
      simp only [runPasses_of_quiescent n hq, List.nil_append]
    · rw [heq]

/-- What successive passes report is what each of them reports, one after the other. -/
theorem reported_fireTimes (n : Nat) (e : Engine) : reported (fireTimes n e).1 =
    (List.range n).flatMap fun k => reported (fireTimes k e).2.fireOnce.1 := by
  induction n with
  | zero => rfl
  | succ n ih =>
    have hone : fireTimes 1 (fireTimes n e).2 = (fireTimes n e).2.fireOnce := by
      rw [fireTimes, andThen, fireTimes, List.append_nil]
    rw [fireTimes_add, andThen, hone, reported_append, ih, List.range_succ, List.flatMap_append,
      List.flatMap_singleton]

theorem runWithin_eq_fireTimes (e : Engine) (budget : Nat) :
    e.runWithin budget = fireTimes (max budget 1) e := by
  rw [fireTimes_eq_runPasses]
  rfl

/-- A run within a budget fires the same rules and leaves the same engine as that many successive
passes, and as one pass if the budget is not positive. So budgets compose: a run within one positive
budget and a run within another fire together what a single run within their sum fires, and leave
the same engine. In both cases the same ids are reported, one report after the other. -/
theorem runToFixpoint_composes (e : Engine) :
    (∀ budget : Int, e.runToFixpoint budget = fireTimes (max budget 1).toNat e) ∧
    (∀ a b : Int, 1 ≤ a → 1 ≤ b →
      andThen (·.runToFixpoint a) (·.runToFixpoint b) e = e.runToFixpoint (a + b)) ∧
    (∀ budget : Int, reported (e.runToFixpoint budget).1 =
      (List.range (max budget 1).toNat).flatMap fun k => reported (fireTimes k e).2.fireOnce.1) ∧
    ∀ a b : Int, 1 ≤ a → 1 ≤ b →
      reported (e.runToFixpoint a).1 ++ reported ((e.runToFixpoint a).2.runToFixpoint b).1 =
        reported (e.runToFixpoint (a + b)).1 := by
  have hrun : ∀ budget : Int, (·.runToFixpoint budget) = fireTimes (max budget 1).toNat := by
    intro budget
    have hbudget : max budget.toNat 1 = (max budget 1).toNat := by omega
    funext e
    rw [runToFixpoint, runWithin_eq_fireTimes, hbudget]
  have hcompose : ∀ a b : Int, 1 ≤ a → 1 ≤ b →
      andThen (·.runToFixpoint a) (·.runToFixpoint b) e = e.runToFixpoint (a + b) := by
    intro a b ha hb
    have hsum : (max (a + b) 1).toNat = (max a 1).toNat + (max b 1).toNat := by omega
    rw [hrun a, hrun b, ← fireTimes_add, ← hsum, ← hrun (a + b)]
  refine ⟨fun budget => congrFun (hrun budget) e, hcompose, fun budget => ?_, fun a b ha hb => ?_⟩
  · rw [← reported_fireTimes, ← hrun budget]
  · rw [← hcompose a b ha hb, andThen, reported_append]

/-- Three passes fire one rule each, whether they are allowed one by one or together. -/
theorem runToFixpoint_composes_staircase :
    (staircase.runToFixpoint 3).1.map Rule.id = ["bottom", "middle", "top"] ∧
      andThen (·.runToFixpoint 1) (·.runToFixpoint 2) staircase = staircase.runToFixpoint 3 ∧
      staircase.runToFixpoint (-5) = staircase.fireOnce := by
  obtain ⟨hpasses, hcompose, -⟩ := runToFixpoint_composes staircase
  refine ⟨by decide, hcompose 1 2 (by decide) (by decide), (hpasses (-5)).trans ?_⟩
  rfl

end Sentential.Engine
