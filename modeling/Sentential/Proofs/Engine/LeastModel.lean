import Sentential.Proofs.Engine.Passes
import Sentential.Proofs.Entailment

/-!
# Forward chaining computes the least model

Rules without negation are closed under a least set of names that contains the facts. A run that is
long enough stops in it: it is below every model, because a firing is forced in each, and it is a
model itself, because no rule is ready at its end.

* `Formula.isPositive`, `Formula.eval_mono`: a formula without negation stays true when more names
  become true.
* `Engine.IsModel`: a valuation that has the facts and is closed under the rules.
* `Engine.get_runPasses_iff`: a run makes true what is true in every model.
* `Engine.runWithin_least`: those are the entailed names, whatever the order of the rules.
-/

namespace Sentential

namespace Formula

/-- Built from atoms, the constants, conjunctions, disjunctions and groups only. -/
def isPositive : Formula → Bool
  | bottom | top | atom _ => true
  | neg _ => false
  | conj p q | disj p q => p.isPositive && q.isPositive
  | imp _ _ | iff _ _ => false
  | group p => p.isPositive

/-- A positive formula stays true when more names become true. -/
theorem eval_mono {f : Formula} {v w : Valuation} (hpos : f.isPositive = true)
    (h : ∀ name, v.value name = true → w.value name = true) (hv : f.eval v = true) :
    f.eval w = true := by
  induction f with
  | bottom | top => exact hv
  | atom name => exact h name hv
  | neg p ih => exact absurd hpos Bool.false_ne_true
  | group p ih => exact ih hpos hv
  | binary op p q ihp ihq =>
    cases op with
    | imp | iff => exact absurd hpos Bool.false_ne_true
    | conj =>
      simp only [isPositive, eval, Connective.apply, Bool.and_eq_true] at hpos hv ⊢
      exact ⟨ihp hpos.1 hv.1, ihq hpos.2 hv.2⟩
    | disj =>
      simp only [isPositive, eval, Connective.apply, Bool.and_eq_true, Bool.or_eq_true]
        at hpos hv ⊢
      exact hv.imp (ihp hpos.1) (ihq hpos.2)

end Formula

namespace Engine

variable {rules : List Rule} {facts : FactBase}

/-! ## Models -/

/-- The rules as implications, and the facts. -/
def knowledge (rules : List Rule) (facts : FactBase) : List Formula :=
  rules.map (fun r => .imp r.antecedent (.atom r.conclusion)) ++
    (facts.valuation.toList.filter (·.2)).map (.atom ·.1)

/-- A valuation that has the facts and is closed under the rules. -/
structure IsModel (rules : List Rule) (facts : FactBase) (v : Valuation) : Prop where
  closed : ∀ r ∈ rules, r.antecedent.eval v = true → v.value r.conclusion = true
  facts_true : ∀ name, facts.get name = true → v.value name = true

theorem get_eq_true_iff {name : String} :
    facts.get name = true ↔ facts.valuation[name]? = some true := by
  rw [FactBase.get, Valuation.value]
  cases facts.valuation[name]? <;> simp

theorem forall_mem_knowledge {P : Formula → Prop} : (∀ f ∈ knowledge rules facts, P f) ↔
    (∀ r ∈ rules, P (.imp r.antecedent (.atom r.conclusion))) ∧
      ∀ name, facts.get name = true → P (.atom name) := by
  have hfact : ∀ name, facts.get name = true ↔ (name, true) ∈ facts.valuation.toList := by
    intro name
    rw [Std.ExtTreeMap.mem_toList_iff_getElem?_eq_some, get_eq_true_iff]
  simp [knowledge, hfact, or_imp, forall_and]

/-- The models are the valuations that make the knowledge true. -/
theorem isModel_iff {v : Valuation} :
    IsModel rules facts v ↔ ∀ f ∈ knowledge rules facts, f.eval v = true := by
  have hrule : ∀ r : Rule, (Formula.imp r.antecedent (.atom r.conclusion)).eval v = true ↔
      (r.antecedent.eval v = true → v.value r.conclusion = true) := by
    intro r
    simp only [Formula.eval, Connective.apply]
    cases r.antecedent.eval v <;> simp
  rw [forall_mem_knowledge]
  simp only [hrule]
  exact ⟨fun h => ⟨h.closed, h.facts_true⟩, fun h => ⟨h.1, h.2⟩⟩

/-! ## The run between the facts and the models -/

/-- A fact stays true. -/
theorem get_runPasses_of_get (budget : Nat) {name : String} (h : facts.get name = true) :
    (runPasses budget rules facts).2.get name = true := by
  refine runPasses_preserves (P := fun now => now.get name = true) budget ?_ h
  intro r hr now hready hnow
  rw [FactBase.assert, FactBase.get_set, hnow, ite_self]

/-- Whatever a run makes true is true in every model. -/
theorem IsModel.of_runPasses {v : Valuation} (h : IsModel rules facts v)
    (hpos : ∀ r ∈ rules, r.antecedent.isPositive = true) (budget : Nat) :
    IsModel rules (runPasses budget rules facts).2 v := by
  refine runPasses_preserves (P := fun now => IsModel rules now v) budget ?_ h
  intro r hr now hready hnow
  have hholds : r.antecedent.eval now.valuation = true := by
    rw [Rule.isReady, Bool.and_eq_true] at hready
    exact hready.2
  refine ⟨hnow.closed, fun name hname => ?_⟩
  rw [FactBase.assert, FactBase.get_set] at hname
  split at hname
  · next heq =>
    -- the antecedent is true where the facts are a part of what is true
    rw [← heq]
    exact hnow.closed r hr (Formula.eval_mono (hpos r hr) hnow.facts_true hholds)
  · exact hnow.facts_true name hname

/-- A run that ends quiescent ends in a model. -/
theorem isModel_of_quiescent {budget : Nat}
    (h : Quiescent rules (runPasses budget rules facts).2) :
    IsModel rules facts (runPasses budget rules facts).2.valuation := by
  refine ⟨fun r hr hholds => ?_, fun name => get_runPasses_of_get budget⟩
  refine (quiescent_iff.1 h r hr).resolve_right ?_
  rw [hholds]
  exact Bool.noConfusion

/-- A run that may take a pass for each conclusion makes true what is true in every model. -/
theorem get_runPasses_iff {budget : Nat} {name : String}
    (hpos : ∀ r ∈ rules, r.antecedent.isPositive = true)
    (hbudget : (conclusions rules).card ≤ budget) :
    (runPasses budget rules facts).2.get name = true ↔
      ∀ v, IsModel rules facts v → v.value name = true := by
  have hpending : (pending (conclusions rules) facts).card ≤ budget :=
    (Finset.card_filter_le _ _).trans hbudget
  constructor
  · intro h v hv
    exact (hv.of_runPasses hpos budget).facts_true name h
  · intro h
    exact h _ (isModel_of_quiescent (runPasses_quiescent hpending))

theorem get_runPasses_iff_entails {budget : Nat} {name : String}
    (hpos : ∀ r ∈ rules, r.antecedent.isPositive = true)
    (hbudget : (conclusions rules).card ≤ budget) :
    (runPasses budget rules facts).2.get name = true ↔
      entails (knowledge rules facts) (.atom name) = .ok true := by
  rw [get_runPasses_iff hpos hbudget, entails_eq_true_iff, Follows]
  simp only [isModel_iff]
  rfl

/-! ## The order of the rules -/

/-- A name that a run does not make true keeps what was recorded of it. -/
theorem getElem?_runPasses (budget : Nat) (rules : List Rule) (facts : FactBase) (name : String) :
    (runPasses budget rules facts).2.valuation[name]? = some true ∨
      (runPasses budget rules facts).2.valuation[name]? = facts.valuation[name]? := by
  refine runPasses_preserves (P := fun now => now.valuation[name]? = some true ∨
    now.valuation[name]? = facts.valuation[name]?) budget ?_ (.inr rfl)
  intro r hr now hready hnow
  rw [FactBase.assert, FactBase.set, Std.ExtTreeMap.getElem?_insert]
  split
  · exact .inl rfl
  · exact hnow

/-- Two runs from the same facts that make the same names true record the same. -/
theorem runPasses_eq_of_get_iff {rules' : List Rule} {budget budget' : Nat}
    (h : ∀ name, (runPasses budget rules facts).2.get name = true ↔
      (runPasses budget' rules' facts).2.get name = true) :
    (runPasses budget rules facts).2 = (runPasses budget' rules' facts).2 := by
  suffices heq : (runPasses budget rules facts).2.valuation =
      (runPasses budget' rules' facts).2.valuation by
    exact congrArg FactBase.mk heq
  refine Std.ExtTreeMap.ext_getElem? fun name => ?_
  have hname := h name
  rw [get_eq_true_iff, get_eq_true_iff] at hname
  rcases getElem?_runPasses budget rules facts name with htrue | hkept
  · rw [htrue, hname.1 htrue]
  · rcases getElem?_runPasses budget' rules' facts name with htrue' | hkept'
    · rw [htrue', hname.2 htrue']
    · rw [hkept, hkept']

theorem isModel_perm_iff {rules' : List Rule} {v : Valuation} (hperm : rules'.Perm rules) :
    IsModel rules' facts v ↔ IsModel rules facts v :=
  ⟨fun h => ⟨fun r hr => h.closed r (hperm.mem_iff.2 hr), h.facts_true⟩,
    fun h => ⟨fun r hr => h.closed r (hperm.mem_iff.1 hr), h.facts_true⟩⟩

/-- Rules declared in another order have the same run, if it is long enough. -/
theorem runPasses_perm {rules' : List Rule} {budget budget' : Nat} (hperm : rules'.Perm rules)
    (hpos : ∀ r ∈ rules, r.antecedent.isPositive = true)
    (hbudget : (conclusions rules).card ≤ budget)
    (hbudget' : (conclusions rules').card ≤ budget') :
    (runPasses budget' rules' facts).2 = (runPasses budget rules facts).2 := by
  have hpos' : ∀ r ∈ rules', r.antecedent.isPositive = true :=
    fun r hr => hpos r (hperm.mem_iff.1 hr)
  refine runPasses_eq_of_get_iff fun name => ?_
  rw [get_runPasses_iff hpos' hbudget', get_runPasses_iff hpos hbudget]
  simp only [isModel_perm_iff hperm]

/-- Forward chaining computes exactly the entailed atoms. Let no antecedent have a negation, an
implication or an equivalence, and let the budget allow a pass for each conclusion. Then a run, be
it within an explicit budget or within the one of the settings, makes true just the names that the
rules and the facts entail, and its facts do not depend on the order in which the rules are
declared. -/
theorem runWithin_least (e : Engine) (budget : Nat)
    (hpos : ∀ r ∈ e.rules, r.antecedent.isPositive = true)
    (hbudget : max 1 (conclusions e.rules).card ≤ budget) :
    (∀ name, (e.runWithin budget).2.facts.get name = true ↔
      entails (knowledge e.rules e.facts) (.atom name) = .ok true) ∧
    ∀ (e' : Engine) (budget' : Nat), e'.rules.Perm e.rules → e'.facts = e.facts →
      max 1 (conclusions e'.rules).card ≤ budget' →
      (e'.runWithin budget').2.facts = (e.runWithin budget).2.facts := by
  refine ⟨fun name => get_runPasses_iff_entails hpos (by omega), ?_⟩
  intro e' budget' hperm hfacts hbudget'
  show (runPasses (max budget' 1) e'.rules e'.facts).2 =
    (runPasses (max budget 1) e.rules e.facts).2
  rw [hfacts]
  exact runPasses_perm hperm hpos (by omega) (by omega)

/-- Two rules of which the first waits for the second. -/
def relay : Engine where
  rules := [⟨"goal", .conj (.atom "b") (.group (.disj (.atom "a") (.atom "c"))), "d"⟩,
    ⟨"step", .imp (.atom "a") (.atom "b"), "b"⟩]
  facts := FactBase.empty.assert "a"

theorem runWithin_least_relay :
    entails (knowledge relay.rules relay.facts) (.atom "d") = .ok true ∧
      (runWithin { relay with rules := relay.rules.reverse } 2).2.facts =
        (relay.runWithin 2).2.facts := by
  obtain ⟨hget, horder⟩ := runWithin_least relay 2 (by decide) (by decide)
  have hrun : (relay.runWithin 2).2.facts.get "d" = true := by decide
  exact ⟨(hget "d").1 hrun, horder _ 2 (List.reverse_perm _) rfl (by decide)⟩

end Engine

end Sentential
