import Sentential.Clause.OfFormula
import Sentential.Engine
import Sentential.Proofs.Formula.Passes

/-!
# The form of a condition and when its rule fires

A rule whose condition has the form `p => name` or `name <=> p`, where it concludes `name`, fires
where `p` is true; any other rule fires where its whole condition is. While `name` is false, a
condition of that form is false exactly where `p` is true. So two rules with equivalent conditions
fire alike when both conditions have the form or neither has it, and never on the same facts
otherwise. Simplifying keeps the meaning of a condition but not always its form.

A group only records where the text had brackets. No function of the library that rewrites formulas
or looks at their form can tell a formula from the same formula without its groups: the results are
equal as trees, and a rule with the one condition holds where the rule with the other does.

* `Formula.concludes`: the form.
* `Rule.eval_antecedent`: what decides, by the form and the value of the whole condition.
* `Rule.holds_eq_holds_iff`, `Rule.isReady_eq_isReady_iff`: when equivalent conditions decide alike.
* `Formula.concludes_simplify_of_imp`, `Formula.concludes_simplify_of_iff`: when a condition keeps
  the form.
* `Formula.operands?_withoutGroups`, `Formula.atomName?_withoutGroups`,
  `Rule.antecedent_withoutGroups`: what is recognised in a formula and in a condition.
* `Formula.groups_transparent`: all that does not depend on groups.
-/

namespace Sentential

namespace Formula

/-- Whether the formula has the form `p => name` or `name <=> p`, apart from groups. -/
def concludes (f : Formula) (name : String) : Bool :=
  match f.ungroup with
  | imp _ q => q.atomName? = some name
  | iff p _ => p.atomName? = some name
  | _ => false

variable {f p q : Formula} {name : String}

theorem ungroup_ungroup (f : Formula) : f.ungroup.ungroup = f.ungroup := by
  induction f with
  | group p ih => exact ih
  | _ => rfl

theorem atomName?_ungroup (f : Formula) : f.ungroup.atomName? = f.atomName? := by
  rw [atomName?, atomName?, ungroup_ungroup]

theorem atomName?_eq_some_iff : f.atomName? = some name ↔ f.ungroup = atom name := by
  rw [atomName?]
  split
  · next other heq => simp [heq]
  · next hne => simpa using hne name

theorem eval_of_atomName? (h : f.atomName? = some name) (v : Valuation) :
    f.eval v = v.value name := by
  rw [← eval_ungroup, atomName?_eq_some_iff.1 h, eval]

theorem withoutGroups_ungroup (f : Formula) : f.ungroup.withoutGroups = f.withoutGroups := by
  induction f with
  | group p ih => exact ih
  | _ => rfl

theorem withoutGroups_of_atomName? (h : f.atomName? = some name) : f.withoutGroups = atom name :=
  ungroup_eq_atom_iff.1 (atomName?_eq_some_iff.1 h)

theorem withoutGroups_of_ungroup {op : Connective} (h : f.ungroup = binary op p q) :
    f.withoutGroups = binary op p.withoutGroups q.withoutGroups := by
  rw [← withoutGroups_ungroup, h]
  rfl

end Formula

/-! ## What decides whether a rule fires -/

namespace Rule

variable {r r' : Rule} {facts : FactBase}

/-- Either the condition has the form and `p` decides, or the whole condition does. -/
theorem antecedent_cases (r : Rule) :
    (∃ p q, r.condition.ungroup = .imp p q ∧ q.atomName? = some r.conclusion ∧
      r.antecedent = p.ungroup) ∨
    (∃ p q, r.condition.ungroup = .iff q p ∧ q.atomName? = some r.conclusion ∧
      r.antecedent = p.ungroup) ∨
    r.condition.concludes r.conclusion = false ∧ r.antecedent = r.condition := by
  rw [antecedent, Formula.concludes, Formula.operands?, Formula.operands?]
  cases r.condition.ungroup with
  | binary op p q =>
    cases op with
    | conj | disj => simp
    | imp =>
      simp only [Formula.atomName?_ungroup, reduceIte]
      split
      · next hq => exact .inl ⟨p, q, rfl, hq, rfl⟩
      · next hq => exact .inr (.inr ⟨decide_eq_false hq, rfl⟩)
    | iff =>
      simp only [Formula.atomName?_ungroup, reduceCtorEq, reduceIte]
      split
      · next hp => exact .inr (.inl ⟨q, p, rfl, hp, rfl⟩)
      · next hp => exact .inr (.inr ⟨decide_eq_false hp, rfl⟩)
  | _ => simp

/-- While the conclusion is false, a condition that has the form is false where its rule fires. -/
theorem eval_antecedent {v : Valuation} (h : v.value r.conclusion = false) :
    r.antecedent.eval v = (r.condition.concludes r.conclusion ^^ r.condition.eval v) := by
  rw [← Formula.eval_ungroup r.condition]
  rcases r.antecedent_cases with ⟨p, q, hf, hq, hp⟩ | ⟨p, q, hf, hq, hp⟩ | ⟨hf, hp⟩
  · have hvalue := Formula.eval_of_atomName? hq v
    simp [hp, hf, hq, Formula.concludes, Formula.eval, Connective.apply, hvalue, h]
  · have hvalue := Formula.eval_of_atomName? hq v
    simp [hp, hf, hq, Formula.concludes, Formula.eval, Connective.apply, hvalue, h]
  · simp [hp, hf]

/-- Rules with one conclusion and equivalent conditions decide alike, where the conclusion is false,
exactly when both conditions have the form or neither has it. -/
theorem holds_eq_holds_iff (hconclusion : r'.conclusion = r.conclusion)
    (heval : ∀ v, r'.condition.eval v = r.condition.eval v) (h : facts.get r.conclusion = false) :
    r'.holds facts = r.holds facts ↔
      r'.condition.concludes r.conclusion = r.condition.concludes r.conclusion := by
  have h' : facts.get r'.conclusion = false := hconclusion ▸ h
  rw [holds, holds, eval_antecedent h, eval_antecedent h', heval, hconclusion]
  exact Bool.xor_left_inj

/-- Rules with one conclusion and equivalent conditions fire on the same fact bases exactly when
both conditions have the form or neither has it. -/
theorem isReady_eq_isReady_iff (hconclusion : r'.conclusion = r.conclusion)
    (heval : ∀ v, r'.condition.eval v = r.condition.eval v) :
    (∀ facts, r'.isReady facts = r.isReady facts) ↔
      r'.condition.concludes r.conclusion = r.condition.concludes r.conclusion := by
  constructor
  · intro h
    have hready := h ∅
    simp only [isReady, hconclusion, FactBase.get_empty, Bool.not_false, Bool.true_and] at hready
    exact (holds_eq_holds_iff hconclusion heval (FactBase.get_empty _)).1 hready
  · intro h facts
    rw [isReady, isReady, hconclusion]
    cases hget : facts.get r.conclusion with
    | true => rfl
    | false => rw [(holds_eq_holds_iff hconclusion heval hget).2 h]

end Rule

/-! ## Simplifying a condition of the form -/

namespace Formula

variable {f p q : Formula} {name : String}

/-- The constants, a name and its negation: formulas that no pass changes and that do not have the
form. -/
def simplest (name : String) : List Formula :=
  [top, bottom, atom name, neg (atom name)]

theorem simplifyPass_of_mem_simplest (h : f ∈ simplest name) : f.simplifyPass = f := by
  simp only [simplest, List.mem_cons, List.not_mem_nil, or_false] at h
  rcases h with rfl | rfl | rfl | rfl <;> rfl

theorem concludes_of_mem_simplest (h : f ∈ simplest name) : f.concludes name = false := by
  simp only [simplest, List.mem_cons, List.not_mem_nil, or_false] at h
  rcases h with rfl | rfl | rfl | rfl <;> rfl

/-- A frame has the form whatever stands in it, and passes work inside of it until one of the
formulas of `closing` stands there: then the frame itself becomes one of the simplest formulas. So
the form is kept as long as none of them has turned up. -/
theorem concludes_iterate (frame : Formula → Formula) {closing : List Formula}
    (hframe : ∀ p, (frame p).concludes name = true) (hclosing : closing ⊆ simplest name)
    (hkept : ∀ p, p.simplifyPass ∉ closing → (frame p).simplifyPass = frame p.simplifyPass)
    (hclosed : ∀ p, p.simplifyPass ∈ closing → (frame p).simplifyPass ∈ simplest name)
    (n : Nat) (p : Formula) :
    (simplifyPass^[n + 1] (frame p)).concludes name = true ↔ simplifyPass^[n + 1] p ∉ closing := by
  induction n generalizing p with
  | zero =>
    show (frame p).simplifyPass.concludes name = true ↔ p.simplifyPass ∉ closing
    by_cases h : p.simplifyPass ∈ closing
    · simp [h, concludes_of_mem_simplest (hclosed p h)]
    · simp [h, hkept p h, hframe]
  | succ n ih =>
    rw [Function.iterate_succ_apply, Function.iterate_succ_apply _ (n + 1) p]
    by_cases h : p.simplifyPass ∈ closing
    · have hfixed := simplifyPass_of_mem_simplest (hclosed p h)
      rw [Function.iterate_fixed hfixed,
        Function.iterate_fixed (simplifyPass_of_mem_simplest (hclosing h))]
      simp [h, concludes_of_mem_simplest (hclosed p h)]
    · rw [hkept p h, ih]

/-- Groups inside of a binary formula or around it make no difference to its simplification. -/
theorem simplify_of_ungroup {op : Connective} {p' q' : Formula} (hf : f.ungroup = binary op p q)
    (hp : p.withoutGroups = p'.withoutGroups) (hq : q.withoutGroups = q'.withoutGroups) :
    f.simplify = (binary op p' q').simplify := by
  refine simplify_congr ?_
  rw [withoutGroups_of_ungroup hf, hp, hq, withoutGroups]

/-- A condition `p => name` keeps its form unless `p` is simplified to a constant or to `name`. -/
theorem concludes_simplify_of_imp (hf : f.ungroup = imp p q) (hq : q.atomName? = some name) :
    f.simplify.concludes name = true ↔ p.simplify ∉ [top, bottom, atom name] := by
  have hsimplify : f.simplify = (imp p (atom name)).simplify :=
    simplify_of_ungroup hf rfl (withoutGroups_of_atomName? hq)
  have hpass : ∀ p, (imp p (atom name)).simplifyPass = simplifyImp p.simplifyPass (atom name) :=
    fun _ => rfl
  rw [hsimplify, simplify_eq_iterate, simplify_eq_iterate]
  refine concludes_iterate (fun p => imp p (atom name)) ?_ ?_ ?_ ?_ (passLimit - 1) p
  · intro p
    exact decide_eq_true rfl
  · simp [simplest]
  · intro p h
    simp only [List.mem_cons, List.not_mem_nil, or_false, not_or] at h
    simp [hpass, simplifyImp, h]
  · intro p h
    simp only [List.mem_cons, List.not_mem_nil, or_false] at h
    rw [hpass]
    rcases h with h | h | h <;> simp [h, simplifyImp, simplest]

/-- A condition `name <=> p` keeps its form unless `p` is simplified to a constant, to `name` or to
its negation. -/
theorem concludes_simplify_of_iff (hf : f.ungroup = iff q p) (hq : q.atomName? = some name) :
    f.simplify.concludes name = true ↔ p.simplify ∉ [top, bottom, atom name, neg (atom name)] := by
  have hsimplify : f.simplify = (iff (atom name) p).simplify :=
    simplify_of_ungroup hf (withoutGroups_of_atomName? hq) rfl
  have hpass : ∀ p, (iff (atom name) p).simplifyPass = simplifyIff (atom name) p.simplifyPass :=
    fun _ => rfl
  rw [hsimplify, simplify_eq_iterate, simplify_eq_iterate]
  refine concludes_iterate (fun p => iff (atom name) p) ?_ (List.Subset.refl _) ?_ ?_
    (passLimit - 1) p
  · intro p
    exact decide_eq_true rfl
  · intro p h
    simp only [simplest, List.mem_cons, List.not_mem_nil, or_false, not_or] at h
    simp [hpass, simplifyIff, complementary, h, Ne.symm h.2.2.1]
  · intro p h
    simp only [simplest, List.mem_cons, List.not_mem_nil, or_false] at h
    rw [hpass]
    rcases h with h | h | h | h <;> simp [h, simplifyIff, complementary, simplest]

end Formula

/-! ## Groups are transparent -/

namespace Formula

theorem ungroup_withoutGroups (f : Formula) : f.withoutGroups.ungroup = f.withoutGroups := by
  induction f with
  | group p ih => exact ih
  | _ => rfl

theorem operands?_withoutGroups (op : Connective) (f : Formula) :
    f.withoutGroups.operands? op =
      (f.operands? op).map (Prod.map withoutGroups withoutGroups) := by
  induction f with
  | group p ih => exact ih
  | binary op' p q =>
    simp only [withoutGroups, operands?, ungroup, ungroup_withoutGroups]
    split
    · simp [withoutGroups_ungroup]
    · rfl
  | _ => rfl

theorem atomName?_withoutGroups (f : Formula) : f.withoutGroups.atomName? = f.atomName? := by
  induction f with
  | group p ih => exact ih
  | _ => rfl

end Formula

namespace Rule

open Formula

/-- What decides in a condition without groups is what decides in the condition, without groups. -/
theorem antecedent_withoutGroups (r : Rule) :
    { r with condition := r.condition.withoutGroups }.antecedent =
      r.antecedent.withoutGroups := by
  simp only [antecedent, operands?_withoutGroups]
  cases r.condition.operands? .imp with
  | some sides =>
    simp only [Option.map_some, Prod.map, atomName?_withoutGroups]
    split <;> rfl
  | none =>
    cases r.condition.operands? .iff with
    | some sides =>
      simp only [Option.map_some, Option.map_none, Prod.map, atomName?_withoutGroups]
      split <;> rfl
    | none => rfl

theorem holds_withoutGroups (r : Rule) (facts : FactBase) :
    { r with condition := r.condition.withoutGroups }.holds facts = r.holds facts := by
  rw [holds, antecedent_withoutGroups, eval_withoutGroups, holds]

end Rule

namespace Formula

/-- Groups are transparent. A formula and the formula without its groups have the same value under
every valuation and the same variables, and they become the same tree when they are simplified with
any limit or brought into a normal form, and the same clauses. A rule whose condition is the one
holds in the fact bases in which the rule whose condition is the other does. -/
theorem groups_transparent (f : Formula) :
    f.withoutGroups.hasGroup = false ∧
    (∀ v, f.withoutGroups.eval v = f.eval v) ∧
    f.withoutGroups.vars = f.vars ∧
    (∀ limit, f.withoutGroups.simplifyWithLimit limit = f.simplifyWithLimit limit) ∧
    f.withoutGroups.nnf = f.nnf ∧ f.withoutGroups.cnf = f.cnf ∧ f.withoutGroups.dnf = f.dnf ∧
    ClauseSet.ofFormula f.withoutGroups = ClauseSet.ofFormula f ∧
    ∀ (id conclusion : String) (facts : FactBase),
      (Rule.mk id f.withoutGroups conclusion).holds facts =
        (Rule.mk id f conclusion).holds facts := by
  have hvars : f.withoutGroups.vars = f.vars :=
    vars_congr fun name => by rw [occurrences_withoutGroups]
  have hclauses : ClauseSet.ofFormula f.withoutGroups = ClauseSet.ofFormula f := by
    rw [ClauseSet.ofFormula, simplify, simplifyWithLimit_withoutGroups, ClauseSet.ofFormula,
      simplify]
  refine ⟨hasGroup_withoutGroups f, eval_withoutGroups f, hvars,
    fun limit => simplifyWithLimit_withoutGroups limit f, nnf_withoutGroups f, ?_, ?_, hclauses,
    fun id conclusion facts => Rule.holds_withoutGroups ⟨id, f, conclusion⟩ facts⟩
  · rw [cnf, nnf_withoutGroups, cnf]
  · rw [dnf, nnf_withoutGroups, dnf]

end Formula

end Sentential
