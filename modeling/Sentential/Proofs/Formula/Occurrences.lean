import Sentential.Formula.NormalForm
import Sentential.Formula.Simplify

/-!
# Names in rewritten formulas

Rewriting brings no new names in. Simplifying may lose some, because a law may drop an operand;
the normal forms keep every one.

* `mem_occurrences_conjunction`: a conjunction mentions the names of its parts.
* `occurrences_simplify_subset`: a simplified formula mentions only names of the formula.
* `simplification_keeps_meaning`: what simplifying keeps, by a step, a pass or any number of passes.
* `vars_congr`: the variables depend on the names only.
* `mem_occurrences_nnf`, `mem_occurrences_cnf`, `mem_occurrences_dnf`: the normal forms mention
  the same names.
-/

namespace Sentential.Formula

@[simp] theorem occurrences_bottom : bottom.occurrences = [] := rfl

@[simp] theorem occurrences_top : top.occurrences = [] := rfl

@[simp] theorem occurrences_atom (name : String) : (atom name).occurrences = [name] := rfl

@[simp] theorem occurrences_neg (p : Formula) : (neg p).occurrences = p.occurrences := rfl

@[simp] theorem occurrences_group (p : Formula) : (group p).occurrences = p.occurrences := rfl

attribute [simp] occurrences_binary

theorem occurrences_ungroup (f : Formula) : f.ungroup.occurrences = f.occurrences := by
  induction f with
  | group p ih => exact ih
  | _ => rfl

/-- Formulas that mention the same names have the same variables. -/
theorem vars_congr {f g : Formula} (h : ∀ name, name ∈ f.occurrences ↔ name ∈ g.occurrences) :
    f.vars = g.vars := by
  have hatoms : f.atoms = g.atoms := Std.ExtTreeSet.ext_mem fun name => by
    simp [atoms, Std.ExtTreeSet.mem_ofList, h name]
  rw [vars, vars, hatoms]

theorem vars_subset {f g : Formula} (h : f.occurrences ⊆ g.occurrences) : f.vars ⊆ g.vars :=
  fun _ hname => mem_vars.2 (h (mem_vars.1 hname))

theorem mem_occurrences_foldl_conj {f : Formula} {fs : List Formula} {name : String} :
    name ∈ (fs.foldl conj f).occurrences ↔
      name ∈ f.occurrences ∨ ∃ g ∈ fs, name ∈ g.occurrences := by
  induction fs generalizing f with
  | nil => simp
  | cons g fs ih => simp [ih, or_assoc]

theorem mem_occurrences_conjunction {fs : List Formula} {name : String} :
    name ∈ (conjunction fs).occurrences ↔ ∃ f ∈ fs, name ∈ f.occurrences := by
  cases fs with
  | nil => simp [conjunction]
  | cons f fs =>
    rw [conjunction, mem_occurrences_foldl_conj]
    simp

/-! ## Simplification -/

theorem occurrences_simplifyLattice_subset {op dual : Connective} {one zero : Formula}
    (hzero : zero.occurrences = []) (p q : Formula) :
    (simplifyLattice op dual one zero p q).occurrences ⊆ p.occurrences ++ q.occurrences := by
  unfold simplifyLattice
  repeat' split
  all_goals simp [hzero]

theorem occurrences_simplifyImp_subset (p q : Formula) :
    (simplifyImp p q).occurrences ⊆ p.occurrences ++ q.occurrences := by
  unfold simplifyImp
  repeat' split
  all_goals simp

theorem occurrences_simplifyIff_subset (p q : Formula) :
    (simplifyIff p q).occurrences ⊆ p.occurrences ++ q.occurrences := by
  unfold simplifyIff
  repeat' split
  all_goals simp

theorem occurrences_simplifyStep_subset (f : Formula) :
    f.simplifyStep.occurrences ⊆ f.occurrences := by
  unfold simplifyStep
  split
  · simp
  · simp
  · simp
  · simpa using occurrences_simplifyLattice_subset rfl _ _
  · simpa using occurrences_simplifyLattice_subset rfl _ _
  · simpa using occurrences_simplifyImp_subset _ _
  · simpa using occurrences_simplifyIff_subset _ _
  · simp
  · simp

theorem occurrences_simplifyPass_subset (f : Formula) :
    f.simplifyPass.occurrences ⊆ f.occurrences := by
  induction f with
  | bottom | top | atom => exact List.Subset.refl _
  | neg p ih => exact List.Subset.trans (occurrences_simplifyStep_subset _) ih
  | binary op p q ihp ihq =>
    refine List.Subset.trans (occurrences_simplifyStep_subset _) ?_
    rw [occurrences_binary, occurrences_binary]
    exact List.append_subset.2 ⟨List.subset_append_of_subset_left _ ihp,
      List.subset_append_of_subset_right _ ihq⟩
  | group p ih => exact ih

theorem occurrences_repeatPasses_subset (n : Nat) (f : Formula) :
    (repeatPasses n f).occurrences ⊆ f.occurrences := by
  induction n generalizing f with
  | zero => exact List.Subset.refl _
  | succ n ih =>
    rw [repeatPasses]
    split
    · exact List.Subset.refl _
    · exact List.Subset.trans (ih _) (occurrences_simplifyPass_subset f)

theorem occurrences_simplifyWithLimit_subset (limit : Nat) (f : Formula) :
    (f.simplifyWithLimit limit).occurrences ⊆ f.occurrences :=
  List.Subset.trans (occurrences_repeatPasses_subset _ _) (occurrences_simplifyPass_subset f)

theorem occurrences_simplify_subset (f : Formula) : f.simplify.occurrences ⊆ f.occurrences :=
  occurrences_simplifyWithLimit_subset passLimit f

/-- Simplifying keeps the meaning. The laws at the root, a pass over all nodes and any number of
passes each give a formula that has the same value under every valuation, one that leaves names out
included, and that has no other variables. -/
theorem simplification_keeps_meaning (f : Formula) (limit : Nat) :
    (∀ v, f.simplifyStep.eval v = f.eval v ∧ f.simplifyPass.eval v = f.eval v ∧
      (f.simplifyWithLimit limit).eval v = f.eval v) ∧
    f.simplifyStep.vars ⊆ f.vars ∧ f.simplifyPass.vars ⊆ f.vars ∧
      (f.simplifyWithLimit limit).vars ⊆ f.vars :=
  ⟨fun v => ⟨eval_simplifyStep f v, eval_simplifyPass f v, eval_simplifyWithLimit limit f v⟩,
    vars_subset (occurrences_simplifyStep_subset f), vars_subset (occurrences_simplifyPass_subset f),
    vars_subset (occurrences_simplifyWithLimit_subset limit f)⟩

/-! ## Normal forms -/

theorem mem_occurrences_pushNegations {f : Formula} {sign : Bool} {name : String} :
    name ∈ (f.pushNegations sign).occurrences ↔ name ∈ f.occurrences := by
  induction f generalizing sign with
  | bottom | top | atom => cases sign <;> rfl
  | neg p ih => cases sign <;> simp [pushNegations, ih]
  | group p ih => cases sign <;> simp [pushNegations, ih]
  | binary op p q ihp ihq =>
    cases op <;> cases sign <;> simp [pushNegations, ihp, ihq]
    all_goals grind

theorem mem_occurrences_distributeRight {outer inner : Connective} {l r : Formula}
    {name : String} : name ∈ (distributeRight outer inner l r).occurrences ↔
      name ∈ l.occurrences ∨ name ∈ r.occurrences := by
  induction r with
  | binary op p q ihp ihq =>
    rw [distributeRight]
    split
    · simp only [occurrences_binary, List.mem_append, ihp, ihq]
      grind
    · simp
  | _ => simp [distributeRight]

theorem mem_occurrences_distribute {outer inner : Connective} {l r : Formula} {name : String} :
    name ∈ (distribute outer inner l r).occurrences ↔
      name ∈ l.occurrences ∨ name ∈ r.occurrences := by
  induction l with
  | binary op p q ihp ihq =>
    rw [distribute]
    split
    · simp only [occurrences_binary, List.mem_append, ihp, ihq]
      grind
    · exact mem_occurrences_distributeRight
  | _ => exact mem_occurrences_distributeRight

theorem mem_occurrences_flatten {outer inner : Connective} {f : Formula} {name : String} :
    name ∈ (flatten outer inner f).occurrences ↔ name ∈ f.occurrences := by
  induction f with
  | binary op p q ihp ihq =>
    rw [flatten]
    split
    · simp [ihp, ihq]
    split
    · rw [mem_occurrences_distribute, ihp, ihq, occurrences_binary, List.mem_append]
    · rfl
  | _ => rfl

theorem mem_occurrences_nnf {f : Formula} {name : String} :
    name ∈ f.nnf.occurrences ↔ name ∈ f.occurrences :=
  mem_occurrences_pushNegations

theorem mem_occurrences_cnf {f : Formula} {name : String} :
    name ∈ f.cnf.occurrences ↔ name ∈ f.occurrences :=
  mem_occurrences_flatten.trans mem_occurrences_nnf

theorem mem_occurrences_dnf {f : Formula} {name : String} :
    name ∈ f.dnf.occurrences ↔ name ∈ f.occurrences :=
  mem_occurrences_flatten.trans mem_occurrences_nnf

end Sentential.Formula
