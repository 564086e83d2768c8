import Sentential.Formula.Basic

/-!
# Normal forms

The negation normal form has no arrows and no groups, and negations on atoms only. From it the
conjunctive and the disjunctive normal form arise by distributing one lattice operation over the
other; the two are one construction with the operations exchanged.

* `eval_nnf`, `eval_cnf`, `eval_dnf`: the meaning is kept.
-/

namespace Sentential.Formula

/-! ## Negation normal form -/

/-- The negation normal form of a formula (`positive`) or of its negation. -/
def pushNegations : (positive : Bool) → Formula → Formula
  | true, bottom => bottom
  | false, bottom => top
  | true, top => top
  | false, top => bottom
  | true, atom name => atom name
  | false, atom name => neg (atom name)
  | sign, neg p => p.pushNegations (!sign)
  | sign, group p => p.pushNegations sign
  | true, conj p q => conj (p.pushNegations true) (q.pushNegations true)
  | false, conj p q => disj (p.pushNegations false) (q.pushNegations false)
  | true, disj p q => disj (p.pushNegations true) (q.pushNegations true)
  | false, disj p q => conj (p.pushNegations false) (q.pushNegations false)
  | true, imp p q => disj (p.pushNegations false) (q.pushNegations true)
  | false, imp p q => conj (p.pushNegations true) (q.pushNegations false)
  | true, iff p q =>
    conj (disj (p.pushNegations false) (q.pushNegations true))
      (disj (q.pushNegations false) (p.pushNegations true))
  | false, iff p q =>
    disj (conj (p.pushNegations true) (q.pushNegations false))
      (conj (p.pushNegations false) (q.pushNegations true))

/-- The negation normal form. -/
def nnf (f : Formula) : Formula :=
  f.pushNegations true

/-! ## Distribution -/

/-- `inner l r` with `inner` moved below every `outer` of `r`. -/
def distributeRight (outer inner : Connective) (l : Formula) : Formula → Formula
  | binary op p q =>
    if op = outer then
      binary outer (distributeRight outer inner l p) (distributeRight outer inner l q)
    else binary inner l (binary op p q)
  | r => binary inner l r

/-- `inner l r` with `inner` moved below every `outer` of `l` and then of `r`. -/
def distribute (outer inner : Connective) (l r : Formula) : Formula :=
  match l with
  | binary op p q =>
    if op = outer then binary outer (distribute outer inner p r) (distribute outer inner q r)
    else distributeRight outer inner (binary op p q) r
  | l => distributeRight outer inner l r

/-- Distributes `inner` over `outer` from the leaves up. -/
def flatten (outer inner : Connective) : Formula → Formula
  | binary op p q =>
    if op = outer then binary outer (flatten outer inner p) (flatten outer inner q)
    else if op = inner then distribute outer inner (flatten outer inner p) (flatten outer inner q)
    else binary op p q
  | f => f

/-- The conjunctive normal form. -/
def cnf (f : Formula) : Formula :=
  flatten .conj .disj f.nnf

/-- The disjunctive normal form. -/
def dnf (f : Formula) : Formula :=
  flatten .disj .conj f.nnf

/-! ## Shapes -/

/-- A literal or a constant. -/
def isLeaf (f : Formula) : Bool :=
  f.isLiteral || f = top || f = bottom

/-- Built by `op` from formulas that satisfy `part`. -/
def isChainOf (op : Connective) (part : Formula → Bool) : Formula → Bool
  | binary op' p q =>
    if op' = op then isChainOf op part p && isChainOf op part q else part (binary op' p q)
  | f => part f

/-- Conjunctions and disjunctions of leaves, nested in any way. -/
def isNnf : Formula → Bool
  | conj p q | disj p q => p.isNnf && q.isNnf
  | f => f.isLeaf

/-- A conjunction of disjunctions of leaves. -/
def isCnf (f : Formula) : Bool :=
  f.isChainOf .conj (isChainOf .disj isLeaf)

/-- A disjunction of conjunctions of leaves. -/
def isDnf (f : Formula) : Bool :=
  f.isChainOf .disj (isChainOf .conj isLeaf)

/-! ## Meaning -/

theorem eval_pushNegations (f : Formula) (sign : Bool) (v : Valuation) :
    (f.pushNegations sign).eval v = (f.eval v == sign) := by
  induction f generalizing sign with
  | bottom | top => cases sign <;> rfl
  | atom name => cases sign <;> simp [pushNegations, eval]
  | neg p ih => cases sign <;> simp [pushNegations, eval, ih]
  | group p ih => cases sign <;> simp [pushNegations, eval, ih]
  | binary op p q ihp ihq =>
    cases op <;> cases sign <;> simp [pushNegations, eval, Connective.apply, ihp, ihq] <;>
      cases p.eval v <;> cases q.eval v <;> rfl

@[simp] theorem eval_nnf (f : Formula) (v : Valuation) : f.nnf.eval v = f.eval v := by
  simp [nnf, eval_pushNegations]

/-- `inner` distributes over `outer` as a truth function, from both sides. -/
def Distributes (outer inner : Connective) : Prop :=
  ∀ a b c, inner.apply a (outer.apply b c) = outer.apply (inner.apply a b) (inner.apply a c) ∧
    inner.apply (outer.apply b c) a = outer.apply (inner.apply b a) (inner.apply c a)

theorem disj_distributes : Distributes .conj .disj := by
  intro a b c; cases a <;> cases b <;> cases c <;> decide

theorem conj_distributes : Distributes .disj .conj := by
  intro a b c; cases a <;> cases b <;> cases c <;> decide

theorem eval_distributeRight {outer inner : Connective} (h : Distributes outer inner)
    (l r : Formula) (v : Valuation) :
    (distributeRight outer inner l r).eval v = inner.apply (l.eval v) (r.eval v) := by
  induction r with
  | binary op p q ihp ihq =>
    rw [distributeRight]
    split
    · next hop => simp [eval, ihp, ihq, hop, (h _ _ _).1]
    · rfl
  | _ => rfl

theorem eval_distribute {outer inner : Connective} (h : Distributes outer inner)
    (l r : Formula) (v : Valuation) :
    (distribute outer inner l r).eval v = inner.apply (l.eval v) (r.eval v) := by
  induction l with
  | binary op p q ihp ihq =>
    rw [distribute]
    split
    · next hop => simp [eval, ihp, ihq, hop, (h _ _ _).2]
    · exact eval_distributeRight h _ r v
  | _ => exact eval_distributeRight h _ r v

theorem eval_flatten {outer inner : Connective} (h : Distributes outer inner) (f : Formula)
    (v : Valuation) : (flatten outer inner f).eval v = f.eval v := by
  induction f with
  | binary op p q ihp ihq =>
    rw [flatten]
    split
    · next hop => simp [eval, ihp, ihq, hop]
    split
    · next hop => simp [eval, eval_distribute h, ihp, ihq, hop]
    · rfl
  | _ => rfl

@[simp] theorem eval_cnf (f : Formula) (v : Valuation) : f.cnf.eval v = f.eval v := by
  simp [cnf, eval_flatten disj_distributes]

@[simp] theorem eval_dnf (f : Formula) (v : Valuation) : f.dnf.eval v = f.eval v := by
  simp [dnf, eval_flatten conj_distributes]

end Sentential.Formula
