import Sentential.Formula.Basic

/-!
# The order of formulas

Formulas are ordered by kind first (constants, atoms, negations, the connectives from conjunction
to equivalence, groups) and among one kind by their parts from left to right.
-/

namespace Sentential.Formula

/-- The rank of a formula's kind. -/
def rank : Formula → Nat
  | bottom => 0
  | top => 1
  | atom _ => 2
  | neg _ => 3
  | conj _ _ => 4
  | disj _ _ => 5
  | imp _ _ => 6
  | iff _ _ => 7
  | group _ => 8

/-- Compares kinds, then parts from left to right. -/
protected def compare : Formula → Formula → Ordering
  | atom a, atom b => compare a b
  | neg p, neg q => p.compare q
  | binary op p q, binary op' p' q' =>
    (compare (binary op p q).rank (binary op' p' q').rank).then
      ((p.compare p').then (q.compare q'))
  | group p, group q => p.compare q
  | f, g => compare f.rank g.rank

instance : Ord Formula := ⟨Formula.compare⟩

end Sentential.Formula
