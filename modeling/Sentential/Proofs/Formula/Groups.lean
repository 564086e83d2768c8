import Sentential.Formula.Printer
import Sentential.Formula.Simplify
import Sentential.Proofs.Formula.Occurrences

/-!
# Groups

Two formulas that differ in their groups only mean the same and simplify alike. The groups that the
text of a formula shows are those of `bracketed`: one around every binary formula, and any other
group as it stands.

* `withoutGroups`, `eval_withoutGroups`: the formula without its groups.
* `ungroup_eq_atom_iff`: an atom inside groups is what is left of it without them.
* `occurrences_withoutGroups`: it mentions the same names.
* `simplifyPass_withoutGroups`, `pushNegations_withoutGroups`: neither a pass nor the negation
  normal form sees groups.
* `bracketed`, `text_bracketed`: the groups that the text shows, and no others.
* `withoutGroups_bracketed`: up to groups the formula is the same.
-/

namespace Sentential.Formula

/-- The formula without its groups. -/
def withoutGroups : Formula → Formula
  | neg p => neg p.withoutGroups
  | binary op p q => binary op p.withoutGroups q.withoutGroups
  | group p => p.withoutGroups
  | f => f

/-- Whether there is a group anywhere. -/
def hasGroup : Formula → Bool
  | bottom | top | atom _ => false
  | neg p => p.hasGroup
  | binary _ p q => p.hasGroup || q.hasGroup
  | group _ => true

/-- Whether the outermost sign is a binary connective. -/
def isBinary : Formula → Bool
  | binary .. => true
  | _ => false

/-- The formula with a group for every pair of brackets in its text. -/
def bracketed : Formula → Formula
  | neg p => neg p.bracketed
  | binary op p q => group (binary op p.bracketed q.bracketed)
  | group p => if p.isBinary then p.bracketed else group p.bracketed
  | f => f

/-- How many negations and pairs of brackets stand inside each other in the text of the formula. A
group around a binary formula has no brackets of its own. -/
def printedDepth : Formula → Nat
  | bottom | top | atom _ => 0
  | neg p => p.printedDepth + 1
  | binary _ p q => max p.printedDepth q.printedDepth + 1
  | group p => if p.isBinary then p.printedDepth else p.printedDepth + 1

theorem withoutGroups_of_hasGroup {f : Formula} (h : f.hasGroup = false) : f.withoutGroups = f := by
  induction f with
  | bottom | top | atom => rfl
  | neg p ih => rw [withoutGroups, ih h]
  | binary op p q ihp ihq =>
    rw [hasGroup, Bool.or_eq_false_iff] at h
    rw [withoutGroups, ihp h.1, ihq h.2]
  | group p => cases h

theorem hasGroup_withoutGroups (f : Formula) : f.withoutGroups.hasGroup = false := by
  induction f with
  | bottom | top | atom => rfl
  | neg p ih => exact ih
  | binary op p q ihp ihq => rw [withoutGroups, hasGroup, ihp, ihq, Bool.or_self]
  | group p ih => exact ih

theorem ungroup_eq_atom_iff {f : Formula} {name : String} :
    f.ungroup = atom name ↔ f.withoutGroups = atom name := by
  induction f with
  | group p ih => exact ih
  | bottom | top | atom | neg | binary => simp [ungroup, withoutGroups]

/-! ## Meaning and simplification -/

theorem eval_withoutGroups (f : Formula) (v : Valuation) : f.withoutGroups.eval v = f.eval v := by
  induction f with
  | bottom | top | atom => rfl
  | neg p ih => simp only [withoutGroups, eval, ih]
  | binary op p q ihp ihq => simp only [withoutGroups, eval, ihp, ihq]
  | group p ih => exact ih

theorem occurrences_withoutGroups (f : Formula) : f.withoutGroups.occurrences = f.occurrences := by
  induction f with
  | bottom | top | atom => rfl
  | neg p ih => exact ih
  | binary op p q ihp ihq => rw [withoutGroups, occurrences_binary, occurrences_binary, ihp, ihq]
  | group p ih => exact ih

theorem simplifyPass_withoutGroups (f : Formula) :
    f.withoutGroups.simplifyPass = f.simplifyPass := by
  induction f with
  | bottom | top | atom => rfl
  | neg p ih => simp only [withoutGroups, simplifyPass, ih]
  | binary op p q ihp ihq => simp only [withoutGroups, simplifyPass, ihp, ihq]
  | group p ih => exact ih

theorem simplifyWithLimit_withoutGroups (limit : Nat) (f : Formula) :
    f.withoutGroups.simplifyWithLimit limit = f.simplifyWithLimit limit := by
  rw [simplifyWithLimit, simplifyPass_withoutGroups, simplifyWithLimit]

/-- Formulas that differ in their groups only are simplified to the same formula. -/
theorem simplify_congr {f g : Formula} (h : f.withoutGroups = g.withoutGroups) :
    f.simplify = g.simplify := by
  rw [simplify, simplify, ← simplifyWithLimit_withoutGroups, h, simplifyWithLimit_withoutGroups]

theorem pushNegations_withoutGroups (f : Formula) (sign : Bool) :
    f.withoutGroups.pushNegations sign = f.pushNegations sign := by
  induction f generalizing sign with
  | bottom | top | atom => rfl
  | neg p ih => simp only [withoutGroups, pushNegations, ih]
  | binary op p q ihp ihq =>
    cases op <;> cases sign <;> simp only [withoutGroups, pushNegations, ihp, ihq]
  | group p ih => simp only [withoutGroups, pushNegations, ih]

theorem nnf_withoutGroups (f : Formula) : f.withoutGroups.nnf = f.nnf :=
  pushNegations_withoutGroups f true

/-! ## The groups of the text -/

theorem text_group (p : Formula) :
    (group p).text = if p.isBinary then p.text else "(" ++ p.text ++ ")" := by
  cases p <;> rfl

theorem isBinary_bracketed (f : Formula) : f.bracketed.isBinary = false := by
  induction f with
  | bottom | top | atom | neg | binary => rfl
  | group p ih =>
    rw [bracketed]
    split
    · exact ih
    · rfl

theorem text_bracketed (f : Formula) : f.bracketed.text = f.text := by
  induction f with
  | bottom | top | atom => rfl
  | neg p ih => simp only [bracketed, text, ih]
  | binary op p q ihp ihq => rw [bracketed, text_group_binary, text, text, ihp, ihq]
  | group p ih =>
    rw [bracketed, text_group]
    split
    · exact ih
    · rw [text_group, isBinary_bracketed, ih, if_neg Bool.false_ne_true]

theorem withoutGroups_bracketed (f : Formula) : f.bracketed.withoutGroups = f.withoutGroups := by
  induction f with
  | bottom | top | atom => rfl
  | neg p ih => simp only [bracketed, withoutGroups, ih]
  | binary op p q ihp ihq => simp only [bracketed, withoutGroups, ihp, ihq]
  | group p ih =>
    rw [bracketed]
    split
    · exact ih
    · exact ih

end Sentential.Formula
