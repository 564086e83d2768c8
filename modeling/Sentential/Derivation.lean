import Sentential.Engine
import Sentential.Explanation.Basic

/-!
# Derivations

How a formula gets its value from rules and facts. A compound formula rests on its parts. An atom
rests on a rule that concludes it, by preference one that holds, and the rule on its antecedent;
where there is no such rule, or the atom was explained before, the atom is a leaf. So rules may
refer to each other in circles.

* `Engine.ruleFor`: the rule on which an atom rests.
* `Engine.deriveFrom`: the derivation, together with the atoms explained by then.
* `Derivation.explanation`: the derivation as a tree of labels.
-/

namespace Sentential

/-- Why an atom rests on no rule. -/
inductive Ground where
  | repeated
  | asserted
  | unsupported
  deriving DecidableEq

/-- The wording of a ground. -/
def Ground.reason : Ground → String
  | repeated => "explained above"
  | asserted => "asserted"
  | unsupported => "not asserted"

/-- How a formula gets its value. -/
inductive Derivation where
  /-- A constant has its value by itself. -/
  | constant (value : Bool)
  /-- An atom without a rule. -/
  | leaf (name : String) (value : Bool) (ground : Ground)
  /-- An atom with a rule that concludes it, whether that rule holds, and why. -/
  | concluded (name : String) (value : Bool) (rule : Rule) (holds : Bool) (premise : Derivation)
  /-- The negation of `p`. -/
  | negation (p : Formula) (value : Bool) (part : Derivation)
  /-- A binary formula. -/
  | binary (op : Connective) (p q : Formula) (value : Bool) (left right : Derivation)

namespace Derivation

/-- The value at the root. -/
def value : Derivation → Bool
  | constant value | leaf _ value _ | concluded _ value _ _ _ | negation _ value _
  | binary _ _ _ value _ _ => value

/-- The derivation as a tree of labels. A rule is a node between the atom that it concludes and
its antecedent. -/
def explanation : Derivation → Explanation
  | constant value => ⟨(if value then Formula.top else Formula.bottom).text, value, none, []⟩
  | leaf name value ground => .leaf name value ground.reason
  | concluded name value rule holds premise =>
    let why := rule.antecedent.text ++ " => " ++ rule.conclusion
    ⟨name, value, none, [⟨rule.id, holds, some why, [premise.explanation]⟩]⟩
  | negation p value part => ⟨(Formula.neg p).text, value, none, [part.explanation]⟩
  | binary op p q value left right =>
    ⟨(Formula.binary op p q).text, value, none, [left.explanation, right.explanation]⟩

end Derivation

namespace Engine

/-- The rule on which an atom rests: of the rules that conclude it the first that holds, or else,
if the atom is false, the first. A true atom without a rule that holds counts as asserted. -/
def ruleFor (e : Engine) (name : String) : Except Ground Rule :=
  let concluding := e.rules.filter (·.conclusion = name)
  match concluding.find? (·.holds e.facts) with
  | some r => .ok r
  | none =>
    if e.facts.get name then .error .asserted
    else
      match concluding.head? with
      | some r => .ok r
      | none => .error .unsupported

theorem mem_rules_of_ruleFor {e : Engine} {name : String} {r : Rule} (h : e.ruleFor name = .ok r) :
    r ∈ e.rules ∧ r.conclusion = name := by
  suffices r ∈ e.rules.filter (·.conclusion = name) by simpa using this
  unfold ruleFor at h
  simp only at h
  split at h
  · next heq => cases h; exact List.mem_of_find?_eq_some heq
  split at h
  · cases h
  split at h
  · next heq => cases h; exact List.mem_of_mem_head? heq
  · cases h

/-- The atoms explained so far. -/
abbrev Seen := Std.ExtTreeSet String

/-- How many rules conclude an atom that has not been explained. -/
def unexplained (e : Engine) (seen : Seen) : Nat :=
  e.rules.countP (·.conclusion ∉ seen)

theorem unexplained_le {e : Engine} {seen seen' : Seen} (h : ∀ name ∈ seen, name ∈ seen') :
    e.unexplained seen' ≤ e.unexplained seen :=
  List.countP_mono_left fun r _ hr => by
    simp only [decide_eq_true_eq] at hr ⊢
    exact fun hmem => hr (h _ hmem)

theorem unexplained_insert_lt {e : Engine} {seen : Seen} {r : Rule} (hr : r ∈ e.rules)
    (h : r.conclusion ∉ seen) : e.unexplained (seen.insert r.conclusion) < e.unexplained seen := by
  simp only [unexplained, List.countP_eq_length_filter]
  have hfilter : e.rules.filter (·.conclusion ∉ seen.insert r.conclusion) =
      (e.rules.filter (·.conclusion ∉ seen)).filter (r.conclusion ≠ ·.conclusion) := by
    rw [List.filter_filter]
    congr 1
    funext r'
    simp [Std.ExtTreeSet.mem_insert]
  rw [hfilter]
  exact List.length_filter_lt_length_iff_exists.2 ⟨r, by simp [hr, h], by simp⟩

private theorem lex_of_le {a b c d : Nat} (h : a ≤ b) (h' : c < d) :
    Prod.Lex (· < ·) (· < ·) (a, c) (b, d) := by
  rcases Nat.lt_or_eq_of_le h with h | rfl
  · exact .left _ _ h
  · exact .right _ h'

private theorem sizeOf_lt_binary (op : Connective) (p q : Formula) :
    sizeOf p < sizeOf (Formula.binary op p q) ∧ sizeOf q < sizeOf (Formula.binary op p q) := by
  simp only [Formula.binary.sizeOf_spec]; omega

/-- The derivation of a formula and the atoms explained after it, among them those before. -/
def deriveFrom (e : Engine) (seen : Seen) (f : Formula) :
    { r : Derivation × Seen // ∀ name ∈ seen, name ∈ r.2 } :=
  match f with
  | .bottom => ⟨(.constant false, seen), fun _ h => h⟩
  | .top => ⟨(.constant true, seen), fun _ h => h⟩
  | .group p => e.deriveFrom seen p
  | .neg p =>
    let part := e.deriveFrom seen p
    ⟨(.negation p ((Formula.neg p).eval e.facts.valuation) part.1.1, part.1.2), part.2⟩
  | .binary op p q =>
    let left := e.deriveFrom seen p
    have hle := e.unexplained_le left.2
    let right := e.deriveFrom left.1.2 q
    let value := (Formula.binary op p q).eval e.facts.valuation
    ⟨(.binary op p q value left.1.1 right.1.1, right.1.2), fun name h =>
      right.2 name (left.2 name h)⟩
  | .atom name =>
    let value := e.facts.get name
    if hseen : name ∈ seen then ⟨(.leaf name value .repeated, seen), fun _ h => h⟩
    else
      have hgrows : ∀ other ∈ seen, other ∈ seen.insert name := fun _ h =>
        Std.ExtTreeSet.mem_insert.2 (.inr h)
      match hrule : e.ruleFor name with
      | .error ground => ⟨(.leaf name value ground, seen.insert name), hgrows⟩
      | .ok rule =>
        have hlt : e.unexplained (seen.insert name) < e.unexplained seen := by
          obtain ⟨hmem, rfl⟩ := mem_rules_of_ruleFor hrule
          exact unexplained_insert_lt hmem hseen
        let premise := e.deriveFrom (seen.insert name) rule.antecedent
        ⟨(.concluded name value rule (rule.holds e.facts) premise.1.1, premise.1.2),
          fun other h => premise.2 other (hgrows other h)⟩
termination_by (e.unexplained seen, sizeOf f)
decreasing_by
  · exact .right _ (Formula.group.sizeOf_spec p ▸ Nat.lt_add_of_pos_left Nat.one_pos)
  · exact .right _ (Formula.neg.sizeOf_spec p ▸ Nat.lt_add_of_pos_left Nat.one_pos)
  · exact .right _ (sizeOf_lt_binary op p q).1
  · exact lex_of_le hle (sizeOf_lt_binary op p q).2
  · exact .left _ _ hlt

/-- The derivation of a goal. -/
def derive (e : Engine) (goal : Formula) : Derivation :=
  (e.deriveFrom ∅ goal).1.1

/-- The explanation of a goal; the value at its root is the answer. -/
def query (e : Engine) (goal : Formula) : Explanation :=
  (e.derive goal).explanation

end Engine

end Sentential
