import Sentential.FactBase
import Sentential.Formula.Parser
import Sentential.Formula.Printer
import Sentential.TruthTable

/-!
# Rules

A rule concludes a name when its condition holds. The condition may itself mention the conclusion,
as `p => name` or as `name <=> p`; then only `p` decides.

* `Rule.parse`: a rule from texts.
* `Rule.antecedent`: the part of the condition that decides.
-/

namespace Sentential

/-- Why there is no rule or no rule set. -/
inductive RuleError where
  | parse (id : String) (cause : ParseError)
  | invalidConclusion (name : String)
  | unsupportedVersion (version : Nat)
  | malformed
  deriving DecidableEq

/-- The wording of the error. -/
def RuleError.message : RuleError → String
  | parse id cause => "rule " ++ id ++ ": " ++ cause.message
  | invalidConclusion name => "invalid consequent name " ++ Text.quoted name
  | unsupportedVersion version => "unsupported rule set version " ++ toString version
  | malformed => "malformed rule set document"

/-- A rule: where the condition holds, the conclusion may be asserted. -/
structure Rule where
  id : String
  condition : Formula
  conclusion : String

namespace Rule

/-- The rule with the given id, the simplified condition of the text `condition`, and the given
conclusion, which must be an identifier. The conclusion is checked first. -/
def parse (id condition conclusion : String) : Except RuleError Rule :=
  if isIdentifier conclusion then
    match Formula.parse condition with
    | .ok f => .ok ⟨id, f, conclusion⟩
    | .error cause => .error (.parse id cause)
  else .error (.invalidConclusion conclusion)

/-- Same id, same conclusion and equivalent conditions. -/
def equals (r r' : Rule) : Bool :=
  r.id = r'.id && r.conclusion = r'.conclusion && r.condition.equivalent r'.condition

instance : BEq Rule := ⟨equals⟩

/-- The part of the condition that decides whether the rule fires. -/
def antecedent (r : Rule) : Formula :=
  match r.condition.operands? .imp, r.condition.operands? .iff with
  | some (p, q), _ => if q.atomName? = some r.conclusion then p else r.condition
  | none, some (p, q) => if p.atomName? = some r.conclusion then q else r.condition
  | none, none => r.condition

/-- Whether the antecedent is true in the fact base. -/
def holds (r : Rule) (facts : FactBase) : Bool :=
  r.antecedent.eval facts.valuation

/-- The text of a rule. -/
def text (r : Rule) : String :=
  r.id ++ ": " ++ r.condition.text ++ " => " ++ r.conclusion

end Rule

end Sentential
