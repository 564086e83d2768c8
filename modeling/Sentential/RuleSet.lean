import Sentential.Json.Reader
import Sentential.Json.Writer
import Sentential.Rule

/-!
# Saved rule sets

A rule set is saved as a document with a version and one record for each rule. The condition is
written simplified; reading simplifies again. A rule whose conclusion is no identifier cannot be
saved, because it could not be read.

* `RuleSet.save`, `RuleSet.load`: the text of rules, and the rules of a text.
* `RuleSet.isStable`: whether a text survives being read and written again.
-/

namespace Sentential.RuleSet

/-- A rule as it is written. -/
structure Record where
  id : String
  condition : String
  conclusion : String
  deriving DecidableEq

/-- The version of the format. -/
def formatVersion : Nat := 1

/-- A version is a number below this bound. -/
def versionBound : Nat := UInt32.size

namespace Record

/-- The record of a rule whose conclusion is an identifier. -/
def ofRule (r : Rule) : Except RuleError Record :=
  if isIdentifier r.conclusion then .ok ⟨r.id, r.condition.simplify.text, r.conclusion⟩
  else .error (.invalidConclusion r.conclusion)

/-- The rule of a record. -/
def toRule (r : Record) : Except RuleError Rule :=
  Rule.parse r.id r.condition r.conclusion

/-- The value of a record. -/
def toJson (r : Record) : Json.Value :=
  .ofFields [("id", .ofText r.id), ("when", .ofText r.condition), ("then", .ofText r.conclusion)]

/-- The record that a value writes. -/
def ofJson? (v : Json.Value) : Option Record := do
  let [some id, some condition, some conclusion] ← v.record? ["id", "when", "then"] | none
  return ⟨← id.text?, ← condition.text?, ← conclusion.text?⟩

end Record

/-- The text of rules; of several rules that cannot be saved the first is reported. -/
def save (rules : List Rule) : Except RuleError String := do
  let records ← rules.mapM Record.ofRule
  return Json.Value.toText .indented (.ofFields [("version", .ofNat formatVersion),
    ("rules", .array (records.map Record.toJson))])

/-- The version and the records of a document. -/
def read? (text : String) : Option (Nat × List Record) := do
  let [some version, some rules] ← (← Json.parse? text).record? ["version", "rules"] | none
  return (← version.natural? versionBound, ← (← rules.items?).mapM Record.ofJson?)

/-- The rules of a text. The version is checked before the rules, and of several rules that are no
rules the first is reported. -/
def load (text : String) : Except RuleError (List Rule) :=
  match read? text with
  | none => .error .malformed
  | some (version, records) =>
    if version = formatVersion then records.mapM Record.toRule
    else .error (.unsupportedVersion version)

/-- Whether `saved` reads back as equal rules, in the order of `rules`, that are written as `saved`
again. A text that does not read back is not stable. -/
def isStable (rules : List Rule) (saved : String) : Bool :=
  match load saved with
  | .error _ => false
  | .ok again =>
    match save again with
    | .error _ => false
    | .ok text => text == saved && rules.length == again.length &&
      (rules.zip again).all fun (r, r') => r.equals r'

end Sentential.RuleSet
