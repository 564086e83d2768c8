import Sentential.Formula.Basic

/-!
# The text of a formula

Every binary connective is written inside brackets of its own, so a group around one adds none.
Any other group is written as a pair of brackets.

* `text_group_binary`: the group of a binary formula is written as the formula.
-/

namespace Sentential.Formula

/-- The text of a formula. -/
def text : Formula → String
  | bottom => "FALSE"
  | top => "TRUE"
  | atom name => name
  | neg p => "!" ++ p.text
  | binary op p q => "(" ++ p.text ++ " " ++ op.symbol ++ " " ++ q.text ++ ")"
  | group p =>
    match p with
    | binary .. => p.text
    | _ => "(" ++ p.text ++ ")"

instance : ToString Formula := ⟨text⟩

/-- The line that displays a formula on its own. -/
def displayLine (f : Formula) : String :=
  "<<" ++ f.text ++ ">>\n"

theorem text_group_binary (op : Connective) (p q : Formula) :
    (group (binary op p q)).text = (binary op p q).text := by
  simp [text]

end Sentential.Formula
