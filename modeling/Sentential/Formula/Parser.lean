import Sentential.Formula.Simplify
import Sentential.Text.Position
import Sentential.Token.Lexer

/-!
# Reading formulas

The grammar has five levels: equivalences of implications of disjunctions of conjunctions of
unary formulas. A unary formula is negated any number of times around an atom, a constant or a
bracketed formula, and every chain of one connective associates to the left.

Reading goes over the tokens once. Before each token the reader has a frame for every open bracket
and one outside them all; a frame holds the left operands that still wait for a right one, and how
many negations wait for the next operand. So the reader knows at every token whether an operand or
what follows an operand comes next, and the first token that fits neither is the one it reports.

* `nestingLimit`: how many brackets and negations may be open at once.
* `Formula.Reader.step`: what one token does.
* `Formula.parseRaw`, `Formula.parse`: the formula of a text, with its groups or simplified.
-/

namespace Sentential

/-- How many opening brackets and negations may wait for their end at once. -/
def nestingLimit : Nat := 256

/-- Why a token cannot stand where it does. -/
inductive SyntaxFault where
  | tooDeep (limit : Nat)
  | notAnOperand (found : TokenKind)
  | notClosing (found : TokenKind)
  | trailing (found : TokenKind)
  deriving DecidableEq

/-- The wording of a fault. -/
def SyntaxFault.message : SyntaxFault → String
  | tooDeep limit => "formula nested more than " ++ toString limit ++ " levels deep"
  | notAnOperand found => "unexpected " ++ found.describe ++ ", expected a formula"
  | notClosing found => "expected ')', found " ++ found.describe
  | trailing found => "unexpected trailing input starting with " ++ found.describe

/-- How tightly a connective binds its operands. -/
def Connective.strength : Connective → Nat
  | iff => 0
  | imp => 1
  | disj => 2
  | conj => 3

namespace Formula.Reader

/-- A left operand and the connective after it, waiting for the right operand. -/
abbrev Pending := Connective × Formula

/-- What waits inside one bracket: left operands, the last read first, and negations for the
operand to come. -/
structure Frame where
  pending : List Pending
  negations : Nat
  deriving DecidableEq

/-- What the reader has seen. Outside the innermost bracket it keeps the frames in which the open
brackets were read, the innermost first. -/
inductive State where
  /-- An operand comes next. -/
  | operand (frame : Frame) (outer : List Frame)
  /-- The operand `f` has just ended. -/
  | operator (f : Formula) (pending : List Pending) (outer : List Frame)
  deriving DecidableEq

/-- Nothing has been read. -/
def State.start : State :=
  .operand ⟨[], 0⟩ []

/-- The brackets and negations that are open in the innermost frame and the outer ones. -/
def depth (frame : Frame) : List Frame → Nat
  | [] => frame.negations
  | next :: outer => frame.negations + 1 + depth next outer

/-- Joins `f` to the pending left operands whose connective binds at least as tightly as
`strength`. -/
def join (strength : Nat) (f : Formula) : List Pending → Formula × List Pending
  | [] => (f, [])
  | (op, p) :: rest =>
    if strength ≤ op.strength then join strength (.binary op p f) rest else (f, (op, p) :: rest)

/-- `f` under `n` negations. -/
def negated (n : Nat) (f : Formula) : Formula :=
  n.repeat .neg f

/-- The operand `f` ends in a frame: the negations before it apply. -/
def Frame.complete (frame : Frame) (outer : List Frame) (f : Formula) : State :=
  .operator (negated frame.negations f) frame.pending outer

/-- What one token does where at most `limit` brackets and negations may be open. -/
def step (limit : Nat) : State → TokenKind → Except SyntaxFault State
  | .operand frame outer, .identifier name => .ok (frame.complete outer (.atom name))
  | .operand frame outer, .top => .ok (frame.complete outer .top)
  | .operand frame outer, .bottom => .ok (frame.complete outer .bottom)
  | .operand frame outer, .neg =>
    if limit ≤ depth frame outer then .error (.tooDeep limit)
    else .ok (.operand { frame with negations := frame.negations + 1 } outer)
  | .operand frame outer, .opening =>
    if limit ≤ depth frame outer then .error (.tooDeep limit)
    else .ok (.operand ⟨[], 0⟩ (frame :: outer))
  | .operand _ _, found => .error (.notAnOperand found)
  | .operator f pending outer, .connective op =>
    let (g, rest) := join op.strength f pending
    .ok (.operand ⟨(op, g) :: rest, 0⟩ outer)
  | .operator f pending (frame :: outer), .closing =>
    .ok (frame.complete outer (.group (join 0 f pending).1))
  | .operator _ _ (_ :: _), found => .error (.notClosing found)
  | .operator _ _ [], found => .error (.trailing found)

/-- The formula read when the tokens end. -/
def finish : State → Except SyntaxFault Formula
  | .operator f pending [] => .ok (join 0 f pending).1
  | .operator _ _ (_ :: _) => .error (.notClosing .finish)
  | .operand _ _ => .error (.notAnOperand .finish)

/-- A fault and the offset of the token at which it shows. -/
structure Failure where
  offset : Nat
  fault : SyntaxFault
  deriving DecidableEq

/-- Reads the tokens of a text that ends at the offset `stop`. -/
def run (limit stop : Nat) (state : State) : List Token → Except Failure Formula
  | [] => (finish state).mapError (⟨stop, ·⟩)
  | token :: tokens =>
    match step limit state token.kind with
    | .ok next => run limit stop next tokens
    | .error fault => .error ⟨token.offset, fault⟩

end Formula.Reader

/-- Where and why a text is no formula. -/
structure ParseError where
  offset : Nat
  column : Nat
  detail : String
  deriving DecidableEq

namespace ParseError

/-- The error at `offset` bytes into `text`; an offset past the end means the end. -/
def atOffset (text : String) (offset : Nat) (detail : String) : ParseError :=
  let offset := min offset text.utf8ByteSize
  ⟨offset, Text.columnAt text offset, detail⟩

/-- The wording of the error. -/
def message (e : ParseError) : String :=
  "parse error at column " ++ toString e.column ++ " (offset " ++ toString e.offset ++ "): " ++
    e.detail

end ParseError

namespace Formula

/-- The formula that `text` writes, brackets kept as groups. -/
def parseRaw (text : String) : Except ParseError Formula :=
  (Reader.run nestingLimit text.utf8ByteSize .start (Token.scan 0 text.toList)).mapError
    fun failure => .atOffset text failure.offset failure.fault.message

/-- The formula that `text` writes, simplified. -/
def parse (text : String) : Except ParseError Formula :=
  (parseRaw text).map simplify

/-- The formula of a text that is part of the program. A text that is no formula is a fault of the
program, so its report quotes the text. -/
def parseBuiltIn (text : String) : Except String Formula :=
  (parse text).mapError fun e =>
    "invalid built-in formula " ++ Text.quoted text ++ ": " ++ e.message

end Formula

end Sentential
