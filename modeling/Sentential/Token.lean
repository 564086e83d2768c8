import Sentential.Formula.Basic
import Sentential.Text.Quoted

/-!
# Tokens

The words and signs that the text of a formula consists of, each with the place where it starts,
and how a message names them.

* `isIdentifier`: the names that may be written as an atom.
-/

namespace Sentential

/-- What a token is. -/
inductive TokenKind where
  | identifier (name : String)
  | top
  | bottom
  | neg
  | connective (op : Connective)
  | opening
  | closing
  | illegal (c : Char)
  | finish
  deriving DecidableEq

/-- A token and the byte offset at which it starts. -/
structure Token where
  kind : TokenKind
  offset : Nat
  deriving DecidableEq

namespace TokenKind

/-- How a message names a token. -/
def describe : TokenKind → String
  | identifier name => "identifier " ++ Text.quoted name
  | top => "TRUE"
  | bottom => "FALSE"
  | neg => "'!'"
  | connective op => "'" ++ op.symbol ++ "'"
  | opening => "'('"
  | closing => "')'"
  | illegal c => "illegal token " ++ Text.quoted c.toString
  | finish => "end of input"

end TokenKind

/-- A character that starts an identifier: an ASCII letter or the underscore. -/
def isNameStart (c : Char) : Bool :=
  c.isAlpha || c == '_'

/-- A character that continues an identifier: also an ASCII digit. -/
def isNameChar (c : Char) : Bool :=
  c.isAlphanum || c == '_'

/-- The words that are constants and not names. -/
def reservedWords : List (String × TokenKind) :=
  [("TRUE", .top), ("FALSE", .bottom)]

/-- Whether `name` can be written as an atom: a name character by character, and not reserved. -/
def isIdentifier (name : String) : Bool :=
  match name.toList with
  | [] => false
  | c :: cs => isNameStart c && cs.all isNameChar && (reservedWords.lookup name).isNone

end Sentential
