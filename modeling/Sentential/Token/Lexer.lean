import Sentential.Text.CharClass
import Sentential.Token

/-!
# Reading tokens

White space separates tokens and is dropped. A sign is read at its full length, a word as far as
its characters go; any other character is an illegal token of its own, so that every text has
tokens and the parser can say where a bad character stands.

* `Token.lex`: the tokens of a text.
* `Token.read_count_le`: a token takes no more characters than the text has.
-/

namespace Sentential

/-- The token that a word spells: a constant if the word is reserved, otherwise a name. -/
def TokenKind.ofWord (word : String) : TokenKind :=
  (reservedWords.lookup word).getD (.identifier word)

namespace Token

/-- The token at the start of a text whose first character is `c`, and how many characters of
`rest` belong to it too. -/
def read (c : Char) (rest : List Char) : TokenKind × Nat :=
  if c = '<' ∧ rest.take 2 = ['=', '>'] then (.connective .iff, 2)
  else if c = '=' ∧ rest.take 1 = ['>'] then (.connective .imp, 1)
  else if c = '!' then (.neg, 0)
  else if c = '&' then (.connective .conj, 0)
  else if c = '|' then (.connective .disj, 0)
  else if c = '(' then (.opening, 0)
  else if c = ')' then (.closing, 0)
  else if isNameStart c then
    let tail := rest.takeWhile isNameChar
    (.ofWord (String.ofList (c :: tail)), tail.length)
  else (.illegal c, 0)

/-- The tokens of a text whose first character stands at `offset`. After its first character a
token has ASCII characters only, one byte each. -/
def scan (offset : Nat) : List Char → List Token
  | [] => []
  | c :: rest =>
    if Text.isBlank c then scan (offset + c.utf8Size) rest
    else
      let (kind, count) := read c rest
      ⟨kind, offset⟩ :: scan (offset + c.utf8Size + count) (rest.drop count)
termination_by cs => cs.length

/-- The tokens of `text`, ended by one that marks the end. -/
def lex (text : String) : List Token :=
  scan 0 text.toList ++ [⟨.finish, text.utf8ByteSize⟩]

/-- A token takes no more characters than the text has. -/
theorem read_count_le (c : Char) (rest : List Char) :
    (read c rest).2 ≤ rest.length := by
  unfold read
  split
  · next h => have := congrArg List.length h.2; simp at this ⊢; omega
  split
  · next h => have := congrArg List.length h.2; simp at this ⊢; omega
  iterate 5 (split; · simp)
  split
  · exact (List.takeWhile_sublist _).length_le
  · simp

end Token

end Sentential
