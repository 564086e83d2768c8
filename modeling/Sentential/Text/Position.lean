/-!
# Positions in a text

An offset counts the bytes of the UTF-8 form before a place, a column the characters before it,
from 1.

* `columnAt_of_boundary`: between two characters the column is one more than the characters before.
-/

namespace Sentential.Text

/-- How many characters the first `offset` bytes of a text hold, if those bytes end between two
characters. -/
def charsBefore? : List Char → Nat → Option Nat
  | _, 0 => some 0
  | [], _ + 1 => none
  | c :: cs, n + 1 =>
    if c.utf8Size ≤ n + 1 then (charsBefore? cs (n + 1 - c.utf8Size)).map (· + 1) else none

/-- The column of the place after `offset` bytes. Inside a character there is no column; the byte
count stands in for it. -/
def columnAt (text : String) (offset : Nat) : Nat :=
  (charsBefore? text.toList offset).getD offset + 1

/-- The bytes of the UTF-8 form of some characters. -/
def byteLength : List Char → Nat
  | [] => 0
  | c :: cs => c.utf8Size + byteLength cs

theorem charsBefore?_byteLength (cs rest : List Char) :
    charsBefore? (cs ++ rest) (byteLength cs) = some cs.length := by
  induction cs with
  | nil => cases rest <;> rfl
  | cons c cs ih =>
    obtain ⟨k, hk⟩ : ∃ k, c.utf8Size = k + 1 := ⟨c.utf8Size - 1, by have := c.utf8Size_pos; omega⟩
    have hlen : byteLength (c :: cs) = (k + byteLength cs) + 1 := by
      simp [byteLength, hk]; omega
    rw [hlen, List.cons_append, charsBefore?, if_pos (by omega),
      show k + byteLength cs + 1 - c.utf8Size = byteLength cs by omega, ih]
    rfl

/-- Between two characters the column is one more than the number of characters before. -/
theorem columnAt_of_boundary {text : String} {before after : List Char}
    (h : text.toList = before ++ after) :
    columnAt text (byteLength before) = before.length + 1 := by
  rw [columnAt, h, charsBefore?_byteLength, Option.getD_some]

end Sentential.Text
