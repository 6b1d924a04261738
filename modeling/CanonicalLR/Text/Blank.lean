/-!
# Blank characters

Grammar texts and parser inputs are divided by blanks. A character is blank
exactly when it has Unicode's `White_Space` property, so the no-break space
and the ideographic space divide words, while the zero-width space, the word
joiner and the byte order mark belong to the word they stand in.

## Main definitions

* `isBlank` — membership in the table `blankRanges`.
* `trim` — a text without the blanks at its two ends.

## Main results

* `trim_of_not_blank` — a text whose ends are not blank is left alone.
-/

namespace CanonicalLR.Text

/-- Does a code point lie in one of the closed ranges? -/
def inRanges (ranges : List (Nat × Nat)) (code : Nat) : Bool :=
  ranges.any fun range => range.1 ≤ code && code ≤ range.2

/-- The code points with Unicode's `White_Space` property, as closed ranges. -/
def blankRanges : List (Nat × Nat) :=
  [(0x0009, 0x000D), (0x0020, 0x0020), (0x0085, 0x0085), (0x00A0, 0x00A0),
   (0x1680, 0x1680), (0x2000, 0x200A), (0x2028, 0x2029), (0x202F, 0x202F),
   (0x205F, 0x205F), (0x3000, 0x3000)]

/-- A character that divides words. -/
def isBlank (c : Char) : Bool := inRanges blankRanges c.toNat

/-- A text without the blanks at its two ends. -/
def trim (cs : List Char) : List Char :=
  ((cs.dropWhile isBlank).reverse.dropWhile isBlank).reverse

/-- Dropping stops at once before an element that is to be kept. -/
theorem dropWhile_of_head_not {p : Char → Bool} {cs : List Char}
    (h : ∀ c ∈ cs.head?, p c = false) : cs.dropWhile p = cs := by
  cases cs with
  | nil => rfl
  | cons c cs => simp [h c (by simp)]

theorem trim_of_not_blank {cs : List Char}
    (first : ∀ c ∈ cs.head?, isBlank c = false)
    (last : ∀ c ∈ cs.getLast?, isBlank c = false) : trim cs = cs := by
  rw [trim, dropWhile_of_head_not first, dropWhile_of_head_not, List.reverse_reverse]
  simpa using last

end CanonicalLR.Text
