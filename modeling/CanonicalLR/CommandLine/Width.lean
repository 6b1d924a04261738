import CanonicalLR.CommandLine.Emoji
import CanonicalLR.CommandLine.Wide
import CanonicalLR.CommandLine.ZeroWidth

/-!
# Display width

The columns of a printed table are aligned by the number of terminal cells that
a text takes. Most characters take one cell, wide ones two, and marks none. But
some characters together are drawn as one sign: an emoji with its selector, skin
tone or joined emoji, and the ligatures of a few scripts. What a character takes
therefore depends on what stands after it, and a text is measured from its end.

Colour sequences, `ESC [ … m`, are not drawn.

## Main definitions

* `charCells` — the cells of a character that stands alone.
* `Following`, `Measured.prepend` — what the text after a character means for
  it, and the measure of a text with one more character in front.
* `measure`, `width` — the cells of a text with and without its colour sequences.
-/

namespace CanonicalLR.CommandLine

open Text

/-! ## Characters -/

/-- The cells of a character that stands alone. Control characters take one, and
the Khmer sign `U+17D8`, which is drawn as three, takes three. -/
def charCells (c : Char) : Nat :=
  if c.toNat ≤ 0xA0 then 1
  else if inRanges zeroWidthRanges c.toNat then 0
  else if inRanges wideRanges c.toNat then 2
  else if c = '\u17D8' then 3
  else 1

/-! ## Signs -/

/-- The last character of a ligature, which is the first one to be measured. -/
inductive Ligature where
  /-- Arabic alef, which a lam before it takes in. -/
  | alef
  /-- Hebrew lamed, joined to an alef before it. -/
  | lamed
  /-- A Khmer letter, which is drawn below after a coeng sign. -/
  | khmer
  /-- Buginese ya, joined to the vowel sign i before it. -/
  | ya
  /-- The vowel sign i and a joined ya, after the letter a. -/
  | vowelYa
  /-- A Tifinagh consonant, which joins another one. -/
  | tifinagh
  /-- A Tifinagh consonant after the consonant joiner. -/
  | joinedTifinagh
  /-- One of two Lisu tone letters, after one of four others. -/
  | lisu
  /-- Old Turkic i, joined to the letter before it. -/
  | turkic
  deriving DecidableEq, Repr

/-- What the text after a character starts with. -/
inductive Following where
  /-- Nothing that joins the character. -/
  | other
  /-- The end of a ligature, after a joiner or not. -/
  | ligature (last : Ligature) (joined : Bool)
  /-- An emoji. -/
  | emoji
  | skinTone
  /-- One letter of a flag, or more. -/
  | flagLetters (several : Bool)
  /-- A joiner and an emoji. -/
  | joinedEmoji
  /-- A keycap, a joiner and an emoji. -/
  | joinedKeycap
  /-- So many letters of flags, a joiner and an emoji. -/
  | joinedFlag (letters : Nat)
  /-- So many tags for letters and for digits, the end tag, a joiner and an
  emoji. -/
  | joinedTags (letters digits : Nat)
  deriving DecidableEq, Repr

/-- What a character means for the one before it. -/
def Following.ofChar (c : Char) : Following :=
  let code := c.toNat
  if code = 0x05DC then .ligature .lamed false
  else if inRanges [(0x0622, 0x0623), (0x0625, 0x0625), (0x0627, 0x0627), (0x0671, 0x0673),
      (0x0675, 0x0675), (0x0773, 0x0774), (0x0870, 0x0882)] code then .ligature .alef false
  else if inRanges [(0x1780, 0x1782), (0x1784, 0x1787), (0x1789, 0x178C), (0x178E, 0x1793),
      (0x1795, 0x1798), (0x179B, 0x179D), (0x17A0, 0x17A0), (0x17A2, 0x17A2),
      (0x17A7, 0x17A7), (0x17AB, 0x17AC), (0x17AF, 0x17AF)] code then .ligature .khmer false
  else if code = 0x1A10 then .ligature .ya false
  else if inRanges [(0x2D31, 0x2D65), (0x2D6F, 0x2D6F)] code then .ligature .tifinagh false
  else if inRanges [(0xA4FC, 0xA4FD)] code then .ligature .lisu false
  else if code = 0x10C03 then .ligature .turkic false
  else if isFlagLetter c then .flagLetters false
  else if isSkinTone c then .skinTone
  else if isPicture c then .emoji
  else .other

/-- The cells from a character on and what it means for the one before it, if it
ends or continues a ligature and `cells` were counted after it. -/
def Ligature.take (cells : Nat) (c : Char) (last : Ligature) (joined : Bool) :
    Option (Nat × Following) :=
  let code := c.toNat
  if last ≠ .alef ∧ c = joiner then some (cells, .ligature last true)
  else if last ≠ .alef ∧ inRanges unbrokenRanges code = true then
    some (cells, .ligature last joined)
  else match last with
    | .alef =>
      if inRanges [(0x0644, 0x0644), (0x06B5, 0x06B8), (0x076A, 0x076A), (0x08A6, 0x08A6),
          (0x08C7, 0x08C7)] code then some (cells, .other)
      else if inRanges zeroWidthRanges code && !inRanges [(0x200C, 0x200D)] code then
        some (cells, .ligature .alef joined)
      else none
    | .lamed => if joined && code = 0x05D0 then some (cells, .other) else none
    | .khmer => if code = 0x17D2 then some (cells - 1, .other) else none
    | .ya => if joined && code = 0x1A17 then some (cells, .ligature .vowelYa true) else none
    | .vowelYa => if code = 0x1A15 then some (cells, .other) else none
    | .tifinagh =>
      if code = 0x2D7F then some (cells + 1, .ligature .joinedTifinagh true)
      else if joined && inRanges [(0x2D31, 0x2D65), (0x2D6F, 0x2D6F)] code then
        some (cells, .other)
      else none
    | .joinedTifinagh =>
      if inRanges [(0x2D31, 0x2D65), (0x2D6F, 0x2D6F)] code then some (cells - 1, .other)
      else none
    | .lisu => if inRanges [(0xA4F8, 0xA4FB)] code then some (cells, .other) else none
    | .turkic => if joined && code = 0x10C32 then some (cells, .other) else none

/-- The cells from a character on and what it means for the one before it, if it
forms one sign with what follows and `cells` were counted after it. -/
def Following.take (cells : Nat) (c : Char) : Following → Option (Nat × Following)
  | .other => none
  | .ligature last joined => last.take cells c joined
  | .emoji => if c = joiner then some (cells, .joinedEmoji) else none
  | .skinTone =>
    if takesSkinTone c then some (cells, .emoji)
    else if c = joiner then some (cells, .joinedEmoji)
    else none
  | .flagLetters several =>
    if isFlagLetter c then some (cells + 1, .flagLetters true)
    else if several && c = joiner then some (cells, .joinedEmoji)
    else none
  | .joinedEmoji =>
    if c.toNat = 0x20E3 then some (cells, .joinedKeycap)
    else if isFlagLetter c then some (cells + 1, .joinedFlag 1)
    else if isSkinTone c then some (cells, .skinTone)
    else if c.toNat = 0xE007F then some (cells, .joinedTags 0 0)
    else if isPicture c then some (cells, .emoji)
    else none
  | .joinedKeycap => none
  | .joinedFlag letters =>
    if isFlagLetter c then
      some (if letters % 2 = 1 then cells - 1 else cells + 3, .joinedFlag (letters + 1))
    else if 1 < letters ∧ c = joiner then some (cells, .joinedEmoji)
    else none
  | .joinedTags letters digits =>
    if inRanges [(0xE0061, 0xE007A)] c.toNat && letters < 6 && digits = 0 then
      some (cells, .joinedTags (letters + 1) 0)
    else if inRanges [(0xE0030, 0xE0039)] c.toNat && letters < 5 && digits < 3 then
      some (cells, .joinedTags letters (digits + 1))
    else if c.toNat = 0x1F3F4 ∧ (digits = 3 ∨ digits = 0 ∧ 3 ≤ letters) then
      some (cells, .emoji)
    else none

/-! ## Texts -/

/-- What a selector asks the character before it to be. -/
inductive Presentation where
  | picture
  | plain
  deriving DecidableEq, Repr

/-- A text that is measured. -/
structure Measured where
  cells : Nat
  following : Following
  /-- The selector with which the text starts. -/
  selector : Option Presentation
  deriving DecidableEq, Repr

namespace Measured

/-- The measure of the empty text. -/
def empty : Measured := ⟨0, .other, none⟩

/-- What the text means for a character that its selector does not apply to:
only a ligature is not parted by a selector. -/
def behind (m : Measured) : Following :=
  match m.selector, m.following with
  | none, following => following
  | some _, .ligature last joined => .ligature last joined
  | some _, _ => .other

/-- What stands after a selector, when a character is found before it. -/
def afterSelector (picture : Bool) : Following → Following
  | .ligature last joined => .ligature last joined
  | .joinedEmoji => if picture then .joinedEmoji else .other
  | .joinedKeycap => if picture then .joinedKeycap else .other
  | _ => .other

/-- The measure of a text with one more character in front. -/
def prepend (c : Char) (m : Measured) : Measured :=
  if m.selector = some .picture ∧ hasPicture c = true then
    let joined := m.following = .joinedEmoji ∨ m.following = .joinedKeycap
    ⟨if joined then m.cells else m.cells + 2, .emoji, none⟩
  else if c.toNat ≤ 0xA0 then ⟨m.cells + 1, .other, none⟩
  else if c = pictureSelector then
    ⟨m.cells, afterSelector true m.behind, some .picture⟩
  else if c = plainSelector then
    ⟨m.cells, afterSelector false m.behind, some .plain⟩
  else if m.selector = some .plain ∧ hasPlainForm c = true then
    ⟨m.cells + 1, .other, none⟩
  else match m.behind.take m.cells c with
    | some (cells, following) => ⟨cells, following, none⟩
    | none => ⟨m.cells + charCells c, .ofChar c, none⟩

end Measured

/-- The cells of a text. -/
def measure (cs : List Char) : Nat := (cs.foldr Measured.prepend .empty).cells

/-! ## Colour sequences -/

/-- Where a place in a text stands to the colour sequences. -/
inductive ColourState where
  | outside
  /-- After an escape character. -/
  | escaped
  /-- Between the bracket and the closing `m`. -/
  | inside
  deriving DecidableEq, Repr

/-- The cells that would be counted for the characters of colour sequences,
without their escape characters. -/
def hiddenCells : ColourState → List Char → Nat
  | _, [] => 0
  | .outside, c :: cs => hiddenCells (if c = '\x1b' then .escaped else .outside) cs
  | .escaped, c :: cs =>
    if c = '[' then hiddenCells .inside cs + 1 else hiddenCells .outside cs
  | .inside, c :: cs =>
    (if isControl c || charCells c = 0 then 0 else 1)
      + hiddenCells (if c = 'm' then .outside else .inside) cs
where
  /-- Is the character a control character? -/
  isControl (c : Char) : Bool := inRanges [(0x00, 0x1F), (0x7F, 0x9F)] c.toNat

/-- The cells that a text takes. -/
def width (text : String) : Nat :=
  measure text.toList - hiddenCells .outside text.toList

/-- A text filled with spaces to a number of cells; a wider text is kept. -/
def padTo (cells : Nat) (text : String) : String :=
  text ++ String.ofList (List.replicate (cells - width text) ' ')

end CanonicalLR.CommandLine
