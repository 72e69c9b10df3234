import ProseLang.Text.CharClass

/-!
# Display width

The number of terminal columns that a text within one line takes. A character takes none, one or
two columns by its class, with two Khmer exceptions. In a running text a control character takes
one column, a sequence that is shown as one picture takes two in all, and letters that merge into
one shape take the columns of that shape. A text is measured from its end, because what follows a
character decides its width.
-/

namespace ProseLang

/-- The columns a printable character takes by itself. -/
def classWidth (c : Char) : Nat :=
  if c = '\u17d8' then 3
  else if c = '\u17a4' then 2
  else if CharClass.contains CharClass.zeroWidth c then 0
  else if CharClass.contains CharClass.wide c then 2
  else 1

/-- The columns a lone character takes; a control character takes none
(`UnicodeWidthChar::width`). -/
def charWidth (c : Char) : Nat :=
  if c.toNat < 0x20 then 0
  else if c.toNat < 0x7F then 1
  else if c.toNat < 0xA0 then 0
  else classWidth c

/-- The end of a possible ligature: what letters before it may merge with. -/
inductive LigatureTail
  /-- The Hebrew letter lamed, which merges with alef. -/
  | lamed
  /-- The Buginese letter ya, which merges with the vowel sign i and the letter a. -/
  | ya
  /-- The Buginese vowel sign i with the letter ya. -/
  | signAndYa
  /-- A Tifinagh consonant, which merges with another one. -/
  | tifinagh
  /-- A Tifinagh consonant behind a consonant joiner. -/
  | joinedTifinagh
  /-- A second Lisu tone letter, which merges with a first one. -/
  | lisuTone
  /-- The Orkhon letter i, which merges with a consonant. -/
  | orkhonI
  /-- A Khmer letter that is written below another one after a subscript sign. -/
  | khmerLetter
deriving DecidableEq, Repr

/-- What follows a character, as far as it matters for that character's width. -/
inductive Follower
  /-- Nothing that matters. -/
  | plain
  /-- A skin tone. -/
  | skinTone
  /-- A picture. -/
  | picture
  /-- A joiner and then a picture. -/
  | joined
  /-- A keycap, a joiner and then a picture. -/
  | joinedKeycap
  /-- One letter of a flag. -/
  | flagLetter
  /-- Several letters of flags. -/
  | flagLetters
  /-- One letter of a flag, a joiner and then a picture. -/
  | joinedFlagLetter
  /-- Several letters of flags, a joiner and then a picture; and whether the letters are even in
  number. -/
  | joinedFlagLetters (even : Bool)
  /-- The end of a tag, with so many tag letters and then so many tag digits read before it, a
  joiner and then a picture. -/
  | joinedTag (letters digits : Nat)
  /-- The Arabic letter alef. -/
  | alef
  /-- The end of a possible ligature; and whether a joiner stands before it. -/
  | ligature (tail : LigatureTail) (linked : Bool)
deriving DecidableEq, Repr

/-- Whether a variation selector leaves what follows it as it is: within Arabic and the
ligatures of other scripts it does. -/
def Follower.isLetter : Follower → Bool
  | .alef | .ligature _ _ => true
  | _ => false

/-- Whether a picture shown by a variation selector would be part of a joined picture. -/
def Follower.isJoined : Follower → Bool
  | .joined | .joinedKeycap => true
  | _ => false

/-- How a variation selector asks for the character before it to be shown. -/
inductive Presentation
  | text
  | picture
deriving DecidableEq, Repr

/-- What follows a character: possibly a variation selector, and then the rest. -/
structure WidthContext where
  selector : Option Presentation := none
  follower : Follower := .plain
deriving DecidableEq, Repr

namespace WidthContext

/-- What follows a character on which the variation selector has no effect. -/
def withoutSelector (s : WidthContext) : Follower :=
  if s.selector = none || s.follower.isLetter then s.follower else .plain

end WidthContext

/-- What a letter before the end of a possible ligature comes to with it, if they merge: the
columns to add, and what the two are to the character before them. -/
def LigatureTail.merge? (tail : LigatureTail) (linked : Bool) (c : Char) :
    Option (Int × Follower) :=
  match tail with
  | .lamed => if linked && c.toNat = 0x5D0 then some (0, .plain) else none
  | .ya => if linked && c.toNat = 0x1A17 then some (0, .ligature .signAndYa true) else none
  | .signAndYa => if c.toNat = 0x1A15 then some (0, .plain) else none
  | .tifinagh =>
    if c.toNat = 0x2D7F then some (1, .ligature .joinedTifinagh true)
    else if linked && CharClass.contains CharClass.tifinaghConsonant c then some (0, .plain)
    else none
  | .joinedTifinagh =>
    if CharClass.contains CharClass.tifinaghConsonant c then some (-1, .plain) else none
  | .lisuTone => if CharClass.contains CharClass.lisuFirstTone c then some (0, .plain) else none
  | .orkhonI => if linked && c.toNat = 0x10C32 then some (0, .plain) else none
  | .khmerLetter => if c.toNat = 0x17D2 then some (-1, .plain) else none

/-- What a character before a tag comes to with it: a tag names a region by two letters or three
digits and a part of it by up to four more letters, and stands on a black flag. -/
def tagStep? (letters digits : Nat) (c : Char) : Option (Int × Follower) :=
  if digits = 0 && letters < 6 && CharClass.contains CharClass.tagLetter c then
    some (0, .joinedTag (letters + 1) 0)
  else if digits < 3 && (0 < digits || letters ≤ 4) &&
      CharClass.contains CharClass.tagDigit c then
    some (0, .joinedTag letters (digits + 1))
  else if (digits = 3 || (digits = 0 && 3 ≤ letters)) && c.toNat = 0x1F3F4 then some (0, .picture)
  else none

/-- What a character comes to with what follows it, if the two are shown as one: the columns to
add, and what they are to the character before them. -/
def Follower.merge? (next : Follower) (c : Char) : Option (Int × Follower) :=
  let isJoiner := c.toNat = 0x200D
  let isFlagLetter := CharClass.contains CharClass.flagLetter c
  match next with
  | .alef =>
    if CharClass.contains CharClass.arabicLam c then some (0, .plain)
    else if classWidth c = 0 && !CharClass.contains CharClass.parting c then some (0, .alef)
    else none
  | .ligature tail linked =>
    if isJoiner then some (0, .ligature tail true)
    else if CharClass.contains CharClass.invisibleMark c then some (0, .ligature tail linked)
    else tail.merge? linked c
  | .skinTone =>
    if CharClass.contains CharClass.modifierBase c then some (0, .picture)
    else if isJoiner then some (0, .joined)
    else none
  | .picture => if isJoiner then some (0, .joined) else none
  | .joined =>
    if c.toNat = 0x20E3 then some (0, .joinedKeycap)
    else if isFlagLetter then some (1, .joinedFlagLetter)
    else if CharClass.contains CharClass.skinTone c then some (0, .skinTone)
    else if c.toNat = 0xE007F then some (0, .joinedTag 0 0)
    else if CharClass.contains CharClass.picture c then some (0, .picture)
    else none
  | .flagLetter => if isFlagLetter then some (1, .flagLetters) else none
  | .flagLetters =>
    if isFlagLetter then some (1, .flagLetters)
    else if isJoiner then some (0, .joined)
    else none
  | .joinedFlagLetter => if isFlagLetter then some (-1, .joinedFlagLetters true) else none
  | .joinedFlagLetters even =>
    if isFlagLetter then some (if even then 3 else -1, .joinedFlagLetters !even)
    else if isJoiner then some (0, .joined)
    else none
  | .joinedTag letters digits => tagStep? letters digits c
  | .plain | .joinedKeycap => none

/-- What a character is to the one before it. -/
def Follower.ofChar (c : Char) : Follower :=
  if CharClass.contains CharClass.arabicAlef c then .alef
  else if CharClass.contains CharClass.khmerSubscript c then .ligature .khmerLetter false
  else if CharClass.contains CharClass.tifinaghConsonant c then .ligature .tifinagh false
  else if c.toNat = 0x5DC then .ligature .lamed false
  else if c.toNat = 0x1A10 then .ligature .ya false
  else if c.toNat = 0xA4FC || c.toNat = 0xA4FD then .ligature .lisuTone false
  else if c.toNat = 0x10C03 then .ligature .orkhonI false
  else if CharClass.contains CharClass.flagLetter c then .flagLetter
  else if CharClass.contains CharClass.skinTone c then .skinTone
  else if CharClass.contains CharClass.picture c then .picture
  else .plain

/-- Whether a character is shown as a picture of two columns, but as text of one column before a
variation selector that asks for text. -/
def isTextualPicture (c : Char) : Bool :=
  CharClass.contains CharClass.variationBase c && CharClass.contains CharClass.picture c &&
    (c.toNat < 0x1F200 || 0x1F2FF < c.toNat)

/-- The columns that `c` adds in front of what follows it, and what it is to the character
before it. -/
def stepWidth (c : Char) (s : WidthContext) : Int × WidthContext :=
  if s.selector = some .picture && CharClass.contains CharClass.variationBase c then
    (if s.follower.isJoined then 0 else 2, ⟨none, .picture⟩)
  else if s.selector = some .text && isTextualPicture c then (1, ⟨none, .plain⟩)
  else
    let next := s.withoutSelector
    if c.toNat ≤ 0xA0 then (1, ⟨none, .plain⟩)
    else if c.toNat = 0xFE0F then
      (0, ⟨some .picture, if next.isLetter || next.isJoined then next else .plain⟩)
    else if c.toNat = 0xFE0E then (0, ⟨some .text, if next.isLetter then next else .plain⟩)
    else
      match next.merge? c with
      | some (columns, here) => (columns, ⟨none, here⟩)
      | none => (classWidth c, ⟨none, .ofChar c⟩)

/-- The columns a text within one line takes (`UnicodeWidthStr::width`). Columns are only taken away
from a letter that added them, so that the sum is never negative. -/
def displayWidth (text : List Char) : Nat :=
  (text.foldr (fun c (columns, next) ↦
    let (added, here) := stepWidth c next
    (columns + added, here)) ((0 : Int), ({} : WidthContext))).1.toNat

end ProseLang
