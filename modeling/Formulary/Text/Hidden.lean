import Formulary.Text.Blank

/-!
# Hidden characters

Characters that leave no mark of their own on a page: controls, format
characters, private-use characters, and every space but the ordinary one. They
are spelled out by number where a text is quoted. So are the code points that never
stand for a character. Those that stand for none yet are left out, since which ones
these are depends on the edition of the character set.
-/

namespace Formulary.Text

/-- Closed ranges of the code points that are spelled out, ascending and apart. -/
def hiddenRanges : List (Nat × Nat) :=
  [(0x00, 0x1F), (0x7F, 0xA0), (0xAD, 0xAD), (0x600, 0x605), (0x61C, 0x61C),
   (0x6DD, 0x6DD), (0x70F, 0x70F), (0x890, 0x891), (0x8E2, 0x8E2),
   (0x1680, 0x1680), (0x180E, 0x180E), (0x2000, 0x200F), (0x2028, 0x202F),
   (0x205F, 0x206F), (0x3000, 0x3000), (0xE000, 0xF8FF), (0xFDD0, 0xFDEF),
   (0xFEFF, 0xFEFF), (0xFFF9, 0xFFFB), (0xFFFE, 0xFFFF), (0x110BD, 0x110BD),
   (0x110CD, 0x110CD), (0x13430, 0x1343F), (0x1BCA0, 0x1BCA3),
   (0x1D173, 0x1D17A), (0x1FFFE, 0x1FFFF), (0x2FFFE, 0x2FFFF), (0x3FFFE, 0x3FFFF),
   (0x4FFFE, 0x4FFFF), (0x5FFFE, 0x5FFFF), (0x6FFFE, 0x6FFFF), (0x7FFFE, 0x7FFFF),
   (0x8FFFE, 0x8FFFF), (0x9FFFE, 0x9FFFF), (0xAFFFE, 0xAFFFF), (0xBFFFE, 0xBFFFF),
   (0xCFFFE, 0xCFFFF), (0xDFFFE, 0xDFFFF), (0xE0001, 0xE0001), (0xE0020, 0xE007F),
   (0xEFFFE, 0xEFFFF), (0xF0000, 0x10FFFF)]

def isHidden (c : Char) : Bool := inRanges hiddenRanges c.toNat

end Formulary.Text
