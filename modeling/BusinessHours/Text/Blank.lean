/-
Blank characters.

A character is blank if it has the property `White_Space` of Unicode.  There are twenty-five
of them: the ASCII controls from tab to carriage return and the space, two more in Latin-1,
and the spaces and separators of the blocks for Ogham, general punctuation and CJK.
-/
namespace BusinessHours

/-- Whether a character has the Unicode property `White_Space`. -/
def isBlank (c : Char) : Bool :=
  let n := c.toNat
  (0x09 ≤ n && n ≤ 0x0D) || n == 0x20 || n == 0x85 || n == 0xA0 || n == 0x1680 ||
    (0x2000 ≤ n && n ≤ 0x200A) || n == 0x2028 || n == 0x2029 || n == 0x202F ||
    n == 0x205F || n == 0x3000

end BusinessHours
