import Inlay.Text.Utf8

/-! Blank characters have the property `White_Space`. Trimming takes them off both ends. -/

namespace Inlay
namespace Text

def isBlank (c : Char) : Bool :=
  (0x9 ≤ c.toNat && c.toNat ≤ 0xD) || c.toNat == 0x20 || c.toNat == 0x85 || c.toNat == 0xA0
    || c.toNat == 0x1680 || (0x2000 ≤ c.toNat && c.toNat ≤ 0x200A) || c.toNat == 0x2028
    || c.toNat == 0x2029 || c.toNat == 0x202F || c.toNat == 0x205F || c.toNat == 0x3000

def trimStartChars (cs : List Char) : List Char := cs.dropWhile isBlank

def trimEndChars (cs : List Char) : List Char := (cs.reverse.dropWhile isBlank).reverse

def trimChars (cs : List Char) : List Char := trimEndChars (trimStartChars cs)

def isBlankText (t : Text) : Bool := t.charsLossy.all isBlank

/-- How many bytes of blank characters the text starts with. -/
def leadingBlank (t : Text) : Nat := (ofChars (t.charsLossy.takeWhile isBlank)).length

/-- Blanks of the ASCII range: space, tab, line feed, form feed and carriage return. -/
def isAsciiBlank (b : UInt8) : Bool :=
  b == 0x20 || b == 0x9 || b == 0xA || b == 0xC || b == 0xD

end Text
end Inlay
