/-!
# White space at the ends of a text, and ASCII letter case

Values of hints are compared without the white space around them and without regard to the case of
ASCII letters. White space is what the Unicode property of that name holds.
-/

namespace Injector.Text

/-- The characters of the Unicode property `White_Space`. -/
def isWhiteSpace (c : Char) : Bool :=
  let n := c.toNat
  (0x09 ≤ n && n ≤ 0x0D) || n == 0x20 || n == 0x85 || n == 0xA0 || n == 0x1680 ||
    (0x2000 ≤ n && n ≤ 0x200A) || n == 0x2028 || n == 0x2029 || n == 0x202F || n == 0x205F ||
    n == 0x3000

/-- Drops white space at both ends. -/
def trimList (cs : List Char) : List Char :=
  ((cs.dropWhile isWhiteSpace).reverse.dropWhile isWhiteSpace).reverse

/-- Drops white space at both ends. -/
def trim (s : String) : String := String.ofList (trimList s.toList)

/-- Writes ASCII capitals small and keeps every other character. -/
def lower (s : String) : String := String.ofList (s.toList.map Char.toLower)

end Injector.Text
