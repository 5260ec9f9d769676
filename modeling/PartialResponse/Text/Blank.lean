/-!
# PartialResponse.Text.Blank — white space

The characters with the white-space property, and the texts made of them alone.
-/

namespace PartialResponse.Text

/-- The white-space characters. -/
def isBlank (c : Char) : Bool :=
  let n := c.toNat
  (0x9 ≤ n && n ≤ 0xD) || n == 0x20 || n == 0x85 || n == 0xA0 || n == 0x1680 ||
    (0x2000 ≤ n && n ≤ 0x200A) || n == 0x2028 || n == 0x2029 || n == 0x202F ||
    n == 0x205F || n == 0x3000

/-- A text that holds nothing but white space. -/
def isBlankText (cs : List Char) : Bool :=
  cs.all isBlank

end PartialResponse.Text
