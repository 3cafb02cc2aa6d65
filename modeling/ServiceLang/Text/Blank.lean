/-!
White space as Unicode defines it: twenty-five characters.  Trimming and splitting
of property values and shell text go by it, while tokens are separated by the four
blanks of the language only.
-/

namespace ServiceLang.Text

/-- White space as Unicode defines it. -/
def isWhiteSpace (c : Char) : Bool :=
  let n := c.toNat
  (0x9 ≤ n && n ≤ 0xd) || n = 0x20 || n = 0x85 || n = 0xa0 || n = 0x1680 ||
    (0x2000 ≤ n && n ≤ 0x200a) || n = 0x2028 || n = 0x2029 || n = 0x202f || n = 0x205f || n = 0x3000

/-- The text without the white space at its end. -/
def trimEnd (cs : List Char) : List Char := (cs.reverse.dropWhile isWhiteSpace).reverse

/-- The text without the white space at its ends. -/
def trim (cs : List Char) : List Char := trimEnd (cs.dropWhile isWhiteSpace)

/-- The parts of the text between white space. -/
def words (cs : List Char) : List (List Char) :=
  (cs.splitBy fun a b => isWhiteSpace a == isWhiteSpace b).filter fun part =>
    part.head?.any fun c => !isWhiteSpace c

end ServiceLang.Text
