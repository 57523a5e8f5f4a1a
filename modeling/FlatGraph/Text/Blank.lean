/-!
# White space

The characters with the Unicode property White_Space (25 of them, the same in every version since
6.3), and the trimming of texts by it.
-/

namespace FlatGraph.Text

/-- The code points with the property White_Space, as closed ranges, ascending and apart. -/
def blankRanges : List (Nat × Nat) :=
  [(0x09, 0x0D), (0x20, 0x20), (0x85, 0x85), (0xA0, 0xA0), (0x1680, 0x1680), (0x2000, 0x200A),
    (0x2028, 0x2029), (0x202F, 0x202F), (0x205F, 0x205F), (0x3000, 0x3000)]

/-- Whether the character is white space. -/
def isBlank (c : Char) : Bool := blankRanges.any fun r => r.1 ≤ c.toNat && c.toNat ≤ r.2

/-- The characters without the white space before them. -/
def trimStart (cs : List Char) : List Char := cs.dropWhile isBlank

/-- The characters without the white space after them. -/
def trimEnd (cs : List Char) : List Char := (trimStart cs.reverse).reverse

/-- The text without the white space around it. -/
def trim (s : String) : String := String.ofList (trimEnd (trimStart s.toList))

end FlatGraph.Text
