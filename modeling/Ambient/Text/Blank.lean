/-!
Blank characters: the code points that trimming removes and that separate words. A line break is
blank; the zero-width space and the byte order mark are not.
-/

namespace Ambient

/-- Inclusive ranges of the blank code points, ascending. -/
def blankRanges : List (Nat × Nat) :=
  [(0x09, 0x0D), (0x1C, 0x20), (0x85, 0x85), (0xA0, 0xA0), (0x1680, 0x1680), (0x2000, 0x200A),
    (0x2028, 0x2029), (0x202F, 0x202F), (0x205F, 0x205F), (0x3000, 0x3000)]

def isBlank (c : Char) : Bool :=
  blankRanges.any fun (low, high) => low ≤ c.toNat && c.toNat ≤ high

end Ambient
