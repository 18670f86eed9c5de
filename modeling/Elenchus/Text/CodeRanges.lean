/-!
# Ranges of code points

A class of characters is written down as the ranges of its code points, both ends included.
-/

namespace Elenchus.Text

/-- Ranges of code points, each given by its first and its last member. -/
abbrev CodeRanges := List (Nat × Nat)

def CodeRanges.has (ranges : CodeRanges) (c : Char) : Bool :=
  ranges.any fun (first, last) => first ≤ c.toNat && c.toNat ≤ last

end Elenchus.Text
