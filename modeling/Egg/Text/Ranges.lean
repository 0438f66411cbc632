/-!
# Sets of characters given by ranges

The classes of characters that dumps depend on are too irregular for a formula. They are given as
lists of ranges of code points, ascending and disjoint, both ends of a range included.
-/

namespace Egg.Text

/-- A set of characters, as ascending and disjoint ranges of code points. -/
abbrev Ranges := List (Nat × Nat)

/-- Whether a character lies in one of the ranges. -/
def Ranges.contains (ranges : Ranges) (c : Char) : Bool :=
  ranges.any fun (first, last) => first ≤ c.toNat && c.toNat ≤ last

end Egg.Text
