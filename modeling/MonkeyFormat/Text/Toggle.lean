set_option autoImplicit false

/-! # Toggle tables

A set of code points is stored as the increasing list of the places where membership changes: it
starts to hold at the first entry, stops at the second, and so on. A code point is a member iff
the number of entries at or below it is odd. The tables are those of Unicode 15.0. -/

namespace MonkeyFormat

/-- The number of entries of `table` in `[lo, hi)` that are at most `n`, added to `lo`, for a
table that is increasing there; halves the interval in each round. -/
def Text.countUpTo (table : Array Nat) (n lo hi : Nat) : Nat :=
  if lo < hi then
    let mid := (lo + hi) / 2
    if table.getD mid 0 ≤ n then Text.countUpTo table n (mid + 1) hi
    else Text.countUpTo table n lo mid
  else lo
termination_by hi - lo

/-- Does the toggle table hold at the code point `n`? -/
def Text.holdsAt (table : Array Nat) (n : Nat) : Bool :=
  Text.countUpTo table n 0 table.size % 2 == 1

end MonkeyFormat
