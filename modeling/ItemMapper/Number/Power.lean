/-!
# Powers

The powers by which numbers are scaled and bounded.
-/

namespace ItemMapper

abbrev twoPow (n : Nat) : Nat := Nat.pow 2 n

abbrev fivePow (n : Nat) : Nat := Nat.pow 5 n

abbrev tenPow (n : Nat) : Nat := Nat.pow 10 n

end ItemMapper
