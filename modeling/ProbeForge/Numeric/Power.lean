/-!
# Powers of two and of ten

The bases of floats and of decimals.
-/

namespace ProbeForge.Numeric

def twoTo (k : Nat) : Nat := Nat.pow 2 k

def tenTo (k : Nat) : Nat := Nat.pow 10 k

end ProbeForge.Numeric
