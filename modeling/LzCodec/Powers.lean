/-!
# Powers

A power of natural numbers is `Nat.pow`, also beside a library that has powers in every monoid.
-/

namespace LzCodec

instance (priority := 2000) natPow : Pow Nat Nat := ⟨Nat.pow⟩

end LzCodec
