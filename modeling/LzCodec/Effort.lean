/-!
# Search effort

How many earlier positions each search examines. A count of zero turns that search off.
-/

namespace LzCodec

structure Effort where
  /-- Positions examined for the match at the cursor. -/
  here : Nat
  /-- Positions examined for a longer match one byte ahead. -/
  oneAhead : Nat
  /-- Positions examined for a longer match two bytes ahead. -/
  twoAhead : Nat
  deriving DecidableEq, Repr

namespace Effort

/-- The preset of each compression level, level 0 first. -/
def presets : Array Effort := #[⟨3, 2, 2⟩, ⟨8, 6, 5⟩, ⟨21, 17, 13⟩, ⟨55, 44, 34⟩]

def ofLevel? (level : Nat) : Option Effort := presets[level]?

def maxLevel : Nat := 3

def defaultLevel : Nat := 3

instance : Inhabited Effort := ⟨⟨55, 44, 34⟩⟩

theorem ofLevel?_defaultLevel : ofLevel? defaultLevel = some default := rfl

theorem ofLevel?_eq_none_iff (level : Nat) : ofLevel? level = none ↔ maxLevel < level := by
  simp [ofLevel?, presets, maxLevel, Nat.succ_le_iff]

end Effort

end LzCodec
