import Introspect.Text.Digits
/-!
# Addresses

An address is a 64-bit word of its own type, so that it is never mistaken for a size or an offset.  Zero is the null
reference: a field that holds it points at nothing.  `+` and `-` with an offset wrap; the checked forms refuse.
-/
namespace Introspect

structure Address where
  word : UInt64
  deriving DecidableEq, Inhabited, Repr

namespace Address

def null : Address := ⟨0⟩

def ofNat (n : Nat) : Address := ⟨UInt64.ofNat n⟩

def toNat (a : Address) : Nat := a.word.toNat

def isNull (a : Address) : Bool := a.word == 0

instance : LE Address := ⟨fun a b => a.toNat ≤ b.toNat⟩
instance : LT Address := ⟨fun a b => a.toNat < b.toNat⟩
instance (a b : Address) : Decidable (a ≤ b) := inferInstanceAs (Decidable (a.toNat ≤ b.toNat))
instance (a b : Address) : Decidable (a < b) := inferInstanceAs (Decidable (a.toNat < b.toNat))
instance : Ord Address := ⟨fun a b => compare a.toNat b.toNat⟩

instance : HAdd Address Nat Address := ⟨fun a offset => ofNat (a.toNat + offset)⟩
instance : HSub Address UInt64 Address := ⟨fun a offset => ⟨a.word - offset⟩⟩

def checkedAdd (a : Address) (offset : UInt64) : Option Address :=
  if a.toNat + offset.toNat < Text.wordLimit then some ⟨a.word + offset⟩ else none

def checkedSub (a : Address) (offset : UInt64) : Option Address :=
  if offset ≤ a.word then some ⟨a.word - offset⟩ else none

def saturatingAdd (a : Address) (offset : UInt64) : Address :=
  (a.checkedAdd offset).getD ⟨UInt64.ofNat (Text.wordLimit - 1)⟩

/-- The distance from `base` up to `a`, unless `a` lies below it. -/
def offsetFrom (a base : Address) : Option Nat :=
  if base ≤ a then some (a.toNat - base.toNat) else none

def display (a : Address) : String := "0x" ++ Text.hexadecimal 16 a.toNat

@[ext] theorem ext {a b : Address} (h : a.toNat = b.toNat) : a = b := by
  cases a; cases b; exact congrArg mk (UInt64.toNat_inj.1 h)

end Address
end Introspect
