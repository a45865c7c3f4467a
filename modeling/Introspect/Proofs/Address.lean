import Introspect.Address.Align
import Mathlib.Algebra.Group.Nat.Defs
/-!
# Addresses as numbers

An address is known by its number, which lies below 2^64; a sum is taken modulo 2^64, and is the plain sum where that
is an address.
-/
namespace Introspect
namespace Address

theorem toNat_lt (a : Address) : a.toNat < 2 ^ 64 := a.word.toNat_lt

@[simp] theorem toNat_ofNat (n : Nat) : (ofNat n).toNat = n % 2 ^ 64 := UInt64.toNat_ofNat' ..

theorem toNat_add (a : Address) (offset : Nat) : (a + offset).toNat = (a.toNat + offset) % 2 ^ 64 :=
  toNat_ofNat _

theorem toNat_add_of_lt {a : Address} {k : Nat} (h : a.toNat + k < 2 ^ 64) : (a + k).toNat = a.toNat + k := by
  rw [toNat_add, Nat.mod_eq_of_lt h]

@[simp] theorem add_zero (a : Address) : a + (0 : Nat) = a :=
  ext (by rw [toNat_add, Nat.add_zero, Nat.mod_eq_of_lt a.toNat_lt])

theorem add_add (a : Address) (m n : Nat) : a + m + n = a + (m + n) :=
  ext (by rw [toNat_add, toNat_add, toNat_add, Nat.mod_add_mod, Nat.add_assoc])

theorem isNull_iff {a : Address} : a.isNull = true ↔ a = .null := by
  cases a
  simp [isNull, null]

theorem le_iff {a b : Address} : a ≤ b ↔ a.toNat ≤ b.toNat := Iff.rfl

end Address
end Introspect
