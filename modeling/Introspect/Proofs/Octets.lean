import Introspect.Octets
import Mathlib.Algebra.Group.Nat.Defs
/-!
# Numbers and their bytes

A number is known by its bytes up to what as many bytes can hold, and bytes are known by the number they make and how
many they are.
-/
namespace Introspect
namespace Octets

theorem decode_encode (width n : Nat) : decode (encode width n) = n % 256 ^ width := by
  induction width generalizing n with
  | zero => simp [encode, decode, Nat.mod_one]
  | succ width ih =>
    have h : (UInt8.ofNat (n % 256)).toNat = n % 256 := by simp
    rw [encode, decode, ih, h, Nat.pow_succ', Nat.mod_mul]

theorem decode_lt : ∀ bs : List UInt8, decode bs < 256 ^ bs.length
  | [] => by decide
  | b :: bs => by
    have h1 := decode_lt bs
    have h2 := b.toNat_lt
    rw [decode, List.length_cons, Nat.pow_succ]
    omega

theorem encode_decode : ∀ bs : List UInt8, encode bs.length (decode bs) = bs
  | [] => rfl
  | b :: bs => by
    have h1 := b.toNat_lt
    have h2 : (b.toNat + 256 * decode bs) % 256 = b.toNat := by omega
    have h3 : (b.toNat + 256 * decode bs) / 256 = decode bs := by omega
    rw [decode, List.length_cons, encode, h2, h3, encode_decode bs, UInt8.ofNat_toNat]

theorem decode_encode_of_lt {width n : Nat} (h : n < 256 ^ width) : decode (encode width n) = n := by
  rw [decode_encode, Nat.mod_eq_of_lt h]

end Octets
end Introspect
