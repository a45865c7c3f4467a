import Introspect.Proofs.Address
import Mathlib.Algebra.BigOperators.Group.Multiset.Basic
import Mathlib.Order.Bounds.Basic
/-!
# Rounding up

An address that is rounded up to a power of two becomes the least multiple that is not below it (`alignUp_eq_ok_iff`).
The alignment is added before the low bits are taken off, and the sum must be a word; so of the addresses that have a
multiple at or above them, one is refused for each alignment, the last multiple of all (`rounds_up_but_last`).
-/
namespace Introspect

/-! ## Bits -/

theorem and_high_bits (x k : Nat) (hx : x < 2 ^ 64) (hk : k ≤ 64) : x &&& (2 ^ 64 - 2 ^ k) = x / 2 ^ k * 2 ^ k := by
  have hm : 2 ^ 64 - 2 ^ k = (2 ^ (64 - k) - 1) <<< k := by
    rw [Nat.shiftLeft_eq, Nat.sub_mul, ← Nat.pow_add, Nat.sub_add_cancel hk, Nat.one_mul]
  have hd : x / 2 ^ k * 2 ^ k = (x >>> k) <<< k := by rw [Nat.shiftLeft_eq, Nat.shiftRight_eq_div_pow]
  rw [hm, hd]
  apply Nat.eq_of_testBit_eq
  intro i
  simp only [Nat.testBit_and, Nat.testBit_shiftLeft, Nat.testBit_two_pow_sub_one, Nat.testBit_shiftRight]
  by_cases hi : k ≤ i
  · by_cases h64 : i < 64
    · have h1 : i - k < 64 - k := by omega
      have h2 : k + (i - k) = i := by omega
      simp [hi, h1, h2]
    · have h0 : x.testBit i = false :=
        Nat.testBit_lt_two_pow (Nat.lt_of_lt_of_le hx (Nat.pow_le_pow_right (by decide) (by omega)))
      have h2 : k + (i - k) = i := by omega
      simp [h0, h2]
  · simp [hi]

namespace Address

variable {a r : Address} {align : UInt64} {k : Nat}

theorem isPowerOfTwo_iff : isPowerOfTwo align = true ↔ align.toNat.isPowerOfTwo := by
  unfold isPowerOfTwo
  rw [Bool.and_eq_true, bne_iff_ne, beq_iff_eq]
  by_cases hzero : align = 0
  · subst hzero
    simp only [ne_eq, not_true_eq_false, false_and, false_iff]
    rintro ⟨k, hk⟩
    exact absurd hk (Nat.ne_of_lt (Nat.two_pow_pos k))
  · have hne : align.toNat ≠ 0 := fun h => hzero (UInt64.toNat_inj.1 h)
    have hone : (1 : UInt64) ≤ align := UInt64.le_iff_toNat_le.2 (Nat.one_le_iff_ne_zero.2 hne)
    rw [and_iff_right hzero, ← UInt64.toNat_inj, UInt64.toNat_and, UInt64.toNat_sub_of_le _ _ hone]
    exact Nat.and_sub_one_eq_zero_iff_isPowerOfTwo hne

theorem exponent_lt (hk : align.toNat = 2 ^ k) : k < 64 :=
  (Nat.pow_lt_pow_iff_right (by decide)).1 (hk ▸ align.toNat_lt)

theorem toNat_high_bits (hk : align.toNat = 2 ^ k) : (~~~(align - 1)).toNat = 2 ^ 64 - 2 ^ k := by
  have hone : (1 : UInt64) ≤ align := UInt64.le_iff_toNat_le.2 (hk ▸ Nat.two_pow_pos k)
  have hsize : UInt64.size = 2 ^ 64 := rfl
  have hpos := Nat.two_pow_pos k
  have hunit : (1 : UInt64).toNat = 1 := rfl
  rw [UInt64.toNat_not, UInt64.toNat_sub_of_le _ _ hone, hk, hsize, hunit]
  omega

/-! ## Rounding -/

theorem roundUp_lt {n step : Nat} (hstep : 0 < step) (h : n + step < 2 ^ 64) : (n + (step - 1)) / step * step < 2 ^ 64 :=
  Nat.lt_of_le_of_lt (Nat.div_mul_le_self _ _) (by omega)

theorem alignUp_of_lt (hk : align.toNat = 2 ^ k) (h : a.toNat + 2 ^ k < 2 ^ 64) :
    a.alignUp align = .ok (.ofNat ((a.toNat + (2 ^ k - 1)) / 2 ^ k * 2 ^ k)) := by
  have hpower : isPowerOfTwo align = true := isPowerOfTwo_iff.2 ⟨k, hk⟩
  have hroom : ¬ Text.wordLimit ≤ a.toNat + align.toNat := by rw [hk]; exact Nat.not_le.2 h
  have hpos := Nat.two_pow_pos k
  have hsum : (a.word + align - 1).toNat = a.toNat + (2 ^ k - 1) := by
    have h1 : (a.word + align).toNat = a.toNat + 2 ^ k := by
      rw [UInt64.toNat_add, hk]
      exact Nat.mod_eq_of_lt h
    have hone : (1 : UInt64) ≤ a.word + align := by
      rw [UInt64.le_iff_toNat_le, h1]
      exact Nat.le_trans hpos (Nat.le_add_left _ _)
    rw [UInt64.toNat_sub_of_le _ _ hone, h1]
    exact Nat.add_sub_assoc hpos _
  simp only [alignUp, hpower, Bool.not_true, Bool.false_eq_true, if_false, if_neg hroom]
  refine congrArg _ (Address.ext ?_)
  change ((a.word + align - 1) &&& ~~~(align - 1)).toNat = _
  rw [UInt64.toNat_and, toNat_high_bits hk, hsum, and_high_bits _ k (by omega) (Nat.le_of_lt (exponent_lt hk)),
    toNat_ofNat, Nat.mod_eq_of_lt (roundUp_lt hpos h)]

theorem alignUp_of_le (hk : align.toNat = 2 ^ k) (h : 2 ^ 64 ≤ a.toNat + 2 ^ k) :
    a.alignUp align = .error .additionOverflow := by
  have hpower : isPowerOfTwo align = true := isPowerOfTwo_iff.2 ⟨k, hk⟩
  have hroom : Text.wordLimit ≤ a.toNat + align.toNat := by rw [hk]; exact h
  simp only [alignUp, hpower, Bool.not_true, Bool.false_eq_true, if_false, if_pos hroom]

theorem alignUp_of_not_isPowerOfTwo (h : ¬ align.toNat.isPowerOfTwo) :
    a.alignUp align = .error .alignmentNotPowerOfTwo := by
  have hpower : isPowerOfTwo align = false := Bool.eq_false_iff.2 fun hp => h (isPowerOfTwo_iff.1 hp)
  simp only [alignUp, hpower, Bool.not_false, if_true]

/-! ## The least multiple -/

/-- The multiples of `step` that are not below `n`. -/
def multiplesFrom (n step : Nat) : Set Nat := {m | n ≤ m ∧ step ∣ m}

theorem isLeast_roundUp (n : Nat) {step : Nat} (hstep : 0 < step) :
    IsLeast (multiplesFrom n step) ((n + (step - 1)) / step * step) := by
  have hlow : n ≤ (n + (step - 1)) / step * step := by
    have hmod := Nat.mod_lt (n + (step - 1)) hstep
    have hdiv := Nat.div_add_mod' (n + (step - 1)) step
    omega
  refine ⟨⟨hlow, Nat.dvd_mul_left step _⟩, ?_⟩
  rintro m ⟨hm, c, rfl⟩
  -- whatever lies less than a step above `n` is rounded down to a multiple that is not above `m`
  have hquotient : (n + (step - 1)) / step ≤ c := by
    rw [← Nat.lt_succ_iff, Nat.div_lt_iff_lt_mul hstep, Nat.succ_mul, Nat.mul_comm c step]
    omega
  rw [Nat.mul_comm step c]
  exact Nat.mul_le_mul_right step hquotient

/-- **Rounding up gives the least multiple that is not below**, and nothing else. -/
theorem alignUp_eq_ok_iff : a.alignUp align = .ok r ↔ align.toNat.isPowerOfTwo ∧ a.toNat + align.toNat < 2 ^ 64 ∧
    IsLeast (multiplesFrom a.toNat align.toNat) r.toNat := by
  by_cases hpower : align.toNat.isPowerOfTwo
  · obtain ⟨k, hk⟩ := hpower
    have hleast := isLeast_roundUp a.toNat (Nat.two_pow_pos k)
    rw [← hk] at hleast
    by_cases hroom : a.toNat + 2 ^ k < 2 ^ 64
    · have hnat : (ofNat ((a.toNat + (2 ^ k - 1)) / 2 ^ k * 2 ^ k)).toNat = (a.toNat + (2 ^ k - 1)) / 2 ^ k * 2 ^ k :=
        (toNat_ofNat _).trans (Nat.mod_eq_of_lt (roundUp_lt (Nat.two_pow_pos k) hroom))
      rw [alignUp_of_lt hk hroom, Except.ok.injEq]
      constructor
      · rintro rfl
        rw [hnat, hk]
        rw [hk] at hleast
        exact ⟨⟨k, rfl⟩, hroom, hleast⟩
      · rintro ⟨-, -, hr⟩
        exact Address.ext (hnat.trans ((hk ▸ hleast).unique (hk ▸ hr)))
    · rw [alignUp_of_le hk (Nat.le_of_not_lt hroom), hk]
      simp only [reduceCtorEq, hroom, false_and, and_false]
  · rw [alignUp_of_not_isPowerOfTwo hpower]
    simp only [reduceCtorEq, hpower, false_and]

/-- Below the top, a multiple of a power of two has a whole step above it. -/
theorem add_le_of_multiple {m : Nat} (hpower : align.toNat.isPowerOfTwo) (hm : align.toNat ∣ m) (hlt : m < 2 ^ 64) :
    m + align.toNat ≤ 2 ^ 64 := by
  obtain ⟨k, hk⟩ := hpower
  have htop : align.toNat ∣ 2 ^ 64 := hk ▸ Nat.pow_dvd_pow 2 (Nat.le_of_lt (exponent_lt hk))
  have hgap : align.toNat ≤ 2 ^ 64 - m := Nat.le_of_dvd (by omega) (Nat.dvd_sub htop hm)
  omega

/-- **An address is rounded up wherever it can be, except at the last multiple of all.**  That one is a multiple itself,
and rounding it up overflows. -/
theorem rounds_up_but_last (a : Address) (align : UInt64) (hpower : align.toNat.isPowerOfTwo)
    (hroom : ∃ m ∈ multiplesFrom a.toNat align.toNat, m < 2 ^ 64) :
    (a.toNat + align.toNat ≠ 2 ^ 64 → ∃ r, a.alignUp align = .ok r ∧
      IsLeast (multiplesFrom a.toNat align.toNat) r.toNat ∧ (align.toNat ∣ a.toNat → r = a)) ∧
    (a.toNat + align.toNat = 2 ^ 64 →
      IsLeast (multiplesFrom a.toNat align.toNat) a.toNat ∧ a.alignUp align = .error .additionOverflow) := by
  obtain ⟨m, ⟨ham, hm⟩, hlt⟩ := hroom
  have hbelow : a.toNat + align.toNat ≤ 2 ^ 64 :=
    Nat.le_trans (Nat.add_le_add_right ham _) (add_le_of_multiple hpower hm hlt)
  obtain ⟨k, hk⟩ := hpower
  have hself : align.toNat ∣ a.toNat → IsLeast (multiplesFrom a.toNat align.toNat) a.toNat :=
    fun h => ⟨⟨Nat.le_refl _, h⟩, fun _ hn => hn.1⟩
  constructor
  · intro hne
    have hsum := alignUp_of_lt hk (hk ▸ Nat.lt_of_le_of_ne hbelow hne)
    obtain ⟨-, -, hleast⟩ := alignUp_eq_ok_iff.1 hsum
    exact ⟨_, hsum, hleast, fun h => Address.ext (hleast.unique (hself h))⟩
  · intro htop
    have hdvd : align.toNat ∣ a.toNat := by
      have h64 : align.toNat ∣ 2 ^ 64 := hk ▸ Nat.pow_dvd_pow 2 (Nat.le_of_lt (exponent_lt hk))
      exact (Nat.dvd_add_left (Nat.dvd_refl _)).1 (htop ▸ h64)
    exact ⟨hself hdvd, alignUp_of_le hk (hk ▸ htop.ge)⟩

/-- Seventeen below the top an address is still rounded up to sixteen; sixteen below, it is not. -/
theorem rounds_up_but_last_sixteen :
    (∃ r, (Address.mk 0xFFFFFFFFFFFFFFEF).alignUp 16 = .ok r ∧ r.toNat = 0xFFFFFFFFFFFFFFF0) ∧
      (Address.mk 0xFFFFFFFFFFFFFFF0).alignUp 16 = .error .additionOverflow := by
  have hpower : (16 : UInt64).toNat.isPowerOfTwo := ⟨4, rfl⟩
  have hlast : (16 : UInt64).toNat ∣ 0xFFFFFFFFFFFFFFF0 := by decide
  have hbelow := rounds_up_but_last ⟨0xFFFFFFFFFFFFFFEF⟩ 16 hpower
    ⟨0xFFFFFFFFFFFFFFF0, ⟨by decide, hlast⟩, by decide⟩
  have htop := rounds_up_but_last ⟨0xFFFFFFFFFFFFFFF0⟩ 16 hpower
    ⟨0xFFFFFFFFFFFFFFF0, ⟨by decide, hlast⟩, by decide⟩
  obtain ⟨r, hr, hleast, -⟩ := hbelow.1 (by decide)
  refine ⟨⟨r, hr, hleast.unique ⟨⟨by decide, hlast⟩, ?_⟩⟩, (htop.2 (by decide)).2⟩
  rintro m ⟨hm, c, rfl⟩
  have hlow : (Address.mk 0xFFFFFFFFFFFFFFEF).toNat = 0xFFFFFFFFFFFFFFEF := by decide
  have hstep : (16 : UInt64).toNat = 16 := by decide
  rw [hlow] at hm
  rw [hstep] at hm ⊢
  omega

/-- The last multiple of sixteen is one, and is not rounded up to itself. -/
theorem last_multiple_refused : (16 : UInt64).toNat.isPowerOfTwo ∧
    IsLeast (multiplesFrom (Address.mk 0xFFFFFFFFFFFFFFF0).toNat (16 : UInt64).toNat) 0xFFFFFFFFFFFFFFF0 ∧
    ¬ ∃ r, (Address.mk 0xFFFFFFFFFFFFFFF0).alignUp 16 = .ok r := by
  refine ⟨⟨4, rfl⟩, ⟨⟨by decide, by decide⟩, fun m hm => hm.1⟩, ?_⟩
  rintro ⟨r, hr⟩
  exact absurd (alignUp_eq_ok_iff.1 hr).2.1 (by decide)

end Address
end Introspect
