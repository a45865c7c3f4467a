import Introspect.Proofs.Text
/-!
# Numbers to base sixteen

A number can be written to base sixteen in many ways: its letters in either case, and zeros in front.  A reader accepts
each of them, and one `+` before them, as long as the number fits a word; and it accepts nothing else
(`readUnsigned?_eq_some_iff`).
-/
namespace Introspect
namespace Text

/-- Digits that denote a number to base sixteen: its own, in either case, behind any number of zeros. -/
def Hexadecimal (n : Nat) (cs : List Char) : Prop :=
  ∃ (zeros : Nat) (ds : List Char), cs = List.replicate zeros '0' ++ ds ∧ ds.map Char.toLower = Nat.toDigits 16 n

/-- A numeral for a word: its digits, and perhaps one `+` before them. -/
def Numeral (n : Nat) (cs : List Char) : Prop :=
  n < wordLimit ∧ ∃ ds, Hexadecimal n ds ∧ (cs = ds ∨ cs = '+' :: ds)

variable {c : Char} {cs ds : List Char} {n d acc : Nat}

/-! ## One digit -/

theorem toNat_digitChar : ∀ d < 16, (Nat.digitChar d).toNat = if d < 10 then d + 48 else d + 87 := by decide

theorem toNat_toLower (c : Char) :
    c.toLower.toNat = if 65 ≤ c.toNat ∧ c.toNat ≤ 90 then c.toNat + 32 else c.toNat := by
  by_cases h : 65 ≤ c.toNat ∧ c.toNat ≤ 90
  · have hupper : c.val ≥ 'A'.val ∧ c.val ≤ 'Z'.val := h
    have hshift : ('a'.val - 'A'.val).toNat = 32 := rfl
    have hlower : c.toLower.toNat = (c.val + ('a'.val - 'A'.val)).toNat := congrArg Char.toNat (dif_pos hupper)
    rw [if_pos h, hlower, UInt32.toNat_add, hshift]
    exact Nat.mod_eq_of_lt (Nat.lt_of_le_of_lt (Nat.add_le_add_right h.2 32) (by decide))
  · have hupper : ¬ (c.val ≥ 'A'.val ∧ c.val ≤ 'Z'.val) := h
    rw [if_neg h]
    exact congrArg Char.toNat (dif_neg hupper)

/-- **A digit is read in either case.** -/
theorem digitValue?_eq_some_iff : digitValue? 16 c = some d ↔ d < 16 ∧ c.toLower = Nat.digitChar d := by
  have hle : ∀ a b : Char, a ≤ b ↔ a.toNat ≤ b.toNat := fun _ _ => Iff.rfl
  unfold digitValue?
  simp only [hle, Option.filter_eq_some_iff, decide_eq_true_eq]
  rw [and_comm]
  refine and_congr_right fun hd => ?_
  -- both sides say in which of three ranges the character lies, and where in it
  rw [← Char.toNat_inj, toNat_toLower, toNat_digitChar d hd]
  have h0 : '0'.toNat = 48 := rfl
  have h9 : '9'.toNat = 57 := rfl
  have ha : 'a'.toNat = 97 := rfl
  have hf : 'f'.toNat = 102 := rfl
  have hA : 'A'.toNat = 65 := rfl
  have hF : 'F'.toNat = 70 := rfl
  rw [h0, h9, ha, hf, hA, hF]
  generalize c.toNat = n
  split
  · rw [Option.some_inj]; split <;> split <;> omega
  split
  · rw [Option.some_inj]; split <;> split <;> omega
  split
  · rw [Option.some_inj]; split <;> split <;> omega
  · simp only [reduceCtorEq, false_iff]; split <;> split <;> omega

/-- What is read as a digit lies between `0` and `f`. -/
theorem toNat_of_digitValue? (h : digitValue? 16 c = some d) :
    48 ≤ c.toNat ∧ c.toNat ≤ 57 ∨ 65 ≤ c.toNat ∧ c.toNat ≤ 70 ∨ 97 ≤ c.toNat ∧ c.toNat ≤ 102 := by
  obtain ⟨hd, hc⟩ := digitValue?_eq_some_iff.1 h
  have hnat := congrArg Char.toNat hc
  rw [toNat_toLower, toNat_digitChar d hd] at hnat
  split at hnat <;> split at hnat <;> omega

theorem eq_zero_of_toLower (h : c.toLower = '0') : c = '0' := by
  have hnat := congrArg Char.toNat h
  have h0 : '0'.toNat = 48 := rfl
  rw [toNat_toLower, h0] at hnat
  exact Char.toNat_inj.1 (by rw [h0]; split at hnat <;> omega)

/-! ## A run of digits -/

theorem digitsValue?_cons {m : Nat} : digitsValue? 16 acc (c :: cs) = some m ↔
    ∃ d, digitValue? 16 c = some d ∧ digitsValue? 16 (acc * 16 + d) cs = some m := by
  rw [digitsValue?, Option.bind_eq_some_iff]

theorem digitsValue?_append (cs ds : List Char) (acc : Nat) :
    digitsValue? 16 acc (cs ++ ds) = (digitsValue? 16 acc cs).bind fun m => digitsValue? 16 m ds := by
  induction cs generalizing acc with
  | nil => rfl
  | cons c cs ih =>
    rw [List.cons_append, digitsValue?, digitsValue?, Option.bind_assoc]
    exact Option.bind_congr fun d _ => ih _

theorem forall_digit_of_digitsValue? {m : Nat} (h : digitsValue? 16 acc cs = some m) :
    ∀ c ∈ cs, ∃ d, digitValue? 16 c = some d := by
  induction cs generalizing acc with
  | nil => exact fun c hc => (List.not_mem_nil hc).elim
  | cons c cs ih =>
    obtain ⟨d, hd, h⟩ := digitsValue?_cons.1 h
    exact List.forall_mem_cons.2 ⟨⟨d, hd⟩, ih h⟩

/-- Behind a positive number, digits are the digits of what they make of it. -/
theorem toDigits_of_digitsValue? (hacc : 0 < acc) (h : digitsValue? 16 acc cs = some n) :
    Nat.toDigits 16 n = Nat.toDigits 16 acc ++ cs.map Char.toLower := by
  induction cs generalizing acc with
  | nil => rw [Option.some.inj h, List.map_nil, List.append_nil]
  | cons c cs ih =>
    obtain ⟨d, hd, h⟩ := digitsValue?_cons.1 h
    obtain ⟨hlt, hc⟩ := digitValue?_eq_some_iff.1 hd
    have hdigits : Nat.toDigits 16 (acc * 16 + d) = Nat.toDigits 16 acc ++ [c.toLower] := by
      rw [Nat.mul_comm, ← Nat.toDigits_append_toDigits (by decide) hacc hlt, Nat.toDigits_of_lt_base hlt, hc]
    rw [ih (by omega) h, hdigits, List.append_assoc, List.map_cons, List.singleton_append]

/-- Digits that are read denote the number that is read. -/
theorem hexadecimal_of_digitsValue? (hne : cs ≠ []) (h : digitsValue? 16 0 cs = some n) : Hexadecimal n cs := by
  induction cs with
  | nil => exact absurd rfl hne
  | cons c cs ih =>
    obtain ⟨d, hd, h⟩ := digitsValue?_cons.1 h
    obtain ⟨hlt, hc⟩ := digitValue?_eq_some_iff.1 hd
    rw [Nat.zero_mul, Nat.zero_add] at h
    rcases Nat.eq_zero_or_pos d with rfl | hpos
    · obtain rfl := eq_zero_of_toLower hc
      by_cases hcs : cs = []
      · subst hcs
        obtain rfl := Option.some.inj h
        exact ⟨0, ['0'], rfl, rfl⟩
      · obtain ⟨zeros, ds, rfl, hds⟩ := ih hcs h
        exact ⟨zeros + 1, ds, rfl, hds⟩
    · refine ⟨0, c :: cs, rfl, ?_⟩
      rw [toDigits_of_digitsValue? hpos h, Nat.toDigits_of_lt_base hlt, List.map_cons, hc]
      rfl

theorem digitsValue?_of_toDigits (h : ds.map Char.toLower = Nat.toDigits 16 n) : digitsValue? 16 0 ds = some n := by
  induction n using Nat.strongRecOn generalizing ds with
  | ind n ih =>
    by_cases hlt : n < 16
    · rw [Nat.toDigits_of_lt_base hlt] at h
      obtain ⟨c, rfl, hc⟩ := List.map_eq_singleton_iff.1 h
      refine digitsValue?_cons.2 ⟨n, digitValue?_eq_some_iff.2 ⟨hlt, hc⟩, ?_⟩
      rw [Nat.zero_mul, Nat.zero_add]
      rfl
    · rw [Nat.toDigits_of_base_le (by decide) (Nat.le_of_not_lt hlt)] at h
      obtain ⟨front, back, rfl, hfront, hback⟩ := List.map_eq_append_iff.1 h
      obtain ⟨c, rfl, hc⟩ := List.map_eq_singleton_iff.1 hback
      rw [digitsValue?_append, ih (n / 16) (by omega) hfront]
      refine digitsValue?_cons.2 ⟨n % 16, digitValue?_eq_some_iff.2 ⟨Nat.mod_lt n (by decide), hc⟩, ?_⟩
      rw [Nat.div_add_mod' n 16]
      rfl

theorem digitsValue?_zeros (zeros : Nat) (ds : List Char) :
    digitsValue? 16 0 (List.replicate zeros '0' ++ ds) = digitsValue? 16 0 ds := by
  induction zeros with
  | zero => rfl
  | succ zeros ih => exact ih

/-! ## Numerals -/

theorem Hexadecimal.digitsValue? (h : Hexadecimal n cs) : digitsValue? 16 0 cs = some n := by
  obtain ⟨zeros, ds, rfl, hds⟩ := h
  rw [digitsValue?_zeros, digitsValue?_of_toDigits hds]

theorem Hexadecimal.nonempty (h : Hexadecimal n cs) : cs ≠ [] := by
  obtain ⟨zeros, ds, rfl, hds⟩ := h
  refine List.append_ne_nil_of_right_ne_nil _ ?_
  rintro rfl
  exact Nat.toDigits_ne_nil hds.symm

/-- **Digits are read exactly if they denote a word.** -/
theorem readDigits?_eq_some_iff : readDigits? 16 cs = some n ↔ n < wordLimit ∧ Hexadecimal n cs := by
  unfold readDigits?
  by_cases hcs : cs = []
  · subst hcs
    simp only [List.isEmpty_nil, if_true, reduceCtorEq, false_iff]
    exact fun h => h.2.nonempty rfl
  · rw [if_neg (by simpa using hcs), Option.filter_eq_some_iff, decide_eq_true_eq, and_comm]
    exact and_congr_right fun _ => ⟨hexadecimal_of_digitsValue? hcs, Hexadecimal.digitsValue?⟩

theorem not_hexadecimal_plus : ¬ Hexadecimal n ('+' :: cs) := by
  intro h
  obtain ⟨d, hd, -⟩ := digitsValue?_cons.1 h.digitsValue?
  cases hd

/-- **A number is read exactly from its numerals.** -/
theorem readUnsigned?_eq_some_iff : readUnsigned? 16 cs = some n ↔ Numeral n cs := by
  unfold readUnsigned? Numeral
  split
  · rename_i ds
    rw [readDigits?_eq_some_iff]
    refine and_congr_right fun _ => ⟨fun h => ⟨ds, h, .inr rfl⟩, ?_⟩
    rintro ⟨ds', h, rfl | heq⟩
    · exact absurd h not_hexadecimal_plus
    · exact (List.cons.inj heq).2 ▸ h
  · rename_i hplus
    rw [readDigits?_eq_some_iff]
    refine and_congr_right fun _ => ⟨fun h => ⟨cs, h, .inl rfl⟩, ?_⟩
    rintro ⟨ds', h, rfl | rfl⟩
    · exact h
    · exact absurd rfl (hplus ds')

/-- What stands in a numeral: digits and `+`. -/
theorem Numeral.mem (h : Numeral n cs) : ∀ c ∈ cs, c = '+' ∨ ∃ d, digitValue? 16 c = some d := by
  obtain ⟨-, ds, hds, rfl | rfl⟩ := h
  · exact fun c hc => .inr (forall_digit_of_digitsValue? hds.digitsValue? c hc)
  · intro c hc
    exact (List.mem_cons.1 hc).imp_right fun hc => forall_digit_of_digitsValue? hds.digitsValue? c hc

theorem Numeral.nonempty (h : Numeral n cs) : cs ≠ [] := by
  obtain ⟨-, ds, hds, rfl | rfl⟩ := h
  · exact hds.nonempty
  · exact List.cons_ne_nil _ _

theorem Numeral.dash_not_mem (h : Numeral n cs) : '-' ∉ cs := by
  intro hdash
  rcases h.mem '-' hdash with hplus | ⟨d, hd⟩
  · exact absurd hplus (by decide)
  · cases hd

theorem map_toLower_toDigits (n : Nat) : (Nat.toDigits 16 n).map Char.toLower = Nat.toDigits 16 n := by
  have hlower : ∀ d < 16, (Nat.digitChar d).toLower = Nat.digitChar d := by decide
  induction n using Nat.strongRecOn with
  | ind n ih =>
    by_cases hlt : n < 16
    · rw [Nat.toDigits_of_lt_base hlt, List.map_singleton, hlower n hlt]
    · rw [Nat.toDigits_of_base_le (by decide) (Nat.le_of_not_lt hlt), List.map_append, ih (n / 16) (by omega),
        List.map_singleton, hlower (n % 16) (Nat.mod_lt n (by decide))]

/-- Every word has a numeral. -/
theorem numeral_toDigits (h : n < wordLimit) : Numeral n (Nat.toDigits 16 n) :=
  ⟨h, Nat.toDigits 16 n, ⟨0, Nat.toDigits 16 n, rfl, map_toLower_toDigits n⟩, .inl rfl⟩

end Text
end Introspect
