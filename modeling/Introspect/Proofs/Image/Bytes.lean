import Introspect.Image.Basic
import Introspect.Proofs.Octets
/-!
# What stands in the bytes

A read says which bytes stand at a place of a file (`HoldsAt`), and nothing else: a number is the value of as many bytes
as it is wide, and a text is what stands before the next zero byte.  What stands in a file stands there still when more
bytes follow, and where two pieces stand one after the other, each stands at its own place.
-/
namespace Introspect
namespace Bytes

variable {bytes : Bytes} {start : Nat} {chunk : List UInt8}

/-- The bytes from `start` on begin with the chunk. -/
def HoldsAt (bytes : Bytes) (start : Nat) (chunk : List UInt8) : Prop :=
  ∃ before after, bytes.toList = before ++ (chunk ++ after) ∧ before.length = start

theorem HoldsAt.append (h : bytes.HoldsAt start chunk) (more : Bytes) : Bytes.HoldsAt (bytes ++ more) start chunk := by
  obtain ⟨before, after, hb, hlength⟩ := h
  refine ⟨before, after ++ more.toList, ?_, hlength⟩
  rw [Array.toList_append, hb]
  simp only [List.append_assoc]

theorem holdsAt_append {left right : List UInt8} :
    bytes.HoldsAt start (left ++ right) ↔ bytes.HoldsAt start left ∧ bytes.HoldsAt (start + left.length) right := by
  constructor
  · rintro ⟨before, after, hb, rfl⟩
    refine ⟨⟨before, right ++ after, ?_, rfl⟩, ⟨before ++ left, after, ?_, List.length_append⟩⟩ <;>
      rw [hb] <;> simp only [List.append_assoc]
  · rintro ⟨⟨before, after, hb, rfl⟩, ⟨before', after', hb', hlength⟩⟩
    -- both say what the bytes begin with, so they begin alike
    have hsplit : (before ++ left) ++ after = before' ++ (right ++ after') := by
      rw [List.append_assoc, ← hb, hb']
    obtain ⟨-, hafter⟩ := List.append_inj hsplit (by rw [List.length_append, hlength])
    exact ⟨before, after', by rw [hb, hafter, List.append_assoc], rfl⟩

theorem holdsAt_iff : bytes.HoldsAt start chunk ↔
    start + chunk.length ≤ bytes.size ∧ (bytes.extract start (start + chunk.length)).toList = chunk := by
  rw [Array.toList_extract, List.extract_eq_take_drop, Nat.add_sub_cancel_left, ← Array.length_toList]
  constructor
  · rintro ⟨before, after, hb, rfl⟩
    rw [hb, List.drop_left, List.take_left]
    refine ⟨?_, rfl⟩
    simp only [List.length_append]
    omega
  · rintro ⟨hsize, hchunk⟩
    refine ⟨bytes.toList.take start, (bytes.toList.drop start).drop chunk.length, ?_, ?_⟩
    · have hrest : chunk ++ (bytes.toList.drop start).drop chunk.length = bytes.toList.drop start := by
        have h := List.take_append_drop chunk.length (bytes.toList.drop start)
        rw [hchunk] at h
        exact h
      rw [hrest, List.take_append_drop]
    · rw [List.length_take]
      omega

theorem HoldsAt.getElem? (h : bytes.HoldsAt start chunk) {i : Nat} (hi : i < chunk.length) :
    bytes[start + i]? = chunk[i]? := by
  obtain ⟨before, after, hb, rfl⟩ := h
  rw [← Array.getElem?_toList, hb, List.getElem?_append_right (Nat.le_add_right _ _), Nat.add_sub_cancel_left,
    List.getElem?_append_left hi]

theorem holdsAt_singleton {b : UInt8} : bytes.HoldsAt start [b] ↔ bytes[start]? = some b := by
  constructor
  · intro h
    exact h.getElem? (i := 0) Nat.zero_lt_one
  · intro h
    obtain ⟨hlt, hget⟩ := Array.getElem?_eq_some_iff.1 h
    refine ⟨bytes.toList.take start, bytes.toList.drop (start + 1), ?_, ?_⟩
    · rw [← hget, ← Array.getElem_toList, List.singleton_append, List.getElem_cons_drop, List.take_append_drop]
    · rw [List.length_take, Array.length_toList]
      omega

/-! ## Numbers -/

/-- **A number is the value of the bytes that stand there.** -/
theorem number?_eq_some_iff {width n : Nat} : bytes.number? width start = some n ↔
    ∃ chunk, bytes.HoldsAt start chunk ∧ chunk.length = width ∧ Octets.decode chunk = n := by
  unfold number?
  constructor
  · intro h
    by_cases hsize : start + width ≤ bytes.size
    · rw [if_pos hsize] at h
      have hlength : (bytes.extract start (start + width)).toList.length = width := by
        rw [Array.length_toList, Array.size_extract]
        omega
      exact ⟨_, holdsAt_iff.2 (by rw [hlength]; exact ⟨hsize, rfl⟩), hlength, Option.some.inj h⟩
    · rw [if_neg hsize] at h
      cases h
  · rintro ⟨chunk, hchunk, rfl, rfl⟩
    obtain ⟨hsize, hextract⟩ := holdsAt_iff.1 hchunk
    rw [if_pos hsize, hextract]

theorem number?_of_le {width : Nat} (h : start + width ≤ bytes.size) :
    bytes.number? width start = some (Octets.decode (bytes.extract start (start + width)).toList) := if_pos h

theorem number?_of_lt {width : Nat} (h : bytes.size < start + width) : bytes.number? width start = none :=
  if_neg (Nat.not_le.2 h)

theorem exists_number? {width : Nat} (h : start + width ≤ bytes.size) : ∃ n, bytes.number? width start = some n :=
  ⟨_, number?_of_le h⟩

theorem number?_lt {width n : Nat} (h : bytes.number? width start = some n) : n < 256 ^ width := by
  obtain ⟨chunk, -, rfl, rfl⟩ := number?_eq_some_iff.1 h
  exact Octets.decode_lt chunk

/-! ## Texts -/

theorem zeroWithin?_eq_some_iff {n i j : Nat} : bytes.zeroWithin? n i = some j ↔
    i ≤ j ∧ j < i + n ∧ bytes[j]? = some 0 ∧ ∀ k, i ≤ k → k < j → bytes[k]? ≠ some 0 := by
  induction n generalizing i with
  | zero =>
    simp only [zeroWithin?, reduceCtorEq, false_iff]
    omega
  | succ n ih =>
    unfold zeroWithin?
    by_cases hi : bytes[i]? = some 0
    · rw [if_pos hi]
      constructor
      · intro h
        obtain rfl := Option.some.inj h
        exact ⟨Nat.le_refl _, by omega, hi, fun k h1 h2 => by omega⟩
      · rintro ⟨h1, -, -, h4⟩
        have : ¬ i < j := fun hlt => h4 i (Nat.le_refl _) hlt hi
        rw [show i = j by omega]
    · rw [if_neg hi, ih]
      constructor
      · rintro ⟨h1, h2, h3, h4⟩
        refine ⟨by omega, by omega, h3, fun k hk hkj => ?_⟩
        by_cases hki : k = i
        · rw [hki]
          exact hi
        · exact h4 k (by omega) hkj
      · rintro ⟨h1, h2, h3, h4⟩
        have hne : i ≠ j := by
          rintro rfl
          exact hi h3
        exact ⟨by omega, by omega, h3, fun k hk hkj => h4 k (by omega) hkj⟩

/-- **A text is what stands before the next zero byte.** -/
theorem terminated?_eq_some_iff {text : List UInt8} :
    bytes.terminated? start = some text ↔ 0 ∉ text ∧ bytes.HoldsAt start (text ++ [0]) := by
  unfold terminated?
  rw [Option.map_eq_some_iff]
  constructor
  · rintro ⟨stop, hstop, rfl⟩
    obtain ⟨h1, h2, h3, h4⟩ := zeroWithin?_eq_some_iff.1 hstop
    have hlt := (Array.getElem?_eq_some_iff.1 h3).1
    have hlength : (bytes.extract start stop).toList.length = stop - start := by
      rw [Array.length_toList, Array.size_extract]
      omega
    have hhold : bytes.HoldsAt start (bytes.extract start stop).toList := by
      rw [holdsAt_iff, hlength, Nat.add_sub_cancel' h1]
      exact ⟨Nat.le_of_lt hlt, rfl⟩
    refine ⟨fun hzero => ?_, holdsAt_append.2 ⟨hhold, holdsAt_singleton.2 ?_⟩⟩
    · obtain ⟨i, hi, hget⟩ := List.getElem_of_mem hzero
      apply h4 (start + i) (Nat.le_add_right _ _) (by omega)
      rw [hhold.getElem? hi, List.getElem?_eq_getElem hi, hget]
    · rw [hlength, Nat.add_sub_cancel' h1]
      exact h3
  · rintro ⟨hzero, hhold⟩
    obtain ⟨htext, hend⟩ := holdsAt_append.1 hhold
    rw [holdsAt_singleton] at hend
    have hlt := (Array.getElem?_eq_some_iff.1 hend).1
    refine ⟨start + text.length, zeroWithin?_eq_some_iff.2 ⟨Nat.le_add_right _ _, by omega, hend, ?_⟩,
      (holdsAt_iff.1 htext).2⟩
    intro k hk hkstop hget
    have hi : k - start < text.length := by omega
    have hbyte := htext.getElem? hi
    rw [Nat.add_sub_cancel' hk, hget] at hbyte
    exact hzero (List.mem_of_getElem? hbyte.symm)

end Bytes

theorem Image.isImage_iff {bytes : Bytes} :
    isImage bytes = true ↔ headerSize ≤ bytes.size ∧ bytes.HoldsAt 0 (magic ++ [class64]) := by
  unfold isImage
  rw [Bool.and_eq_true, Bool.and_eq_true, decide_eq_true_eq, beq_iff_eq, beq_iff_eq, Bytes.holdsAt_append,
    Bytes.holdsAt_singleton, and_assoc]
  refine and_congr_right fun hsize => and_congr_left fun _ => ?_
  rw [Bytes.holdsAt_iff]
  exact (and_iff_right (Nat.le_trans (by decide) hsize)).symm

end Introspect
