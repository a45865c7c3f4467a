import Introspect.Image.Walk
import Introspect.Proofs.Image.Bytes
import Mathlib.Data.List.Basic
/-!
# What a walk yields

A walk that is asked for the next entry again and again yields what stands in the table up to the first entry that
cannot be read (`Walk.yields`).  Where nothing that can be read comes behind something that cannot, that is just what
can be read at all, entry by entry (`getElem?_foundFrom`).

In a file whose size is a word, asking whether a place is a word changes nothing: what ends at a place that is not one
does not lie in the file.
-/
namespace Introspect
namespace Image

variable {α σ : Type}

/-- Asked again and again, the walk yields these and then, however often it is asked, nothing more; it never faults. -/
inductive Yields (next : σ → Except Fault (Option α × σ)) : σ → List α → Prop where
  | ended {w w' : σ} (last : next w = .ok (none, w')) (still : next w' = .ok (none, w')) : Yields next w []
  | more {w w' : σ} {a : α} {as : List α} (found : next w = .ok (some a, w')) (rest : Yields next w' as) :
    Yields next w (a :: as)

/-! ## Up to the first that is not there -/

/-- What is found under the numbers from `i` on, `n` of them at most and up to the first under which nothing is. -/
def foundFrom (find : Nat → Option α) : Nat → Nat → List α
  | 0, _ => []
  | n + 1, i => match find i with
    | some a => a :: foundFrom find n (i + 1)
    | none => []

variable {find : Nat → Option α} {n i j k : Nat}

theorem eq_none_of_le (hdown : ∀ i, find i = none → find (i + 1) = none) (hij : i ≤ j) (h : find i = none) :
    find j = none := by
  induction hij with
  | refl => exact h
  | step _ ih => exact hdown _ ih

/-- **Where nothing is found behind a gap, a walk finds what is there.** -/
theorem getElem?_foundFrom (hdown : ∀ i, find i = none → find (i + 1) = none) :
    (foundFrom find n i)[k]? = if k < n then find (i + k) else none := by
  induction n generalizing i k with
  | zero => simp [foundFrom]
  | succ n ih =>
    unfold foundFrom
    cases hi : find i with
    | none =>
      rw [eq_none_of_le hdown (Nat.le_add_right i k) hi]
      simp
    | some a =>
      cases k with
      | zero => simp [hi]
      | succ k =>
        simp only [List.getElem?_cons_succ, ih, Nat.add_lt_add_iff_right]
        rw [Nat.add_assoc, Nat.add_comm 1 k]

theorem map_foundFrom {β : Type} (g : α → β) (find : Nat → Option α) (n i : Nat) :
    (foundFrom find n i).map g = foundFrom (fun i => (find i).map g) n i := by
  induction n generalizing i with
  | zero => rfl
  | succ n ih =>
    unfold foundFrom
    cases find i with
    | none => rfl
    | some a => exact congrArg _ (ih (i + 1))

/-! ## Steps and walks -/

/-- Where nothing is read beyond the words, it does not matter that the place is checked. -/
theorem checkedSum_bind {read : Nat → Option α} (hread : ∀ start, Text.wordLimit ≤ start → read start = none)
    (a b : Nat) : (checkedSum a b).bind read = read (a + b) := by
  unfold checkedSum
  split
  · rfl
  · next hlarge => exact (hread _ (Nat.le_of_not_lt hlarge)).symm

namespace Walk

variable {limit : Nat} {read : Nat → Nat → Option α} {w : Walk}

theorem step_over (h : w.count ≤ w.next) : w.step limit read = .ok (none, w) := if_pos h

theorem yields_nothing (h : w.count ≤ w.next) : Yields (step limit read) w [] := .ended (step_over h) (step_over h)

/-- What one step does where no product or sum leaves its bounds: it reads the entry at its place. -/
theorem step_within (hnext : w.next < w.count) (hlimit : w.count < limit)
    (hdistance : w.next * w.stride < Text.wordLimit) (hread : ∀ i start, Text.wordLimit ≤ start → read i start = none) :
    w.step limit read = .ok (match read w.next (w.base + w.next * w.stride) with
      | some a => (some a, { w with next := w.next + 1 })
      | none => (none, { w with next := w.count })) := by
  unfold step
  rw [if_neg (Nat.not_le.2 hnext), uncheckedProduct, if_pos hdistance]
  simp only [bind, Except.bind, checkedSum_bind (hread w.next)]
  cases read w.next (w.base + w.next * w.stride) with
  | none => rfl
  | some a =>
    rw [uncheckedSum, if_pos (Nat.lt_of_le_of_lt hnext hlimit)]
    rfl

/-- **A walk yields what stands in its table up to the first entry that cannot be read.**  It never faults if the number
of entries is within the limit, and if each lies at a distance that is a word. -/
theorem yields (hlimit : w.count < limit) (hdistance : ∀ i < w.count, i * w.stride < Text.wordLimit)
    (hread : ∀ i start, Text.wordLimit ≤ start → read i start = none) :
    Yields (step limit read) w (foundFrom (fun i => read i (w.base + i * w.stride)) (w.count - w.next) w.next) := by
  generalize hn : w.count - w.next = n
  induction n generalizing w with
  | zero => exact yields_nothing (Nat.sub_eq_zero_iff_le.1 hn)
  | succ n ih =>
    have hnext : w.next < w.count := Nat.lt_of_sub_eq_succ hn
    have hstep := step_within hnext hlimit (hdistance w.next hnext) hread
    unfold foundFrom
    cases hfound : read w.next (w.base + w.next * w.stride) with
    | none =>
      rw [hfound] at hstep
      exact .ended hstep (step_over (Nat.le_refl _))
    | some a =>
      rw [hfound] at hstep
      refine .more hstep (ih (w := { w with next := w.next + 1 }) hlimit hdistance ?_)
      exact (Nat.sub_add_eq w.count w.next 1).trans (by rw [hn]; rfl)

end Walk

/-! ## Places that are words -/

variable {bytes : Bytes}

theorem number?_beyond (hbytes : bytes.size < Text.wordLimit) (width start : Nat) (hstart : Text.wordLimit ≤ start) :
    bytes.number? width start = none :=
  Bytes.number?_of_lt (Nat.lt_of_lt_of_le hbytes (Nat.le_trans hstart (Nat.le_add_right _ _)))

theorem fetchNumber?_eq (hbytes : bytes.size < Text.wordLimit) (width : Nat) :
    fetchNumber? bytes width = bytes.number? width := by
  funext start
  unfold fetchNumber? checkedSum
  split
  · rfl
  · next hlarge => exact (Bytes.number?_of_lt (Nat.lt_of_lt_of_le hbytes (Nat.le_of_not_lt hlarge))).symm

theorem fetchByte?_eq : fetchByte? bytes = bytes.number? 1 := by
  funext start
  unfold fetchByte?
  by_cases h : start < bytes.size
  · have hbyte : (bytes.extract start (start + 1)).toList = [bytes[start]] :=
      (Bytes.holdsAt_iff.1 (Bytes.holdsAt_singleton.2 (Array.getElem?_eq_getElem h))).2
    rw [Array.getElem?_eq_getElem h, Bytes.number?_of_le (Nat.succ_le_of_lt h), hbyte]
    rfl
  · rw [Bytes.number?_of_lt (Nat.lt_succ_of_le (Nat.le_of_not_lt h)), Array.getElem?_eq_none (Nat.le_of_not_lt h)]
    rfl

/-- **A section is read where it stands in the file.** -/
theorem fetchSection?_eq (hbytes : bytes.size < Text.wordLimit) (index start : Nat) :
    fetchSection? bytes index start = readSection? bytes index start := by
  unfold fetchSection? readSection?
  simp only [bind, ← Option.bind_assoc, fetchNumber?_eq hbytes, checkedSum_bind (number?_beyond hbytes _)]

/-- **An entry is read where it stands in the file.** -/
theorem fetchSymbol?_eq (hbytes : bytes.size < Text.wordLimit) (start : Nat) :
    fetchSymbol? bytes start = readEntry? bytes start := by
  unfold fetchSymbol? readEntry?
  simp only [bind, ← Option.bind_assoc, fetchNumber?_eq hbytes, fetchByte?_eq,
    checkedSum_bind (number?_beyond hbytes _)]

end Image
end Introspect
