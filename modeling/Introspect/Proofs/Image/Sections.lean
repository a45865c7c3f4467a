import Introspect.Proofs.Image.Definitions
import Introspect.Proofs.Image.Walk
import Introspect.Proofs.Image.Writer
/-!
# Sections by number

A section that is asked for by its number is the one that the walk over the table yields at that place, and there is one
exactly if the walk comes that far (`sections_agree`).  That rests on one fact: the entries of a table start one behind
the other, or all at one place if the table gives them no width, so where one does not fit in the file none after it does.
-/
namespace Introspect
namespace Image

variable {bytes : Bytes} {index start i : Nat} {h : Header} {s : Section}

/-! ## What is read -/

theorem fits_of_header? (hh : header? bytes = some h) : h.Fits := by
  unfold header? at hh
  split at hh
  · obtain ⟨fileType, htype, hh⟩ := Option.bind_eq_some_iff.1 hh
    obtain ⟨entry, hentry, hh⟩ := Option.bind_eq_some_iff.1 hh
    obtain ⟨sectionOffset, hoffset, hh⟩ := Option.bind_eq_some_iff.1 hh
    obtain ⟨sectionEntrySize, hwidth, hh⟩ := Option.bind_eq_some_iff.1 hh
    obtain ⟨sectionCount, hcount, hh⟩ := Option.bind_eq_some_iff.1 hh
    cases hh
    exact ⟨Bytes.number?_lt htype, Bytes.number?_lt hentry, Bytes.number?_lt hoffset, Bytes.number?_lt hwidth,
      Bytes.number?_lt hcount⟩
  · cases hh

/-- **A section can be read exactly if its first 48 bytes lie in the file**; the last two fields are never read. -/
theorem readSection?_eq_none_iff : readSection? bytes index start = none ↔ bytes.size < start + 48 := by
  constructor
  · intro hnone
    by_contra hsize
    unfold readSection? at hnone
    rw [Bytes.number?_of_le (by omega), Bytes.number?_of_le (by omega), Bytes.number?_of_le (by omega),
      Bytes.number?_of_le (by omega), Bytes.number?_of_le (by omega), Bytes.number?_of_le (by omega)] at hnone
    cases hnone
  · intro hsize
    have hlast : bytes.number? 4 (start + 44) = none := Bytes.number?_of_lt (by omega)
    unfold readSection?
    simp only [hlast, bind, Option.bind_none, Option.bind_fun_none]

theorem eq_of_readSection? (hs : readSection? bytes index start = some s) : s.index = index ∧ s.headerOffset = start := by
  unfold readSection? at hs
  simp only [bind, Option.bind_eq_some_iff, pure, Option.some.injEq] at hs
  obtain ⟨kind, -, flags, -, offset, -, size, -, link, -, info, -, rfl⟩ := hs
  exact ⟨rfl, rfl⟩

/-! ## By number and by the walk -/

theorem sectionsFrom_eq (bytes : Bytes) (h : Header) (n i : Nat) :
    sectionsFrom bytes h n i = foundFrom (fun i => readSection? bytes i (h.sectionStart i)) n i := by
  induction n generalizing i with
  | zero => rfl
  | succ n ih =>
    unfold sectionsFrom foundFrom
    rw [ih (i + 1)]
    cases readSection? bytes i (h.sectionStart i) <;> rfl

theorem sections_of_header? (hh : header? bytes = some h) :
    sections bytes = foundFrom (fun i => readSection? bytes i (h.sectionStart i)) h.sectionCount 0 := by
  unfold sections
  rw [hh]
  exact sectionsFrom_eq bytes h h.sectionCount 0

theorem numbered_of_header? (hh : header? bytes = some h) (i : Nat) :
    Image.section? bytes i = if i < h.sectionCount then readSection? bytes i (h.sectionStart i) else none := by
  unfold section?
  rw [hh]
  rfl

/-- The entries of a table start in order, so behind one that does not fit none does. -/
theorem readSection?_succ (bytes : Bytes) (h : Header) (i : Nat)
    (hnone : readSection? bytes i (h.sectionStart i) = none) :
    readSection? bytes (i + 1) (h.sectionStart (i + 1)) = none := by
  rw [readSection?_eq_none_iff] at hnone ⊢
  have hstart : h.sectionStart i ≤ h.sectionStart (i + 1) :=
    Nat.add_le_add_left (Nat.mul_le_mul_right _ (Nat.le_succ i)) _
  omega

/-- **A section is found by its number where the walk yields it.** -/
theorem numbered_eq_getElem? (bytes : Bytes) (i : Nat) : Image.section? bytes i = (sections bytes)[i]? := by
  cases hh : header? bytes with
  | none =>
    unfold section? sections
    rw [hh]
    rfl
  | some h =>
    rw [sections_of_header? hh, numbered_of_header? hh, getElem?_foundFrom (readSection?_succ bytes h), Nat.zero_add]

/-! ## In words -/

theorem distance_lt (hh : header? bytes = some h) (hi : i < h.sectionCount) :
    i * h.sectionEntrySize < Text.wordLimit := by
  have hfits := fits_of_header? hh
  have hcount := hfits.sectionCount
  calc i * h.sectionEntrySize ≤ 256 ^ 2 * 256 ^ 2 :=
        Nat.mul_le_mul (Nat.le_of_lt (Nat.lt_trans hi hcount)) (Nat.le_of_lt hfits.sectionEntrySize)
    _ < Text.wordLimit := by decide

theorem sectionStart_fits (hbytes : bytes.size < Text.wordLimit) (hstart : Text.wordLimit ≤ start) :
    readSection? bytes index start = none :=
  readSection?_eq_none_iff.2 (Nat.lt_of_lt_of_le hbytes (Nat.le_trans hstart (Nat.le_add_right _ _)))

/-- **The walk yields the sections and does not fault**, whatever the header says. -/
theorem yields_sections (hbytes : bytes.size < Text.wordLimit) :
    Yields (nextSection bytes) (sectionWalk bytes) (sections bytes) := by
  have hread : fetchSection? bytes = readSection? bytes := funext fun i => funext (fetchSection?_eq hbytes i)
  unfold nextSection
  rw [hread]
  cases hh : header? bytes with
  | none =>
    have hwalk : sectionWalk bytes = ⟨0, 0, 0, 0⟩ := by unfold sectionWalk; rw [hh]
    have hnone : sections bytes = [] := by unfold sections; rw [hh]
    rw [hwalk, hnone]
    exact Walk.yields_nothing (Nat.le_refl 0)
  | some h =>
    have hwalk : sectionWalk bytes = ⟨h.sectionOffset, h.sectionEntrySize, h.sectionCount, 0⟩ := by
      unfold sectionWalk; rw [hh]
    rw [hwalk, sections_of_header? hh]
    exact Walk.yields (w := ⟨h.sectionOffset, h.sectionEntrySize, h.sectionCount, 0⟩) (fits_of_header? hh).sectionCount
      (fun i hi => distance_lt hh hi) fun i start hstart => sectionStart_fits hbytes hstart

/-- A section that is asked for by its number is looked for at its place, at a distance that is a word. -/
theorem numberedSection_eq (hbytes : bytes.size < Text.wordLimit) (i : Nat) :
    numberedSection bytes i = .ok (section? bytes i) := by
  cases hh : header? bytes with
  | none =>
    unfold numberedSection section?
    rw [hh]
    rfl
  | some h =>
    unfold numberedSection
    rw [hh, numbered_of_header? hh]
    dsimp only
    split
    · next hi =>
      rw [uncheckedProduct, if_pos (distance_lt hh hi)]
      have hread : fetchSection? bytes i = readSection? bytes i := funext (fetchSection?_eq hbytes i)
      rw [hread]
      exact congrArg Except.ok (checkedSum_bind (fun start hstart => sectionStart_fits hbytes hstart) _ _)
    · rfl

/-- **A section that is asked for by its number is the one that the walk yields at that place**, with its number and the
place it was read from; there is one exactly if the walk comes that far, and what the walk does not come to cannot be
read.  Neither way faults. -/
theorem sections_agree (bytes : Bytes) (hbytes : bytes.size < Text.wordLimit) :
    Yields (nextSection bytes) (sectionWalk bytes) (sections bytes) ∧
    (∀ i, numberedSection bytes i = .ok (sections bytes)[i]? ∧ Image.section? bytes i = (sections bytes)[i]?) ∧
    (∀ i, (Image.section? bytes i).isSome = true ↔ i < (sections bytes).length) ∧
    (∀ i s, Image.section? bytes i = some s →
      s.index = i ∧ ∃ h, header? bytes = some h ∧ s.headerOffset = h.sectionOffset + i * h.sectionEntrySize) ∧
    ∀ i h, header? bytes = some h → (sections bytes).length ≤ i → i < h.sectionCount →
      readSection? bytes i (h.sectionOffset + i * h.sectionEntrySize) = none := by
  refine ⟨yields_sections hbytes, fun i => ?_, fun i => ?_, fun i s hs => ?_, fun i h hh hlength hi => ?_⟩
  · rw [numberedSection_eq hbytes, numbered_eq_getElem?]
    exact ⟨rfl, rfl⟩
  · rw [numbered_eq_getElem?, isSome_getElem?]
  · cases hh : header? bytes with
    | none =>
      unfold section? at hs
      rw [hh] at hs
      cases hs
    | some h =>
      rw [numbered_of_header? hh] at hs
      split at hs
      · obtain ⟨hindex, hoffset⟩ := eq_of_readSection? hs
        exact ⟨hindex, h, rfl, hoffset⟩
      · cases hs
  · have hnone := numbered_eq_getElem? bytes i
    rw [numbered_of_header? hh, if_pos hi, List.getElem?_eq_none hlength] at hnone
    exact hnone

/-- A file that is nothing but a header, which says that the table starts within it, that it has 65535 entries, and that
each of them starts four bytes behind the one before it. -/
def overlapping : Bytes := (Header.encode ⟨2, 0, 8, 4, 0xFFFF⟩).toArray

/-- Three of the sections can be read, one over the other; the walk stops behind them, and so does any other way. -/
theorem sections_agree_overlapping : overlapping.size < Text.wordLimit ∧
    Yields (nextSection overlapping) (sectionWalk overlapping) (sections overlapping) ∧
    (sections overlapping).map Section.headerOffset = [8, 12, 16] ∧
    numberedSection overlapping 2 = .ok (sections overlapping)[2]? ∧ numberedSection overlapping 3 = .ok none ∧
    ¬ (Image.section? overlapping 0xFFFE).isSome = true := by
  have hsize : overlapping.size < Text.wordLimit := by decide +kernel
  obtain ⟨hwalk, hnumbered, hsome, -⟩ := sections_agree overlapping hsize
  have hoffsets : (sections overlapping).map Section.headerOffset = [8, 12, 16] := by decide +kernel
  have hlength : (sections overlapping).length = 3 := (List.length_map _).symm.trans (congrArg List.length hoffsets)
  refine ⟨hsize, hwalk, hoffsets, (hnumbered 2).1, (hnumbered 3).1.trans ?_, fun h => ?_⟩
  · rw [List.getElem?_eq_none (Nat.le_of_eq hlength)]
  · exact absurd ((hsome 0xFFFE).1 h) (by rw [hlength]; decide)

end Image
end Introspect
