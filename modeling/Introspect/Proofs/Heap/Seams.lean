import Introspect.Proofs.Heap.Flat
/-!
# Slices that cross a seam

A header is two words and the integers of a slice are one word each, and every word is an access of its own.  So these
accesses ask only for a row of good words (`Memory.GoodWords`), where the check of a slice asks for one block.  The two
are the same unless blocks meet inside the row: sizes are rounded up to sixteen, so a block whose size is a multiple of
that ends where the next one begins (`Memory.Seam`), and a row of words runs on from one into the other.
-/
namespace Introspect
namespace Memory

variable {m : Memory} {a n : Nat}

/-- A block ends at `x` and another one begins there. -/
def Seam (m : Memory) (x : Nat) : Prop := ∃ e ∈ m.blocks, ∃ f ∈ m.blocks, e.1 < x ∧ x = e.1 + e.2 ∧ x = f.1

instance (m : Memory) (x : Nat) : Decidable (m.Seam x) :=
  inferInstanceAs (Decidable (∃ e ∈ m.blocks, ∃ f ∈ m.blocks, e.1 < x ∧ x = e.1 + e.2 ∧ x = f.1))

/-- So many words from an address, each of them in one block. -/
def GoodWords (m : Memory) (a n : Nat) : Prop := ∀ i < n, m.Good (a + 8 * i) 8

instance (m : Memory) (a n : Nat) : Decidable (m.GoodWords a n) :=
  inferInstanceAs (Decidable (∀ i < n, m.Good (a + 8 * i) 8))

theorem Good.mono (hg : m.Good a n) {b k : Nat} (hab : a ≤ b) (hbk : b + k ≤ a + n) : m.Good b k := by
  obtain ⟨e, he, h1, h2⟩ := hg
  exact ⟨e, he, by omega, by omega⟩

theorem goodWords_succ : m.GoodWords a (n + 1) ↔ m.GoodWords a n ∧ m.Good (a + 8 * n) 8 := by
  constructor
  · exact fun h => ⟨fun i hi => h i (Nat.lt_succ_of_lt hi), h n (Nat.lt_succ_self n)⟩
  · rintro ⟨hrow, hlast⟩ i hi
    rcases Nat.lt_succ_iff_lt_or_eq.1 hi with hi | rfl
    · exact hrow i hi
    · exact hlast

theorem goodWords_cons : m.GoodWords a (n + 1) ↔ m.Good a 8 ∧ m.GoodWords (a + 8) n := by
  have hnext : ∀ i, a + 8 + 8 * i = a + 8 * (i + 1) := fun i => by omega
  constructor
  · exact fun h => ⟨h 0 (Nat.succ_pos n), fun i hi => hnext i ▸ h (i + 1) (Nat.succ_lt_succ hi)⟩
  · rintro ⟨hfirst, hrow⟩ i hi
    cases i with
    | zero => exact hfirst
    | succ i => exact hnext i ▸ hrow i (Nat.lt_of_succ_lt_succ hi)

theorem goodWords_two : m.GoodWords a 2 ↔ m.Good a 8 ∧ m.Good (a + 8) 8 := by
  rw [goodWords_succ, goodWords_succ]
  exact and_congr_left' (and_iff_right fun i hi => absurd hi (Nat.not_lt_zero i))

theorem Good.goodWords (hg : m.Good a (8 * n)) : m.GoodWords a n := fun i hi => hg.mono (by omega) (by omega)

end Memory

namespace Heap

variable {h : Heap} {m : Memory} {a n k : Nat}

/-! ## A row of words and one block -/

/-- **Two good pieces in a row are one**, unless blocks meet between them. -/
theorem Arranged.join (ha : h.Arranged) (h₁ : h.flat.Good a n) (h₂ : h.flat.Good (a + n) k) (hn : 0 < n) (hk : 0 < k)
    (hseam : ¬ h.flat.Seam (a + n)) : h.flat.Good a (n + k) := by
  obtain ⟨e, he, h1, h2⟩ := h₁
  obtain ⟨f, hf, h3, h4⟩ := h₂
  have h5 := le_span e.2
  have h6 := le_span f.2
  rcases ha.packed.apart he hf with rfl | hbehind | hbehind
  · exact ⟨e, he, h1, by omega⟩
  · exact absurd ⟨e, he, f, hf, by omega, by omega, by omega⟩ hseam
  · omega

/-- **A row of good words lies in one block**, unless blocks meet inside it. -/
theorem Arranged.goodWords_iff (ha : h.Arranged) (hseam : ∀ i, 0 < i → i < n → ¬ h.flat.Seam (a + 8 * i)) :
    h.flat.GoodWords a n ↔ n = 0 ∨ h.flat.Good a (8 * n) := by
  constructor
  · intro hrow
    induction n with
    | zero => exact .inl rfl
    | succ n ih =>
      obtain ⟨hrow, hlast⟩ := Memory.goodWords_succ.1 hrow
      right
      rcases ih (fun i h0 hi => hseam i h0 (Nat.lt_succ_of_lt hi)) hrow with rfl | hone
      · exact hlast
      · rcases Nat.eq_zero_or_pos n with rfl | hpos
        · exact hlast
        · rw [Nat.mul_succ]
          exact ha.join hone hlast (by omega) (by decide) (hseam n hpos (Nat.lt_succ_self n))
  · rintro (rfl | hone)
    · exact fun i hi => absurd hi (Nat.not_lt_zero i)
    · exact hone.goodWords

/-! ## Which accesses are good -/

theorem readWord_iff (ha : h.Arranged) {a : Address} : (∃ w, h.readWord a = .ok w) ↔ h.flat.Good a.toNat 8 := by
  constructor
  · rintro ⟨w, hw⟩
    exact inside_of_readWord hw
  · intro hg
    exact ⟨_, by rw [readWord, read_inside ha hg]; rfl⟩

theorem readAddress_iff (ha : h.Arranged) {a : Address} : (∃ x, h.readAddress a = .ok x) ↔ h.flat.Good a.toNat 8 := by
  constructor
  · rintro ⟨x, hx⟩
    exact inside_of_readAddress hx
  · intro hg
    exact ⟨_, by rw [readAddress, readWord, read_inside ha hg]; rfl⟩

/-- Behind a good word the next one does not wrap. -/
theorem Arranged.toNat_next (ha : h.Arranged) {a : Address} (hg : h.flat.Good a.toNat 8) :
    (a + 8).toNat = a.toNat + 8 :=
  Address.toNat_add_of_lt (ha.inside_lt hg)

theorem readSlice_iff (ha : h.Arranged) {a : Address} :
    (∃ s, h.readSlice a = .ok s) ↔ h.flat.GoodWords a.toNat 2 := by
  rw [Memory.goodWords_two]
  constructor
  · rintro ⟨s, hs⟩
    obtain ⟨hlength, hdata⟩ := readSlice_ok.1 hs
    have hfirst := inside_of_readWord hlength
    exact ⟨hfirst, ha.toNat_next hfirst ▸ inside_of_readAddress hdata⟩
  · rintro ⟨hfirst, hsecond⟩
    obtain ⟨length, hlength⟩ := (readWord_iff ha).2 hfirst
    obtain ⟨data, hdata⟩ := (readAddress_iff ha).2 ((ha.toNat_next hfirst).symm ▸ hsecond)
    exact ⟨⟨length, data⟩, readSlice_ok.2 ⟨hlength, hdata⟩⟩

theorem writeWord_iff (ha : h.Arranged) {a : Address} {w : UInt64} :
    (∃ h', h.writeWord a w = .ok h') ↔ h.flat.Good a.toNat 8 := by
  constructor
  · rintro ⟨h', hw⟩
    by_contra hout
    rw [writeWord, write_outside (by rwa [Octets.length_encode])] at hw
    cases hw
  · exact fun hg => writeWord_inside ha hg w

theorem ends_writeSlice_words (ha : h.Arranged) (a : Address) (s : Slice) :
    (writeSlice a s).Ends h (fun _ _ => h.flat.GoodWords a.toNat 2) fun _ _ => ¬ h.flat.GoodWords a.toNat 2 := by
  rw [Memory.goodWords_two]
  simp only [writeSlice, Action.ends_bind, Action.ends_modifyM]
  cases hw : h.writeWord a s.length with
  | error e =>
    rintro ⟨hfirst, -⟩
    obtain ⟨k, hk⟩ := (writeWord_iff ha).2 hfirst
    rw [hk] at hw
    cases hw
  | ok k =>
    have hfirst := (writeWord_iff ha).1 ⟨k, hw⟩
    have hflat : ∀ x, k.flat.Good x 8 ↔ h.flat.Good x 8 := fun _ => inside_congr (outline_writeWord ha hw)
    have hk := (grows_writeWord ha hw).arranged
    rw [← ha.toNat_next hfirst]
    dsimp only
    cases hw' : k.writeAddress (a + 8) s.data with
    | error e =>
      rintro ⟨-, hsecond⟩
      obtain ⟨k', hk'⟩ := (writeWord_iff hk).2 ((hflat _).2 hsecond)
      rw [writeAddress, hk'] at hw'
      cases hw'
    | ok k' => exact ⟨hfirst, (hflat _).1 ((writeWord_iff hk).1 ⟨k', hw'⟩)⟩

theorem writeSlice_iff (ha : h.Arranged) {a : Address} {s : Slice} :
    (∃ h', writeSlice a s h = .ok () h') ↔ h.flat.GoodWords a.toNat 2 := by
  have hends := ends_writeSlice_words ha a s
  unfold Action.Ends at hends
  cases hx : writeSlice a s h with
  | ok _ h' =>
    rw [hx] at hends
    exact iff_of_true ⟨h', rfl⟩ hends
  | error e h' =>
    rw [hx] at hends
    refine iff_of_false ?_ hends
    rintro ⟨_, hok⟩
    cases hok

theorem readInts_succ {n : Nat} {a : Address} : (∃ is, h.readInts (n + 1) a = .ok is) ↔
    (∃ w, h.readWord a = .ok w) ∧ ∃ is, h.readInts n (a + 8) = .ok is := by
  rw [readInts, readInt]
  cases h.readWord a with
  | error e =>
    refine iff_of_false ?_ fun hok => ?_
    · rintro ⟨_, hok⟩
      cases hok
    · obtain ⟨⟨_, hok⟩, -⟩ := hok
      cases hok
  | ok w =>
    cases h.readInts n (a + 8) with
    | error e =>
      refine iff_of_false ?_ fun hok => ?_
      · rintro ⟨_, hok⟩
        cases hok
      · obtain ⟨-, _, hok⟩ := hok
        cases hok
    | ok is => exact iff_of_true ⟨_, rfl⟩ ⟨⟨w, rfl⟩, is, rfl⟩

/-- Integers one behind the other are read by as many words. -/
theorem readInts_iff (ha : h.Arranged) : ∀ {n : Nat} {a : Address},
    (∃ is, h.readInts n a = .ok is) ↔ h.flat.GoodWords a.toNat n
  | 0, a => iff_of_true ⟨[], rfl⟩ fun i hi => absurd hi (Nat.not_lt_zero i)
  | n + 1, a => by
    rw [readInts_succ, readWord_iff ha, readInts_iff ha, Memory.goodWords_cons]
    exact and_congr_right fun hfirst => by rw [ha.toNat_next hfirst]

/-- The check asks for one block. -/
theorem checkSlice_iff (ha : h.Arranged) {s : Slice} : (∃ n, h.checkSlice s 8 = .ok n) ↔
    s.length.toNat = 0 ∨ h.flat.Good s.data.toNat (8 * s.length.toNat) := by
  by_cases h0 : s.length = 0
  · have hempty : s.isEmpty = true := Slice.isEmpty_iff.2 h0
    exact iff_of_true ⟨0, by rw [checkSlice, if_pos hempty]⟩ (.inl (by rw [h0]; rfl))
  · have hlen : ¬ s.length.toNat = 0 := fun hlen => h0 (UInt64.toNat_inj.1 hlen)
    rw [or_iff_right hlen, Nat.mul_comm]
    constructor
    · rintro ⟨n, hn⟩
      exact inside_of_checkSlice h0 hn
    · intro hg
      have hlt := ha.inside_lt hg
      exact ⟨_, (checkSlice_ok h0).2 ⟨rfl, by omega, _, read_inside ha hg⟩⟩

/-- **Slices are accessed word by word.**  A header can be read, and can be written, exactly where its two words are
good, and the integers of a slice exactly where each of them is; the check of the slice asks for one block.  So where no
blocks meet inside the bytes, a header is good exactly if it lies in one block, and integers exactly if the check says
so. -/
theorem slices_by_words (t : Traces h m) (a : Address) (s : Slice) :
    ((∃ sl, h.readSlice a = .ok sl) ↔ m.GoodWords a.toNat 2) ∧
    ((∃ h', writeSlice a s h = .ok () h') ↔ m.GoodWords a.toNat 2) ∧
    ((∃ is, h.readIntSlice s = .ok is) ↔ m.GoodWords s.data.toNat s.length.toNat) ∧
    ((∃ n, h.checkSlice s 8 = .ok n) ↔ s.length.toNat = 0 ∨ m.Good s.data.toNat (8 * s.length.toNat)) ∧
    (¬ m.Seam (a.toNat + 8) → ((∃ sl, h.readSlice a = .ok sl) ↔ m.Good a.toNat 16) ∧
      ((∃ h', writeSlice a s h = .ok () h') ↔ m.Good a.toNat 16)) ∧
    ((∀ i, 0 < i → i < s.length.toNat → ¬ m.Seam (s.data.toNat + 8 * i)) →
      ((∃ is, h.readIntSlice s = .ok is) ↔ ∃ n, h.checkSlice s 8 = .ok n)) := by
  obtain ⟨ha, rfl⟩ := t.flat_eq
  have hheader : ¬ h.flat.Seam (a.toNat + 8) → (h.flat.GoodWords a.toNat 2 ↔ h.flat.Good a.toNat 16) := fun hseam => by
    have hrow := ha.goodWords_iff (a := a.toNat) (n := 2) fun i h0 hi => by
      obtain rfl : i = 1 := by omega
      exact hseam
    exact hrow.trans (or_iff_right (by decide))
  have hints : (∃ is, h.readIntSlice s = .ok is) ↔ h.flat.GoodWords s.data.toNat s.length.toNat := readInts_iff ha
  refine ⟨readSlice_iff ha, writeSlice_iff ha, hints, checkSlice_iff ha, fun hseam => ?_, fun hseam => ?_⟩
  · exact ⟨(readSlice_iff ha).trans (hheader hseam), (writeSlice_iff ha).trans (hheader hseam)⟩
  · exact hints.trans ((ha.goodWords_iff hseam).trans (checkSlice_iff ha).symm)

/-! ## Two blocks that meet -/

/-- Two blocks of sixteen bytes, the second right behind the first. -/
def meeting : Heap where
  blocks := [⟨.ofNat 0x10000010, List.replicate 16 0⟩, ⟨.ofNat 0x10000000, List.replicate 16 0⟩]
  next := .ofNat 0x10000020

theorem traces_meeting : Traces meeting meeting.flat := by
  have t := @Traces.allocate _ _ _ 16 _ (@Traces.allocate _ _ _ 16 _ .empty rfl) rfl
  exact t.flat_eq.2 ▸ t

/-- A header is read at the start of the first block, and not where it would run past the end of the second. -/
theorem slices_by_words_meeting : (∃ sl, meeting.readSlice (.ofNat 0x10000000) = .ok sl) ∧
    (¬ ∃ sl, meeting.readSlice (.ofNat 0x10000018) = .ok sl) ∧
    ((∃ is, meeting.readIntSlice ⟨2, .ofNat 0x10000010⟩ = .ok is) ↔
      ∃ n, meeting.checkSlice ⟨2, .ofNat 0x10000010⟩ 8 = .ok n) := by
  obtain ⟨-, -, -, -, hfirst, hints⟩ :=
    slices_by_words traces_meeting (.ofNat 0x10000000) ⟨2, .ofNat 0x10000010⟩
  obtain ⟨-, -, -, -, hlast, -⟩ := slices_by_words traces_meeting (.ofNat 0x10000018) .empty
  refine ⟨((hfirst (by decide)).1).2 (by decide), fun h => ?_, hints fun i h0 hi => ?_⟩
  · exact absurd (((hlast (by decide)).1).1 h) (by decide)
  · obtain rfl : i = 1 := by
      have : i < 2 := hi
      omega
    decide

/-- **Across a seam a slice is good where no one block holds it**: a header is read and written half in one block and
half in the other, and integers are read that the check of their slice refuses. -/
theorem slices_across_seam : ∃ (h : Heap) (m : Memory) (a : Address) (s : Slice), Traces h m ∧ ¬ m.Good a.toNat 16 ∧
    (∃ sl, h.readSlice a = .ok sl) ∧ (∃ h', writeSlice a s h = .ok () h') ∧
    ¬ m.Good s.data.toNat (8 * s.length.toNat) ∧ (∃ is, h.readIntSlice s = .ok is) ∧
    ∃ e, h.checkSlice s 8 = .error e :=
  ⟨meeting, meeting.flat, .ofNat 0x10000008, ⟨2, .ofNat 0x10000008⟩, traces_meeting, by decide, ⟨_, rfl⟩, ⟨_, rfl⟩,
    by decide, ⟨_, rfl⟩, _, rfl⟩

end Heap
end Introspect
