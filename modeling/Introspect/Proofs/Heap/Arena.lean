import Introspect.Heap.Words
import Introspect.Proofs.Address.Align
import Mathlib.Algebra.BigOperators.Group.Multiset.Basic
/-!
# The blocks of a heap lie in a row

Every block starts where the older ones end (`Packed`), each rounded up to sixteen bytes, so the sizes of the blocks
alone say where the next one will start (`top_eq_extent`).  `Arranged` is the invariant: it holds of the empty heap and
of what `allocate` returns, and an access never breaks it, since it changes neither base nor size.
-/
namespace Introspect

/-! ## Rounding up -/

/-- **Rounding up to sixteen** gives the next multiple where the sum has room for a whole step more. -/
theorem Address.alignUp_sixteen {a : Address} (h : a.toNat + 16 < 2 ^ 64) :
    a.alignUp Heap.blockAlign = .ok (.ofNat ((a.toNat + 15) / 16 * 16)) := alignUp_of_lt (k := 4) rfl h

theorem Address.alignUp_sixteen_fails {a : Address} (h : ¬ a.toNat + 16 < 2 ^ 64) :
    a.alignUp Heap.blockAlign = .error .additionOverflow := alignUp_of_le (k := 4) rfl (Nat.le_of_not_lt h)

namespace Heap

/-! ## The row of blocks -/

def outline (h : Heap) : List (Nat × Nat) := h.blocks.map fun b => (b.base.toNat, b.bytes.length)

def sizes (h : Heap) : Multiset Nat := (h.blocks.map (·.bytes.length) : List Nat)

def firstBase : Nat := 0x10000000

/-- The addresses that a block takes up: a block without bytes takes as many as one with sixteen. -/
def span (size : Nat) : Nat := (max size 1 + 15) / 16 * 16

def extent (sizes : Multiset Nat) : Nat := firstBase + (sizes.map span).sum

def top : List (Nat × Nat) → Nat
  | [] => firstBase
  | e :: es => top es + span e.2

def Packed : List (Nat × Nat) → Prop
  | [] => True
  | e :: es => e.1 = top es ∧ e.2 ≤ maxBlock ∧ Packed es

instance : ∀ es, Decidable (Packed es)
  | [] => .isTrue trivial
  | _ :: es =>
    have : Decidable (Packed es) := instDecidablePacked es
    inferInstanceAs (Decidable (_ ∧ _ ∧ _))

structure Arranged (h : Heap) : Prop where
  packed : Packed h.outline
  next : h.next.toNat = top h.outline

theorem le_span (size : Nat) : size ≤ span size := by unfold span; omega

theorem one_le_span (size : Nat) : 16 ≤ span size := by unfold span; omega

theorem max_le_span (size : Nat) : max size 1 ≤ span size := by unfold span; omega

theorem span_mod (size : Nat) : span size % 16 = 0 := by unfold span; omega

theorem top_mod : ∀ es : List (Nat × Nat), top es % 16 = 0
  | [] => rfl
  | e :: es => by
    have h1 := top_mod es
    have h2 := span_mod e.2
    simp only [top]
    omega

theorem firstBase_le_top : ∀ es : List (Nat × Nat), firstBase ≤ top es
  | [] => Nat.le_refl _
  | _ :: es => Nat.le_add_right_of_le (firstBase_le_top es)

theorem top_append (new old : List (Nat × Nat)) : top old ≤ top (new ++ old) := by
  induction new with
  | nil => exact Nat.le_refl _
  | cons e new ih => exact Nat.le_add_right_of_le ih

theorem top_le_of_suffix {old es : List (Nat × Nat)} (h : old <:+ es) : top old ≤ top es := by
  obtain ⟨new, rfl⟩ := h
  exact top_append new old

theorem top_eq_extent (h : Heap) : top h.outline = extent h.sizes := by
  simp only [outline, sizes, extent, Multiset.map_coe, Multiset.sum_coe]
  induction h.blocks with
  | nil => rfl
  | cons b bs ih =>
    simp only [List.map_cons, top, ih, List.sum_cons]
    omega

/-- **A block ends before the row does**, and is not below the first base. -/
theorem Packed.bounds {e : Nat × Nat} : ∀ {es : List (Nat × Nat)}, Packed es → e ∈ es →
    firstBase ≤ e.1 ∧ e.1 + span e.2 ≤ top es ∧ e.2 ≤ maxBlock
  | x :: es, h, he => by
    rcases List.mem_cons.1 he with rfl | he
    · exact ⟨h.1 ▸ firstBase_le_top es, by simp only [top, h.1, Nat.le_refl], h.2.1⟩
    · obtain ⟨h1, h2, h3⟩ := Packed.bounds h.2.2 he
      exact ⟨h1, Nat.le_add_right_of_le h2, h3⟩

/-- **Of two blocks one lies behind the other**, unless they are the same. -/
theorem Packed.apart {e f : Nat × Nat} : ∀ {es : List (Nat × Nat)}, Packed es → e ∈ es → f ∈ es →
    e = f ∨ e.1 + span e.2 ≤ f.1 ∨ f.1 + span f.2 ≤ e.1
  | x :: es, h, he, hf => by
    rcases List.mem_cons.1 he with rfl | he' <;> rcases List.mem_cons.1 hf with rfl | hf'
    · exact .inl rfl
    · exact .inr (.inr (h.1 ▸ (h.2.2.bounds hf').2.1))
    · exact .inr (.inl (h.1 ▸ (h.2.2.bounds he').2.1))
    · exact Packed.apart h.2.2 he' hf'

theorem Packed.base_mod {e : Nat × Nat} : ∀ {es : List (Nat × Nat)}, Packed es → e ∈ es → e.1 % 16 = 0
  | _ :: _, h, he => by
    rcases List.mem_cons.1 he with rfl | he
    · exact h.1 ▸ top_mod _
    · exact Packed.base_mod h.2.2 he

/-- **A block lies behind every older one.** -/
theorem Packed.pairwise : ∀ {es : List (Nat × Nat)}, Packed es → es.Pairwise fun e old => old.1 + span old.2 ≤ e.1
  | [], _ => .nil
  | _ :: _, h => .cons (fun _ hold => h.1 ▸ (h.2.2.bounds hold).2.1) (Packed.pairwise h.2.2)

/-- A block that is not among the old ones starts where those end, or later. -/
theorem Packed.base_of_new {new old : List (Nat × Nat)} {e : Nat × Nat} (h : Packed (new ++ old)) (he : e ∈ new) :
    top old ≤ e.1 := by
  induction new with
  | nil => cases he
  | cons x new ih =>
    rcases List.mem_cons.1 he with rfl | he
    · rw [h.1]
      exact top_append new old
    · exact ih h.2.2 he

theorem mem_outline {h : Heap} {b : Block} (hb : b ∈ h.blocks) : (b.base.toNat, b.bytes.length) ∈ h.outline :=
  List.mem_map.2 ⟨b, hb, rfl⟩

theorem exists_block {h : Heap} {e : Nat × Nat} (he : e ∈ h.outline) :
    ∃ b ∈ h.blocks, b.base.toNat = e.1 ∧ b.bytes.length = e.2 := by
  obtain ⟨b, hb, rfl⟩ := List.mem_map.1 he
  exact ⟨b, hb, rfl, rfl⟩

namespace Arranged

variable {h : Heap}

theorem empty : ({} : Heap).Arranged := ⟨trivial, by decide⟩

theorem top_lt (ha : h.Arranged) : top h.outline < 2 ^ 64 := ha.next ▸ h.next.toNat_lt

theorem bounds (ha : h.Arranged) {e : Nat × Nat} (he : e ∈ h.outline) :
    firstBase ≤ e.1 ∧ e.1 + span e.2 ≤ h.next.toNat ∧ e.2 ≤ maxBlock :=
  ha.next ▸ ha.packed.bounds he

theorem block_eq (ha : h.Arranged) {b c : Block} (hb : b ∈ h.blocks) (hc : c ∈ h.blocks)
    (hbc : b.base = c.base) : b = c := by
  -- two blocks at one base would be two entries of the outline at one base
  have hp := ha.packed
  unfold outline at hp
  generalize h.blocks = bs at hp hb hc
  induction bs with
  | nil => cases hb
  | cons x bs ih =>
    have hne : ∀ y ∈ bs, y.base ≠ x.base := fun y hy hyx => by
      have := (hp.2.2.bounds (List.mem_map.2 ⟨y, hy, rfl⟩)).2.1
      have h1 := hp.1
      have h2 := one_le_span y.bytes.length
      simp only [hyx] at this h1
      omega
    rcases List.mem_cons.1 hb with rfl | hb' <;> rcases List.mem_cons.1 hc with rfl | hc'
    · rfl
    · exact absurd hbc.symm (hne c hc')
    · exact absurd hbc (hne b hb')
    · exact ih hp.2.2 hb' hc'

end Arranged

/-! ## Allocating -/

theorem sizes_eq (h : Heap) : h.sizes = (h.outline.map Prod.snd : List Nat) := by
  simp only [sizes, outline, List.map_map, Function.comp_def]

/-- A new block lies behind all others, is zero, and takes its place at the head of the row. -/
theorem allocate_ok {h h' : Heap} {size : Nat} {a : Address} (ha : h.Arranged) (hx : h.allocate size = .ok (a, h')) :
    a = h.next ∧ h'.blocks = ⟨a, List.replicate size 0⟩ :: h.blocks ∧ h'.Arranged := by
  unfold allocate at hx
  cases hn : (h.next + max size 1).alignUp blockAlign with
  | error f => rw [hn] at hx; cases hx
  | ok next =>
    simp only [hn, bind, Except.bind] at hx
    split at hx
    · cases hx
    rename_i hmax
    split at hx
    · cases hx
    rename_i hroom
    simp only [Except.ok.injEq, Prod.mk.injEq] at hx
    obtain ⟨rfl, rfl⟩ := hx
    have hr : h.next.toNat + max size 1 < 2 ^ 64 := Nat.lt_of_not_le hroom
    have hsum : (h.next + max size 1).toNat = h.next.toNat + max size 1 := by
      rw [Address.toNat_add, Nat.mod_eq_of_lt hr]
    have h16 : (h.next + max size 1).toNat + 16 < 2 ^ 64 := by
      by_contra hc
      rw [Address.alignUp_sixteen_fails hc] at hn
      cases hn
    rw [Address.alignUp_sixteen h16, Except.ok.injEq] at hn
    refine ⟨rfl, rfl, ⟨?_, ?_⟩⟩
    · refine ⟨ha.next, ?_, ha.packed⟩
      simpa using Nat.le_of_not_lt hmax
    · have hm := top_mod h.outline
      have h1 := ha.next
      rw [hsum] at hn h16
      simp only [outline, List.map_cons, top, List.length_replicate, span, ← hn]
      change _ = top h.outline + _
      rw [Address.toNat_ofNat, Nat.mod_eq_of_lt (by omega)]
      omega

/-- The sizes of blocks that can all be in one heap. -/
def Room (sizes : Multiset Nat) : Prop := (∀ n ∈ sizes, n ≤ maxBlock) ∧ extent sizes + 16 < 2 ^ 64

theorem extent_mono {m n : Multiset Nat} (h : m ≤ n) : extent m ≤ extent n := by
  obtain ⟨more, rfl⟩ := Multiset.le_iff_exists_add.1 h
  rw [extent, extent, Multiset.map_add, Multiset.sum_add]
  omega

theorem Room.mono {m n : Multiset Nat} (h : Room n) (hmn : m ≤ n) : Room m := by
  have h1 := extent_mono hmn
  have h2 := h.2
  exact ⟨fun x hx => h.1 x (Multiset.mem_of_le hmn hx), by omega⟩

/-- **A block is handed out where there is room for it.** -/
theorem allocate_of_room {h : Heap} {size : Nat} (ha : h.Arranged) (hr : Room (size ::ₘ h.sizes)) :
    ∃ a h', h.allocate size = .ok (a, h') := by
  have hmax : ¬ maxBlock < size := Nat.not_lt.2 (hr.1 size (Multiset.mem_cons_self _ _))
  have htop := hr.2
  rw [extent, Multiset.map_cons, Multiset.sum_cons] at htop
  have hnext : h.next.toNat = firstBase + (h.sizes.map span).sum := ha.next.trans (top_eq_extent h)
  have hsp := max_le_span size
  have hsum : (h.next + max size 1).toNat = h.next.toNat + max size 1 := by
    rw [Address.toNat_add, Nat.mod_eq_of_lt (by omega)]
  have hroom : ¬ Text.wordLimit ≤ h.next.toNat + max size 1 := by
    simp only [Text.wordLimit]; omega
  unfold allocate
  rw [Address.alignUp_sixteen (by omega)]
  simp only [bind, Except.bind, if_neg hmax, if_neg hroom]
  exact ⟨_, _, rfl⟩

theorem no_room_of_allocate {h : Heap} {size : Nat} {f : Fault} (ha : h.Arranged) (hx : h.allocate size = .error f) :
    ¬ Room (size ::ₘ h.sizes) := fun hroom => by
  obtain ⟨a, h', hok⟩ := allocate_of_room ha hroom
  rw [hok] at hx
  cases hx

end Heap
end Introspect
