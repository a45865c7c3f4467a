import Introspect.Proofs.Action
import Introspect.Proofs.Heap.Bytes
/-!
# What a growing heap keeps

A heap only ever gains blocks and has bytes overwritten.  `Grows W h h'` says that `h'` came from `h` in this way and
that, of the bytes of `h`, only those at `W` were written; so whatever lay in `h` away from `W` reads the same in `h'`.
-/
namespace Introspect
namespace Heap

def Window (a n x : Nat) : Prop := a ≤ x ∧ x < a + n

def Nowhere (_ : Nat) : Prop := False

theorem Window.mono {a n b m x : Nat} (hx : Window b m x) (hab : a ≤ b) (hbm : b + m ≤ a + n) : Window a n x := by
  obtain ⟨h1, h2⟩ := hx
  exact ⟨by omega, by omega⟩

theorem Window.apart {a n b m x : Nat} (hx : Window b m x) (h : b + m ≤ a ∨ a + n ≤ b) : ¬ Window a n x := by
  rintro ⟨h1, h2⟩
  obtain ⟨h3, h4⟩ := hx
  omega

/-- Blocks that start at different addresses share none. -/
theorem Arranged.window_apart {h : Heap} (ha : h.Arranged) {e f : Nat × Nat} (he : e ∈ h.outline) (hf : f ∈ h.outline)
    (hne : e.1 ≠ f.1) (x : Nat) (hx : Window e.1 e.2 x) : ¬ Window f.1 f.2 x := by
  have h1 := le_span e.2
  have h2 := le_span f.2
  rcases ha.packed.apart he hf with rfl | h | h
  · exact (hne rfl).elim
  · exact hx.apart (.inl (by omega))
  · exact hx.apart (.inr (by omega))

theorem bytesAt_zero {h : Heap} {a n : Nat} (hz : ∀ x, Window a n x → h.byteAt x = 0) :
    h.bytesAt a n = List.replicate n 0 := by
  refine List.eq_replicate_iff.2 ⟨by rw [bytesAt, List.length_map, List.length_range], fun b hb => ?_⟩
  obtain ⟨i, hi, rfl⟩ := List.mem_map.1 hb
  have := List.mem_range.1 hi
  exact hz _ ⟨by omega, by omega⟩

structure Grows (W : Nat → Prop) (h h' : Heap) : Prop where
  arranged : h'.Arranged
  outline : h.outline <:+ h'.outline
  bytes : ∀ x, x < h.next.toNat → ¬ W x → h'.byteAt x = h.byteAt x

namespace Grows

variable {W W' : Nat → Prop} {h h' h'' : Heap}

theorem refl (ha : h.Arranged) : Grows W h h := ⟨ha, List.suffix_rfl, fun _ _ _ => rfl⟩

theorem next_le (ha : h.Arranged) (g : Grows W h h') : h.next.toNat ≤ h'.next.toNat := by
  rw [ha.next, g.arranged.next]
  exact top_le_of_suffix g.outline

/-- The second part of a growth may also write what the first part added. -/
theorem trans (ha : h.Arranged) (g : Grows W h h') (g' : Grows W' h' h'')
    (hw : ∀ x, x < h.next.toNat → W' x → W x) : Grows W h h'' where
  arranged := g'.arranged
  outline := g.outline.trans g'.outline
  bytes x hx hn := by
    rw [g'.bytes x (Nat.lt_of_lt_of_le hx (g.next_le ha)) fun h => hn (hw x hx h), g.bytes x hx hn]

theorem mono (g : Grows W h h') (hw : ∀ x, x < h.next.toNat → W x → W' x) : Grows W' h h' :=
  ⟨g.arranged, g.outline, fun x hx hn => g.bytes x hx fun h => hn (hw x hx h)⟩

theorem inside (g : Grows W h h') {a n : Nat} (hi : h.Inside a n) : h'.Inside a n := by
  obtain ⟨e, he, h1⟩ := hi
  exact ⟨e, g.outline.subset he, h1⟩

theorem base_of_new (ha : h.Arranged) (g : Grows W h h') {e : Nat × Nat} (he : e ∈ h'.outline) (hn : e ∉ h.outline) :
    h.next.toNat ≤ e.1 := by
  obtain ⟨new, hs⟩ := g.outline
  have hp := g.arranged.packed
  rw [← hs] at he hp
  rw [ha.next]
  exact hp.base_of_new ((List.mem_append.1 he).resolve_right hn)

theorem old_of_base (ha : h.Arranged) (g : Grows W h h') {e : Nat × Nat} (he : e ∈ h'.outline)
    (hb : e.1 < h.next.toNat) : e ∈ h.outline := by
  by_contra hn
  exact absurd (g.base_of_new ha he hn) (Nat.not_le.2 hb)

theorem inside_old (ha : h.Arranged) (g : Grows W h h') {a n : Nat} (hlt : a < h.next.toNat) (hi : h'.Inside a n) :
    h.Inside a n := by
  obtain ⟨e, he, h1, h2⟩ := hi
  exact ⟨e, g.old_of_base ha he (by omega), h1, h2⟩

/-- **What was inside reads as before**, away from what was written. -/
theorem read_eq (ha : h.Arranged) (g : Grows W h h') {a : Address} {n : Nat} (hi : h.Inside a.toNat n)
    (hw : ∀ x, Window a.toNat n x → ¬ W x) : h'.read a n = h.read a n := by
  rw [read_inside ha hi, read_inside g.arranged (g.inside hi)]
  refine congrArg _ (bytesAt_congr fun i hin => g.bytes _ ?_ (hw _ ⟨by omega, by omega⟩))
  obtain ⟨e, he, h1, h2⟩ := hi
  have h3 := (ha.bounds he).2.1
  have h4 := le_span e.2
  omega

/-- **Below the old end every read ends as before** when nothing there was written: a good one with the same bytes, a
bad one with the same failure. -/
theorem read_old (ha : h.Arranged) (g : Grows Nowhere h h') {a : Address} {n : Nat}
    (hi : h.Inside a.toNat n ∨ a.toNat < h.next.toNat) : h'.read a n = h.read a n := by
  by_cases hin : h.Inside a.toNat n
  · exact g.read_eq ha hin fun _ _ h => h
  · rw [read_outside hin, read_outside fun hi' => hin (g.inside_old ha (hi.resolve_left hin) hi')]

theorem blocks (ha : h.Arranged) (g : Grows Nowhere h h') : h.blocks <:+ h'.blocks := by
  obtain ⟨new, hs⟩ := g.outline
  have hlen : h'.blocks.length = new.length + h.blocks.length := by
    have := congrArg List.length hs
    simpa [Heap.outline] using this.symm
  have hold : h'.blocks.drop new.length = h.blocks := by
    refine List.ext_getElem (by rw [List.length_drop]; omega) fun i h1 h2 => ?_
    -- the two blocks have one place in the outline, so they start and end alike; their bytes are the bytes of the heaps
    have hi : new.length + i < h'.blocks.length := by rw [List.length_drop] at h1; omega
    have he : ((h'.blocks[new.length + i]).base.toNat, (h'.blocks[new.length + i]).bytes.length)
        = (h.blocks[i].base.toNat, h.blocks[i].bytes.length) := by
      have hget := congrArg (·[new.length + i]?) hs
      simp only [List.getElem?_append_right (Nat.le_add_right _ _), Nat.add_sub_cancel_left, Heap.outline,
        List.getElem?_map, List.getElem?_eq_getElem hi, List.getElem?_eq_getElem h2, Option.map_some,
        Option.some.injEq] at hget
      exact hget.symm
    obtain ⟨hb, hl⟩ := Prod.mk.inj he
    rw [List.getElem_drop]
    generalize hc : h'.blocks[new.length + i] = c at hb hl
    generalize hd : h.blocks[i] = d at hb hl
    have hcm : c ∈ h'.blocks := hc ▸ List.getElem_mem hi
    have hdm : d ∈ h.blocks := hd ▸ List.getElem_mem h2
    have hbytes : c.bytes = d.bytes := List.ext_getElem hl fun k hk1 hk2 => by
      rw [← g.arranged.byteAt_block hcm hk1, ← ha.byteAt_block hdm hk2, hb]
      refine g.bytes _ ?_ fun h => h
      have h3 := (ha.bounds (mem_outline hdm)).2.1
      have h4 := le_span d.bytes.length
      simp only at h3
      omega
    cases c; cases d
    simp only at hb hbytes
    rw [Address.ext hb, hbytes]
  exact hold ▸ List.drop_suffix _ _

end Grows

/-! ## Each access -/

variable {h h' : Heap}

theorem grows_write {a : Address} {bs : List UInt8} (ha : h.Arranged) (hw : h.write a bs = .ok h') :
    Grows (Window a.toNat bs.length) h h' := by
  by_cases hi : h.Inside a.toNat bs.length
  · obtain ⟨k, hk, ho, hn, hb⟩ := write_inside ha hi
    obtain rfl := Except.ok.inj (hk.symm.trans hw)
    exact ⟨ha.of_outline ho hn, ho ▸ List.suffix_rfl, fun x _ hx => by rw [hb]; exact if_neg hx⟩
  · rw [write_outside hi] at hw
    cases hw

theorem outline_write {a : Address} {bs : List UInt8} (ha : h.Arranged) (hw : h.write a bs = .ok h') :
    h'.outline = h.outline := by
  by_cases hi : h.Inside a.toNat bs.length
  · obtain ⟨k, hk, ho, -⟩ := write_inside ha hi
    exact Except.ok.inj (hk.symm.trans hw) ▸ ho
  · rw [write_outside hi] at hw
    cases hw

theorem grows_allocate {a : Address} {size : Nat} (ha : h.Arranged) (hx : h.allocate size = .ok (a, h')) :
    Grows Nowhere h h' := by
  obtain ⟨-, ha', ho, hb⟩ := allocate_spec ha hx
  exact ⟨ha', ho ▸ List.suffix_cons _ _, fun x hx _ => by rw [hb, if_pos hx]⟩

theorem read_write {a : Address} {bs : List UInt8} (ha : h.Arranged) (hw : h.write a bs = .ok h') :
    h'.read a bs.length = .ok bs := by
  by_cases hi : h.Inside a.toNat bs.length
  · obtain ⟨k, hk, ho, hn, hb⟩ := write_inside ha hi
    obtain rfl := Except.ok.inj (hk.symm.trans hw)
    rw [read_inside (ha.of_outline ho hn) ((inside_congr ho).2 hi)]
    refine congrArg _ (List.ext_getElem (by simp [bytesAt]) fun i h1 h2 => ?_)
    simp only [bytesAt, List.getElem_map, List.getElem_range, hb]
    rw [if_pos ⟨by omega, by omega⟩, Nat.add_sub_cancel_left, List.getD_eq_getElem?_getD,
      List.getElem?_eq_getElem h2, Option.getD_some]
  · rw [write_outside hi] at hw
    cases hw

theorem write_of_inside {a : Address} {bs : List UInt8} (ha : h.Arranged) (hi : h.Inside a.toNat bs.length) :
    ∃ h', h.write a bs = .ok h' := by
  obtain ⟨h', hw, -⟩ := write_inside ha hi
  exact ⟨h', hw⟩

end Heap
end Introspect
