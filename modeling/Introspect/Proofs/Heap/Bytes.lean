import Introspect.Proofs.Heap.Arena
/-!
# The heap as bytes

An arranged heap is a partial memory: a byte at every address that lies in a block.  An access is good exactly when its
bytes lie in one block (`Inside`), a read gives the bytes that stand there, and a write changes those bytes and no
others.  From here on nothing looks at how a block is found.
-/
namespace Introspect
namespace Heap

def Inside (h : Heap) (a n : Nat) : Prop := ∃ e ∈ h.outline, e.1 ≤ a ∧ a + n ≤ e.1 + e.2

def byteAt (h : Heap) (x : Nat) : UInt8 :=
  match h.blocks.find? (·.base.toNat ≤ x) with
  | some b => b.bytes.getD (x - b.base.toNat) 0
  | none => 0

def bytesAt (h : Heap) (a n : Nat) : List UInt8 := (List.range n).map fun i => h.byteAt (a + i)

theorem bytesAt_congr {h h' : Heap} {a b n : Nat} (he : ∀ i < n, h'.byteAt (b + i) = h.byteAt (a + i)) :
    h'.bytesAt b n = h.bytesAt a n :=
  List.map_congr_left fun i hi => he i (List.mem_range.1 hi)

theorem Inside.mono {h : Heap} {a n b m : Nat} (hi : h.Inside a n) (hab : a ≤ b) (hbm : b + m ≤ a + n) :
    h.Inside b m := by
  obtain ⟨e, he, h1, h2⟩ := hi
  exact ⟨e, he, by omega, by omega⟩

theorem inside_congr {h h' : Heap} (ho : h'.outline = h.outline) {a n : Nat} : h'.Inside a n ↔ h.Inside a n := by
  simp only [Inside, ho]

/-! ## Finding the block -/

theorem find?_inside {a n : Nat} : ∀ {bs : List Block}, Packed (bs.map fun b => (b.base.toNat, b.bytes.length)) →
    ∀ {b : Block}, b ∈ bs → b.base.toNat ≤ a → a + n ≤ b.base.toNat + b.bytes.length →
    ∃ c ∈ bs, bs.find? (·.base.toNat ≤ a) = some c ∧ c.base.toNat ≤ a ∧ a + n ≤ c.base.toNat + c.bytes.length
  | x :: bs, hp, b, hb, h1, h2 => by
    rw [List.find?_cons]
    by_cases hx : x.base.toNat ≤ a
    · rw [decide_eq_true hx]
      refine ⟨x, List.mem_cons_self, rfl, hx, ?_⟩
      rcases List.mem_cons.1 hb with rfl | hb
      · exact h2
      · -- an older block ends before this one starts, so no byte is asked for
        have h3 := (hp.2.2.bounds (List.mem_map.2 ⟨b, hb, rfl⟩)).2.1
        have h4 := hp.1
        have h5 := le_span b.bytes.length
        simp only at h3 h4
        omega
    · rw [decide_eq_false hx]
      rcases List.mem_cons.1 hb with rfl | hb
      · exact absurd h1 hx
      · obtain ⟨c, hc, h3⟩ := find?_inside hp.2.2 hb h1 h2
        exact ⟨c, List.mem_cons_of_mem x hc, h3⟩

namespace Arranged

variable {h : Heap}

theorem find?_block (ha : h.Arranged) {b : Block} (hb : b ∈ h.blocks) {x : Nat} (h1 : b.base.toNat ≤ x)
    (h2 : x < b.base.toNat + b.bytes.length) : h.blocks.find? (·.base.toNat ≤ x) = some b := by
  obtain ⟨c, hc, hf, h3, h4⟩ := find?_inside (n := 1) ha.packed hb h1 h2
  have h5 := le_span b.bytes.length
  have h6 := le_span c.bytes.length
  rcases ha.packed.apart (mem_outline hb) (mem_outline hc) with h | h | h
  · rw [hf, ha.block_eq hc hb (Address.ext (Prod.mk.inj h).1.symm)]
  · simp only at h
    omega
  · simp only at h
    omega

theorem byteAt_block (ha : h.Arranged) {b : Block} (hb : b ∈ h.blocks) {i : Nat} (hi : i < b.bytes.length) :
    h.byteAt (b.base.toNat + i) = b.bytes[i] := by
  unfold byteAt
  rw [ha.find?_block hb (Nat.le_add_right _ _) (Nat.add_lt_add_left hi _)]
  simp only [Nat.add_sub_cancel_left, List.getD_eq_getElem?_getD, List.getElem?_eq_getElem hi, Option.getD_some]

end Arranged

theorem locate_eq (h : Heap) (a : Address) (n : Nat) :
    h.locate a n = match h.blocks.find? (·.base.toNat ≤ a.toNat) with
      | some b => if a.toNat - b.base.toNat + n ≤ b.bytes.length then .ok (b, a.toNat - b.base.toNat)
        else .error (.invalidAddress a n)
      | none => .error (.invalidAddress a n) := rfl

/-- **An access inside a block is located**, in a block that has all its bytes. -/
theorem locate_inside {h : Heap} {a : Address} {n : Nat} (ha : h.Arranged) (hi : h.Inside a.toNat n) :
    ∃ b ∈ h.blocks, h.locate a n = .ok (b, a.toNat - b.base.toNat) ∧ b.base.toNat ≤ a.toNat ∧
      a.toNat + n ≤ b.base.toNat + b.bytes.length := by
  obtain ⟨e, he, h1, h2⟩ := hi
  obtain ⟨b, hb, hb1, hb2⟩ := exists_block he
  obtain ⟨c, hc, hf, h3, h4⟩ := find?_inside ha.packed hb (hb1 ▸ h1) (by rw [hb1, hb2]; exact h2)
  refine ⟨c, hc, ?_, h3, h4⟩
  rw [locate_eq, hf]
  exact if_pos (by omega)

/-- **Any other access is refused.** -/
theorem locate_outside {h : Heap} {a : Address} {n : Nat} (hi : ¬ h.Inside a.toNat n) :
    h.locate a n = .error (.invalidAddress a n) := by
  rw [locate_eq]
  cases hf : h.blocks.find? (·.base.toNat ≤ a.toNat) with
  | none => rfl
  | some b =>
    have h1 : b.base.toNat ≤ a.toNat := by simpa using List.find?_some hf
    refine if_neg fun h2 => hi ⟨_, mem_outline (List.mem_of_find?_eq_some hf), h1, ?_⟩
    simp only
    omega

/-! ## Reading -/

theorem read_inside {h : Heap} {a : Address} {n : Nat} (ha : h.Arranged) (hi : h.Inside a.toNat n) :
    h.read a n = .ok (h.bytesAt a.toNat n) := by
  obtain ⟨b, hb, hl, h1, h2⟩ := locate_inside ha hi
  simp only [read, hl, bind, Except.bind, Except.ok.injEq]
  refine List.ext_getElem (by simp [bytesAt]; omega) fun i hi1 hi2 => ?_
  have hi3 : i < n := by simpa [bytesAt] using hi2
  have hx : a.toNat + i = b.base.toNat + (a.toNat - b.base.toNat + i) := by omega
  simp only [bytesAt, List.getElem_take, List.getElem_drop, List.getElem_map, List.getElem_range]
  rw [hx, ha.byteAt_block hb (by omega)]

theorem read_outside {h : Heap} {a : Address} {n : Nat} (hi : ¬ h.Inside a.toNat n) :
    h.read a n = .error (.invalidAddress a n) := by
  simp only [read, locate_outside hi, bind, Except.bind]

theorem inside_of_read {h : Heap} {a : Address} {n : Nat} {bs : List UInt8} (hr : h.read a n = .ok bs) :
    h.Inside a.toNat n := by
  by_contra hi
  rw [read_outside hi] at hr
  cases hr

/-! ## Writing -/

theorem getD_overwrite {old new : List UInt8} {k : Nat} (hk : k + new.length ≤ old.length) (i : Nat) :
    (overwrite old k new).getD i 0 = if k ≤ i ∧ i < k + new.length then new.getD (i - k) 0 else old.getD i 0 := by
  have hlen : (old.take k).length = k := by simp; omega
  have hlen' : (old.take k ++ new).length = k + new.length := by simp; omega
  unfold overwrite
  simp only [List.getD_eq_getElem?_getD]
  by_cases h1 : i < k
  · rw [if_neg (by omega), List.getElem?_append_left (by omega), List.getElem?_append_left (by omega),
      List.getElem?_take_of_lt h1]
  by_cases h2 : i < k + new.length
  · rw [if_pos ⟨by omega, h2⟩, List.getElem?_append_left (by omega), List.getElem?_append_right (by omega), hlen]
  · rw [if_neg (by omega), List.getElem?_append_right (by omega), hlen', List.getElem?_drop]
    congr 2
    omega

theorem length_overwrite {old new : List UInt8} {k : Nat} (hk : k + new.length ≤ old.length) :
    (overwrite old k new).length = old.length := by
  simp [overwrite]
  omega

/-- **A write inside a block changes the bytes that it names**, and neither the blocks nor any other byte. -/
theorem write_inside {h : Heap} {a : Address} {bs : List UInt8} (ha : h.Arranged) (hi : h.Inside a.toNat bs.length) :
    ∃ h', h.write a bs = .ok h' ∧ h'.outline = h.outline ∧ h'.next = h.next ∧
      ∀ x, h'.byteAt x = if a.toNat ≤ x ∧ x < a.toNat + bs.length then bs.getD (x - a.toNat) 0 else h.byteAt x := by
  obtain ⟨b, hb, hl, h1, h2⟩ := locate_inside ha hi
  have hk : a.toNat - b.base.toNat + bs.length ≤ b.bytes.length := by omega
  let put := fun c : Block => if c.base = b.base then
    { c with bytes := overwrite c.bytes (a.toNat - b.base.toNat) bs } else c
  have hbase : ∀ c, (put c).base = c.base := fun c => by
    by_cases hc : c.base = b.base <;> simp [put, hc]
  refine ⟨{ h with blocks := h.blocks.map put }, by simp only [write, hl, bind, Except.bind]; rfl, ?_, rfl, fun x => ?_⟩
  · simp only [outline, List.map_map]
    refine List.map_congr_left fun c hc => Prod.ext (congrArg Address.toNat (hbase c)) ?_
    by_cases hcb : c.base = b.base
    · obtain rfl := ha.block_eq hc hb hcb
      simp [put, length_overwrite hk]
    · simp [put, hcb]
  · simp only [byteAt, List.find?_map, Function.comp_def, hbase]
    by_cases hx : a.toNat ≤ x ∧ x < a.toNat + bs.length
    · rw [if_pos hx, ha.find?_block hb (by omega) (by omega)]
      simp only [Option.map_some, put, if_true]
      rw [getD_overwrite hk, if_pos (by omega)]
      congr 1
      omega
    · rw [if_neg hx]
      cases hf : h.blocks.find? (·.base.toNat ≤ x) with
      | none => rfl
      | some c =>
        have hc1 : c.base.toNat ≤ x := by simpa using List.find?_some hf
        simp only [Option.map_some, hbase]
        by_cases hcb : c.base = b.base
        · simp only [put, if_pos hcb]
          obtain rfl := ha.block_eq (List.mem_of_find?_eq_some hf) hb hcb
          rw [getD_overwrite hk, if_neg (by omega)]
        · simp only [put, if_neg hcb]

theorem write_outside {h : Heap} {a : Address} {bs : List UInt8} (hi : ¬ h.Inside a.toNat bs.length) :
    h.write a bs = .error (.invalidAddress a bs.length) := by
  simp only [write, locate_outside hi, bind, Except.bind]

theorem Arranged.of_outline {h h' : Heap} (ha : h.Arranged) (ho : h'.outline = h.outline) (hn : h'.next = h.next) :
    h'.Arranged :=
  ⟨ho ▸ ha.packed, by rw [hn, ho]; exact ha.next⟩

theorem Arranged.write {h h' : Heap} {a : Address} {bs : List UInt8} (ha : h.Arranged) (hw : h.write a bs = .ok h') :
    h'.Arranged := by
  by_cases hi : h.Inside a.toNat bs.length
  · obtain ⟨k, hk, ho, hn, -⟩ := write_inside ha hi
    rw [hk, Except.ok.injEq] at hw
    exact hw ▸ ha.of_outline ho hn
  · rw [write_outside hi] at hw
    cases hw

/-! ## Allocating -/

/-- **A new block is behind all others and zero**, and the bytes of the others stay. -/
theorem allocate_spec {h h' : Heap} {size : Nat} {a : Address} (ha : h.Arranged) (hx : h.allocate size = .ok (a, h')) :
    a = h.next ∧ h'.Arranged ∧ h'.outline = (a.toNat, size) :: h.outline ∧
      ∀ x, h'.byteAt x = if x < h.next.toNat then h.byteAt x else 0 := by
  obtain ⟨rfl, hb, ha'⟩ := allocate_ok ha hx
  refine ⟨rfl, ha', by simp [outline, hb], fun x => ?_⟩
  simp only [byteAt, hb, List.find?_cons]
  by_cases hlt : x < h.next.toNat
  · rw [if_pos hlt, decide_eq_false (Nat.not_le.2 hlt)]
  · rw [if_neg hlt, decide_eq_true (Nat.not_lt.1 hlt)]
    simp [List.getD_eq_getElem?_getD, List.getElem?_replicate]
    split <;> rfl

end Heap
end Introspect
