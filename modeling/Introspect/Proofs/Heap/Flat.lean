import Introspect.Proofs.Heap.Words
/-!
# The heap is a flat memory

A flat memory has no row of blocks to search: it knows where its blocks are, and at an address it holds a byte or none.
An access is good there if its bytes lie in one block, and no rule says which block that is.  `Traces h m` says that `h`
and `m` came out of the same allocations, writes and copies, each done on the heap by the heap's own means and on the
memory by `add` and `put` alone; and then the two cannot be told apart.
-/
namespace Introspect

@[ext] structure Memory where
  /-- Where each block starts and how long it is, the newest first. -/
  blocks : List (Nat × Nat) := []
  byte : Nat → Option UInt8 := fun _ => none

namespace Memory

def Good (m : Memory) (a n : Nat) : Prop := ∃ e ∈ m.blocks, e.1 ≤ a ∧ a + n ≤ e.1 + e.2

instance (m : Memory) (a n : Nat) : Decidable (m.Good a n) :=
  inferInstanceAs (Decidable (∃ e ∈ m.blocks, e.1 ≤ a ∧ a + n ≤ e.1 + e.2))

def bytes (m : Memory) (a n : Nat) : List UInt8 := (List.range n).filterMap fun i => m.byte (a + i)

def add (m : Memory) (a size : Nat) : Memory where
  blocks := (a, size) :: m.blocks
  byte x := if a ≤ x ∧ x < a + size then some 0 else m.byte x

def put (m : Memory) (a : Nat) (bs : List UInt8) : Memory where
  blocks := m.blocks
  byte x := if a ≤ x ∧ x < a + bs.length then bs[x - a]? else m.byte x

/-- Every block ends before the ones that are newer, and a block without bytes takes up a place as well. -/
def Apart (m : Memory) : Prop := m.blocks.Pairwise fun new old => old.1 + max old.2 1 ≤ new.1

end Memory

namespace Heap

/-- What lies on the heap: the byte of an address is looked up in whichever block has one. -/
def flat (h : Heap) : Memory where
  blocks := h.outline
  byte x := h.blocks.findSome? fun b => if b.base.toNat ≤ x then b.bytes[x - b.base.toNat]? else none

inductive Traces : Heap → Memory → Prop where
  | empty : Traces {} {}
  | allocate {h h' : Heap} {m : Memory} {size : Nat} {a : Address} (t : Traces h m)
    (done : h.allocate size = .ok (a, h')) : Traces h' (m.add a.toNat size)
  | write {h h' : Heap} {m : Memory} {a : Address} {bs : List UInt8} (t : Traces h m) (done : h.write a bs = .ok h') :
    Traces h' (m.put a.toNat bs)
  | copy {h h' : Heap} {m : Memory} {source target : Address} {n : Nat} (t : Traces h m)
    (done : h.copy source target n = .ok h') :
    Traces h' (if n = 0 then m else m.put target.toNat (m.bytes source.toNat n))

/-! ## The bytes of an arranged heap -/

variable {h h' : Heap}

instance (h : Heap) (a n : Nat) : Decidable (h.Inside a n) := inferInstanceAs (Decidable (h.flat.Good a n))

theorem inside_one {x : Nat} : h.Inside x 1 ↔ ∃ b ∈ h.blocks, b.base.toNat ≤ x ∧ x < b.base.toNat + b.bytes.length := by
  constructor
  · rintro ⟨e, he, h1, h2⟩
    obtain ⟨b, hb, hb1, hb2⟩ := exists_block he
    exact ⟨b, hb, by omega, by omega⟩
  · rintro ⟨b, hb, h1, h2⟩
    exact ⟨_, mem_outline hb, h1, h2⟩

theorem flat_byte (ha : h.Arranged) (x : Nat) : h.flat.byte x = if h.Inside x 1 then some (h.byteAt x) else none := by
  show List.findSome? _ _ = _
  cases hf : h.blocks.findSome? fun b => if b.base.toNat ≤ x then b.bytes[x - b.base.toNat]? else none with
  | none =>
    refine (if_neg fun hi => ?_).symm
    obtain ⟨b, hb, h1, h2⟩ := inside_one.1 hi
    have := List.findSome?_eq_none_iff.1 hf b hb
    rw [if_pos h1, List.getElem?_eq_none_iff] at this
    omega
  | some v =>
    obtain ⟨b, hb, hv⟩ := List.exists_of_findSome?_eq_some hf
    by_cases h1 : b.base.toNat ≤ x
    · rw [if_pos h1] at hv
      obtain ⟨hlt, rfl⟩ := List.getElem?_eq_some_iff.1 hv
      rw [if_pos (inside_one.2 ⟨b, hb, h1, by omega⟩), ← ha.byteAt_block hb hlt, Nat.add_sub_cancel' h1]
    · rw [if_neg h1] at hv
      cases hv

theorem flat_bytes (ha : h.Arranged) {a n : Nat} (hi : h.Inside a n) : h.flat.bytes a n = h.bytesAt a n := by
  have hb : ∀ i ∈ List.range n, h.flat.byte (a + i) = some (h.byteAt (a + i)) := fun i hin => by
    have := List.mem_range.1 hin
    rw [flat_byte ha, if_pos (hi.mono (by omega) (by omega))]
  rw [Memory.bytes, bytesAt, List.filterMap_congr hb, List.filterMap_eq_map']

theorem Packed.apart_max {es : List (Nat × Nat)} (h : Packed es) :
    es.Pairwise fun new old => old.1 + max old.2 1 ≤ new.1 :=
  h.pairwise.imp fun {_ old} hle => Nat.le_trans (Nat.add_le_add_left (max_le_span old.2) _) hle

/-! ## Each operation -/

theorem flat_allocate {size : Nat} {a : Address} (ha : h.Arranged) (hx : h.allocate size = .ok (a, h')) :
    h'.flat = h.flat.add a.toNat size := by
  obtain ⟨rfl, ha', ho, hb⟩ := allocate_spec ha hx
  have hin : ∀ x, h'.Inside x 1 ↔ (h.next.toNat ≤ x ∧ x < h.next.toNat + size) ∨ h.Inside x 1 := fun x => by
    simp only [Inside, ho, List.exists_mem_cons_iff, Nat.succ_le_iff]
  refine Memory.ext ho (funext fun x => ?_)
  show h'.flat.byte x = if _ then _ else h.flat.byte x
  rw [flat_byte ha', flat_byte ha, hb]
  by_cases hnew : h.next.toNat ≤ x ∧ x < h.next.toNat + size
  · rw [if_pos hnew, if_pos ((hin x).2 (.inl hnew)), if_neg (by omega)]
  · rw [if_neg hnew]
    by_cases hold : h.Inside x 1
    · have := ha.inside_le_next hold
      rw [if_pos hold, if_pos ((hin x).2 (.inr hold)), if_pos (by omega)]
    · rw [if_neg hold, if_neg fun hi => ((hin x).1 hi).elim hnew hold]

theorem flat_write {a : Address} {bs : List UInt8} (ha : h.Arranged) (hw : h.write a bs = .ok h') :
    h'.flat = h.flat.put a.toNat bs := by
  by_cases hi : h.Inside a.toNat bs.length
  · obtain ⟨k, hk, ho, hn, hb⟩ := write_inside ha hi
    obtain rfl := Except.ok.inj (hk.symm.trans hw)
    refine Memory.ext ho (funext fun x => ?_)
    show k.flat.byte x = if _ then _ else h.flat.byte x
    rw [flat_byte (ha.of_outline ho hn), flat_byte ha, hb]
    by_cases hx : a.toNat ≤ x ∧ x < a.toNat + bs.length
    · rw [if_pos hx, if_pos hx, if_pos ((inside_congr ho).2 (hi.mono (by omega) (by omega))),
        List.getD_eq_getElem?_getD, List.getElem?_eq_getElem (by omega), Option.getD_some]
    · rw [if_neg hx, if_neg hx]
      exact if_congr (inside_congr ho) rfl rfl
  · rw [write_outside hi] at hw
    cases hw

/-- A copy is a write of what the source held before it, even where the target runs into the source. -/
theorem copy_eq_write (ha : h.Arranged) {source target : Address} {n : Nat} (hn : n ≠ 0)
    (hs : h.flat.Good source.toNat n) : h.copy source target n = h.write target (h.flat.bytes source.toNat n) := by
  unfold copy
  rw [if_neg hn, read_inside ha hs, flat_bytes ha hs]
  rfl

theorem length_bytes (ha : h.Arranged) {a n : Nat} (hi : h.flat.Good a n) : (h.flat.bytes a n).length = n := by
  rw [flat_bytes ha hi, bytesAt, List.length_map, List.length_range]

/-- **The memory of a trace is what lies on its heap.** -/
theorem Traces.flat_eq {m : Memory} (t : Traces h m) : h.Arranged ∧ h.flat = m := by
  induction t with
  | empty => exact ⟨.empty, rfl⟩
  | allocate _ done ih =>
    obtain ⟨ha, rfl⟩ := ih
    exact ⟨(allocate_spec ha done).2.1, flat_allocate ha done⟩
  | write _ done ih =>
    obtain ⟨ha, rfl⟩ := ih
    exact ⟨ha.write done, flat_write ha done⟩
  | @copy h h' m source target n _ done ih =>
    obtain ⟨ha, rfl⟩ := ih
    by_cases hn : n = 0
    · rw [if_pos hn]
      rw [Heap.copy, if_pos hn] at done
      exact Except.ok.inj done ▸ ⟨ha, rfl⟩
    · rw [if_neg hn]
      by_cases hs : h.Inside source.toNat n
      · rw [copy_eq_write ha hn hs] at done
        exact ⟨ha.write done, flat_write ha done⟩
      · rw [copy_outside hn hs] at done
        cases done

/-- **The heap refines the flat memory.**  Whatever was allocated, written and copied, the blocks are apart; an access
is good on the heap exactly if its bytes lie in one block of the memory, and it reads what the memory holds; and every
good write or copy puts its bytes into the memory and leaves all other bytes as they were. -/
theorem refines_flat {m : Memory} (t : Traces h m) :
    h.flat = m ∧ m.Apart ∧ (∀ x, (m.byte x).isSome = true ↔ m.Good x 1) ∧
    (∀ a n, h.read a n = if m.Good a.toNat n then .ok (m.bytes a.toNat n) else .error (.invalidAddress a n)) ∧
    (∀ a bs, if m.Good a.toNat bs.length then ∃ h', h.write a bs = .ok h' ∧ h'.flat = m.put a.toNat bs
      else h.write a bs = .error (.invalidAddress a bs.length)) ∧
    ∀ source target n, n ≠ 0 →
      if m.Good source.toNat n then
        if m.Good target.toNat n then
          ∃ h', h.copy source target n = .ok h' ∧ h'.flat = m.put target.toNat (m.bytes source.toNat n)
        else h.copy source target n = .error (.invalidAddress target n)
      else h.copy source target n = .error (.invalidAddress source n) := by
  obtain ⟨ha, rfl⟩ := t.flat_eq
  have hwrite : ∀ a bs, if h.flat.Good a.toNat bs.length then
      ∃ h', h.write a bs = .ok h' ∧ h'.flat = h.flat.put a.toNat bs
      else h.write a bs = .error (.invalidAddress a bs.length) := fun a bs => by
    by_cases hg : h.flat.Good a.toNat bs.length
    · rw [if_pos hg]
      obtain ⟨h', hw⟩ := write_of_inside ha hg
      exact ⟨h', hw, flat_write ha hw⟩
    · rw [if_neg hg]
      exact write_outside hg
  refine ⟨rfl, ha.packed.apart_max, fun x => ?_, fun a n => ?_, hwrite, fun source target n hn => ?_⟩
  · rw [flat_byte ha]
    by_cases hi : h.Inside x 1
    · rw [if_pos hi]
      exact iff_of_true rfl hi
    · rw [if_neg hi]
      exact iff_of_false (by decide) hi
  · by_cases hg : h.flat.Good a.toNat n
    · rw [if_pos hg, flat_bytes ha hg]
      exact read_inside ha hg
    · rw [if_neg hg]
      exact read_outside hg
  · by_cases hs : h.flat.Good source.toNat n
    · rw [if_pos hs, copy_eq_write ha hn hs]
      have := hwrite target (h.flat.bytes source.toNat n)
      rwa [length_bytes ha hs] at this
    · rw [if_neg hs]
      exact copy_outside hn hs

/-- An empty block between two others, and a word that was copied one byte up over itself. -/
def shifted : Heap where
  blocks := [⟨.ofNat 0x10000020, [9, 0]⟩, ⟨.ofNat 0x10000010, []⟩, ⟨.ofNat 0x10000000, [1, 1, 2, 3]⟩]
  next := .ofNat 0x10000030

/-- Right behind its last byte a block can still be read for no bytes, and for no more. -/
theorem refines_flat_shifted : ∃ m, Traces shifted m ∧ m.Apart ∧
    m.bytes 0x10000000 4 = [1, 1, 2, 3] ∧
    shifted.read (.ofNat 0x10000001) 3 = .ok [1, 2, 3] ∧ shifted.read (.ofNat 0x10000004) 0 = .ok [] ∧
    shifted.read (.ofNat 0x10000004) 1 = .error (.invalidAddress (.ofNat 0x10000004) 1) := by
  have blocks := @Traces.allocate _ _ _ 2 _ (@Traces.allocate _ _ _ 0 _ (@Traces.allocate _ _ _ 4 _ .empty rfl) rfl) rfl
  have filled := @Traces.write _ _ _ (.ofNat 0x10000020) [9]
    (@Traces.write _ _ _ (.ofNat 0x10000000) [1, 2, 3] blocks rfl) rfl
  have t : Traces shifted _ := @Traces.copy _ _ _ (.ofNat 0x10000000) (.ofNat 0x10000001) 3 filled rfl
  obtain ⟨-, hapart, -, hread, -⟩ := refines_flat t
  exact ⟨_, t, hapart, by decide +kernel, hread _ _, hread _ _, hread _ _⟩

end Heap
end Introspect
