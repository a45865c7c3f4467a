import Introspect.Proofs.Heap.Words
/-!
# What a heap hands out

A heap is asked for blocks, for slices and for slices of integers, and bytes are written and copied in between, well or
badly.  Beside it an account is kept of what it has answered with.  A request says itself what the block must hold that
it is answered with, if it is answered with one (`Request.contents?`); answering it adds just this block to the row
(`ends_run`), and so the account and the heap agree after any requests (`requests_orderly`).
-/
namespace Introspect
namespace Heap

variable {h h' : Heap}

/-! ## Slices -/

theorem ends_newSlice_iff {size : Nat} {length : UInt64} {ok : Slice → Heap → Prop} {stop : Stop Error → Heap → Prop} :
    (newSlice size length).Ends h ok stop ↔
      if length = 0 then ok .empty h
      else if length.toNat * size < 2 ^ 64 then
        match h.allocate (length.toNat * size) with
        | .ok (a, h') => ok ⟨length, a⟩ h'
        | .error f => stop (.fault f) h
      else stop (.failure (.invalidAddress .null noLength)) h := by
  unfold newSlice
  by_cases h0 : length = 0
  · rw [if_pos h0, if_pos h0]
    rfl
  · rw [if_neg h0, if_neg h0]
    by_cases hlt : length.toNat * size < 2 ^ 64
    · rw [if_pos hlt, bufferSize?_eq_some.2 ⟨rfl, hlt⟩]
      show (newBlock (length.toNat * size) >>= fun a => pure ⟨length, a⟩).Ends h ok stop ↔ _
      rw [Action.ends_bind, ends_newBlock]
      cases h.allocate (length.toNat * size) <;> rfl
    · have hnone : bufferSize? length size = none := by
        cases hb : bufferSize? length size with
        | none => rfl
        | some n => exact absurd (bufferSize?_eq_some.1 hb).2 hlt
      rw [if_neg hlt, hnone]
      rfl

theorem read_append (ha : h.Arranged) {a : Address} {m n : Nat} {bs cs : List UInt8} (hi : h.Inside a.toNat (m + n))
    (hbs : h.read a m = .ok bs) (hcs : h.read (a + m) n = .ok cs) : h.read a (m + n) = .ok (bs ++ cs) := by
  have hlt := ha.inside_lt hi
  have hnat : (a + m).toNat = a.toNat + m := Address.toNat_add_of_lt (by omega)
  rw [read_inside ha (inside_of_read hbs)] at hbs
  rw [read_inside ha (inside_of_read hcs), hnat] at hcs
  rw [read_inside ha hi, bytesAt_add, Except.ok.inj hbs, Except.ok.inj hcs]

def intBytes (values : List Int64) : List UInt8 := values.flatMap fun i => Octets.encode 8 i.toUInt64.toNat

theorem length_intBytes : ∀ values : List Int64, (intBytes values).length = 8 * values.length
  | [] => rfl
  | i :: values => by
    have ih := length_intBytes values
    simp only [intBytes] at ih
    simp only [intBytes, List.flatMap_cons, List.length_append, Octets.length_encode, ih, List.length_cons]
    omega

/-- **Integers are written one behind the other** where there is room for all of them. -/
theorem ends_writeInts : ∀ {values : List Int64} {h : Heap} {a : Address}, h.Arranged →
    h.Inside a.toNat (8 * values.length) →
    (writeInts a values).Ends h (fun _ h' => Grows (Window a.toNat (8 * values.length)) h h' ∧
      h'.outline = h.outline ∧ h'.read a (8 * values.length) = .ok (intBytes values)) fun _ _ => False
  | [], h, a, ha, hi => ⟨.refl ha, rfl, by rw [read_inside ha hi]; rfl⟩
  | i :: values, h, a, ha, hi => by
    have hlen : 8 * (i :: values).length = 8 + 8 * values.length := by rw [List.length_cons]; omega
    rw [hlen] at hi ⊢
    have hlt := ha.inside_lt hi
    have hnat : (a + 8).toNat = a.toNat + 8 := Address.toNat_add_of_lt (by omega)
    have hfirst : h.Inside a.toNat (Octets.encode 8 i.toUInt64.toNat).length := by
      rw [Octets.length_encode]
      exact hi.mono (Nat.le_refl _) (by omega)
    obtain ⟨k, hk⟩ := write_of_inside ha hfirst
    have hword : h.writeInt a i = .ok k := hk
    have g := grows_writeWord ha hword
    have hrest : k.Inside (a + 8).toNat (8 * values.length) := by
      rw [hnat]
      exact g.inside (hi.mono (by omega) (by omega))
    simp only [writeInts, Action.ends_bind, Action.ends_modifyM, hword]
    refine (ends_writeInts g.arranged hrest).mono (fun _ h' hdone => ?_) fun _ _ hf => hf
    obtain ⟨g', ho, hread⟩ := hdone
    rw [hnat] at g'
    have hkept : h'.read a 8 = k.read a 8 := g'.read_eq g.arranged (g.inside (hi.mono (Nat.le_refl _) (by omega)))
      fun x hx => hx.apart (.inl (Nat.le_refl _))
    have hback := read_write ha hk
    rw [Octets.length_encode] at hback
    refine ⟨(g.mono fun x _ hx => hx.mono (Nat.le_refl _) (by omega)).trans ha g' fun x _ hx =>
      hx.mono (by omega) (by omega), ho.trans (outline_writeWord ha hword), ?_⟩
    exact read_append g'.arranged (g'.inside (g.inside hi)) (hkept.trans hback) hread

/-! ## Requests -/

/-- What a heap is asked for. -/
inductive Request where
  | block (size : Nat)
  | slice (elementSize : Nat) (length : UInt64)
  /-- The integers lie in memory themselves, so they take no more bytes than a block may have. -/
  | ints (values : List Int64) (fit : 8 * values.length ≤ maxBlock)
  | write (a : Address) (bytes : List UInt8)
  | copy (source target : Address) (n : Nat)

namespace Request

/-- What the block holds that a request is answered with, where it is answered with one: an empty slice has no block,
and a slice whose size is no word gets none. -/
def contents? : Request → Option (List UInt8)
  | block size => some (List.replicate size 0)
  | slice elementSize length =>
    if length = 0 ∨ 2 ^ 64 ≤ length.toNat * elementSize then none
    else some (List.replicate (length.toNat * elementSize) 0)
  | ints values _ => if values.isEmpty then none else some (intBytes values)
  | write _ _ | copy _ _ _ => none

/-- Ask for it.  The answer is where the new block starts. -/
def run : Request → Action Error Heap (Option Address)
  | block size => do return some (← newBlock size)
  | slice elementSize length => do
    let s ← newSlice elementSize length
    return if s.isEmpty then none else some s.data
  | ints values _ => do
    let s ← newIntSlice values
    return if s.isEmpty then none else some s.data
  | write a bytes => do
    Action.modifyM (·.write a bytes)
    return none
  | copy source target n => do
    Action.modifyM (·.copy source target n)
    return none

/-- What answering a request does: one block more, at the end of the row, if it asks for one, and none else. -/
structure Answered (r : Request) (h : Heap) (base? : Option Address) (h' : Heap) : Prop where
  arranged : h'.Arranged
  base : base? = r.contents?.map fun _ => h.next
  outline : h'.outline = (r.contents?.map fun bs => (h.next.toNat, bs.length)).toList ++ h.outline
  contents : ∀ bs, r.contents? = some bs → h'.read h.next bs.length = .ok bs

/-- Why a request is not answered: it is refused, and asks for no block then, or there is no room for the block. -/
def Unanswered (r : Request) (h : Heap) (stop : Stop Error) (h' : Heap) : Prop :=
  h' = h ∧ ((∃ e, stop = .failure e) ∧ r.contents? = none ∨
    (∃ f, stop = .fault f) ∧ ∃ bs, r.contents? = some bs ∧ ¬ Room (bs.length ::ₘ h.sizes))

end Request

theorem read_new {size : Nat} {a : Address} (ha : h.Arranged) (hx : h.allocate size = .ok (a, h')) :
    h'.read a size = .ok (List.replicate size 0) := by
  obtain ⟨rfl, ha', ho, hb⟩ := allocate_spec ha hx
  rw [read_inside ha' ⟨_, ho ▸ List.mem_cons_self, Nat.le_refl _, Nat.le_refl _⟩]
  exact congrArg _ (bytesAt_zero fun x hx => (hb x).trans (if_neg (Nat.not_lt.2 hx.1)))

namespace Request

theorem Answered.of_allocate {r : Request} {size : Nat} {a : Address} (ha : h.Arranged)
    (hr : r.contents? = some (List.replicate size 0)) (hx : h.allocate size = .ok (a, h')) :
    r.Answered h (some a) h' := by
  obtain ⟨rfl, ha', ho, -⟩ := allocate_spec ha hx
  refine ⟨ha', by rw [hr]; rfl, by rw [hr, ho]; simp, fun bs hbs => ?_⟩
  obtain rfl := Option.some.inj (hr.symm.trans hbs)
  rw [List.length_replicate]
  exact read_new ha hx

theorem Answered.of_outline {r : Request} (ha : h'.Arranged) (hr : r.contents? = none) (ho : h'.outline = h.outline) :
    r.Answered h none h' :=
  ⟨ha, by rw [hr]; rfl, by rw [hr, ho]; rfl, fun bs hbs => by rw [hr] at hbs; cases hbs⟩

theorem ends_run_slice (ha : h.Arranged) (elementSize : Nat) (length : UInt64) :
    (slice elementSize length).run.Ends h ((slice elementSize length).Answered h)
      ((slice elementSize length).Unanswered h) := by
  simp only [run, Action.ends_bind, ends_newSlice_iff, Action.ends_pure]
  by_cases h0 : length = 0
  · rw [if_pos h0]
    exact .of_outline ha (if_pos (.inl h0)) rfl
  · rw [if_neg h0]
    by_cases hlt : length.toNat * elementSize < 2 ^ 64
    · have hr : (slice elementSize length).contents? = some (List.replicate (length.toNat * elementSize) 0) :=
        if_neg fun hor => hor.elim h0 (Nat.not_le.2 hlt)
      rw [if_pos hlt]
      cases hx : h.allocate (length.toNat * elementSize) with
      | error f => exact ⟨rfl, .inr ⟨⟨f, rfl⟩, _, hr, by rw [List.length_replicate]; exact no_room_of_allocate ha hx⟩⟩
      | ok done =>
        have hempty : ¬ (Slice.mk length done.1).isEmpty = true := fun he => h0 (Slice.isEmpty_iff.1 he)
        dsimp only
        rw [if_neg hempty]
        exact .of_allocate ha hr hx
    · rw [if_neg hlt]
      exact ⟨rfl, .inl ⟨⟨_, rfl⟩, if_pos (.inr (Nat.not_lt.1 hlt))⟩⟩

theorem ends_run_ints (ha : h.Arranged) (values : List Int64) (fit : 8 * values.length ≤ maxBlock) :
    (ints values fit).run.Ends h ((ints values fit).Answered h) ((ints values fit).Unanswered h) := by
  have hmax : maxBlock < 2 ^ 63 := by decide
  have hlen : (UInt64.ofNat values.length).toNat = values.length := by
    rw [UInt64.toNat_ofNat']
    exact Nat.mod_eq_of_lt (by omega)
  simp only [run, newIntSlice, Action.ends_bind, ends_newSlice_iff, Action.ends_pure, hlen]
  cases values with
  | nil => exact Answered.of_outline ha rfl rfl
  | cons i values =>
    have h0 : ¬ UInt64.ofNat (i :: values).length = 0 := fun h0 => by
      rw [h0] at hlen
      cases hlen
    have hr : (ints (i :: values) fit).contents? = some (intBytes (i :: values)) := rfl
    have hsize : (intBytes (i :: values)).length = (i :: values).length * 8 := by rw [length_intBytes, Nat.mul_comm]
    rw [if_neg h0, if_pos (by omega)]
    cases hx : h.allocate ((i :: values).length * 8) with
    | error f => exact ⟨rfl, .inr ⟨⟨f, rfl⟩, _, hr, hsize ▸ no_room_of_allocate ha hx⟩⟩
    | ok done =>
      obtain ⟨a, k⟩ := done
      obtain ⟨rfl, hk, ho, -⟩ := allocate_spec ha hx
      have hempty : ¬ (Slice.mk (UInt64.ofNat (i :: values).length) h.next).isEmpty = true := fun he =>
        h0 (Slice.isEmpty_iff.1 he)
      have hin : k.Inside h.next.toNat (8 * (i :: values).length) := by
        rw [Nat.mul_comm]
        exact ⟨_, ho ▸ List.mem_cons_self, Nat.le_refl _, Nat.le_refl _⟩
      dsimp only
      rw [if_neg hempty]
      refine (ends_writeInts hk hin).mono (fun _ h' hdone => ?_) fun _ _ hf => hf.elim
      obtain ⟨g, ho', hread⟩ := hdone
      refine ⟨g.arranged, by rw [hr]; rfl, by rw [hr, ho', ho, ← hsize]; rfl, fun bs hbs => ?_⟩
      obtain rfl := Option.some.inj (hr.symm.trans hbs)
      rw [length_intBytes]
      exact hread

/-- **A request is answered with the block that it asks for**, or refused without one, or there is no room. -/
theorem ends_run (ha : h.Arranged) (r : Request) : r.run.Ends h (r.Answered h) (r.Unanswered h) := by
  cases r with
  | block size =>
    have hr : (block size).contents? = some (List.replicate size 0) := rfl
    simp only [run, Action.ends_bind, ends_newBlock, Action.ends_pure]
    cases hx : h.allocate size with
    | error f => exact ⟨rfl, .inr ⟨⟨f, rfl⟩, _, hr, by rw [List.length_replicate]; exact no_room_of_allocate ha hx⟩⟩
    | ok done => exact .of_allocate ha hr hx
  | slice elementSize length => exact ends_run_slice ha elementSize length
  | ints values fit => exact ends_run_ints ha values fit
  | write a bytes =>
    simp only [run, Action.ends_bind, Action.ends_modifyM, Action.ends_pure]
    cases hw : h.write a bytes with
    | error e => exact ⟨rfl, .inl ⟨⟨e, rfl⟩, rfl⟩⟩
    | ok k => exact .of_outline (ha.write hw) rfl (outline_write ha hw)
  | copy source target n =>
    simp only [run, Action.ends_bind, Action.ends_modifyM, Action.ends_pure]
    cases hc : h.copy source target n with
    | error e => exact ⟨rfl, .inl ⟨⟨e, rfl⟩, rfl⟩⟩
    | ok k => exact .of_outline (grows_copy ha hc).arranged rfl (outline_copy ha hc)

end Request

/-! ## What a heap says of its blocks -/

theorem blockSize_eq_some (ha : h.Arranged) {a : Address} {n : Nat} :
    h.blockSize a = some n ↔ (a.toNat, n) ∈ h.outline := by
  rw [blockSize, Option.map_eq_some_iff]
  constructor
  · rintro ⟨b, hb, rfl⟩
    have hbase : b.base = a := by simpa only [decide_eq_true_eq] using List.find?_some hb
    exact hbase ▸ mem_outline (List.mem_of_find?_eq_some hb)
  · intro he
    obtain ⟨b, hb, hbase, hlen⟩ := exists_block he
    obtain rfl : b.base = a := Address.ext hbase
    have hfound : (h.blocks.find? (·.base = b.base)).isSome := List.find?_isSome.2 ⟨b, hb, decide_eq_true rfl⟩
    obtain ⟨c, hc⟩ := Option.isSome_iff_exists.1 hfound
    have hcb : c.base = b.base := by simpa only [decide_eq_true_eq] using List.find?_some hc
    exact ⟨c, hc, by rw [ha.block_eq (List.mem_of_find?_eq_some hc) hb hcb, hlen]⟩

theorem bytesAllocated_eq (h : Heap) : h.bytesAllocated = h.sizes.sum := by
  have hfold : ∀ (bs : List Block) (n : Nat), bs.foldl (fun n b => n + b.bytes.length) n
      = n + ((bs.map (·.bytes.length) : List Nat) : Multiset Nat).sum := fun bs => by
    induction bs with
    | nil => exact fun n => rfl
    | cons b bs ih =>
      intro n
      rw [List.foldl_cons, ih, List.map_cons, ← Multiset.cons_coe, Multiset.sum_cons, Nat.add_assoc]
  rw [bytesAllocated, hfold, Nat.zero_add, sizes]

/-! ## The account -/

/-- A heap, and what it has handed out: where each block starts and how long it was asked to be, the newest first. -/
structure Account where
  heap : Heap := {}
  handed : List (Address × Nat) := []

namespace Account

/-- Ask for something and enter the answer.  A request that is refused is passed over. -/
def serve (r : Request) : Action Error Account Unit := fun acc =>
  match r.run acc.heap with
  | .ok base? heap => .ok () ⟨heap, (base?.map fun a => (a, (r.contents?.getD []).length)).toList ++ acc.handed⟩
  | .error (.failure _) heap => .ok () { acc with heap }
  | .error (.fault f) heap => .error (.fault f) { acc with heap }

/-- The sizes of the blocks that are asked for. -/
def asked (rs : List Request) : Multiset Nat := ((rs.filterMap Request.contents?).map List.length : List Nat)

/-- **The blocks are as they were handed out**: each is where a block may be, higher than all before it and apart from
them, and the heap knows these blocks and no others. -/
structure Orderly (acc : Account) : Prop where
  placed : ∀ e ∈ acc.handed, e.1 ≠ .null ∧ e.1.toNat % 16 = 0 ∧ firstBase ≤ e.1.toNat ∧
    e.1.toNat + max e.2 1 < 2 ^ 64
  ascending : acc.handed.Pairwise fun e old => old.1 < e.1
  apart : acc.handed.Pairwise fun e old => ∀ x, Window e.1.toNat (max e.2 1) x → ¬ Window old.1.toNat (max old.2 1) x
  blockSize : ∀ a n, acc.heap.blockSize a = some n ↔ (a, n) ∈ acc.handed
  blockCount : acc.heap.blockCount = acc.handed.length
  bytesAllocated : acc.heap.bytesAllocated = ((acc.handed.map Prod.snd : List Nat) : Multiset Nat).sum

/-- What serving one request does: the block that it asks for, if it asks for one, is entered and holds what it must,
and no other block starts elsewhere or is of another size than before. -/
structure Served (r : Request) (acc acc' : Account) : Prop where
  handed : acc'.handed = (r.contents?.map fun bs => (acc.heap.next, bs.length)).toList ++ acc.handed
  contents : ∀ bs, r.contents? = some bs → acc'.heap.read acc.heap.next bs.length = .ok bs
  blockSize : ∀ a n, acc.heap.blockSize a = some n → acc'.heap.blockSize a = some n

/-- The invariant: the row of blocks is what was handed out. -/
structure Kept (acc : Account) : Prop where
  arranged : acc.heap.Arranged
  outline : acc.heap.outline = acc.handed.map fun e => (e.1.toNat, e.2)

variable {acc acc' : Account}

namespace Kept

theorem start : ({} : Account).Kept := ⟨.empty, rfl⟩

theorem bounds (hk : acc.Kept) {e : Address × Nat} (he : e ∈ acc.handed) :
    firstBase ≤ e.1.toNat ∧ e.1.toNat + span e.2 ≤ acc.heap.next.toNat ∧ e.2 ≤ maxBlock :=
  hk.arranged.bounds (hk.outline ▸ List.mem_map_of_mem he)

theorem mem_iff (hk : acc.Kept) {a : Address} {n : Nat} : (a.toNat, n) ∈ acc.heap.outline ↔ (a, n) ∈ acc.handed := by
  rw [hk.outline, List.mem_map]
  constructor
  · rintro ⟨e, he, heq⟩
    obtain ⟨ha, rfl⟩ := Prod.mk.inj heq
    exact Address.ext ha ▸ he
  · exact fun he => ⟨_, he, rfl⟩

theorem sizes (hk : acc.Kept) : acc.heap.sizes = (acc.handed.map Prod.snd : List Nat) := by
  rw [sizes_eq, hk.outline, List.map_map]
  rfl

theorem ends_le (hk : acc.Kept) : acc.handed.Pairwise fun e old => old.1.toNat + span old.2 ≤ e.1.toNat :=
  List.pairwise_map.1 (hk.outline ▸ hk.arranged.packed.pairwise)

theorem orderly (hk : acc.Kept) : acc.Orderly where
  placed e he := by
    obtain ⟨hfirst, hend, -⟩ := hk.bounds he
    have hnext := acc.heap.next.toNat_lt
    have hspan := max_le_span e.2
    refine ⟨?_, ?_, hfirst, by omega⟩
    · rintro hnull
      rw [hnull] at hfirst
      exact absurd hfirst (by decide)
    · exact hk.arranged.packed.base_mod (hk.outline ▸ List.mem_map_of_mem he)
  ascending := hk.ends_le.imp fun {e old} h => by
    have := one_le_span old.2
    exact Nat.lt_of_lt_of_le (by omega) h
  apart := hk.ends_le.imp fun {e old} h x hx => by
    have hspan := max_le_span old.2
    exact hx.apart (.inr (by omega))
  blockSize a n := (blockSize_eq_some hk.arranged).trans hk.mem_iff
  blockCount := by
    have hlen := congrArg List.length hk.outline
    rwa [Heap.outline, List.length_map, List.length_map] at hlen
  bytesAllocated := by rw [bytesAllocated_eq, hk.sizes]

end Kept

theorem ends_serve {r : Request} {ok : Unit → Account → Prop} {stop : Stop Error → Account → Prop} :
    (serve r).Ends acc ok stop ↔ r.run.Ends acc.heap
      (fun base? heap =>
        ok () ⟨heap, (base?.map fun a => (a, (r.contents?.getD []).length)).toList ++ acc.handed⟩)
      fun
        | .failure _, heap => ok () { acc with heap }
        | .fault f, heap => stop (.fault f) { acc with heap } := by
  simp only [Action.Ends, serve]
  rcases r.run acc.heap with ⟨base?, heap⟩ | ⟨e | f, heap⟩ <;> rfl

/-- **One request** leaves the account kept and enters what it asks for, unless there is no room for it. -/
theorem serve_kept (hk : acc.Kept) (r : Request) :
    (serve r).Ends acc (fun _ acc' => acc'.Kept ∧ Served r acc acc')
      fun stop acc' => acc' = acc ∧ (∃ f, stop = .fault f) ∧
        ∃ bs, r.contents? = some bs ∧ ¬ Room (bs.length ::ₘ acc.heap.sizes) := by
  rw [ends_serve]
  refine (r.ends_run hk.arranged).mono (fun base? heap hdone => ?_) fun e heap hstop => ?_
  · obtain ⟨ha, rfl, ho, hcontents⟩ := hdone
    have hhanded : (r.contents?.map fun _ => acc.heap.next).map (fun a => (a, (r.contents?.getD []).length))
        = r.contents?.map fun bs => (acc.heap.next, bs.length) := by
      cases r.contents? <;> rfl
    rw [hhanded]
    refine ⟨⟨ha, ?_⟩, rfl, hcontents, fun a n hsize => ?_⟩
    · rw [ho, hk.outline]
      cases r.contents? <;> rfl
    · rw [blockSize_eq_some hk.arranged] at hsize
      exact (blockSize_eq_some ha).2 (ho ▸ List.mem_append_right _ hsize)
  · obtain ⟨rfl, ⟨⟨e, rfl⟩, hr⟩ | ⟨⟨f, rfl⟩, hfull⟩⟩ := hstop
    · exact ⟨hk, by rw [hr]; rfl, fun bs hbs => absurd (hr.symm.trans hbs) (Option.some_ne_none bs).symm,
        fun a n hsize => hsize⟩
    · exact ⟨rfl, ⟨f, rfl⟩, hfull⟩

theorem asked_append (rs more : List Request) : asked (rs ++ more) = asked rs + asked more := by
  rw [asked, asked, asked, List.filterMap_append, List.map_append, Multiset.coe_add]

theorem asked_singleton (r : Request) : asked [r] = ((r.contents?.map List.length).toList : Multiset Nat) := by
  rw [asked, List.filterMap_cons, List.filterMap_nil]
  cases r.contents? <;> rfl

/-- **Any requests** leave the account kept, and the blocks are of the sizes that were asked for. -/
theorem requests_kept (rs : List Request) :
    (forM rs serve).Ends {} (fun _ acc => acc.Kept ∧ acc.heap.sizes = asked rs)
      fun stop acc => acc.Kept ∧ (∃ f, stop = .fault f) ∧ ¬ Room (asked rs) := by
  have h0 : ({} : Account).Kept ∧ ({} : Account).heap.sizes = asked [] := ⟨.start, rfl⟩
  refine Action.ends_forM (I := fun done (acc : Account) => acc.Kept ∧ acc.heap.sizes = asked done) h0
    fun done r rest acc hrs hI => ?_
  obtain ⟨hk, hsizes⟩ := hI
  refine (serve_kept hk r).mono (fun _ acc' hdone => ?_) fun stop acc' hstop => ?_
  · obtain ⟨hk', hserved⟩ := hdone
    refine ⟨hk', ?_⟩
    rw [asked_append, ← hsizes, asked_singleton, hk'.sizes, hk.sizes, hserved.handed, List.map_append,
      ← Multiset.coe_add, add_comm]
    cases r.contents? <;> rfl
  · obtain ⟨rfl, hf, bs, hr, hfull⟩ := hstop
    refine ⟨hk, hf, fun hroom => hfull (hroom.mono ?_)⟩
    have hone : asked [r] = {bs.length} := by rw [asked_singleton, hr]; rfl
    rw [hrs, List.append_cons, asked_append, asked_append, hone, ← hsizes, add_comm acc'.heap.sizes,
      Multiset.singleton_add]
    exact Multiset.le_add_right _ _

/-- **Whatever a heap is asked for, its blocks are as they were handed out**, and one request more changes nothing about
them but enters the block that it asks for.  Only where the blocks do not fit into the address space together does it
come to a stop, and then with a fault. -/
theorem requests_orderly (rs : List Request) :
    (forM rs serve).Ends {}
      (fun _ acc => acc.Orderly ∧ ∀ r, (serve r).Ends acc (fun _ acc' => acc'.Orderly ∧ Served r acc acc')
        fun stop acc' => acc' = acc ∧ (∃ f, stop = .fault f) ∧ ¬ Room (asked (rs ++ [r])))
      fun stop acc => acc.Orderly ∧ (∃ f, stop = .fault f) ∧ ¬ Room (asked rs) := by
  refine (requests_kept rs).mono (fun _ acc hdone => ?_) fun stop acc hstop => ?_
  · obtain ⟨hk, hsizes⟩ := hdone
    refine ⟨hk.orderly, fun r => (serve_kept hk r).mono (fun _ acc' hserved => ?_) fun stop acc' hstop => ?_⟩
    · obtain ⟨hk', hserved⟩ := hserved
      exact ⟨hk'.orderly, hserved⟩
    · obtain ⟨rfl, hf, bs, hr, hfull⟩ := hstop
      refine ⟨rfl, hf, ?_⟩
      rw [asked_append, asked_singleton, hr, ← hsizes, add_comm]
      exact hfull
  · obtain ⟨hk, hstop⟩ := hstop
    exact ⟨hk.orderly, hstop⟩

end Account

end Heap
end Introspect
