import Introspect.Proofs.Allocator.Reachable
import Introspect.Proofs.Duplicate.Pieces
/-!
# A deep copy leaves what was there as it was

Every write of a copy goes to a block that the copy has allocated itself: to the instance made for an object, to the
buffer made for a slice, to the block made for an aggregate.  One step is described by `Extends`: it writes into the
window of its own target and otherwise only adds — blocks, entries to the record, jobs to the queue.  So the old blocks
stay on every way out, whatever the heap holds, and between two copies a duplicator remembers nothing.
-/
namespace Introspect

theorem IdentityMap.find?_insert (m : IdentityMap) (source target x : Address) :
    (m.insert source target).find? x = if x = source then some target else m.find? x := by
  simp only [find?, insert, Option.bind_some, Table.get?_insert]
  cases m.table <;> rfl

namespace Traversal

def copyOf? (t : Traversal) (source : Address) : Option Address := t.duplicator.identity.find? source

def queue (t : Traversal) : List Job := t.duplicator.pending

/-- A step that writes at `W` and otherwise only adds. -/
structure Extends (W : Nat → Prop) (t t' : Traversal) : Prop where
  heap : Heap.Grows W t.heap t'.heap
  known : ∀ x y, t.copyOf? x = some y → t'.copyOf? x = some y
  fresh : ∀ x y, t'.copyOf? x = some y →
    t.copyOf? x = some y ∨ t.heap.next.toNat ≤ y.toNat ∧ ∃ j ∈ t'.queue, j.source = x
  queue : ∃ new, t'.queue = t.queue ++ new ∧ ∀ j ∈ new, t.heap.next.toNat ≤ j.target.toNat ∧
    (j.target.toNat, j.type.size) ∈ t'.heap.outline ∧ j.type.Built

namespace Extends

variable {W W' : Nat → Prop} {t t' t'' : Traversal}

theorem refl (ha : t.heap.Arranged) : Extends W t t :=
  ⟨.refl ha, fun _ _ h => h, fun _ _ h => .inl h, [], (List.append_nil _).symm, fun _ h => (List.not_mem_nil h).elim⟩

theorem trans (ha : t.heap.Arranged) (e : Extends W t t') (e' : Extends W' t' t'')
    (hw : ∀ x, x < t.heap.next.toNat → W' x → W x) : Extends W t t'' where
  heap := e.heap.trans ha e'.heap hw
  known x y h := e'.known x y (e.known x y h)
  fresh x y h := by
    rcases e'.fresh x y h with h | ⟨h, hj⟩
    · rcases e.fresh x y h with h | ⟨h, j, hj, hx⟩
      · exact .inl h
      · obtain ⟨new, hq, -⟩ := e'.queue
        exact .inr ⟨h, j, hq ▸ List.mem_append_left new hj, hx⟩
    · exact .inr ⟨Nat.le_trans (e.heap.next_le ha) h, hj⟩
  queue := by
    obtain ⟨new, hq, hn⟩ := e.queue
    obtain ⟨new', hq', hn'⟩ := e'.queue
    refine ⟨new ++ new', by rw [hq', hq, List.append_assoc], fun j hj => ?_⟩
    rcases List.mem_append.1 hj with hj | hj
    · obtain ⟨h1, h2, h3⟩ := hn j hj
      exact ⟨h1, e'.heap.outline.subset h2, h3⟩
    · obtain ⟨h1, h2, h3⟩ := hn' j hj
      exact ⟨Nat.le_trans (e.heap.next_le ha) h1, h2, h3⟩

theorem mono (e : Extends W t t') (hw : ∀ x, x < t.heap.next.toNat → W x → W' x) : Extends W' t t' :=
  ⟨e.heap.mono hw, e.known, e.fresh, e.queue⟩

theorem of_heap {h : Heap} (g : Heap.Grows W t.heap h) : Extends W t { t with heap := h } :=
  ⟨g, fun _ _ h => h, fun _ _ h => .inl h, [], (List.append_nil _).symm, fun _ h => (List.not_mem_nil h).elim⟩

end Extends

/-! ## One step -/

section

variable {c : Catalog}

theorem copyObject_extends (hc : ∀ d ∈ c.entries, d.type.Built) (source : Address) {t : Traversal}
    (ha : t.heap.Arranged) :
    (copyObject c source).Always t (Extends Heap.Nowhere t) := by
  simp only [copyObject, Action.Always, Action.ends_bind, Action.ends_get]
  cases hf : t.duplicator.identity.find? source with
  | some target => exact .refl ha
  | none =>
    simp only [Action.ends_bind, Action.ends_query]
    cases hr : t.heap.readAddress (source + Class.vtableOffset) with
    | error e => exact .refl ha
    | ok vtable =>
    simp only
    cases hv : c.ofVtable t.heap vtable with
    | error e => exact .refl ha
    | ok d =>
    have hd := hc d (Catalog.mem_of_ofVtable hv).1
    simp only [onHeap, Action.ends_on]
    refine (Catalog.ends_newInstance ha hv hd).mono (fun o h hnew => ?_) fun e h hstop => ?_
    · obtain ⟨ho, g, hout, -⟩ := hnew
      simp only [onIdentity, push, Action.ends_on, IdentityMap.record, Action.ends_bind, Action.ends_get,
        Action.ends_modify, hf, Option.isSome_none, Bool.false_eq_true, if_false, Action.ends_pure]
      refine ⟨g, fun x y hx => ?_, fun x y hx => ?_, [_], rfl, fun j hj => ?_⟩
      · have hne : x ≠ source := fun h => by
          rw [copyOf?, h, hf] at hx
          cases hx
        simp only [copyOf?, IdentityMap.find?_insert, if_neg hne]
        exact hx
      · simp only [copyOf?, IdentityMap.find?_insert] at hx
        split at hx
        · rename_i hxs
          exact .inr ⟨by rw [← Option.some.inj hx, ho], _, List.mem_append_right _ List.mem_cons_self, hxs.symm⟩
        · exact .inl hx
      · obtain rfl := List.mem_singleton.1 hj
        exact ⟨by rw [ho], by simp only [hout]; exact List.mem_cons_self, hd⟩
    · rw [hstop.1]
      exact .refl ha

/-- What one piece of a list does, all of them do, if no piece writes what the whole may not. -/
theorem pieces_extend {W : Nat → Prop} {ps : List Piece} {t : Traversal} (ha : t.heap.Arranged)
    (hp : ∀ p ∈ ps, ∀ t' : Traversal, t'.heap.Arranged →
      (copyPiece c p).Always t' (Extends (Heap.Window p.target.toNat p.shape.size) t'))
    (hw : ∀ p ∈ ps, ∀ x, x < t.heap.next.toNat → Heap.Window p.target.toNat p.shape.size x → W x) :
    (forM ps (copyPiece c)).Always t (Extends W t) := by
  refine Action.ends_forM (I := fun _ => Extends W t) (.refl ha) fun done p rest t' hps e => ?_
  have hmem : p ∈ ps := hps ▸ List.mem_append_right _ List.mem_cons_self
  exact (hp p hmem t' e.heap.arranged).mono (fun _ t'' e' => e.trans ha e' (hw p hmem))
    fun _ t'' e' => e.trans ha e' (hw p hmem)

theorem writeAddress_extends {t t' : Traversal} (ha : t.heap.Arranged) (e : Extends Heap.Nowhere t t')
    (target new : Address) :
    (onHeap (Action.modifyM (·.writeAddress target new))).Always t' (Extends (Heap.Window target.toNat 8) t) := by
  simp only [Action.Always, onHeap, Action.ends_on, Action.ends_modifyM]
  have e8 : Extends (Heap.Window target.toNat 8) t t' := e.mono fun _ _ h => h.elim
  cases hw : t'.heap.writeAddress target new with
  | error e => exact e8
  | ok h => exact e8.trans ha (.of_heap (Heap.grows_writeAddress e.heap.arranged hw)) fun _ _ h => h

theorem writeSlice_extends {t t' : Traversal} (ha : t.heap.Arranged) (e : Extends Heap.Nowhere t t')
    (target : Address) (copy : Slice) :
    (onHeap (Heap.writeSlice target copy)).Always t' (Extends (Heap.Window target.toNat 16) t) := by
  simp only [Action.Always, onHeap, Action.ends_on]
  have e16 : Extends (Heap.Window target.toNat 16) t t' := e.mono fun _ _ h => h.elim
  exact (Heap.ends_writeSlice e.heap.arranged target copy).mono
    (fun _ h hg => e16.trans ha (.of_heap hg.1) fun _ _ h => h)
    fun _ h hg => e16.trans ha (.of_heap hg.1) fun _ _ h => h

/-- The elements of a slice go to a new buffer, so nothing old is written. -/
theorem copySlice_extends {element : Shape} (s : Slice) {t : Traversal} (ha : t.heap.Arranged)
    (ih : ∀ {source target : Address} {t : Traversal}, t.heap.Arranged → target.toNat + element.size ≤ 2 ^ 64 →
      (copyShape c element source target).Always t (Extends (Heap.Window target.toNat element.size) t)) :
    (copySliceWith element.size (copyShape c element) s).Always t (Extends Heap.Nowhere t) := by
  simp only [copySliceWith, Action.Always, Action.ends_bind, Action.ends_query, onHeap, Action.ends_on,
    Action.ends_pure]
  cases hs : t.heap.checkSlice s element.size with
  | error e => exact .refl ha
  | ok n =>
  refine (Heap.ends_newSlice ha hs).mono (fun copy h hcopy => ?_) fun e h hstop => by rw [hstop.1]; exact .refl ha
  rcases hcopy with ⟨h0, rfl, rfl⟩ | ⟨-, rfl, g, hout⟩
  · simp only [h0]
    exact .refl ha
  · have hend := (g.arranged.bounds (hout ▸ List.mem_cons_self)).2.1
    have hspan := Heap.le_span (s.length.toNat * element.size)
    have hlast := h.next.toNat_lt
    simp only at hend ⊢
    rw [eachElement_eq]
    refine (pieces_extend (W := Heap.Window t.heap.next.toNat (s.length.toNat * element.size))
      (t := { t with heap := h }) g.arranged (fun p hp t' ha' => ?_) fun p hp x _ hw => ?_).mono
      (fun _ t' e' => ?_) fun _ t' e' => ?_
    · obtain ⟨h1, -, h3⟩ := Shape.elements_within (by omega) hp
      unfold copyPiece
      rw [h1]
      exact ih ha' (by omega)
    · obtain ⟨h1, h2, h3⟩ := Shape.elements_within (by omega) hp
      obtain ⟨hw1, hw2⟩ := hw
      rw [h1] at hw2
      exact ⟨by omega, by omega⟩
    · exact (Extends.of_heap g).trans ha e' fun x hx hw => by have := hw.1; omega
    · exact (Extends.of_heap g).trans ha e' fun x hx hw => by have := hw.1; omega

/-- **Copying a piece writes into the window of its target** and otherwise only adds. -/
theorem copyShape_extends (hc : ∀ d ∈ c.entries, d.type.Built) {shape : Shape} (hb : shape.Built) :
    ∀ {source target : Address} {t : Traversal}, t.heap.Arranged → target.toNat + shape.size ≤ 2 ^ 64 →
    (copyShape c shape source target).Always t (Extends (Heap.Window target.toNat shape.size) t) := by
  induction hb with
  | scalar size | handle size =>
    intro source target t ha _
    simp only [copyShape, onHeap, Action.Always, Action.ends_on, Action.ends_modifyM]
    cases hx : t.heap.copy source target size with
    | error e => exact .refl ha
    | ok h => exact .of_heap (Heap.grows_copy ha hx)
  | object =>
    intro source target t ha _
    simp only [copyShape, Action.Always, Action.ends_bind, Action.ends_query]
    cases hr : t.heap.readAddress source with
    | error e => exact .refl ha
    | ok old =>
    simp only
    by_cases hn : old.isNull = true
    · simp only [if_pos hn]
      exact writeAddress_extends ha (.refl ha) target .null
    · simp only [if_neg hn, Action.ends_bind]
      exact (copyObject_extends hc old ha).mono (fun new t' e => writeAddress_extends ha e target new) fun _ t' e =>
        e.mono fun _ _ h => h.elim
  | @slice element _ ih =>
    intro source target t ha _
    simp only [copyShape, Action.Always, Action.ends_bind, Action.ends_query]
    cases hr : t.heap.readSlice source with
    | error e => exact .refl ha
    | ok s =>
    exact (copySlice_extends s ha ih).mono (fun copy t' e => writeSlice_extends ha e target copy) fun _ t' e =>
      e.mono fun _ _ h => h.elim
  | @aggregate layout placed size _ _ ih =>
    intro source target t ha hlt
    rw [copyShape_aggregate]
    have hplace : ∀ f ∈ layout.fields, (target + f.offset).toNat + f.shape.size ≤ 2 ^ 64 ∧
        ∀ x, Heap.Window (target + f.offset).toNat f.shape.size x → Heap.Window target.toNat layout.size x :=
      fun f hf => by
        have h1 := (placed.bounds hf).2
        simp only [Shape.size] at hlt
        by_cases hz : target.toNat + f.offset < 2 ^ 64
        · rw [Address.toNat_add_of_lt hz]
          exact ⟨by omega, fun x hx => hx.mono (by omega) (by omega)⟩
        · -- only an empty field can start at the very end
          have h2 : target.toNat + f.offset = 2 ^ 64 := by omega
          have h3 : (target + f.offset).toNat = 0 := by rw [Address.toNat_add, h2, Nat.mod_self]
          rw [h3]
          exact ⟨by omega, fun x hx => by have := hx.2; omega⟩
    refine pieces_extend ha (fun p hp t' ha' => ?_) fun p hp x _ hw => ?_
    · obtain ⟨f, hf, rfl⟩ := List.mem_map.1 hp
      exact ih f hf ha' (hplace f hf).1
    · obtain ⟨f, hf, rfl⟩ := List.mem_map.1 hp
      exact (hplace f hf).2 x hw

/-! ## A whole copy -/

/-- A copy in progress, seen from the heap that it started on: nothing old was written, and each job in the queue has a
block of the copy to work on. -/
structure Kept (h : Heap) (t : Traversal) : Prop where
  heap : Heap.Grows Heap.Nowhere h t.heap
  queue : ∀ j ∈ t.queue, h.next.toNat ≤ j.target.toNat ∧ (j.target.toNat, j.type.size) ∈ t.heap.outline ∧ j.type.Built

variable {h : Heap}

theorem Kept.extend (ha : h.Arranged) {W : Nat → Prop} {t t' : Traversal} (k : Kept h t) (e : Extends W t t')
    (hw : ∀ x, W x → h.next.toNat ≤ x) : Kept h t' where
  heap := k.heap.trans ha e.heap fun x hx hx' => Nat.not_lt.2 (hw x hx') hx
  queue := by
    obtain ⟨new, hq, hn⟩ := e.queue
    intro j hj
    rw [hq] at hj
    rcases List.mem_append.1 hj with hj | hj
    · obtain ⟨h1, h2, h3⟩ := k.queue j hj
      exact ⟨h1, e.heap.outline.subset h2, h3⟩
    · obtain ⟨h1, h2, h3⟩ := hn j hj
      exact ⟨Nat.le_trans (k.heap.next_le ha) h1, h2, h3⟩

theorem Kept.start (ha : h.Arranged) : Kept h ⟨h, {}⟩ := ⟨.refl ha, fun _ h => (List.not_mem_nil h).elim⟩

theorem finish_extends (hc : ∀ d ∈ c.entries, d.type.Built) {j : Job} {t : Traversal}
    (ha : t.heap.Arranged) (hj : (j.target.toNat, j.type.size) ∈ t.heap.outline) (hb : j.type.Built) :
    (finish c j).Always t (Extends (Heap.Window j.target.toNat j.type.size) t) := by
  have hend := (ha.bounds hj).2.1
  have hspan := Heap.le_span j.type.size
  have hlast := t.heap.next.toNat_lt
  simp only at hend
  rw [finish_eq]
  have hplace : ∀ f ∈ j.type.fields, (j.target + f.offset).toNat = j.target.toNat + f.offset ∧
      f.offset + f.shape.size ≤ j.type.size := fun f hf => by
    have h1 := (hb.placed.bounds hf).2
    exact ⟨Address.toNat_add_of_lt (by omega), h1⟩
  refine pieces_extend ha (fun p hp t' ha' => ?_) fun p hp x _ hw => ?_
  · obtain ⟨f, hf, rfl⟩ := List.mem_map.1 hp
    obtain ⟨h1, h2⟩ := hplace f hf
    refine copyShape_extends hc (hb.built f hf).copied ha' ?_
    rw [Shape.size_copied, Piece.ofObjectField, h1]
    omega
  · obtain ⟨f, hf, rfl⟩ := List.mem_map.1 hp
    obtain ⟨h1, h2⟩ := hplace f hf
    obtain ⟨hw1, hw2⟩ := hw
    simp only [Piece.ofObjectField, Shape.size_copied, h1] at hw1 hw2
    exact ⟨by omega, by omega⟩

theorem drain_keeps (hc : ∀ d ∈ c.entries, d.type.Built) (ha : h.Arranged) :
    ∀ (n : Nat) {t : Traversal}, Kept h t → (drain c n).Always t (Kept h)
  | 0, _, k => k
  | n + 1, t, k => by
    simp only [drain, pop?, Action.Always, Action.ends_bind, Action.ends_get]
    cases hq : t.duplicator.pending with
    | nil => exact k
    | cons j rest =>
      simp only [Action.ends_bind, Action.ends_set, Action.ends_pure]
      obtain ⟨h1, h2, h3⟩ := k.queue j (by rw [queue, hq]; exact List.mem_cons_self)
      have k' : Kept h { t with duplicator := { t.duplicator with pending := rest } } :=
        ⟨k.heap, fun i hi => k.queue i (by rw [queue, hq]; exact List.mem_cons_of_mem _ hi)⟩
      exact (finish_extends hc (t := { t with duplicator := { t.duplicator with pending := rest } }) k.heap.arranged
        h2 h3).mono (fun _ t' e => drain_keeps hc ha n (k'.extend ha e fun x hx => Nat.le_trans h1 hx.1))
        fun _ t' e => k'.extend ha e fun x hx => Nat.le_trans h1 hx.1

end

end Traversal

/-- The values that can be asked for: their layouts were built. -/
def Value.Made : Value → Prop
  | .aggregate _ layout => (Shape.aggregate layout).Made
  | .slice _ element => element.Made
  | .scalar _ | .object _ => True

namespace Traversal

/-- **A copy keeps the old heap**, however it ends. -/
theorem copyRoot_keeps {c : Catalog} (hc : ∀ d ∈ c.entries, d.type.Built) {h : Heap} (ha : h.Arranged) {v : Value}
    (hv : v.Made) : (copyRoot c v).Always ⟨h, {}⟩ (Kept h) := by
  have k0 := Kept.start ha
  cases v with
  | scalar bytes => exact k0
  | object target =>
    cases target with
    | none => exact k0
    | some source =>
      simp only [copyRoot, Action.Always, Action.ends_bind, Action.ends_pure]
      exact (copyObject_extends hc source (t := ⟨h, {}⟩) ha).mono
        (fun _ t e => drain_keeps hc ha _ (k0.extend ha e fun _ h => h.elim))
        fun _ t e => k0.extend ha e fun _ h => h.elim
  | aggregate source layout =>
    simp only [copyRoot, Action.Always, Action.ends_bind, Action.ends_pure, onHeap, Action.ends_on,
      Heap.ends_newBlock]
    cases hx : h.allocate layout.size with
    | error f => exact k0
    | ok r =>
      obtain ⟨b, k⟩ := r
      obtain ⟨rfl, hk, hout, -⟩ := Heap.allocate_spec ha hx
      have hend := (hk.bounds (e := (h.next.toNat, layout.size)) (hout ▸ List.mem_cons_self)).2.1
      have hspan := Heap.le_span layout.size
      have hlast := k.next.toNat_lt
      simp only at hend
      have k1 := k0.extend ha (Extends.of_heap (W := Heap.Nowhere) (t := ⟨h, {}⟩) (Heap.grows_allocate ha hx))
        fun _ h => h.elim
      simp only [copyAggregate_eq]
      exact (copyShape_extends hc hv.built (t := ⟨k, {}⟩) hk (by simp only [Shape.size]; omega)).mono
        (fun _ t e => drain_keeps hc ha _ (k1.extend ha e fun _ hx => hx.1))
        fun _ t e => k1.extend ha e fun _ hx => hx.1
  | slice s element =>
    simp only [copyRoot]
    split
    · simp only [Action.Always, Action.ends_bind, Action.ends_pure]
      exact (copySlice_extends s (t := ⟨h, {}⟩) ha (copyShape_extends hc hv.built)).mono
        (fun _ t e => drain_keeps hc ha _ (k0.extend ha e fun _ h => h.elim))
        fun _ t e => k0.extend ha e fun _ h => h.elim
    · exact k0

end Traversal

/-! ## Calls -/

namespace Duplicator

/-- What was there before is there after: every block with its bytes, the classes and the symbols. -/
structure Untouched (s s' : Allocator) : Prop where
  blocks : s.heap.blocks <:+ s'.heap.blocks
  catalog : s'.catalog = s.catalog
  registry : s'.registry = s.registry
  settings : s'.settings = s.settings

structure Call where
  before : Allocator → Allocator
  value : Value

/-- What the calls answer, one after the other on the duplicator that the last one left, until one ends in a fault. -/
def reused : List Call → Allocator × Duplicator → List (EStateM.Result (Stop Error) Allocator Value)
  | [], _ => []
  | call :: calls, (s, d) =>
    match deepCopy call.value (call.before s, d) with
    | .ok copy (s, d) => .ok copy s :: reused calls (s, d)
    | .error (.failure e) (s, d) => .error (.failure e) s :: reused calls (s, d)
    | .error (.fault f) (s, _) => [.error (.fault f) s]

def renewed : List Call → Allocator → List (EStateM.Result (Stop Error) Allocator Value)
  | [], _ => []
  | call :: calls, s =>
    match Allocator.deepCopy call.value (call.before s) with
    | .ok copy s => .ok copy s :: renewed calls s
    | .error (.failure e) s => .error (.failure e) s :: renewed calls s
    | .error (.fault f) s => [.error (.fault f) s]

theorem ends_deepCopy {s : Allocator} {d : Duplicator} {ok : Value → Allocator × Duplicator → Prop}
    {stop : Stop Error → Allocator × Duplicator → Prop} (v : Value) :
    (deepCopy v).Ends (s, d) ok stop ↔
      (Traversal.copyRoot s.catalog v).Ends ⟨s.heap, d⟩ (fun copy t => ok copy ({ s with heap := t.heap }, {}))
        fun e t => match e with
          | .failure e => stop (.failure e) ({ s with heap := t.heap }, {})
          | .fault f => stop (.fault f) ({ s with heap := t.heap }, t.duplicator) := by
  simp only [deepCopy, Action.ends_bind, Action.ends_get, Action.ends_on]
  simp only [Action.Ends, Traversal.deepCopy]
  rcases Traversal.copyRoot s.catalog v ⟨s.heap, d⟩ with ⟨a, t⟩ | ⟨e | f, t⟩ <;> rfl

theorem returned_clear (s : Allocator) (d : Duplicator) (v : Value) :
    (deepCopy v).Ends (s, d) (fun _ sd => sd.2 = {}) fun e sd => ∀ e', e = .failure e' → sd.2 = {} := by
  rw [ends_deepCopy]
  simp only [Action.Ends]
  rcases Traversal.copyRoot s.catalog v ⟨s.heap, d⟩ with ⟨a, t⟩ | ⟨e | f, t⟩
  · trivial
  · exact fun _ _ => trivial
  · exact fun _ h => by cases h

theorem untouched_of_kept {s : Allocator} (ha : s.heap.Arranged) {t : Traversal} (k : t.Kept s.heap) :
    Untouched s { s with heap := t.heap } := ⟨k.heap.blocks ha, rfl, rfl, rfl⟩

theorem ends_untouched {s : Allocator} (hs : s.Sound) {v : Value} (hv : v.Made) :
    (deepCopy v).Always (s, {}) fun sd => Untouched s sd.1 := by
  rw [Action.Always, ends_deepCopy]
  exact (Traversal.copyRoot_keeps hs.built hs.arranged hv).mono
    (fun _ t k => untouched_of_kept hs.arranged k) fun e t k => by
      cases e with
      | failure e => exact untouched_of_kept hs.arranged k
      | fault f => exact untouched_of_kept hs.arranged k

theorem reused_eq_renewed : ∀ (calls : List Call) (s : Allocator), reused calls (s, {}) = renewed calls s
  | [], _ => rfl
  | call :: calls, s => by
    have hclear := returned_clear (call.before s) {} call.value
    simp only [reused, renewed, Allocator.deepCopy, Action.Ends] at hclear ⊢
    rcases hr : deepCopy call.value (call.before s, {}) with ⟨copy, s', d⟩ | ⟨e | f, s', d⟩ <;> rw [hr] at hclear
    · obtain rfl : d = {} := hclear
      simp only [reused_eq_renewed calls s']
    · obtain rfl : d = {} := hclear e rfl
      simp only [reused_eq_renewed calls s']

/-- **A deep copy touches nothing that was there, and a duplicator carries nothing over.**  Whatever lies on the heap,
and however the call ends, every old block keeps its place, its size and its bytes, and the catalog and the registry
are the same; a call that returns, with a copy or with a failure, leaves the duplicator as it was made.  So calls one after
the other on one duplicator answer, and leave the heap, as calls on new duplicators would. -/
theorem deepCopy_untouched {s : Allocator} (hs : s.Sound) {v : Value} (hv : v.Made) :
    (deepCopy v).Ends (s, {}) (fun _ sd => Untouched s sd.1 ∧ sd.2 = {})
      (fun e sd => Untouched s sd.1 ∧ ∀ e', e = .failure e' → sd.2 = {}) ∧
    ∀ calls, reused calls (s, {}) = renewed calls s :=
  ⟨(ends_untouched hs hv).and (returned_clear s {} v), fun calls => reused_eq_renewed calls s⟩

/-- Another heap stands in the place of the first one. -/
def threeBytes : Allocator :=
  { Allocator.withRegistry {} { mapsPath := "" } with
    heap := ⟨[⟨.ofNat 0x10000000, [1, 2, 3]⟩], .ofNat 0x10000010⟩ }

theorem deepCopy_untouched_threeBytes :
    ∃ copy s', deepCopy (.slice ⟨3, .ofNat 0x10000000⟩ (.scalar 1)) (threeBytes, {}) = .ok copy (s', {}) ∧
      Untouched threeBytes s' := by
  have hs : threeBytes.Sound :=
    (Allocator.Reachable.start {} { mapsPath := "" }).sound.replace ⟨by decide, by decide⟩
  obtain ⟨h, -⟩ := deepCopy_untouched hs (v := .slice ⟨3, .ofNat 0x10000000⟩ (.scalar 1)) (.scalar 1)
  have hrun : (deepCopy (.slice ⟨3, .ofNat 0x10000000⟩ (.scalar 1))).returns (threeBytes, {}) = true := by
    decide +kernel
  obtain ⟨copy, sd, hd⟩ := Action.exists_of_returns hrun
  obtain ⟨hu, hclear⟩ := h.of_ok hd
  exact ⟨copy, sd.1, by rw [hd, ← hclear], hu⟩

end Duplicator
end Introspect
