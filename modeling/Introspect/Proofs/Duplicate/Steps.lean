import Introspect.Proofs.Duplicate.Progress
/-!
# Each step of a copy

One statement for each operation of the copy: from an invariant state it ends in an invariant state, in which what it
was asked to copy is copied, and it has taken the blocks that were foreseen (`spent`).  Where it stops instead, memory
is used up or something that the value reaches is broken (`Halted`).
-/
namespace Introspect

open Allocator

variable {s : Allocator} {v : Value} {own : Option Address → Address → Prop}

/-- The blocks of the heap and those that the objects not yet on record will take. -/
noncomputable def Traversal.spent (s : Allocator) (v : Value) (t : Traversal) : Multiset Nat :=
  t.heap.sizes + ∑ x ∈ (s.objects v).filter (fun x => t.copyOf? x = none), {s.sizeAt x}

/-- How a copy is stopped, and what is on record then: objects of the source only. -/
structure Halted (s : Allocator) (v : Value) (e : Stop Error) (t : Traversal) : Prop where
  known : ∀ x y, t.copyOf? x = some y → s.Reaches v (.object x) ∧ ∃ d, s.classOf x = .ok d
  cause : ((∃ f, e = .fault f) ∧ ¬ Heap.Room (s.total v)) ∨ ((∃ err, e = .failure err) ∧ Flaw s v)

/-- A block that came in between two states and is not the copy of an object. -/
def Traversal.Added (t t' : Traversal) (b : Address) : Prop :=
  t.heap.Beyond b ∧ t'.heap.Starts b ∧ ∀ x, t'.copyOf? x ≠ some b

theorem Traversal.sizes_le_spent (t : Traversal) : t.heap.sizes ≤ t.spent s v := Multiset.le_add_right _ _

theorem Traversal.spent_of_outline {t : Traversal} {h : Heap} (ho : h.outline = t.heap.outline) :
    Traversal.spent s v { t with heap := h } = t.spent s v := by
  unfold spent
  rw [Heap.sizes_eq, Heap.sizes_eq, ho]
  rfl

theorem Traversal.spent_of_block {t : Traversal} {h : Heap} {a n : Nat} (ho : h.outline = (a, n) :: t.heap.outline) :
    Traversal.spent s v { t with heap := h } = t.spent s v + {n} := by
  unfold spent
  rw [Heap.sizes_eq, Heap.sizes_eq, ho, List.map_cons, ← Multiset.cons_coe, Multiset.cons_add,
    ← Multiset.singleton_add, add_comm]
  rfl

/-- A block that finds no room in a part of the blocks to come finds none in all of them. -/
theorem no_room {h : Heap} {n : Nat} {f : Fault} (ha : h.Arranged) (hx : h.allocate n = .error f)
    (hle : n ::ₘ h.sizes ≤ s.total v) : ¬ Heap.Room (s.total v) := fun hr =>
  Heap.no_room_of_allocate ha hx (hr.mono hle)

namespace Underway

variable {busy : Nat → Prop} {t : Traversal}

theorem known (u : Underway s v own busy t) {x y : Address} (hxy : t.copyOf? x = some y) :
    s.Reaches v (.object x) ∧ ∃ d, s.classOf x = .ok d := by
  obtain ⟨d, _, w⟩ := u.twins x y hxy
  exact ⟨w.reached, d, w.classOf⟩

theorem failed (u : Underway s v own busy t) {err : Error} (hf : Flaw s v) : Halted s v (.failure err) t :=
  ⟨fun _ _ => u.known, .inr ⟨⟨err, rfl⟩, hf⟩⟩

theorem faulted (u : Underway s v own busy t) {f : Fault} (hr : ¬ Heap.Room (s.total v)) : Halted s v (.fault f) t :=
  ⟨fun _ _ => u.known, .inl ⟨⟨f, rfl⟩, hr⟩⟩

theorem read_eq (hs : s.Sound) (u : Underway s v own busy t) (hle : t.spent s v ≤ s.total v) {a : Address} {n : Nat}
    (hc : s.Clear v a.toNat n) : t.heap.read a n = s.heap.read a n :=
  hc.read hs u.grown (le_trans t.sizes_le_spent hle)

end Underway

/-! ## An object -/

/-- The state in which an object has been put on record, its instance made and its job queued. -/
def Traversal.recorded (t : Traversal) (h : Heap) (x y : Address) (type : Class) : Traversal :=
  ⟨h, ⟨t.duplicator.identity.insert x y, t.duplicator.pending ++ [⟨x, y, type⟩]⟩⟩

theorem Traversal.copyOf?_recorded (t : Traversal) (h : Heap) (x y : Address) (type : Class) (z : Address) :
    (t.recorded h x y type).copyOf? z = if z = x then some y else t.copyOf? z :=
  IdentityMap.find?_insert ..

theorem Underway.target_lt {busy : Nat → Prop} {t : Traversal} (u : Underway s v own busy t) {x y : Address}
    (hxy : t.copyOf? x = some y) : y.toNat < t.heap.next.toNat := by
  obtain ⟨d, _, w⟩ := u.twins x y hxy
  have h1 := (u.grown.arranged.bounds w.block).2.1
  have h2 := Heap.one_le_span d.type.size
  simp only at h1
  omega

/-- While a new block is filled, what comes in lies behind it, and the block itself is the copy of no object. -/
theorem Underway.block {busy : Nat → Prop} {t t' : Traversal} (u : Underway s v own busy t) {h : Heap} {n : Nat}
    (g : Heap.Grows Heap.Nowhere t.heap h) (hblock : (t.heap.next.toNat, n) ∈ h.outline) {W : Nat → Prop}
    (x : Traversal.Extends W { t with heap := h } t') :
    t.Added t' t.heap.next ∧ ∀ b, Traversal.Added { t with heap := h } t' b → t.Added t' b ∧ b ≠ t.heap.next := by
  have hnext := (g.arranged.bounds hblock).2.1
  have hspan := Heap.one_le_span n
  simp only at hnext
  refine ⟨⟨Nat.le_refl _, ⟨n, x.heap.outline.subset hblock⟩, fun z hz => ?_⟩,
    fun b hadd => ⟨⟨?_, hadd.2⟩, fun heq => ?_⟩⟩
  · rcases x.fresh z _ hz with hold | ⟨hnew, -⟩
    · exact absurd (u.target_lt hold) (Nat.lt_irrefl _)
    · simp only at hnew
      omega
  · exact Nat.le_trans (g.next_le u.grown.arranged) hadd.1
  · have hbehind : h.next.toNat ≤ b.toNat := hadd.1
    rw [heq] at hbehind
    omega

theorem Traversal.known_recorded {t : Traversal} {h : Heap} {x y : Address} {type : Class} (hx : t.copyOf? x = none)
    {a b : Address} (hab : t.copyOf? a = some b) : (t.recorded h x y type).copyOf? a = some b := by
  have hne : a ≠ x := fun h => by
    rw [h, hx] at hab
    cases hab
  rw [copyOf?_recorded, if_neg hne, hab]

/-- A block that was there is not the one of the object that comes on record. -/
theorem Traversal.Settles.recorded {busy : Nat → Prop} {t : Traversal} (ha : t.heap.Arranged) {h : Heap} {x b : Address}
    {type : Class} (ho : t.heap.outline ⊆ h.outline) (hset : t.Settles s busy b) :
    (t.recorded h x t.heap.next type).Settles s busy b := by
  obtain ⟨⟨hbeyond, hnone⟩, ⟨n, hn⟩, hb⟩ := hset
  refine ⟨⟨hbeyond, fun a hab => ?_⟩, ⟨n, ho hn⟩, hb⟩
  rw [copyOf?_recorded] at hab
  split at hab
  · exact ha.not_starts (Nat.le_of_eq (congrArg Address.toNat (Option.some.inj hab))) ⟨n, hn⟩
  · exact hnone a hab

theorem Underway.record (hs : s.Sound) {busy : Nat → Prop} {t : Traversal} (u : Underway s v own busy t) {h : Heap}
    {x y vtable : Address} {d : Declared} (hx : t.copyOf? x = none) (hy : y = t.heap.next)
    (g : Heap.Grows Heap.Nowhere t.heap h) (w : Twin s v h x y d vtable) :
    Underway s v own busy (t.recorded h x y d.type) := by
  subst hy
  have hqueue : (t.recorded h x t.heap.next d.type).queue = t.queue ++ [⟨x, t.heap.next, d.type⟩] := rfl
  have u' : Underway s v own busy { t with heap := h } := u.grow hs g (fun _ h => h.elim) (fun _ _ _ _ _ h => h)
    (fun _ _ _ hb => ⟨hb, fun _ _ h => h⟩) fun _ h => h
  refine ⟨u'.grown, fun z w' hz => ?_, fun z z' w' hz hz' => ?_, fun j hj => ?_, ?_,
    u.divided.mono fun _ hset => hset.recorded u.grown.arranged g.outline.subset, fun z w' d' hz hb hq hd => ?_⟩
  · rw [Traversal.copyOf?_recorded] at hz
    split at hz
    · rename_i hzx
      obtain rfl := Option.some.inj hz
      exact ⟨d, vtable, hzx ▸ w⟩
    · exact u'.twins z w' hz
  · rw [Traversal.copyOf?_recorded] at hz hz'
    split at hz <;> split at hz'
    · rename_i h1 h2
      rw [h1, h2]
    · exact absurd (u.target_lt hz') (by rw [← Option.some.inj hz]; exact Nat.lt_irrefl _)
    · exact absurd (u.target_lt hz) (by rw [← Option.some.inj hz']; exact Nat.lt_irrefl _)
    · exact u.injective _ _ _ hz hz'
  · rw [hqueue] at hj
    rw [Traversal.copyOf?_recorded]
    rcases List.mem_append.1 hj with hj | hj
    · obtain ⟨h1, h2⟩ := u.queue j hj
      have hne : j.source ≠ x := fun h => by
        rw [h, hx] at h1
        cases h1
      exact ⟨by rw [if_neg hne, h1], h2⟩
    · obtain rfl := List.mem_singleton.1 hj
      exact ⟨if_pos rfl, d, w.classOf, rfl⟩
  · rw [hqueue, List.map_append, List.nodup_append]
    refine ⟨u.distinct, List.nodup_singleton _, fun a ha b hb hab => ?_⟩
    obtain ⟨j, hj, rfl⟩ := List.mem_map.1 ha
    obtain rfl : b = x := List.mem_singleton.1 hb
    have h1 := (u.queue j hj).1
    rw [hab, hx] at h1
    cases h1
  · rw [hqueue, List.map_append, List.mem_append] at hq
    rw [Traversal.copyOf?_recorded] at hz
    split at hz
    · rename_i hzx
      exact absurd (.inr (hzx ▸ List.mem_cons_self)) hq
    · obtain ⟨d'', _, w''⟩ := u.twins z w' hz
      obtain rfl : d'' = d' := Except.ok.inj (w''.classOf.symm.trans hd)
      exact (u.done z w' d'' hz hb (fun h => hq (.inl h)) hd).mono hs u.grown.arranged g w''
        (fun _ _ => Traversal.known_recorded hx) (fun _ _ _ _ _ _ h => h) fun _ _ h => h

theorem Traversal.spent_recorded {t : Traversal} {h : Heap} {x y : Address} {d : Declared}
    (hx : t.copyOf? x = none) (hmem : x ∈ s.objects v) (hd : s.classOf x = .ok d)
    (ho : h.outline = (y.toNat, d.type.size) :: t.heap.outline) :
    (t.recorded h x y d.type).spent s v = t.spent s v ∧ d.type.size ::ₘ t.heap.sizes ≤ t.spent s v := by
  have hsize : s.sizeAt x = d.type.size := by rw [sizeAt, hd]
  have hfilter : (s.objects v).filter (fun z => (t.recorded h x y d.type).copyOf? z = none)
      = ((s.objects v).filter fun z => t.copyOf? z = none).erase x := by
    ext z
    simp only [Finset.mem_filter, Finset.mem_erase, copyOf?_recorded]
    by_cases hz : z = x
    · simp [hz]
    · simp [hz]
  have hsum := Finset.add_sum_erase ((s.objects v).filter fun z => t.copyOf? z = none)
    (fun z => ({s.sizeAt z} : Multiset Nat)) (Finset.mem_filter.2 ⟨hmem, hx⟩)
  have hsizes : h.sizes = d.type.size ::ₘ t.heap.sizes := by
    simp only [Heap.sizes_eq, ho, List.map_cons, Multiset.cons_coe]
  constructor
  · simp only [spent, hfilter, ← hsum, hsize]
    rw [show (t.recorded h x y d.type).heap = h from rfl, hsizes, Multiset.singleton_add, Multiset.cons_add,
      Multiset.add_cons]
  · simp only [spent, ← hsum, hsize]
    rw [Multiset.singleton_add, Multiset.add_cons]
    exact Multiset.cons_le_cons _ (Multiset.le_add_right _ _)

/-- **An object that the value reaches gets its twin**, and keeps the one that it has. -/
theorem copyObject_spec (hs : s.Sound) (hc : s.Settled v) {busy : Nat → Prop} {t : Traversal}
    (u : Underway s v own busy t) {x : Address} (hx : s.Reaches v (.object x)) (hle : t.spent s v ≤ s.total v) :
    (Traversal.copyObject s.catalog x).Ends t
      (fun y t' => Underway s v own busy t' ∧ t'.copyOf? x = some y ∧ t'.spent s v = t.spent s v) (Halted s v) := by
  simp only [Traversal.copyObject, Action.ends_bind, Action.ends_get]
  cases hf : t.duplicator.identity.find? x with
  | some y => exact ⟨u, hf, rfl⟩
  | none =>
    simp only [Action.ends_bind, Action.ends_query, Class.vtableOffset, Address.add_zero]
    rw [Heap.readAddress_congr (u.read_eq hs hle (hc.objects x hx))]
    cases hr : s.heap.readAddress x with
    | error e =>
      exact u.failed (.object hx (by simp only [classOf, Class.vtableOffset, Address.add_zero, hr]; rfl))
    | ok vtable =>
    simp only
    have hof := hc.ofVtable_eq hs u.grown (le_trans t.sizes_le_spent hle) hx hr
    rw [hof]
    cases hd : s.ofVtable vtable with
    | error e =>
      exact u.failed (.object hx (by simp only [classOf, Class.vtableOffset, Address.add_zero, hr]; exact hd))
    | ok d =>
    have hclass : s.classOf x = .ok d := classOf_ok.2 ⟨vtable, hr, hd⟩
    have hmem : x ∈ s.objects v := mem_objects.2 ⟨hx, d, hclass⟩
    simp only [Traversal.onHeap, Action.ends_on]
    refine (Catalog.ends_newInstance u.grown.arranged (hof.trans hd) (hs.built_of_classOf hclass)).mono
      (fun y h hnew => ?_) fun e h hstop => ?_
    · obtain ⟨hy, g, ho, hv, hm, -⟩ := hnew
      simp only [Traversal.onIdentity, Traversal.push, Action.ends_on, IdentityMap.record, Action.ends_bind,
        Action.ends_get, Action.ends_modify, hf, Option.isSome_none, Bool.false_eq_true, if_false, Action.ends_pure]
      have w : Twin s v h x y d vtable :=
        ⟨hx, by rw [hy]; exact u.grown.next_le hs.arranged, hclass, ho ▸ List.mem_cons_self, hr, hv, hm⟩
      exact ⟨u.record hs hf hy g w, (t.copyOf?_recorded h x y d.type x).trans (if_pos rfl),
        (Traversal.spent_recorded hf hmem hclass ho).1⟩
    · obtain ⟨hh, f, he, hx⟩ := hstop
      rw [hh, he]
      refine u.faulted (no_room u.grown.arranged hx (le_trans ?_ hle))
      exact (Traversal.spent_recorded (y := t.heap.next) (h := ⟨⟨t.heap.next, List.replicate d.type.size 0⟩ ::
        t.heap.blocks, .null⟩) hf hmem hclass (by simp [Heap.outline])).2

/-! ## A piece -/

/-- What is said of copying a piece of a shape, wherever it lies and wherever it goes. -/
def Faithful (s : Allocator) (v : Value) (shape : Shape) : Prop :=
  ∀ {own : Option Address → Address → Prop} {busy : Nat → Prop} {t : Traversal} {source target : Address},
    Underway s v own busy t → s.Reaches v (.piece shape source) →
    t.Open s busy target.toNat shape.size →
    t.spent s v + s.heap.buffers shape source ≤ s.total v →
    (Traversal.copyShape s.catalog shape source target).Ends t
      (fun _ t' => Underway s v own busy t' ∧ Copied s.heap t'.heap t'.copyOf? (t.Added t') shape source target ∧
        t'.spent s v = t.spent s v + s.heap.buffers shape source) (Halted s v)

theorem copyBytes_spec (hs : s.Sound) (hc : s.Settled v) {busy : Nat → Prop} {t : Traversal}
    (u : Underway s v own busy t) {shape : Shape} {source target : Address} {n : Nat}
    (hr : s.Reaches v (.piece shape source)) (hreads : n ≠ 0 → shape.Reads source source n)
    (o : t.Open s busy target.toNat n) (hle : t.spent s v ≤ s.total v) :
    (Traversal.onHeap (Action.modifyM (·.copy source target n))).Ends t
      (fun _ t' => Underway s v own busy t' ∧ t'.heap.bytesAt target.toNat n = s.heap.bytesAt source.toNat n ∧
        t'.spent s v = t.spent s v) (Halted s v) := by
  have ha := u.grown.arranged
  have hread : n ≠ 0 → t.heap.read source n = s.heap.read source n := fun hn =>
    u.read_eq hs hle (hc.pieces _ _ _ _ hr (hreads hn))
  simp only [Traversal.onHeap, Action.ends_on, Action.ends_modifyM]
  by_cases hin : n ≠ 0 → s.heap.Inside source.toNat n
  · obtain ⟨h, hx, hbytes⟩ := Heap.copy_inside ha (fun hn => u.grown.inside (hin hn)) o.inside
    rw [hx]
    refine ⟨u.write hs o (Heap.grows_copy ha hx), hbytes.trans ?_, Traversal.spent_of_outline (Heap.outline_copy ha hx)⟩
    by_cases hn : n = 0
    · rw [hn]
      rfl
    · have := hread hn
      rw [Heap.read_inside ha (u.grown.inside (hin hn)), Heap.read_inside hs.arranged (hin hn)] at this
      exact Except.ok.inj this
  · obtain ⟨hn, hout⟩ := Classical.not_imp.1 hin
    have hout' : ¬ t.heap.Inside source.toNat n := fun h => by
      have := hread hn
      rw [Heap.read_inside ha h, Heap.read_outside hout] at this
      cases this
    rw [Heap.copy_outside hn hout']
    exact u.failed (.piece hr (hreads hn) hout)

/-- Each of the pieces is copied, with blocks of its own among those that came in. -/
def CopiedPieces (s : Allocator) (t : Traversal) (ps : List Piece) (t' : Traversal) : Prop :=
  ∃ part : Nat → Address → Prop, Divided (t.Added t') part ∧ ∀ i p, ps[i]? = some p →
    Copied s.heap t'.heap t'.copyOf? (part i) p.shape p.source p.target

theorem CopiedPieces.nil {t t' : Traversal} : CopiedPieces s t [] t' :=
  ⟨fun _ _ => False, ⟨fun _ _ h => h.elim, fun _ _ _ h => h.elim⟩, fun _ _ h => by cases h⟩

/-- What has come in for a piece is its own, and was not there when the pieces before it were copied. -/
theorem CopiedPieces.snoc {t t₁ t₂ : Traversal} {ps : List Piece} {p : Piece} (hdone : CopiedPieces s t ps t₁)
    (ha : t.heap.Arranged) (ha₁ : t₁.heap.Arranged) (x₁ : t.Extends Everywhere t₁)
    (x₂ : t₁.Extends (Heap.Window p.target.toNat p.shape.size) t₂)
    (hps : ∀ q ∈ ps, q.shape.Built ∧ t₁.heap.Inside q.target.toNat q.shape.size ∧
      q.target.toNat + q.shape.size ≤ p.target.toNat)
    (hp : t.heap.Inside p.target.toNat p.shape.size)
    (hcopy : Copied s.heap t₂.heap t₂.copyOf? (t₁.Added t₂) p.shape p.source p.target) :
    CopiedPieces s t (ps ++ [p]) t₂ := by
  obtain ⟨part, hdivided, hcopied⟩ := hdone
  have hmore : ∀ b, t.Added t₁ b → t.Added t₂ b := fun b hb => by
    obtain ⟨hbeyond, ⟨n, hn⟩, hnone⟩ := hb
    refine ⟨hbeyond, ⟨n, x₂.heap.outline.subset hn⟩, fun z hz => ?_⟩
    rcases x₂.fresh z b hz with h | ⟨h, -⟩
    · exact hnone z h
    · exact ha₁.not_starts h ⟨n, hn⟩
  refine ⟨Function.update part ps.length (t₁.Added t₂), (hdivided.mono hmore).add ps.length fun b hb => ?_,
    fun i q hq => ?_⟩
  · exact ⟨⟨Nat.le_trans (x₁.heap.next_le ha) hb.1, hb.2⟩, fun i hi =>
      ha₁.not_starts hb.1 (hdivided.within i b hi).2.1⟩
  · by_cases hi : i < ps.length
    · rw [List.getElem?_append_left hi] at hq
      rw [Function.update_of_ne (Nat.ne_of_lt hi)]
      obtain ⟨hb, hin, hrow⟩ := hps q (List.mem_of_getElem? hq)
      -- what the new piece writes lies in its own window, which was there before any block came in
      refine (hcopied i q hq).mono ha₁ x₂.heap x₂.known (fun c n hc _ z hz => hz.apart (.inr ?_)) hb hin
        fun z hz => hz.apart (.inl hrow)
      exact Nat.le_trans (ha.inside_le_next hp) (hdivided.within i c hc).1
    · obtain ⟨rfl, rfl⟩ : i = ps.length ∧ q = p := by
        have hlt : i < (ps ++ [p]).length := (List.getElem?_eq_some_iff.1 hq).1
        rw [List.length_append, List.length_singleton] at hlt
        obtain rfl : i = ps.length := by omega
        rw [List.getElem?_concat_length] at hq
        exact ⟨rfl, (Option.some.inj hq).symm⟩
      rw [Function.update_self]
      exact hcopy

/-- **Pieces that lie one behind the other** are copied one after the other, and none spoils another. -/
theorem pieces_spec (hs : s.Sound) {busy : Nat → Prop} {t : Traversal} (u : Underway s v own busy t) {ps : List Piece}
    (hps : ∀ p ∈ ps, p.shape.Built ∧ Faithful s v p.shape ∧ s.Reaches v (.piece p.shape p.source) ∧
      t.Open s busy p.target.toNat p.shape.size)
    (hrow : ps.Pairwise fun p q => p.target.toNat + p.shape.size ≤ q.target.toNat)
    (hle : t.spent s v + (ps.map fun p => s.heap.buffers p.shape p.source).sum ≤ s.total v) :
    (forM ps (Traversal.copyPiece s.catalog)).Ends t
      (fun _ t' => Underway s v own busy t' ∧ t.Extends Everywhere t' ∧ CopiedPieces s t ps t' ∧
        t'.spent s v = t.spent s v + (ps.map fun p => s.heap.buffers p.shape p.source).sum) (Halted s v) := by
  refine Action.ends_forM (I := fun (done : List Piece) t' => Underway s v own busy t' ∧ t.Extends Everywhere t' ∧
      CopiedPieces s t done t' ∧
      t'.spent s v = t.spent s v + (done.map fun p => s.heap.buffers p.shape p.source).sum)
    ⟨u, .refl u.grown.arranged, .nil, by simp⟩ ?_
  rintro done p rest t₁ rfl ⟨u₁, x₁, hdone, hspent⟩
  obtain ⟨hb, hp, hreach, o⟩ := hps p (List.mem_append_right _ List.mem_cons_self)
  have o₁ := o.extend u.grown.arranged x₁
  have hle₁ : t₁.spent s v + s.heap.buffers p.shape p.source ≤ s.total v := by
    refine le_trans ?_ hle
    rw [hspent, add_assoc, List.map_append, List.sum_append, List.map_cons, List.sum_cons]
    exact add_le_add_right (add_le_add_right (Multiset.le_add_right _ _) _) _
  have hlt := u₁.grown.arranged.inside_lt o₁.inside
  refine ((hp u₁ hreach o₁ hle₁).and (Traversal.copyShape_extends hs.built hb
    u₁.grown.arranged (Nat.le_of_lt hlt))).mono (fun _ t₂ hnext => ?_) fun _ _ h => h.1
  obtain ⟨⟨u₂, hcopy, hspent'⟩, x₂⟩ := hnext
  refine ⟨u₂, x₁.trans u.grown.arranged x₂ fun _ _ _ => trivial, ?_, ?_⟩
  · refine hdone.snoc u.grown.arranged u₁.grown.arranged x₁ x₂ (fun q hq => ?_) o.inside hcopy
    obtain ⟨hbq, -, -, oq⟩ := hps q (List.mem_append_left _ hq)
    exact ⟨hbq, (oq.extend u.grown.arranged x₁).inside,
      (List.pairwise_append.1 hrow).2.2 q hq p List.mem_cons_self⟩
  · rw [hspent', hspent, List.map_append, List.sum_append, List.map_singleton, List.sum_singleton, add_assoc]

/-! ## A slice -/

theorem Shape.elements_row {e : Shape} {n : Nat} {a b : Address} (hlt : b.toNat + n * e.size < 2 ^ 64) :
    (e.elements n a b).Pairwise fun p q => p.target.toNat + p.shape.size ≤ q.target.toNat := by
  have hoff : ∀ i < n, (b + i * e.size).toNat = b.toNat + i * e.size := fun i hi => by
    have h1 : i * e.size ≤ n * e.size := Nat.mul_le_mul_right _ (Nat.le_of_lt hi)
    exact Address.toNat_add_of_lt (by omega)
  refine List.pairwise_map.2 (List.pairwise_lt_range.imp_of_mem fun {i j} hi hj hij => ?_)
  simp only [Piece.ofElement, hoff i (List.mem_range.1 hi), hoff j (List.mem_range.1 hj)]
  have h2 : (i + 1) * e.size ≤ j * e.size := Nat.mul_le_mul_right _ hij
  rw [Nat.add_mul, Nat.one_mul] at h2
  omega

theorem Shape.getElem?_elements {e : Shape} {n i : Nat} {a b : Address} (hi : i < n) :
    (e.elements n a b)[i]? = some (.ofElement e a b i) := by
  rw [Shape.elements, List.getElem?_map, List.getElem?_range hi]
  rfl

/-- The buffer of a slice has come in; its elements are copied there, and it is at rest. -/
theorem copyElements_spec (hs : s.Sound) {e : Shape} (hb : e.Built) (ih : Faithful s v e) {busy : Nat → Prop}
    {t : Traversal} (u : Underway s v own busy t) {sl : Slice} (hr : s.Reaches v (.slice sl e)) (h0 : sl.length ≠ 0)
    (hn : s.heap.checkSlice sl e.size = .ok (sl.length.toNat * e.size)) {h : Heap}
    (g : Heap.Grows Heap.Nowhere t.heap h)
    (ho : h.outline = (t.heap.next.toNat, sl.length.toNat * e.size) :: t.heap.outline)
    (hle : t.spent s v + s.heap.buffersWith e.size (s.heap.buffers e) sl ≤ s.total v) :
    (Traversal.eachElement e.size (Traversal.copyShape s.catalog e) sl.length.toNat sl.data t.heap.next).Ends
      { t with heap := h }
      (fun _ t' => Underway s v own busy t' ∧
        CopiedSlice s.heap t'.heap t'.copyOf? (t.Added t') e sl ⟨sl.length, t.heap.next⟩ ∧
        t'.spent s v = t.spent s v + s.heap.buffersWith e.size (s.heap.buffers e) sl) (Halted s v) := by
  have hblock : (t.heap.next.toNat, sl.length.toNat * e.size) ∈ h.outline := ho ▸ List.mem_cons_self
  have hend := g.arranged.inside_lt (a := t.heap.next.toNat) (n := sl.length.toNat * e.size)
    ⟨_, hblock, Nat.le_refl _, Nat.le_refl _⟩
  let busy' : Nat → Prop := fun b => busy b ∨ b = t.heap.next.toNat
  have u₁ : Underway s v own busy' { t with heap := h } := u.allocate hs g (fun _ h => .inl h) fun b hb' =>
    hb'.imp_right fun h => Nat.le_of_eq h.symm
  have hsum : ((e.elements sl.length.toNat sl.data t.heap.next).map fun p => s.heap.buffers p.shape p.source)
      = (List.range sl.length.toNat).map fun i => s.heap.buffers e (sl.data + i * e.size) := by
    simp only [Shape.elements, List.map_map]
    rfl
  have htake : s.heap.buffersWith e.size (s.heap.buffers e) sl = {sl.length.toNat * e.size} +
      ((e.elements sl.length.toNat sl.data t.heap.next).map fun p => s.heap.buffers p.shape p.source).sum := by
    rw [Heap.buffersWith, if_neg h0, hn, hsum, Multiset.singleton_add]
  have hspent : Traversal.spent s v { t with heap := h } = t.spent s v + {sl.length.toNat * e.size} :=
    Traversal.spent_of_block ho
  rw [Traversal.eachElement_eq]
  refine (pieces_spec hs u₁ (fun p hp => ?_) (Shape.elements_row hend) ?_).mono
    (fun _ t₂ hpieces => ?_) fun _ _ h => h
  · obtain ⟨h1, h2, h3⟩ := Shape.elements_within hend hp
    obtain ⟨i, hi, rfl⟩ := List.mem_map.1 hp
    refine ⟨hb, ih, .element hr hn (List.mem_range.1 hi), _, hblock, .inr rfl,
      u.grown.next_le hs.arranged, h2, h3, fun x y hxy hy => ?_⟩
    have h4 : y.toNat < t.heap.next.toNat := u.target_lt hxy
    simp only at hy
    omega
  · rw [hspent, add_assoc, ← htake]
    exact hle
  · obtain ⟨u₂, x, hcopies, hspent₂⟩ := hpieces
    obtain ⟨hadded, hbehind⟩ := u.block g hblock x
    refine ⟨u₂.rest (fun _ h => .inl h) fun z y hzy hy => hy.resolve_right fun heq => ?_, ?_, ?_⟩
    · exact hadded.2.2 z (hzy.trans (congrArg some (Address.ext heq)))
    · obtain ⟨part, hdivided, hcopied⟩ := hcopies
      exact .slice h0 hadded (x.heap.outline.subset hblock) (hdivided.mono hbehind) fun i hi =>
        hcopied i _ (Shape.getElem?_elements hi)
    · rw [hspent₂, hspent, add_assoc, ← htake]

/-- **A slice gets a buffer of its own**, with a copy of every element in it. -/
theorem copySlice_spec (hs : s.Sound) (hc : s.Settled v) {e : Shape} (hb : e.Built) (ih : Faithful s v e)
    {busy : Nat → Prop} {t : Traversal} (u : Underway s v own busy t) {sl : Slice} (hr : s.Reaches v (.slice sl e))
    (hle : t.spent s v + s.heap.buffersWith e.size (s.heap.buffers e) sl ≤ s.total v) :
    (Traversal.copySliceWith e.size (Traversal.copyShape s.catalog e) sl).Ends t
      (fun copy t' => Underway s v own busy t' ∧ CopiedSlice s.heap t'.heap t'.copyOf? (t.Added t') e sl copy ∧
        t'.spent s v = t.spent s v + s.heap.buffersWith e.size (s.heap.buffers e) sl) (Halted s v) := by
  have hle₀ : t.spent s v ≤ s.total v := le_trans (Multiset.le_add_right _ _) hle
  have hcheck : t.heap.checkSlice sl e.size = s.heap.checkSlice sl e.size :=
    Heap.checkSlice_congr fun n h0 hn => u.read_eq hs hle₀ (hc.buffers sl e n hr h0 hn)
  simp only [Traversal.copySliceWith, Action.ends_bind, Action.ends_query, Traversal.onHeap, Action.ends_on,
    Action.ends_pure]
  cases hn : s.heap.checkSlice sl e.size with
  | error err =>
    rw [hcheck, hn]
    exact u.failed (.slice hr hn)
  | ok n =>
  rw [hcheck, hn]
  refine (Heap.ends_newSlice u.grown.arranged (hcheck.trans hn)).mono (fun copy h hcopy => ?_) fun err h hstop => ?_
  · rcases hcopy with ⟨h0, rfl, rfl⟩ | ⟨h0, rfl, g, ho⟩
    · have hlen : sl.length.toNat = 0 := by rw [h0]; rfl
      rw [hlen]
      exact ⟨u, .empty h0, by rw [Heap.buffersWith, if_pos h0, add_zero]⟩
    · obtain ⟨rfl, -, -⟩ := (Heap.checkSlice_ok h0).1 hn
      exact copyElements_spec hs hb ih u hr h0 hn g ho hle
  · obtain ⟨hh, h0, f, hf, hx⟩ := hstop
    rw [hh, hf]
    obtain ⟨rfl, -, -⟩ := (Heap.checkSlice_ok h0).1 hn
    refine u.faulted (no_room u.grown.arranged hx (le_trans ?_ hle))
    rw [Heap.buffersWith, if_neg h0, hn, ← Multiset.singleton_add, add_comm]
    simp only
    rw [← Multiset.singleton_add]
    exact add_le_add t.sizes_le_spent (Multiset.le_add_right _ _)

/-! ## Every shape -/

theorem writeReference_spec (hs : s.Sound) {busy : Nat → Prop} {t : Traversal} (u : Underway s v own busy t)
    {target : Address} (o : t.Open s busy target.toNat 8) (new : Address) :
    (Traversal.onHeap (Action.modifyM (·.writeAddress target new))).Ends t
      (fun _ t' => Underway s v own busy t' ∧ t'.heap.readAddress target = .ok new ∧ t'.copyOf? = t.copyOf? ∧
        t'.spent s v = t.spent s v) (Halted s v) := by
  obtain ⟨h, hw⟩ := Heap.writeAddress_inside u.grown.arranged o.inside new
  simp only [Traversal.onHeap, Action.ends_on, Action.ends_modifyM, hw]
  exact ⟨u.write hs o (Heap.grows_writeAddress u.grown.arranged hw),
    Heap.readAddress_writeAddress u.grown.arranged hw, rfl,
    Traversal.spent_of_outline (Heap.outline_writeWord u.grown.arranged hw)⟩

theorem faithful_object (hs : s.Sound) (hc : s.Settled v) : Faithful s v .object := by
  intro own busy t source target u hr o hle
  simp only [Heap.buffers, add_zero] at hle ⊢
  simp only [Traversal.copyShape, Action.ends_bind, Action.ends_query]
  rw [Heap.readAddress_congr (u.read_eq hs hle (hc.pieces _ _ _ _ hr .object))]
  cases hx : s.heap.readAddress source with
  | error e =>
    refine u.failed (.piece hr .object fun hi => ?_)
    unfold Heap.readAddress Heap.readWord at hx
    rw [Heap.read_inside hs.arranged hi] at hx
    cases hx
  | ok old =>
  simp only
  by_cases hn : old.isNull = true
  · obtain rfl := Address.isNull_iff.1 hn
    simp only [if_pos hn]
    exact (writeReference_spec hs u o .null).mono (fun _ _ h => ⟨h.1, .null hx h.2.1, h.2.2.2⟩) fun _ _ h => h
  · simp only [if_neg hn, Action.ends_bind]
    have hne : old ≠ .null := fun h => hn (Address.isNull_iff.2 h)
    refine ((copyObject_spec hs hc u (.reference hr hx hne) hle).and
      (Traversal.copyObject_extends hs.built old u.grown.arranged)).mono (fun new t' hcopied => ?_) fun _ _ h => h.1
    obtain ⟨⟨u', hnew, hspent⟩, x⟩ := hcopied
    refine (writeReference_spec hs u' (o.extend u.grown.arranged x) new).mono (fun _ t'' hwritten => ?_) fun _ _ h => h
    obtain ⟨u'', hread, himage, hspent''⟩ := hwritten
    exact ⟨u'', .reference hx hne (himage ▸ hnew) hread, hspent''.trans hspent⟩

theorem faithful_slice (hs : s.Sound) (hc : s.Settled v) {e : Shape} (hb : e.Built) (ih : Faithful s v e) :
    Faithful s v (.slice e) := by
  intro own busy t source target u hr o hle
  have hle₀ : t.spent s v ≤ s.total v := le_trans (Multiset.le_add_right _ _) hle
  simp only [Traversal.copyShape, Action.ends_bind, Action.ends_query]
  rw [Heap.readSlice_congr (u.read_eq hs hle₀ (hc.pieces _ _ _ _ hr .length))
    (u.read_eq hs hle₀ (hc.pieces _ _ _ _ hr .data))]
  cases hx : s.heap.readSlice source with
  | error err =>
    by_cases hi : s.heap.Inside source.toNat 8
    · refine u.failed (.piece hr .data fun hi' => ?_)
      unfold Heap.readSlice Heap.readAddress Heap.readWord at hx
      rw [Heap.read_inside hs.arranged hi, Heap.read_inside hs.arranged hi'] at hx
      cases hx
    · exact u.failed (.piece hr .length hi)
  | ok sl =>
  have hbuf : s.heap.buffers (.slice e) source = s.heap.buffersWith e.size (s.heap.buffers e) sl := by
    rw [Heap.buffers_slice, hx]
  rw [hbuf] at hle ⊢
  simp only
  refine ((copySlice_spec hs hc hb ih u (.header hr hx) hle).and
    (Traversal.copySlice_extends sl u.grown.arranged (Traversal.copyShape_extends hs.built hb))).mono
    (fun copy t' hcopied => ?_) fun _ _ h => h.1
  obtain ⟨⟨u', hcopy, hspent⟩, x⟩ := hcopied
  have o' : t'.Open s busy target.toNat 16 := o.extend u.grown.arranged x
  simp only [Traversal.onHeap, Action.ends_on]
  refine (Heap.ends_writeSlice u'.grown.arranged target copy).mono (fun _ h hwritten => ?_)
    fun _ _ h => absurd o'.inside h.2
  obtain ⟨g, ho, hread⟩ := hwritten
  refine ⟨u'.write hs o' g, ?_, (Traversal.spent_of_outline ho).trans hspent⟩
  have hadded : ∀ b, t.Added t' b → t.Added { t' with heap := h } b := fun b hadd =>
    ⟨hadd.1, hadd.2.1.imp fun _ hn => ho ▸ hn, hadd.2.2⟩
  refine Copied.weaken hadded ?_
  cases hcopy with
  | empty h0 => exact .empty hx h0 hread
  | @slice data part h0 new block divided elements =>
    refine .slice hx h0 hread new (ho ▸ block) divided fun i hi => ?_
    have hend := u'.grown.arranged.inside_lt (a := data.toNat) (n := sl.length.toNat * e.size)
      ⟨_, block, Nat.le_refl _, Nat.le_refl _⟩
    obtain ⟨-, h2, h3⟩ := Shape.elements_within (a := data) hend (List.mem_map.2 ⟨i, List.mem_range.2 hi, rfl⟩)
    simp only [Piece.ofElement] at h2 h3
    -- the header stands in a block that was there before the buffers
    have haway : ∀ b, t.heap.next.toNat ≤ b → ∀ n z, Heap.Window b n z → ¬ Heap.Window target.toNat 16 z :=
      fun b hb n z hz => hz.apart (.inr (Nat.le_trans (u.grown.arranged.inside_le_next o.inside) hb))
    exact (elements i hi).mono u'.grown.arranged g (fun _ _ h => h)
      (fun c n hc _ => haway _ (divided.within i c hc).1.1 n) hb ⟨_, block, h2, h3⟩
      (haway _ (Nat.le_trans new.1 h2) _)

theorem CopiedPieces.aggregate {t t' : Traversal} {l : Aggregate} {source target : Address}
    (hc : CopiedPieces s t (l.pieces source target) t') :
    Copied s.heap t'.heap t'.copyOf? (t.Added t') (.aggregate l) source target := by
  obtain ⟨part, hdivided, hcopied⟩ := hc
  refine .aggregate hdivided fun i f hf => hcopied i (.ofField source target f) ?_
  rw [Aggregate.pieces, List.getElem?_map, hf]
  rfl

theorem faithful_aggregate (hs : s.Sound) {l : Aggregate} (placed : Placed 0 l.fields l.size)
    (built : ∀ f ∈ l.fields, f.shape.Built) (ih : ∀ f ∈ l.fields, Faithful s v f.shape) :
    Faithful s v (.aggregate l) := by
  intro own busy t source target u hr o hle
  have hlt := u.grown.arranged.inside_lt o.inside
  simp only [Shape.size] at hlt
  have hsum : (l.pieces source target).map (fun p => s.heap.buffers p.shape p.source)
      = l.fields.map fun f => s.heap.buffers f.shape (source + f.offset) := by
    simp only [Aggregate.pieces, List.map_map]
    rfl
  rw [Heap.buffers_aggregate, ← hsum] at hle ⊢
  rw [Traversal.copyShape_aggregate]
  refine (pieces_spec hs u (fun p hp => ?_) (placed.targets_row hlt (fun _ _ => rfl) fun _ _ => rfl) hle).mono
    (fun _ _ h => ⟨h.1, h.2.2.1.aggregate, h.2.2.2⟩) fun _ _ h => h
  obtain ⟨f, hf, rfl⟩ := List.mem_map.1 hp
  have hplace := (placed.bounds hf).2
  have hoff : (target + f.offset).toNat = target.toNat + f.offset := Address.toNat_add_of_lt (by omega)
  refine ⟨built f hf, ih f hf, .part hr hf, o.mono ?_ ?_⟩
  · simp only [Piece.ofField, hoff]
    omega
  · simp only [Piece.ofField, hoff]
    show target.toNat + f.offset + f.shape.size ≤ target.toNat + l.size
    omega

/-- **Whatever the shape, a piece of it is copied faithfully**: by induction on the shape, since an element and a field
of an aggregate are pieces again. -/
theorem faithful (hs : s.Sound) (hc : s.Settled v) {shape : Shape} (hb : shape.Built) : Faithful s v shape := by
  induction hb with
  | scalar n =>
    intro own busy t source target u hr o hle
    simp only [Heap.buffers, add_zero] at hle ⊢
    rw [Traversal.copyShape]
    exact (copyBytes_spec hs hc u hr .scalar o hle).mono (fun _ _ h => ⟨h.1, .scalar h.2.1, h.2.2⟩)
      fun _ _ h => h
  | handle n =>
    intro own busy t source target u hr o hle
    simp only [Heap.buffers, add_zero] at hle ⊢
    rw [Traversal.copyShape]
    exact (copyBytes_spec hs hc u hr .handle o hle).mono (fun _ _ h => ⟨h.1, .handle h.2.1, h.2.2⟩)
      fun _ _ h => h
  | object => exact faithful_object hs hc
  | slice hb ih => exact faithful_slice hs hc hb ih
  | aggregate placed _ _ built ih => exact faithful_aggregate hs placed built ih

end Introspect
