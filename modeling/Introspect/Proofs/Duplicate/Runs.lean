import Introspect.Proofs.Duplicate.Steps
import Mathlib.Tactic.Abel
/-!
# A whole copy

A copy comes in two parts: the value itself (`copyHead`), and then the objects in the queue, job by job (`drained`).
What is left to do (`unfinished`) loses one object with every job and gains none, so the queue runs empty; then every
object that the value reaches is on record, because the copy of a piece names the copies of all that the piece refers to
(`covered`).
-/
namespace Introspect

open Allocator

variable {s : Allocator} {v : Value} {own : Option Address → Address → Prop}

def Idle (_ : Nat) : Prop := False

namespace Traversal

/-! ## The two parts of a copy -/

/-- Drain the queue and say which jobs were done, in their order. -/
def drained (c : Catalog) : Nat → Run (List Job)
  | 0 => return []
  | n + 1 => do
    match ← pop? with
    | none => return []
    | some j => do
      finish c j
      return j :: (← drained c n)

theorem drain_eq_drained (c : Catalog) : ∀ n, drain c n = drained c n >>= fun _ => pure ()
  | 0 => rfl
  | n + 1 => by
    simp only [drain, drained, bind_assoc]
    refine bind_congr fun j? => ?_
    cases j? with
    | none => rfl
    | some j => simp only [drain_eq_drained c n, bind_assoc, pure_bind]

theorem drained_of_nil (c : Catalog) (n : Nat) {t : Traversal} (hq : t.queue = []) : drained c n t = .ok [] t := by
  cases n with
  | zero => rfl
  | succ n =>
    have hpop : pop? t = .ok none t := by
      have hq : t.duplicator.pending = [] := hq
      simp only [pop?, Action.run_bind, Action.run_get, hq]
      rfl
    simp only [drained, Action.run_bind, hpop]
    rfl

/-- The copy of a value, with the objects that it refers to still in the queue. -/
def copyHead (c : Catalog) : Value → Run Value
  | .scalar bytes => return .scalar bytes
  | .object none => return .object none
  | .object (some source) => do return .object (some (← copyObject c source))
  | .aggregate source layout => do
    let target ← onHeap (Heap.newBlock layout.size)
    copyAggregate c layout source target
    return .aggregate target layout
  | .slice s element =>
    if element.isCopiable then do return .slice (← copySliceWith element.size (copyShape c element) s) element
    else Action.fail (.invalidLayout s!"slice of {element.display} cannot be copied")

/-- The copy of a value and the jobs that were done for it. -/
def copyWhole (c : Catalog) (v : Value) : Run (Value × List Job) := do
  let copy ← copyHead c v
  return (copy, ← drained c Text.wordLimit)

/-- Which jobs are done when the queue is drained may be asked for or not. -/
theorem drain_behind (c : Catalog) (n : Nat) (x : Run Value) :
    (do let copy ← x; drain c n; return copy) =
      (do let copy ← x; return (copy, ← drained c n)) >>= fun done : Value × List Job => pure done.1 := by
  simp only [drain_eq_drained, bind_assoc, pure_bind]

theorem copyRoot_eq (c : Catalog) (v : Value) {t : Traversal} (hq : t.queue = []) :
    copyRoot c v t = (copyWhole c v >>= fun done => pure done.1) t := by
  rw [copyWhole, ← drain_behind]
  have hplain : ∀ copy : Value, (do drain c Text.wordLimit; return copy : Run Value) t = (pure copy : Run Value) t :=
    fun copy => by
      simp only [drain_eq_drained, Action.run_bind, drained_of_nil c _ hq]
      rfl
  cases v with
  | scalar bytes => exact (hplain _).symm
  | object target =>
    cases target with
    | none => exact (hplain _).symm
    | some source => simp only [copyRoot, copyHead, bind_assoc, pure_bind]
  | aggregate source layout => simp only [copyRoot, copyHead, bind_assoc, pure_bind]
  | slice s element =>
    by_cases hcop : element.isCopiable = true
    · simp only [copyRoot, copyHead, if_pos hcop, bind_assoc, pure_bind]
    · simp only [copyRoot, copyHead, if_neg hcop]
      rfl

noncomputable def unfinished (s : Allocator) (v : Value) (t : Traversal) : Finset Address :=
  (s.objects v).filter fun x => t.copyOf? x = none ∨ x ∈ t.queue.map Job.source

def Twinned (s : Allocator) (t : Traversal) (z : Nat) : Prop :=
  ∃ x y d, t.copyOf? x = some y ∧ s.classOf x = .ok d ∧ Heap.Window y.toNat d.type.size z

/-- What a later state of a copy has kept: the record, and every byte but those of the copies of objects. -/
structure Later (s : Allocator) (t t' : Traversal) : Prop where
  heap : Heap.Grows (t.Twinned s) t.heap t'.heap
  known : ∀ x y, t.copyOf? x = some y → t'.copyOf? x = some y
  fresh : ∀ x y, t'.copyOf? x = some y → t.copyOf? x = some y ∨ t.heap.next.toNat ≤ y.toNat

theorem Later.refl {t : Traversal} (ha : t.heap.Arranged) : Later s t t :=
  ⟨.refl ha, fun _ _ h => h, fun _ _ h => .inl h⟩

theorem Later.trans {t t' t'' : Traversal} (ha : t.heap.Arranged) (l : Later s t t') (l' : Later s t' t'') :
    Later s t t'' where
  heap := l.heap.trans ha l'.heap fun z hz htwin => by
    obtain ⟨x, y, d, hxy, hd, hw⟩ := htwin
    rcases l.fresh x y hxy with h | h
    · exact ⟨x, y, d, h, hd, hw⟩
    · have := hw.1
      omega
  known x y h := l'.known x y (l.known x y h)
  fresh x y h := by
    rcases l'.fresh x y h with h | h
    · exact l.fresh x y h
    · exact .inr (Nat.le_trans (l.heap.next_le ha) h)

def popped (t : Traversal) (rest : List Job) : Traversal :=
  { t with duplicator := { t.duplicator with pending := rest } }

end Traversal

/-! ## One job -/

namespace Underway

variable {t : Traversal} {j : Job} {rest : List Job}

theorem pop (u : Underway s v own Idle t) (hq : t.queue = j :: rest) :
    Underway s v own (· = j.target.toNat) (t.popped rest) where
  grown := u.grown
  twins := u.twins
  injective := u.injective
  queue i hi := u.queue i (hq ▸ List.mem_cons_of_mem _ hi)
  distinct := by
    have h := u.distinct
    rw [hq] at h
    exact (List.nodup_cons.1 h).2
  divided := u.divided.mono fun b hset => ⟨hset.1, hset.2.1, fun hb =>
    hset.1.2 j.source ((u.queue j (hq ▸ List.mem_cons_self)).1.trans (congrArg some (Address.ext hb.symm)))⟩
  done x y d hxy hb hrest hd := by
    have hj := (u.queue j (hq ▸ List.mem_cons_self)).1
    have hne : x ≠ j.source := fun h => by
      rw [h] at hxy
      exact hb (congrArg Address.toNat (Option.some.inj (hxy.symm.trans hj)))
    have hnot : x ∉ t.queue.map Job.source := fun h => by
      rw [hq] at h
      rcases List.mem_cons.1 h with h | h
      · exact hne h
      · exact hrest h
    exact u.done x y d hxy (fun h => h) hnot hd

end Underway

theorem CopiedPieces.fields {t t' : Traversal} {j : Job} (hc : CopiedPieces s t j.pieces t') :
    CopiedFields s.heap t'.heap t'.copyOf? (t.Added t') j.type j.source j.target := by
  obtain ⟨part, hdivided, hcopied⟩ := hc
  refine ⟨part, hdivided, fun i f hf => hcopied i (.ofObjectField j.source j.target f) ?_⟩
  rw [Job.pieces, List.getElem?_map, hf]
  rfl

/-- **When the fields of its object are copied, the job is done**, and what has come in for them belongs to the
object. -/
theorem Underway.finished {t t' : Traversal} {j : Job} {rest : List Job} {d : Declared}
    (u' : Underway s v own (· = j.target.toNat) t') (hs : s.Sound) (u : Underway s v own Idle t)
    (hj : t'.copyOf? j.source = some j.target) (hd : s.classOf j.source = .ok d) (htype : d.type = j.type)
    (hcopies : CopiedPieces s (t.popped rest) j.pieces t') :
    Underway s v (Function.update own (some j.source) ((t.popped rest).Added t')) Idle t' where
  grown := u'.grown
  twins := u'.twins
  injective := u'.injective
  queue := u'.queue
  distinct := u'.distinct
  divided := by
    have hrest : Divided (t'.Settles s Idle) own := u'.divided.mono fun b hset => ⟨hset.1, hset.2.1, id⟩
    refine hrest.add _ fun b hadd => ⟨⟨⟨?_, hadd.2.2⟩, hadd.2.1, id⟩, fun i hi => ?_⟩
    · exact Nat.le_trans (u.grown.next_le hs.arranged) hadd.1
    · exact u.grown.arranged.not_starts hadd.1 (u.divided.within i b hi).2.1
  done z y d' hzy _ hz hd' := by
    by_cases hzj : z = j.source
    · -- the object of this job: its fields are the pieces
      subst hzj
      obtain rfl : d' = d := Except.ok.inj (hd'.symm.trans hd)
      obtain rfl : y = j.target := Option.some.inj (hzy.symm.trans hj)
      rw [Function.update_self, htype]
      exact hcopies.fields
    · have hy : y ≠ j.target := fun h => hzj (u'.injective z j.source y hzy (h ▸ hj))
      rw [Function.update_of_ne fun h => hzj (Option.some.inj h)]
      exact u'.done z y d' hzy (fun h => hy (Address.ext h)) hz hd'

/-- **A job fills in the fields of its object**, at every level, and takes the buffers that they need. -/
theorem finish_spec (hs : s.Sound) (hc : s.Settled v) {t : Traversal} (u : Underway s v own Idle t) {j : Job}
    {rest : List Job} (hq : t.queue = j :: rest) (hle : t.spent s v + s.objectBuffers j.source ≤ s.total v) :
    (Traversal.finish s.catalog j).Ends (t.popped rest)
      (fun _ t' => Underway s v (Function.update own (some j.source) ((t.popped rest).Added t')) Idle t' ∧
        (t.popped rest).Extends (t.Twinned s) t' ∧ t'.spent s v = t.spent s v + s.objectBuffers j.source)
      (Halted s v) := by
  obtain ⟨hj, d, hd, htype⟩ := u.queue j (hq ▸ List.mem_cons_self)
  obtain ⟨d', vtable, w⟩ := u.twins _ _ hj
  obtain rfl : d' = d := Except.ok.inj (w.classOf.symm.trans hd)
  have hbuilt := hs.built_of_classOf hd
  have u₁ := u.pop hq
  have hblock : (j.target.toNat, j.type.size) ∈ t.heap.outline := htype ▸ w.block
  have hlt := u.grown.arranged.inside_lt (a := j.target.toNat) (n := j.type.size)
    ⟨_, hblock, Nat.le_refl _, Nat.le_refl _⟩
  have hfields : ∀ f ∈ j.type.fields, f.shape.Built ∧ (j.target + f.offset).toNat = j.target.toNat + f.offset ∧
      16 ≤ f.offset ∧ f.offset + f.shape.size ≤ j.type.size := fun f hf => by
    rw [← htype] at hf ⊢
    exact ⟨hbuilt.built f hf, w.field_inside hs u.grown.arranged hf⟩
  have hsum : s.objectBuffers j.source = (j.pieces.map fun p => s.heap.buffers p.shape p.source).sum := by
    simp only [objectBuffers, hd, Job.pieces, List.map_map, ← htype]
    rfl
  have hspent : (t.popped rest).spent s v = t.spent s v := rfl
  have hrow : j.pieces.Pairwise fun p q => p.target.toNat + p.shape.size ≤ q.target.toNat := by
    have hplaced := hbuilt.placed
    rw [htype] at hplaced
    exact hplaced.targets_row hlt (fun _ _ => rfl) fun f _ => Shape.size_copied f.shape
  rw [Traversal.finish_eq]
  have hpieces := pieces_spec hs u₁ (fun p (hp : p ∈ j.pieces) => by
    obtain ⟨f, hf, rfl⟩ := List.mem_map.1 hp
    obtain ⟨hb, h1, h2, h3⟩ := hfields f hf
    refine ⟨hb.copied, faithful hs hc hb.copied, .field w.reached hd (htype ▸ hf), _, hblock, rfl, w.beyond, ?_, ?_,
      fun x y _ hy => ?_⟩
    · simp only [Piece.ofObjectField, h1]
      omega
    · simp only [Piece.ofObjectField, Shape.size_copied, h1]
      omega
    · simp only [Piece.ofObjectField, h1]
      omega) hrow (by rw [hspent, ← hsum]; exact hle)
  have hext := Traversal.finish_extends hs.built (t := t.popped rest) u.grown.arranged hblock (htype ▸ hbuilt)
  rw [Traversal.finish_eq] at hext
  refine (hpieces.and hext).mono (fun _ t' hdone => ?_) fun _ _ h => h.1
  obtain ⟨⟨u', -, hcopies, hspent'⟩, x⟩ := hdone
  refine ⟨?_, ?_, ?_⟩
  · exact u'.finished hs u (x.known _ _ hj) hd htype hcopies
  · exact x.mono fun z _ hz => ⟨j.source, j.target, d', hj, hd, htype ▸ hz⟩
  · rw [hspent', hspent, hsum]

/-- A job that has come in is of an object that was not on record. -/
theorem unknown_of_new {own' : Option Address → Address → Prop} {t t' : Traversal} {W : Nat → Prop}
    (u : Underway s v own Idle t) (u' : Underway s v own' Idle t') {rest : List Job}
    (x : (t.popped rest).Extends W t') {i : Job} (hi : i ∈ t'.queue) (hlow : t.heap.next.toNat ≤ i.target.toNat) :
    t.copyOf? i.source = none := by
  have h1 := (u'.queue i hi).1
  cases hzt : t.copyOf? i.source with
  | none => rfl
  | some y =>
    have h2 : t'.copyOf? i.source = some y := x.known _ y hzt
    have h3 := u.target_lt hzt
    rw [Option.some.inj (h2.symm.trans h1)] at h3
    exact absurd h3 (Nat.not_lt.2 hlow)

/-- A job done is an object less to do, and no other. -/
theorem unfinished_finish {own' : Option Address → Address → Prop} {t t' : Traversal} {W : Nat → Prop}
    (u : Underway s v own Idle t) (u' : Underway s v own' Idle t') {j : Job} {rest : List Job}
    (hq : t.queue = j :: rest) (x : (t.popped rest).Extends W t') :
    j.source ∈ t.unfinished s v ∧ t'.unfinished s v = (t.unfinished s v).erase j.source := by
  have hj := (u.queue j (hq ▸ List.mem_cons_self)).1
  have hmem : ∀ z y, t.copyOf? z = some y → z ∈ s.objects v := fun z y hzy => mem_objects.2 (u.known hzy)
  have hdist := u.distinct
  rw [hq, List.map_cons, List.nodup_cons] at hdist
  obtain ⟨new, hnew, hfresh⟩ := x.queue
  refine ⟨Finset.mem_filter.2 ⟨hmem _ _ hj, .inr (by rw [hq]; exact List.mem_cons_self)⟩, ?_⟩
  ext z
  simp only [Traversal.unfinished, Finset.mem_filter, Finset.mem_erase]
  rw [hnew, hq]
  simp only [Traversal.popped, Traversal.queue, List.map_append, List.mem_append, List.map_cons, List.mem_cons]
  constructor
  · rintro ⟨hz, hdo⟩
    have hcase : t.copyOf? z = none ∨ z ∈ rest.map Job.source := by
      rcases hdo with hnone | hrest | hin
      · left
        cases hzt : t.copyOf? z with
        | none => rfl
        | some y =>
          have h1 : t'.copyOf? z = some y := x.known z y hzt
          rw [hnone] at h1
          cases h1
      · exact .inr hrest
      · left
        obtain ⟨i, hi, rfl⟩ := List.mem_map.1 hin
        exact unknown_of_new u u' x (hnew ▸ List.mem_append_right _ hi) (hfresh i hi).1
    refine ⟨fun hzj => ?_, hz, hcase.imp_right .inr⟩
    rcases hcase with h | h
    · rw [hzj, hj] at h
      cases h
    · exact hdist.1 (hzj ▸ h)
  · rintro ⟨hne, hz, hdo⟩
    refine ⟨hz, ?_⟩
    rcases hdo with hnone | hj' | hrest
    · cases hzt : t'.copyOf? z with
      | none => exact .inl rfl
      | some y =>
        rcases x.fresh z y hzt with h | ⟨_, i, hi, rfl⟩
        · have h1 : t.copyOf? z = some y := h
          rw [hnone] at h1
          cases h1
        · right
          rw [hnew] at hi
          rcases List.mem_append.1 hi with hi | hi
          · exact .inl (List.mem_map.2 ⟨i, hi, rfl⟩)
          · exact .inr (List.mem_map.2 ⟨i, hi, rfl⟩)
    · exact absurd hj' hne
    · exact .inr (.inl hrest)

/-! ## The queue -/

/-- What draining the queue leaves: nothing to do, and every object that is not left to do has been a job once. -/
structure Drained (s : Allocator) (v : Value) (own : Option Address → Address → Prop) (t : Traversal)
    (jobs : List Job) (t' : Traversal) : Prop where
  underway : ∃ own', own' none = own none ∧ Underway s v own' Idle t'
  queue : t'.queue = []
  later : t.Later s t'
  total : t'.spent s v + ∑ x ∈ t'.unfinished s v, s.objectBuffers x = s.total v
  sources : (jobs.map Job.source : List Address) + (t'.unfinished s v).val = (t.unfinished s v).val

/-- **The queue runs empty**: with more fuel than there are objects left, all of them are finished. -/
theorem drained_spec (hs : s.Sound) (hc : s.Settled v) (n : Nat) {t : Traversal} (u : Underway s v own Idle t)
    (hn : (t.unfinished s v).card < n)
    (htotal : t.spent s v + ∑ x ∈ t.unfinished s v, s.objectBuffers x = s.total v) :
    (Traversal.drained s.catalog n).Ends t (Drained s v own t) (Halted s v) := by
  induction n generalizing own t with
  | zero => exact absurd hn (Nat.not_lt_zero _)
  | succ n ih =>
    simp only [Traversal.drained, Traversal.pop?, Action.ends_bind, Action.ends_get]
    cases hq : t.duplicator.pending with
    | nil => exact ⟨⟨own, rfl, u⟩, hq, .refl u.grown.arranged, htotal, zero_add _⟩
    | cons j rest =>
      simp only [Action.ends_bind, Action.ends_set, Action.ends_pure]
      have hj : j.source ∈ t.unfinished s v := by
        have hq' : t.queue = j :: rest := hq
        have h := (u.queue j (hq' ▸ List.mem_cons_self)).1
        exact Finset.mem_filter.2 ⟨mem_objects.2 (u.known h), .inr (by rw [hq']; exact List.mem_cons_self)⟩
      have hsplit := Finset.add_sum_erase (t.unfinished s v) s.objectBuffers hj
      have hle : t.spent s v + s.objectBuffers j.source ≤ s.total v := by
        rw [← htotal, ← hsplit, ← add_assoc]
        exact Multiset.le_add_right _ _
      refine (finish_spec hs hc u hq hle).mono (fun _ t' hfinished => ?_) fun _ _ h => h
      obtain ⟨u', x, hspent⟩ := hfinished
      obtain ⟨-, hdone⟩ := unfinished_finish u u' hq x
      have l : t.Later s t' := ⟨x.heap, x.known, fun z y h => (x.fresh z y h).imp_right And.left⟩
      refine (ih u' ?_ ?_).mono (fun jobs t'' d => ?_) fun _ _ h => h
      · rw [hdone, Finset.card_erase_of_mem hj]
        have := Finset.card_pos.2 ⟨_, hj⟩
        omega
      · rw [hspent, hdone, add_assoc, hsplit, htotal]
      · obtain ⟨own', hroot, u''⟩ := d.underway
        refine ⟨⟨own', hroot.trans (Function.update_of_ne (by simp) ..), u''⟩, d.queue,
          l.trans u.grown.arranged d.later, d.total, ?_⟩
        rw [List.map_cons, ← Multiset.cons_coe, Multiset.cons_add, d.sources, hdone, Finset.erase_val,
          Multiset.cons_erase hj]

/-! ## What a finished copy has copied -/

def Covers (s : Allocator) (t : Traversal) : Spot → Prop
  | .object x => ∃ y, t.copyOf? x = some y
  | .piece shape a => ∃ own b, Copied s.heap t.heap t.copyOf? own shape a b
  | .slice sl e => ∃ own sl', CopiedSlice s.heap t.heap t.copyOf? own e sl sl'

/-- **A finished copy covers all that the value reaches**, since it covers where the value starts: a copied piece names
the copies of what it refers to, and an object on record has had its fields copied. -/
theorem covered {t : Traversal} (u : Underway s v own Idle t) (hq : t.queue = []) {copy : Value}
    (hroot : CopiedValue s { s with heap := t.heap } t.copyOf? (own none) v copy) {spot : Spot}
    (hr : s.Reaches v spot) : Covers s t spot := by
  induction hr with
  | root hv =>
    obtain ⟨y, hxy, -⟩ := hv ▸ hroot
    exact ⟨y, hxy⟩
  | rootAggregate hv =>
    obtain ⟨b, -, -, -, hcopied⟩ := hv ▸ hroot
    exact ⟨_, b, hcopied⟩
  | rootSlice hv =>
    obtain ⟨sl', -, hcopied⟩ := hv ▸ hroot
    exact ⟨_, sl', hcopied⟩
  | @field x d f _ hd hf ih =>
    obtain ⟨y, hxy⟩ := ih
    obtain ⟨part, -, hfields⟩ := u.done x y d hxy (fun h => h) (hq ▸ List.not_mem_nil) hd
    obtain ⟨i, hi⟩ := List.getElem?_of_mem hf
    exact ⟨_, _, hfields i f hi⟩
  | @part a l f _ hf ih =>
    obtain ⟨own, b, hb⟩ := ih
    cases hb with
    | aggregate _ fields =>
      obtain ⟨i, hi⟩ := List.getElem?_of_mem hf
      exact ⟨_, _, fields i f hi⟩
  | @header a sl e _ hs ih =>
    obtain ⟨own, b, hb⟩ := ih
    cases hb with
    | empty ha h0 hb =>
      obtain rfl := Except.ok.inj (ha.symm.trans hs)
      exact ⟨own, _, .empty h0⟩
    | slice ha h0 hb new block divided elements =>
      obtain rfl := Except.ok.inj (ha.symm.trans hs)
      exact ⟨own, _, .slice h0 new block divided elements⟩
  | @element sl e n i _ hc hi ih =>
    obtain ⟨own, sl', hsl⟩ := ih
    cases hsl with
    | empty h0 =>
      rw [h0] at hi
      exact absurd hi (Nat.not_lt_zero _)
    | slice h0 new block divided elements => exact ⟨_, _, elements i hi⟩
  | @reference a x _ hx hn ih =>
    obtain ⟨own, b, hb⟩ := ih
    cases hb with
    | null ha _ =>
      obtain rfl := Except.ok.inj (ha.symm.trans hx)
      exact absurd rfl hn
    | reference ha _ hxy _ =>
      obtain rfl := Except.ok.inj (ha.symm.trans hx)
      exact ⟨_, hxy⟩

/-- **A finished copy of a covered value is the same graph again.** -/
theorem isomorphic_of_covered (hs : s.Sound) {t : Traversal} (u : Underway s v own Idle t) (hq : t.queue = [])
    (hcover : ∀ {spot}, s.Reaches v spot → Covers s t spot) {copy : Value}
    (hroot : CopiedValue s { s with heap := t.heap } t.copyOf? (own none) v copy) :
    Isomorphic s { s with heap := t.heap } t.copyOf? own v copy where
  domain x := ⟨fun h => h.elim fun _ hxy => (u.known hxy).1, fun hx => hcover hx⟩
  injective := u.injective
  fresh x y hxy := by
    obtain ⟨d, _, w⟩ := u.twins x y hxy
    exact ⟨w.beyond, fun b hb => w.beyond.outside hs.arranged hb⟩
  header x y hxy := by
    obtain ⟨d, vtable, w⟩ := u.twins x y hxy
    obtain ⟨vtable', hr, hd⟩ := classOf_ok.1 w.classOf
    obtain rfl := Except.ok.inj (w.source.symm.trans hr)
    refine ⟨d, w.classOf, classOf_ok.2 ⟨vtable, w.vtable, Catalog.ofVtable_grown hs.arranged u.grown hd⟩, ?_, w.monitor,
      w.block⟩
    simp only [Class.vtableOffset, Address.add_zero]
    rw [w.vtable, w.source]
  buffers := u.divided.mono fun _ hset => hset.1
  fields x y d hxy hd := u.done x y d hxy (fun h => h) (hq ▸ List.not_mem_nil) hd
  root := hroot

/-! ## From the first step to the last -/

theorem classOf_null (hs : s.Sound) {d : Declared} : s.classOf .null ≠ .ok d := fun hd => by
  obtain ⟨_, hr, -⟩ := classOf_ok.1 hd
  obtain ⟨e, he, h1, -⟩ := Heap.inside_of_readAddress hr
  have h2 := (hs.arranged.bounds he).1
  have h3 : Address.null.toNat = 0 := rfl
  simp only [Heap.firstBase] at h2
  omega

theorem card_objects (hs : s.Sound) : (s.objects v).card < Text.wordLimit := by
  have hsub : (s.objects v).image Address.toNat ⊆ (Finset.range (2 ^ 64)).erase 0 := fun n hn => by
    obtain ⟨x, hx, rfl⟩ := Finset.mem_image.1 hn
    obtain ⟨-, d, hd⟩ := mem_objects.1 hx
    refine Finset.mem_erase.2 ⟨fun h0 => ?_, Finset.mem_range.2 x.toNat_lt⟩
    have hx0 : x = .null := Address.ext h0
    exact classOf_null hs (hx0 ▸ hd)
  have hcard := Finset.card_le_card hsub
  rw [Finset.card_image_of_injective _ fun _ _ h => Address.ext h, Finset.card_erase_of_mem (by simp),
    Finset.card_range] at hcard
  simp only [Text.wordLimit]
  omega

theorem Underway.start (hs : s.Sound) (busy : Nat → Prop) : Underway s v (fun _ _ => False) busy ⟨s.heap, {}⟩ where
  grown := .refl hs.arranged
  twins _ _ h := by cases h
  injective _ _ _ h := by cases h
  queue _ h := (List.not_mem_nil h).elim
  distinct := .nil
  divided := ⟨fun _ _ h => h.elim, fun _ _ _ h => h.elim⟩
  done _ _ _ h := by cases h

theorem Traversal.Added.buffer {t : Traversal} {b : Address} (hb : Traversal.Added ⟨s.heap, {}⟩ t b) :
    s.Buffer t.copyOf? b := ⟨hb.1, hb.2.2⟩

/-- What has come in by the time that the value itself is copied belongs to the value. -/
theorem Underway.headed {t : Traversal} (u : Underway s v (fun _ _ => False) Idle t) :
    Underway s v (Function.update (fun _ _ => False) none (Traversal.Added ⟨s.heap, {}⟩ t)) Idle t where
  grown := u.grown
  twins := u.twins
  injective := u.injective
  queue := u.queue
  distinct := u.distinct
  divided := u.divided.add none fun _ hb => ⟨⟨hb.buffer, hb.2.1, id⟩, fun _ h => h⟩
  done x y d hxy hb hq hd := by
    rw [Function.update_of_ne (by simp)]
    exact u.done x y d hxy hb hq hd

/-- The blocks that are taken before the queue is drained and those that are left make up all of them. -/
theorem total_eq (s : Allocator) (v : Value) :
    Traversal.spent s v ⟨s.heap, {}⟩ + s.rootBlocks v + ∑ x ∈ s.objects v, s.objectBuffers x = s.total v := by
  have hfilter : (s.objects v).filter (fun x => Traversal.copyOf? ⟨s.heap, {}⟩ x = none) = s.objects v :=
    Finset.filter_true_of_mem fun _ _ => rfl
  have hsplit : ∑ x ∈ s.objects v, (s.sizeAt x ::ₘ s.objectBuffers x)
      = ∑ x ∈ s.objects v, {s.sizeAt x} + ∑ x ∈ s.objects v, s.objectBuffers x := by
    rw [← Finset.sum_add_distrib]
    exact Finset.sum_congr rfl fun x _ => (Multiset.singleton_add _ _).symm
  rw [Traversal.spent, hfilter, total, demand, hsplit]
  abel

theorem unfinished_start {W : Nat → Prop} {t : Traversal} (x : Traversal.Extends W ⟨s.heap, {}⟩ t) :
    t.unfinished s v = s.objects v := by
  refine Finset.filter_true_of_mem fun z _ => ?_
  cases hz : t.copyOf? z with
  | none => exact .inl rfl
  | some y =>
    rcases x.fresh z y hz with h | ⟨-, j, hj, rfl⟩
    · cases h
    · exact .inr (List.mem_map.2 ⟨j, hj, rfl⟩)

/-- Draining the queue leaves the buffers of the copy alone. -/
theorem Traversal.Later.buffer {busy : Nat → Prop} {t : Traversal} (u : Underway s v own busy t) {e : Nat × Nat}
    (he : e ∈ t.heap.outline) {b : Address} (hbe : b.toNat = e.1) (hb : s.Buffer t.copyOf? b) :
    ∀ z, Heap.Window e.1 e.2 z → ¬ t.Twinned s z := fun z hz htwin => by
  obtain ⟨x, y, d, hxy, hd, hw⟩ := htwin
  obtain ⟨d', _, w⟩ := u.twins x y hxy
  obtain rfl : d' = d := Except.ok.inj (w.classOf.symm.trans hd)
  refine u.grown.arranged.window_apart he w.block (fun h => ?_) z hz hw
  have hyb : y = b := Address.ext (hbe.trans h).symm
  exact hb.2 x (hyb ▸ hxy)

/-- **What lies in such a buffer stays copied** while the queue is drained. -/
theorem Traversal.Later.copied {busy : Nat → Prop} {t t' : Traversal} (u : Underway s v own busy t) (l : t.Later s t')
    {new : Address → Prop} (hnew : ∀ b, new b → s.Buffer t.copyOf? b) {root : Address} {n : Nat}
    (hblock : (root.toNat, n) ∈ t.heap.outline) (hroot : s.Buffer t.copyOf? root) {shape : Shape} (hb : shape.Built)
    {a b : Address} (h1 : root.toNat ≤ b.toNat) (h2 : b.toNat + shape.size ≤ root.toNat + n)
    (hc : Copied s.heap t.heap t.copyOf? new shape a b) : Copied s.heap t'.heap t'.copyOf? new shape a b :=
  hc.mono u.grown.arranged l.heap l.known (fun c _ hc he => Later.buffer u he rfl (hnew c hc)) hb
    ⟨_, hblock, h1, h2⟩ fun z hz => Later.buffer u hblock rfl hroot z (hz.mono h1 h2)

theorem unfinished_of_covered {t : Traversal} (hq : t.queue = [])
    (hcover : ∀ x, s.Reaches v (.object x) → ∃ y, t.copyOf? x = some y) : t.unfinished s v = ∅ :=
  Finset.filter_false_of_mem fun x hx h => by
    obtain ⟨y, hy⟩ := hcover x (mem_objects.1 hx).1
    rcases h with h | h
    · rw [h] at hy
      cases hy
    · rw [hq] at h
      cases h

theorem sizes_of_covered {t : Traversal} (hq : t.queue = [])
    (hcover : ∀ x, s.Reaches v (.object x) → ∃ y, t.copyOf? x = some y)
    (htotal : t.spent s v + ∑ x ∈ t.unfinished s v, s.objectBuffers x = s.total v) : t.heap.sizes = s.total v := by
  have h1 : (s.objects v).filter (fun x => t.copyOf? x = none) = ∅ := Finset.filter_false_of_mem fun x hx h => by
    obtain ⟨y, hy⟩ := hcover x (mem_objects.1 hx).1
    rw [h] at hy
    cases hy
  rw [Traversal.spent, h1, unfinished_of_covered hq hcover, Finset.sum_empty, Finset.sum_empty, add_zero,
    add_zero] at htotal
  exact htotal

def Finished (s : Allocator) (v copy : Value) (t : Traversal) : Prop :=
  (∃ own, Isomorphic s { s with heap := t.heap } t.copyOf? own v copy) ∧ t.heap.sizes = s.total v

theorem spent_start_le (s : Allocator) (v : Value) :
    Traversal.spent s v ⟨s.heap, {}⟩ + s.rootBlocks v ≤ s.total v := by
  rw [← total_eq]
  exact Multiset.le_add_right _ _

/-- The block of an aggregate has come in, and the aggregate is copied there. -/
theorem copyAggregate_spec (hs : s.Sound) {a : Address} {l : Aggregate} (hv : (Shape.aggregate l).Built)
    (hc : s.Settled (.aggregate a l)) {k : Heap} (hx : s.heap.allocate l.size = .ok (s.heap.next, k)) :
    (Traversal.copyAggregate s.catalog l a s.heap.next).Ends ⟨k, {}⟩
      (fun _ t => Underway s (.aggregate a l) (fun _ _ => False) Idle t ∧
        Traversal.Extends Everywhere ⟨s.heap, {}⟩ t ∧
        Traversal.Added ⟨s.heap, {}⟩ t s.heap.next ∧ (s.heap.next.toNat, l.size) ∈ t.heap.outline ∧
        Copied s.heap t.heap t.copyOf? (fun c => Traversal.Added ⟨s.heap, {}⟩ t c ∧ c ≠ s.heap.next) (.aggregate l) a
          s.heap.next ∧
        t.spent s (.aggregate a l) =
          Traversal.spent s (.aggregate a l) ⟨s.heap, {}⟩ + s.rootBlocks (.aggregate a l))
      (Halted s (.aggregate a l)) := by
  have htake : s.rootBlocks (.aggregate a l) = {l.size} + s.heap.buffers (.aggregate l) a :=
    (Multiset.singleton_add _ _).symm
  obtain ⟨-, hk, hout, -⟩ := Heap.allocate_spec hs.arranged hx
  have g := Heap.grows_allocate hs.arranged hx
  have hblock : (s.heap.next.toNat, l.size) ∈ k.outline := hout ▸ List.mem_cons_self
  have hlt := hk.inside_lt (a := s.heap.next.toNat) (n := l.size) ⟨_, hblock, Nat.le_refl _, Nat.le_refl _⟩
  have u₀ : Underway s (.aggregate a l) (fun _ _ => False) Idle ⟨s.heap, {}⟩ := .start hs Idle
  have u₁ : Underway s (.aggregate a l) (fun _ _ => False) (· = s.heap.next.toNat) ⟨k, {}⟩ :=
    u₀.allocate hs g (fun _ h => h.elim) fun _ h => .inr (Nat.le_of_eq h.symm)
  have hspent₁ : Traversal.spent s (.aggregate a l) ⟨k, {}⟩
      = Traversal.spent s (.aggregate a l) ⟨s.heap, {}⟩ + {l.size} :=
    Traversal.spent_of_block (t := ⟨s.heap, {}⟩) hout
  have o : Traversal.Open s (· = s.heap.next.toNat) ⟨k, {}⟩ s.heap.next.toNat (Shape.aggregate l).size :=
    ⟨_, hblock, rfl, Nat.le_refl _, Nat.le_refl _, Nat.le_refl _, fun _ _ h => by cases h⟩
  have hle : Traversal.spent s (.aggregate a l) ⟨k, {}⟩ + s.heap.buffers (.aggregate l) a
      ≤ s.total (.aggregate a l) := by
    rw [hspent₁, add_assoc, ← htake]
    exact spent_start_le s _
  rw [Traversal.copyAggregate_eq]
  refine ((faithful hs hc hv u₁ (.rootAggregate rfl) o hle).and
    (Traversal.copyShape_extends hs.built hv hk (Nat.le_of_lt hlt))).mono (fun _ t hcopied => ?_) fun _ _ h => h.1
  obtain ⟨⟨u, hcopy, hspent⟩, e⟩ := hcopied
  obtain ⟨hadded, hbehind⟩ := u₀.block g hblock e
  have e₀ := Traversal.Extends.of_heap (W := Everywhere) (t := ⟨s.heap, {}⟩) (g.mono fun _ _ h => h.elim)
  refine ⟨u.rest (fun _ h => h.elim) fun x y hxy heq => ?_, e₀.trans hs.arranged e fun _ _ _ => trivial, hadded,
    e.heap.outline.subset hblock, hcopy.weaken hbehind, ?_⟩
  · exact hadded.2.2 x (hxy.trans (congrArg some (Address.ext heq)))
  · rw [hspent, hspent₁, add_assoc, htake]

/-- What the first part of a copy leaves: it has taken all blocks but those for the objects, and the value is copied
and stays so while the queue is drained. -/
structure Headed (s : Allocator) (v : Value) (own : Option Address → Address → Prop) (copy : Value) (t : Traversal) :
    Prop where
  underway : Underway s v own Idle t
  extended : Traversal.Extends Everywhere ⟨s.heap, {}⟩ t
  spent : t.spent s v = Traversal.spent s v ⟨s.heap, {}⟩ + s.rootBlocks v
  copied : ∀ t', t.Later s t' → CopiedValue s { s with heap := t'.heap } t'.copyOf? (own none) v copy

/-- A value without storage is its own copy. -/
theorem headed_plain (hs : s.Sound) (hblocks : s.rootBlocks v = 0)
    (hcopied : ∀ t, CopiedValue s { s with heap := t.heap } (Traversal.copyOf? t) (fun _ => False) v v) :
    ∃ own, Headed s v own v ⟨s.heap, {}⟩ :=
  ⟨_, .start hs Idle, .refl hs.arranged, by rw [hblocks, add_zero], fun t' _ => hcopied t'⟩

/-- An aggregate that is copied by itself gets a block of its own. -/
theorem copyHead_aggregate (hs : s.Sound) {a : Address} {l : Aggregate} (hv : (Shape.aggregate l).Built)
    (hc : s.Settled (.aggregate a l)) :
    (Traversal.copyHead s.catalog (.aggregate a l)).Ends ⟨s.heap, {}⟩ 
      (fun copy t => ∃ own, Headed s (.aggregate a l) own copy t) (Halted s (.aggregate a l)) := by
  simp only [Traversal.copyHead, Action.ends_bind, Action.ends_pure, Traversal.onHeap, Action.ends_on,
    Heap.ends_newBlock]
  cases hx : s.heap.allocate l.size with
  | error f =>
    refine (Underway.start hs Idle).faulted (no_room hs.arranged hx (le_trans ?_ (spent_start_le s _)))
    rw [rootBlocks, ← Multiset.singleton_add, ← Multiset.singleton_add, add_comm]
    exact add_le_add (Traversal.sizes_le_spent ⟨s.heap, {}⟩) (Multiset.le_add_right _ _)
  | ok r =>
    obtain ⟨b, k⟩ := r
    obtain ⟨rfl, -⟩ := Heap.allocate_spec hs.arranged hx
    refine (copyAggregate_spec hs hv hc hx).mono (fun _ t hcopied => ?_) fun _ _ h => h
    obtain ⟨u, e, hbuf, hblock, hcopy, hspent⟩ := hcopied
    refine ⟨_, u.headed, e, hspent, fun t' later => ?_⟩
    rw [Function.update_self]
    exact ⟨_, rfl, hbuf, later.heap.outline.subset hblock, later.copied u (fun _ hc => hc.1.buffer) hblock
      hbuf.buffer hv (Nat.le_refl _) (Nat.le_refl _) hcopy⟩

/-- A slice that is copied by itself gets a buffer of its own. -/
theorem copyHead_slice (hs : s.Sound) {sl : Slice} {e : Shape} (hv : e.Built) (hc : s.Settled (.slice sl e)) :
    (Traversal.copyHead s.catalog (.slice sl e)).Ends ⟨s.heap, {}⟩ 
      (fun copy t => ∃ own, Headed s (.slice sl e) own copy t) (Halted s (.slice sl e)) := by
  have u₀ : Underway s (.slice sl e) (fun _ _ => False) Idle ⟨s.heap, {}⟩ := .start hs Idle
  simp only [Traversal.copyHead]
  by_cases hcop : e.isCopiable = true
  · simp only [if_pos hcop, Action.ends_bind, Action.ends_pure]
    refine ((copySlice_spec hs hc hv (faithful hs hc hv) u₀ (.rootSlice rfl) (spent_start_le s _)).and
      (Traversal.copySlice_extends sl hs.arranged (Traversal.copyShape_extends hs.built hv))).mono
      (fun copy t hcopied => ?_) fun _ _ h => h.1
    obtain ⟨⟨u, hcopy, hspent⟩, x⟩ := hcopied
    refine ⟨_, u.headed, x.mono fun _ _ _ => trivial, hspent, fun t' later => ⟨copy, rfl, ?_⟩⟩
    rw [Function.update_self]
    cases hcopy with
    | empty h0 => exact .empty h0
    | @slice data part h0 new block divided elements =>
      have hend := u.grown.arranged.inside_lt (a := data.toNat) (n := sl.length.toNat * e.size)
        ⟨_, block, Nat.le_refl _, Nat.le_refl _⟩
      refine .slice h0 new (later.heap.outline.subset block) divided fun i hi => ?_
      obtain ⟨-, h2, h3⟩ := Shape.elements_within (a := data) hend (List.mem_map.2 ⟨i, List.mem_range.2 hi, rfl⟩)
      exact later.copied u (fun c hc => (divided.within i c hc).1.buffer) block new.buffer hv h2 h3 (elements i hi)
  · rw [if_neg hcop]
    exact u₀.failed (.uncopiable rfl (by simpa using hcop))

/-- **The first part of a copy**, of any value. -/
theorem copyHead_spec (hs : s.Sound) (hv : v.Made) (hc : s.Settled v) :
    (Traversal.copyHead s.catalog v).Ends ⟨s.heap, {}⟩ (fun copy t => ∃ own, Headed s v own copy t) (Halted s v) := by
  cases v with
  | scalar bytes => exact headed_plain hs rfl fun _ => rfl
  | object target =>
    cases target with
    | none => exact headed_plain hs rfl fun _ => rfl
    | some x =>
      have u₀ : Underway s (.object (some x)) (fun _ _ => False) Idle ⟨s.heap, {}⟩ := .start hs Idle
      have hle₀ := le_trans (Multiset.le_add_right _ _) (spent_start_le s (.object (some x)))
      simp only [Traversal.copyHead, Action.ends_bind, Action.ends_pure]
      refine ((copyObject_spec hs hc u₀ (.root rfl) hle₀).and
        (Traversal.copyObject_extends hs.built x hs.arranged)).mono (fun y t hcopied => ?_) fun _ _ h => h.1
      obtain ⟨⟨u, hxy, hspent⟩, e⟩ := hcopied
      exact ⟨_, u, e.mono fun _ _ h => h.elim, by rw [hspent, rootBlocks, add_zero], fun t' later =>
        ⟨y, later.known x y hxy, rfl⟩⟩
  | aggregate a l => exact copyHead_aggregate hs hv.built hc
  | slice sl e => exact copyHead_slice hs hv.built hc

/-- **A copy of a settled value ends in an isomorphic one** on exactly the blocks that were foreseen, with nothing left
in the queue and each of the objects done once, or it is halted by what is broken or by the end of memory. -/
theorem copyWhole_spec (hs : s.Sound) (hv : v.Made) (hc : s.Settled v) :
    (Traversal.copyWhole s.catalog v).Ends ⟨s.heap, {}⟩
      (fun done t => Finished s v done.1 t ∧ Heap.Grows Heap.Nowhere s.heap t.heap ∧ t.queue = [] ∧
        (done.2.map Job.source : List Address) = (s.objects v).val) (Halted s v) := by
  simp only [Traversal.copyWhole, Action.ends_bind, Action.ends_pure]
  refine (copyHead_spec hs hv hc).mono (fun copy t h => ?_) fun _ _ h => h
  obtain ⟨own, h⟩ := h
  have hall := unfinished_start (v := v) h.extended
  refine (drained_spec hs hc Text.wordLimit h.underway (by rw [hall]; exact card_objects hs)
    (by rw [h.spent, hall]; exact total_eq s v)).mono (fun jobs t' d => ?_) fun _ _ h => h
  obtain ⟨own', howned, u⟩ := d.underway
  have hroot := h.copied t' d.later
  rw [← howned] at hroot
  have hcover : ∀ {spot}, s.Reaches v spot → Covers s t' spot := covered u d.queue hroot
  have hsources := d.sources
  rw [unfinished_of_covered d.queue fun _ hx => hcover hx, Finset.empty_val, add_zero, hall] at hsources
  exact ⟨⟨⟨own', isomorphic_of_covered hs u d.queue hcover hroot⟩,
    sizes_of_covered d.queue (fun _ hx => hcover hx) d.total⟩, u.grown, d.queue, hsources⟩

theorem copyRoot_spec (hs : s.Sound) (hv : v.Made) (hc : s.Settled v) :
    (Traversal.copyRoot s.catalog v).Ends ⟨s.heap, {}⟩ (fun copy t => Finished s v copy t) (Halted s v) := by
  unfold Action.Ends
  rw [Traversal.copyRoot_eq s.catalog v rfl]
  exact (Action.ends_bind _ _).2 ((copyWhole_spec hs hv hc).mono (fun _ _ h => h.1) fun _ _ h => h)

end Introspect
