import Introspect.Proofs.Duplicate.Runs
import Mathlib.Data.Set.Card
import Mathlib.Order.CompletePartialOrder
/-!
# What a copy that succeeds has looked at

This asks nothing of the heap: a stray address may lie where the copy itself comes to stand, and be taken for an object
there.  But nothing old is ever written, so of the old blocks a copy reads what they held at the call; and so one that
succeeds has everything on record that the value reached at the call, and each of these lies in a block by then.
-/
namespace Introspect

/-- All references in a piece of storage, through its slices, lead to what is known. -/
inductive Followed (h : Heap) (known : Address → Prop) : Shape → Address → Prop where
  | scalar {n : Nat} {a : Address} : Followed h known (.scalar n) a
  | handle {n : Nat} {a : Address} : Followed h known (.handle n) a
  | object {a : Address} (target : ∀ x, h.readAddress a = .ok x → x ≠ .null → known x) : Followed h known .object a
  | slice {e : Shape} {a : Address} (elements : ∀ sl n, h.readSlice a = .ok sl → h.checkSlice sl e.size = .ok n →
      ∀ i < sl.length.toNat, Followed h known e (sl.data + i * e.size)) : Followed h known (.slice e) a
  | aggregate {l : Aggregate} {a : Address} (fields : ∀ f ∈ l.fields, Followed h known f.shape (a + f.offset)) :
    Followed h known (.aggregate l) a

theorem Followed.mono {h : Heap} {known known' : Address → Prop} (hk : ∀ x, known x → known' x) {shape : Shape}
    {a : Address} (hf : Followed h known shape a) : Followed h known' shape a := by
  induction hf with
  | scalar => exact .scalar
  | handle => exact .handle
  | object target => exact .object fun x hx hn => hk x (target x hx hn)
  | slice _ ih => exact .slice ih
  | aggregate _ ih => exact .aggregate ih

namespace Traversal

def Known (t : Traversal) (x : Address) : Prop := ∃ y, t.copyOf? x = some y

/-- A step that adds jobs for objects that were not on record; each of them lies in a block. -/
structure Adds (s : Allocator) (t t' : Traversal) : Prop where
  outline : t.heap.outline ⊆ t'.heap.outline
  jobs : ∃ new, t'.queue = t.queue ++ new ∧ (new.map Job.source).Nodup ∧
    (∀ x, t'.Known x ↔ t.Known x ∨ x ∈ new.map Job.source) ∧
    ∀ j ∈ new, ¬ t.Known j.source ∧ t'.heap.Inside j.source.toNat 8 ∧ ∀ d, s.classOf j.source = .ok d → d.type = j.type

namespace Adds

variable {s : Allocator} {t t' t'' : Traversal}

theorem refl (t : Traversal) : Adds s t t :=
  ⟨fun _ h => h, [], (List.append_nil _).symm, .nil, fun _ => by simp, fun _ h => (List.not_mem_nil h).elim⟩

theorem of_heap {W : Nat → Prop} {h : Heap} (g : Heap.Grows W t.heap h) : Adds s t { t with heap := h } :=
  ⟨g.outline.subset, [], (List.append_nil _).symm, .nil, fun _ => by simp [Known, copyOf?],
    fun _ h => (List.not_mem_nil h).elim⟩

theorem known (a : Adds s t t') {x : Address} (hx : t.Known x) : t'.Known x := by
  obtain ⟨new, -, -, hk, -⟩ := a.jobs
  exact (hk x).2 (.inl hx)

theorem trans (a : Adds s t t') (a' : Adds s t' t'') : Adds s t t'' := by
  obtain ⟨new, hq, hd, hk, hj⟩ := a.jobs
  obtain ⟨new', hq', hd', hk', hj'⟩ := a'.jobs
  refine ⟨fun e he => a'.outline (a.outline he), new ++ new', by rw [hq', hq, List.append_assoc], ?_, fun x => ?_,
    fun j hmem => ?_⟩
  · rw [List.map_append, List.nodup_append]
    refine ⟨hd, hd', fun x hx y hy hxy => ?_⟩
    -- the later jobs are for objects that the earlier ones have put on record
    obtain ⟨j, hj1, rfl⟩ := List.mem_map.1 hy
    exact (hj' j hj1).1 ((hk _).2 (.inr (hxy ▸ hx)))
  · rw [hk' x, hk x, List.map_append, List.mem_append, or_assoc]
  · rcases List.mem_append.1 hmem with hmem | hmem
    · obtain ⟨h1, ⟨e, he, h2⟩, h3⟩ := hj j hmem
      exact ⟨h1, ⟨e, a'.outline he, h2⟩, h3⟩
    · obtain ⟨h1, h2⟩ := hj' j hmem
      exact ⟨fun h => h1 (a.known h), h2⟩

end Adds
end Traversal

namespace Traversal

variable {s : Allocator}

/-! ## One step -/

/-- The class that an object is copied as is its class at the call, if it had one. -/
theorem type_of_grown (hs : s.Sound) {h : Heap} (g : Heap.Grows Heap.Nowhere s.heap h) {x vtable : Address}
    {d d' : Declared} (hr : h.readAddress x = .ok vtable) (hd : s.catalog.ofVtable h vtable = .ok d)
    (hd' : s.classOf x = .ok d') : d' = d := by
  obtain ⟨v, hv, hof⟩ := Allocator.classOf_ok.1 hd'
  have hsame := Heap.readAddress_of_grows hs.arranged g (fun _ _ h => h) hv
  obtain rfl := Except.ok.inj (hsame.symm.trans hr)
  exact Except.ok.inj ((Catalog.ofVtable_grown hs.arranged g hof).symm.trans hd)

theorem copyObject_adds (hs : s.Sound) (x : Address) {t : Traversal}
    (g : Heap.Grows Heap.Nowhere s.heap t.heap) :
    (copyObject s.catalog x).Ends t (fun _ t' => Adds s t t' ∧ t'.Known x) fun _ _ => True := by
  simp only [copyObject, Action.ends_bind, Action.ends_get]
  cases hf : t.duplicator.identity.find? x with
  | some y => exact ⟨.refl t, y, hf⟩
  | none =>
    simp only [Action.ends_bind, Action.ends_query, Class.vtableOffset, Address.add_zero]
    cases hr : t.heap.readAddress x with
    | error e => trivial
    | ok vtable =>
    dsimp only
    cases hv : s.catalog.ofVtable t.heap vtable with
    | error e => trivial
    | ok d =>
    have hd := hs.built d (Catalog.mem_of_ofVtable hv).1
    simp only [onHeap, Action.ends_on]
    refine (Catalog.ends_newInstance g.arranged hv hd).mono (fun y h hnew => ?_) fun _ _ _ => trivial
    obtain ⟨-, g', -⟩ := hnew
    simp only [onIdentity, push, Action.ends_on, IdentityMap.record, Action.ends_bind, Action.ends_get,
      Action.ends_modify, hf, Option.isSome_none, Bool.false_eq_true, if_false, Action.ends_pure]
    have hknown : ∀ z, (∃ y', (t.duplicator.identity.insert x y).find? z = some y') ↔ t.Known z ∨ z = x := fun z => by
      rw [IdentityMap.find?_insert]
      by_cases hz : z = x
      · rw [if_pos hz]
        exact iff_of_true ⟨y, rfl⟩ (.inr hz)
      · rw [if_neg hz]
        exact ⟨.inl, fun h => h.resolve_right hz⟩
    refine ⟨⟨g'.outline.subset, [_], rfl, List.nodup_singleton _, fun z => ?_, fun j hj => ?_⟩, (hknown x).2 (.inr rfl)⟩
    · rw [List.map_singleton, List.mem_singleton]
      exact hknown z
    · obtain rfl := List.mem_singleton.1 hj
      refine ⟨fun hx => ?_, g'.inside (Heap.inside_of_readAddress hr), fun d' hd' => ?_⟩
      · obtain ⟨y', hy'⟩ := hx
        rw [copyOf?, hf] at hy'
        cases hy'
      · rw [type_of_grown hs g hr hv hd']

structure Ahead (s : Allocator) (p : Piece) : Prop where
  built : p.shape.Built
  behind : s.heap.next.toNat ≤ p.target.toNat
  lt : p.target.toNat + p.shape.size < 2 ^ 64

theorem Ahead.grown (hs : s.Sound) {p : Piece} (ha : Ahead s p) {t t' : Traversal}
    (g : Heap.Grows Heap.Nowhere s.heap t.heap) (e : Extends (Heap.Window p.target.toNat p.shape.size) t t') :
    Heap.Grows Heap.Nowhere s.heap t'.heap :=
  g.trans hs.arranged e.heap fun x hx hw => by
    have := ha.behind
    have := hw.1
    omega

/-- What is said of copying a piece of a shape from anywhere to a place behind the old heap. -/
def Follows (s : Allocator) (shape : Shape) : Prop :=
  ∀ {a b : Address} {t : Traversal}, Heap.Grows Heap.Nowhere s.heap t.heap → Ahead s ⟨shape, a, b⟩ →
    (copyShape s.catalog shape a b).Ends t (fun _ t' => Adds s t t' ∧ Followed s.heap t'.Known shape a) fun _ _ => True

/-- What holds of each piece of a list holds of all of them. -/
theorem pieces_follow (hs : s.Sound) {ps : List Piece} {t : Traversal} (g : Heap.Grows Heap.Nowhere s.heap t.heap)
    (ha : ∀ p ∈ ps, Ahead s p) (ih : ∀ p ∈ ps, Follows s p.shape) :
    (forM ps (copyPiece s.catalog)).Ends t
      (fun _ t' => Adds s t t' ∧ ∀ p ∈ ps, Followed s.heap t'.Known p.shape p.source) fun _ _ => True := by
  refine (Action.ends_forM (I := fun done t' => Heap.Grows Heap.Nowhere s.heap t'.heap ∧ Adds s t t' ∧
    ∀ p ∈ done, Followed s.heap t'.Known p.shape p.source) ⟨g, .refl t, fun _ h => (List.not_mem_nil h).elim⟩ ?_).mono
    (fun _ _ h => h.2) fun _ _ h => h
  rintro done p rest t' rfl ⟨g', a, hdone⟩
  have hp := ha p (List.mem_append_right _ List.mem_cons_self)
  have hext : (copyPiece s.catalog p).Always t' (Extends (Heap.Window p.target.toNat p.shape.size) t') :=
    copyShape_extends hs.built hp.built g'.arranged (Nat.le_of_lt hp.lt)
  refine ((ih p (List.mem_append_right _ List.mem_cons_self) g' hp).and hext).mono (fun _ t'' hnext => ?_)
    fun _ _ _ => trivial
  obtain ⟨⟨a', hf⟩, e⟩ := hnext
  refine ⟨hp.grown hs g' e, a.trans a', fun q hq => ?_⟩
  rcases List.mem_append.1 hq with hq | hq
  · exact (hdone q hq).mono fun _ => a'.known
  · obtain rfl := List.mem_singleton.1 hq
    exact hf

/-- The elements of a slice are followed, and those of the slice that stood there at the call. -/
theorem copySlice_follows (hs : s.Sound) {e : Shape} (hb : e.Built) (sl : Slice) {t : Traversal}
    (g : Heap.Grows Heap.Nowhere s.heap t.heap) (ih : Follows s e) :
    (copySliceWith e.size (copyShape s.catalog e) sl).Ends t
      (fun _ t' => Adds s t t' ∧ ∀ i < sl.length.toNat, Followed s.heap t'.Known e (sl.data + i * e.size))
      fun _ _ => True := by
  simp only [copySliceWith, Action.ends_bind, Action.ends_query, onHeap, Action.ends_on, Action.ends_pure]
  cases hc : t.heap.checkSlice sl e.size with
  | error err => trivial
  | ok n =>
  refine (Heap.ends_newSlice g.arranged hc).mono (fun copy h hcopy => ?_) fun _ _ _ => trivial
  rcases hcopy with ⟨h0, rfl, rfl⟩ | ⟨-, rfl, g', hout⟩
  · simp only [h0]
    exact ⟨.refl t, fun i hi => absurd hi (Nat.not_lt_zero _)⟩
  · have hend := (g'.arranged.bounds (hout ▸ List.mem_cons_self)).2.1
    have hspan := Heap.le_span (sl.length.toNat * e.size)
    have hlast := h.next.toNat_lt
    have hnext := g.next_le hs.arranged
    simp only at hend ⊢
    have hahead : ∀ p ∈ e.elements sl.length.toNat sl.data t.heap.next, Ahead s p := fun p hp => by
      obtain ⟨h1, h2, h3⟩ := Shape.elements_within (by omega) hp
      exact ⟨h1 ▸ hb, by omega, by rw [h1]; omega⟩
    rw [eachElement_eq]
    refine (pieces_follow hs (t := { t with heap := h }) (g.trans hs.arranged g' fun _ _ h => h) hahead
      fun p hp => ?_).mono (fun _ t' hall => ⟨(Adds.of_heap g').trans hall.1, fun i hi => ?_⟩) fun _ _ _ => trivial
    · obtain ⟨i, -, rfl⟩ := List.mem_map.1 hp
      exact ih
    · exact hall.2 _ (List.mem_map.2 ⟨i, List.mem_range.2 hi, rfl⟩)

theorem follows_object (hs : s.Sound) : Follows s .object := by
  intro a b t g _
  simp only [copyShape, Action.ends_bind, Action.ends_query]
  cases hr : t.heap.readAddress a with
  | error e => trivial
  | ok old =>
  -- what stands there now is what stood there at the call
  have hold : ∀ x, s.heap.readAddress a = .ok x → x = old := fun x hx =>
    Except.ok.inj ((Heap.readAddress_of_grows hs.arranged g (fun _ _ h => h) hx).symm.trans hr)
  have hwrite : ∀ (new : Address) (t' : Traversal), Adds s t t' → t'.heap.Arranged → (old ≠ .null → t'.Known old) →
      (onHeap (Action.modifyM (·.writeAddress b new))).Ends t'
        (fun _ t'' => Adds s t t'' ∧ Followed s.heap t''.Known .object a) fun _ _ => True := fun new t' ha harr hk => by
    simp only [onHeap, Action.ends_on, Action.ends_modifyM]
    cases hw : t'.heap.writeAddress b new with
    | error e => trivial
    | ok h =>
      refine ⟨ha.trans (.of_heap (Heap.grows_writeAddress harr hw)), .object fun x hx hn => ?_⟩
      obtain rfl := hold x hx
      exact hk hn
  dsimp only
  by_cases hn : old.isNull = true
  · rw [if_pos hn]
    exact hwrite .null t (.refl t) g.arranged fun h => absurd (Address.isNull_iff.1 hn) h
  · rw [if_neg hn, Action.ends_bind]
    have hext := copyObject_extends hs.built old g.arranged
    exact ((copyObject_adds hs old g).and hext).mono
      (fun new t' h => hwrite new t' h.1.1 h.2.heap.arranged fun _ => h.1.2) fun _ _ _ => trivial

theorem follows_slice (hs : s.Sound) {e : Shape} (hb : e.Built) (ih : Follows s e) : Follows s (.slice e) := by
  intro a b t g _
  simp only [copyShape, Action.ends_bind, Action.ends_query]
  cases hr : t.heap.readSlice a with
  | error err => trivial
  | ok sl =>
  have hext := copySlice_extends sl g.arranged (copyShape_extends hs.built hb)
  refine ((copySlice_follows hs hb sl g ih).and hext).mono (fun copy t' hcopied => ?_) fun _ _ _ => trivial
  obtain ⟨⟨ha, hf⟩, x⟩ := hcopied
  simp only [onHeap, Action.ends_on]
  refine (Heap.ends_writeSlice x.heap.arranged b copy).mono
    (fun _ h hg => ⟨ha.trans (.of_heap hg.1), .slice fun sl' n hsl _ => ?_⟩) fun _ _ _ => trivial
  -- the slice that stands there now is the one that stood there at the call
  have hsame := Heap.readSlice_of_grows hs.arranged g (fun _ _ h => h) (fun _ _ h => h) hsl
  obtain rfl := Except.ok.inj (hsame.symm.trans hr)
  exact hf

theorem follows_aggregate (hs : s.Sound) {l : Aggregate} (placed : Placed 0 l.fields l.size)
    (hb : ∀ f ∈ l.fields, f.shape.Built) (ih : ∀ f ∈ l.fields, Follows s f.shape) : Follows s (.aggregate l) := by
  intro a b t g hahead
  have hlt := hahead.lt
  have hbehind := hahead.behind
  simp only [Shape.size] at hlt hbehind
  rw [copyShape_aggregate]
  have hpieces : ∀ p ∈ l.pieces a b, Ahead s p := fun p hp => by
    obtain ⟨f, hf, rfl⟩ := List.mem_map.1 hp
    have h1 := (placed.bounds hf).2
    have h2 : (b + f.offset).toNat = b.toNat + f.offset := Address.toNat_add_of_lt (by omega)
    exact ⟨hb f hf, by simp only [Piece.ofField, h2]; omega, by simp only [Piece.ofField, h2]; omega⟩
  refine (pieces_follow hs g hpieces fun p hp => ?_).mono
    (fun _ _ h => ⟨h.1, .aggregate fun f hmem => h.2 _ (List.mem_map.2 ⟨f, hmem, rfl⟩)⟩) fun _ _ _ => trivial
  obtain ⟨f, hf, rfl⟩ := List.mem_map.1 hp
  exact ih f hf

/-- **A piece that has been copied has been followed.** -/
theorem follows (hs : s.Sound) {shape : Shape} (hb : shape.Built) : Follows s shape := by
  induction hb with
  | scalar size =>
    intro a b t g _
    simp only [copyShape, onHeap, Action.ends_on, Action.ends_modifyM]
    cases hx : t.heap.copy a b size with
    | error e => trivial
    | ok h => exact ⟨.of_heap (Heap.grows_copy g.arranged hx), .scalar⟩
  | handle size =>
    intro a b t g _
    simp only [copyShape, onHeap, Action.ends_on, Action.ends_modifyM]
    cases hx : t.heap.copy a b size with
    | error e => trivial
    | ok h => exact ⟨.of_heap (Heap.grows_copy g.arranged hx), .handle⟩
  | object => exact follows_object hs
  | slice hb ih => exact follows_slice hs hb ih
  | aggregate placed _ _ hb ih => exact follows_aggregate hs placed hb ih

/-! ## The queue -/

/-- Whatever an object on record refers to is on record, too, unless the object waits in the queue or is busy. -/
structure Frontier (s : Allocator) (busy : Address → Prop) (t : Traversal) : Prop where
  kept : Kept s.heap t
  inside : ∀ x, t.Known x → t.heap.Inside x.toNat 8
  jobs : ∀ j ∈ t.queue, t.Known j.source ∧ ∀ d, s.classOf j.source = .ok d → d.type = j.type
  distinct : (t.queue.map Job.source).Nodup
  done : ∀ x, t.Known x → x ∉ t.queue.map Job.source → ¬ busy x → ∀ d, s.classOf x = .ok d →
    ∀ f ∈ d.type.fields, Followed s.heap t.Known f.shape.copied (x + f.offset)

def Waiting (t : Traversal) : Set Address := {x | ¬ t.Known x ∨ x ∈ t.queue.map Job.source}

theorem mem_waiting {t : Traversal} {x : Address} : x ∈ t.Waiting ↔ ¬ t.Known x ∨ x ∈ t.queue.map Job.source := Iff.rfl

/-- New jobs keep the frontier, and no address waits that did not wait before. -/
theorem Frontier.add {busy : Address → Prop} {t t' : Traversal} (f : Frontier s busy t) (a : Adds s t t')
    (k : Kept s.heap t') : Frontier s busy t' ∧ t'.Waiting = t.Waiting := by
  obtain ⟨new, hq, hd, hk, hj⟩ := a.jobs
  have hmap : t'.queue.map Job.source = t.queue.map Job.source ++ new.map Job.source := by
    rw [hq, List.map_append]
  have hnew : ∀ x ∈ new.map Job.source, ¬ t.Known x := fun x hx => by
    obtain ⟨j, hmem, rfl⟩ := List.mem_map.1 hx
    exact (hj j hmem).1
  refine ⟨⟨k, fun x hx => ?_, fun j hmem => ?_, ?_, fun x hx hn hb d hc g hg => ?_⟩, ?_⟩
  · rcases (hk x).1 hx with hx | hx
    · obtain ⟨e, he, hin⟩ := f.inside x hx
      exact ⟨e, a.outline he, hin⟩
    · obtain ⟨j, hmem, rfl⟩ := List.mem_map.1 hx
      exact (hj j hmem).2.1
  · rw [hq] at hmem
    rcases List.mem_append.1 hmem with hmem | hmem
    · exact ⟨a.known (f.jobs j hmem).1, (f.jobs j hmem).2⟩
    · exact ⟨(hk _).2 (.inr (List.mem_map.2 ⟨j, hmem, rfl⟩)), (hj j hmem).2.2⟩
  · rw [hmap, List.nodup_append]
    refine ⟨f.distinct, hd, fun x hx y hy hxy => ?_⟩
    obtain ⟨i, hi, rfl⟩ := List.mem_map.1 hx
    exact hnew y hy (hxy ▸ (f.jobs i hi).1)
  · rw [hmap, List.mem_append, not_or] at hn
    exact (f.done x (((hk x).1 hx).resolve_right hn.2) hn.1 hb d hc g hg).mono fun _ => a.known
  · ext x
    rw [mem_waiting, mem_waiting, hk x, hmap, List.mem_append]
    have := hnew x
    tauto

theorem Frontier.pop {t : Traversal} (f : Frontier s (fun _ => False) t) {j : Job} {rest : List Job}
    (hq : t.queue = j :: rest) : Frontier s (· = j.source) (t.popped rest) ∧ (t.popped rest).Waiting ⊂ t.Waiting := by
  have hdist := f.distinct
  rw [hq, List.map_cons, List.nodup_cons] at hdist
  have hsub : ∀ i ∈ rest, i ∈ t.queue := fun i hi => hq ▸ List.mem_cons_of_mem _ hi
  refine ⟨⟨⟨f.kept.heap, fun i hi => f.kept.queue i (hsub i hi)⟩, f.inside, fun i hi => f.jobs i (hsub i hi), hdist.2,
    fun x hx hn hb d hc g hg => f.done x hx ?_ (fun h => h) d hc g hg⟩, ?_⟩
  · rw [hq, List.map_cons, List.mem_cons, not_or]
    exact ⟨hb, hn⟩
  · refine (Set.ssubset_iff_of_subset fun x hx => ?_).2 ⟨j.source, ?_, ?_⟩
    · rw [mem_waiting, hq, List.map_cons, List.mem_cons]
      exact hx.imp_right .inr
    · rw [mem_waiting, hq]
      exact .inr List.mem_cons_self
    · rintro (h | h)
      · exact h (f.jobs j (hq ▸ List.mem_cons_self)).1
      · exact hdist.1 h

/-- **A job done follows all that its object refers to.** -/
theorem Frontier.finish (hs : s.Sound) {t : Traversal} (f : Frontier s (fun _ => False) t) {j : Job}
    {rest : List Job} (hq : t.queue = j :: rest) :
    (finish s.catalog j).Ends (t.popped rest) (fun _ t' => Frontier s (fun _ => False) t' ∧
      (∀ x, t.Known x → t'.Known x) ∧ t'.Waiting ⊂ t.Waiting) fun _ _ => True := by
  have hmem : j ∈ t.queue := hq ▸ List.mem_cons_self
  obtain ⟨hbehind, hblock, hbuilt⟩ := f.kept.queue j hmem
  obtain ⟨f₁, hless⟩ := f.pop hq
  have hend := (f.kept.heap.arranged.bounds hblock).2.1
  have hspan := Heap.le_span j.type.size
  have hlast := t.heap.next.toNat_lt
  simp only at hend
  have hpieces : ∀ p ∈ j.pieces, Ahead s p := fun p hp => by
    obtain ⟨g, hg, rfl⟩ := List.mem_map.1 hp
    have h1 := (hbuilt.placed.bounds hg).2
    have h2 : (j.target + g.offset).toNat = j.target.toNat + g.offset := Address.toNat_add_of_lt (by omega)
    refine ⟨(hbuilt.built g hg).copied, ?_, ?_⟩
    · simp only [Piece.ofObjectField, h2]
      omega
    · simp only [Piece.ofObjectField, Shape.size_copied, h2]
      omega
  have hrun := pieces_follow hs (t := t.popped rest) f.kept.heap hpieces
    fun p hp => follows hs (hpieces p hp).built
  rw [← finish_eq] at hrun
  have hext := finish_extends hs.built (t := t.popped rest) f.kept.heap.arranged hblock hbuilt
  refine (hrun.and hext).mono (fun _ t' hdone => ?_) fun _ _ _ => trivial
  obtain ⟨⟨a, hf⟩, e⟩ := hdone
  obtain ⟨f₂, hwait⟩ := f₁.add a (f₁.kept.extend hs.arranged e fun x hx => Nat.le_trans hbehind hx.1)
  refine ⟨⟨f₂.kept, f₂.inside, f₂.jobs, f₂.distinct, fun x hx hn _ d hd g hg => ?_⟩, fun x hx => a.known hx,
    hwait ▸ hless⟩
  by_cases hxj : x = j.source
  · -- the object of this job: its fields are the pieces
    subst hxj
    have htype := (f.jobs j hmem).2 d hd
    exact hf _ (List.mem_map.2 ⟨g, htype ▸ hg, rfl⟩)
  · exact f₂.done x hx hn hxj d hd g hg

theorem drain_frontier (hs : s.Sound) (n : Nat) {t : Traversal} (f : Frontier s (fun _ => False) t)
    (hn : t.Waiting.ncard ≤ n) : (drain s.catalog n).Ends t
      (fun _ t' => Frontier s (fun _ => False) t' ∧ t'.queue = [] ∧ ∀ x, t.Known x → t'.Known x) fun _ _ => True := by
  induction n generalizing t with
  | zero =>
    have hempty : t.Waiting = ∅ := (Set.ncard_eq_zero (Set.toFinite _)).1 (Nat.le_zero.1 hn)
    have hqueue : t.queue = [] := List.eq_nil_iff_forall_not_mem.2 fun j hj =>
      Set.notMem_empty j.source (hempty ▸ mem_waiting.2 (.inr (List.mem_map.2 ⟨j, hj, rfl⟩)))
    exact ⟨f, hqueue, fun _ h => h⟩
  | succ n ih =>
    simp only [drain, pop?, Action.ends_bind, Action.ends_get]
    cases hq : t.duplicator.pending with
    | nil => exact ⟨f, hq, fun _ h => h⟩
    | cons j rest =>
      simp only [Action.ends_bind, Action.ends_set, Action.ends_pure]
      refine (f.finish hs hq).mono (fun _ t' hdone => ?_) fun _ _ _ => trivial
      obtain ⟨f', hk, hless⟩ := hdone
      have hcard := Set.ncard_lt_ncard hless (Set.toFinite _)
      exact (ih f' (by omega)).mono (fun _ _ h => ⟨h.1, h.2.1, fun x hx => h.2.2 x (hk x hx)⟩) fun _ _ _ => trivial

/-! ## A whole copy -/

/-- **With the queue empty, all that an object on record reached at the call is on record.** -/
theorem Frontier.known_of_reaches {t : Traversal} (f : Frontier s (fun _ => False) t) (hq : t.queue = []) {o : Address}
    (ho : t.Known o) {spot : Spot} (hr : s.Reaches (.object (some o)) spot) :
    match spot with
    | .object x => t.Known x
    | .piece shape a => Followed s.heap t.Known shape a
    | .slice sl e => ∀ n, s.heap.checkSlice sl e.size = .ok n → ∀ i < sl.length.toNat,
        Followed s.heap t.Known e (sl.data + i * e.size) := by
  induction hr with
  | root hv =>
    obtain rfl := Option.some.inj (Value.object.inj hv)
    exact ho
  | rootAggregate hv | rootSlice hv => cases hv
  | field _ hd hf ih => exact f.done _ ih (hq ▸ List.not_mem_nil) (fun h => h) _ hd _ hf
  | part _ hf ih =>
    cases ih with
    | aggregate fields => exact fields _ hf
  | header _ hsl ih =>
    cases ih with
    | slice elements => exact fun n hn => elements _ n hsl hn
  | element _ hc hi ih => exact ih _ hc _ hi
  | reference _ hx hn ih =>
    cases ih with
    | object target => exact target _ hx hn

theorem card_address : Nat.card Address ≤ Text.wordLimit := by
  have h := Nat.card_le_card_of_injective (fun a : Address => (⟨a.toNat, a.toNat_lt⟩ : Fin (2 ^ 64)))
    fun _ _ h => Address.ext (Fin.mk.inj h)
  rwa [Nat.card_fin] at h

/-- **A copy of an object that succeeds has found everything that the object reached in a block.** -/
theorem copyRoot_looked (hs : s.Sound) (o : Address) :
    (copyRoot s.catalog (.object (some o))).Ends ⟨s.heap, {}⟩
      (fun _ t => ∀ x, s.Reaches (.object (some o)) (.object x) → t.heap.Inside x.toNat 8) fun _ _ => True := by
  have hnone : ∀ x, ¬ Traversal.Known ⟨s.heap, {}⟩ x := by rintro x ⟨_, ⟨⟩⟩
  have f₀ : Frontier s (fun _ => False) ⟨s.heap, {}⟩ :=
    ⟨.start hs.arranged, fun x hx => (hnone x hx).elim, fun _ h => (List.not_mem_nil h).elim, .nil,
      fun x hx => (hnone x hx).elim⟩
  have hext := copyObject_extends hs.built o (t := ⟨s.heap, {}⟩) hs.arranged
  simp only [copyRoot, Action.ends_bind, Action.ends_pure]
  refine ((copyObject_adds hs o (t := ⟨s.heap, {}⟩) (.refl hs.arranged)).and hext).mono
    (fun y t hcopied => ?_) fun _ _ _ => trivial
  obtain ⟨⟨a, ho⟩, e⟩ := hcopied
  obtain ⟨f, -⟩ := f₀.add a (f₀.kept.extend hs.arranged e fun _ h => h.elim)
  refine (drain_frontier hs Text.wordLimit f (Nat.le_trans ?_ card_address)).mono
    (fun _ _ h x hx => h.1.inside x (h.1.known_of_reaches h.2.1 (h.2.2 o ho) hx)) fun _ _ _ => trivial
  exact Set.ncard_le_card _

end Traversal
end Introspect
