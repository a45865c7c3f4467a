import Introspect.Proofs.Catalog
/-!
# The states of an allocator

An allocator starts with an empty heap and no classes.  From there its heap is allocated on and written to in any way,
anything is registered or indexed, and classes are declared; nothing is ever taken back.  `Reachable` is the states that
this gives, whatever the bytes on the heap are by then, and `WellFormed` is what all of them have in common.  `Sound` is
the part of it that is left when another heap is put in the place of that one.
-/
namespace Introspect
namespace Allocator

def Everywhere (_ : Nat) : Prop := True

inductive Reachable : Allocator → Prop where
  | start (settings : Settings) (registry : Registry) : Reachable (withRegistry settings registry)
  /-- Blocks are allocated and bytes written, wherever. -/
  | heap {s : Allocator} {h : Heap} (hs : Reachable s) (g : Heap.Grows Everywhere s.heap h) :
    Reachable { s with heap := h }
  /-- Symbols are registered, and files indexed. -/
  | registry {s : Allocator} (hs : Reachable s) (r : Registry) : Reachable { s with registry := r }
  | declare {s s' : Allocator} {d : ClassDefinition} (hs : Reachable s) (made : d.type.Made)
    (declared : declare d s = .ok () s') : Reachable s'

/-- The heap is in order, whatever lies on it and wherever it comes from, and so are the layouts of the classes. -/
structure Sound (s : Allocator) : Prop where
  arranged : s.heap.Arranged
  built : ∀ d ∈ s.catalog.entries, d.type.Built

structure WellFormed (s : Allocator) : Prop where
  arranged : s.heap.Arranged
  made : ∀ d ∈ s.catalog.entries, d.type.Made
  vtables : ∀ d ∈ s.catalog.entries, (d.vtable.toNat, Catalog.vtableSize) ∈ s.heap.outline
  distinct : (s.catalog.entries.map Declared.vtable).Nodup

/-- What declaring a class does, where it succeeds: a vtable with the next number, and the two names of the class. -/
theorem ends_declare {s : Allocator} (ha : s.heap.Arranged) (d : ClassDefinition) :
    (declare d).Ends s
      (fun _ s' => s.catalog.find? d.type.path = none ∧ ∃ v h, v = s.heap.next ∧ Heap.Grows Heap.Nowhere s.heap h ∧
        h.outline = (v.toNat, Catalog.vtableSize) :: s.heap.outline ∧
        h.readWord v = .ok (UInt64.ofNat (s.catalog.size + 1)) ∧
        s' = { s with
          heap := h
          registry := Catalog.announce s.registry (s.catalog.entryFor d v)
          catalog := ⟨s.catalog.entries ++ [s.catalog.entryFor d v]⟩ })
      fun _ s' => s' = s := by
  simp only [declare, Action.ends_bind, Action.ends_get]
  cases hf : s.catalog.find? d.type.path with
  | some d' => simp
  | none =>
    simp only [Option.isSome_none, Bool.false_eq_true, if_false, Action.ends_bind, onHeap, Action.ends_on,
      Action.ends_modify]
    exact (Catalog.ends_newVtable ha (s.catalog.size + 1) d.type.size).mono
      (fun v h hnew => ⟨trivial, v, h, hnew.1, hnew.2.1, hnew.2.2.1, hnew.2.2.2, rfl⟩) (fun e h hs => by rw [hs.1])

namespace Sound

variable {s : Allocator} {h : Heap}

theorem replace (hs : s.Sound) (ha : h.Arranged) : Sound { s with heap := h } := ⟨ha, hs.built⟩

theorem built_of_classOf (hs : s.Sound) {o : Address} {d : Declared} (hd : s.classOf o = .ok d) : d.type.Built := by
  unfold classOf at hd
  cases hr : s.heap.readAddress (o + Class.vtableOffset) with
  | error e => rw [hr] at hd; cases hd
  | ok v =>
    rw [hr] at hd
    exact hs.built d (Catalog.mem_of_ofVtable hd).1

/-- **Allocating behind a known vtable** gives a fresh instance, or memory is used up. -/
theorem ends_allocate (hs : s.Sound) {v : Address} {e : Declared} (known : s.ofVtable v = .ok e) :
    (allocate v).Ends s (fun o s' => ∃ h, s' = { s with heap := h } ∧ o = s.heap.next ∧
      Heap.Grows Heap.Nowhere s.heap h ∧ h.outline = (o.toNat, e.type.size) :: s.heap.outline ∧
      h.readAddress o = .ok v ∧ h.readAddress (o + Class.monitorOffset) = .ok .null ∧
      ∀ x, Heap.Window (o.toNat + 8) (e.type.size - 8) x → h.byteAt x = 0)
      fun stop s' => s' = s ∧ (∃ f, stop = .fault f) ∧ ¬ Heap.Room (e.type.size ::ₘ s.heap.sizes) := by
  simp only [allocate, onHeap, Action.ends_bind, Action.ends_get, Action.ends_on]
  refine (Catalog.ends_newInstance hs.arranged known (hs.built e (Catalog.mem_of_ofVtable known).1)).mono
    (fun o h hnew => ⟨h, rfl, hnew⟩) fun stop h hh => ?_
  obtain ⟨rfl, f, rfl, hf⟩ := hh
  exact ⟨rfl, ⟨f, rfl⟩, Heap.no_room_of_allocate hs.arranged hf⟩

end Sound

namespace WellFormed

variable {s : Allocator} {h : Heap}

theorem grow (hs : s.WellFormed) {W : Nat → Prop} (g : Heap.Grows W s.heap h) : WellFormed { s with heap := h } where
  arranged := g.arranged
  made := hs.made
  vtables d hd := g.outline.subset (hs.vtables d hd)
  distinct := hs.distinct

theorem declare (hs : s.WellFormed) {d : ClassDefinition} (made : d.type.Made) {s' : Allocator}
    (hd : Allocator.declare d s = .ok () s') : s'.WellFormed := by
  obtain ⟨-, v, h, rfl, g, ho, -, rfl⟩ := (ends_declare hs.arranged d).of_ok hd
  refine ⟨g.arranged, fun e he => ?_, fun e he => ?_, ?_⟩
  · rcases List.mem_append.1 he with he | he
    · exact hs.made e he
    · exact List.mem_singleton.1 he ▸ made
  · rcases List.mem_append.1 he with he | he
    · exact g.outline.subset (hs.vtables e he)
    · obtain rfl := List.mem_singleton.1 he
      rw [ho]
      exact List.mem_cons_self
  · rw [List.map_append, List.nodup_append]
    refine ⟨hs.distinct, List.nodup_singleton _, fun a ha b hb hab => ?_⟩
    -- the new vtable starts where the heap ended, and the old ones end before that
    obtain ⟨e, he, rfl⟩ := List.mem_map.1 ha
    obtain rfl := List.mem_singleton.1 hb
    have h1 := (hs.arranged.bounds (hs.vtables e he)).2.1
    have h2 := Heap.one_le_span Catalog.vtableSize
    have h3 : e.vtable.toNat = s.heap.next.toNat := congrArg Address.toNat hab
    simp only at h1
    omega

theorem sound (hs : s.WellFormed) : s.Sound := ⟨hs.arranged, fun d hd => (hs.made d hd).built⟩

end WellFormed

/-- **Every reachable state is well formed.** -/
theorem Reachable.wellFormed {s : Allocator} (hs : s.Reachable) : s.WellFormed := by
  induction hs with
  | start settings registry =>
    exact ⟨.empty, fun _ h => (List.not_mem_nil h).elim, fun _ h => (List.not_mem_nil h).elim, .nil⟩
  | heap _ g ih => exact ih.grow g
  | registry _ r ih => exact ⟨ih.arranged, ih.made, ih.vtables, ih.distinct⟩
  | declare _ made hd ih => exact ih.declare made hd

theorem Reachable.sound {s : Allocator} (hs : s.Reachable) : s.Sound := hs.wellFormed.sound

theorem classOf_ok {s : Allocator} {o : Address} {d : Declared} :
    s.classOf o = .ok d ↔ ∃ v, s.heap.readAddress o = .ok v ∧ s.ofVtable v = .ok d := by
  simp only [classOf, Class.vtableOffset, Address.add_zero]
  cases s.heap.readAddress o with
  | error e =>
    constructor
    · rintro ⟨⟩
    · rintro ⟨_, ⟨⟩, _⟩
  | ok v =>
    constructor
    · exact fun h => ⟨v, rfl, h⟩
    · rintro ⟨w, hw, hd⟩
      obtain rfl := Except.ok.inj hw
      exact hd

end Allocator
end Introspect
