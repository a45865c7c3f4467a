import Introspect.Proofs.Allocator.Binding
/-!
# A vtable is known by its address

The number in a vtable lies on the heap, where anything may be written over it, and the first word of an instance does
too.  What a class was given is kept outside: the number only says which class to ask, and the class is asked for its
address.  So a forged number hides a class, but it never passes for another one (`vtables_sound`).
-/
namespace Introspect

namespace Heap

variable {h : Heap}

/-- Writing at the start of the newest block replaces the first bytes of that block, and leaves all others alone. -/
theorem write_newest {a : Address} {bytes new : List UInt8} {older : List Block} (ha : h.Arranged)
    (hb : h.blocks = ⟨a, bytes⟩ :: older) (hlen : new.length ≤ bytes.length) :
    h.write a new = .ok { h with blocks := ⟨a, new ++ bytes.drop new.length⟩ :: older } := by
  have hfound : h.blocks.find? (·.base ≤ a) = some ⟨a, bytes⟩ := by
    rw [hb]
    exact List.find?_cons_of_pos (decide_eq_true (Address.le_iff.2 (Nat.le_refl _)))
  have hlocate : h.locate a new.length = .ok (⟨a, bytes⟩, 0) := by
    simp only [locate, hfound, Nat.sub_self, Nat.zero_add, if_pos hlen]
  have holder : ∀ c ∈ older, c.base ≠ a := fun c hc heq => by
    have hp := ha.packed
    rw [outline, hb] at hp
    have h1 := (hp.2.2.bounds (List.mem_map.2 ⟨c, hc, rfl⟩)).2.1
    have h2 := one_le_span c.bytes.length
    have h3 := hp.1
    simp only [heq] at h1 h3
    omega
  have hkept : older.map (fun c => if c.base = a then { c with bytes := overwrite c.bytes 0 new } else c) = older :=
    (List.map_congr_left fun c hc => if_neg (holder c hc)).trans (List.map_id _)
  simp only [write, hlocate, bind, Except.bind]
  rw [hb, List.map_cons, if_pos rfl, hkept, overwrite, List.take_zero, List.nil_append, Nat.zero_add]

end Heap

namespace Catalog

variable {c : Catalog} {h : Heap} {vtable : Address} {d : Declared}

/-- The bytes of a fresh instance. -/
def freshBytes (vtable : Address) (size : Nat) : List UInt8 :=
  Octets.encode 8 vtable.toNat ++ List.replicate (size - 8) 0

theorem length_freshBytes {size : Nat} (h : 8 ≤ size) : (freshBytes vtable size).length = size := by
  rw [freshBytes, List.length_append, Octets.length_encode, List.length_replicate]
  omega

/-- A fresh instance is one block more, and no other block changes. -/
theorem blocks_newInstance (ha : h.Arranged) (hv : c.ofVtable h vtable = .ok d) (hd : d.type.Built) :
    (c.newInstance vtable).Ends h (fun o h' => h'.blocks = ⟨o, freshBytes vtable d.type.size⟩ :: h.blocks)
      fun _ _ => True := by
  simp only [newInstance, Action.ends_bind, Action.ends_query, hv, Heap.ends_newBlock]
  cases hk : h.allocate d.type.size with
  | error f => trivial
  | ok r =>
    obtain ⟨a, k⟩ := r
    obtain ⟨rfl, hblocks, hk⟩ := Heap.allocate_ok ha hk
    have hsize := hd.placed.le
    simp only [Class.headerSize] at hsize
    have hlen : (Octets.encode 8 vtable.toNat).length ≤ (List.replicate d.type.size (0 : UInt8)).length := by
      rw [Octets.length_encode, List.length_replicate]
      omega
    have hw : k.writeAddress h.next vtable = _ := Heap.write_newest hk hblocks hlen
    simp only [Action.ends_modifyM, Class.vtableOffset, Address.add_zero, hw, Octets.length_encode, List.drop_replicate]
    exact rfl

end Catalog

namespace Allocator

variable {s s' t : Allocator} {v o : Address} {d : Declared}

/-! ## What leads on -/

/-- What may come after a state: its heap is allocated on and written to in any way, anything is registered or indexed,
and classes are declared. -/
inductive Evolves (s : Allocator) : Allocator → Prop where
  | refl : Evolves s s
  | heap {t : Allocator} {h : Heap} (ht : Evolves s t) (g : Heap.Grows Everywhere t.heap h) :
    Evolves s { t with heap := h }
  | registry {t : Allocator} (ht : Evolves s t) (r : Registry) : Evolves s { t with registry := r }
  | declare {t t' : Allocator} {d : ClassDefinition} (ht : Evolves s t) (made : d.type.Made)
    (declared : declare d t = .ok () t') : Evolves s t'

theorem Evolves.reachable (h : s.Evolves t) (hs : s.Reachable) : t.Reachable := by
  induction h with
  | refl => exact hs
  | heap _ g ih => exact .heap ih g
  | registry _ r ih => exact .registry ih r
  | declare _ made hd ih => exact .declare ih made hd

/-- **Classes stay as they were declared.** -/
theorem Evolves.entries (h : s.Evolves t) (hs : s.Reachable) : s.catalog.entries <+: t.catalog.entries := by
  induction h with
  | refl => exact List.prefix_rfl
  | heap _ _ ih | registry _ _ ih => exact ih
  | declare ht _ hd ih =>
    obtain ⟨-, v, k, -, -, -, -, rfl⟩ := (ends_declare (ht.reachable hs).wellFormed.arranged _).of_ok hd
    exact ih.trans (List.prefix_append _ _)

/-- A block is handed out. -/
theorem Evolves.block {n : Nat} {a : Address} {h : Heap} (ht : s.Evolves t) (hs : s.Reachable)
    (hx : t.heap.allocate n = .ok (a, h)) : s.Evolves { t with heap := h } :=
  .heap ht ((Heap.grows_allocate (ht.reachable hs).wellFormed.arranged hx).mono fun _ _ _ => trivial)

/-- Bytes are written anywhere, the vtables not excepted. -/
theorem Evolves.write {a : Address} {bytes : List UInt8} {h : Heap} (ht : s.Evolves t) (hs : s.Reachable)
    (hw : t.heap.write a bytes = .ok h) : s.Evolves { t with heap := h } :=
  .heap ht ((Heap.grows_write (ht.reachable hs).wellFormed.arranged hw).mono fun _ _ _ => trivial)

theorem Reachable.paths (hs : s.Reachable) : (s.catalog.entries.map (·.type.path)).Nodup := by
  induction hs with
  | start _ _ => exact .nil
  | heap _ _ ih | registry _ _ ih => exact ih
  | declare hs _ hd ih =>
    obtain ⟨hnone, v, k, -, -, -, -, rfl⟩ := (ends_declare hs.wellFormed.arranged _).of_ok hd
    rw [List.map_append, List.nodup_append]
    refine ⟨ih, List.nodup_singleton _, fun a ha b hb hab => ?_⟩
    obtain ⟨e, he, rfl⟩ := List.mem_map.1 ha
    obtain rfl := List.mem_singleton.1 hb
    exact List.find?_eq_none.1 hnone e he (decide_eq_true hab)

/-! ## Recognising and allocating -/

/-- **An instance is recognised only by the very address that its class was given.** -/
theorem vtable_of_classOf (h : s.classOf o = .ok d) : d ∈ s.catalog.entries ∧ s.heap.readAddress o = .ok d.vtable := by
  obtain ⟨v, hr, hv⟩ := classOf_ok.1 h
  obtain ⟨hmem, rfl⟩ := Catalog.mem_of_ofVtable hv
  exact ⟨hmem, hr⟩

/-- What allocating behind a vtable adds: a block of the size of the class, zero but for the vtable. -/
structure Allocated (s : Allocator) (v o : Address) (d : Declared) (s' : Allocator) : Prop where
  rest : s' = { s with heap := s'.heap }
  grows : Heap.Grows Heap.Nowhere s.heap s'.heap
  fresh : ∀ b ∈ s.heap.blocks, b.base ≠ o
  blocks : s'.heap.blocks = ⟨o, Catalog.freshBytes v d.type.size⟩ :: s.heap.blocks
  size : (Catalog.freshBytes v d.type.size).length = d.type.size
  classOf : s'.classOf o = .ok d

/-- **An instance is allocated behind the vtable of a declared class**, or not at all. -/
theorem Sound.allocates (hs : s.Sound) (v : Address) : (allocate v).Ends s
    (fun o s' => ∃ d, s.ofVtable v = .ok d ∧ s.Allocated v o d s')
    fun stop s' => s' = s ∧ (stop = .failure (.unknownVtable v) ∨
      ∃ d, s.ofVtable v = .ok d ∧ (∃ f, stop = .fault f) ∧ ¬ Heap.Room (d.type.size ::ₘ s.heap.sizes)) := by
  cases hv : s.ofVtable v with
  | error e =>
    have hv : s.catalog.ofVtable s.heap v = .error e := hv
    simp only [allocate, onHeap, Catalog.newInstance, Action.ends_bind, Action.ends_get, Action.ends_on,
      Action.ends_query, hv]
    exact ⟨trivial, .inl (congrArg _ (Catalog.ofVtable_error hv))⟩
  | ok d =>
    obtain ⟨hmem, rfl⟩ := Catalog.mem_of_ofVtable hv
    have hbuilt := hs.built d hmem
    have hblocks : (allocate d.vtable).Ends s
        (fun o s' => s'.heap.blocks = ⟨o, Catalog.freshBytes d.vtable d.type.size⟩ :: s.heap.blocks)
        fun _ _ => True := by
      simp only [allocate, onHeap, Action.ends_bind, Action.ends_get, Action.ends_on]
      exact Catalog.blocks_newInstance hs.arranged hv hbuilt
    refine ((hs.ends_allocate hv).and hblocks).mono (fun o s' hrun => ?_) fun stop s' hrun => ?_
    · obtain ⟨⟨h, rfl, rfl, g, -, hr, -, -⟩, hblocks⟩ := hrun
      refine ⟨d, rfl, {
        rest := rfl
        grows := g
        fresh := fun b hb heq => ?_
        blocks := hblocks
        size := Catalog.length_freshBytes (Nat.le_trans (by decide) hbuilt.placed.le)
        classOf := classOf_ok.2 ⟨d.vtable, hr, Catalog.ofVtable_grown hs.arranged g hv⟩ }⟩
      have h1 := (hs.arranged.bounds (Heap.mem_outline hb)).2.1
      have h2 := Heap.one_le_span b.bytes.length
      simp only [heq] at h1
      omega
    · obtain ⟨⟨rfl, hfault, hroom⟩, -⟩ := hrun
      exact ⟨rfl, .inr ⟨d, rfl, hfault, hroom⟩⟩

/-- A known vtable is that of a declared class. -/
theorem Sound.allocates_declared (hs : s.Sound) (v : Address) : (allocate v).Ends s
    (fun o s' => ∃ d ∈ s.catalog.entries, d.vtable = v ∧ s.Allocated v o d s')
    fun stop s' => s' = s ∧ (stop = .failure (.unknownVtable v) ∨
      ∃ d ∈ s.catalog.entries, d.vtable = v ∧ (∃ f, stop = .fault f) ∧ ¬ Heap.Room (d.type.size ::ₘ s.heap.sizes)) := by
  refine (hs.allocates v).mono (fun o s' hallocated => ?_) fun stop s' hstop => hstop.imp_right (Or.imp_right ?_)
  · obtain ⟨d, hd, hallocated⟩ := hallocated
    obtain ⟨hmem, hv⟩ := Catalog.mem_of_ofVtable hd
    exact ⟨d, hmem, hv, hallocated⟩
  · rintro ⟨d, hd, hfault⟩
    obtain ⟨hmem, hv⟩ := Catalog.mem_of_ofVtable hd
    exact ⟨d, hmem, hv, hfault⟩

/-- An instance is allocated. -/
theorem Evolves.allocate {t' : Allocator} (ht : s.Evolves t) (hs : s.Reachable) (hx : allocate v t = .ok o t') :
    s.Evolves t' := by
  obtain ⟨d, -, hallocated⟩ := ((ht.reachable hs).sound.allocates v).of_ok hx
  rw [hallocated.rest]
  exact .heap ht (hallocated.grows.mono fun _ _ _ => trivial)

/-- **Vtables are sound whatever is written on the heap**: no two classes have the same, an instance is of the class
whose vtable stands in it, and an instance is allocated behind the vtable of a declared class, or not at all. -/
theorem vtables_sound :
    (∀ s : Allocator, s.Reachable →
      (s.catalog.entries.map (·.type.path)).Nodup ∧ (s.catalog.entries.map Declared.vtable).Nodup ∧
      (∀ o d, s.classOf o = .ok d → d ∈ s.catalog.entries ∧ s.heap.readAddress o = .ok d.vtable) ∧
      ∀ v, (allocate v).Ends s (fun o s' => ∃ d ∈ s.catalog.entries, d.vtable = v ∧ s.Allocated v o d s')
        fun stop s' => s' = s ∧ (stop = .failure (.unknownVtable v) ∨ ∃ d ∈ s.catalog.entries, d.vtable = v ∧
          (∃ f, stop = .fault f) ∧ ¬ Heap.Room (d.type.size ::ₘ s.heap.sizes))) ∧
    ∀ (s₀ s₁ s : Allocator) (c : ClassDefinition), s₀.Reachable → c.type.Made → declare c s₀ = .ok () s₁ →
      s₁.Evolves s → ∃ d ∈ s.catalog.entries, d.definition = c ∧ d.vtable = s₀.heap.next ∧
        s₁.catalog.vtableOf? c.type.path = some d.vtable ∧
        ∀ o d', s.classOf o = .ok d' → d'.type.path = c.type.path → d' = d ∧ s.heap.readAddress o = .ok d.vtable := by
  refine ⟨fun s hs => ⟨hs.paths, hs.wellFormed.distinct, fun o d => vtable_of_classOf, hs.sound.allocates_declared⟩, ?_⟩
  intro s₀ s₁ s c h₀ made hd hl
  have h₁ : s₁.Reachable := .declare h₀ made hd
  obtain ⟨hnone, v, k, rfl, -, -, -, hs₁⟩ := (ends_declare h₀.wellFormed.arranged c).of_ok hd
  let d := s₀.catalog.entryFor c s₀.heap.next
  have hentries : s₁.catalog.entries = s₀.catalog.entries ++ [d] := by rw [hs₁]
  have hmem : d ∈ s.catalog.entries :=
    (hl.entries h₁).subset (hentries ▸ List.mem_append_right _ (List.mem_singleton_self d))
  refine ⟨d, hmem, rfl, rfl, ?_, fun o d' hclass hpath => ?_⟩
  · have hfind : s₁.catalog.find? c.type.path = some d := by
      rw [Catalog.find?, hentries, List.find?_append, show s₀.catalog.entries.find? _ = none from hnone]
      exact List.find?_cons_of_pos (p := fun e : Declared => decide (e.type.path = c.type.path)) (decide_eq_true rfl)
    rw [Catalog.vtableOf?, hfind]
    rfl
  · obtain ⟨hmem', hr⟩ := vtable_of_classOf hclass
    have heq : d' = d := List.inj_on_of_nodup_map (hl.reachable h₁).paths hmem' hmem hpath
    exact ⟨heq, heq ▸ hr⟩

/-! ## A forged number -/

namespace Forged
open Numbers

/-- The number of the second class is written into the vtable of the first. -/
def forge (s : Allocator) : Allocator :=
  { s with heap := (s.heap.writeWord start.heap.next 2).toOption.getD s.heap }

theorem evolves_forge {s t : Allocator} (ht : s.Evolves t) (hs : s.Reachable) : s.Evolves (forge t) := by
  unfold forge
  cases hw : t.heap.writeWord start.heap.next 2 with
  | ok h => exact ht.write hs hw
  | error e => exact ht

def second : Allocator := after (declare (definition "m::B" 2)) declared

/-- The first class has an instance by then. -/
def forged : Allocator := forge (after (allocate start.heap.next) second)

theorem evolves_forged (hs : declared.Reachable) : declared.Evolves forged := by
  have hsecond : declare (definition "m::B" 2) declared = .ok () second := eq_after (by decide +kernel)
  have hinstance : allocate start.heap.next second = .ok (.ofNat 0x10000020) _ := eq_after (by decide +kernel)
  exact evolves_forge ((Evolves.declare .refl (made (by decide)) hsecond).allocate hs hinstance) hs

/-- The first class is not known by its vtable any more, and the second is not taken for it. -/
theorem vtables_sound_forged : ∃ d ∈ forged.catalog.entries, d.definition = definition "m::A" 1 ∧
    forged.heap.readAddress (.ofNat 0x10000020) = .ok d.vtable ∧ forged.heap.readWord d.vtable = .ok 2 ∧
      allocate d.vtable forged = .error (.failure (.unknownVtable d.vtable)) forged := by
  have hstart : start.Reachable := .start _ _
  have hdeclared : declared.Reachable := .declare hstart (made (by decide)) declare_start
  have hl := evolves_forged hdeclared
  obtain ⟨d, hmem, hdef, hv, -, -⟩ := vtables_sound.2 start declared forged (definition "m::A" 1) hstart
    (made (by decide)) declare_start hl
  have hends := (vtables_sound.1 forged (hl.reachable hdeclared)).2.2.2 d.vtable
  have hfails : (allocate start.heap.next).fails forged = true := by decide +kernel
  refine ⟨d, hmem, hdef, hv ▸ (by decide +kernel), hv ▸ (by decide +kernel), ?_⟩
  obtain ⟨e, s', hx⟩ := Action.exists_of_fails (hv ▸ hfails)
  simp only [Action.Ends, hx] at hends
  obtain ⟨rfl, heq | ⟨-, -, -, ⟨f, hf⟩, -⟩⟩ := hends
  · rw [hx, heq]
  · cases hf

end Forged

end Allocator
end Introspect
