import Introspect.Proofs.Allocator.Binding
/-!
# Fields hold what was written last

Instances are made and written to in any order, through any accessor, as instances of their class or of an ancestor, and
in between classes are declared and the heap grows elsewhere.  A ledger is kept of it: which instances there are, and
every write to them.  What the ledger says is what the fields hold, because a write to a field meets neither another
field, nor the header, nor another instance, nor a vtable.
-/
namespace Introspect

/-! ## An instance and its contents -/

/-- An instance stands in a block of its own, with its vtable and no monitor, and its fields hold the given bytes. -/
structure Stands (c : Catalog) (h : Heap) (e : Declared) (o : Address) (content : Field → List UInt8) : Prop where
  block : (o.toNat, e.type.size) ∈ h.outline
  known : c.ofVtable h e.vtable = .ok e
  vtable : h.readAddress o = .ok e.vtable
  monitor : h.readAddress (o + Class.monitorOffset) = .ok .null
  fields : ∀ f ∈ e.type.fields, h.read (o + f.offset) f.shape.size = .ok (content f)
  other : ∀ d ∈ c.entries, d.vtable ≠ o

namespace Stands

variable {c : Catalog} {h h' : Heap} {e : Declared} {o : Address} {content content' : Field → List UInt8}

theorem inside (st : Stands c h e o content) : h.Inside o.toNat e.type.size :=
  ⟨_, st.block, Nat.le_refl _, Nat.le_refl _⟩

/-- Where neither the header nor the vtable is written, an instance stands with whatever its fields read as. -/
theorem keep {W : Nat → Prop} (ha : h.Arranged) (hb : e.type.Built) (st : Stands c h e o content)
    (g : Heap.Grows W h h') (hw : ∀ x, Heap.Window o.toNat 16 x → ¬ W x)
    (hv : ∀ x, Heap.Window e.vtable.toNat 8 x → ¬ W x)
    (hf : ∀ f ∈ e.type.fields, h'.read (o + f.offset) f.shape.size = .ok (content' f)) : Stands c h' e o content' := by
  have hsize : 16 ≤ e.type.size := hb.placed.le
  have hlt := ha.inside_lt st.inside
  have h8 : (o + Class.monitorOffset).toNat = o.toNat + 8 :=
    Address.toNat_add_of_lt (by simp only [Class.monitorOffset]; omega)
  refine ⟨g.outline.subset st.block, ?_, ?_, ?_, hf, st.other⟩
  · obtain ⟨number, hr, hrest⟩ := Catalog.ofVtable_ok.1 st.known
    exact Catalog.ofVtable_ok.2 ⟨number, Heap.readWord_of_grows ha g hv hr, hrest⟩
  · exact Heap.readAddress_of_grows ha g (fun x hx => hw x (hx.mono (by omega) (by omega))) st.vtable
  · exact Heap.readAddress_of_grows ha g (fun x hx => hw x (hx.mono (by omega) (by omega))) st.monitor

/-- **What is written elsewhere leaves an instance as it is.** -/
theorem grow {W : Nat → Prop} (ha : h.Arranged) (hb : e.type.Built) (st : Stands c h e o content)
    (g : Heap.Grows W h h') (hw : ∀ x, Heap.Window o.toNat e.type.size x → ¬ W x)
    (hv : ∀ x, Heap.Window e.vtable.toNat 8 x → ¬ W x) : Stands c h' e o content := by
  have hsize : 16 ≤ e.type.size := hb.placed.le
  refine st.keep ha hb g (fun x hx => hw x (hx.mono (by omega) (by omega))) hv fun f hf => ?_
  obtain ⟨hat, h1, h2, hin⟩ := hb.field_inside ha st.inside hf
  rw [g.read_eq ha hin fun x hx => hw x (hx.mono (by omega) (by omega))]
  exact st.fields f hf

/-- **A write to one field changes that field alone.** -/
theorem write {f : Field} {bs : List UInt8} (ha : h.Arranged) (hb : e.type.Built) (st : Stands c h e o content)
    (hf : f ∈ e.type.fields) (g : Heap.Grows (Heap.Window (o.toNat + f.offset) f.shape.size) h h')
    (hr : h'.read (o + f.offset) f.shape.size = .ok bs)
    (hv : ∀ x, Heap.Window e.vtable.toNat 8 x → ¬ Heap.Window o.toNat e.type.size x)
    (hcontent : ∀ k ∈ e.type.fields, content' k = if k = f then bs else content k) : Stands c h' e o content' := by
  obtain ⟨-, h1, h2, -⟩ := hb.field_inside ha st.inside hf
  refine st.keep ha hb g (fun x hx => hx.apart (.inl (by omega)))
    (fun x hx hx' => hv x hx (hx'.mono (by omega) (by omega))) fun k hk => ?_
  rw [hcontent k hk]
  by_cases hkf : k = f
  · rw [if_pos hkf, hkf, hr]
  · obtain ⟨hat, -, -, hin⟩ := hb.field_inside ha st.inside hk
    rw [if_neg hkf, g.read_eq ha hin fun x hx => hx.apart ?_]
    · exact st.fields k hk
    · rcases hb.placed.apart hk hf with h | h | h
      · exact (hkf h).elim
      · exact .inl (by omega)
      · exact .inr (by omega)

theorem declare (st : Stands c h e o content) {d : Declared} (hd : d.vtable ≠ o) :
    Stands ⟨c.entries ++ [d]⟩ h e o content where
  block := st.block
  known := Catalog.ofVtable_append d st.known
  vtable := st.vtable
  monitor := st.monitor
  fields := st.fields
  other d' hd' := by
    rcases List.mem_append.1 hd' with hd' | hd'
    · exact st.other d' hd'
    · exact List.mem_singleton.1 hd' ▸ hd

/-- **A fresh instance stands, and its fields are zero.** -/
theorem fresh (ha : h.Arranged) (hb : e.type.Built) (block : (o.toNat, e.type.size) ∈ h.outline)
    (known : c.ofVtable h e.vtable = .ok e) (vtable : h.readAddress o = .ok e.vtable)
    (monitor : h.readAddress (o + Class.monitorOffset) = .ok .null)
    (zero : ∀ x, Heap.Window (o.toNat + 8) (e.type.size - 8) x → h.byteAt x = 0)
    (other : ∀ d ∈ c.entries, d.vtable ≠ o) : Stands c h e o fun f => List.replicate f.shape.size 0 := by
  refine ⟨block, known, vtable, monitor, fun f hf => ?_, other⟩
  have hin : h.Inside o.toNat e.type.size := ⟨_, block, Nat.le_refl _, Nat.le_refl _⟩
  obtain ⟨hat, h1, h2, hinf⟩ := hb.field_inside ha hin hf
  rw [Heap.read_inside ha hinf, Heap.bytesAt_zero fun x hx => zero x (hx.mono (by omega) (by omega))]

end Stands

namespace Allocator

/-! ## The ledger -/

structure Written where
  object : Address
  field : String
  bytes : List UInt8

/-- The instances with their classes and the writes to their fields, the newest first. -/
structure Ledger where
  instances : List (Declared × Address) := []
  writes : List Written := []

namespace Ledger

variable {t : Ledger} {o : Address} {f : Field}

/-- What was written last to a field of an instance, or zeros if nothing was. -/
def last (t : Ledger) (o : Address) (f : Field) : List UInt8 :=
  ((t.writes.find? fun w => w.object = o ∧ w.field = f.name).map Written.bytes).getD (List.replicate f.shape.size 0)

theorem last_write (t : Ledger) (w : Written) (o : Address) (f : Field) :
    last { t with writes := w :: t.writes } o f =
      if w.object = o ∧ w.field = f.name then w.bytes else t.last o f := by
  unfold last
  rw [List.find?_cons]
  by_cases h : w.object = o ∧ w.field = f.name <;> simp [h]

theorem last_of_new (h : ∀ w ∈ t.writes, w.object ≠ o) : t.last o f = List.replicate f.shape.size 0 := by
  have hnone : (t.writes.find? fun w => w.object = o ∧ w.field = f.name) = none :=
    List.find?_eq_none.2 fun w hw => by simp [h w hw]
  rw [last, hnone]
  rfl

end Ledger

/-- A state that was reached from any other by making and writing instances, and the ledger of that.  What else happens
in between may write anywhere but into these instances and the numbers of the vtables. -/
inductive Records : Allocator → Ledger → Prop where
  | start {s : Allocator} (hs : s.Reachable) : Records s {}
  | declare {s s' : Allocator} {t : Ledger} {d : ClassDefinition} (k : Records s t) (made : d.type.Made)
    (done : declare d s = .ok () s') : Records s' t
  | allocate {s s' : Allocator} {t : Ledger} {v o : Address} {e : Declared} (k : Records s t)
    (known : s.ofVtable v = .ok e) (done : allocate v s = .ok o s') :
    Records s' { t with instances := (e, o) :: t.instances }
  | write {s s' : Allocator} {t : Ledger} {e : Declared} {o : Address} {c : Class} {name : String} (k : Records s t)
    (mem : (e, o) ∈ t.instances) (seen : e.type.Extends c) (w : FieldWrite)
    (done : onHeap (w.run ⟨c, o⟩ name) s = .ok () s') :
    Records s' { t with writes := ⟨o, name, w.bytes⟩ :: t.writes }
  | elsewhere {s : Allocator} {t : Ledger} {W : Nat → Prop} {h : Heap} (k : Records s t) (g : Heap.Grows W s.heap h)
    (instances : ∀ p ∈ t.instances, ∀ x, Heap.Window p.2.toNat p.1.type.size x → ¬ W x)
    (vtables : ∀ d ∈ s.catalog.entries, ∀ x, Heap.Window d.vtable.toNat 8 x → ¬ W x) (r : Registry) :
    Records { s with heap := h, registry := r } t

/-! ## The invariant -/

/-- The fields hold what the ledger says. -/
structure Tallies (s : Allocator) (t : Ledger) : Prop where
  wellFormed : s.WellFormed
  stands : ∀ p ∈ t.instances, Stands s.catalog s.heap p.1 p.2 (t.last p.2)
  distinct : (t.instances.map Prod.snd).Nodup
  known : ∀ w ∈ t.writes, ∃ p ∈ t.instances, p.2 = w.object

namespace Tallies

variable {s s' : Allocator} {t : Ledger}

theorem declared (ta : s.Tallies t) {p : Declared × Address} (hp : p ∈ t.instances) : p.1 ∈ s.catalog.entries :=
  (Catalog.mem_of_ofVtable (ta.stands p hp).known).1

theorem built (ta : s.Tallies t) {p : Declared × Address} (hp : p ∈ t.instances) : p.1.type.Built :=
  ta.wellFormed.sound.built p.1 (ta.declared hp)

theorem lt_next (ta : s.Tallies t) {p : Declared × Address} (hp : p ∈ t.instances) :
    p.2.toNat + 16 ≤ s.heap.next.toNat := by
  have h1 := (ta.wellFormed.arranged.bounds (ta.stands p hp).block).2.1
  have h2 := Heap.one_le_span p.1.type.size
  simp only at h1
  omega

/-- A vtable is in no instance. -/
theorem vtable_apart (ta : s.Tallies t) {p : Declared × Address} (hp : p ∈ t.instances) {d : Declared}
    (hd : d ∈ s.catalog.entries) (x : Nat) (hx : Heap.Window d.vtable.toNat 8 x) :
    ¬ Heap.Window p.2.toNat p.1.type.size x :=
  ta.wellFormed.arranged.window_apart (ta.wellFormed.vtables d hd) (ta.stands p hp).block
    (fun h => (ta.stands p hp).other d hd (Address.ext h)) x
    (hx.mono (Nat.le_refl _) (Nat.add_le_add_left (show 8 ≤ Catalog.vtableSize by decide) _))

theorem grow (ta : s.Tallies t) {W : Nat → Prop} {h : Heap} (g : Heap.Grows W s.heap h)
    (hw : ∀ p ∈ t.instances, ∀ x, Heap.Window p.2.toNat p.1.type.size x → ¬ W x)
    (hv : ∀ d ∈ s.catalog.entries, ∀ x, Heap.Window d.vtable.toNat 8 x → ¬ W x) (r : Registry) :
    Tallies { s with heap := h, registry := r } t where
  wellFormed := ⟨g.arranged, ta.wellFormed.made, (ta.wellFormed.grow g).vtables, ta.wellFormed.distinct⟩
  stands p hp := (ta.stands p hp).grow ta.wellFormed.arranged (ta.built hp) g (hw p hp) (hv p.1 (ta.declared hp))
  distinct := ta.distinct
  known := ta.known

theorem declare (ta : s.Tallies t) {d : ClassDefinition} (made : d.type.Made)
    (done : Allocator.declare d s = .ok () s') : s'.Tallies t := by
  have hw := ta.wellFormed.declare made done
  obtain ⟨-, v, h, rfl, g, -, -, rfl⟩ := (ends_declare ta.wellFormed.arranged d).of_ok done
  refine ⟨hw, fun p hp => ?_, ta.distinct, ta.known⟩
  have st := (ta.stands p hp).grow ta.wellFormed.arranged (ta.built hp) g (fun _ _ h => h) fun _ _ h => h
  refine st.declare fun hv => ?_
  -- the new vtable starts where the heap ended
  have h1 := ta.lt_next hp
  have h2 : s.heap.next.toNat = p.2.toNat := congrArg Address.toNat hv
  omega

theorem allocate (ta : s.Tallies t) {v o : Address} {e : Declared} (known : s.ofVtable v = .ok e)
    (done : Allocator.allocate v s = .ok o s') : s'.Tallies { t with instances := (e, o) :: t.instances } := by
  have ha := ta.wellFormed.arranged
  obtain ⟨he, rfl⟩ := Catalog.mem_of_ofVtable known
  have hb := ta.wellFormed.sound.built e he
  obtain ⟨h, rfl, rfl, g, ho, hvtable, hmonitor, hzero⟩ := (ta.wellFormed.sound.ends_allocate known).of_ok done
  have hnew : ∀ w ∈ t.writes, w.object ≠ s.heap.next := fun w hw heq => by
    obtain ⟨p, hp, hpw⟩ := ta.known w hw
    have := ta.lt_next hp
    rw [hpw, heq] at this
    omega
  have hother : ∀ d ∈ s.catalog.entries, d.vtable ≠ s.heap.next := fun d hd hv => by
    have h1 := (ha.bounds (ta.wellFormed.vtables d hd)).2.1
    have h2 := Heap.one_le_span Catalog.vtableSize
    rw [hv] at h1
    simp only at h1
    omega
  have hfresh := Stands.fresh (o := s.heap.next) g.arranged hb (ho ▸ List.mem_cons_self)
    (Catalog.ofVtable_grown ha g known) hvtable hmonitor hzero hother
  refine ⟨ta.wellFormed.grow g, fun p hp => ?_, List.nodup_cons.2 ⟨fun hmem => ?_, ta.distinct⟩, fun w hw => ?_⟩
  · rcases List.mem_cons.1 hp with rfl | hp
    · have hlast : Ledger.last { t with instances := (e, s.heap.next) :: t.instances } s.heap.next =
          fun f => List.replicate f.shape.size 0 := funext fun f => Ledger.last_of_new hnew
      exact hlast ▸ hfresh
    · exact (ta.stands p hp).grow ha (ta.built hp) g (fun _ _ h => h) fun _ _ h => h
  · obtain ⟨p, hp, hpo⟩ := List.mem_map.1 hmem
    have := ta.lt_next hp
    simp only [hpo] at this
    omega
  · obtain ⟨p, hp, hpw⟩ := ta.known w hw
    exact ⟨p, List.mem_cons_of_mem _ hp, hpw⟩

/-- What a write to a tracked instance does: it is done if it fits, and then the ledger has one more entry. -/
theorem ends_write (ta : s.Tallies t) {e : Declared} {o : Address} {c : Class} {name : String}
    (mem : (e, o) ∈ t.instances) (seen : e.type.Extends c) (w : FieldWrite) :
    (onHeap (w.run ⟨c, o⟩ name)).Ends s
      (fun _ s' => w.Fits c name ∧ s'.Tallies { t with writes := ⟨o, name, w.bytes⟩ :: t.writes })
      fun stop s' => s' = s ∧ ¬ w.Fits c name ∧ stop = .failure (w.refusal ⟨c, o⟩ name) := by
  have ha := ta.wellFormed.arranged
  have st : Stands s.catalog s.heap e o (t.last o) := ta.stands _ mem
  have hb : e.type.Built := ta.built mem
  rw [onHeap, Action.ends_on]
  refine (FieldWrite.run_spec (o := ⟨c, o⟩) ha hb st.inside seen).mono (fun _ h hrun => ?_) fun _ h hrun => ?_
  · obtain ⟨f, hf, rfl, hfits, g, -, hr⟩ := hrun
    obtain ⟨-, h1, h2, -⟩ := hb.field_inside ha st.inside hf
    have hown : ∀ {x}, Heap.Window (o.toNat + f.offset) f.shape.size x → Heap.Window o.toNat e.type.size x :=
      fun hx => hx.mono (by omega) (by omega)
    refine ⟨hfits, ta.wellFormed.grow g, fun p hp => ?_, ta.distinct, fun w hw => ?_⟩
    · by_cases hpo : p.2 = o
      · -- the instance itself, since no two have one address
        obtain rfl : p = (e, o) := List.inj_on_of_nodup_map ta.distinct hp mem hpo
        refine st.write ha hb hf g hr (fun x => ta.vtable_apart mem (ta.declared mem) x) fun k hk => ?_
        rw [Ledger.last_write]
        by_cases hkf : k = f
        · rw [if_pos ⟨rfl, hkf ▸ rfl⟩, if_pos hkf]
        · rw [if_neg fun h => hkf ((ta.wellFormed.made e (ta.declared mem)).field_eq hk hf h.2.symm), if_neg hkf]
      · have hlast : Ledger.last { t with writes := ⟨o, f.name, w.bytes⟩ :: t.writes } p.2 = t.last p.2 :=
          funext fun k => by rw [Ledger.last_write, if_neg fun h => hpo h.1.symm]
        rw [hlast]
        refine (ta.stands p hp).grow ha (ta.built hp) g (fun x hx hx' => ?_) fun x hx hx' =>
          ta.vtable_apart mem (ta.declared hp) x hx (hown hx')
        exact ha.window_apart (ta.stands p hp).block st.block (fun h => hpo (Address.ext h)) x hx (hown hx')
    · rcases List.mem_cons.1 hw with rfl | hw
      · exact ⟨_, mem, rfl⟩
      · exact ta.known w hw
  · obtain ⟨rfl, hfits, hstop⟩ := hrun
    exact ⟨rfl, hfits, hstop⟩

end Tallies

variable {s : Allocator} {t : Ledger}

theorem Records.tallies (k : Records s t) : s.Tallies t := by
  induction k with
  | start hs => exact ⟨hs.wellFormed, fun _ h => (List.not_mem_nil h).elim, .nil, fun _ h => (List.not_mem_nil h).elim⟩
  | declare _ made done ih => exact ih.declare made done
  | allocate _ known done ih => exact ih.allocate known done
  | write _ mem seen w done ih => exact ((ih.ends_write mem seen w).of_ok done).2
  | elsewhere _ g instances vtables r ih => exact ih.grow g instances vtables r

/-- **Instances are isolated stores of typed fields.**  Whatever was made and written, no two instances have one
address; each field of each of them reads as what was written to it last, zero if nothing was; the vtable is the one of
the class and the monitor is null; and every write to a field that the class has, with the shape or the length that the
accessor asks for, is done, while any other is refused by the class and changes nothing. -/
theorem fields_hold_last (k : Records s t) :
    (t.instances.map Prod.snd).Nodup ∧ ∀ e o, (e, o) ∈ t.instances →
      (∀ f ∈ e.type.fields, Instance.readBytes ⟨e.type, o⟩ s.heap f.name = .ok (t.last o f)) ∧
      Instance.vtable ⟨e.type, o⟩ s.heap = .ok e.vtable ∧ Instance.monitor ⟨e.type, o⟩ s.heap = .ok .null ∧
      s.classOf o = .ok e ∧
      ∀ c, e.type.Extends c → ∀ (w : FieldWrite) name,
        (w.Fits c name → ∃ s', onHeap (w.run ⟨c, o⟩ name) s = .ok () s') ∧
        (¬ w.Fits c name →
          onHeap (w.run ⟨c, o⟩ name) s = .error (.failure (w.refusal ⟨c, o⟩ name)) s) := by
  have ta := k.tallies
  refine ⟨ta.distinct, fun e o mem => ?_⟩
  have st := ta.stands _ mem
  have hmade := ta.wellFormed.made e (ta.declared mem)
  refine ⟨fun f hf => ?_, ?_, st.monitor, classOf_ok.2 ⟨_, st.vtable, st.known⟩, fun c seen w name => ?_⟩
  · unfold Instance.readBytes Instance.field
    rw [hmade.field?_of_mem hf]
    exact st.fields f hf
  · rw [Instance.vtable, Class.vtableOffset, Address.add_zero]
    exact st.vtable
  · have hends : (onHeap (w.run ⟨c, o⟩ name)).Ends s _ _ := ta.ends_write mem seen w
    unfold Action.Ends at hends
    cases hrun : onHeap (w.run ⟨c, o⟩ name) s with
    | ok u s' =>
      rw [hrun] at hends
      exact ⟨fun _ => ⟨s', rfl⟩, fun hn => absurd hends.1 hn⟩
    | error stop s' =>
      rw [hrun] at hends
      obtain ⟨rfl, hfits, rfl⟩ := hends
      exact ⟨fun h => absurd h hfits, fun _ => rfl⟩

end Allocator

/-! ## Two instances of a derived class -/

namespace Linked

/-- A number, which is inherited, and a reference. -/
def type : Class := ⟨⟨"m::B", [⟨"next", 24, .object⟩], 32⟩, [(Numbers.type "m::A").own]⟩

def vtable : Address := .ofNat 0x10000010
def first : Address := .ofNat 0x10000020
def second : Address := .ofNat 0x10000040

def declared : Allocator := Allocator.after (Allocator.declare ⟨type, none⟩) Numbers.declared

def one : Allocator := Allocator.after (Allocator.allocate vtable) declared

def both : Allocator := Allocator.after (Allocator.allocate vtable) one

/-- The number of the first is written through its ancestor, then the reference of the second, and then the number
again. -/
def written : Allocator :=
  Allocator.after (Allocator.onHeap ((FieldWrite.int 9).run ⟨type, first⟩ "x"))
    (Allocator.after (Allocator.onHeap ((FieldWrite.object (some first)).run ⟨type, second⟩ "next"))
      (Allocator.after (Allocator.onHeap ((FieldWrite.int 7).run ⟨Numbers.type "m::A", first⟩ "x")) both))

theorem type_made : type.Made := by
  have hfields : ∀ f ∈ [("next", Shape.object)], f.2.Made := fun f hf => by
    obtain rfl := List.mem_singleton.1 hf
    exact .object
  have hbuild : Class.build "m::B" (some (Numbers.type "m::A")) [("next", .object)] = .ok type := by rfl
  exact .derived (Numbers.made (by decide)) hfields hbuild

end Linked

namespace Allocator
open Linked

theorem fields_hold_last_interleaved : ∃ t e e', Records written t ∧ t.instances = [(e', second), (e, first)] ∧
    Instance.readBytes ⟨type, first⟩ written.heap "x" = .ok [9, 0, 0, 0, 0, 0, 0, 0] ∧
    Instance.readBytes ⟨type, second⟩ written.heap "x" = .ok [0, 0, 0, 0, 0, 0, 0, 0] ∧
    Instance.readBytes ⟨type, second⟩ written.heap "next" = .ok [0x20, 0, 0, 0x10, 0, 0, 0, 0] := by
  have hdeclared : Records Linked.declared {} :=
    .declare (.start (.declare (.start _ _) (Numbers.made (by decide)) Numbers.declare_start)) type_made
      (eq_after (by decide +kernel))
  obtain ⟨e, he, hetype⟩ := exists_ofVtable (s := Linked.declared) (v := vtable) (c := type) (by decide +kernel)
  have hone := Records.allocate hdeclared he (eq_after (a := first) (by decide +kernel))
  obtain ⟨e', he', hetype'⟩ := exists_ofVtable (s := one) (v := vtable) (c := type) (by decide +kernel)
  have hmade := Records.allocate hone he' (eq_after (a := second) (by decide +kernel))
  have hbase : e.type.Extends (Numbers.type "m::A") := hetype ▸ by decide
  have hsame : e.type.Extends type := hetype ▸ .refl type
  have hsame' : e'.type.Extends type := hetype' ▸ .refl type
  have hmem := List.mem_cons_of_mem (e', second) (List.mem_cons_self (a := (e, first)) (l := []))
  have h1 := @Records.write _ _ _ _ _ _ "x" hmade hmem hbase (.int 7) (eq_after (by decide +kernel))
  have h2 := @Records.write _ _ _ _ _ _ "next" h1 List.mem_cons_self hsame' (.object (some first))
    (eq_after (by decide +kernel))
  have h3 := @Records.write _ _ _ _ _ _ "x" h2 hmem hsame (.int 9) (eq_after (by decide +kernel))
  obtain ⟨-, hfields⟩ := fields_hold_last h3
  have hread := (hfields e first hmem).1
  have hread' := (hfields e' second List.mem_cons_self).1
  rw [hetype] at hread
  rw [hetype'] at hread'
  exact ⟨_, e, e', h3, rfl, hread ⟨"x", 16, .int64⟩ (by decide), hread' ⟨"x", 16, .int64⟩ (by decide),
    hread' ⟨"next", 24, .object⟩ (by decide)⟩

end Allocator
end Introspect
