import Introspect.Layout.Class
import Mathlib.Algebra.Group.Nat.Defs
/-!
# Fields stand one behind the other

`Placed lo fields hi` says that the fields follow each other from `lo` on and end before `hi`.  What the builders return
is placed, at every depth: `Made` is what can be built at all, `Built` is what is known of it.
-/
namespace Introspect

/-! ## Shapes by induction -/

/-- Induction over a shape and the fields of the aggregates in it. -/
@[elab_as_elim]
theorem Shape.induction {P : Shape → Prop} (scalar : ∀ n, P (.scalar n)) (handle : ∀ n, P (.handle n))
    (object : P .object) (slice : ∀ e, P e → P (.slice e))
    (aggregate : ∀ l : Aggregate, (∀ f ∈ l.fields, P f.shape) → P (.aggregate l)) (shape : Shape) : P shape :=
  @Shape.rec P (fun l => ∀ f ∈ l.fields, P f.shape) (fun fs => ∀ f ∈ fs.toList, P f.shape) scalar handle object slice
    aggregate (fun _ _ _ _ h => h) (fun _ h => (List.not_mem_nil h).elim)
    (fun _ _ _ _ hs hr f hf => by
      rcases List.mem_cons.1 hf with rfl | hf
      · exact hs
      · exact hr f hf)
    shape

/-! ## Fields in a row -/

def Placed : Nat → List Field → Nat → Prop
  | lo, [], hi => lo ≤ hi
  | lo, f :: fs, hi => lo ≤ f.offset ∧ Placed (f.offset + f.shape.size) fs hi

namespace Placed

theorem le : ∀ {fs : List Field} {lo hi : Nat}, Placed lo fs hi → lo ≤ hi
  | [], _, _, h => h
  | f :: fs, lo, hi, h => by
    have := Placed.le h.2
    have := h.1
    omega

theorem mono : ∀ {fs : List Field} {lo hi hi' : Nat}, Placed lo fs hi → hi ≤ hi' → Placed lo fs hi'
  | [], _, _, _, h, hle => Nat.le_trans h hle
  | _ :: _, _, _, _, h, hle => ⟨h.1, h.2.mono hle⟩

theorem lower : ∀ {fs : List Field} {lo lo' hi : Nat}, lo' ≤ lo → Placed lo fs hi → Placed lo' fs hi
  | [], _, _, _, hle, h => Nat.le_trans hle h
  | _ :: _, _, _, _, hle, h => ⟨Nat.le_trans hle h.1, h.2⟩

theorem append : ∀ {fs gs : List Field} {lo mid hi : Nat}, Placed lo fs mid → Placed mid gs hi → Placed lo (fs ++ gs) hi
  | [], [], _, _, _, h, h' => Nat.le_trans h h'
  | [], _ :: _, _, _, _, h, h' => ⟨Nat.le_trans h h'.1, h'.2⟩
  | _ :: _, _, _, _, _, h, h' => ⟨h.1, h.2.append h'⟩

/-- **Every field lies between the ends.** -/
theorem bounds {f : Field} : ∀ {fs : List Field} {lo hi : Nat}, Placed lo fs hi → f ∈ fs →
    lo ≤ f.offset ∧ f.offset + f.shape.size ≤ hi
  | g :: fs, lo, hi, h, hf => by
    rcases List.mem_cons.1 hf with rfl | hf
    · exact ⟨h.1, h.2.le⟩
    · obtain ⟨h1, h2⟩ := h.2.bounds hf
      have := h.1
      exact ⟨by omega, h2⟩

/-- **No two fields overlap.** -/
theorem pairwise : ∀ {fs : List Field} {lo hi : Nat}, Placed lo fs hi →
    fs.Pairwise fun f g => f.offset + f.shape.size ≤ g.offset
  | [], _, _, _ => .nil
  | _ :: _, _, _, h => List.pairwise_cons.2 ⟨fun _ hg => (h.2.bounds hg).1, h.2.pairwise⟩

theorem apart {f g : Field} : ∀ {fs : List Field} {lo hi : Nat}, Placed lo fs hi → f ∈ fs → g ∈ fs →
    f = g ∨ f.offset + f.shape.size ≤ g.offset ∨ g.offset + g.shape.size ≤ f.offset
  | _ :: _, _, _, h, hf, hg => by
    rcases List.mem_cons.1 hf with rfl | hf' <;> rcases List.mem_cons.1 hg with rfl | hg'
    · exact .inl rfl
    · exact .inr (.inl (h.2.bounds hg').1)
    · exact .inr (.inr (h.2.bounds hf').1)
    · exact h.2.apart hf' hg'

end Placed

/-! ## What has been built -/

inductive Shape.Built : Shape → Prop where
  | scalar (size : Nat) : Built (.scalar size)
  | handle (size : Nat) : Built (.handle size)
  | object : Built .object
  | slice {element : Shape} (built : Built element) : Built (.slice element)
  | aggregate {layout : Aggregate} (placed : Placed 0 layout.fields layout.size) (size : layout.size < 2 ^ 64)
    (align : 0 < layout.align) (built : ∀ f ∈ layout.fields, Built f.shape) : Built (.aggregate layout)

/-- The shapes that can be put together: every aggregate in them was laid out by `Aggregate.build`. -/
inductive Shape.Made : Shape → Prop where
  | scalar (size : Nat) : Made (.scalar size)
  | handle (size : Nat) : Made (.handle size)
  | object : Made .object
  | slice {element : Shape} (made : Made element) : Made (.slice element)
  | aggregate {name : String} {fields : List (String × Shape)} {layout : Aggregate}
    (made : ∀ f ∈ fields, Made f.2) (built : Aggregate.build name fields = .ok layout) : Made (.aggregate layout)

def Class.fields (c : Class) : List Field := c.ancestry.flatMap Level.fields

structure Class.Built (c : Class) : Prop where
  placed : Placed headerSize c.fields c.size
  size : c.size < 2 ^ 64
  built : ∀ f ∈ c.fields, f.shape.Built

inductive Class.Made : Class → Prop where
  | root {path : String} {fields : List (String × Shape)} {c : Class} (made : ∀ f ∈ fields, f.2.Made)
    (built : Class.build path none fields = .ok c) : Made c
  | derived {path : String} {parent : Class} {fields : List (String × Shape)} {c : Class} (parentMade : Made parent)
    (made : ∀ f ∈ fields, f.2.Made) (built : Class.build path (some parent) fields = .ok c) : Made c

/-! ## Placing keeps the row -/

theorem le_of_alignTo {offset align r : Nat} (ha : 0 < align) (h : alignTo offset align = .ok r) :
    offset ≤ r ∧ r < 2 ^ 64 := by
  simp only [alignTo] at h
  split at h
  · rename_i hlt
    obtain rfl := Except.ok.inj h
    refine ⟨?_, hlt⟩
    have h1 := Nat.div_add_mod (offset + align - 1) align
    have h2 := Nat.mod_lt (offset + align - 1) ha
    rw [Nat.mul_comm] at h1
    omega
  · cases h

theorem liftFault_ok {ε α : Type} {x : Except Fault α} {a : α} (h : (liftFault x : Except (Stop ε) α) = .ok a) :
    x = .ok a := by
  cases x with
  | ok b => exact congrArg _ (Except.ok.inj h)
  | error e => cases h

theorem Shape.Built.align_pos {shape : Shape} {n : Nat} (hb : shape.Built) (h : shape.align = .ok n) : 0 < n := by
  have hof : ∀ size, 0 < Shape.alignOf size := fun size => by
    unfold Shape.alignOf
    split
    · decide
    split
    · decide
    split <;> decide
  cases hb with
  | scalar size =>
    simp only [Shape.align] at h
    split at h
    · cases h
    · exact Except.ok.inj h ▸ hof size
  | handle size =>
    simp only [Shape.align] at h
    split at h
    · cases h
    · exact Except.ok.inj h ▸ hof size
  | object => exact Except.ok.inj h ▸ (by decide)
  | slice _ => exact Except.ok.inj h ▸ (by decide)
  | aggregate _ _ ha _ => exact Except.ok.inj h ▸ ha

/-- Placing a field and then others, where it succeeds: the name is not taken, the field starts at the next offset that
its alignment allows, and the others follow it. -/
theorem placeFields_cons {owner name : String} {shape : Shape} {rest : List (String × Shape)} {offset align : Nat}
    {taken : List String} {p : Placement} (h : placeFields owner offset align taken ((name, shape) :: rest) = .ok p) :
    name ∉ taken ∧ ∃ own start q, shape.align = .ok own ∧ alignTo offset own = .ok start ∧
      placeFields owner (start + shape.size) (max align own) (name :: taken) rest = .ok q ∧
      p = { q with fields := ⟨name, start, shape⟩ :: q.fields } := by
  simp only [placeFields] at h
  split at h
  · cases h
  rename_i htaken
  cases ha : (liftFault shape.align : Except (Stop Error) Nat) with
  | error e => rw [ha] at h; cases h
  | ok own =>
  cases hs : (liftFault (alignTo offset own) : Except (Stop Error) Nat) with
  | error e => simp only [ha, hs, bind, Except.bind] at h; cases h
  | ok start =>
  simp only [ha, hs, bind, Except.bind] at h
  split at h
  · cases h
  cases hp : placeFields owner (start + shape.size) (max align own) (name :: taken) rest with
  | error e => rw [hp] at h; cases h
  | ok q =>
  rw [hp] at h
  exact ⟨by simpa using htaken, own, start, q, liftFault_ok ha, liftFault_ok hs, hp, (Except.ok.inj h).symm⟩

/-- **What has been placed stands in a row** from the first offset to the last. -/
theorem placed_of_placeFields {owner : String} : ∀ {fields : List (String × Shape)} {offset align : Nat}
    {taken : List String} {p : Placement}, (∀ f ∈ fields, f.2.Built) →
    placeFields owner offset align taken fields = .ok p →
    Placed offset p.fields p.stop ∧ align ≤ p.align ∧ ∀ f ∈ p.fields, f.shape.Built
  | [], offset, align, taken, p, _, h => by
    obtain rfl := Except.ok.inj h
    exact ⟨Nat.le_refl _, Nat.le_refl _, fun f hf => (List.not_mem_nil hf).elim⟩
  | (name, shape) :: rest, offset, align, taken, p, hb, h => by
    have hshape := hb _ List.mem_cons_self
    obtain ⟨-, own, start, q, ha, hs, hp, rfl⟩ := placeFields_cons h
    obtain ⟨h1, h2, h3⟩ := placed_of_placeFields (fun f hf => hb f (List.mem_cons_of_mem _ hf)) hp
    have hstart := (le_of_alignTo (hshape.align_pos ha) hs).1
    refine ⟨⟨hstart, h1⟩, by simp only; omega, fun f hf => ?_⟩
    rcases List.mem_cons.1 hf with rfl | hf
    · exact hshape
    · exact h3 f hf

theorem Aggregate.fields_mk (name : String) (fs : List Field) (size align : Nat) :
    (Aggregate.mk name (Fields.ofList fs) size align).fields = fs := Fields.toList_ofList fs

/-- What an aggregate is built from: its fields, placed from its start. -/
theorem Aggregate.build_ok {name : String} {fields : List (String × Shape)} {layout : Aggregate}
    (h : Aggregate.build name fields = .ok layout) :
    ∃ p size, placeFields name 0 1 [] fields = .ok p ∧ alignTo p.stop p.align = .ok size ∧
      layout = .mk name (Fields.ofList p.fields) size p.align := by
  unfold Aggregate.build at h
  split at h
  · cases h
  cases hp : placeFields name 0 1 [] fields with
  | error e => rw [hp] at h; cases h
  | ok p =>
  cases hs : (liftFault (alignTo p.stop p.align) : Except (Stop Error) Nat) with
  | error e => simp only [hp, hs, bind, Except.bind] at h; cases h
  | ok size =>
  simp only [hp, hs, bind, Except.bind] at h
  exact ⟨p, size, rfl, liftFault_ok hs, (Except.ok.inj h).symm⟩

/-- **Every shape that can be made is built right**, at every depth. -/
theorem Shape.Made.built {shape : Shape} (hm : shape.Made) : shape.Built := by
  induction hm with
  | scalar size => exact .scalar size
  | handle size => exact .handle size
  | object => exact .object
  | slice _ ih => exact .slice ih
  | @aggregate name fields layout _ hb ih =>
    obtain ⟨p, size, hp, hs, rfl⟩ := Aggregate.build_ok hb
    obtain ⟨h1, h2, h3⟩ := placed_of_placeFields ih hp
    obtain ⟨h4, h5⟩ := le_of_alignTo (by omega) hs
    refine .aggregate ?_ h5 (by simp only [Aggregate.align]; omega) ?_
    · rw [Aggregate.fields_mk]
      exact h1.mono h4
    · rw [Aggregate.fields_mk]
      exact h3

theorem Class.fields_cons (own : Level) (ancestors : List Level) :
    Class.fields ⟨own, ancestors⟩ = ancestors.reverse.flatMap Level.fields ++ own.fields := by
  simp [Class.fields, Class.ancestry]

/-- What a class is built from: its own fields, placed where the parent ends, and the levels of the parent. -/
theorem Class.build_ok {path : String} {parent : Option Class} {fields : List (String × Shape)} {c : Class}
    (h : Class.build path parent fields = .ok c) :
    ∃ p stop, placeFields path ((parent.map size).getD headerSize) 1 ((parent.map fieldNames).getD []) fields = .ok p ∧
      alignTo p.stop Shape.pointerSize = .ok stop ∧
      c = ⟨⟨path, p.fields, stop⟩, (parent.map fun c => c.own :: c.ancestors).getD []⟩ := by
  unfold Class.build at h
  split at h
  · cases h
  cases hf : placeFields path ((parent.map size).getD headerSize) 1 ((parent.map fieldNames).getD []) fields with
  | error e => simp only [hf, bind, Except.bind] at h; cases h
  | ok p =>
  cases hs : (liftFault (alignTo p.stop Shape.pointerSize) : Except (Stop Error) Nat) with
  | error e => simp only [hf, hs, bind, Except.bind] at h; cases h
  | ok size =>
  simp only [hf, hs, bind, Except.bind] at h
  exact ⟨p, size, rfl, liftFault_ok hs, (Except.ok.inj h).symm⟩

theorem Class.built_of_build {path : String} {parent : Option Class} {fields : List (String × Shape)} {c : Class}
    (hm : ∀ f ∈ fields, f.2.Made) (hp : ∀ p ∈ parent, p.Built) (h : Class.build path parent fields = .ok c) :
    c.Built := by
  obtain ⟨p, size, hf, hs, rfl⟩ := Class.build_ok h
  obtain ⟨h1, -, h3⟩ := placed_of_placeFields (fun f hf => (hm f hf).built) hf
  obtain ⟨h4, h5⟩ := le_of_alignTo (by decide) hs
  cases parent with
  | none =>
    refine ⟨?_, h5, ?_⟩ <;> rw [Class.fields_cons]
    · exact h1.mono h4
    · simpa using h3
  | some q =>
    -- the parent's fields come first, and the own ones start where the parent ends
    obtain ⟨hq1, -, hq3⟩ := hp q rfl
    have hq : q.fields = (q.own :: q.ancestors).reverse.flatMap Level.fields := rfl
    refine ⟨?_, h5, ?_⟩ <;> rw [Class.fields_cons]
    · exact Placed.append (hq ▸ hq1) (h1.mono h4)
    · intro f hf
      rcases List.mem_append.1 hf with hf | hf
      · exact hq3 f (hq ▸ hf)
      · exact h3 f hf

/-- **Every class that can be made is built right**, its inherited fields included. -/
theorem Class.Made.built {c : Class} (hm : c.Made) : c.Built := by
  induction hm with
  | root made built => exact Class.built_of_build made (by simp) built
  | derived _ made built ih => exact Class.built_of_build made (fun _ h => Option.some.inj h ▸ ih) built

/-! ## Finding a field -/

theorem Class.mem_of_field? {c : Class} {name : String} {f : Field} (h : c.field? name = some f) : f ∈ c.fields := by
  obtain ⟨l, hl, hf⟩ := List.exists_of_findSome?_eq_some h
  exact List.mem_flatMap.2 ⟨l, List.mem_reverse.2 hl, List.mem_of_find?_eq_some hf⟩

theorem Class.name_of_field? {c : Class} {name : String} {f : Field} (h : c.field? name = some f) : f.name = name := by
  obtain ⟨l, -, hf⟩ := List.exists_of_findSome?_eq_some h
  simpa using List.find?_some hf

end Introspect
