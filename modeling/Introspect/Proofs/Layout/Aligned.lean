import Introspect.Proofs.Layout.Distinct
/-!
# Everything stands where its alignment allows

There are four alignments, and of two of them the lesser divides the greater.  So what is aligned for an aggregate is
aligned for each of its fields, and an aggregate can be opened where it stands: the parts that are no aggregates
themselves (`leaves`) stand in a row between the ends of the aggregate, each where its own alignment allows.  By
induction this holds at every depth, and an inheritance chain is a longer row.
-/
namespace Introspect

/-! ## Alignments -/

def Shape.alignments : List Nat := [1, 2, 4, 8]

theorem Shape.dvd_of_le : ∀ {a b : Nat}, a ∈ alignments → b ∈ alignments → a ≤ b → a ∣ b := by
  unfold alignments
  intro a b ha hb hle
  simp only [List.mem_cons, List.not_mem_nil, or_false] at ha hb
  rcases ha with rfl | rfl | rfl | rfl <;> rcases hb with rfl | rfl | rfl | rfl <;> omega

theorem Shape.max_mem {a b : Nat} (ha : a ∈ alignments) (hb : b ∈ alignments) : max a b ∈ alignments := by
  rcases Nat.le_total a b with h | h
  · exact (Nat.max_eq_right h).symm ▸ hb
  · exact (Nat.max_eq_left h).symm ▸ ha

theorem Shape.pos_of_mem {a : Nat} (ha : a ∈ alignments) : 0 < a :=
  (by decide : ∀ a ∈ alignments, 0 < a) a ha

theorem Shape.alignOf_mem (n : Nat) : alignOf n ∈ alignments := by
  unfold alignOf
  split
  · decide
  split
  · decide
  split <;> decide

theorem dvd_of_alignTo {offset align r : Nat} (h : alignTo offset align = .ok r) : align ∣ r := by
  simp only [alignTo] at h
  split at h
  · exact Except.ok.inj h ▸ Nat.dvd_mul_left ..
  · cases h

/-- A field stands where the alignment of its shape allows. -/
def Field.Aligned (f : Field) : Prop := ∃ n, f.shape.align = .ok n ∧ n ∣ f.offset

/-- The alignment of a shape is one of the four. -/
def Shape.Fit (shape : Shape) : Prop := ∀ n, shape.align = .ok n → n ∈ alignments

/-! ## Placing -/

/-- Placing keeps the fields and their shapes. -/
theorem shapes_of_placeFields {owner : String} : ∀ {fields : List (String × Shape)} {offset align : Nat}
    {taken : List String} {p : Placement}, placeFields owner offset align taken fields = .ok p →
    p.fields.map (fun f => (f.name, f.shape)) = fields
  | [], _, _, _, p, h => by
    obtain rfl := Except.ok.inj h
    rfl
  | (name, shape) :: rest, _, _, _, p, h => by
    obtain ⟨-, own, start, q, -, -, hq, rfl⟩ := placeFields_cons h
    exact congrArg ((name, shape) :: ·) (shapes_of_placeFields hq)

/-- **What has been placed is aligned**, and its alignment divides the strictest one. -/
theorem aligned_of_placeFields {owner : String} : ∀ {fields : List (String × Shape)} {offset align : Nat}
    {taken : List String} {p : Placement}, (∀ f ∈ fields, f.2.Fit) → align ∈ Shape.alignments →
    placeFields owner offset align taken fields = .ok p →
    p.align ∈ Shape.alignments ∧ align ∣ p.align ∧
      ∀ f ∈ p.fields, ∃ n, f.shape.align = .ok n ∧ n ∣ f.offset ∧ n ∣ p.align
  | [], _, align, _, p, _, ha, h => by
    obtain rfl := Except.ok.inj h
    exact ⟨ha, Nat.dvd_refl align, fun f hf => (List.not_mem_nil hf).elim⟩
  | (name, shape) :: rest, _, align, _, p, hfit, ha, h => by
    obtain ⟨-, own, start, q, hown, hstart, hq, rfl⟩ := placeFields_cons h
    have hmem : own ∈ Shape.alignments := hfit _ List.mem_cons_self own hown
    have hmax : max align own ∈ Shape.alignments := Shape.max_mem ha hmem
    obtain ⟨h1, h2, h3⟩ := aligned_of_placeFields (fun f hf => hfit f (List.mem_cons_of_mem _ hf)) hmax hq
    refine ⟨h1, Nat.dvd_trans (Shape.dvd_of_le ha hmax (Nat.le_max_left ..)) h2, fun f hf => ?_⟩
    rcases List.mem_cons.1 hf with rfl | hf
    · exact ⟨own, hown, dvd_of_alignTo hstart, Nat.dvd_trans (Shape.dvd_of_le hmem hmax (Nat.le_max_right ..)) h2⟩
    · exact h3 f hf

theorem Shape.Made.fit {shape : Shape} (hm : shape.Made) : shape.Fit := by
  intro n hn
  induction hm generalizing n with
  | scalar size =>
    simp only [Shape.align] at hn
    split at hn
    · cases hn
    · exact Except.ok.inj hn ▸ alignOf_mem size
  | handle size =>
    simp only [Shape.align] at hn
    split at hn
    · cases hn
    · exact Except.ok.inj hn ▸ alignOf_mem size
  | object => exact Except.ok.inj hn ▸ (by decide)
  | slice _ _ => exact Except.ok.inj hn ▸ (by decide)
  | aggregate _ hb ih =>
    obtain ⟨p, size, hp, -, rfl⟩ := Aggregate.build_ok hb
    exact Except.ok.inj hn ▸ (aligned_of_placeFields ih (by decide) hp).1

/-! ## Opening aggregates -/

mutual

/-- The parts of a shape at an offset that are no aggregates, each at its place. -/
def Shape.leaves (name : String) (offset : Nat) : Shape → List Field
  | .aggregate layout => layout.leaves offset
  | shape => [⟨name, offset, shape⟩]

def Aggregate.leaves (offset : Nat) : Aggregate → List Field
  | .mk _ fields _ _ => fields.leaves offset

def Fields.leaves (base : Nat) : Fields → List Field
  | .nil => []
  | .cons name offset shape rest => shape.leaves name (base + offset) ++ rest.leaves base

end

def Field.leaves (base : Nat) (f : Field) : List Field := f.shape.leaves f.name (base + f.offset)

theorem Fields.leaves_eq (base : Nat) : ∀ fs : Fields, fs.leaves base = fs.toList.flatMap (Field.leaves base)
  | .nil => rfl
  | .cons name offset shape rest => by
    rw [leaves, leaves_eq base rest]
    rfl

theorem Aggregate.leaves_eq (base : Nat) : ∀ l : Aggregate, l.leaves base = l.fields.flatMap (Field.leaves base)
  | .mk _ fields _ _ => Fields.leaves_eq base fields

/-- Fields in a row are opened to a row, where each is opened between its ends. -/
theorem Placed.leaves {base : Nat} : ∀ {fs : List Field} {lo hi : Nat}, Placed lo fs hi →
    (∀ f ∈ fs, Placed (base + f.offset) (f.leaves base) (base + f.offset + f.shape.size)) →
    Placed (base + lo) (fs.flatMap (Field.leaves base)) (base + hi)
  | [], _, _, h, _ => Nat.add_le_add_left h base
  | f :: fs, lo, hi, h, hfs => by
    have hf : Placed (base + lo) (f.leaves base) (base + f.offset + f.shape.size) :=
      (hfs f List.mem_cons_self).lower (Nat.add_le_add_left h.1 base)
    have hrest := h.2.leaves fun g hg => hfs g (List.mem_cons_of_mem _ hg)
    rw [List.flatMap_cons]
    exact hf.append (Nat.add_assoc .. ▸ hrest)

/-- A shape can be opened where it stands. -/
def Shape.Opens (shape : Shape) : Prop := ∀ (name : String) (base n : Nat), shape.align = .ok n → n ∣ base →
  Placed base (shape.leaves name base) (base + shape.size) ∧ ∀ f ∈ shape.leaves name base, f.Aligned

/-- Aligned fields in a row are opened to aligned fields in a row, wherever their strictest alignment allows. -/
theorem Placed.opened {base lo hi strictest : Nat} {fs : List Field} (h : Placed lo fs hi)
    (hopens : ∀ f ∈ fs, f.shape.Opens) (hbase : strictest ∣ base)
    (hal : ∀ f ∈ fs, ∃ n, f.shape.align = .ok n ∧ n ∣ f.offset ∧ n ∣ strictest) :
    Placed (base + lo) (fs.flatMap (Field.leaves base)) (base + hi) ∧
      ∀ f ∈ fs.flatMap (Field.leaves base), f.Aligned := by
  have hopen : ∀ f ∈ fs, Placed (base + f.offset) (f.leaves base) (base + f.offset + f.shape.size) ∧
      ∀ g ∈ f.leaves base, g.Aligned := fun f hf => by
    obtain ⟨n, hn, hoffset, hstrictest⟩ := hal f hf
    exact hopens f hf f.name _ n hn (Nat.dvd_add (Nat.dvd_trans hstrictest hbase) hoffset)
  refine ⟨h.leaves fun f hf => (hopen f hf).1, fun g hg => ?_⟩
  obtain ⟨f, hf, hg⟩ := List.mem_flatMap.1 hg
  exact (hopen f hf).2 g hg

theorem opens_of_leaf {shape : Shape} (h : ∀ name base, shape.leaves name base = [⟨name, base, shape⟩]) :
    shape.Opens := by
  intro name base n hn hbase
  rw [h]
  exact ⟨⟨Nat.le_refl _, Nat.le_refl _⟩, fun f hf => List.mem_singleton.1 hf ▸ ⟨n, hn, hbase⟩⟩

theorem forall_shape_of_placeFields {owner : String} {fields : List (String × Shape)} {offset align : Nat}
    {taken : List String} {p : Placement} {P : Shape → Prop} (h : placeFields owner offset align taken fields = .ok p)
    (hP : ∀ f ∈ fields, P f.2) : ∀ f ∈ p.fields, P f.shape := fun f hf =>
  hP (f.name, f.shape) (shapes_of_placeFields h ▸ List.mem_map_of_mem hf)

/-- **Every shape that can be made can be opened**, down to the leaves. -/
theorem Shape.Made.opens {shape : Shape} (hm : shape.Made) : shape.Opens := by
  induction hm with
  | scalar size => exact opens_of_leaf fun _ _ => by rw [Shape.leaves]; simp
  | handle size => exact opens_of_leaf fun _ _ => by rw [Shape.leaves]; simp
  | object => exact opens_of_leaf fun _ _ => by rw [Shape.leaves]; simp
  | slice _ _ => exact opens_of_leaf fun _ _ => by rw [Shape.leaves]; simp
  | @aggregate name fields layout hmade hb ih =>
    intro _ base n hn hbase
    obtain ⟨p, size, hp, hs, rfl⟩ := Aggregate.build_ok hb
    obtain rfl := Except.ok.inj hn
    have hfit : ∀ f ∈ fields, f.2.Fit := fun f hf => (hmade f hf).fit
    obtain ⟨halign, -, hal⟩ := aligned_of_placeFields hfit (by decide) hp
    have hplaced := (placed_of_placeFields (fun f hf => (hmade f hf).built) hp).1
    have hsize := (le_of_alignTo (Shape.pos_of_mem halign) hs).1
    rw [Shape.leaves, Aggregate.leaves_eq, Aggregate.fields_mk]
    exact (hplaced.mono hsize).opened (forall_shape_of_placeFields hp ih) hbase hal

/-! ## Owners -/

/-- Fields of an owner, between the ends of what it has for them: none starts before an earlier one has ended, and each
is aligned. -/
structure Laid (lo hi : Nat) (fs : List Field) : Prop where
  row : fs.Pairwise fun f g => f.offset ≤ g.offset ∧ f.offset + f.shape.size ≤ g.offset
  within : ∀ f ∈ fs, lo ≤ f.offset ∧ f.offset + f.shape.size ≤ hi
  aligned : ∀ f ∈ fs, f.Aligned

theorem Placed.laid {lo hi : Nat} {fs : List Field} (h : Placed lo fs hi) (hal : ∀ f ∈ fs, f.Aligned) :
    Laid lo hi fs where
  row := h.pairwise.imp fun hfg => ⟨Nat.le_trans (Nat.le_add_right ..) hfg, hfg⟩
  within := fun _ hf => h.bounds hf
  aligned := hal

/-- An aggregate is laid out: its fields, and the leaves of all aggregates in it. -/
structure Aggregate.LaidOut (l : Aggregate) : Prop where
  fields : Laid 0 l.size l.fields
  leaves : Laid 0 l.size (l.leaves 0)
  align : l.align ∈ Shape.alignments
  size : l.align ∣ l.size

theorem Aggregate.laidOut_of_build {name : String} {fields : List (String × Shape)} {l : Aggregate}
    (hm : ∀ f ∈ fields, f.2.Made) (hb : Aggregate.build name fields = .ok l) : l.LaidOut := by
  have hopens := (Shape.Made.aggregate hm hb).opens name 0 l.align rfl (Nat.dvd_zero _)
  rw [Shape.leaves, Nat.zero_add] at hopens
  have hplaced : Placed 0 l.fields l.size := by
    cases (Shape.Made.aggregate hm hb).built with
    | aggregate placed _ _ _ => exact placed
  obtain ⟨p, size, hp, hs, rfl⟩ := Aggregate.build_ok hb
  obtain ⟨halign, -, hal⟩ := aligned_of_placeFields (fun f hf => (hm f hf).fit) (by decide) hp
  refine ⟨hplaced.laid ?_, hopens.1.laid hopens.2, halign, dvd_of_alignTo hs⟩
  rw [Aggregate.fields_mk]
  exact fun f hf => (hal f hf).imp fun _ h => ⟨h.1, h.2.1⟩

namespace Class

variable {c p : Class}

def leaves (c : Class) : List Field := c.fields.flatMap (Field.leaves 0)

/-- A class is laid out: the fields of the class and of its ancestors, the most basic ancestor's first. -/
structure LaidOut (c : Class) : Prop where
  fields : Laid headerSize c.size c.fields
  leaves : Laid headerSize c.size c.leaves
  size : 8 ∣ c.size

/-- What holds of the parent's fields and of those that are placed holds of all fields of a class. -/
theorem forall_fields_of_build {path : String} {parent : Option Class} {fields : List (String × Shape)}
    {P : Field → Prop} (hp : ∀ p ∈ parent, ∀ f ∈ p.fields, P f) (h : build path parent fields = .ok c)
    (hnew : ∀ offset taken q, placeFields path offset 1 taken fields = .ok q → ∀ f ∈ q.fields, P f) :
    ∀ f ∈ c.fields, P f := by
  obtain ⟨q, stop, hq, -, rfl⟩ := build_ok h
  intro f hf
  rw [fields_cons] at hf
  rcases List.mem_append.1 hf with hf | hf
  · cases parent with
    | none => cases hf
    | some p => exact hp p rfl f hf
  · exact hnew _ _ q hq f hf

theorem opens_of_build {path : String} {parent : Option Class} {fields : List (String × Shape)}
    (hm : ∀ f ∈ fields, f.2.Made) (hp : ∀ p ∈ parent, ∀ f ∈ p.fields, f.shape.Opens ∧ f.Aligned)
    (h : build path parent fields = .ok c) : ∀ f ∈ c.fields, f.shape.Opens ∧ f.Aligned :=
  forall_fields_of_build hp h fun _ _ _ hq f hf => by
    obtain ⟨-, -, hal⟩ := aligned_of_placeFields (fun f hf => (hm f hf).fit) (by decide) hq
    exact ⟨forall_shape_of_placeFields hq (fun f hf => (hm f hf).opens) f hf, (hal f hf).imp fun _ h => ⟨h.1, h.2.1⟩⟩

theorem Made.opens (hm : c.Made) : ∀ f ∈ c.fields, f.shape.Opens ∧ f.Aligned := by
  induction hm with
  | root made built => exact opens_of_build made (by simp) built
  | derived _ made built ih => exact opens_of_build made (fun _ h => Option.some.inj h ▸ ih) built

theorem size_of_build {path : String} {parent : Option Class} {fields : List (String × Shape)}
    (h : build path parent fields = .ok c) : 8 ∣ c.size := by
  obtain ⟨q, stop, -, hs, rfl⟩ := build_ok h
  exact dvd_of_alignTo hs

theorem Made.laidOut (hm : c.Made) : c.LaidOut := by
  have hplaced := hm.built.placed
  have hleaves : Placed (0 + headerSize) c.leaves (0 + c.size) ∧ ∀ f ∈ c.leaves, f.Aligned :=
    hplaced.opened (fun f hf => (hm.opens f hf).1) (Nat.dvd_refl 0) fun f hf =>
      (hm.opens f hf).2.imp fun n h => ⟨h.1, h.2, Nat.dvd_zero n⟩
  rw [Nat.zero_add, Nat.zero_add] at hleaves
  refine ⟨hplaced.laid fun f hf => (hm.opens f hf).2, hleaves.1.laid hleaves.2, ?_⟩
  cases hm with
  | root _ built => exact size_of_build built
  | derived _ _ built => exact size_of_build built

/-- A class ends behind its parent. -/
theorem size_le_of_build {path : String} {parent : Class} {fields : List (String × Shape)}
    (hm : ∀ f ∈ fields, f.2.Made) (h : build path (some parent) fields = .ok c) : parent.size ≤ c.size := by
  obtain ⟨q, stop, hq, hs, rfl⟩ := build_ok h
  have hplaced := (placed_of_placeFields (fun f hf => (hm f hf).built) hq).1
  exact Nat.le_trans hplaced.le (le_of_alignTo (by decide) hs).1

theorem ancestors_of_build {path : String} {parent : Option Class} {fields : List (String × Shape)}
    (h : build path parent fields = .ok c) : c.ancestors = (parent.map fun p => p.own :: p.ancestors).getD [] := by
  obtain ⟨q, stop, -, -, rfl⟩ := build_ok h
  rfl

theorem eq_of_levels (h : p.own :: p.ancestors = c.own :: c.ancestors) : p = c := by
  obtain ⟨hown, hancestors⟩ := List.cons.inj h
  cases p
  cases c
  rw [Class.mk.injEq]
  exact ⟨hown, hancestors⟩

/-- **The ancestors of a class that can be made can be made**, and none is larger than what derives from it. -/
theorem Made.ancestor (hm : c.Made) (h : c.Extends p) : p.Made ∧ p.size ≤ c.size := by
  induction hm with
  | root made built =>
    rcases List.suffix_cons_iff.1 h with heq | hsuffix
    · obtain rfl := eq_of_levels heq
      exact ⟨.root made built, Nat.le_refl _⟩
    · rw [ancestors_of_build built] at hsuffix
      cases List.suffix_nil.1 hsuffix
  | derived hparent made built ih =>
    rcases List.suffix_cons_iff.1 h with heq | hsuffix
    · obtain rfl := eq_of_levels heq
      exact ⟨.derived hparent made built, Nat.le_refl _⟩
    · rw [ancestors_of_build built] at hsuffix
      exact ⟨(ih hsuffix).1, Nat.le_trans (ih hsuffix).2 (size_le_of_build made built)⟩

end Class

/-- **Layouts are sound over chains and nestings**: for every class that can be made and each of its ancestors, and for
every aggregate. -/
theorem laidOut_chains_nestings :
    (∀ c : Class, c.Made → ∀ p : Class, c.Extends p → p.LaidOut ∧ p.size ≤ c.size) ∧
      ∀ l : Aggregate, (Shape.aggregate l).Made → l.LaidOut := by
  refine ⟨fun c hc p hp => ?_, fun l hl => ?_⟩
  · obtain ⟨hm, hle⟩ := hc.ancestor hp
    exact ⟨hm.laidOut, hle⟩
  · cases hl with
    | aggregate made built => exact Aggregate.laidOut_of_build made built

namespace Nested

def inner : Aggregate := .mk "Inner" (.ofList [⟨"x", 0, .scalar 1⟩, ⟨"y", 2, .scalar 2⟩]) 4 2

def outer : Aggregate :=
  .mk "Outer" (.ofList [⟨"a", 0, .scalar 3⟩, ⟨"in", 4, .aggregate inner⟩, ⟨"none", 8, .scalar 0⟩]) 8 4

def base : Class := ⟨⟨"m::Base", [⟨"flag", 16, .scalar 1⟩], 24⟩, []⟩

def derived : Class :=
  ⟨⟨"m::Derived", [⟨"byte", 24, .scalar 1⟩, ⟨"o", 28, .aggregate outer⟩, ⟨"next", 40, .object⟩], 48⟩, [base.own]⟩

theorem inner_made : (Shape.aggregate inner).Made :=
  @Shape.Made.aggregate "Inner" [("x", .scalar 1), ("y", .scalar 2)] inner
    (List.forall_mem_cons.2 ⟨.scalar 1, List.forall_mem_singleton.2 (.scalar 2)⟩) (by decide +kernel)

theorem outer_made : (Shape.aggregate outer).Made :=
  @Shape.Made.aggregate "Outer" [("a", .scalar 3), ("in", .aggregate inner), ("none", .scalar 0)] outer
    (List.forall_mem_cons.2 ⟨.scalar 3, List.forall_mem_cons.2 ⟨inner_made, List.forall_mem_singleton.2 (.scalar 0)⟩⟩)
    (by decide +kernel)

theorem base_made : base.Made :=
  @Class.Made.root "m::Base" [("flag", .scalar 1)] base (List.forall_mem_singleton.2 (.scalar 1)) (by decide +kernel)

theorem derived_made : derived.Made :=
  @Class.Made.derived "m::Derived" base [("byte", .scalar 1), ("o", .aggregate outer), ("next", .object)] derived
    base_made
    (List.forall_mem_cons.2 ⟨.scalar 1, List.forall_mem_cons.2 ⟨outer_made, List.forall_mem_singleton.2 .object⟩⟩)
    (by decide +kernel)

/-- Here an aggregate in an aggregate stands in a class behind a field of one byte. -/
theorem laidOut_derived : derived.LaidOut ∧ base.LaidOut ∧ base.size ≤ derived.size ∧ outer.LaidOut ∧
    derived.leaves.map (fun f => (f.name, f.offset)) =
      [("flag", 16), ("byte", 24), ("a", 28), ("x", 32), ("y", 34), ("none", 36), ("next", 40)] := by
  obtain ⟨hbase, hle⟩ := laidOut_chains_nestings.1 derived derived_made base (by decide)
  exact ⟨(laidOut_chains_nestings.1 derived derived_made derived (.refl _)).1, hbase, hle,
    laidOut_chains_nestings.2 outer outer_made, by decide +kernel⟩

end Nested
end Introspect
