import Introspect.Proofs.Layout.Substitution
/-!
# What can be copied

Whether a shape can be copied is decided at its surface: an aggregate always can, whatever it is made of.  The rest has
been decided before, when the aggregate was laid out: `Aggregate.build` refuses every field that cannot be copied.  So of
a shape that was put together by the builders, the test says whether a handle occurs in it, however deep
(`Shape.Made.isCopiable_iff`).  Besides handles, the names of the fields are all that the builder of an aggregate can
object to; the rest is a question of room.
-/
namespace Introspect

/-! ## Handles -/

/-- A shape occurs in another: as the shape itself, in the elements of a slice, or in a field of an aggregate. -/
inductive Shape.OccursIn (inner : Shape) : Shape → Prop where
  | self : OccursIn inner inner
  | element {e : Shape} (h : OccursIn inner e) : OccursIn inner (.slice e)
  | field {l : Aggregate} {f : Field} (hf : f ∈ l.fields) (h : OccursIn inner f.shape) : OccursIn inner (.aggregate l)

namespace Shape

/-- No handle occurs in the shape, at any depth. -/
def HandleFree (shape : Shape) : Prop := ∀ n, ¬ (handle n).OccursIn shape

@[simp] theorem handleFree_scalar (n : Nat) : (scalar n).HandleFree := fun _ h => by cases h

@[simp] theorem handleFree_object : object.HandleFree := fun _ h => by cases h

@[simp] theorem not_handleFree_handle (n : Nat) : ¬ (handle n).HandleFree := fun h => h n .self

@[simp] theorem handleFree_slice {e : Shape} : (slice e).HandleFree ↔ e.HandleFree := by
  refine ⟨fun h n hn => h n (.element hn), fun h n hn => ?_⟩
  cases hn with
  | element hn => exact h n hn

@[simp] theorem handleFree_aggregate {l : Aggregate} : (aggregate l).HandleFree ↔ ∀ f ∈ l.fields, f.shape.HandleFree := by
  refine ⟨fun h f hf n hn => h n (.field hf hn), fun h n hn => ?_⟩
  cases hn with
  | field hf hn => exact h _ hf n hn

end Shape

/-- Laying out an aggregate starts with its fields: each of them can be copied. -/
theorem Aggregate.copiable_of_build {name : String} {fields : List (String × Shape)} {l : Aggregate}
    (h : build name fields = .ok l) : ∀ f ∈ fields, f.2.isCopiable = true := by
  unfold build at h
  split at h
  · cases h
  · rename_i hfind
    intro f hf
    simpa using List.find?_eq_none.1 hfind f hf

/-- **The test is exact**: a shape that was put together can be copied exactly if no handle occurs in it. -/
theorem Shape.Made.isCopiable_iff {shape : Shape} (hm : shape.Made) : shape.isCopiable = true ↔ shape.HandleFree := by
  induction hm with
  | scalar n => exact iff_of_true rfl (handleFree_scalar n)
  | handle n => exact iff_of_false (by simp [isCopiable]) (not_handleFree_handle n)
  | object => exact iff_of_true rfl handleFree_object
  | slice _ ih => rw [isCopiable, ih, handleFree_slice]
  | aggregate _ hb ih =>
    -- what the test does not look at, the builder has looked at
    have hcop := Aggregate.copiable_of_build hb
    obtain ⟨p, size, hp, -, rfl⟩ := Aggregate.build_ok hb
    refine iff_of_true rfl (handleFree_aggregate.2 ?_)
    rw [Aggregate.fields_mk]
    exact forall_shape_of_placeFields hp fun f hf => (ih f hf).1 (hcop f hf)

/-! ## What the builder of an aggregate accepts -/

theorem fresh_nil {names : List String} : Fresh [] names ↔ names.Nodup := by
  simp [Fresh]

/-- The strictest of an alignment and those of some shapes. -/
def strictest (align : Nat) (shapes : List Shape) : Nat :=
  shapes.foldl (fun n shape => max n (shape.align.toOption.getD n)) align

theorem align_of_placeFields {owner : String} : ∀ {fields : List (String × Shape)} {offset align : Nat}
    {taken : List String} {p : Placement}, placeFields owner offset align taken fields = .ok p →
    p.align = strictest align (fields.map Prod.snd)
  | [], _, _, _, p, h => by
    obtain rfl := Except.ok.inj h
    rfl
  | (name, shape) :: rest, _, align, _, p, h => by
    obtain ⟨-, own, start, q, hown, -, hq, rfl⟩ := placeFields_cons h
    have hrest := align_of_placeFields hq
    rw [List.map_cons, strictest, List.foldl_cons, hown]
    exact hrest

namespace Aggregate

variable {name : String} {fields : List (String × Shape)} {l : Aggregate}

/-- There is room for the fields, and for the padding behind them. -/
def HasRoom (fields : List (String × Shape)) : Prop :=
  ∃ stop, Spans 0 (fields.map Prod.snd) stop ∧ ∃ size, alignTo stop (strictest 1 (fields.map Prod.snd)) = .ok size

/-- The names are used once each, and no handle occurs in any field. -/
structure Acceptable (fields : List (String × Shape)) : Prop where
  once : (fields.map Prod.fst).Nodup
  handleFree : ∀ f ∈ fields, f.2.HandleFree

/-- What laying out an aggregate comes to. -/
structure BuildsExactly (name : String) (fields : List (String × Shape)) : Prop where
  /-- Unless a number leaves its word, an aggregate is laid out exactly if its fields are acceptable. -/
  accepts : (∀ e, build name fields ≠ .error (.fault e)) → ((∃ l, build name fields = .ok l) ↔ Acceptable fields)
  /-- No number leaves its word where there is room. -/
  unbroken : HasRoom fields → ∀ e, build name fields ≠ .error (.fault e)
  room : ∀ l, build name fields = .ok l → HasRoom fields
  /-- The aggregate has the name and the fields that it was built from. -/
  yields : ∀ l, build name fields = .ok l → l.name = name ∧ l.fields.map (fun f => (f.name, f.shape)) = fields

/-- How laying out an aggregate can end. -/
def Concluded (fields : List (String × Shape)) : Except (Stop Error) Aggregate → Prop
  | .ok _ => Acceptable fields ∧ HasRoom fields
  | .error (.failure _) => ¬ Acceptable fields
  | .error (.fault _) => ¬ HasRoom fields

theorem concluded_build (name : String) (hm : ∀ f ∈ fields, f.2.Made) : Concluded fields (build name fields) := by
  unfold build
  cases hfind : fields.find? (!·.2.isCopiable) with
  | some f =>
    have hf := List.mem_of_find?_eq_some hfind
    have hno := List.find?_some hfind
    intro h
    rw [(hm f hf).isCopiable_iff.2 (h.handleFree f hf)] at hno
    cases hno
  | none =>
    have hfree : ∀ f ∈ fields, f.2.HandleFree := fun f hf =>
      (hm f hf).isCopiable_iff.1 (by simpa using List.find?_eq_none.1 hfind f hf)
    have hsettled := settled_placeFields name fields 0 1 []
    cases hp : placeFields name 0 1 [] fields with
    | error e =>
      rw [hp] at hsettled
      cases e with
      | failure e => exact fun h => hsettled (fresh_nil.2 h.once)
      | fault e =>
        rintro ⟨stop, hspans, -⟩
        exact hsettled stop hspans
    | ok p =>
      rw [hp] at hsettled
      obtain ⟨hfresh, hspans⟩ := hsettled
      have halign := align_of_placeFields hp
      cases hsize : alignTo p.stop p.align with
      | ok size =>
        simp only [liftFault, hsize, bind, Except.bind]
        exact ⟨⟨fresh_nil.1 hfresh, hfree⟩, p.stop, hspans, size, halign ▸ hsize⟩
      | error e =>
        simp only [liftFault, hsize, bind, Except.bind]
        rintro ⟨stop, hspans', size, hsize'⟩
        rw [hspans'.unique hspans, ← halign] at hsize'
        cases hsize.symm.trans hsize'

/-- **An aggregate is laid out exactly if its fields are acceptable** and there is room. -/
theorem buildsExactly (name : String) (hm : ∀ f ∈ fields, f.2.Made) : BuildsExactly name fields := by
  have hconcluded := concluded_build name hm
  refine ⟨fun hno => ?_, fun hroom e he => ?_, fun l hl => ?_, fun l hl => ?_⟩
  · cases hb : build name fields with
    | ok l =>
      rw [hb] at hconcluded
      exact ⟨fun _ => hconcluded.1, fun _ => ⟨l, rfl⟩⟩
    | error e =>
      rw [hb] at hconcluded
      cases e with
      | failure e =>
        refine ⟨?_, fun h => absurd h hconcluded⟩
        rintro ⟨l, hl⟩
        cases hl
      | fault e => exact absurd hb (hno e)
  · rw [he] at hconcluded
    exact hconcluded hroom
  · rw [hl] at hconcluded
    exact hconcluded.2
  · obtain ⟨p, size, hp, -, rfl⟩ := build_ok hl
    exact ⟨rfl, (fields_mk ..).symm ▸ shapes_of_placeFields hp⟩

end Aggregate

/-- The shapes of the fields of a class, inherited or not, are those that it was built from. -/
theorem Class.Made.shapes {c : Class} (hm : c.Made) : ∀ f ∈ c.fields, f.shape.Made := by
  induction hm with
  | root made built =>
    exact forall_fields_of_build (by simp) built fun _ _ _ hq => forall_shape_of_placeFields hq made
  | derived _ made built ih =>
    exact forall_fields_of_build (fun _ h => Option.some.inj h ▸ ih) built fun _ _ _ hq =>
      forall_shape_of_placeFields hq made

end Introspect
