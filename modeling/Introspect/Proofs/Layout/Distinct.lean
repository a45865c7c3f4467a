import Introspect.Proofs.Layout.Placed
import Mathlib.Data.List.Nodup
/-!
# A name finds its field

A class is searched from itself up through its ancestors, and the first field with the name is taken.  The builder has
refused every name that was in use already, by an ancestor too, so there is no other field that could be meant: in a
class that was built a name and a field determine each other.
-/
namespace Introspect

/-- **What is placed has names of its own**: none of them is taken, and none is used twice. -/
theorem placeFields_names {owner : String} : ∀ {fields : List (String × Shape)} {offset align : Nat}
    {taken : List String} {p : Placement}, placeFields owner offset align taken fields = .ok p →
    (p.fields.map Field.name).Nodup ∧ ∀ f ∈ p.fields, f.name ∉ taken
  | [], _, _, _, p, h => by
    obtain rfl := Except.ok.inj h
    exact ⟨.nil, fun f hf => (List.not_mem_nil hf).elim⟩
  | (name, shape) :: rest, _, _, taken, p, h => by
    obtain ⟨hname, own, start, q, -, -, hq, rfl⟩ := placeFields_cons h
    obtain ⟨h1, h2⟩ := placeFields_names hq
    refine ⟨List.nodup_cons.2 ⟨fun hmem => ?_, h1⟩, fun f hf => ?_⟩
    · obtain ⟨f, hf, hfn⟩ := List.mem_map.1 hmem
      exact h2 f hf (hfn ▸ List.mem_cons_self)
    · rcases List.mem_cons.1 hf with rfl | hf
      · exact hname
      · exact fun hmem => h2 f hf (List.mem_cons_of_mem _ hmem)

namespace Class

variable {c p : Class} {f : Field}

theorem mem_fieldNames {name : String} : name ∈ c.fieldNames ↔ ∃ f ∈ c.fields, f.name = name := by
  simp only [fieldNames, fields, ancestry, List.mem_flatMap, List.mem_map, List.mem_reverse]
  constructor
  · rintro ⟨l, hl, f, hf, rfl⟩
    exact ⟨f, ⟨l, hl, hf⟩, rfl⟩
  · rintro ⟨f, ⟨l, hl, hf⟩, rfl⟩
    exact ⟨l, hl, f, hf, rfl⟩

theorem names_of_build {path : String} {parent : Option Class} {fields : List (String × Shape)}
    (hp : ∀ p ∈ parent, (p.fields.map Field.name).Nodup) (h : build path parent fields = .ok c) :
    (c.fields.map Field.name).Nodup := by
  obtain ⟨q, stop, hf, -, rfl⟩ := build_ok h
  obtain ⟨h1, h2⟩ := placeFields_names hf
  cases parent with
  | none =>
    rw [fields_cons]
    exact h1
  | some p =>
    have hfields : Class.fields ⟨⟨path, q.fields, stop⟩, p.own :: p.ancestors⟩ = p.fields ++ q.fields := fields_cons _ _
    rw [Option.map_some, Option.getD_some, hfields, List.map_append, List.nodup_append]
    refine ⟨hp p rfl, h1, fun a ha b hb hab => ?_⟩
    obtain ⟨g, hg, rfl⟩ := List.mem_map.1 hb
    obtain ⟨f, hf, hfn⟩ := List.mem_map.1 ha
    exact h2 g hg (mem_fieldNames.2 ⟨f, hf, hfn.trans hab⟩)

/-- **No name is used twice** in an instance, by the class or by an ancestor. -/
theorem Made.names (hm : c.Made) : (c.fields.map Field.name).Nodup := by
  induction hm with
  | root _ built => exact names_of_build (by simp) built
  | derived _ _ built ih => exact names_of_build (fun _ h => Option.some.inj h ▸ ih) built

theorem Made.field_eq (hm : c.Made) {g : Field} (hf : f ∈ c.fields) (hg : g ∈ c.fields) (h : f.name = g.name) : f = g :=
  List.inj_on_of_nodup_map hm.names hf hg h

/-- **A field is found by its name.** -/
theorem Made.field?_of_mem (hm : c.Made) (hf : f ∈ c.fields) : c.field? f.name = some f := by
  cases h : c.field? f.name with
  | none =>
    obtain ⟨l, hl, hfl⟩ := List.mem_flatMap.1 hf
    have hnone := List.findSome?_eq_none_iff.1 h l (List.mem_reverse.1 hl)
    exact absurd (decide_eq_true rfl) (List.find?_eq_none.1 hnone f hfl)
  | some g => rw [hm.field_eq hf (mem_of_field? h) (name_of_field? h).symm]

/-! ## Ancestors -/

/-- The class itself, or an ancestor of it. -/
def Extends (c p : Class) : Prop := p.own :: p.ancestors <:+ c.own :: c.ancestors

instance (c p : Class) : Decidable (c.Extends p) := inferInstanceAs (Decidable (_ :: _ <:+ _ :: _))

theorem Extends.refl (c : Class) : c.Extends c := List.suffix_rfl

theorem Extends.fields_subset (h : c.Extends p) : p.fields ⊆ c.fields := fun f hf => by
  obtain ⟨l, hl, hfl⟩ := List.mem_flatMap.1 hf
  exact List.mem_flatMap.2 ⟨l, List.mem_reverse.2 (h.subset (List.mem_reverse.1 hl)), hfl⟩

end Class
end Introspect
