import Introspect.Proofs.Layout.Aligned
import Mathlib.Data.List.Chain
/-!
# A class stands in for its ancestors

A class takes over the fields of its parent where they are, and no name that is in use in the parent or above may be used
again.  So whatever an ancestor finds under a name the class finds too: the search goes through the class's own fields
first, but none of them can hide an inherited one.  The names are all that a builder can object to, apart from a path
without a segment (`buildsExactly`); the rest is a question of room (`Spans`).
-/
namespace Introspect

/-! ## Names and room -/

/-- Names that can be used: they are not taken, and none stands there twice. -/
def Fresh (taken names : List String) : Prop := names.Nodup ∧ ∀ name ∈ names, name ∉ taken

theorem fresh_cons {taken names : List String} {name : String} :
    Fresh taken (name :: names) ↔ name ∉ taken ∧ Fresh (name :: taken) names := by
  unfold Fresh
  rw [List.nodup_cons, List.forall_mem_cons]
  constructor
  · rintro ⟨⟨hname, hnodup⟩, htaken, hrest⟩
    refine ⟨htaken, hnodup, fun n hn hmem => ?_⟩
    rcases List.mem_cons.1 hmem with rfl | hmem
    · exact hname hn
    · exact hrest n hn hmem
  · rintro ⟨htaken, hnodup, hrest⟩
    exact ⟨⟨fun hn => hrest name hn List.mem_cons_self, hnodup⟩, htaken,
      fun n hn hmem => hrest n hn (List.mem_cons_of_mem name hmem)⟩

/-- Shapes one behind the other, each at the next offset that its alignment allows, reach from one offset to another
without leaving the word. -/
inductive Spans : Nat → List Shape → Nat → Prop where
  | nil (offset : Nat) : Spans offset [] offset
  | cons {offset own start stop : Nat} {shape : Shape} {rest : List Shape} (align : shape.align = .ok own)
    (next : alignTo offset own = .ok start) (room : start + shape.size < Text.wordLimit)
    (others : Spans (start + shape.size) rest stop) : Spans offset (shape :: rest) stop

theorem spans_cons {offset stop : Nat} {shape : Shape} {rest : List Shape} : Spans offset (shape :: rest) stop ↔
    ∃ own start, shape.align = .ok own ∧ alignTo offset own = .ok start ∧ start + shape.size < Text.wordLimit ∧
      Spans (start + shape.size) rest stop := by
  constructor
  · rintro (_ | ⟨align, next, room, others⟩)
    exact ⟨_, _, align, next, room, others⟩
  · rintro ⟨_, _, align, next, room, others⟩
    exact .cons align next room others

theorem spans_cons_of_start {offset own start stop : Nat} {shape : Shape} {rest : List Shape}
    (align : shape.align = .ok own) (next : alignTo offset own = .ok start) : Spans offset (shape :: rest) stop ↔
      start + shape.size < Text.wordLimit ∧ Spans (start + shape.size) rest stop := by
  refine ⟨fun h => ?_, fun h => .cons align next h.1 h.2⟩
  obtain ⟨own', start', align', next', h⟩ := spans_cons.1 h
  obtain rfl := Except.ok.inj (align.symm.trans align')
  obtain rfl := Except.ok.inj (next.symm.trans next')
  exact h

theorem Spans.unique {offset stop stop' : Nat} {shapes : List Shape} (h : Spans offset shapes stop)
    (h' : Spans offset shapes stop') : stop = stop' := by
  induction h with
  | nil => cases h'; rfl
  | cons align next _ _ ih => exact ih ((spans_cons_of_start align next).1 h').2

/-- How placing fields can end: with all of them in their places, with a name that cannot be used, or outside the word. -/
def Settled (offset : Nat) (taken : List String) (fields : List (String × Shape)) : Except (Stop Error) Placement → Prop
  | .ok p => Fresh taken (fields.map Prod.fst) ∧ Spans offset (fields.map Prod.snd) p.stop
  | .error (.failure _) => ¬ Fresh taken (fields.map Prod.fst)
  | .error (.fault _) => ∀ stop, ¬ Spans offset (fields.map Prod.snd) stop

/-- **Placing fields is a matter of their names and of room**, and of nothing else. -/
theorem settled_placeFields (owner : String) : ∀ (fields : List (String × Shape)) (offset align : Nat)
    (taken : List String), Settled offset taken fields (placeFields owner offset align taken fields)
  | [], offset, _, _ => ⟨⟨.nil, fun _ h => (List.not_mem_nil h).elim⟩, .nil offset⟩
  | (name, shape) :: rest, offset, align, taken => by
    unfold placeFields
    -- the cases are what is checked, in that order: the name, the alignment, the next offset, the room, and then the rest
    by_cases htaken : name ∈ taken
    · rw [if_pos (List.contains_iff_mem.2 htaken)]
      exact fun h => (fresh_cons.1 h).1 htaken
    rw [if_neg fun h => htaken (List.contains_iff_mem.1 h)]
    cases halign : shape.align with
    | error e =>
      simp only [liftFault, bind, Except.bind, Settled, List.map_cons, spans_cons]
      rintro stop ⟨own, start, h, -⟩
      cases halign.symm.trans h
    | ok own =>
    cases hnext : alignTo offset own with
    | error e =>
      simp only [liftFault, hnext, bind, Except.bind, Settled, List.map_cons, spans_cons]
      rintro stop ⟨own', start, h, h', -⟩
      rw [halign] at h
      cases hnext.symm.trans (Except.ok.inj h ▸ h')
    | ok start =>
    have hspans : ∀ stop, Spans offset (shape :: rest.map Prod.snd) stop ↔
        start + shape.size < Text.wordLimit ∧ Spans (start + shape.size) (rest.map Prod.snd) stop :=
      fun _ => spans_cons_of_start halign hnext
    by_cases hroom : Text.wordLimit ≤ start + shape.size
    · simp only [liftFault, hnext, bind, Except.bind, if_pos hroom]
      exact fun stop h => Nat.not_lt_of_le hroom ((hspans stop).1 h).1
    simp only [liftFault, hnext, bind, Except.bind, if_neg hroom]
    have hrest := settled_placeFields owner rest (start + shape.size) (max align own) (name :: taken)
    cases hp : placeFields owner (start + shape.size) (max align own) (name :: taken) rest with
    | ok p =>
      rw [hp] at hrest
      exact ⟨fresh_cons.2 ⟨htaken, hrest.1⟩, (hspans p.stop).2 ⟨Nat.lt_of_not_le hroom, hrest.2⟩⟩
    | error e =>
      rw [hp] at hrest
      cases e with
      | failure e => exact fun h => hrest (fresh_cons.1 h).2
      | fault e => exact fun stop h => hrest stop ((hspans stop).1 h).2

namespace Class

variable {c p : Class} {name path : String} {parent : Option Class} {fields : List (String × Shape)}

/-! ## What a builder accepts -/

/-- The path has a piece between its separators that is not empty. -/
def Segmented (path : String) : Prop := ∃ piece ∈ Text.splitOn2 ':' ':' path.toList, piece ≠ []

/-- The names of the fields are used once, and not by the parent or any class above it. -/
structure Unused (parent : Option Class) (fields : List (String × Shape)) : Prop where
  once : (fields.map Prod.fst).Nodup
  above : ∀ p ∈ parent, ∀ f ∈ p.fields, f.name ∉ fields.map Prod.fst

/-- There is room for the fields behind the parent, and for the rest of their last word. -/
def HasRoom (parent : Option Class) (fields : List (String × Shape)) : Prop :=
  ∃ stop, Spans ((parent.map size).getD headerSize) (fields.map Prod.snd) stop ∧
    ∃ size, alignTo stop Shape.pointerSize = .ok size

theorem isEmpty_segments_iff : (Linkage.segments path.toList).isEmpty = true ↔ ¬ Segmented path := by
  simp [Linkage.segments, Segmented]

theorem fresh_iff_unused :
    Fresh ((parent.map fieldNames).getD []) (fields.map Prod.fst) ↔ Unused parent fields := by
  cases parent with
  | none => exact ⟨fun h => ⟨h.1, by simp⟩, fun h => ⟨h.once, by simp⟩⟩
  | some p =>
    constructor
    · rintro ⟨honce, habove⟩
      refine ⟨honce, fun q hq f hf hmem => habove f.name hmem ?_⟩
      exact mem_fieldNames.2 ⟨f, Option.some.inj hq ▸ hf, rfl⟩
    · rintro ⟨honce, habove⟩
      refine ⟨honce, fun name hname hmem => ?_⟩
      obtain ⟨f, hf, rfl⟩ := mem_fieldNames.1 hmem
      exact habove p rfl f hf hname

/-- What building a class comes to. -/
structure BuildsExactly (path : String) (parent : Option Class) (fields : List (String × Shape)) : Prop where
  /-- Unless a number leaves its word, a class is built exactly if its path and its names allow it. -/
  accepts : (∀ e, build path parent fields ≠ .error (.fault e)) →
    ((∃ c, build path parent fields = .ok c) ↔ Segmented path ∧ Unused parent fields)
  /-- No number leaves its word where there is room. -/
  unbroken : HasRoom parent fields → ∀ e, build path parent fields ≠ .error (.fault e)
  room : ∀ c, build path parent fields = .ok c → HasRoom parent fields
  /-- The class has the path, the parent and the fields that it was built from. -/
  yields : ∀ c, build path parent fields = .ok c →
    c.path = path ∧ c.parent? = parent ∧ c.own.fields.map (fun f => (f.name, f.shape)) = fields

theorem builtFrom (h : build path parent fields = .ok c) :
    c.path = path ∧ c.parent? = parent ∧ c.own.fields.map (fun f => (f.name, f.shape)) = fields := by
  obtain ⟨q, stop, hq, -, rfl⟩ := build_ok h
  refine ⟨rfl, ?_, shapes_of_placeFields hq⟩
  cases parent <;> rfl

/-- How building a class can end. -/
def Concluded (path : String) (parent : Option Class) (fields : List (String × Shape)) :
    Except (Stop Error) Class → Prop
  | .ok _ => Segmented path ∧ Unused parent fields ∧ HasRoom parent fields
  | .error (.failure _) => ¬ (Segmented path ∧ Unused parent fields)
  | .error (.fault _) => ¬ HasRoom parent fields

theorem concluded_build (path : String) (parent : Option Class) (fields : List (String × Shape)) :
    Concluded path parent fields (build path parent fields) := by
  unfold build
  by_cases hpath : Segmented path
  · rw [if_neg fun h => isEmpty_segments_iff.1 h hpath]
    have hsettled := settled_placeFields path fields ((parent.map size).getD headerSize) 1
      ((parent.map fieldNames).getD [])
    cases hp : placeFields path ((parent.map size).getD headerSize) 1 ((parent.map fieldNames).getD []) fields with
    | error e =>
      rw [hp] at hsettled
      simp only [hp, bind, Except.bind]
      cases e with
      | failure e => exact fun h => hsettled (fresh_iff_unused.2 h.2)
      | fault e =>
        rintro ⟨stop, hspans, -⟩
        exact hsettled stop hspans
    | ok p =>
      rw [hp] at hsettled
      obtain ⟨hfresh, hspans⟩ := hsettled
      cases hsize : alignTo p.stop Shape.pointerSize with
      | ok size =>
        simp only [hp, liftFault, hsize, bind, Except.bind]
        exact ⟨hpath, fresh_iff_unused.1 hfresh, p.stop, hspans, size, hsize⟩
      | error e =>
        simp only [hp, liftFault, hsize, bind, Except.bind]
        rintro ⟨stop, hspans', size, hsize'⟩
        rw [hspans'.unique hspans] at hsize'
        cases hsize.symm.trans hsize'
  · rw [if_pos (isEmpty_segments_iff.2 hpath)]
    exact fun h => hpath h.1

/-- **A class is built exactly if its path and its names allow it** and there is room. -/
theorem buildsExactly (path : String) (parent : Option Class) (fields : List (String × Shape)) :
    BuildsExactly path parent fields := by
  have hconcluded := concluded_build path parent fields
  refine ⟨fun hno => ?_, fun hroom e he => ?_, fun c hc => ?_, fun c => builtFrom⟩
  · cases hb : build path parent fields with
    | ok c =>
      rw [hb] at hconcluded
      exact ⟨fun _ => ⟨hconcluded.1, hconcluded.2.1⟩, fun _ => ⟨c, rfl⟩⟩
    | error e =>
      rw [hb] at hconcluded
      cases e with
      | failure e =>
        refine ⟨?_, fun h => absurd h hconcluded⟩
        rintro ⟨c, hc⟩
        cases hc
      | fault e => exact absurd hb (hno e)
  · rw [he] at hconcluded
    exact hconcluded hroom
  · rw [hc] at hconcluded
    exact hconcluded.2.2

/-! ## The classes above a class -/

/-- A class and the classes above it, the nearest first. -/
def upward (own : Level) : List Level → List Class
  | [] => [⟨own, []⟩]
  | l :: ls => ⟨own, l :: ls⟩ :: upward l ls

/-- A class and the classes above it, the most basic first. -/
def chain (c : Class) : List Class := (upward c.own c.ancestors).reverse

/-- These are all the classes whose levels a class has, each once: from one without a parent, each is the parent of the
next, up to the class itself. -/
structure Lineage (c : Class) (chain : List Class) : Prop where
  root : ∀ p ∈ chain.head?, p.parent? = none
  linked : chain.IsChain fun p d => d.parent? = some p
  last : chain.getLast? = some c
  once : chain.Nodup
  all : ∀ p, p ∈ chain ↔ c.Extends p
  levels : c.ancestry = chain.map own

theorem mem_upward {own : Level} {ls : List Level} : p ∈ upward own ls ↔ p.own :: p.ancestors <:+ own :: ls := by
  have hhead : ∀ own ls, p = ⟨own, ls⟩ ↔ p.own :: p.ancestors = own :: ls :=
    fun own ls => ⟨fun h => h ▸ rfl, fun h => @eq_of_levels ⟨own, ls⟩ p h⟩
  induction ls generalizing own with
  | nil => rw [upward, List.mem_singleton, hhead, List.suffix_cons_iff]; simp
  | cons l ls ih =>
    rw [upward, List.mem_cons, hhead, List.suffix_cons_iff]
    exact or_congr_right ih

theorem head?_upward (own : Level) (ls : List Level) : (upward own ls).head? = some ⟨own, ls⟩ := by
  cases ls <;> rfl

theorem map_upward (own : Level) (ls : List Level) : (upward own ls).map Class.own = own :: ls := by
  induction ls generalizing own with
  | nil => rfl
  | cons l ls ih => rw [upward, List.map_cons, ih]

theorem isChain_upward (own : Level) (ls : List Level) :
    (upward own ls).IsChain fun d p => d.parent? = some p := by
  induction ls generalizing own with
  | nil => exact .singleton _
  | cons l ls ih =>
    refine List.isChain_cons.2 ⟨fun p hp => ?_, ih l⟩
    rw [head?_upward] at hp
    exact Option.some.inj hp ▸ rfl

theorem parent?_of_getLast?_upward {own : Level} {ls : List Level} (h : p ∈ (upward own ls).getLast?) :
    p.parent? = none := by
  induction ls generalizing own with
  | nil => exact Option.some.inj h ▸ rfl
  | cons l ls ih =>
    obtain ⟨first, rest, hup⟩ : ∃ first rest, upward l ls = first :: rest := by cases ls <;> exact ⟨_, _, rfl⟩
    rw [upward, hup, List.getLast?_cons_cons, ← hup] at h
    exact ih h

theorem nodup_upward (own : Level) (ls : List Level) : (upward own ls).Nodup := by
  induction ls generalizing own with
  | nil => exact List.nodup_singleton _
  | cons l ls ih =>
    refine List.nodup_cons.2 ⟨fun hmem => ?_, ih l⟩
    -- a class has more levels than any above it
    have hlength := (mem_upward.1 hmem).length_le
    simp only [List.length_cons] at hlength
    omega

/-- **A class is the last of its chain.** -/
theorem lineage_chain (c : Class) : Lineage c c.chain where
  root p hp := by
    rw [chain, List.head?_reverse] at hp
    exact parent?_of_getLast?_upward hp
  linked := List.isChain_reverse.2 (isChain_upward c.own c.ancestors)
  last := by rw [chain, List.getLast?_reverse, head?_upward]
  once := List.nodup_reverse.2 (nodup_upward c.own c.ancestors)
  all p := List.mem_reverse.trans mem_upward
  levels := by rw [chain, List.map_reverse, map_upward, ancestry]

/-! ## Looking up -/

/-- **What an ancestor finds the class finds**, at the same place and in the same shape. -/
theorem Made.field?_of_extends (hm : c.Made) (hext : c.Extends p) {f : Field} (hf : p.field? name = some f) :
    c.field? name = some f := by
  rw [← name_of_field? hf]
  exact hm.field?_of_mem (hext.fields_subset (mem_of_field? hf))

theorem exists_field?_iff :
    (∃ f, c.field? name = some f) ↔ ∃ l ∈ c.ancestry, name ∈ l.fields.map Field.name := by
  rw [← Option.isSome_iff_exists, field?, List.isSome_findSome?, List.any_eq_true]
  simp [ancestry, or_comm]

end Class

/-- **A derived class can stand in for each of its ancestors.**  What a builder accepts is a class that derives from what
it was given, with the fields that it was given; and in a class that was built every field of an ancestor is found as
the ancestor finds it, and nothing is found that no class of the chain declares. -/
theorem derived_substitutable :
    (∀ path parent fields, Class.BuildsExactly path parent fields) ∧ (∀ c : Class, c.Lineage c.chain) ∧
      ∀ c : Class, c.Made →
        (∀ p, c.Extends p → ∀ name, (p.field? name).isSome = true → c.field? name = p.field? name) ∧
        ∀ name, (∃ f, c.field? name = some f) ↔ ∃ l ∈ c.ancestry, name ∈ l.fields.map Field.name := by
  refine ⟨Class.buildsExactly, Class.lineage_chain, fun c hc => ⟨fun p hp name hsome => ?_, fun name =>
    Class.exists_field?_iff⟩⟩
  obtain ⟨f, hf⟩ := Option.isSome_iff_exists.1 hsome
  rw [hf]
  exact hc.field?_of_extends hp hf

namespace Nested

/-- A class two levels above its most basic ancestor. -/
def last : Class := ⟨⟨"m::Last", [⟨"tail", 48, .scalar 2⟩], 56⟩, [derived.own, base.own]⟩

theorem last_made : last.Made :=
  @Class.Made.derived "m::Last" derived [("tail", .scalar 2)] last derived_made
    (List.forall_mem_singleton.2 (.scalar 2)) (by decide +kernel)

theorem derived_substitutable_last : last.Made ∧ last.Extends base ∧ (base.field? "flag").isSome = true ∧
    last.field? "flag" = base.field? "flag" ∧ last.field? "o" = derived.field? "o" ∧
    last.chain = [base, derived, last] ∧ ¬ ∃ f, last.field? "flags" = some f := by
  obtain ⟨hfound, hdeclared⟩ := derived_substitutable.2.2 last last_made
  refine ⟨last_made, by decide, by decide +kernel, hfound base (by decide) "flag" (by decide +kernel),
    hfound derived (by decide) "o" (by decide +kernel), rfl, ?_⟩
  rw [hdeclared]
  decide +kernel

/-- A name of the most basic ancestor is refused two levels below it. -/
example : Class.build "m::Last" (some derived) [("tail", .scalar 2), ("flag", .object)] =
    .error (.failure (.invalidLayout "m::Last declares field flag twice")) := by decide +kernel

end Nested
end Introspect
