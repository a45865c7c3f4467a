import Introspect.Proofs.Allocator.Binding
/-!
# Whose constructor runs

A class has its constructor at a code address, and the way there is by name: the registry leads from the name of the
constructor to an address, and the catalog from the address to a class.  Nobody asks whether that class is the one whose
name was looked up.  The declarations alone never lead astray, since no two classes with different linkage names share a
name and no two constructors share an address.  But code addresses are not kept apart from those of other symbols: one
that is registered under the name of a constructor, at the code address of another class, lends out its constructor.
-/
namespace Introspect

/-! ## Code addresses -/

namespace Catalog

variable {c : Catalog} {d e : Declared} {a : Address}

/-- **No two classes have their constructors at one address.** -/
theorem Numbered.code_inj (hn : c.Numbered) (hsize : c.entries.length < 2 ^ 60 - 2 ^ 20) (hd : d ∈ c.entries)
    (he : e ∈ c.entries) (hda : d.code = some a) (hea : e.code = some a) : d = e := by
  have hnodup : (c.entries.filterMap Declared.code).Nodup := by
    rw [hn]
    refine List.Nodup.map_on (fun i hi j hj hij => ?_) List.nodup_range
    have h1 := List.mem_range.1 hi
    have h2 := List.mem_range.1 hj
    have hlen := List.length_filter_le (·.code.isSome) c.entries
    have hnat := congrArg Address.toNat hij
    simp only [textBase, codeStride, Address.toNat_add, Address.toNat_ofNat] at hnat
    omega
  have hpair := List.pairwise_filterMap.1 hnodup
  refine Classical.byContradiction fun hne => ?_
  have hsymm : Std.Symm fun d e : Declared => ∀ a, d.code = some a → ∀ b, e.code = some b → a ≠ b :=
    ⟨fun d e h a ha b hb hab => h b hb a ha hab.symm⟩
  exact hpair.forall hd he hne a hda a hea rfl

end Catalog

namespace Allocator

/-! ## Declared symbols and others -/

/-- States that were reached with no other function symbols than the constructors of the declared classes and `extra`
ones, whether these were registered, indexed or discovered.  The heap is open to anything. -/
inductive Admits (extra : String → Address → Prop) : Allocator → Prop where
  | start (settings : Settings) : Admits extra (new settings)
  | heap {s : Allocator} {h : Heap} (hs : Admits extra s) (g : Heap.Grows Everywhere s.heap h) :
    Admits extra { s with heap := h }
  | registry {s : Allocator} (hs : Admits extra s) (r : Registry)
    (functions : ∀ name t, r.get? name .function = some t →
      s.registry.get? name .function = some t ∨ extra name t.address) : Admits extra { s with registry := r }
  | declare {s s' : Allocator} {d : ClassDefinition} (hs : Admits extra s) (made : d.type.Made)
    (declared : declare d s = .ok () s') : Admits extra s'

variable {extra : String → Address → Prop} {s s' : Allocator} {files : Storage} {e : Declared}

theorem Admits.reachable (hs : s.Admits extra) : s.Reachable := by
  induction hs with
  | start settings => exact .start _ _
  | heap _ g ih => exact ih.heap g
  | registry _ r _ ih => exact ih.registry r
  | declare _ made hd ih => exact ih.declare made hd

/-- **A function symbol is an extra one, or stands for the constructor of a class** under its name and at its code
address. -/
theorem Admits.functions (hs : s.Admits extra) : ∀ name t, s.registry.get? name .function = some t →
    extra name t.address ∨ ∃ d ∈ s.catalog.entries, d.type.constructorSymbol = name ∧ d.code = some t.address := by
  induction hs with
  | start settings => exact fun _ _ h => by cases h
  | heap _ _ ih => exact ih
  | registry _ r functions ih =>
    intro name t ht
    rcases functions name t ht with h | h
    · exact ih name t h
    · exact .inl h
  | @declare s s' d hs _ hd ih =>
    obtain ⟨-, v, h, -, -, -, -, rfl⟩ := (ends_declare hs.reachable.wellFormed.arranged d).of_ok hd
    intro name t ht
    have hold : s.registry.get? name .function = some t → extra name t.address ∨
        ∃ d' ∈ s.catalog.entries ++ [s.catalog.entryFor d v], d'.type.constructorSymbol = name ∧
          d'.code = some t.address := fun ht => (ih name t ht).imp_right fun h => by
      obtain ⟨d', hd', h⟩ := h
      exact ⟨d', List.mem_append_left _ hd', h⟩
    rw [get?_announce_function] at ht
    cases hcode : (s.catalog.entryFor d v).code with
    | none =>
      rw [hcode] at ht
      exact hold ht
    | some code =>
      rw [hcode] at ht
      dsimp only at ht
      by_cases hname : name = (s.catalog.entryFor d v).type.constructorSymbol
      · rw [if_pos hname] at ht
        obtain rfl := Option.some.inj ht
        exact .inr ⟨_, List.mem_append_right _ List.mem_cons_self, hname.symm, hcode⟩
      · rw [if_neg hname] at ht
        exact hold ht

/-! ## Creating, up to the constructor -/

/-- What is known when an instance is about to be allocated. -/
structure Prepared where
  vtable : Address
  declared : Declared
  constructor : Constructor

def prepare (files : Storage) (path : String) : Run Prepared := do
  let vtable ← resolve files (Linkage.vtableSymbol path) .vtable
  let code ← resolve files (Linkage.constructorSymbol path) .function
  let d ← Action.query (·.ofVtable vtable)
  match (← get).constructorAt? code with
  | none => Action.fail (.symbolNotFound .function (Linkage.constructorSymbol path))
  | some construct => return ⟨vtable, d, construct⟩

def construct (p : Prepared) : Run Address := do
  let object ← allocate p.vtable
  onHeap ((p.constructor ⟨p.declared.type, object⟩).mapFailure (.constructionFailed p.declared.type.path))
  return object

theorem create_eq_prepare (files : Storage) (path : String) :
    create files path = prepare files path >>= construct := by
  funext s
  simp only [create, prepare, construct, Action.run_bind]
  cases resolve files (Linkage.vtableSymbol path) .vtable s with
  | error stop s1 => rfl
  | ok vtable s1 =>
    dsimp only
    cases resolve files (Linkage.constructorSymbol path) .function s1 with
    | error stop s2 => rfl
    | ok code s2 =>
      dsimp only
      cases Action.query (·.ofVtable vtable) s2 with
      | error stop s3 => rfl
      | ok d s3 =>
        dsimp only
        rw [Action.run_get]
        dsimp only
        cases s3.constructorAt? code with
        | none => rfl
        | some c =>
          simp only [Action.run_bind]
          rfl

/-- No symbol lends the constructor of another class to `e`: of the extra symbols under the name of its constructor none
lies at the code address of another class, and those that discovery may come upon are among them. -/
structure Unlent (extra : String → Address → Prop) (s : Allocator) (files : Storage) (e : Declared) : Prop where
  apart : ∀ d ∈ s.catalog.entries, ∀ a, d.code = some a → extra e.type.constructorSymbol a → d = e
  mapped : s.settings.discoverOnMiss = true → ∀ t,
    s.registry.Claimed files (.function, e.type.constructorSymbol) t → extra e.type.constructorSymbol t.address

/-- **The name of a constructor leads to the constructor of its class**, or to none. -/
theorem constructor_own (hs : s.Admits extra) (he : e ∈ s.catalog.entries)
    (distinct : (s.catalog.entries.map fun d => d.type.mangled).Nodup) (hu : s.Unlent extra files e)
    (hsearch : Searched files s s') {code : Address} {construct : Constructor}
    (hl : s'.registry.lookup e.type.constructorSymbol .function = some code)
    (hc : s'.constructorAt? code = some construct) : e.definition.constructor = some construct := by
  obtain ⟨t, ht, rfl⟩ := Option.map_eq_some_iff.1 hl
  obtain ⟨d, hd, hconstruct⟩ := Option.bind_eq_some_iff.1 hc
  rw [hsearch.catalog] at hd
  have hdmem := List.mem_of_find?_eq_some hd
  have hdcode : d.code = some t.address := by simpa using List.find?_some hd
  have hsource : extra e.type.constructorSymbol t.address ∨
      ∃ d ∈ s.catalog.entries, d.type.constructorSymbol = e.type.constructorSymbol ∧ d.code = some t.address := by
    rcases hsearch.records e.type.constructorSymbol .function with hsame | ⟨hon, t', hclaim, ht'⟩
    · exact hs.functions _ _ (hsame.symm.trans ht)
    · obtain rfl := Option.some.inj (ht.symm.trans ht')
      exact .inl (hu.mapped hon t hclaim)
  have hde : d = e := by
    rcases hsource with hextra | ⟨d', hd', hname, hcode⟩
    · exact hu.apart d hdmem _ hdcode hextra
    · obtain rfl : d' = e := List.inj_on_of_nodup_map distinct hd' he (Linkage.constructorSymbol_inj.1 hname)
      exact hs.reachable.numbered.code_inj hs.reachable.wellFormed.entries_lt hdmem hd' hdcode hcode
  rw [← hde]
  exact hconstruct

theorem ends_prepare (hs : s.Admits extra) (he : e ∈ s.catalog.entries)
    (distinct : (s.catalog.entries.map fun d => d.type.mangled).Nodup) (hu : s.Unlent extra files e) :
    (prepare files e.type.path).Ends s
      (fun p s' => Searched files s s' ∧ e.definition.constructor = some p.constructor)
      fun stop s' => Searched files s s' ∧ ∃ cause, stop = .failure cause := by
  simp only [prepare, Action.ends_bind, Action.ends_query, Action.ends_get]
  refine (ends_resolve s files _ _).mono (fun vtable s1 h1 => ?_) fun stop s1 h1 => ⟨h1.1, h1.2.imp fun _ h => h.1⟩
  refine (ends_resolve s1 files _ _).mono (fun code s2 h2 => ?_) fun stop s2 h2 =>
    ⟨h1.1.trans h2.1, h2.2.imp fun _ h => h.1⟩
  have hsearch := h1.1.trans h2.1
  cases s2.ofVtable vtable with
  | error err => exact ⟨hsearch, err, rfl⟩
  | ok d =>
    dsimp only
    cases hcon : s2.constructorAt? code with
    | none => exact ⟨hsearch, _, rfl⟩
    | some construct => exact ⟨hsearch, constructor_own hs he distinct hu hsearch h2.2 hcon⟩

/-- The name of the class leads to the vtable of some class, and discovery, if it is sent out for the constructor, can
read the memory map. -/
structure Leads (s : Allocator) (files : Storage) (c : Class) : Prop where
  vtable : ∃ v d, s.registry.lookup c.vtableSymbol .vtable = some v ∧ s.ofVtable v = .ok d
  mapped : s.registry.lookup c.constructorSymbol .function = none → s.settings.discoverOnMiss = true →
    ∃ done, s.registry.tryRefresh files = .ok done

theorem ends_prepare_missing (hs : s.Admits extra) (he : e ∈ s.catalog.entries)
    (distinct : (s.catalog.entries.map fun d => d.type.mangled).Nodup) (hu : s.Unlent extra files e)
    (hnone : e.definition.constructor = none) (hleads : s.Leads files e.type) :
    (prepare files e.type.path).Ends s (fun _ _ => False)
      fun stop _ => stop = .failure (.symbolNotFound .function e.type.constructorSymbol) := by
  obtain ⟨v, d, hv, hd⟩ := hleads.vtable
  have hresolve : resolve files (Linkage.vtableSymbol e.type.path) .vtable s = .ok v s := resolve_of_lookup hv
  unfold prepare
  rw [Action.ends_bind, Action.Ends, hresolve]
  simp only [Action.ends_bind, Action.ends_query, Action.ends_get]
  refine (ends_resolve s files _ _).mono (fun code s' h => ?_) fun stop s' h => ?_
  · have hd' : s'.ofVtable v = .ok d := by
      rw [ofVtable, h.1.catalog, h.1.heap]
      exact hd
    rw [hd']
    dsimp only
    cases hcon : s'.constructorAt? code with
    | none => rfl
    | some construct =>
      have := constructor_own hs he distinct hu h.1 h.2 hcon
      rw [hnone] at this
      cases this
  · obtain ⟨-, cause, rfl, rfl | ⟨hl, hon, herr⟩⟩ := h
    · rfl
    · obtain ⟨done, hdone⟩ := hleads.mapped hl hon
      rw [herr] at hdone
      cases hdone

/-- **Only the constructor of the class runs**, as long as no symbol lends it another one: if an instance is created by
the path of a class, then by the constructor that the class was declared with; and if it was declared with none, the
creation fails before anything is allocated, for want of a constructor if the class itself can be found. -/
theorem create_runs_own (hs : s.Admits extra) (he : e ∈ s.catalog.entries)
    (distinct : (s.catalog.entries.map fun d => d.type.mangled).Nodup) (hu : s.Unlent extra files e) :
    create files e.type.path = prepare files e.type.path >>= construct ∧
    (prepare files e.type.path).Ends s (fun p s' => s'.heap = s.heap ∧ e.definition.constructor = some p.constructor)
      (fun stop s' => s'.heap = s.heap ∧ ∃ cause, stop = .failure cause) ∧
    (e.definition.constructor = none → (create files e.type.path).Ends s (fun _ _ => False) fun stop s' =>
      s'.heap = s.heap ∧ s'.catalog = s.catalog ∧ ∃ cause, stop = .failure cause ∧
        (s.Leads files e.type → cause = .symbolNotFound .function e.type.constructorSymbol)) := by
  have hprepare := ends_prepare hs he distinct hu
  refine ⟨create_eq_prepare .., hprepare.mono (fun p s' h => ⟨h.1.heap, h.2⟩) fun stop s' h => ⟨h.1.heap, h.2⟩,
    fun hnone => ?_⟩
  rw [create_eq_prepare, Action.ends_bind]
  have hmissing : (prepare files e.type.path).Ends s (fun _ _ => s.Leads files e.type → False) fun stop _ =>
      s.Leads files e.type → stop = .failure (.symbolNotFound .function e.type.constructorSymbol) := by
    by_cases hleads : s.Leads files e.type
    · exact (ends_prepare_missing hs he distinct hu hnone hleads).mono (fun _ _ h _ => h) fun _ _ h _ => h
    · exact hprepare.mono (fun _ _ _ h => hleads h) fun _ _ _ h => (hleads h).elim
  refine (hprepare.and hmissing).mono (fun p s' h => ?_) fun stop s' h => ?_
  · have := h.1.2
    rw [hnone] at this
    cases this
  · obtain ⟨⟨hsearch, cause, rfl⟩, hcause⟩ := h
    exact ⟨hsearch.heap, hsearch.catalog, cause, rfl, fun hl => Stop.failure.inj (hcause hl)⟩

end Allocator

/-! ## A symbol under the name of a constructor that is not there -/

namespace Lent
open Numbers

/-- A class of numbers with a constructor, and one without. -/
def declared : Allocator := Allocator.after (Allocator.declare ⟨type "m::B", none⟩) Numbers.declared

/-- The same with a symbol for the constructor that the second class does not have. -/
def withCode (code : Address) : Allocator :=
  { declared with registry := declared.registry.register (Catalog.constructorSymbol (type "m::B") code) }

/-- A code address that no class was given. -/
def elsewhere : Address := .ofNat 0x600000

theorem admits {extra : String → Address → Prop} {code : Address}
    (h : extra (type "m::B").constructorSymbol code) : (withCode code).Admits extra := by
  have hdeclared : declared.Admits extra :=
    .declare (.declare (.start _) (made (by decide)) declare_start) (made (by decide))
      (Allocator.eq_after (by decide +kernel))
  refine .registry hdeclared _ fun name t ht => ?_
  rw [Registry.get?_register] at ht
  by_cases hkey : (SymbolKind.function, name) = (Catalog.constructorSymbol (type "m::B") code).key
  · rw [if_pos hkey] at ht
    obtain rfl := Option.some.inj ht
    exact .inr ((Prod.mk.inj hkey).2 ▸ h)
  · rw [if_neg hkey] at ht
    exact .inl ht

theorem exists_entry {s : Allocator} {p : String} {b : Bool}
    (h : (s.catalog.find? p).map (·.definition.constructor.isSome) = some b) :
    ∃ e ∈ s.catalog.entries, e.type.path = p ∧ e.definition.constructor.isSome = b := by
  unfold Catalog.find? at h
  obtain ⟨e, he, hhas⟩ := Option.map_eq_some_iff.1 h
  exact ⟨e, List.mem_of_find?_eq_some he, by simpa using List.find?_some he, hhas⟩

end Lent

namespace Allocator
open Numbers

theorem create_runs_own_bare : ∃ a ∈ (Lent.withCode Lent.elsewhere).catalog.entries,
    ∃ b ∈ (Lent.withCode Lent.elsewhere).catalog.entries,
    a.type.path = "m::A" ∧ b.type.path = "m::B" ∧ b.definition.constructor = none ∧
    (∃ p s', prepare {} "m::A" (Lent.withCode Lent.elsewhere) = .ok p s' ∧
      a.definition.constructor = some p.constructor) ∧
    ∃ s', create {} "m::B" (Lent.withCode Lent.elsewhere) =
      .error (.failure (.symbolNotFound .function b.type.constructorSymbol)) s' ∧
      s'.heap = (Lent.withCode Lent.elsewhere).heap := by
  generalize hs : Lent.withCode Lent.elsewhere = s
  have hadmits : s.Admits fun _ a => a = Lent.elsewhere := hs ▸ Lent.admits rfl
  have hdistinct : (s.catalog.entries.map fun d => d.type.mangled).Nodup := hs ▸ by decide +kernel
  have hcodes : (s.catalog.entries.all fun d => d.code ≠ some Lent.elsewhere) = true := hs ▸ by decide +kernel
  have hmaps : (Storage.mappings {} s.registry.mapsPath).toOption.isNone = true := hs ▸ by decide +kernel
  have hprepared : (prepare {} "m::A").returns s = true := hs ▸ by decide +kernel
  have hvtable : s.registry.lookup (Linkage.vtableSymbol "m::B") .vtable = some (.ofNat 0x10000010) :=
    hs ▸ by decide +kernel
  have hconstructor : s.registry.lookup (Linkage.constructorSymbol "m::B") .function = some Lent.elsewhere :=
    hs ▸ by decide +kernel
  obtain ⟨d, hd, -⟩ := exists_ofVtable (s := s) (v := .ofNat 0x10000010) (c := type "m::B") (hs ▸ by decide +kernel)
  obtain ⟨a, ha, hapath, -⟩ := Lent.exists_entry (s := s) (p := "m::A") (b := true) (hs ▸ by decide +kernel)
  obtain ⟨b, hb, hbpath, hbsome⟩ := Lent.exists_entry (s := s) (p := "m::B") (b := false) (hs ▸ by decide +kernel)
  have hbnone : b.definition.constructor = none := by simpa using hbsome
  -- the name of the missing constructor leads to where no constructor is, and there is no memory map to discover more
  have hu : ∀ e, s.Unlent (fun _ a => a = Lent.elsewhere) {} e := fun e => by
    refine ⟨fun d hd a hda ha => ?_, fun _ t hclaim => ?_⟩
    · exact absurd (ha ▸ hda) (of_decide_eq_true (List.all_eq_true.1 hcodes d hd))
    · obtain ⟨ms, l, bytes, bias, hc⟩ := hclaim
      rw [hc.mapped] at hmaps
      cases hmaps
  obtain ⟨p, s₁, hp⟩ := Action.exists_of_returns hprepared
  have hown := (create_runs_own hadmits ha hdistinct (hu a)).2.1
  have hmissing := (create_runs_own hadmits hb hdistinct (hu b)).2.2 hbnone
  have hleads : s.Leads {} b.type := by
    rw [← hbpath] at hvtable hconstructor
    refine ⟨⟨.ofNat 0x10000010, d, hvtable, hd⟩, fun hnone => ?_⟩
    cases hconstructor.symm.trans hnone
  rw [hapath] at hown
  rw [hbpath] at hmissing
  refine ⟨a, ha, b, hb, hapath, hbpath, hbnone, ⟨p, s₁, hp, (hown.of_ok hp).2⟩, ?_⟩
  unfold Action.Ends at hmissing
  cases hrun : create {} "m::B" s with
  | ok o s' =>
    rw [hrun] at hmissing
    exact hmissing.elim
  | error stop s' =>
    rw [hrun] at hmissing
    obtain ⟨hheap, -, cause, rfl, hcause⟩ := hmissing
    exact ⟨s', by rw [hcause hleads], hheap⟩

/-- **A symbol can lend a constructor**: registered under the name of the one that a class does not have, at the code
address of another class, it makes that class's constructor run on a new instance. -/
theorem create_lends : (Lent.withCode Catalog.textBase).Admits (fun _ _ => True) ∧
    ((Lent.withCode Catalog.textBase).catalog.entries.map fun d => d.type.mangled).Nodup ∧
    (∃ e ∈ (Lent.withCode Catalog.textBase).catalog.entries, e.type.path = "m::B" ∧
      e.definition.constructor.isSome = false) ∧
    ∃ o s, create {} "m::B" (Lent.withCode Catalog.textBase) = .ok o s ∧
      s.heap.blockCount = (Lent.withCode Catalog.textBase).heap.blockCount + 1 ∧
      Instance.readInt ⟨type "m::B", o⟩ s.heap "x" = .ok 1 := by
  refine ⟨Lent.admits trivial, by decide +kernel, Lent.exists_entry (by decide +kernel), .ofNat 0x10000020, _,
    eq_after (by decide +kernel), by decide +kernel, by decide +kernel⟩

end Allocator
end Introspect
