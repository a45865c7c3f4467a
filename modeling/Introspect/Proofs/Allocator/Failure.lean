import Introspect.Proofs.Allocator.Construction
import Introspect.Proofs.Allocator.Vtables
/-!
# What a failed creation leaves behind

An instance is created in two parts: everything that can be missing is looked up and then the block is allocated
(`instantiate`), and the constructor is run on it (`initialise`).  A failure of the first part comes before the
allocation, so all that it can leave behind is what discovery brought into the registry; and where the second part is
begun, there is one block more than before, zero but for the vtable.
-/
namespace Introspect

theorem Registry.reason_of_tryRefresh {r : Registry} {files : Storage} {cause : Error}
    (h : r.tryRefresh files = .error cause) : ∃ reason, cause = .memoryMapUnavailable r.mapsPath reason := by
  unfold tryRefresh Storage.mappings at h
  cases hread : files.read r.mapsPath with
  | error e =>
    rw [hread] at h
    exact ⟨_, (Except.error.inj h).symm⟩
  | ok bytes =>
    rw [hread] at h
    dsimp only at h
    cases hms : Mapping.ofBytes? bytes.toList with
    | none =>
      rw [hms] at h
      exact ⟨_, (Except.error.inj h).symm⟩
    | some ms =>
      rw [hms] at h
      cases h

namespace Allocator

variable {s s' s'' : Allocator} {files : Storage} {path : String}

namespace Refreshed

theorem heap (h : Refreshed files s s') : s'.heap = s.heap := h.searched.heap

theorem catalog (h : Refreshed files s s') : s'.catalog = s.catalog := h.searched.catalog

theorem ofVtable (h : Refreshed files s s') (v : Address) : s'.ofVtable v = s.ofVtable v := by
  rw [Allocator.ofVtable, h.heap, h.catalog]
  rfl

theorem sound (h : Refreshed files s s') (hs : s.Sound) : s'.Sound :=
  ⟨h.heap ▸ hs.arranged, h.catalog ▸ hs.built⟩

end Refreshed

/-! ## The two parts of a creation -/

def instantiate (files : Storage) (path : String) : Run (Prepared × Address) := do
  let p ← prepare files path
  return (p, ← allocate p.vtable)

def initialise (p : Prepared) (o : Address) : Run Address := do
  onHeap ((p.constructor ⟨p.declared.type, o⟩).mapFailure (.constructionFailed p.declared.type.path))
  return o

theorem create_eq_instantiate (files : Storage) (path : String) :
    create files path = instantiate files path >>= fun made => initialise made.1 made.2 := by
  rw [create_eq_prepare]
  funext s
  simp only [instantiate, construct, initialise, Action.run_bind]
  cases prepare files path s with
  | error stop s1 => rfl
  | ok p s1 =>
    dsimp only
    cases allocate p.vtable s1 <;> rfl

/-- Why a creation fails before the constructor is run. -/
inductive Early (s : Allocator) (path : String) : Error → Prop where
  | noVtable : Early s path (.symbolNotFound .vtable (Linkage.vtableSymbol path))
  /-- There is no such symbol, or no class has its constructor where the symbol leads. -/
  | noConstructor : Early s path (.symbolNotFound .function (Linkage.constructorSymbol path))
  | noMap (reason : String) : Early s path (.memoryMapUnavailable s.registry.mapsPath reason)
  | noClass (v : Address) : Early s path (.unknownVtable v)

theorem Missed.early {name : String} {kind : SymbolKind} {stop : Stop Error} (h : Missed files name kind s stop)
    (hname : Early s path (.symbolNotFound kind name)) : ∃ cause, stop = .failure cause ∧ Early s path cause := by
  obtain ⟨cause, rfl, rfl | ⟨-, -, hmap⟩⟩ := h
  · exact ⟨_, rfl, hname⟩
  · obtain ⟨reason, rfl⟩ := Registry.reason_of_tryRefresh hmap
    exact ⟨_, rfl, .noMap reason⟩

/-- What fails in a refreshed state fails for a reason that counts before. -/
theorem Early.refreshed {cause : Error} (he : Early s' path cause) (h : Refreshed files s s') : Early s path cause := by
  cases he with
  | noVtable => exact .noVtable
  | noConstructor => exact .noConstructor
  | noMap reason => exact h.searched.onward.mapsPath ▸ .noMap reason
  | noClass v => exact .noClass v

/-- Nothing has been built: the registry has been refreshed at most, and what was missing is named, or memory is used
up. -/
structure Unbuilt (files : Storage) (s : Allocator) (path : String) (stop : Stop Error) (s' : Allocator) : Prop where
  refreshed : Refreshed files s s'
  cause : (∃ cause, stop = .failure cause ∧ Early s path cause) ∨ ∃ f, stop = .fault f

theorem Unbuilt.of_failure {stop : Stop Error} {cause : Error} (h : Unbuilt files s path stop s')
    (hcause : stop = .failure cause) :
    s'.heap = s.heap ∧ s'.catalog = s.catalog ∧ Refreshed files s s' ∧ Early s path cause := by
  obtain ⟨h, ⟨early, rfl, hearly⟩ | ⟨f, rfl⟩⟩ := h
  · exact ⟨h.heap, h.catalog, h, Stop.failure.inj hcause ▸ hearly⟩
  · cases hcause

theorem prepare_refreshes (s : Allocator) (files : Storage) (path : String) :
    (prepare files path).Ends s (fun p s' => Refreshed files s s' ∧ s.ofVtable p.vtable = .ok p.declared)
      (Unbuilt files s path) := by
  simp only [prepare, Action.ends_bind, Action.ends_query, Action.ends_get]
  refine (resolve_refreshes s files _ _).mono (fun vtable s1 h1 => ?_) fun stop s1 hmiss =>
    ⟨hmiss.1, .inl (hmiss.2.early .noVtable)⟩
  refine (resolve_refreshes s1 files _ _).mono (fun code s2 h2 => ?_) fun stop s2 hmiss => ?_
  · have h := h1.1.trans h2.1
    rw [h.ofVtable]
    cases hd : s.ofVtable vtable with
    | error cause =>
      obtain rfl := Catalog.ofVtable_error hd
      exact ⟨h, .inl ⟨_, rfl, .noClass vtable⟩⟩
    | ok d =>
      dsimp only
      cases s2.constructorAt? code with
      | none => exact ⟨h, .inl ⟨_, rfl, .noConstructor⟩⟩
      | some construct => exact ⟨h, hd⟩
  · obtain ⟨h2, hmiss⟩ := hmiss
    obtain ⟨cause, rfl, hearly⟩ := hmiss.early .noConstructor
    exact ⟨h1.1.trans h2, .inl ⟨cause, rfl, hearly.refreshed h1.1⟩⟩

theorem Refreshed.ends_allocate (h : Refreshed files s s') (hs : s.Sound) (path : String) (v : Address) :
    (allocate v).Ends s' (fun o s'' => ∃ d, s.ofVtable v = .ok d ∧ s'.Allocated v o d s'') (Unbuilt files s path) := by
  refine ((h.sound hs).allocates v).mono (fun o s'' hallocated => ?_) fun stop s'' hstop => ?_
  · exact h.ofVtable v ▸ hallocated
  · obtain ⟨rfl, rfl | ⟨-, -, hfault, -⟩⟩ := hstop
    · exact ⟨h, .inl ⟨_, rfl, .noClass v⟩⟩
    · exact ⟨h, .inr hfault⟩

/-- The first part has looked everything up, and then added a block to a heap that was as it had been before. -/
structure Instantiated (files : Storage) (s : Allocator) (p : Prepared) (o : Address) (s' : Allocator) : Prop where
  known : p.declared ∈ s.catalog.entries
  vtable : p.declared.vtable = p.vtable
  allocated : ∃ s₁, Refreshed files s s₁ ∧ s₁.Allocated p.vtable o p.declared s'

theorem ends_instantiate (hs : s.Sound) (files : Storage) (path : String) :
    (instantiate files path).Ends s (fun made s' => Instantiated files s made.1 made.2 s') (Unbuilt files s path) := by
  simp only [instantiate, Action.ends_bind, Action.ends_pure]
  refine (prepare_refreshes s files path).mono (fun p s1 hp => ?_) fun _ _ h => h
  obtain ⟨h, hd⟩ := hp
  obtain ⟨hmem, hv⟩ := Catalog.mem_of_ofVtable hd
  refine (h.ends_allocate hs path p.vtable).mono (fun o s2 hallocated => ?_) fun _ _ h => h
  obtain ⟨d, hd', hallocated⟩ := hallocated
  obtain rfl : d = p.declared := Except.ok.inj (hd'.symm.trans hd)
  exact ⟨hmem, hv, s1, h, hallocated⟩

/-- **The second part fails only in the constructor.** -/
theorem ends_initialise (s : Allocator) (p : Prepared) (o : Address) :
    (initialise p o).Ends s (fun _ _ => True) fun stop _ => ∀ cause, stop = .failure cause →
      ∃ reason, cause = .constructionFailed p.declared.type.path reason := by
  simp only [initialise, onHeap, Action.ends_bind, Action.ends_on, Action.ends_mapFailure, Action.ends_pure]
  unfold Action.Ends
  rcases p.constructor ⟨p.declared.type, o⟩ s.heap with ⟨_, h⟩ | ⟨reason | f, h⟩
  · trivial
  · exact fun cause hcause => ⟨reason, (Stop.failure.inj hcause).symm⟩
  · exact fun cause hcause => by cases hcause

theorem ends_createRaw (hs : s.Sound) (files : Storage) (path : String) :
    (createRaw files path).Ends s
      (fun o s' => ∃ s₁, Refreshed files s s₁ ∧ ∃ d ∈ s.catalog.entries, s₁.Allocated d.vtable o d s')
      (Unbuilt files s path) := by
  simp only [createRaw, Action.ends_bind]
  refine (resolve_refreshes s files _ _).mono (fun v s1 h => ?_) fun stop s1 hmiss =>
    ⟨hmiss.1, .inl (hmiss.2.early .noVtable)⟩
  refine (h.1.ends_allocate hs path v).mono (fun o s2 hallocated => ?_) fun _ _ h => h
  obtain ⟨d, hd, hallocated⟩ := hallocated
  obtain ⟨hmem, rfl⟩ := Catalog.mem_of_ofVtable hd
  exact ⟨s1, h.1, d, hmem, hallocated⟩

/-- **A creation that fails has built nothing**, unless it was the constructor that failed: heap and catalog are as
before, and the registry has been refreshed at most.  Creating without a constructor builds nothing whenever it fails.
And when a constructor is run, it finds one block more than there was: of the size of its class, zero but for the vtable
in its first word.  Of the heap this asks only that it is in order. -/
theorem failure_builds_nothing (hs : s.Sound) (files : Storage) (path : String) :
    (create files path).Ends s (fun _ _ => True) (fun stop s' => ∀ cause, stop = .failure cause →
      (∀ c reason, cause ≠ .constructionFailed c reason) →
        s'.heap = s.heap ∧ s'.catalog = s.catalog ∧ Refreshed files s s' ∧ Early s path cause) ∧
    (createRaw files path).Ends s (fun _ _ => True) (fun stop s' => ∀ cause, stop = .failure cause →
      s'.heap = s.heap ∧ s'.catalog = s.catalog ∧ Refreshed files s s' ∧ Early s path cause) ∧
    create files path = (instantiate files path >>= fun made => initialise made.1 made.2) ∧
    (instantiate files path).Ends s (fun made s' => Instantiated files s made.1 made.2 s' ∧
        s'.heap.blocks = ⟨made.2, Catalog.freshBytes made.1.vtable made.1.declared.type.size⟩ :: s.heap.blocks ∧
        s'.catalog = s.catalog)
      fun _ s' => s'.heap = s.heap ∧ s'.catalog = s.catalog ∧ Refreshed files s s' := by
  have hfirst := ends_instantiate hs files path
  refine ⟨?_, ?_, create_eq_instantiate files path, ?_⟩
  · rw [create_eq_instantiate, Action.ends_bind]
    refine hfirst.mono (fun made s1 _ => ?_) fun stop s1 hunbuilt cause hcause _ => hunbuilt.of_failure hcause
    refine (ends_initialise s1 made.1 made.2).mono (fun _ _ _ => trivial) fun stop s2 hstop cause hcause hne => ?_
    obtain ⟨reason, rfl⟩ := hstop cause hcause
    exact absurd rfl (hne _ _)
  · exact (ends_createRaw hs files path).mono (fun _ _ _ => trivial) fun stop s1 hunbuilt cause hcause =>
      hunbuilt.of_failure hcause
  · refine hfirst.mono (fun made s1 hmade => ?_) fun stop s1 hunbuilt =>
      ⟨hunbuilt.refreshed.heap, hunbuilt.refreshed.catalog, hunbuilt.refreshed⟩
    obtain ⟨s₁, h, hallocated⟩ := hmade.allocated
    have hrest := hallocated.rest
    refine ⟨hmade, hallocated.blocks.trans (by rw [h.heap]), ?_⟩
    rw [hrest]
    exact h.catalog

/-- A memory map in which no file is mapped. -/
def emptyMap : Storage := Storage.write {} "maps" #[]

/-- Behind the name of a declared class its constructor finds one block more; a name that discovery does not come upon
leads to a failure, and nothing is built.  Nor is it on an empty heap in the place of the one with the vtable. -/
theorem failure_builds_nothing_declared : Numbers.declared.Reachable ∧
    (∃ made s', instantiate emptyMap "m::A" Numbers.declared = .ok made s' ∧ s'.heap.blocks =
      ⟨made.2, Catalog.freshBytes made.1.vtable made.1.declared.type.size⟩ :: Numbers.declared.heap.blocks) ∧
    (∃ s', create emptyMap "m::B" Numbers.declared =
        .error (.failure (.symbolNotFound .vtable (Linkage.vtableSymbol "m::B"))) s' ∧
      s'.heap = Numbers.declared.heap ∧ s'.catalog = Numbers.declared.catalog) ∧
    (∃ s', createRaw emptyMap "m::B" Numbers.declared =
        .error (.failure (.symbolNotFound .vtable (Linkage.vtableSymbol "m::B"))) s' ∧
      s'.heap = Numbers.declared.heap ∧ s'.catalog = Numbers.declared.catalog) ∧
    ∃ s', create emptyMap "m::A" { Numbers.declared with heap := {} } =
        .error (.failure (.unknownVtable (.ofNat 0x10000000))) s' ∧
      s'.heap = {} ∧ s'.catalog = Numbers.declared.catalog := by
  have hs : Numbers.declared.Reachable := .declare (.start _ _) (Numbers.made (by decide)) Numbers.declare_start
  have hreturns : (instantiate emptyMap "m::A").returns Numbers.declared = true := by decide +kernel
  have hcreate : (create emptyMap "m::B").failure? Numbers.declared =
      some (.symbolNotFound .vtable (Linkage.vtableSymbol "m::B")) := by decide +kernel
  have hcreateRaw : (createRaw emptyMap "m::B").failure? Numbers.declared =
      some (.symbolNotFound .vtable (Linkage.vtableSymbol "m::B")) := by decide +kernel
  have hreplaced : (create emptyMap "m::A").failure? { Numbers.declared with heap := {} } =
      some (.unknownVtable (.ofNat 0x10000000)) := by decide +kernel
  obtain ⟨made, s₁, hmade⟩ := Action.exists_of_returns hreturns
  obtain ⟨s₂, hfailed⟩ := Action.exists_of_failure? hcreate
  obtain ⟨s₃, hraw⟩ := Action.exists_of_failure? hcreateRaw
  obtain ⟨s₄, hempty⟩ := Action.exists_of_failure? hreplaced
  obtain ⟨hbuilt, hunbuilt, -, -⟩ := failure_builds_nothing hs.sound emptyMap "m::B"
  obtain ⟨-, -, -, hfirst⟩ := failure_builds_nothing hs.sound emptyMap "m::A"
  obtain ⟨hother, -, -, -⟩ := failure_builds_nothing (hs.sound.replace .empty) emptyMap "m::A"
  simp only [Action.Ends, hfailed] at hbuilt
  simp only [Action.Ends, hraw] at hunbuilt
  simp only [Action.Ends, hempty] at hother
  obtain ⟨h2, h2', -⟩ := hbuilt _ rfl fun c reason h => by cases h
  obtain ⟨h3, h3', -⟩ := hunbuilt _ rfl
  obtain ⟨h4, h4', -⟩ := hother _ rfl fun c reason h => by cases h
  exact ⟨hs, ⟨made, s₁, hmade, (hfirst.of_ok hmade).2.1⟩, ⟨s₂, hfailed, h2, h2'⟩, ⟨s₃, hraw, h3, h3'⟩, s₄, hempty, h4,
    h4'⟩

end Allocator
end Introspect
