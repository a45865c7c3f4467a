import Introspect.Proofs.Duplicate.Isomorphism
/-!
# What a deep copy does, and how often

A deep copy does one job for each object that the value reaches, and takes the blocks of `demand` and no others
(`deepCopy_accounts`).  That no object is copied a second time needs no invariant: an object is put on record only where
it has just been looked up there and not been found (`once_deepCopyJobs`).
-/
namespace Introspect

/-! ## No object twice -/

namespace Action

variable {σ τ α β : Type}

/-- The action never ends because an object has been copied a second time. -/
def Once (x : Action Error σ α) : Prop :=
  ∀ s, x.Ends s (fun _ _ => True) fun stop _ => ∀ source, stop ≠ .fault (.copiedTwice source)

namespace Once

theorem pure (a : α) : (Pure.pure a : Action Error σ α).Once := fun _ => trivial

theorem fail (cause : Error) : (Action.fail cause : Action Error σ α).Once := fun _ _ h => by cases h

theorem bind {x : Action Error σ β} {f : β → Action Error σ α} (hx : x.Once) (hf : ∀ b, (f b).Once) : (x >>= f).Once :=
  fun s => (ends_bind x f).2 ((hx s).mono (fun b s' _ => hf b s') fun _ _ h => h)

theorem query (f : σ → Except Error α) : (Action.query f).Once := fun s => by
  rw [ends_query]
  cases f s with
  | ok a => trivial
  | error e => exact fun _ h => by cases h

theorem modifyM (f : σ → Except Error σ) : (Action.modifyM f).Once := fun s => by
  rw [ends_modifyM]
  cases f s with
  | ok s' => trivial
  | error e => exact fun _ h => by cases h

theorem on {x : Action Error σ α} (part : τ → σ) (put : τ → σ → τ) (hx : x.Once) : (x.on part put).Once :=
  fun t => (ends_on part put x).2 (hx (part t))

end Once

end Action

namespace Heap

theorem fault_of_allocate {h : Heap} {size : Nat} {f : Fault} (hx : h.allocate size = .error f) :
    f = .additionOverflow ∨ f = .capacityOverflow ∨ f = .outOfMemory size := by
  unfold allocate at hx
  by_cases h16 : (h.next + max size 1).toNat + 16 < 2 ^ 64
  · rw [Address.alignUp_sixteen h16] at hx
    simp only [bind, Except.bind] at hx
    split at hx
    · exact .inr (.inl (Except.error.inj hx).symm)
    · split at hx
      · exact .inr (.inr (Except.error.inj hx).symm)
      · cases hx
  · rw [Address.alignUp_sixteen_fails h16] at hx
    exact .inl (Except.error.inj hx).symm

theorem once_newBlock (size : Nat) : (newBlock size).Once := fun h => by
  rw [ends_newBlock]
  cases hx : h.allocate size with
  | ok r => trivial
  | error f => rcases fault_of_allocate hx with rfl | rfl | rfl <;> exact fun _ hf => by cases hf

theorem once_newSlice (size : Nat) (length : UInt64) : (newSlice size length).Once := by
  unfold newSlice
  split
  · exact .pure _
  · split
    · exact .fail _
    · exact .bind (once_newBlock _) fun _ => .pure _

theorem once_writeSlice (a : Address) (s : Slice) : (writeSlice a s).Once :=
  .bind (.modifyM _) fun _ => .modifyM _

end Heap

theorem Catalog.once_newInstance (c : Catalog) (vtable : Address) : (c.newInstance vtable).Once :=
  .bind (.query _) fun _ => .bind (Heap.once_newBlock _) fun _ => .bind (.modifyM _) fun _ => .pure _

namespace Traversal

variable (c : Catalog)

/-- An object comes on record where it has just been missed there, and making its instance puts nothing on record. -/
theorem once_copyObject (source : Address) : (copyObject c source).Once := fun t => by
  simp only [copyObject, Action.ends_bind, Action.ends_get]
  cases hf : t.duplicator.identity.find? source with
  | some target => trivial
  | none =>
    simp only [Action.ends_bind, Action.ends_query]
    cases t.heap.readAddress (source + Class.vtableOffset) with
    | error e => exact fun _ h => by cases h
    | ok vtable =>
      dsimp only
      cases c.ofVtable t.heap vtable with
      | error e => exact fun _ h => by cases h
      | ok d =>
        simp only [onHeap, Action.ends_on]
        refine (Catalog.once_newInstance c vtable t.heap).mono (fun target h _ => ?_) fun _ _ h => h
        simp only [onIdentity, push, Action.ends_on, IdentityMap.record, Action.ends_bind, Action.ends_get,
          Action.ends_modify, hf, Option.isSome_none, Bool.false_eq_true, if_false, Action.ends_pure]

/-- **No step copies an object twice**, and so neither does the copy of a piece. -/
theorem once_steps : Steps c fun _ x => x.Once where
  pure := .pure
  bind := .bind
  query := .query
  modify f := .on _ _ (.modifyM f)
  newSlice size length := .on _ _ (Heap.once_newSlice size length)
  writeSlice a s := .on _ _ (Heap.once_writeSlice a s)
  copyObject := once_copyObject c

theorem once_pop? : pop?.Once := fun t => by
  simp only [pop?, Action.ends_bind, Action.ends_get]
  cases t.duplicator.pending <;> trivial

theorem once_drained : ∀ n, (drained c n).Once
  | 0 => .pure _
  | n + 1 => by
    refine .bind once_pop? fun j? => ?_
    cases j? with
    | none => exact .pure _
    | some j =>
      exact .bind ((once_steps c).finish j) fun _ => .bind (once_drained n) fun _ => .pure _

theorem once_copyHead (v : Value) : (copyHead c v).Once := by
  cases v with
  | scalar bytes => exact .pure _
  | object target =>
    cases target with
    | none => exact .pure _
    | some source => exact .bind (once_copyObject c source) fun _ => .pure _
  | aggregate source layout =>
    refine .bind (.on _ _ (Heap.once_newBlock _)) fun target => .bind ?_ fun _ => .pure _
    rw [copyAggregate_eq]
    exact (once_steps c).copyShape _ _ _
  | slice s element =>
    by_cases hcop : element.isCopiable = true
    · simp only [copyHead, if_pos hcop]
      exact .bind ((once_steps c).copySlice s ((once_steps c).copyShape element)) fun _ => .pure _
    · simp only [copyHead, if_neg hcop]
      exact .fail _

theorem once_copyWhole (v : Value) : (copyWhole c v).Once :=
  .bind (once_copyHead c v) fun _ => .bind (once_drained c _) fun _ => .pure _

end Traversal

namespace Allocator

variable {s : Allocator} {v : Value}

/-! ## The jobs of a copy -/

/-- A deep copy, with the jobs that it has done, in their order, and those that it has left undone. -/
def deepCopyJobs (v : Value) : Run (Value × List Job × List Job) := fun s =>
  match Traversal.copyWhole s.catalog v ⟨s.heap, {}⟩ with
  | .ok (copy, done) t => .ok (copy, done, t.queue) { s with heap := t.heap }
  | .error e t => .error e { s with heap := t.heap }

theorem ends_deepCopyJobs {ok : Value × List Job × List Job → Allocator → Prop} {stop : Stop Error → Allocator → Prop} :
    (deepCopyJobs v).Ends s ok stop ↔ (Traversal.copyWhole s.catalog v).Ends ⟨s.heap, {}⟩
      (fun done t => ok (done.1, done.2, t.queue) { s with heap := t.heap })
      fun e t => stop e { s with heap := t.heap } := by
  simp only [Action.Ends, deepCopyJobs]
  rcases Traversal.copyWhole s.catalog v ⟨s.heap, {}⟩ with ⟨done, t⟩ | ⟨e, t⟩ <;> rfl

theorem deepCopy_eq_jobs (v : Value) : deepCopy v = deepCopyJobs v >>= fun done => pure done.1 := by
  funext s
  simp only [deepCopy, Duplicator.deepCopy, Traversal.deepCopy, deepCopyJobs, Action.run_bind, Action.run_get, Action.on,
    Traversal.copyRoot_eq s.catalog v (t := ⟨s.heap, {}⟩) rfl]
  rcases Traversal.copyWhole s.catalog v ⟨s.heap, {}⟩ with ⟨done, t⟩ | ⟨e | f, t⟩ <;> rfl

/-- **No deep copy ends because an object was copied twice**, whatever is on the heap. -/
theorem once_deepCopyJobs (v : Value) : (deepCopyJobs v).Once := fun s =>
  ends_deepCopyJobs.2 ((Traversal.once_copyWhole s.catalog v ⟨s.heap, {}⟩).mono (fun _ _ _ => trivial) fun _ _ h => h)

/-- A slice without a copy leads to nothing but handles. -/
theorem Reaches.not_object {sl : Slice} {e : Shape} (hcop : e.isCopiable = false) {x : Address} :
    ¬ s.Reaches (.slice sl e) (.object x) := fun hr => by
  suffices h : ∀ spot, s.Reaches (.slice sl e) spot → (∃ sl e, spot = .slice sl e ∧ e.isCopiable = false) ∨
      ∃ shape a, spot = .piece shape a ∧ shape.isCopiable = false by
    rcases h _ hr with ⟨_, _, h, -⟩ | ⟨_, _, h, -⟩ <;> cases h
  intro spot hspot
  induction hspot with
  | root hv | rootAggregate hv => cases hv
  | rootSlice hv =>
    cases hv
    exact .inl ⟨sl, e, rfl, hcop⟩
  | field _ _ _ ih => rcases ih with ⟨_, _, h, -⟩ | ⟨_, _, h, -⟩ <;> cases h
  | part _ _ ih | reference _ _ _ ih =>
    rcases ih with ⟨_, _, h, -⟩ | ⟨_, _, h, hno⟩ <;> cases h
    cases hno
  | header _ _ ih =>
    rcases ih with ⟨_, _, h, -⟩ | ⟨_, _, h, hno⟩ <;> cases h
    exact .inl ⟨_, _, rfl, hno⟩
  | element _ _ _ ih =>
    rcases ih with ⟨_, _, h, hno⟩ | ⟨_, _, h, -⟩ <;> cases h
    exact .inr ⟨_, _, rfl, hno⟩

/-- What a deep copy has done when it returns: one job for each object that the value reaches, with none left over, and
the blocks that were foreseen have come in, no others. -/
structure Accounted (s : Allocator) (v : Value) (done left : List Job) (s' : Allocator) : Prop where
  drained : left = []
  distinct : (done.map Job.source).Nodup
  reached : ∀ x, x ∈ done.map Job.source ↔ s.Reaches v (.object x)
  blocks : ∃ new, s'.heap.outline = new ++ s.heap.outline ∧ (new.map Prod.snd : List Nat) = s.demand v

theorem Resolves.accounted (hs : s.Sound) (hv : v.Made) (hr : s.Resolves v) :
    (deepCopyJobs v).Ends s (fun done s' => s.Accounted v done.2.1 done.2.2 s')
      fun e _ => (∃ f, e = .fault f) ∧ ¬ Heap.Room (s.total v) ∨ (∃ err, e = .failure err) ∧ s.Flaw v := by
  refine ends_deepCopyJobs.2 ((copyWhole_spec hs hv hr.settled).mono (fun done t h => ?_) fun e t h => h.cause)
  obtain ⟨⟨-, hsizes⟩, g, hq, hsources⟩ := h
  have hmem : ∀ x, x ∈ done.2.map Job.source ↔ x ∈ s.objects v := fun x => by
    rw [← Multiset.mem_coe, hsources, Finset.mem_val]
  obtain ⟨new, hnew⟩ := g.outline
  refine ⟨hq, ?_, fun x => ?_, new, hnew.symm, ?_⟩
  · rw [← Multiset.coe_nodup, hsources]
    exact (s.objects v).nodup
  · rw [hmem, mem_objects]
    exact ⟨And.left, fun hx => ⟨hx, hr.objects x hx⟩⟩
  · rw [Heap.sizes_eq, ← hnew, List.map_append, ← Multiset.coe_add, total, Heap.sizes_eq, add_comm] at hsizes
    exact add_left_cancel hsizes

/-- **A deep copy ends, and does what the graph needs.**  Where all that the value reaches resolves, a copy that returns
has drained the queue in one job for each object that is reached, and has taken just the blocks of `demand`.  It stops
only where these blocks do not fit into memory, and a slice that cannot be copied is refused before anything is taken.
On no way out has an object been copied twice. -/
theorem deepCopy_accounts (hs : s.Sound) (hv : v.Made) (hr : s.Resolves v) :
    deepCopy v = (deepCopyJobs v >>= fun done => pure done.1) ∧
    (deepCopyJobs v).Ends s (fun done s' => s.Accounted v done.2.1 done.2.2 s')
      fun e s' => (∀ x, e ≠ .fault (.copiedTwice x)) ∧
        ((∃ f, e = .fault f) ∧ ¬ Heap.Room (s.total v) ∨
          ∃ sl el reason, v = .slice sl el ∧ el.isCopiable = false ∧ e = .failure (.invalidLayout reason) ∧ s' = s ∧
            ∀ x, ¬ s.Reaches v (.object x)) := by
  refine ⟨deepCopy_eq_jobs v, ?_⟩
  by_cases hcop : ∃ sl el, v = .slice sl el ∧ el.isCopiable = false
  · obtain ⟨sl, el, rfl, hno⟩ := hcop
    have hfalse : ¬ el.isCopiable = true := by rw [hno]; decide
    refine ends_deepCopyJobs.2 ((Action.ends_bind _ _).2 ?_)
    rw [Traversal.copyHead, if_neg hfalse, Action.ends_fail]
    refine ⟨fun _ h => ?_, .inr ⟨sl, el, _, rfl, hno, rfl, rfl, fun x => Reaches.not_object hno⟩⟩
    cases h
  · refine ((hr.accounted hs hv).and (once_deepCopyJobs v s)).mono (fun _ _ h => h.1) fun e s' h => ?_
    exact ⟨h.2, .inl (h.1.resolve_right fun hf => hcop (hr.uncopiable hf.2))⟩

/-- A pair that refers to itself and to a leaf is intact, and a copy of it comes back. -/
theorem deepCopy_accounts_pair : ∃ copy done left s',
    deepCopyJobs (.object (some Pair.root)) (Pair.state Pair.root) = .ok (copy, done, left) s' ∧
    (Pair.state Pair.root).Accounted (.object (some Pair.root)) done left s' := by
  have hs := (Pair.reachable Pair.root).sound
  have hr : (Pair.state Pair.root).Resolves (.object (some Pair.root)) := Pair.intact.resolves hs trivial
  have hrun : (deepCopyJobs (.object (some Pair.root))).returns (Pair.state Pair.root) = true := by decide +kernel
  obtain ⟨⟨copy, done, left⟩, s', hdone⟩ := Action.exists_of_returns hrun
  exact ⟨copy, done, left, s', hdone, (deepCopy_accounts (v := .object (some Pair.root)) hs trivial hr).2.of_ok hdone⟩

end Allocator
end Introspect
