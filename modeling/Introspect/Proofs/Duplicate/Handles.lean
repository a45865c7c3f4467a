import Introspect.Proofs.Duplicate.Frame
import Introspect.Proofs.Layout.Copiable
/-!
# No handle is copied as a value

Copying a piece has a case for a handle, in which the bare bytes are copied.  No deep copy comes to it.  To say so, the
case is given away: `copyShapeWith atHandle` does `atHandle` there, and `deepCopyWith atHandle` is a deep copy with these
pieces.  Whatever `atHandle` does, be it that it writes, queues jobs or stops for a reason of its own, a deep copy of
what the builders have made is the same run: the same answer or stop, and the same state.

A deep copy comes to a piece by three ways: the value itself, a field of an object, and what lies inside another piece.
A slice and a field are asked first whether they can be copied, an aggregate was asked when it was laid out, and that
answers for all that lies inside, because the test is exact.  A field of an object that cannot be copied is no piece: its
bytes are copied where the object is finished.
-/
namespace Introspect

/-- The shape of the storage that a value has of its own. -/
def Value.stored? : Value → Option Shape
  | .aggregate _ layout => some (.aggregate layout)
  | .slice _ element => some element
  | .scalar _ | .object _ => none

theorem Value.Made.stored {v : Value} (hv : v.Made) {shape : Shape} (h : shape ∈ v.stored?) : shape.Made := by
  cases v with
  | aggregate a layout => exact Option.some.inj h ▸ hv
  | slice sl element => exact Option.some.inj h ▸ hv
  | scalar bytes => cases h
  | object target => cases h

namespace Traversal

/-! ## Another case for handles -/

section

variable (atHandle : Nat → Address → Address → Run Unit) (c : Catalog)

mutual

/-- Copy a piece, with `atHandle` for the handles in it. -/
def copyShapeWith : Shape → Address → Address → Run Unit
  | .handle size, source, target => atHandle size source target
  | .aggregate layout, source, target => copyAggregateWith layout source target
  | .slice element, source, target => do
    let s ← Action.query fun t => t.heap.readSlice source
    let copy ← copySliceWith element.size (copyShapeWith element) s
    onHeap (Heap.writeSlice target copy)
  | shape, source, target => copyShape c shape source target

def copyAggregateWith : Aggregate → Address → Address → Run Unit
  | .mk _ fields _ _, source, target => copyFieldsWith fields source target

def copyFieldsWith : Fields → Address → Address → Run Unit
  | .nil, _, _ => pure ()
  | .cons _ offset shape rest, source, target => do
    copyShapeWith shape (source + offset) (target + offset)
    copyFieldsWith rest source target

end

end

/-- The bytes of a handle, as they are. -/
def copyBytes (size : Nat) (source target : Address) : Run Unit := onHeap (Action.modifyM (·.copy source target size))

/-! ## The rest of a copy, whatever copies the pieces -/

section

variable (copy : Shape → Address → Address → Run Unit) (c : Catalog)

def copyFieldBy (j : Job) (f : Field) : Run Unit :=
  if f.shape.isCopiable then copy f.shape (j.source + f.offset) (j.target + f.offset)
  else onHeap (Action.modifyM (·.copy (j.source + f.offset) (j.target + f.offset) f.shape.size))

def finishBy (j : Job) : Run Unit := j.type.ancestry.forM fun l => l.fields.forM (copyFieldBy copy j)

def drainBy : Nat → Run Unit
  | 0 => pure ()
  | n + 1 => do
    match ← pop? with
    | none => pure ()
    | some j => do
      finishBy copy j
      drainBy n

def copyRootBy (v : Value) : Run Value := do
  match v with
  | .scalar _ | .object none => return v
  | .object (some source) =>
    let target ← copyObject c source
    drainBy copy Text.wordLimit
    return .object (some target)
  | .aggregate source layout =>
    let target ← onHeap (Heap.newBlock layout.size)
    copy (.aggregate layout) source target
    drainBy copy Text.wordLimit
    return .aggregate target layout
  | .slice s element =>
    if element.isCopiable then
      let new ← copySliceWith element.size (copy element) s
      drainBy copy Text.wordLimit
      return .slice new element
    else Action.fail (.invalidLayout s!"slice of {element.display} cannot be copied")

end

/-- A copy, and the record and the queue dropped after it. -/
def purged (x : Run Value) : Run Value := fun t =>
  match x t with
  | .ok copy t => .ok copy { t with duplicator := {} }
  | .error (.failure e) t => .error (.failure e) { t with duplicator := {} }
  | .error (.fault e) t => .error (.fault e) t

theorem purged_congr {x y : Run Value} {t : Traversal} (h : x t = y t) : purged x t = purged y t := by
  simp only [purged, h]

/-! ## One piece -/

section

variable {atHandle : Nat → Address → Address → Run Unit} {c : Catalog}

theorem copyFieldsWith_eq : ∀ {fs : Fields}, (∀ f ∈ fs.toList, copyShapeWith atHandle c f.shape = copyShape c f.shape) →
    copyFieldsWith atHandle c fs = copyFields c fs
  | .nil, _ => rfl
  | .cons name offset shape rest, h => by
    funext source target
    rw [copyFieldsWith, copyFields, h ⟨name, offset, shape⟩ List.mem_cons_self,
      copyFieldsWith_eq fun f hf => h f (List.mem_cons_of_mem _ hf)]

/-- **A piece is copied alike** if the same is done with each handle that occurs in it. -/
theorem copyShapeWith_eq {shape : Shape} (h : ∀ n, (Shape.handle n).OccursIn shape → atHandle n = copyBytes n) :
    copyShapeWith atHandle c shape = copyShape c shape := by
  induction shape using Shape.induction with
  | scalar n => rfl
  | object => rfl
  | handle n =>
    funext source target
    rw [copyShapeWith, copyShape, h n .self]
    rfl
  | slice e ih =>
    funext source target
    rw [copyShapeWith, copyShape, ih fun n hn => h n (.element hn)]
  | aggregate l ih =>
    cases l with
    | mk name fs size align =>
      funext source target
      rw [copyShapeWith, copyShape, copyAggregateWith, copyAggregate,
        copyFieldsWith_eq fun f hf => ih f hf fun n hn => h n (.field hf hn)]

end

/-! ## The queue -/

/-- The class of every job in the queue is one of `K`. -/
def Staffed (K : Class → Prop) (t : Traversal) : Prop := ∀ j ∈ t.queue, K j.type

section

variable {K : Class → Prop} {c : Catalog} {α : Type}

theorem keeps_onHeap (x : Action Error Heap α) : (onHeap x).Keeps (Staffed K) := fun t ht => by
  rw [Action.Always, onHeap, Action.ends_on, Action.Ends]
  cases x t.heap <;> exact ht

theorem keeps_onIdentity (x : Action Error IdentityMap α) : (onIdentity x).Keeps (Staffed K) := fun t ht => by
  rw [Action.Always, onIdentity, Action.ends_on, Action.Ends]
  cases x t.duplicator.identity <;> exact ht

theorem keeps_push {j : Job} (hj : K j.type) : (push j).Keeps (Staffed K) := fun t ht i hi => by
  rcases List.mem_append.1 hi with hi | hi
  · exact ht i hi
  · exact List.mem_singleton.1 hi ▸ hj

/-- The job for an object is of a declared class. -/
theorem keeps_copyObject (hc : ∀ d ∈ c.entries, K d.type) (source : Address) :
    (copyObject c source).Keeps (Staffed K) := by
  unfold copyObject
  refine .bind .get fun t => ?_
  cases t.duplicator.identity.find? source with
  | some target => exact .pure _
  | none =>
    -- the class in the job is the one that the catalog has answered with
    refine .bind (.query _) fun vtable => .asked fun t d hd => ?_
    exact .bind (keeps_onHeap _) fun _ => .bind (keeps_onIdentity _) fun _ =>
      .bind (keeps_push (hc d (Catalog.mem_of_ofVtable hd).1)) fun _ => .pure _

/-- **Copying pieces brings only jobs of declared classes into the queue.** -/
theorem keeps_steps (hc : ∀ d ∈ c.entries, K d.type) : Steps c fun _ x => x.Keeps (Staffed K) where
  pure := .pure
  bind := .bind
  query := .query
  modify _ := keeps_onHeap _
  newSlice _ _ := keeps_onHeap _
  writeSlice _ _ := keeps_onHeap _
  copyObject := keeps_copyObject hc

theorem ends_pop? {t : Traversal} (ht : Staffed K t) :
    pop?.Ends t (fun j? t' => (∀ j ∈ j?, K j.type) ∧ Staffed K t') fun _ _ => False := by
  simp only [pop?, Action.ends_bind, Action.ends_get]
  unfold Staffed queue at ht
  cases hq : t.duplicator.pending with
  | nil => exact ⟨fun _ h => (Option.not_mem_none _ h).elim, ht⟩
  | cons j rest =>
    rw [hq] at ht
    exact ⟨fun i hi => Option.some.inj hi ▸ ht j List.mem_cons_self, fun i hi => ht i (List.mem_cons_of_mem _ hi)⟩

end

/-! ## Two ways to copy pieces -/

section

variable {copy : Shape → Address → Address → Run Unit} {c : Catalog}

/-- A shape that can be copied is copied by `copy` as it is otherwise. -/
def Agrees (copy : Shape → Address → Address → Run Unit) (c : Catalog) (shape : Shape) : Prop :=
  shape.isCopiable = true → copy shape = copyShape c shape

def AgreesOn (copy : Shape → Address → Address → Run Unit) (c : Catalog) (type : Class) : Prop :=
  ∀ f ∈ type.fields, Agrees copy c f.shape

theorem copyFieldBy_eq {f : Field} (h : Agrees copy c f.shape) (j : Job) : copyFieldBy copy j f = copyField c j f := by
  unfold copyFieldBy copyField
  by_cases hcop : f.shape.isCopiable = true
  · rw [if_pos hcop, if_pos hcop, h hcop]
  · rw [if_neg hcop, if_neg hcop]

theorem finishBy_eq {j : Job} (h : AgreesOn copy c j.type) : finishBy copy j = finish c j := by
  unfold finishBy finish
  simp only [List.forM_eq_forM]
  refine Action.forM_congr fun l hl => Action.forM_congr fun f hf => copyFieldBy_eq (h f ?_) j
  exact List.mem_flatMap.2 ⟨l, hl, hf⟩

/-- By induction on the jobs that may be done: a job that waits is of a class on which the two agree, and whatever comes
into the queue while it is finished is so again. -/
theorem drainBy_eq (hc : ∀ d ∈ c.entries, AgreesOn copy c d.type) : ∀ (n : Nat) {t : Traversal},
    Staffed (AgreesOn copy c) t → drainBy copy n t = drain c n t
  | 0, _, _ => rfl
  | n + 1, t, ht => by
    refine Action.run_bind_congr ((ends_pop? ht).mono (fun j? t' h => ?_) fun _ _ h => h.elim)
    cases j? with
    | none => rfl
    | some j =>
      dsimp only
      rw [finishBy_eq (h.1 j rfl)]
      exact ((keeps_steps hc).finish j).run_bind_congr h.2 fun _ _ => drainBy_eq hc n

theorem drainBy_bind {α : Type} (hc : ∀ d ∈ c.entries, AgreesOn copy c d.type) (n : Nat) {t : Traversal}
    (ht : Staffed (AgreesOn copy c) t) (k : Unit → Run α) : (drainBy copy n >>= k) t = (drain c n >>= k) t := by
  rw [Action.run_bind, Action.run_bind, drainBy_eq hc n ht]

/-- **Two ways to copy pieces make the same copy** if they agree on the value, on the fields of the declared classes and
on those of the jobs that are waiting. -/
theorem copyRootBy_eq (hc : ∀ d ∈ c.entries, AgreesOn copy c d.type) {v : Value}
    (hv : ∀ shape ∈ v.stored?, Agrees copy c shape) {t : Traversal} (ht : Staffed (AgreesOn copy c) t) :
    copyRootBy copy c v t = copyRoot c v t := by
  cases v with
  | scalar bytes => rfl
  | object target =>
    cases target with
    | none => rfl
    | some source => exact (keeps_copyObject hc source).run_bind_congr ht fun _ _ h => drainBy_bind hc _ h _
  | aggregate source layout =>
    unfold copyRootBy copyRoot
    dsimp only
    refine (keeps_onHeap _).run_bind_congr ht fun target t h => ?_
    rw [copyAggregate_eq, hv _ rfl rfl]
    exact ((keeps_steps hc).copyShape _ source target).run_bind_congr h fun _ _ h => drainBy_bind hc _ h _
  | slice s element =>
    unfold copyRootBy copyRoot
    dsimp only
    by_cases hcop : element.isCopiable = true
    · rw [if_pos hcop, if_pos hcop, hv element rfl hcop]
      exact ((keeps_steps hc).copySlice s ((keeps_steps hc).copyShape element)).run_bind_congr ht fun _ _ h =>
        drainBy_bind hc _ h _
    · rw [if_neg hcop, if_neg hcop]

end
end Traversal

/-! ## Whole copies -/

namespace Duplicator

/-- A deep copy that does `atHandle` where it comes to copy a handle as a piece. -/
def deepCopyWith (atHandle : Nat → Address → Address → Traversal.Run Unit) (v : Value) :
    Action Error (Allocator × Duplicator) Value := do
  let (s, _) ← get
  (Traversal.purged (Traversal.copyRootBy (Traversal.copyShapeWith atHandle s.catalog) s.catalog v)).on
    (fun (s, d) => ⟨s.heap, d⟩) fun (s, _) t => ({ s with heap := t.heap }, t.duplicator)

/-- A deep copy comes to no handle: it is the same run whatever would be done there. -/
def MeetsNoHandle (v : Value) (s : Allocator) (d : Duplicator) : Prop :=
  ∀ atHandle, deepCopyWith atHandle v (s, d) = deepCopy v (s, d)

variable {atHandle : Nat → Address → Address → Traversal.Run Unit} {s : Allocator} {d : Duplicator} {v : Value}

theorem deepCopyWith_eq (hc : ∀ e ∈ s.catalog.entries,
      Traversal.AgreesOn (Traversal.copyShapeWith atHandle s.catalog) s.catalog e.type)
    (hv : ∀ shape ∈ v.stored?, Traversal.Agrees (Traversal.copyShapeWith atHandle s.catalog) s.catalog shape)
    (hd : ∀ j ∈ d.pending, Traversal.AgreesOn (Traversal.copyShapeWith atHandle s.catalog) s.catalog j.type) :
    deepCopyWith atHandle v (s, d) = deepCopy v (s, d) := by
  have hrun : Traversal.purged (Traversal.copyRootBy (Traversal.copyShapeWith atHandle s.catalog) s.catalog v)
      ⟨s.heap, d⟩ = Traversal.deepCopy s.catalog v ⟨s.heap, d⟩ :=
    Traversal.purged_congr (Traversal.copyRootBy_eq hc hv hd)
  simp only [deepCopyWith, deepCopy, Action.run_bind, Action.run_get, Action.on, hrun]

/-- With the bytes copied as they are, it is the deep copy, of any value and in any state. -/
theorem deepCopyWith_copyBytes (v : Value) : deepCopyWith Traversal.copyBytes v = deepCopy v := by
  have hagree : ∀ c shape, Traversal.Agrees (Traversal.copyShapeWith Traversal.copyBytes c) c shape :=
    fun c shape _ => Traversal.copyShapeWith_eq fun _ _ => rfl
  funext sd
  exact deepCopyWith_eq (fun _ _ _ _ => hagree _ _) (fun _ _ => hagree _ _) fun _ _ _ _ => hagree _ _

/-- **A deep copy of what the builders have made comes to no handle**, on any heap.  The classes of a reachable
allocator are made (`WellFormed.made`), and nothing else comes into a queue. -/
theorem meetsNoHandle (hs : ∀ e ∈ s.catalog.entries, e.type.Made) (hd : ∀ j ∈ d.pending, j.type.Made) (hv : v.Made) :
    MeetsNoHandle v s d := fun atHandle => by
  have hagree : ∀ {shape : Shape}, shape.Made →
      Traversal.Agrees (Traversal.copyShapeWith atHandle s.catalog) s.catalog shape := fun hm hcop =>
    Traversal.copyShapeWith_eq fun n hn => (hm.isCopiable_iff.1 hcop n hn).elim
  exact deepCopyWith_eq (fun e he f hf => hagree ((hs e he).shapes f hf))
    (fun shape hshape => hagree (hv.stored hshape)) fun j hj f hf => hagree ((hd j hj).shapes f hf)

end Duplicator

/-- **The test for what can be copied is exact, although it does not look into aggregates.**  Of a shape that was put
together by the builders it says whether a handle occurs in it; an aggregate is laid out exactly if no handle occurs in
its fields and their names are used once; and so a deep copy of a value, on an allocator whose classes were built, comes
to no handle, whatever is on the heap and however the copy ends. -/
theorem copiability_exact :
    (∀ shape : Shape, shape.Made → (shape.isCopiable = true ↔ shape.HandleFree)) ∧
      (∀ name fields, (∀ f ∈ fields, f.2.Made) → Aggregate.BuildsExactly name fields) ∧
      (∀ v, Duplicator.deepCopyWith Traversal.copyBytes v = Duplicator.deepCopy v) ∧
      ∀ (s : Allocator) (d : Duplicator) (v : Value), (∀ e ∈ s.catalog.entries, e.type.Made) →
        (∀ j ∈ d.pending, j.type.Made) → v.Made → Duplicator.MeetsNoHandle v s d :=
  ⟨fun _ hm => hm.isCopiable_iff, fun name _ hm => Aggregate.buildsExactly name hm, Duplicator.deepCopyWith_copyBytes,
    fun _ _ _ hs hd hv => Duplicator.meetsNoHandle hs hd hv⟩

namespace Port

def line : Aggregate := .mk "Line" (.ofList [⟨"text", 0, .slice (.scalar 1)⟩, ⟨"at", 16, .scalar 8⟩]) 24 8

def port : Class :=
  ⟨⟨"m::Port", [⟨"fd", 16, .handle 4⟩, ⟨"log", 24, .slice (.aggregate line)⟩, ⟨"peer", 40, .object⟩], 48⟩, []⟩

def vtable : Address := .ofNat 0x10000000
def root : Address := .ofNat 0x10000010
def log : Address := .ofNat 0x10000040

/-- A port that is its own peer, with one line in its log. -/
def state : Allocator where
  settings := {}
  heap.blocks := [
    ⟨log, Octets.encode 8 0 ++ Octets.encode 8 0 ++ Octets.encode 8 9⟩,
    ⟨root, Octets.encode 8 vtable.toNat ++ Octets.encode 8 0 ++ Octets.encode 8 7 ++ Octets.encode 8 1
      ++ Octets.encode 8 log.toNat ++ Octets.encode 8 root.toNat⟩,
    ⟨vtable, Octets.encode 8 1 ++ Octets.encode 8 48⟩]
  heap.next := .ofNat 0x10000060
  catalog.entries := [⟨⟨port, none⟩, vtable, none⟩]
  registry.mapsPath := ""

theorem line_made : (Shape.aggregate line).Made :=
  @Shape.Made.aggregate "Line" [("text", .slice (.scalar 1)), ("at", .scalar 8)] line
    (List.forall_mem_cons.2 ⟨.slice (.scalar 1), List.forall_mem_singleton.2 (.scalar 8)⟩) (by decide +kernel)

theorem port_made : port.Made :=
  @Class.Made.root "m::Port" [("fd", .handle 4), ("log", .slice (.aggregate line)), ("peer", .object)] port
    (List.forall_mem_cons.2 ⟨.handle 4, List.forall_mem_cons.2 ⟨.slice line_made, List.forall_mem_singleton.2 .object⟩⟩)
    (by decide +kernel)

/-- Stops where a handle would be copied. -/
def refuse (_ : Nat) (_ _ : Address) : Traversal.Run Unit := Action.fail (.io "a handle")

/-- The port holds a handle itself, and yet a copy of it that would be stopped by any handle returns. -/
theorem copiability_exact_port :
    (Shape.slice (.aggregate line)).HandleFree ∧ ¬ Aggregate.Acceptable [("fds", .slice (.handle 4))] ∧
      (Duplicator.deepCopyWith refuse (.object (some root))).returns (state, {}) = true := by
  obtain ⟨hexact, hbuilds, -, hmeets⟩ := copiability_exact
  refine ⟨(hexact _ (.slice line_made)).1 rfl, fun hacceptable => ?_, ?_⟩
  · have hrefused : Aggregate.build "Ports" [("fds", .slice (.handle 4))] =
        .error (.failure (.invalidLayout "aggregate Ports cannot be copied: field fds is [opaque[4]]")) := by
      decide +kernel
    have haccepts := (hbuilds "Ports" [("fds", .slice (.handle 4))]
      (List.forall_mem_singleton.2 (.slice (.handle 4)))).accepts
    rw [hrefused] at haccepts
    obtain ⟨l, hl⟩ := (haccepts fun e he => by cases he).2 hacceptable
    cases hl
  · have hno := hmeets state {} (.object (some root)) (List.forall_mem_singleton.2 port_made)
      (fun _ h => (List.not_mem_nil h).elim) trivial refuse
    unfold Action.returns
    rw [hno]
    decide +kernel

/-- An aggregate that no builder has made may lead to a handle. -/
example : (Duplicator.deepCopyWith refuse (.aggregate root (.mk "Raw" (.ofList [⟨"fd", 16, .handle 4⟩]) 24 4))).returns
    (state, {}) = false := by decide +kernel

end Port
end Introspect
