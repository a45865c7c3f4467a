import Introspect.Proofs.Heap.Requests
import Introspect.Proofs.Heap.Seams
import Introspect.Proofs.Instance
/-!
# What a refused mutation leaves

A heap is changed by its own accesses and by the accessors of an instance, which may be of any class and at any
address.  All of them but one look before they touch anything, so a mutation that is refused leaves the heap as it was.
The one is the header of a slice, whose two words are two accesses: where the first is good and the second is not
(`Mutation.Torn`), the header is refused with its first word written.
-/
namespace Introspect
namespace Heap

/-- A call that may change a heap and may be refused. -/
inductive Mutation where
  | write (a : Address) (bytes : List UInt8)
  | copy (source target : Address) (n : Nat)
  | word (a : Address) (w : UInt64)
  | int (a : Address) (i : Int64)
  | address (a target : Address)
  | slice (a : Address) (s : Slice)
  | newSlice (elementSize : Nat) (length : UInt64)
  | field (o : Instance) (name : String) (w : FieldWrite)

namespace Mutation

def run : Mutation → Action Error Heap Unit
  | write a bytes => Action.modifyM (·.write a bytes)
  | copy source target n => Action.modifyM (·.copy source target n)
  | word a w => Action.modifyM (·.writeWord a w)
  | int a i => Action.modifyM (·.writeInt a i)
  | address a target => Action.modifyM (·.writeAddress a target)
  | slice a s => Heap.writeSlice a s
  | newSlice elementSize length => do
    let _ ← Heap.newSlice elementSize length
    return ()
  | field o name w => w.run o name

/-- The header that a mutation writes, and where, if that is what it does. -/
def header? : Mutation → Option (Address × Slice)
  | slice a s => some (a, s)
  | field o name (.slice s) => (o.addressAs name .slice).toOption.map (·, s)
  | _ => none

/-- A header is to be written whose first word has room in a block and whose second word has none. -/
def Torn (x : Mutation) (m : Memory) : Prop :=
  ∃ header ∈ x.header?, m.Good header.1.toNat 8 ∧ ¬ m.Good (header.1.toNat + 8) 8

instance (x : Mutation) (m : Memory) : Decidable (x.Torn m) :=
  inferInstanceAs (Decidable (∃ header ∈ x.header?, m.Good header.1.toNat 8 ∧ ¬ m.Good (header.1.toNat + 8) 8))

/-! ## Mutations that look first -/

variable {h h' : Heap} {m : Memory} {x : Mutation} {a : Address} {s : Slice}

/-- Done, it leaves a heap that traces a memory again; refused, it leaves the heap as it was. -/
def Whole (x : Action Error Heap Unit) (h : Heap) : Prop :=
  x.Ends h (fun _ h' => ∃ m, Traces h' m) fun stop h' => ∀ e, stop = .failure e → h' = h

theorem Whole.fail (h : Heap) (e : Error) : Whole (Action.fail e) h := fun _ _ => rfl

theorem Whole.modifyM {f : Heap → Except Error Heap} (hf : ∀ h', f h = .ok h' → ∃ m, Traces h' m) :
    Whole (Action.modifyM f) h := by
  unfold Whole
  rw [Action.ends_modifyM]
  cases hx : f h with
  | ok h' => exact hf h' hx
  | error e => exact fun _ _ => rfl

theorem Whole.write (t : Traces h m) (a : Address) (bytes : List UInt8) :
    Whole (Action.modifyM (·.write a bytes)) h := by
  apply Whole.modifyM
  intro h' hw
  exact ⟨_, t.write hw⟩

theorem Whole.newSlice (t : Traces h m) (elementSize : Nat) (length : UInt64) :
    Whole (newSlice elementSize length).run h := by
  unfold Whole run
  rw [Action.ends_bind, ends_newSlice_iff]
  by_cases h0 : length = 0
  · rw [if_pos h0]
    exact ⟨m, t⟩
  · rw [if_neg h0]
    by_cases hlt : length.toNat * elementSize < 2 ^ 64
    · rw [if_pos hlt]
      cases hx : h.allocate (length.toNat * elementSize) with
      | ok done => exact ⟨_, t.allocate hx⟩
      | error f =>
        intro e he
        cases he
    · rw [if_neg hlt]
      exact fun _ _ => rfl

/-- An accessor of an instance that puts its bytes there in one piece. -/
theorem Whole.field (t : Traces h m) (w : FieldWrite) (hw : ∀ a, w.put a = Action.modifyM (·.write a w.bytes))
    (o : Instance) (name : String) : Whole (w.run o name) h := by
  unfold Whole
  rw [FieldWrite.ends_run]
  cases o.type.field? name with
  | none => exact fun _ _ => rfl
  | some f =>
    dsimp only
    split
    · rw [hw]
      exact Whole.write t _ _
    · exact fun _ _ => rfl

theorem header?_field_slice (o : Instance) (name : String) (s : Slice) :
    (field o name (.slice s)).header? = (o.addressAs name .slice).toOption.map (·, s) := rfl

/-- **Whatever writes no header is done whole or not at all.** -/
theorem run_whole (t : Traces h m) (hx : x.header? = none) : Whole x.run h := by
  cases x with
  | write a bytes => exact Whole.write t a bytes
  | copy source target n =>
    apply Whole.modifyM
    intro h' hc
    exact ⟨_, t.copy hc⟩
  | word a w | int a w | address a w => exact Whole.write t a _
  | slice a s => cases hx
  | newSlice elementSize length => exact Whole.newSlice t elementSize length
  | field o name w =>
    cases w with
    | slice s =>
      rw [header?_field_slice] at hx
      show Whole (o.writeSlice name s) h
      unfold Whole Instance.writeSlice
      rw [Action.ends_bind, Action.ends_ofExcept]
      cases ha : o.addressAs name .slice with
      | ok a =>
        rw [ha] at hx
        cases hx
      | error e => exact fun _ _ => rfl
    | int i => exact Whole.field t (.int i) (fun _ => rfl) o name
    | word w => exact Whole.field t (.word w) (fun _ => rfl) o name
    | int32 i => exact Whole.field t (.int32 i) (fun _ => rfl) o name
    | object target => exact Whole.field t (.object target) (fun _ => rfl) o name
    | raw bs => exact Whole.field t (.raw bs) (fun _ => rfl) o name

/-! ## Headers -/

theorem run_of_header (hx : x.header? = some (a, s)) : x.run = Heap.writeSlice a s := by
  cases x with
  | slice b s' =>
    obtain ⟨rfl, rfl⟩ := Prod.mk.inj (Option.some.inj hx)
    rfl
  | field o name w =>
    cases w with
    | slice s' =>
      rw [header?_field_slice] at hx
      show o.writeSlice name s' = _
      unfold Instance.writeSlice
      cases ha : o.addressAs name .slice with
      | error e =>
        rw [ha] at hx
        cases hx
      | ok b =>
        rw [ha] at hx
        obtain ⟨rfl, rfl⟩ := Prod.mk.inj (Option.some.inj hx)
        rfl
    | _ => cases hx
  | _ => cases hx

theorem ends_writeSlice_iff {ok : Unit → Heap → Prop} {stop : Stop Error → Heap → Prop} :
    (Heap.writeSlice a s).Ends h ok stop ↔
      match h.writeWord a s.length with
      | .error e => stop (.failure e) h
      | .ok k => match k.writeAddress (a + 8) s.data with
        | .error e => stop (.failure e) k
        | .ok h' => ok () h' := by
  unfold Heap.writeSlice
  rw [Action.ends_bind, Action.ends_modifyM]
  cases h.writeWord a s.length with
  | error e => rfl
  | ok k =>
    dsimp only
    rw [Action.ends_modifyM]
    cases k.writeAddress (a + 8) s.data <;> rfl

theorem next_write {bytes : List UInt8} (hw : h.write a bytes = .ok h') : h'.next = h.next := by
  unfold Heap.write at hw
  cases hl : h.locate a bytes.length with
  | error e =>
    rw [hl] at hw
    cases hw
  | ok found =>
    rw [hl] at hw
    rw [← Except.ok.inj hw]

/-- **A header is written word by word**: refused at its first word it leaves the heap as it was, and refused at its
second it leaves the first one written. -/
theorem ends_header (t : Traces h m) (a : Address) (s : Slice) :
    (Heap.writeSlice a s).Ends h
      (fun _ h' => (∃ m', Traces h' m') ∧ m.Good a.toNat 8 ∧ m.Good (a.toNat + 8) 8)
      fun stop h' => ¬ m.Good a.toNat 8 ∧ h' = h ∨
        (m.Good a.toNat 8 ∧ ¬ m.Good (a.toNat + 8) 8) ∧ stop = .failure (.invalidAddress (a + 8) 8) ∧
          h'.next = h.next ∧ Traces h' (m.put a.toNat (Octets.encode 8 s.length.toNat)) := by
  obtain ⟨ha, rfl⟩ := t.flat_eq
  rw [ends_writeSlice_iff]
  cases hw : h.writeWord a s.length with
  | error e =>
    refine .inl ⟨fun hfirst => ?_, rfl⟩
    obtain ⟨k, hk⟩ := (writeWord_iff ha).2 hfirst
    rw [hk] at hw
    cases hw
  | ok k =>
    have hfirst := (writeWord_iff ha).1 ⟨k, hw⟩
    have tk : Traces k (h.flat.put a.toNat (Octets.encode 8 s.length.toNat)) := t.write hw
    have hsecond : k.flat.Good (a + 8).toNat 8 ↔ h.flat.Good (a.toNat + 8) 8 := by
      rw [ha.toNat_next hfirst]
      exact inside_congr (outline_writeWord ha hw)
    dsimp only
    cases hw' : k.writeAddress (a + 8) s.data with
    | ok k' =>
      have hgood := (writeWord_iff tk.flat_eq.1).1 ⟨k', hw'⟩
      exact ⟨⟨_, tk.write hw'⟩, hfirst, hsecond.1 hgood⟩
    | error e =>
      have hbad : ¬ k.flat.Good (a + 8).toNat 8 := by
        intro hgood
        obtain ⟨k', hk'⟩ := (writeWord_iff tk.flat_eq.1).2 hgood
        rw [writeAddress, hk'] at hw'
        cases hw'
      have he : k.writeAddress (a + 8) s.data = .error (.invalidAddress (a + 8) 8) := by
        rw [writeAddress, writeWord, write_outside (by rwa [Octets.length_encode]), Octets.length_encode]
      obtain rfl := Except.error.inj (he.symm.trans hw')
      exact .inr ⟨⟨hfirst, fun h8 => hbad (hsecond.2 h8)⟩, rfl, next_write hw, tk⟩

/-! ## What is left -/

theorem torn_iff (hx : x.header? = some (a, s)) : x.Torn m ↔ m.Good a.toNat 8 ∧ ¬ m.Good (a.toNat + 8) 8 := by
  unfold Torn
  rw [hx]
  simp

theorem not_torn (hx : x.header? = none) : ¬ x.Torn m := by
  unfold Torn
  rw [hx]
  simp

/-- **A mutation that is refused leaves the heap as it was, unless it tears a header**: every block has its bytes, no
block is more or less, and the next one starts where it would have started.  Where the first word of a header is good
and the second is not, it is always refused, and always with that first word written and nothing else. -/
theorem refused_leaves_heap (t : Traces h m) (x : Mutation) :
    x.run.Ends h (fun _ h' => (∃ m', Traces h' m') ∧ ¬ x.Torn m)
      fun stop h' => ∀ e, stop = .failure e →
        (¬ x.Torn m → h' = h) ∧
        (x.Torn m → ∃ a s, x.header? = some (a, s) ∧ e = .invalidAddress (a + 8) 8 ∧ h'.next = h.next ∧
          Traces h' (m.put a.toNat (Octets.encode 8 s.length.toNat))) := by
  cases hx : x.header? with
  | none =>
    have htorn : ¬ x.Torn m := not_torn hx
    refine (run_whole t hx).mono (fun _ h' hdone => ⟨hdone, htorn⟩) fun stop h' hsame e he => ?_
    exact ⟨fun _ => hsame e he, fun h => absurd h htorn⟩
  | some header =>
    obtain ⟨a, s⟩ := header
    rw [run_of_header hx, torn_iff hx]
    refine (ends_header t a s).mono (fun _ h' hdone => ?_) fun stop h' hstop e he => ?_
    · obtain ⟨hagain, -, hsecond⟩ := hdone
      exact ⟨hagain, fun htorn => htorn.2 hsecond⟩
    · rcases hstop with ⟨hfirst, hsame⟩ | ⟨htorn, hcause, hnext, htrace⟩
      · exact ⟨fun _ => hsame, fun htorn => absurd htorn.1 hfirst⟩
      · refine ⟨fun hnot => absurd htorn hnot, fun _ => ⟨a, s, rfl, ?_, hnext, htrace⟩⟩
        rw [he] at hcause
        exact Stop.failure.inj hcause

/-- A copy that would end in the next block changes nothing; a header that starts in the last word of the last block
is refused, and that word is its count. -/
theorem refused_leaves_heap_meeting :
    (∃ e, (copy (.ofNat 0x10000000) (.ofNat 0x10000008) 16).run meeting = .error (.failure e) meeting) ∧
    ∃ e h', (slice (.ofNat 0x10000018) ⟨1, .null⟩).run meeting = .error (.failure e) h' ∧
      Traces h' (meeting.flat.put 0x10000018 [1, 0, 0, 0, 0, 0, 0, 0]) := by
  have hcopy : ((copy (.ofNat 0x10000000) (.ofNat 0x10000008) 16).run).fails meeting = true := by decide +kernel
  have hslice : ((slice (.ofNat 0x10000018) ⟨1, .null⟩).run).fails meeting = true := by decide +kernel
  obtain ⟨e, h', hx⟩ := Action.exists_of_fails hcopy
  obtain ⟨e', k, hy⟩ := Action.exists_of_fails hslice
  have hwhole := refused_leaves_heap traces_meeting (copy (.ofNat 0x10000000) (.ofNat 0x10000008) 16)
  have htorn := refused_leaves_heap traces_meeting (slice (.ofNat 0x10000018) ⟨1, .null⟩)
  simp only [Action.Ends, hx] at hwhole
  simp only [Action.Ends, hy] at htorn
  obtain ⟨hsame, -⟩ := hwhole e rfl
  obtain ⟨-, hleft⟩ := htorn e' rfl
  refine ⟨⟨e, ?_⟩, e', k, hy, ?_⟩
  · rw [hx, hsame (by decide +kernel)]
  · obtain ⟨a, s, hheader, -, -, htrace⟩ := hleft (by decide +kernel)
    obtain ⟨rfl, rfl⟩ := Prod.mk.inj (Option.some.inj hheader)
    exact htrace

/-- One block, with room for one word. -/
def oneWord : Heap where
  blocks := [⟨.ofNat 0x10000000, List.replicate 8 0⟩]
  next := .ofNat 0x10000010

/-- **A header is refused and leaves its count behind.** -/
theorem refused_tears_header : ∃ (h h' : Heap) (m : Memory) (a : Address) (s : Slice) (e : Error), Traces h m ∧
    (slice a s).run h = .error (.failure e) h' ∧
    h.read a 8 = .ok [0, 0, 0, 0, 0, 0, 0, 0] ∧ h'.read a 8 = .ok [1, 0, 0, 0, 0, 0, 0, 0] :=
  ⟨oneWord, { oneWord with blocks := [⟨.ofNat 0x10000000, [1, 0, 0, 0, 0, 0, 0, 0]⟩] }, _, .ofNat 0x10000000,
    ⟨1, .ofNat 5⟩, .invalidAddress (.ofNat 0x10000008) 8, @Traces.allocate _ _ _ 8 _ .empty rfl, rfl, rfl, rfl⟩

end Mutation
end Heap
end Introspect
