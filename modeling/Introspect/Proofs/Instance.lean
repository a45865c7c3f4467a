import Introspect.Instance
import Introspect.Proofs.Action
import Introspect.Proofs.Heap.Words
import Introspect.Proofs.Layout.Distinct
/-!
# Writing through an instance

There are six accessors that write.  Each finds a field by its name, asks something of the shape, and puts bytes in its
place, a slice's header in two parts.  So one statement says what all of them do (`ends_run`), in terms of what the
accessor asks and of the bytes that its value stands for; and as the place is inside the instance, an accessor is
stopped, if at all, by the class and not by the heap (`run_spec`).
-/
namespace Introspect

theorem Class.Built.field_inside {c : Class} {h : Heap} {a : Address} (hb : c.Built) (ha : h.Arranged)
    (hi : h.Inside a.toNat c.size) {f : Field} (hf : f ∈ c.fields) :
    (a + f.offset).toNat = a.toNat + f.offset ∧ 16 ≤ f.offset ∧ f.offset + f.shape.size ≤ c.size ∧
      h.Inside (a + f.offset).toNat f.shape.size := by
  obtain ⟨h1, h2⟩ := hb.placed.bounds hf
  have hlt := ha.inside_lt hi
  have hnat : (a + f.offset).toNat = a.toNat + f.offset := Address.toNat_add_of_lt (by omega)
  exact ⟨hnat, h1, h2, hnat ▸ hi.mono (by omega) (by omega)⟩

theorem Instance.size_of_scalar {n : Nat} {shape : Shape} (h : (Expected.scalar n).accepts shape = true) :
    shape.size = n := by
  cases shape with
  | scalar m => exact of_decide_eq_true h
  | _ => cases h

/-- A value together with the accessor that writes it. -/
inductive FieldWrite where
  | int (i : Int64)
  | word (w : UInt64)
  | int32 (i : Int32)
  | object (target : Option Address)
  | slice (s : Slice)
  | raw (bs : List UInt8)

namespace FieldWrite

def bytes : FieldWrite → List UInt8
  | int i => Octets.encode 8 i.toUInt64.toNat
  | word w => Octets.encode 8 w.toNat
  | int32 i => Octets.encode 4 i.toUInt32.toNat
  | object target => Octets.encode 8 (target.getD .null).word.toNat
  | slice s => Octets.encode 8 s.length.toNat ++ Octets.encode 8 s.data.word.toNat
  | raw bs => bs

def expected : FieldWrite → Instance.Expected
  | int _ | word _ => .scalar 8
  | int32 _ => .scalar 4
  | object _ => .object
  | slice _ => .slice
  | raw bs => ⟨s!"{Text.decimal bs.length} bytes", fun shape => shape.size = bs.length⟩

def run (w : FieldWrite) (o : Instance) (name : String) : Action Error Heap Unit :=
  match w with
  | int i => o.writeInt name i
  | word w => o.writeWord name w
  | int32 i => o.writeInt32 name i
  | object target => o.writeObject name target
  | slice s => o.writeSlice name s
  | raw bs => o.writeBytes name bs

/-- The class has the field, with the shape or the length that the accessor asks for. -/
def Fits (w : FieldWrite) (c : Class) (name : String) : Prop :=
  ∃ f, c.field? name = some f ∧ w.expected.accepts f.shape = true

/-- Why the accessor refuses. -/
def refusal (w : FieldWrite) (o : Instance) (name : String) : Error :=
  match o.type.field? name with
  | none => .fieldNotFound o.type.path name
  | some f => o.mismatch name w.expected.label f

def put (w : FieldWrite) (a : Address) : Action Error Heap Unit :=
  match w with
  | slice s => Heap.writeSlice a s
  | w => Action.modifyM (·.write a w.bytes)

variable {h : Heap} {w : FieldWrite} {o : Instance} {c : Class} {name : String} {a : Address}
  {ok : Unit → Heap → Prop} {stop : Stop Error → Heap → Prop}

theorem ends_addressAs {expected : Instance.Expected} {k : Address → Action Error Heap Unit} :
    (Action.ofExcept (o.addressAs name expected) >>= k).Ends h ok stop ↔
      match o.type.field? name with
      | none => stop (.failure (.fieldNotFound o.type.path name)) h
      | some f =>
        if expected.accepts f.shape = true then (k (o.address + f.offset)).Ends h ok stop
        else stop (.failure (o.mismatch name expected.label f)) h := by
  rw [Action.ends_bind, Action.ends_ofExcept]
  unfold Instance.addressAs Instance.fieldAs Instance.field
  cases o.type.field? name with
  | none => rfl
  | some f =>
    simp only [bind, Except.bind]
    by_cases hf : expected.accepts f.shape = true
    · rw [if_pos hf, if_pos hf]
      rfl
    · rw [if_neg hf, if_neg hf]
      rfl

/-- **Every accessor is a look for its field and a write to it.** -/
theorem ends_run : (w.run o name).Ends h ok stop ↔
    match o.type.field? name with
    | none => stop (.failure (.fieldNotFound o.type.path name)) h
    | some f =>
      if w.expected.accepts f.shape = true then (w.put (o.address + f.offset)).Ends h ok stop
      else stop (.failure (o.mismatch name w.expected.label f)) h := by
  cases w with
  | int i | word w | int32 i | object target | slice s => exact ends_addressAs
  | raw bs =>
    unfold run Instance.writeBytes
    rw [Action.ends_bind, Action.ends_ofExcept]
    unfold Instance.field
    cases o.type.field? name with
    | none => rfl
    | some f =>
      simp only [expected, decide_eq_true_eq]
      split <;> rfl

theorem size_of_accepts {shape : Shape} (h : w.expected.accepts shape = true) : shape.size = w.bytes.length := by
  cases w with
  | int i | word w | int32 i => rw [Instance.size_of_scalar h, bytes, Octets.length_encode]
  | object target =>
    rw [bytes, Octets.length_encode]
    cases shape with
    | object => rfl
    | _ => cases h
  | slice s =>
    rw [bytes, List.length_append, Octets.length_encode, Octets.length_encode]
    cases shape with
    | slice _ => rfl
    | _ => cases h
  | raw bs => exact of_decide_eq_true h

/-- **The bytes of the value go where the field lies**, and nowhere else. -/
theorem ends_put (ha : h.Arranged) (hi : h.Inside a.toNat w.bytes.length) :
    (w.put a).Ends h (fun _ h' => Heap.Grows (Heap.Window a.toNat w.bytes.length) h h' ∧ h'.outline = h.outline ∧
      h'.read a w.bytes.length = .ok w.bytes) fun _ _ => False := by
  have hone : (Action.modifyM (·.write a w.bytes)).Ends h (fun _ h' =>
      Heap.Grows (Heap.Window a.toNat w.bytes.length) h h' ∧ h'.outline = h.outline ∧
      h'.read a w.bytes.length = .ok w.bytes) fun _ _ => False := by
    obtain ⟨h', hw⟩ := Heap.write_of_inside ha hi
    rw [Action.ends_modifyM, hw]
    exact ⟨Heap.grows_write ha hw, Heap.outline_write ha hw, Heap.read_write ha hw⟩
  cases w with
  | int i | word w | int32 i | object target | raw bs => exact hone
  | slice s =>
    have h16 : (slice s).bytes.length = 16 := by
      rw [bytes, List.length_append, Octets.length_encode, Octets.length_encode]
    rw [h16] at hi ⊢
    refine (Heap.ends_writeSlice ha a s).mono (fun _ h' hs => ?_) fun _ _ hs => hs.2 hi
    obtain ⟨g, ho, hr⟩ := hs
    exact ⟨g, ho, Heap.read_of_readSlice g.arranged (g.inside hi) hr⟩

/-- **A write that fits its field is done, and changes the bytes of the field alone**; any other is refused, and changes
nothing.  The instance may be seen as one of an ancestor of its class. -/
theorem run_spec (ha : h.Arranged) (hb : c.Built) (hi : h.Inside o.address.toNat c.size) (hc : c.Extends o.type) :
    (w.run o name).Ends h
      (fun _ h' => ∃ f ∈ c.fields, f.name = name ∧ w.Fits o.type name ∧
        Heap.Grows (Heap.Window (o.address.toNat + f.offset) f.shape.size) h h' ∧ h'.outline = h.outline ∧
        h'.read (o.address + f.offset) f.shape.size = .ok w.bytes)
      fun e h' => h' = h ∧ ¬ w.Fits o.type name ∧ e = .failure (w.refusal o name) := by
  rw [ends_run]
  unfold refusal Fits
  cases hf : o.type.field? name with
  | none =>
    refine ⟨rfl, ?_, rfl⟩
    rintro ⟨f, hf, -⟩
    cases hf
  | some f =>
    have hmem := hc.fields_subset (Class.mem_of_field? hf)
    dsimp only
    by_cases hacc : w.expected.accepts f.shape = true
    · rw [if_pos hacc]
      obtain ⟨hat, -, -, hin⟩ := hb.field_inside ha hi hmem
      rw [size_of_accepts hacc] at hin
      refine (ends_put ha hin).mono (fun _ h' hput => ?_) fun _ _ => False.elim
      rw [hat, ← size_of_accepts hacc] at hput
      exact ⟨f, hmem, Class.name_of_field? hf, ⟨f, rfl, hacc⟩, hput⟩
    · rw [if_neg hacc]
      refine ⟨rfl, ?_, rfl⟩
      rintro ⟨g, hg, hacc'⟩
      exact hacc (Option.some.inj hg ▸ hacc')

end FieldWrite
end Introspect
