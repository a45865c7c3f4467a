import Introspect.Proofs.Allocator.Reachable
import Introspect.Proofs.Duplicate.Frame
import Mathlib.Algebra.BigOperators.Group.Finset.Basic
import Mathlib.Data.Set.Finite.Basic
/-!
# The graph behind a value

What a value reaches is read off the heap as it stands: objects, pieces of storage of a shape, and slices.  `Intact`
says that all of it is in order, `Isomorphic` that another value is the same graph on storage of its own, and `demand`
which blocks such a second graph takes.
-/
namespace Introspect

inductive Spot where
  | object (address : Address)
  | piece (shape : Shape) (address : Address)
  | slice (slice : Slice) (element : Shape)

namespace Allocator

/-- What a value reaches, through fields, aggregates, slices and references.  A slice leads to its elements if its
buffer lies in one block. -/
inductive Reaches (s : Allocator) (v : Value) : Spot → Prop where
  | root {x : Address} (hv : v = .object (some x)) : Reaches s v (.object x)
  | rootAggregate {a : Address} {l : Aggregate} (hv : v = .aggregate a l) : Reaches s v (.piece (.aggregate l) a)
  | rootSlice {sl : Slice} {e : Shape} (hv : v = .slice sl e) : Reaches s v (.slice sl e)
  | field {x : Address} {d : Declared} {f : Field} (hx : Reaches s v (.object x)) (hd : s.classOf x = .ok d)
    (hf : f ∈ d.type.fields) : Reaches s v (.piece f.shape.copied (x + f.offset))
  | part {a : Address} {l : Aggregate} {f : Field} (ha : Reaches s v (.piece (.aggregate l) a))
    (hf : f ∈ l.fields) : Reaches s v (.piece f.shape (a + f.offset))
  | header {a : Address} {sl : Slice} {e : Shape} (ha : Reaches s v (.piece (.slice e) a))
    (hs : s.heap.readSlice a = .ok sl) : Reaches s v (.slice sl e)
  | element {sl : Slice} {e : Shape} {n i : Nat} (hs : Reaches s v (.slice sl e))
    (hc : s.heap.checkSlice sl e.size = .ok n) (hi : i < sl.length.toNat) :
    Reaches s v (.piece e (sl.data + i * e.size))
  | reference {a x : Address} (ha : Reaches s v (.piece .object a)) (hx : s.heap.readAddress a = .ok x)
    (hn : x ≠ .null) : Reaches s v (.object x)

/-- All that a value reaches is in order: an object carries the vtable of a declared class and lies in one block as far
as that class goes, and so do the buffer of a slice and an aggregate that is copied by itself. -/
structure Intact (s : Allocator) (v : Value) : Prop where
  objects : ∀ x, s.Reaches v (.object x) → ∃ d, s.classOf x = .ok d ∧ s.heap.Inside x.toNat d.type.size
  slices : ∀ sl e, s.Reaches v (.slice sl e) → ∃ n, s.heap.checkSlice sl e.size = .ok n
  aggregate : ∀ a l, v = .aggregate a l → s.heap.Inside a.toNat l.size

end Allocator

/-! ## What a copy is -/

/-- Each takes from the stock, and no two take the same. -/
structure Divided {ι : Type} (stock : Address → Prop) (part : ι → Address → Prop) : Prop where
  within : ∀ i b, part i b → stock b
  apart : ∀ i j b, part i b → part j b → i = j

/-- The storage of a shape at `b` in `h'` copies the one at `a` in `h`: the same bytes, the images of the same
references, and for each slice a buffer of `own` with a copy of every element.  Elements and fields take their buffers
from `own` without sharing any, and no element takes the buffer that it lies in. -/
inductive Copied (h h' : Heap) (image : Address → Option Address) :
    (Address → Prop) → Shape → Address → Address → Prop where
  | scalar {own : Address → Prop} {n : Nat} {a b : Address} (bytes : h'.bytesAt b.toNat n = h.bytesAt a.toNat n) :
    Copied h h' image own (.scalar n) a b
  | handle {own : Address → Prop} {n : Nat} {a b : Address} (bytes : h'.bytesAt b.toNat n = h.bytesAt a.toNat n) :
    Copied h h' image own (.handle n) a b
  | null {own : Address → Prop} {a b : Address} (ha : h.readAddress a = .ok .null) (hb : h'.readAddress b = .ok .null) :
    Copied h h' image own .object a b
  | reference {own : Address → Prop} {a b x y : Address} (ha : h.readAddress a = .ok x) (hn : x ≠ .null)
    (hxy : image x = some y) (hb : h'.readAddress b = .ok y) : Copied h h' image own .object a b
  | empty {own : Address → Prop} {e : Shape} {a b : Address} {s : Slice} (ha : h.readSlice a = .ok s)
    (h0 : s.length = 0) (hb : h'.readSlice b = .ok .empty) : Copied h h' image own (.slice e) a b
  | slice {own : Address → Prop} {e : Shape} {a b data : Address} {s : Slice} {part : Nat → Address → Prop}
    (ha : h.readSlice a = .ok s) (h0 : s.length ≠ 0) (hb : h'.readSlice b = .ok ⟨s.length, data⟩) (new : own data)
    (block : (data.toNat, s.length.toNat * e.size) ∈ h'.outline) (divided : Divided (fun c => own c ∧ c ≠ data) part)
    (elements : ∀ i < s.length.toNat, Copied h h' image (part i) e (s.data + i * e.size) (data + i * e.size)) :
    Copied h h' image own (.slice e) a b
  | aggregate {own : Address → Prop} {l : Aggregate} {a b : Address} {part : Nat → Address → Prop}
    (divided : Divided own part)
    (fields : ∀ i f, l.fields[i]? = some f → Copied h h' image (part i) f.shape (a + f.offset) (b + f.offset)) :
    Copied h h' image own (.aggregate l) a b

inductive CopiedSlice (h h' : Heap) (image : Address → Option Address) (own : Address → Prop) (e : Shape) :
    Slice → Slice → Prop where
  | empty {s : Slice} (h0 : s.length = 0) : CopiedSlice h h' image own e s .empty
  | slice {s : Slice} {data : Address} {part : Nat → Address → Prop} (h0 : s.length ≠ 0) (new : own data)
    (block : (data.toNat, s.length.toNat * e.size) ∈ h'.outline) (divided : Divided (fun c => own c ∧ c ≠ data) part)
    (elements : ∀ i < s.length.toNat, Copied h h' image (part i) e (s.data + i * e.size) (data + i * e.size)) :
    CopiedSlice h h' image own e s ⟨s.length, data⟩

/-- The fields of an instance at `y` copy those at `x`, at every level of the class. -/
def CopiedFields (h h' : Heap) (image : Address → Option Address) (own : Address → Prop) (c : Class) (x y : Address) :
    Prop :=
  ∃ part : Nat → Address → Prop, Divided own part ∧ ∀ i f, c.fields[i]? = some f →
    Copied h h' image (part i) f.shape.copied (x + f.offset) (y + f.offset)

namespace Heap

def Beyond (h : Heap) (a : Address) : Prop := h.next.toNat ≤ a.toNat

theorem Beyond.outside {h : Heap} (ha : h.Arranged) {a : Address} (hb : h.Beyond a) {b : Block} (hm : b ∈ h.blocks) :
    ¬ (b.base ≤ a ∧ a.toNat < b.base.toNat + b.bytes.length) := fun hin => by
  have h1 := (ha.bounds (mem_outline hm)).2.1
  have h2 := le_span b.bytes.length
  have h3 : h.next.toNat ≤ a.toNat := hb
  have h4 := hin.2
  simp only at h1
  omega

end Heap

/-- A block of the copy that is not the copy of an object: new, and without a source. -/
def Allocator.Buffer (s : Allocator) (image : Address → Option Address) (b : Address) : Prop :=
  s.heap.Beyond b ∧ ∀ x, image x ≠ some b

def CopiedValue (s s' : Allocator) (image : Address → Option Address) (own : Address → Prop) : Value → Value → Prop
  | .scalar bytes, copy => copy = .scalar bytes
  | .object none, copy => copy = .object none
  | .object (some x), copy => ∃ y, image x = some y ∧ copy = .object (some y)
  | .aggregate a l, copy => ∃ b, copy = .aggregate b l ∧ own b ∧ (b.toNat, l.size) ∈ s'.heap.outline ∧
    Copied s.heap s'.heap image (fun c => own c ∧ c ≠ b) (.aggregate l) a b
  | .slice sl e, copy => ∃ sl', copy = .slice sl' e ∧ CopiedSlice s.heap s'.heap image own e sl sl'

/-- **The copy is the same graph on storage of its own.**  Each object that the value reaches has one image, and no two
have the same; an image lies in a block of its own behind all that was there, carries the vtable of the object and so
its class, has no monitor, and copies its fields at every level.  The other blocks of the copy are its buffers: those of
an object are `own` to it, those of the value itself to `none`, and no block is the buffer of two slices. -/
structure Isomorphic (s s' : Allocator) (image : Address → Option Address) (own : Option Address → Address → Prop)
    (v copy : Value) : Prop where
  domain : ∀ x, (∃ y, image x = some y) ↔ s.Reaches v (.object x)
  injective : ∀ x x' y, image x = some y → image x' = some y → x = x'
  fresh : ∀ x y, image x = some y → s.heap.Beyond y ∧
    ∀ b ∈ s.heap.blocks, ¬ (b.base ≤ y ∧ y.toNat < b.base.toNat + b.bytes.length)
  header : ∀ x y, image x = some y → ∃ d, s.classOf x = .ok d ∧ s'.classOf y = .ok d ∧
    s'.heap.readAddress (y + Class.vtableOffset) = s.heap.readAddress (x + Class.vtableOffset) ∧
    s'.heap.readAddress (y + Class.monitorOffset) = .ok .null ∧ (y.toNat, d.type.size) ∈ s'.heap.outline
  buffers : Divided (s.Buffer image) own
  fields : ∀ x y d, image x = some y → s.classOf x = .ok d →
    CopiedFields s.heap s'.heap image (own (some x)) d.type x y
  root : CopiedValue s s' image (own none) v copy

/-! ## What a copy takes -/

namespace Heap

/-- The blocks for the copy of a slice, where the blocks for an element are known. -/
def buffersWith (h : Heap) (stride : Nat) (ofElement : Address → Multiset Nat) (s : Slice) : Multiset Nat :=
  if s.length = 0 then 0
  else match h.checkSlice s stride with
    | .ok n => n ::ₘ ((List.range s.length.toNat).map fun i => ofElement (s.data + i * stride)).sum
    | .error _ => 0

mutual

/-- The sizes of the buffers that the copy of a piece takes. -/
def buffers (h : Heap) : Shape → Address → Multiset Nat
  | .scalar _, _ | .handle _, _ | .object, _ => 0
  | .aggregate layout, a => aggregateBuffers h layout a
  | .slice element, a =>
    match h.readSlice a with
    | .ok s => h.buffersWith element.size (buffers h element) s
    | .error _ => 0

def aggregateBuffers (h : Heap) : Aggregate → Address → Multiset Nat
  | .mk _ fields _ _, a => fieldBuffers h fields a

def fieldBuffers (h : Heap) : Fields → Address → Multiset Nat
  | .nil, _ => 0
  | .cons _ offset shape rest, a => buffers h shape (a + offset) + fieldBuffers h rest a

end

theorem fieldBuffers_eq (h : Heap) (a : Address) : ∀ fs : Fields,
    fieldBuffers h fs a = (fs.toList.map fun f => h.buffers f.shape (a + f.offset)).sum
  | .nil => by
    rw [fieldBuffers]
    rfl
  | .cons name offset shape rest => by
    rw [fieldBuffers, fieldBuffers_eq h a rest, Fields.toList, List.map_cons, List.sum_cons]

theorem buffers_aggregate (h : Heap) (l : Aggregate) (a : Address) :
    h.buffers (.aggregate l) a = (l.fields.map fun f => h.buffers f.shape (a + f.offset)).sum := by
  cases l with
  | mk name fs size align =>
    rw [buffers, aggregateBuffers, fieldBuffers_eq]
    rfl

theorem buffers_slice (h : Heap) (e : Shape) (a : Address) :
    h.buffers (.slice e) a = match h.readSlice a with
      | .ok s => h.buffersWith e.size (h.buffers e) s
      | .error _ => 0 := by
  rw [buffers]

end Heap

instance : Finite Address :=
  Finite.of_injective (fun a : Address => (⟨a.toNat, a.toNat_lt⟩ : Fin (2 ^ 64))) fun _ _ h =>
    Address.ext (Fin.mk.inj h)

namespace Allocator

/-- The objects that a value reaches and that are objects. -/
noncomputable def objects (s : Allocator) (v : Value) : Finset Address :=
  (Set.toFinite {x | s.Reaches v (.object x) ∧ ∃ d, s.classOf x = .ok d}).toFinset

theorem mem_objects {s : Allocator} {v : Value} {x : Address} :
    x ∈ s.objects v ↔ s.Reaches v (.object x) ∧ ∃ d, s.classOf x = .ok d := by simp [objects]

def sizeAt (s : Allocator) (x : Address) : Nat :=
  match s.classOf x with
  | .ok d => d.type.size
  | .error _ => 0

def objectBuffers (s : Allocator) (x : Address) : Multiset Nat :=
  match s.classOf x with
  | .ok d => (d.type.fields.map fun f => s.heap.buffers f.shape.copied (x + f.offset)).sum
  | .error _ => 0

/-- The blocks that a value takes besides those of its objects. -/
def rootBlocks (s : Allocator) : Value → Multiset Nat
  | .scalar _ | .object _ => 0
  | .aggregate a l => l.size ::ₘ s.heap.buffers (.aggregate l) a
  | .slice sl e => s.heap.buffersWith e.size (s.heap.buffers e) sl

/-- **The blocks that a copy takes**: one for each object, one for each slice that is not empty, as often as it is come
to, and one for an aggregate that is copied by itself. -/
noncomputable def demand (s : Allocator) (v : Value) : Multiset Nat :=
  s.rootBlocks v + ∑ x ∈ s.objects v, (s.sizeAt x ::ₘ s.objectBuffers x)

end Allocator
end Introspect
