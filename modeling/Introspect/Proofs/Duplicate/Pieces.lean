import Introspect.Duplicate.Traversal
import Introspect.Proofs.Action
import Introspect.Proofs.Heap.Words
import Introspect.Proofs.Layout.Placed
/-!
# A copy as a list of pieces

The fields of an aggregate, the elements of a slice and the fields of an object are copied alike: one piece after the
other, each of a shape, from an address to an address.  What holds of a list of pieces is proved once, and so is that
what holds of each step holds of a piece (`Steps`).
-/
namespace Introspect

/-- The shape that a field of an object is copied in: its own, or bare bytes where no copy is defined. -/
def Shape.copied (shape : Shape) : Shape := if shape.isCopiable then shape else .handle shape.size

@[simp] theorem Shape.size_copied (shape : Shape) : shape.copied.size = shape.size := by
  unfold copied
  split <;> rfl

theorem Shape.Built.copied {shape : Shape} (hb : shape.Built) : shape.copied.Built := by
  unfold Shape.copied
  split
  · exact hb
  · exact .handle _

structure Piece where
  shape : Shape
  source : Address
  target : Address

namespace Piece

def ofField (a b : Address) (f : Field) : Piece := ⟨f.shape, a + f.offset, b + f.offset⟩

def ofObjectField (a b : Address) (f : Field) : Piece := ⟨f.shape.copied, a + f.offset, b + f.offset⟩

def ofElement (element : Shape) (a b : Address) (i : Nat) : Piece :=
  ⟨element, a + i * element.size, b + i * element.size⟩

end Piece

def Aggregate.pieces (l : Aggregate) (a b : Address) : List Piece := l.fields.map (.ofField a b)

def Shape.elements (element : Shape) (n : Nat) (a b : Address) : List Piece :=
  (List.range n).map (.ofElement element a b)

def Job.pieces (j : Job) : List Piece := j.type.fields.map (.ofObjectField j.source j.target)

/-- Fields in a row are copied to windows in a row. -/
theorem Placed.targets_row {fs : List Field} {lo hi : Nat} (hp : Placed lo fs hi) {b : Address}
    (hlt : b.toNat + hi < 2 ^ 64) {toPiece : Field → Piece} (ht : ∀ f ∈ fs, (toPiece f).target = b + f.offset)
    (hs : ∀ f ∈ fs, (toPiece f).shape.size = f.shape.size) :
    (fs.map toPiece).Pairwise fun p q => p.target.toNat + p.shape.size ≤ q.target.toNat := by
  refine List.pairwise_map.2 (hp.pairwise.imp_of_mem fun {f g} hf hg h => ?_)
  have h1 := (hp.bounds hf).2
  have h2 := (hp.bounds hg).2
  rw [ht f hf, ht g hg, hs f hf, Address.toNat_add_of_lt (by omega), Address.toNat_add_of_lt (by omega)]
  omega

/-- **The elements of a slice lie in its buffer.** -/
theorem Shape.elements_within {element : Shape} {n : Nat} {a b : Address} (hlt : b.toNat + n * element.size < 2 ^ 64)
    {p : Piece} (hp : p ∈ element.elements n a b) :
    p.shape = element ∧ b.toNat ≤ p.target.toNat ∧ p.target.toNat + element.size ≤ b.toNat + n * element.size := by
  obtain ⟨i, hi, rfl⟩ := List.mem_map.1 hp
  have h1 : (i + 1) * element.size ≤ n * element.size := Nat.mul_le_mul_right _ (List.mem_range.1 hi)
  rw [Nat.add_mul, Nat.one_mul] at h1
  have h2 : (b + i * element.size).toNat = b.toNat + i * element.size := Address.toNat_add_of_lt (by omega)
  simp only [Piece.ofElement, h2]
  exact ⟨trivial, by omega, by omega⟩

namespace Traversal

def copyPiece (c : Catalog) (p : Piece) : Run PUnit := copyShape c p.shape p.source p.target

theorem copyFields_eq (c : Catalog) (a b : Address) : ∀ fs : Fields,
    copyFields c fs a b = forM (fs.toList.map (Piece.ofField a b)) (copyPiece c)
  | .nil => by
    rw [copyFields]
    rfl
  | .cons name offset shape rest => by
    rw [copyFields, copyFields_eq c a b rest, Fields.toList, List.map_cons, List.forM_cons]
    rfl

theorem copyShape_aggregate (c : Catalog) (l : Aggregate) (a b : Address) :
    copyShape c (.aggregate l) a b = forM (l.pieces a b) (copyPiece c) := by
  cases l with
  | mk name fs size align =>
    rw [copyShape, copyAggregate, copyFields_eq]
    rfl

theorem copyAggregate_eq (c : Catalog) (l : Aggregate) (a b : Address) :
    copyAggregate c l a b = copyShape c (.aggregate l) a b := by rw [copyShape]

theorem eachElement_eq (c : Catalog) (element : Shape) : ∀ (n : Nat) (a b : Address),
    eachElement element.size (copyShape c element) n a b = forM (element.elements n a b) (copyPiece c)
  | 0, _, _ => rfl
  | n + 1, a, b => by
    have hnext : ∀ (a : Address) (i : Nat), a + element.size + i * element.size = a + (i + 1) * element.size :=
      fun a i => by
        rw [Address.add_add, Nat.add_mul, Nat.one_mul, Nat.add_comm]
    rw [eachElement, eachElement_eq c element n, Shape.elements, Shape.elements, List.range_succ_eq_map, List.map_cons,
      List.forM_cons, List.map_map]
    simp only [copyPiece, Piece.ofElement, Nat.zero_mul, Address.add_zero]
    congr 2
    funext _
    congr 1
    exact List.map_congr_left fun i _ => by simp only [Piece.ofElement, Function.comp_apply, hnext, Nat.succ_eq_add_one]

theorem copyField_eq (c : Catalog) (j : Job) (f : Field) :
    copyField c j f = copyPiece c (.ofObjectField j.source j.target f) := by
  simp only [copyField, copyPiece, Piece.ofObjectField, Shape.copied]
  split
  · rfl
  · rw [copyShape]

theorem forM_flatMap {α β ε σ : Type} (f : α → Action ε σ PUnit) (g : β → List α) : ∀ xs : List β,
    forM xs (fun x => forM (g x) f) = forM (xs.flatMap g) f
  | [] => rfl
  | x :: xs => by
    rw [List.forM_cons, forM_flatMap f g xs, List.flatMap_cons, List.forM_append]

theorem finish_eq (c : Catalog) (j : Job) : finish c j = forM j.pieces (copyPiece c) := by
  have hfield : ∀ f, copyField c j f = copyPiece c (.ofObjectField j.source j.target f) := copyField_eq c j
  simp only [finish, List.forM_eq_forM]
  rw [forM_flatMap, Job.pieces, List.forM_map]
  exact congrArg _ (funext hfield)

/-! ## What holds of each step -/

/-- A property of runs that sequences hand on and each step has that the copy of a piece is made of. -/
structure Steps (c : Catalog) (R : ∀ α : Type, Run α → Prop) : Prop extends Action.Closed R where
  query : ∀ {α : Type} (f : Traversal → Except Error α), R α (Action.query f)
  modify : ∀ f, R Unit (onHeap (Action.modifyM f))
  newSlice : ∀ size length, R Slice (onHeap (Heap.newSlice size length))
  writeSlice : ∀ a s, R Unit (onHeap (Heap.writeSlice a s))
  copyObject : ∀ source, R Address (copyObject c source)

namespace Steps

variable {c : Catalog} {R : ∀ α : Type, Run α → Prop}

theorem copySlice (h : Steps c R) {element : Shape} (s : Slice)
    (ih : ∀ source target, R Unit (copyShape c element source target)) :
    R Slice (copySliceWith element.size (copyShape c element) s) := by
  refine h.bind (h.query _) fun _ => h.bind (h.newSlice _ _) fun copy => ?_
  rw [eachElement_eq]
  exact h.bind (h.forM fun p hp => (List.mem_map.1 hp).elim fun i hi => hi.2 ▸ ih _ _) fun _ => h.pure _

/-- **What holds of the steps holds of the copy of a piece**, whatever its shape. -/
theorem copyShape (h : Steps c R) (shape : Shape) : ∀ source target, R Unit (copyShape c shape source target) := by
  induction shape using Shape.induction with
  | scalar n | handle n =>
    intro source target
    rw [Traversal.copyShape]
    exact h.modify _
  | object =>
    intro source target
    rw [Traversal.copyShape]
    refine h.bind (h.query _) fun old => ?_
    dsimp only
    split
    · exact h.bind (h.pure _) fun new => h.modify _
    · exact h.bind (h.copyObject old) fun new => h.modify _
  | slice e ih =>
    intro source target
    rw [Traversal.copyShape]
    exact h.bind (h.query _) fun s => h.bind (h.copySlice s ih) fun copy => h.writeSlice target copy
  | aggregate l ih =>
    intro source target
    rw [copyShape_aggregate]
    refine h.forM fun p hp => ?_
    obtain ⟨f, hf, rfl⟩ := List.mem_map.1 hp
    exact ih f hf _ _

theorem finish (h : Steps c R) (j : Job) : R Unit (finish c j) := by
  rw [finish_eq]
  exact h.forM fun p _ => h.copyShape p.shape p.source p.target

end Steps
end Traversal
end Introspect
