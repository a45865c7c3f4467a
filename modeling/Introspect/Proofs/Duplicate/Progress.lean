import Introspect.Proofs.Duplicate.Graph
/-!
# A copy in progress

Between two steps of a copy every object on record has its twin: a block of its own with the header in place, and, once
its job is done, with its fields copied.  A block is `busy` while it is being filled; all other blocks of the copy are
left alone, so what has been copied stays copied (`Underway.grow`).  Nothing old is written either, so whatever the copy
reads of its source it reads as it stood at the call — provided that no address it follows lies where its own blocks
come to stand (`Settled`).  A block that comes in belongs to what is being copied then, so what is copied later has
other buffers (`Divided.add`).
-/
namespace Introspect

/-! ## What the source says -/

/-- An access of some bytes that the copy of a shape at an address makes. -/
inductive Shape.Reads : Shape → Address → Address → Nat → Prop where
  | scalar {n : Nat} {a : Address} (hn : n ≠ 0) : Reads (.scalar n) a a n
  | handle {n : Nat} {a : Address} (hn : n ≠ 0) : Reads (.handle n) a a n
  | object {a : Address} : Reads .object a a 8
  | length {e : Shape} {a : Address} : Reads (.slice e) a a 8
  | data {e : Shape} {a : Address} : Reads (.slice e) a (a + 8) 8

def Spot.Built : Spot → Prop
  | .object _ => True
  | .piece shape _ => shape.Built
  | .slice _ e => e.Built

namespace Allocator

/-- The sizes of all blocks when a value has been copied. -/
noncomputable def total (s : Allocator) (v : Value) : Multiset Nat := s.heap.sizes + s.demand v

/-- No block that the copy adds can answer an access: it is good already, or lies below the blocks to come or behind
them. -/
def Clear (s : Allocator) (v : Value) (a n : Nat) : Prop :=
  s.heap.Inside a n ∨ a < s.heap.next.toNat ∨ Heap.extent (s.total v) < a

/-- **Nothing that the value reaches lies where the copy itself will stand**, the vtables of its objects included.  On
the heap that the classes were declared on no vtable of theirs does (`WellFormed.clear_vtable`). -/
structure Settled (s : Allocator) (v : Value) : Prop where
  objects : ∀ x, s.Reaches v (.object x) → s.Clear v x.toNat 8
  vtables : ∀ x d, s.Reaches v (.object x) → s.heap.readAddress x = .ok d.vtable → d ∈ s.catalog.entries →
    s.Clear v d.vtable.toNat 8
  pieces : ∀ shape a x n, s.Reaches v (.piece shape a) → shape.Reads a x n → s.Clear v x.toNat n
  buffers : ∀ sl e n, s.Reaches v (.slice sl e) → sl.length ≠ 0 → Heap.bufferSize? sl.length e.size = some n →
    s.Clear v sl.data.toNat n

/-- Something that the value reaches is broken. -/
inductive Flaw (s : Allocator) (v : Value) : Prop where
  | object {x : Address} {e : Error} (hx : s.Reaches v (.object x)) (hd : s.classOf x = .error e) : Flaw s v
  | piece {shape : Shape} {a x : Address} {n : Nat} (ha : s.Reaches v (.piece shape a)) (hr : shape.Reads a x n)
    (hi : ¬ s.heap.Inside x.toNat n) : Flaw s v
  | slice {sl : Slice} {e : Shape} {err : Error} (hs : s.Reaches v (.slice sl e))
    (hc : s.heap.checkSlice sl e.size = .error err) : Flaw s v
  | uncopiable {sl : Slice} {e : Shape} (hv : v = .slice sl e) (hc : e.isCopiable = false) : Flaw s v

/-- All that a value reaches resolves: its objects are of declared classes, its slices have their buffers, and whatever
a copy reads of it lies in a block. -/
structure Resolves (s : Allocator) (v : Value) : Prop where
  objects : ∀ x, s.Reaches v (.object x) → ∃ d, s.classOf x = .ok d
  slices : ∀ sl e, s.Reaches v (.slice sl e) → ∃ n, s.heap.checkSlice sl e.size = .ok n
  pieces : ∀ shape a x n, s.Reaches v (.piece shape a) → shape.Reads a x n → s.heap.Inside x.toNat n

variable {s : Allocator} {v : Value}

/-- **What resolves is settled**: all that is read of it lies in the blocks that are there. -/
theorem Resolves.settled (hr : s.Resolves v) : s.Settled v where
  objects x hx := by
    obtain ⟨d, hd⟩ := hr.objects x hx
    obtain ⟨_, hread, -⟩ := classOf_ok.1 hd
    exact .inl (Heap.inside_of_readAddress hread)
  vtables x d hx hv _ := by
    obtain ⟨_, hd⟩ := hr.objects x hx
    obtain ⟨_, hread, hof⟩ := classOf_ok.1 hd
    obtain rfl := Except.ok.inj (hv.symm.trans hread)
    obtain ⟨_, hnumber, -⟩ := Catalog.ofVtable_ok.1 hof
    exact .inl (Heap.inside_of_readWord hnumber)
  pieces shape a x n ha hx := .inl (hr.pieces shape a x n ha hx)
  buffers sl e n hs h0 hn := by
    obtain ⟨m, hm⟩ := hr.slices sl e hs
    obtain ⟨rfl, -⟩ := Heap.bufferSize?_eq_some.1 hn
    exact .inl (Heap.inside_of_checkSlice h0 hm)

/-- The only flaw that is left to what resolves is that it cannot be copied at all. -/
theorem Resolves.uncopiable (hr : s.Resolves v) (hf : s.Flaw v) : ∃ sl e, v = .slice sl e ∧ e.isCopiable = false := by
  cases hf with
  | object hx hd =>
    obtain ⟨d, hd'⟩ := hr.objects _ hx
    cases hd'.symm.trans hd
  | piece ha hx hi => exact absurd (hr.pieces _ _ _ _ ha hx) hi
  | slice hs hc =>
    obtain ⟨n, hn⟩ := hr.slices _ _ hs
    cases hn.symm.trans hc
  | uncopiable hv hc => exact ⟨_, _, hv, hc⟩

/-- **A copy reads its source as it stood at the call.** -/
theorem Clear.read {h : Heap} (hs : s.Sound) (g : Heap.Grows Heap.Nowhere s.heap h) (hle : h.sizes ≤ s.total v)
    {a : Address} {n : Nat} (hc : s.Clear v a.toNat n) : h.read a n = s.heap.read a n := by
  by_cases hin : s.heap.Inside a.toNat n ∨ a.toNat < s.heap.next.toNat
  · exact g.read_old hs.arranged hin
  · have hlt : Heap.extent (s.total v) < a.toNat := (hc.resolve_left fun h => hin (.inl h)).resolve_left fun h =>
      hin (.inr h)
    have hnext : h.next.toNat ≤ Heap.extent (s.total v) := by
      rw [g.arranged.next, Heap.top_eq_extent]
      exact Heap.extent_mono hle
    rw [Heap.read_outside fun hi => hin (.inl hi), Heap.read_outside fun hi => ?_]
    have := g.arranged.inside_le_next hi
    omega

theorem WellFormed.clear_vtable (hs : s.WellFormed) {d : Declared} (hd : d ∈ s.catalog.entries) :
    s.Clear v d.vtable.toNat 8 :=
  .inl ⟨_, hs.vtables d hd, Nat.le_refl _, Nat.add_le_add_left (show 8 ≤ Catalog.vtableSize by decide) _⟩

/-- **An object is of the class that it was of at the call.** -/
theorem Settled.ofVtable_eq (hs : s.Sound) (hc : s.Settled v) {h : Heap} (g : Heap.Grows Heap.Nowhere s.heap h)
    (hle : h.sizes ≤ s.total v) {x vtable : Address} (hx : s.Reaches v (.object x))
    (hr : s.heap.readAddress x = .ok vtable) : s.catalog.ofVtable h vtable = s.ofVtable vtable := by
  by_cases hv : ∃ d ∈ s.catalog.entries, d.vtable = vtable
  · obtain ⟨d, hd, rfl⟩ := hv
    exact Catalog.ofVtable_congr ((hc.vtables x d hx hr hd).read hs g hle)
  · -- what is the vtable of no class is not known on any heap
    have herr : ∀ k, s.catalog.ofVtable k vtable = .error (.unknownVtable vtable) := fun k => by
      cases hk : s.catalog.ofVtable k vtable with
      | ok d => exact absurd ⟨d, Catalog.mem_of_ofVtable hk⟩ hv
      | error e => rw [Catalog.ofVtable_error hk]
    exact (herr h).trans (herr s.heap).symm

theorem Reaches.built (hs : s.Sound) (hv : v.Made) {spot : Spot} (hr : s.Reaches v spot) : spot.Built := by
  induction hr with
  | root _ | reference _ _ _ _ => trivial
  | rootAggregate h =>
    rw [h] at hv
    exact Shape.Made.built hv
  | rootSlice h =>
    rw [h] at hv
    exact Shape.Made.built hv
  | field _ hd hf _ => exact ((hs.built_of_classOf hd).built _ hf).copied
  | part _ hf ih =>
    cases ih with
    | aggregate _ _ _ hb => exact hb _ hf
  | header _ _ ih =>
    cases ih with
    | slice hb => exact hb
  | element _ _ _ ih => exact ih

end Allocator

/-! ## What is copied stays copied -/

namespace Divided

variable {ι : Type} {stock stock' new : Address → Prop} {part : ι → Address → Prop}

theorem mono (hd : Divided stock part) (h : ∀ b, stock b → stock' b) : Divided stock' part :=
  ⟨fun i b hb => h b (hd.within i b hb), hd.apart⟩

/-- What belongs to none yet may be given to one, in place of what that had. -/
theorem add [DecidableEq ι] (hd : Divided stock part) (k : ι) (hnew : ∀ b, new b → stock b ∧ ∀ i, ¬ part i b) :
    Divided stock (Function.update part k new) where
  within i b hb := by
    by_cases hi : i = k
    · rw [hi, Function.update_self] at hb
      exact (hnew b hb).1
    · rw [Function.update_of_ne hi] at hb
      exact hd.within i b hb
  apart i j b hi hj := by
    by_cases hik : i = k <;> by_cases hjk : j = k
    · rw [hik, hjk]
    · rw [hik, Function.update_self] at hi
      rw [Function.update_of_ne hjk] at hj
      exact absurd hj ((hnew b hi).2 j)
    · rw [Function.update_of_ne hik] at hi
      rw [hjk, Function.update_self] at hj
      exact absurd hi ((hnew b hj).2 i)
    · rw [Function.update_of_ne hik] at hi
      rw [Function.update_of_ne hjk] at hj
      exact hd.apart i j b hi hj

end Divided

theorem Copied.mono {h₀ h h' : Heap} {image image' : Address → Option Address} {W : Nat → Prop} (ha : h.Arranged)
    (g : Heap.Grows W h h') (hi : ∀ x y, image x = some y → image' x = some y) {own : Address → Prop} {shape : Shape}
    {a b : Address} (hc : Copied h₀ h image own shape a b) :
    (∀ c n, own c → (c.toNat, n) ∈ h.outline → ∀ x, Heap.Window c.toNat n x → ¬ W x) → shape.Built →
    h.Inside b.toNat shape.size → (∀ x, Heap.Window b.toNat shape.size x → ¬ W x) →
    Copied h₀ h' image' own shape a b := by
  have hbytes : ∀ (b : Address) (n : Nat), h.Inside b.toNat n → (∀ x, Heap.Window b.toNat n x → ¬ W x) →
      h'.bytesAt b.toNat n = h.bytesAt b.toNat n := fun b n hin hw =>
    Heap.bytesAt_congr fun i hin' => g.bytes _ (by have := ha.inside_le_next hin; omega) (hw _ ⟨by omega, by omega⟩)
  have hslice : ∀ (b : Address) (s : Slice), h.Inside b.toNat 16 → (∀ x, Heap.Window b.toNat 16 x → ¬ W x) →
      h.readSlice b = .ok s → h'.readSlice b = .ok s := fun b s hin hw hr => by
    have h8 : (b + 8).toNat = b.toNat + 8 := Address.toNat_add_of_lt (by have := ha.inside_lt hin; omega)
    refine Heap.readSlice_of_grows ha g (fun x hx => hw x (hx.mono (Nat.le_refl _) (by omega))) (fun x hx => hw x ?_) hr
    rw [h8] at hx
    exact hx.mono (by omega) (by omega)
  induction hc with
  | scalar bytes => exact fun _ _ hin hw => .scalar ((hbytes _ _ hin hw).trans bytes)
  | handle bytes => exact fun _ _ hin hw => .handle ((hbytes _ _ hin hw).trans bytes)
  | null hr hr' => exact fun _ _ _ hw => .null hr (Heap.readAddress_of_grows ha g hw hr')
  | reference hr hn hxy hr' =>
    exact fun _ _ _ hw => .reference hr hn (hi _ _ hxy) (Heap.readAddress_of_grows ha g hw hr')
  | empty hr h0 hr' => exact fun _ _ hin hw => .empty hr h0 (hslice _ _ hin hw hr')
  | @slice own e a b data s part hr h0 hr' new block divided elements ih =>
    intro hown hb hin hw
    cases hb with
    | slice hb =>
      have haway := hown data _ new block
      refine .slice hr h0 (hslice _ _ hin hw hr') new (g.outline.subset block) divided fun i hlt => ?_
      have hend := ha.inside_lt (a := data.toNat) (n := s.length.toNat * e.size) ⟨_, block, by simp, by simp⟩
      obtain ⟨-, h2, h3⟩ := Shape.elements_within (a := data) hend
        (List.mem_map.2 ⟨i, List.mem_range.2 hlt, rfl⟩)
      simp only [Piece.ofElement] at h2 h3
      refine ih i hlt (fun c n hc => hown c n (divided.within i c hc).1) hb
        ⟨_, block, by simpa using h2, by simpa using h3⟩ fun x hx => haway x (hx.mono ?_ ?_)
      · omega
      · omega
  | @aggregate own l a b part divided fields ih =>
    intro hown hb hin hw
    cases hb with
    | aggregate placed size align built =>
      refine .aggregate divided fun i f hf => ?_
      have hmem := List.mem_of_getElem? hf
      have hplace := (placed.bounds hmem).2
      have hlt := ha.inside_lt hin
      simp only [Shape.size] at hin hw hlt
      have hoff : (b + f.offset).toNat = b.toNat + f.offset := Address.toNat_add_of_lt (by omega)
      refine ih i f hf (fun c n hc => hown c n (divided.within i c hc)) (built f hmem)
        (by rw [hoff]; exact hin.mono (by omega) (by omega)) fun x hx => hw x ?_
      rw [hoff] at hx
      exact hx.mono (by omega) (by omega)

theorem Copied.weaken {h₀ h : Heap} {image : Address → Option Address} {own own' : Address → Prop}
    (hown : ∀ b, own b → own' b) {shape : Shape} {a b : Address} (hc : Copied h₀ h image own shape a b) :
    Copied h₀ h image own' shape a b := by
  cases hc with
  | scalar bytes => exact .scalar bytes
  | handle bytes => exact .handle bytes
  | null hr hr' => exact .null hr hr'
  | reference hr hn hxy hr' => exact .reference hr hn hxy hr'
  | empty hr h0 hr' => exact .empty hr h0 hr'
  | slice hr h0 hr' new block divided elements =>
    exact .slice hr h0 hr' (hown _ new) block (divided.mono fun c hc => ⟨hown c hc.1, hc.2⟩) elements
  | aggregate divided fields => exact .aggregate (divided.mono hown) fields

/-! ## The invariant -/

/-- An object of the source and the block of the copy that stands for it. -/
structure Twin (s : Allocator) (v : Value) (h : Heap) (x y : Address) (d : Declared) (vtable : Address) : Prop where
  reached : s.Reaches v (.object x)
  beyond : s.heap.Beyond y
  classOf : s.classOf x = .ok d
  block : (y.toNat, d.type.size) ∈ h.outline
  source : s.heap.readAddress x = .ok vtable
  vtable : h.readAddress y = .ok vtable
  monitor : h.readAddress (y + Class.monitorOffset) = .ok .null

def Heap.Starts (h : Heap) (b : Address) : Prop := ∃ n, (b.toNat, n) ∈ h.outline

theorem Heap.Arranged.not_starts {h : Heap} (ha : h.Arranged) {b : Address} (hb : h.Beyond b) : ¬ h.Starts b :=
  fun hstart => by
  obtain ⟨n, hn⟩ := hstart
  have h1 := (ha.bounds hn).2.1
  have h2 := Heap.one_le_span n
  have h3 : h.next.toNat ≤ b.toNat := hb
  simp only at h1
  omega

/-- A block of the copy that elements were put into, and that is not being filled. -/
def Traversal.Settles (s : Allocator) (busy : Nat → Prop) (t : Traversal) (b : Address) : Prop :=
  s.Buffer t.copyOf? b ∧ t.heap.Starts b ∧ ¬ busy b.toNat

/-- Between two steps; `own` says which buffers are those of which object, and which are those of the value itself. -/
structure Underway (s : Allocator) (v : Value) (own : Option Address → Address → Prop) (busy : Nat → Prop)
    (t : Traversal) : Prop where
  grown : Heap.Grows Heap.Nowhere s.heap t.heap
  twins : ∀ x y, t.copyOf? x = some y → ∃ d vtable, Twin s v t.heap x y d vtable
  injective : ∀ x x' y, t.copyOf? x = some y → t.copyOf? x' = some y → x = x'
  queue : ∀ j ∈ t.queue, t.copyOf? j.source = some j.target ∧ ∃ d, s.classOf j.source = .ok d ∧ d.type = j.type
  distinct : (t.queue.map Job.source).Nodup
  divided : Divided (t.Settles s busy) own
  done : ∀ x y d, t.copyOf? x = some y → ¬ busy y.toNat → x ∉ t.queue.map Job.source → s.classOf x = .ok d →
    CopiedFields s.heap t.heap t.copyOf? (own (some x)) d.type x y

namespace Twin

variable {s : Allocator} {v : Value} {h : Heap} {x y vtable : Address} {d : Declared}

theorem size_le (hs : s.Sound) (w : Twin s v h x y d vtable) : 16 ≤ d.type.size :=
  (hs.built_of_classOf w.classOf).placed.le

theorem field_inside (hs : s.Sound) (ha : h.Arranged) (w : Twin s v h x y d vtable) {f : Field}
    (hf : f ∈ d.type.fields) :
    (y + f.offset).toNat = y.toNat + f.offset ∧ 16 ≤ f.offset ∧ f.offset + f.shape.size ≤ d.type.size := by
  obtain ⟨h1, h2⟩ := (hs.built_of_classOf w.classOf).placed.bounds hf
  have h3 := (ha.bounds w.block).2.1
  have h4 := Heap.le_span d.type.size
  have h5 := h.next.toNat_lt
  simp only at h3
  exact ⟨Address.toNat_add_of_lt (by omega), h1, h2⟩

end Twin

/-- **The fields of an object stay copied** as long as neither its twin nor a buffer of its own is written. -/
theorem CopiedFields.mono {s : Allocator} {v : Value} {h h' : Heap} {image image' : Address → Option Address}
    {own : Address → Prop} {x y vtable : Address} {d : Declared} (hc : CopiedFields s.heap h image own d.type x y)
    (hs : s.Sound) (ha : h.Arranged) {W : Nat → Prop} (g : Heap.Grows W h h') (w : Twin s v h x y d vtable)
    (hi : ∀ x y, image x = some y → image' x = some y)
    (hown : ∀ c n, own c → (c.toNat, n) ∈ h.outline → ∀ z, Heap.Window c.toNat n z → ¬ W z)
    (htwin : ∀ z, Heap.Window y.toNat d.type.size z → ¬ W z) : CopiedFields s.heap h' image' own d.type x y := by
  obtain ⟨part, hdivided, hfields⟩ := hc
  refine ⟨part, hdivided, fun i f hf => ?_⟩
  have hmem := List.mem_of_getElem? hf
  obtain ⟨h1, -, h3⟩ := w.field_inside hs ha hmem
  refine (hfields i f hf).mono ha g hi (fun c n hc => hown c n (hdivided.within i c hc))
    ((hs.built_of_classOf w.classOf).built f hmem).copied ?_ fun z hz => htwin z ?_
  · rw [Shape.size_copied, h1]
    exact ⟨_, w.block, by simp, by simp only; omega⟩
  · rw [Shape.size_copied, h1] at hz
    exact hz.mono (by omega) (by omega)

namespace Underway

variable {s : Allocator} {v : Value} {own : Option Address → Address → Prop} {busy busy' : Nat → Prop}
  {t t' : Traversal}

/-- **Growth keeps the invariant** as long as only busy blocks of the copy are written, and of a twin that is busy not
the header.  More blocks may be busy afterwards, but none of those that were at rest. -/
theorem grow (hs : s.Sound) (u : Underway s v own busy t) {W : Nat → Prop} {h : Heap} (g : Heap.Grows W t.heap h)
    (hold : ∀ x, W x → s.heap.next.toNat ≤ x)
    (hheader : ∀ x y, t.copyOf? x = some y → ∀ z, Heap.Window y.toNat 16 z → ¬ W z)
    (hrest : ∀ e ∈ t.heap.outline, s.heap.next.toNat ≤ e.1 → ¬ busy e.1 →
      ¬ busy' e.1 ∧ ∀ z, Heap.Window e.1 e.2 z → ¬ W z)
    (hmore : ∀ b, busy b → busy' b) : Underway s v own busy' { t with heap := h } where
  grown := u.grown.trans hs.arranged g fun x hx hw => Nat.not_lt.2 (hold x hw) hx
  twins x y hxy := by
    obtain ⟨d, vtable, w⟩ := u.twins x y hxy
    have hsize := w.size_le hs
    have hend := (u.grown.arranged.bounds w.block).2.1
    have hspan := Heap.le_span d.type.size
    have hlast := t.heap.next.toNat_lt
    simp only at hend
    have h8 : (y + Class.monitorOffset).toNat = y.toNat + 8 :=
      Address.toNat_add_of_lt (by simp only [Class.monitorOffset]; omega)
    refine ⟨d, vtable, w.reached, w.beyond, w.classOf, g.outline.subset w.block, w.source, ?_, ?_⟩
    · exact Heap.readAddress_of_grows u.grown.arranged g (fun z hz => hheader x y hxy z
        (hz.mono (Nat.le_refl _) (by omega))) w.vtable
    · refine Heap.readAddress_of_grows u.grown.arranged g (fun z hz => hheader x y hxy z ?_) w.monitor
      rw [h8] at hz
      exact hz.mono (by omega) (by omega)
  injective := u.injective
  queue := u.queue
  distinct := u.distinct
  divided := u.divided.mono fun b hset => by
    obtain ⟨hbuf, ⟨n, hn⟩, hb⟩ := hset
    exact ⟨hbuf, ⟨n, g.outline.subset hn⟩, (hrest (b.toNat, n) hn hbuf.1 hb).1⟩
  done x y d hxy hb hq hd := by
    obtain ⟨d', vtable, w⟩ := u.twins x y hxy
    obtain rfl : d' = d := Except.ok.inj (w.classOf.symm.trans hd)
    have hby : ¬ busy y.toNat := fun h => hb (hmore _ h)
    refine (u.done x y d' hxy hby hq hd).mono hs u.grown.arranged g w (fun _ _ h => h) (fun b n hown hn => ?_)
      (hrest _ w.block w.beyond hby).2
    obtain ⟨hbuf, -, hrested⟩ := u.divided.within _ b hown
    exact (hrest (b.toNat, n) hn hbuf.1 hrested).2

end Underway

/-- Storage of the copy that may be written: part of a busy block, behind the header if that is a twin. -/
def Traversal.Open (s : Allocator) (busy : Nat → Prop) (t : Traversal) (b n : Nat) : Prop :=
  ∃ e ∈ t.heap.outline, busy e.1 ∧ s.heap.next.toNat ≤ e.1 ∧ e.1 ≤ b ∧ b + n ≤ e.1 + e.2 ∧
    ∀ x y, t.copyOf? x = some y → y.toNat = e.1 → e.1 + 16 ≤ b

namespace Traversal.Open

variable {s : Allocator} {busy : Nat → Prop} {t t' : Traversal} {b n : Nat}

theorem inside (o : t.Open s busy b n) : t.heap.Inside b n := by
  obtain ⟨e, he, -, -, h1, h2, -⟩ := o
  exact ⟨e, he, h1, h2⟩

theorem mono (o : t.Open s busy b n) {b' n' : Nat} (hb : b ≤ b') (hn : b' + n' ≤ b + n) : t.Open s busy b' n' := by
  obtain ⟨e, he, h1, h2, h3, h4, h5⟩ := o
  exact ⟨e, he, h1, h2, by omega, by omega, fun x y hx hy => by have := h5 x y hx hy; omega⟩

theorem extend (ha : t.heap.Arranged) {W : Nat → Prop} (o : t.Open s busy b n) (x : t.Extends W t') :
    t'.Open s busy b n := by
  obtain ⟨e, he, h1, h2, h3, h4, h5⟩ := o
  refine ⟨e, x.heap.outline.subset he, h1, h2, h3, h4, fun z y hz hy => ?_⟩
  rcases x.fresh z y hz with h | ⟨h, -⟩
  · exact h5 z y h hy
  · have h6 := (ha.bounds he).2.1
    have h7 := Heap.one_le_span e.2
    omega

end Traversal.Open

namespace Underway

variable {s : Allocator} {v : Value} {own : Option Address → Address → Prop} {busy busy' : Nat → Prop}
  {t t' : Traversal}

/-- **A write to an open place keeps the invariant.** -/
theorem write (hs : s.Sound) (u : Underway s v own busy t) {b n : Nat} (o : t.Open s busy b n) {h : Heap}
    (g : Heap.Grows (Heap.Window b n) t.heap h) : Underway s v own busy { t with heap := h } := by
  obtain ⟨e, he, h1, h2, h3, h4, h5⟩ := o
  refine u.grow hs g (fun x hx => ?_) (fun x y hxy z hz hw => ?_) (fun e' he' _ hb => ⟨hb, fun z hz hw => ?_⟩)
    fun _ h => h
  · have := hx.1
    omega
  · obtain ⟨d, vtable, w⟩ := u.twins x y hxy
    have hsize := w.size_le hs
    by_cases hy : y.toNat = e.1
    · have h6 := h5 x y hxy hy
      exact hz.apart (.inl (by omega)) hw
    · exact u.grown.arranged.window_apart w.block he hy z (hz.mono (Nat.le_refl _) (by simp only; omega))
        (hw.mono h3 h4)
  · exact u.grown.arranged.window_apart he' he (fun h => hb (h ▸ h1)) z hz (hw.mono h3 h4)

/-- **A new block keeps the invariant**, and may be busy from then on. -/
theorem allocate (hs : s.Sound) (u : Underway s v own busy t) {h : Heap} (g : Heap.Grows Heap.Nowhere t.heap h)
    (hmore : ∀ b, busy b → busy' b) (hnew : ∀ b, busy' b → busy b ∨ t.heap.next.toNat ≤ b) :
    Underway s v own busy' { t with heap := h } := by
  refine u.grow hs g (fun _ h => h.elim) (fun _ _ _ _ _ h => h) (fun e he _ hb => ⟨fun hb' => ?_, fun _ _ h => h⟩)
    hmore
  have h1 := (u.grown.arranged.bounds he).2.1
  have h2 := Heap.one_le_span e.2
  rcases hnew e.1 hb' with h | h
  · exact hb h
  · omega

theorem rest (u : Underway s v own busy' t) (hless : ∀ b, busy b → busy' b)
    (hnot : ∀ x y, t.copyOf? x = some y → busy' y.toNat → busy y.toNat) : Underway s v own busy t where
  grown := u.grown
  twins := u.twins
  injective := u.injective
  queue := u.queue
  distinct := u.distinct
  divided := u.divided.mono fun _ hset => ⟨hset.1, hset.2.1, fun h => hset.2.2 (hless _ h)⟩
  done x y d hxy hb hq hd := u.done x y d hxy (fun h => hb (hnot x y hxy h)) hq hd

end Underway
end Introspect
