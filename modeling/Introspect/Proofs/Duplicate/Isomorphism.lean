import Introspect.Proofs.Duplicate.Frontier
/-!
# Deep copies are isomorphic

Of a value whose graph is intact a deep copy makes the same graph again, on storage of its own; nothing but the end of
memory can keep it from that.  Of an object that reaches a dangling reference it makes none, unless the stray address
lies in a block of the copy itself: a reference is checked only when it is followed, on a heap that has grown by then.
-/
namespace Introspect
namespace Allocator

variable {s : Allocator} {v : Value}

theorem Intact.inside (hs : s.Sound) (hv : v.Made) (hi : s.Intact v) {shape : Shape} {a : Address}
    (hr : s.Reaches v (.piece shape a)) : s.heap.Inside a.toNat shape.size := by
  generalize hspot : Spot.piece shape a = spot at hr
  induction hr generalizing shape a with
  | root _ | rootSlice _ | header _ _ _ | reference _ _ _ _ => cases hspot
  | rootAggregate hv =>
    cases hspot
    exact hi.aggregate _ _ hv
  | @field x d f hx hd hf _ =>
    cases hspot
    obtain ⟨d', hd', hin⟩ := hi.objects x hx
    obtain rfl := Except.ok.inj (hd'.symm.trans hd)
    have hlt := hs.arranged.inside_lt hin
    have hplace := ((hs.built_of_classOf hd).placed.bounds hf).2
    rw [Shape.size_copied, Address.toNat_add_of_lt (by omega)]
    exact hin.mono (by omega) (by omega)
  | @part b l f hb hf ih =>
    cases hspot
    have hin := ih rfl
    have hlt := hs.arranged.inside_lt hin
    have hbuilt : (Shape.aggregate l).Built := hb.built hs hv
    cases hbuilt with
    | aggregate placed _ _ _ =>
      have hplace := (placed.bounds hf).2
      simp only [Shape.size] at hin hlt
      rw [Address.toNat_add_of_lt (by omega)]
      exact hin.mono (by omega) (by omega)
  | @element sl e n i _ hc hlt _ =>
    cases hspot
    have h0 : sl.length ≠ 0 := fun h => by
      rw [h] at hlt
      exact absurd hlt (Nat.not_lt_zero _)
    have hin := Heap.inside_of_checkSlice h0 hc
    have hend := hs.arranged.inside_lt hin
    obtain ⟨-, h2, h3⟩ := Shape.elements_within (a := sl.data) hend (List.mem_map.2 ⟨i, List.mem_range.2 hlt, rfl⟩)
    exact hin.mono h2 h3

theorem Intact.reads (hs : s.Sound) (hv : v.Made) (hi : s.Intact v) {shape : Shape} {a x : Address} {n : Nat}
    (hr : s.Reaches v (.piece shape a)) (hx : shape.Reads a x n) : s.heap.Inside x.toNat n := by
  have hin := hi.inside hs hv hr
  cases hx with
  | scalar _ | handle _ | object => exact hin
  | length => exact hin.mono (Nat.le_refl _) (by simp only [Shape.size, Shape.sliceHeaderSize]; omega)
  | data =>
    have hlt := hs.arranged.inside_lt hin
    simp only [Shape.size, Shape.sliceHeaderSize] at hin hlt
    have h8 : (a + 8).toNat = a.toNat + 8 := Address.toNat_add_of_lt (by omega)
    rw [h8]
    exact hin.mono (by omega) (by omega)

/-- **What is intact resolves**: all that it reaches lies in the blocks that are there. -/
theorem Intact.resolves (hs : s.Sound) (hv : v.Made) (hi : s.Intact v) : s.Resolves v where
  objects x hx := (hi.objects x hx).imp fun _ h => h.1
  slices := hi.slices
  pieces _ _ _ _ ha hx := hi.reads hs hv ha hx

theorem Intact.settled (hs : s.Sound) (hv : v.Made) (hi : s.Intact v) : s.Settled v := (hi.resolves hs hv).settled

/-- What is intact has no flaw, if it can be copied at all. -/
theorem Intact.flawless (hs : s.Sound) (hv : v.Made) (hcop : ∀ sl e, v = .slice sl e → e.isCopiable = true)
    (hi : s.Intact v) : ¬ s.Flaw v := fun hflaw => by
  obtain ⟨sl, e, hslice, hno⟩ := (hi.resolves hs hv).uncopiable hflaw
  rw [hcop sl e hslice] at hno
  cases hno

theorem ends_deepCopy {ok : Value → Allocator → Prop} {stop : Stop Error → Allocator → Prop} :
    (deepCopy v).Ends s ok stop ↔
      (Traversal.copyRoot s.catalog v).Ends ⟨s.heap, {}⟩ (fun copy t => ok copy { s with heap := t.heap })
        fun e t => stop e { s with heap := t.heap } := by
  have hown : (deepCopy v).Ends s ok stop ↔
      (Duplicator.deepCopy v).Ends (s, {}) (fun copy sd => ok copy sd.1) fun e sd => stop e sd.1 := by
    simp only [Action.Ends, deepCopy]
    rcases Duplicator.deepCopy v (s, {}) with ⟨copy, s', d⟩ | ⟨e, s', d⟩ <;> rfl
  rw [hown, Duplicator.ends_deepCopy]
  constructor
  · refine fun h => h.mono (fun _ _ h => h) fun e t h => ?_
    cases e <;> exact h
  · refine fun h => h.mono (fun _ _ h => h) fun e t h => ?_
    cases e <;> exact h

end Allocator

/-! ## A pair and its leaf -/

namespace Pair

def leaf : Class := ⟨⟨"m::Leaf", [], 16⟩, []⟩
def pair : Class := ⟨⟨"m::Pair", [⟨"x", 16, .object⟩, ⟨"y", 24, .object⟩], 32⟩, []⟩

def leafVtable : Address := .ofNat 0x10000000
def pairVtable : Address := .ofNat 0x10000010
def root : Address := .ofNat 0x10000020
def other : Address := .ofNat 0x10000040

/-- A pair whose first field refers to a leaf, and whose second field holds `y`. -/
def state (y : Address) : Allocator where
  settings := {}
  heap.blocks := [
    ⟨other, Octets.encode 8 leafVtable.toNat ++ Octets.encode 8 0⟩,
    ⟨root, Octets.encode 8 pairVtable.toNat ++ Octets.encode 8 0 ++ Octets.encode 8 other.toNat
      ++ Octets.encode 8 y.toNat⟩,
    ⟨pairVtable, Octets.encode 8 2 ++ Octets.encode 8 32⟩,
    ⟨leafVtable, Octets.encode 8 1 ++ Octets.encode 8 16⟩]
  heap.next := .ofNat 0x10000050
  catalog.entries := [⟨⟨leaf, none⟩, leafVtable, none⟩, ⟨⟨pair, none⟩, pairVtable, none⟩]
  registry.mapsPath := ""

/-- An address below all blocks, and the one where the copy of the leaf would have its third word. -/
def below : Address := .ofNat 0x20
def ahead : Address := .ofNat 0x10000070

theorem declared : ∃ s₁ s₂, Allocator.declare ⟨leaf, none⟩ (.withRegistry {} { mapsPath := "" }) = .ok () s₁ ∧
    Allocator.declare ⟨pair, none⟩ s₁ = .ok () s₂ ∧ s₂.settings = {} ∧
    s₂.heap.outline = [(0x10000010, 16), (0x10000000, 16)] ∧ s₂.catalog = (state .null).catalog :=
  ⟨_, _, rfl, rfl, rfl, rfl, rfl⟩

theorem reachable (y : Address) : (state y).Reachable := by
  obtain ⟨s₁, s₂, h₁, h₂, hset, hout, hcat⟩ := declared
  have hleaf : leaf.Made := .root (by simp) (show Class.build "m::Leaf" none [] = .ok leaf by rfl)
  have hpair : pair.Made := .root (by
    intro f hf
    rcases List.mem_cons.1 hf with rfl | hf
    · exact .object
    · obtain rfl := List.mem_singleton.1 hf
      exact .object) (show Class.build "m::Pair" none [("x", .object), ("y", .object)] = .ok pair by rfl)
  have r := ((Allocator.Reachable.start {} { mapsPath := "" }).declare hleaf h₁).declare hpair h₂
  have g : Heap.Grows Allocator.Everywhere s₂.heap (state y).heap := by
    have hrow : (state y).heap.outline = [(0x10000040, 16), (0x10000020, 32), (0x10000010, 16), (0x10000000, 16)] := rfl
    refine ⟨⟨?_, ?_⟩, ?_, fun _ _ h => (h trivial).elim⟩
    · rw [hrow]
      decide
    · rw [hrow]
      rfl
    · rw [hout, hrow]
      exact ⟨[(0x10000040, 16), (0x10000020, 32)], rfl⟩
  have hstate : state y = { s₂ with heap := (state y).heap, registry := { mapsPath := "" } } := by
    rw [hset, hcat]
    rfl
  rw [hstate]
  exact (r.heap g).registry { mapsPath := "" }

def targets : List Address := [root, below, ahead]

theorem reads : ∀ y ∈ targets, (state y).heap.readAddress root = .ok pairVtable ∧
    (state y).heap.readAddress other = .ok leafVtable ∧ (state y).heap.readAddress (root + 16) = .ok other ∧
    (state y).heap.readAddress (root + 24) = .ok y ∧ (state y).heap.readWord pairVtable = .ok 2 ∧
    (state y).heap.readWord leafVtable = .ok 1 := by decide +kernel

variable {y : Address}

theorem classOf_root (hy : y ∈ targets) : (state y).classOf root = .ok ⟨⟨pair, none⟩, pairVtable, none⟩ := by
  obtain ⟨hr, -, -, -, hn, -⟩ := reads y hy
  exact Allocator.classOf_ok.2 ⟨_, hr, Catalog.ofVtable_ok.2 ⟨2, hn, by decide, rfl, rfl⟩⟩

theorem classOf_other (hy : y ∈ targets) : (state y).classOf other = .ok ⟨⟨leaf, none⟩, leafVtable, none⟩ := by
  obtain ⟨-, hr, -, -, -, hn⟩ := reads y hy
  exact Allocator.classOf_ok.2 ⟨_, hr, Catalog.ofVtable_ok.2 ⟨1, hn, by decide, rfl, rfl⟩⟩

theorem classOf_stray : ∀ y ∈ [below, ahead], ∀ d, (state y).classOf y ≠ .ok d := fun y hy d hd => by
  have hno : ∀ y ∈ [below, ahead], ((state y).heap.readAddress y).toOption = none := by decide +kernel
  obtain ⟨v, hr, -⟩ := Allocator.classOf_ok.1 hd
  have h := hno y hy
  rw [hr] at h
  cases h

theorem reaches (hy : y ∈ targets) {spot : Spot} (h : (state y).Reaches (.object (some root)) spot) :
    spot ∈ [.object root, .object other, .object y, .piece .object (root + 16), .piece .object (root + 24)] := by
  have hfields : ∀ f ∈ pair.fields, f = ⟨"x", 16, .object⟩ ∨ f = ⟨"y", 24, .object⟩ := fun f hf => by
    simpa [pair, Class.fields, Class.ancestry] using hf
  induction h with
  | root hv =>
    obtain rfl := Option.some.inj (Value.object.inj hv)
    exact List.mem_cons_self
  | rootAggregate hv | rootSlice hv => cases hv
  | @field x d f _ hd hf ih =>
    have hx : x = root ∧ d.type = pair ∨ d.type = leaf := by
      rcases (by simpa using ih : x = root ∨ x = other ∨ x = y) with rfl | rfl | rfl
      · exact .inl ⟨rfl, by rw [← Except.ok.inj ((classOf_root hy).symm.trans hd)]; rfl⟩
      · exact .inr (by rw [← Except.ok.inj ((classOf_other hy).symm.trans hd)]; rfl)
      · rcases List.mem_cons.1 hy with rfl | hy
        · exact .inl ⟨rfl, by rw [← Except.ok.inj ((classOf_root List.mem_cons_self).symm.trans hd)]; rfl⟩
        · exact absurd hd (classOf_stray x hy d)
    rcases hx with ⟨rfl, ht⟩ | ht
    · rcases hfields f (ht ▸ hf) with rfl | rfl <;> simp [Shape.copied, Shape.isCopiable]
    · rw [ht] at hf
      cases hf
  | part _ _ ih | header _ _ ih | element _ _ _ ih => simp at ih
  | reference _ hx _ ih =>
    obtain ⟨-, -, h1, h2, -, -⟩ := reads y hy
    rcases (by simpa using ih : _ = root + 16 ∨ _ = root + 24) with rfl | rfl
    · obtain rfl := Except.ok.inj (h1.symm.trans hx)
      simp
    · obtain rfl := Except.ok.inj (h2.symm.trans hx)
      simp

theorem reaches_second (hy : y ∈ targets) : (state y).Reaches (.object (some root)) (.object y) := by
  obtain ⟨-, -, -, h, -, -⟩ := reads y hy
  have hf : (⟨"y", 24, .object⟩ : Field) ∈ pair.fields := by simp [pair, Class.fields, Class.ancestry]
  exact .reference (.field (.root rfl) (classOf_root hy) hf) h (by revert y; decide)

/-- With a reference to itself in its second field, the pair is intact. -/
theorem intact : (state root).Intact (.object (some root)) where
  objects x hx := by
    rcases (by simpa using reaches List.mem_cons_self hx : x = root ∨ x = other ∨ x = root) with rfl | rfl | rfl
    · exact ⟨_, classOf_root List.mem_cons_self, (root.toNat, 32), by decide, Nat.le_refl _, Nat.le_refl _⟩
    · exact ⟨_, classOf_other List.mem_cons_self, (other.toNat, 16), by decide, Nat.le_refl _, Nat.le_refl _⟩
    · exact ⟨_, classOf_root List.mem_cons_self, (root.toNat, 32), by decide, Nat.le_refl _, Nat.le_refl _⟩
  slices sl e h := by simpa using reaches List.mem_cons_self h
  aggregate a l h := by cases h

theorem outside : ∀ y ∈ [below, ahead], ∀ b ∈ (state y).heap.blocks,
    ¬ (b.base ≤ y ∧ y.toNat < b.base.toNat + b.bytes.length) := by decide +kernel

theorem settled : (state below).Settled (.object (some root)) where
  objects x hx := by
    have hy : below ∈ targets := by decide
    rcases (by simpa using reaches hy hx : x = root ∨ x = other ∨ x = below) with rfl | rfl | rfl
    · exact .inl ⟨(root.toNat, 32), by decide, by decide, by decide⟩
    · exact .inl ⟨(other.toNat, 16), by decide, by decide, by decide⟩
    · exact .inr (.inl (by decide))
  vtables x d _ _ hd := (reachable below).wellFormed.clear_vtable hd
  pieces shape a x n h hr := by
    have hy : below ∈ targets := by decide
    rcases (by simpa using reaches hy h :
      shape = .object ∧ a = root + 16 ∨ shape = .object ∧ a = root + 24) with ⟨rfl, rfl⟩ | ⟨rfl, rfl⟩
    · cases hr
      exact .inl ⟨(root.toNat, 32), by decide, by decide, by decide⟩
    · cases hr
      exact .inl ⟨(root.toNat, 32), by decide, by decide, by decide⟩
  buffers sl e n h := by simpa using reaches (by decide) h

end Pair

namespace Allocator

variable {s : Allocator} {v : Value}

/-- **A deep copy is a graph isomorphism onto fresh storage.**  On any heap with its blocks in a row, a value whose
graph is intact is copied to one that is isomorphic, with each object's image, and each buffer, in a block of its own
behind all that were there; the copy is never refused, and stops only where the blocks of both graphs together do not
fit into memory. -/
theorem deepCopy_isomorphic (hs : s.Sound) (hv : v.Made) (hcop : ∀ sl e, v = .slice sl e → e.isCopiable = true)
    (hi : s.Intact v) :
    (deepCopy v).Ends s (fun copy s' => ∃ image own, Isomorphic s s' image own v copy)
      fun e _ => (∃ f, e = .fault f) ∧ ¬ Heap.Room (s.total v) := by
  rw [ends_deepCopy]
  exact (copyRoot_spec hs hv (hi.settled hs hv)).mono (fun copy t h => ⟨t.copyOf?, h.1⟩) fun e t h =>
    h.cause.resolve_right fun hf => hi.flawless hs hv hcop hf.2

theorem deepCopy_isomorphic_pair : ∃ copy s' image own,
    deepCopy (.object (some Pair.root)) (Pair.state Pair.root) = .ok copy s' ∧
    Isomorphic (Pair.state Pair.root) s' image own (.object (some Pair.root)) copy := by
  have h := deepCopy_isomorphic (v := .object (some Pair.root)) (Pair.reachable Pair.root).sound trivial
    (fun _ _ h => by cases h) Pair.intact
  have hrun : (deepCopy (.object (some Pair.root))).returns (Pair.state Pair.root) = true := by decide +kernel
  obtain ⟨copy, s', hs⟩ := Action.exists_of_returns hrun
  obtain ⟨image, own, hi⟩ := h.of_ok hs
  exact ⟨copy, s', image, own, hs, hi⟩

theorem block_of_classOf {a : Address} {d : Declared} (hd : s.classOf a = .ok d) :
    ∃ b ∈ s.heap.blocks, b.base ≤ a ∧ a.toNat < b.base.toNat + b.bytes.length := by
  obtain ⟨_, hr, -⟩ := classOf_ok.1 hd
  obtain ⟨e, he, h1, h2⟩ := Heap.inside_of_readAddress hr
  obtain ⟨b, hb, hb1, hb2⟩ := Heap.exists_block he
  exact ⟨b, hb, by rw [Address.le_iff, hb1]; exact h1, by omega⟩

/-- Of an object that reaches a dangling reference there is a copy only if the copy itself has put a block there. -/
theorem deepCopy_dangling (hs : s.Sound) {o x : Address} (hx : s.Reaches (.object (some o)) (.object x))
    (hout : ∀ b ∈ s.heap.blocks, ¬ (b.base ≤ x ∧ x.toNat < b.base.toNat + b.bytes.length)) :
    (deepCopy (.object (some o))).Ends s
      (fun _ s' => ∃ b ∈ s'.heap.blocks, s.heap.Beyond b.base ∧ b.base ≤ x ∧ x.toNat < b.base.toNat + b.bytes.length)
      fun _ _ => True := by
  rw [ends_deepCopy]
  have hkept := Traversal.copyRoot_keeps hs.built hs.arranged (v := .object (some o)) trivial
  refine ((Traversal.copyRoot_looked hs o).and hkept).mono (fun _ t hcopied => ?_) fun _ _ _ => trivial
  obtain ⟨hlook, k⟩ := hcopied
  obtain ⟨e, he, h1, h2⟩ := hlook x hx
  obtain ⟨b, hb, hb1, hb2⟩ := Heap.exists_block he
  refine ⟨b, hb, Nat.not_lt.1 fun hold => ?_, by rw [Address.le_iff, hb1]; exact h1, by omega⟩
  obtain ⟨c, hc, hc1, hc2⟩ := Heap.exists_block (k.heap.old_of_base hs.arranged he (hb1 ▸ hold))
  exact hout c hc ⟨by rw [Address.le_iff, hc1]; exact h1, by omega⟩

/-- Where nothing that an object reaches lies where its copy will stand, a dangling reference ends the copy in a
failure, or memory is used up. -/
theorem deepCopy_settled (hs : s.Sound) {o x : Address} (hc : s.Settled (.object (some o)))
    (hx : s.Reaches (.object (some o)) (.object x))
    (hout : ∀ b ∈ s.heap.blocks, ¬ (b.base ≤ x ∧ x.toNat < b.base.toNat + b.bytes.length)) :
    (deepCopy (.object (some o))).Ends s (fun _ _ => False)
      (fun e _ => (∃ err, e = .failure err) ∨ (∃ f, e = .fault f) ∧ ¬ Heap.Room (s.total (.object (some o)))) ∧
    (Traversal.copyRoot s.catalog (.object (some o))).Always ⟨s.heap, {}⟩ fun t => ∀ a c, t.copyOf? a = some c →
      ∃ b ∈ s.heap.blocks, b.base ≤ a ∧ a.toNat < b.base.toNat + b.bytes.length := by
  have hrun := copyRoot_spec hs (v := .object (some o)) trivial hc
  rw [ends_deepCopy]
  constructor
  · refine hrun.mono (fun copy t h => ?_) fun e t h => h.cause.symm.imp_left And.left
    obtain ⟨⟨_, hi⟩, -⟩ := h
    obtain ⟨y, hxy⟩ := (hi.domain x).2 hx
    obtain ⟨d, hd, -⟩ := hi.header x y hxy
    obtain ⟨b, hb, hin⟩ := block_of_classOf hd
    exact hout b hb hin
  · refine hrun.mono (fun copy t h a c hac => ?_) fun e t h a c hac => ?_
    · obtain ⟨⟨_, hi⟩, -⟩ := h
      obtain ⟨d, hd, -⟩ := hi.header a c hac
      exact block_of_classOf hd
    · obtain ⟨-, d, hd⟩ := h.known a c hac
      exact block_of_classOf hd

/-- **A dangling reference is reported, unless it points into a block of the copy itself.**  There is never a copy but
where the stray address lies in a block that the call has allocated.  If nothing that the object reaches lies where the
copy will stand, the call ends in a failure, or memory is used up, and on either way out no object is on record that is
not in a block of the heap as it was. -/
theorem deepCopy_reports_dangling (hs : s.Sound) {o x : Address} (hx : s.Reaches (.object (some o)) (.object x))
    (hout : ∀ b ∈ s.heap.blocks, ¬ (b.base ≤ x ∧ x.toNat < b.base.toNat + b.bytes.length)) :
    (deepCopy (.object (some o))).Ends s
      (fun _ s' => ∃ b ∈ s'.heap.blocks, s.heap.Beyond b.base ∧ b.base ≤ x ∧ x.toNat < b.base.toNat + b.bytes.length)
      (fun _ _ => True) ∧
    (s.Settled (.object (some o)) →
      (deepCopy (.object (some o))).Ends s (fun _ _ => False)
        (fun e _ => (∃ err, e = .failure err) ∨ (∃ f, e = .fault f) ∧ ¬ Heap.Room (s.total (.object (some o)))) ∧
      (Traversal.copyRoot s.catalog (.object (some o))).Always ⟨s.heap, {}⟩ fun t => ∀ a c, t.copyOf? a = some c →
        ∃ b ∈ s.heap.blocks, b.base ≤ a ∧ a.toNat < b.base.toNat + b.bytes.length) :=
  ⟨deepCopy_dangling hs hx hout, fun hc => deepCopy_settled hs hc hx hout⟩

theorem deepCopy_reports_dangling_below :
    (∃ e s', deepCopy (.object (some Pair.root)) (Pair.state Pair.below) = .error (.failure e) s') ∧
    (Traversal.copyRoot (Pair.state Pair.below).catalog (.object (some Pair.root))).Always
      ⟨(Pair.state Pair.below).heap, {}⟩ fun t => ∀ a c, t.copyOf? a = some c →
      ∃ b ∈ (Pair.state Pair.below).heap.blocks, b.base ≤ a ∧ a.toNat < b.base.toNat + b.bytes.length := by
  obtain ⟨-, hknown⟩ := (deepCopy_reports_dangling (Pair.reachable Pair.below).sound (Pair.reaches_second (by decide))
    (Pair.outside Pair.below (by decide))).2 Pair.settled
  have hrun : (deepCopy (.object (some Pair.root))).fails (Pair.state Pair.below) = true := by decide +kernel
  exact ⟨Action.exists_of_fails hrun, hknown⟩

/-- **A stray address in a block of the copy is not reported**: where it points the copy of the leaf stands by the time
that it is followed, and is copied for an object. -/
theorem deepCopy_misses_dangling : ∃ s o x, Reachable s ∧ s.Reaches (.object (some o)) (.object x) ∧
    (∀ b ∈ s.heap.blocks, ¬ (b.base ≤ x ∧ x.toNat < b.base.toNat + b.bytes.length)) ∧
    ∃ copy s', deepCopy (.object (some o)) s = .ok copy s' := by
  refine ⟨Pair.state Pair.ahead, Pair.root, Pair.ahead, Pair.reachable _, Pair.reaches_second (by decide),
    Pair.outside Pair.ahead (by decide), ?_⟩
  have hrun : (deepCopy (.object (some Pair.root))).returns (Pair.state Pair.ahead) = true := by decide +kernel
  exact Action.exists_of_returns hrun

end Allocator
end Introspect
