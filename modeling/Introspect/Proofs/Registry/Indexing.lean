import Introspect.Proofs.Address
import Introspect.Proofs.Image.Definitions
import Introspect.Proofs.Image.Writer
import Introspect.Proofs.Registry.History
import Introspect.Registry.Discovery
/-!
# Indexing an image

An image is indexed by registering its symbols one after the other, so of several definitions of one name the last one
stays.  Which one that is can be said by the places alone: it is the one in the last table, and there in the last row
(`Definition.IsLast`).  What no definition names stays as it was.
-/
namespace Introspect

namespace Image
namespace Definition

/-- Of the definitions of a name as a symbol of this kind, the one with the last place. -/
structure IsLast (d : Definition) (bytes : Bytes) (kind : SymbolKind) (name : String) : Prop where
  standsIn : d.StandsIn bytes
  ofKind : d.kind = kind
  named : d.name = name
  last : ∀ c : Definition, c.StandsIn bytes → c.kind = kind → c.name = name → c = d ∨ c.place.Before d.place

/-- The symbol of a definition, in an image that is loaded at `base`: where the image can be loaded anywhere its value
counts from there, and otherwise it is the address. -/
structure Recorded (d : Definition) (bytes : Bytes) (base : Option Address) (s : Symbol) : Prop where
  kind : s.kind = d.kind
  name : s.name = d.name
  demangled : s.demangled = Linkage.demangle d.name
  size : s.size = d.entry.size
  address : s.address.toNat = if bytes.number? 2 16 = some sharedObject then
    (d.entry.value + (base.getD .null).toNat) % 2 ^ 64 else d.entry.value

variable {d : Definition} {bytes : Bytes}

theorem StandsIn.recorded {h : Header} (hd : d.StandsIn bytes) (hh : header? bytes = some h) (base : Option Address) :
    d.Recorded bytes base (d.symbol (if h.isRelocatable then base.getD .null else .null)) where
  kind := rfl
  name := rfl
  demangled := rfl
  size := rfl
  address := by
    have hvalue := hd.value_lt
    rw [number?_fileType hh]
    unfold symbol Header.isRelocatable
    dsimp only
    by_cases htype : h.fileType = sharedObject
    · rw [if_pos (congrArg some htype), if_pos (decide_eq_true htype), Address.toNat_add, Nat.add_comm]
    · have hnull : Address.null.toNat = 0 := rfl
      rw [if_neg fun heq => htype (Option.some.inj heq), if_neg fun heq => htype (of_decide_eq_true heq),
        Address.toNat_add, hnull, Nat.zero_add, Nat.mod_eq_of_lt hvalue]

end Definition
end Image

namespace Registry

open Image (Definition)

variable {bytes : Bytes}

/-- **Registering one after the other leaves what was registered last**, and else what there was. -/
theorem get?_foldl_lastNamed (r : Registry) (ss : List Symbol) (name : String) (kind : SymbolKind) :
    (ss.foldl register r).get? name kind = (lastNamed ss (kind, name)).or (r.get? name kind) := by
  induction ss using history_induction with
  | nil => rfl
  | concat ss s ih =>
    rw [List.foldl_append, List.foldl_cons, List.foldl_nil, get?_register, lastNamed_concat, ih]
    by_cases h : s.key = (kind, name)
    · rw [if_pos h, if_pos h.symm]
      rfl
    · rw [if_neg h, if_neg (Ne.symm h)]

/-- What is found from the end of a list in order is the last of its kind. -/
theorem last_of_find?_reverse {α : Type} {R : α → α → Prop} {p : α → Bool} {as : List α} {a : α} (hr : as.Pairwise R)
    (h : as.reverse.find? p = some a) : a ∈ as ∧ p a = true ∧ ∀ b ∈ as, p b = true → b = a ∨ R b a := by
  obtain ⟨ha, later, earlier, hsplit, hlater⟩ := List.find?_eq_some_iff_append.1 h
  rw [← List.pairwise_reverse, hsplit] at hr
  obtain ⟨-, hr, -⟩ := List.pairwise_append.1 hr
  have hmem : ∀ b, b ∈ as ↔ b ∈ later ∨ b = a ∨ b ∈ earlier := by
    intro b
    rw [← List.mem_reverse, hsplit, List.mem_append, List.mem_cons]
  refine ⟨(hmem a).2 (.inr (.inl rfl)), ha, fun b hb hyes => ?_⟩
  rcases (hmem b).1 hb with hb | hb | hb
  · have hno := hlater b hb
    rw [hyes] at hno
    cases hno
  · exact .inl hb
  · exact .inr (List.rel_of_pairwise_cons hr hb)

/-- What an image registers last under a name is its last definition of that name. -/
theorem lastNamed_symbols (bytes : Bytes) (bias : Address) (name : String) (kind : SymbolKind) :
    (∃ d : Definition, d.IsLast bytes kind name ∧
      lastNamed (Image.symbols bytes bias) (kind, name) = some (d.symbol bias)) ∨
    (∀ d : Definition, d.StandsIn bytes → d.kind = kind → d.name ≠ name) ∧
      lastNamed (Image.symbols bytes bias) (kind, name) = none := by
  have hkey : ∀ d : Definition, (d.symbol bias).key = (kind, name) ↔ d.kind = kind ∧ d.name = name := by
    intro d
    exact Prod.ext_iff
  unfold lastNamed
  rw [Image.symbols_eq, ← List.map_reverse, List.find?_map]
  cases hfind : (Image.definitions bytes).reverse.find?
      ((fun s : Symbol => decide (s.key = (kind, name))) ∘ Definition.symbol bias) with
  | none =>
    right
    refine ⟨fun d hd hkind hname => ?_, rfl⟩
    have hno := List.find?_eq_none.1 hfind d (List.mem_reverse.2 (Image.mem_definitions.2 hd))
    exact hno (decide_eq_true ((hkey d).2 ⟨hkind, hname⟩))
  | some d =>
    left
    obtain ⟨hmem, hd, hlast⟩ := last_of_find?_reverse (Image.pairwise_definitions bytes) hfind
    obtain ⟨hkind, hname⟩ := (hkey d).1 (of_decide_eq_true hd)
    refine ⟨d, ⟨Image.mem_definitions.1 hmem, hkind, hname, fun c hc hckind hcname => ?_⟩, rfl⟩
    exact hlast c (Image.mem_definitions.2 hc) (decide_eq_true ((hkey c).2 ⟨hckind, hcname⟩))

/-- The registry after bytes were indexed: where they are no image, it is the one there was. -/
def afterImage (r : Registry) (bytes : Bytes) (base : Option Address) : Registry :=
  (r.indexImage? bytes base).elim r Prod.snd

/-- **Indexing an image is last definition wins.**  Bytes that are no image are refused, and change nothing.  Those of an
image are counted by their definitions, each place once; under a name that some of them define there is the record of
the last one then, and under any other name the record there was before. -/
theorem indexing_last_wins (r : Registry) (bytes : Bytes) (base : Option Address) :
    (¬ Image.Valid bytes → r.indexImage? bytes base = none ∧ r.afterImage bytes base = r) ∧
    (Image.Valid bytes → ∃ ds : List Definition,
      r.indexImage? bytes base = some (ds.length, r.afterImage bytes base) ∧
      ds.Pairwise (fun c d => c.place.Before d.place) ∧ (∀ d, d ∈ ds ↔ d.StandsIn bytes) ∧
      ∀ name kind,
        (∃ (d : Definition) (s : Symbol), d.IsLast bytes kind name ∧ d.Recorded bytes base s ∧
          (r.afterImage bytes base).get? name kind = some s) ∨
        (∀ d : Definition, d.StandsIn bytes → d.kind = kind → d.name ≠ name) ∧
          (r.afterImage bytes base).get? name kind = r.get? name kind) := by
  constructor
  · intro hno
    have hnone : r.indexImage? bytes base = none := by
      unfold indexImage?
      cases hh : Image.header? bytes with
      | none => rfl
      | some h => exact absurd (Image.exists_header?_iff.1 ⟨h, hh⟩) hno
    unfold afterImage
    rw [hnone]
    exact ⟨rfl, rfl⟩
  · intro hvalid
    obtain ⟨h, hh⟩ := Image.exists_header?_iff.2 hvalid
    let bias := if h.isRelocatable then base.getD .null else .null
    have hindex : r.indexImage? bytes base =
        some ((Image.symbols bytes bias).length, (Image.symbols bytes bias).foldl register r) := by
      unfold indexImage?
      rw [hh]
      rfl
    have hafter : r.afterImage bytes base = (Image.symbols bytes bias).foldl register r := by
      unfold afterImage
      rw [hindex]
      rfl
    refine ⟨Image.definitions bytes, ?_, Image.pairwise_definitions bytes, fun d => Image.mem_definitions, ?_⟩
    · rw [hindex, hafter, Image.symbols_eq, List.length_map]
    · intro name kind
      rw [hafter, get?_foldl_lastNamed]
      rcases lastNamed_symbols bytes bias name kind with ⟨d, hlast, hd⟩ | ⟨hnone, hd⟩
      · rw [hd]
        exact .inl ⟨d, _, hlast, hlast.standsIn.recorded hh base, rfl⟩
      · rw [hd]
        exact .inr ⟨hnone, rfl⟩

/-- An image that can be loaded anywhere, in which two tables define one name: the names behind the header, an entry for
each table, and the headers of four sections. -/
def twice : Bytes :=
  let header : Image.Header := ⟨Image.sharedObject, 0, 128, 64, 4⟩
  let earlier : Image.Entry := ⟨1, 0x12, 0x1000, 16⟩
  let later : Image.Entry := ⟨1, 0x12, 0x2000, 32⟩
  let sections : List (Image.Section × Nat) :=
    [(⟨0, 128, 0, 0, 0, 0, 0, 0⟩, 0), (⟨1, 192, 2, 0, 80, 24, 3, 0⟩, 24), (⟨2, 256, 11, 0, 104, 24, 3, 0⟩, 24),
      (⟨3, 320, 3, 0, 64, 16, 0, 0⟩, 0)]
  ([header.encode, Image.closedName "", Image.closedName "_Y4main3fooFZv", earlier.encode 1, later.encode 1] ++
    sections.map fun s => s.1.encode s.2).flatten.toArray

/-- Both definitions are counted, and the one in the later table stays, at its value from where the image is loaded. -/
theorem indexing_last_wins_twice : ∃ (d : Definition) (s : Symbol),
    ((({ mapsPath := "" } : Registry).indexImage? twice (some (.ofNat 0x70000000))).map Prod.fst) = some 2 ∧
    d.IsLast twice .function "_Y4main3fooFZv" ∧ d.entry.value = 0x2000 ∧
    (({ mapsPath := "" } : Registry).afterImage twice (some (.ofNat 0x70000000))).get? "_Y4main3fooFZv" .function =
      some s ∧ s.address = .ofNat 0x70002000 := by
  have hvalid : Image.Valid twice := Image.exists_header?_iff.1 (Option.isSome_iff_exists.1 (by decide +kernel))
  have hcount : ((({ mapsPath := "" } : Registry).indexImage? twice (some (.ofNat 0x70000000))).map Prod.fst) =
      some 2 := by decide +kernel
  have hfound : ((({ mapsPath := "" } : Registry).afterImage twice (some (.ofNat 0x70000000))).get?
      "_Y4main3fooFZv" .function).map Symbol.address = some (.ofNat 0x70002000) := by decide +kernel
  have htype : twice.number? 2 16 = some Image.sharedObject := by decide +kernel
  obtain ⟨ds, -, -, -, hall⟩ := (indexing_last_wins { mapsPath := "" } twice (some (.ofNat 0x70000000))).2 hvalid
  rcases hall "_Y4main3fooFZv" .function with ⟨d, s, hlast, hrecorded, hs⟩ | ⟨-, hnone⟩
  · rw [hs] at hfound
    have haddress : s.address = .ofNat 0x70002000 := Option.some.inj hfound
    have hvalue := hrecorded.address
    have hlt := hlast.standsIn.value_lt
    rw [if_pos htype, haddress, Option.getD_some, Address.toNat_ofNat, Address.toNat_ofNat] at hvalue
    exact ⟨d, s, hcount, hlast, by omega, hs, haddress⟩
  · rw [hnone] at hfound
    cases hfound

end Registry
end Introspect
