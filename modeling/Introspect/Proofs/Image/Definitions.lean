import Introspect.Image.Symbols
import Introspect.Proofs.Image.Bytes
import Introspect.Proofs.Text
import Mathlib.Data.List.Basic
/-!
# What an image defines

A definition is an entry of a symbol table with a name and a kind, and with its place in the image (`StandsIn`).  The
symbols of an image are its definitions in the order of their places, each once (`definitions`): what is said of the
symbols by their order can be said by their places.
-/
namespace Introspect
namespace Image

variable {bytes : Bytes}

/-! ## The header -/

/-- The bytes begin as an image does, and are long enough for its header. -/
def Valid (bytes : Bytes) : Prop := headerSize ≤ bytes.size ∧ bytes.HoldsAt 0 (magic ++ [class64])

/-- **An image has a header, and nothing else has one.** -/
theorem exists_header?_iff : (∃ h, header? bytes = some h) ↔ Valid bytes := by
  unfold header? Valid
  rw [← isImage_iff]
  constructor
  · rintro ⟨h, hh⟩
    by_contra hno
    rw [if_neg hno] at hh
    cases hh
  · intro hyes
    have hsize : 64 ≤ bytes.size := (isImage_iff.1 hyes).1
    obtain ⟨fileType, h1⟩ := @Bytes.exists_number? bytes 16 2 (by omega)
    obtain ⟨entry, h2⟩ := @Bytes.exists_number? bytes 24 8 (by omega)
    obtain ⟨sectionOffset, h3⟩ := @Bytes.exists_number? bytes 40 8 (by omega)
    obtain ⟨sectionEntrySize, h4⟩ := @Bytes.exists_number? bytes 58 2 (by omega)
    obtain ⟨sectionCount, h5⟩ := @Bytes.exists_number? bytes 60 2 (by omega)
    rw [if_pos hyes, h1, h2, h3, h4, h5]
    exact ⟨_, rfl⟩

theorem number?_fileType {h : Header} (hh : header? bytes = some h) : bytes.number? 2 16 = some h.fileType := by
  unfold header? at hh
  split at hh
  · obtain ⟨fileType, htype, hh⟩ := Option.bind_eq_some_iff.1 hh
    obtain ⟨entry, -, hh⟩ := Option.bind_eq_some_iff.1 hh
    obtain ⟨sectionOffset, -, hh⟩ := Option.bind_eq_some_iff.1 hh
    obtain ⟨sectionEntrySize, -, hh⟩ := Option.bind_eq_some_iff.1 hh
    obtain ⟨sectionCount, -, hh⟩ := Option.bind_eq_some_iff.1 hh
    cases hh
    exact htype
  · cases hh

/-! ## Kinds -/

/-- What the kind of a symbol says of its entry and its name: it is defined here, and it has the mark of the compiler
and something behind it, which is the tail of a vtable if it is one, and not that alone. -/
structure Reflects (kind : SymbolKind) (name : List Char) (e : Entry) : Prop where
  defined : e.value ≠ 0
  marked : Linkage.mark <+: name
  function : kind = .function → e.isFunction = true ∧ 2 < Text.byteLength name
  vtable : kind = .vtable → e.isObject = true ∧ Linkage.vtableTail <:+ name ∧ 4 < Text.byteLength name

/-- The tail of a vtable is no part of the mark, so what ends in it behind the mark ends in it altogether. -/
theorem vtableTail_suffix_iff {body : List Char} :
    Linkage.vtableTail <:+ body ∧ Linkage.vtableTail.length < body.length ↔
      Linkage.vtableTail <:+ Linkage.mark ++ body ∧ 4 < Text.byteLength (Linkage.mark ++ body) := by
  have hmark : Text.byteLength Linkage.mark = 2 := rfl
  rw [Text.byteLength_append, hmark]
  constructor
  · rintro ⟨htail, hlong⟩
    have hbytes := Text.length_le_byteLength body
    exact ⟨htail.trans (List.suffix_append _ body), Nat.add_lt_add_left (Nat.lt_of_lt_of_le hlong hbytes) 2⟩
  · rintro ⟨htail, hlong⟩
    have htwo : Linkage.vtableTail.length ≤ body.length := by
      rcases body with _ | ⟨c, _ | ⟨d, body⟩⟩
      · exact absurd hlong (by decide)
      · simp [Linkage.vtableTail, Linkage.mark, List.suffix_cons_iff] at htail
      · exact Nat.le_add_left 2 body.length
    have hbody := List.suffix_of_suffix_length_le htail (List.suffix_append _ body) htwo
    refine ⟨hbody, Nat.lt_of_le_of_ne htwo fun heq => ?_⟩
    rw [← hbody.eq_of_length heq] at hlong
    exact absurd hlong (by decide)

/-- What the kind says of what stands behind the mark. -/
theorem reflects_iff {kind : SymbolKind} {body : List Char} {e : Entry} :
    Reflects kind (Linkage.mark ++ body) e ↔ e.value ≠ 0 ∧
      (kind = .function → e.isFunction = true ∧ body ≠ []) ∧
      (kind = .vtable →
        e.isObject = true ∧ Linkage.vtableTail <:+ body ∧ Linkage.vtableTail.length < body.length) := by
  have hnonempty : 2 < Text.byteLength (Linkage.mark ++ body) ↔ body ≠ [] := by
    rw [Text.byteLength_append]
    constructor
    · rintro hlong rfl
      exact absurd hlong (by decide)
    · intro hne
      exact Nat.lt_add_of_pos_right (Text.byteLength_pos hne)
  rw [vtableTail_suffix_iff, ← hnonempty]
  constructor
  · intro h
    exact ⟨h.defined, h.function, h.vtable⟩
  · rintro ⟨hdefined, hfunction, hvtable⟩
    exact ⟨hdefined, List.prefix_append _ body, hfunction, hvtable⟩

theorem not_isObject_of_isFunction {e : Entry} (h : e.isFunction = true) : e.isObject = false := by
  unfold Entry.isFunction at h
  unfold Entry.isObject
  rw [decide_eq_true_eq] at h
  rw [h]
  rfl

/-- **A symbol has a kind exactly if its entry and its name say so.** -/
theorem classify_eq_some_iff {name : String} {e : Entry} {kind : SymbolKind} :
    classify name e = some kind ↔ Reflects kind name.toList e := by
  unfold classify
  by_cases hvalue : e.value = 0
  · rw [if_pos hvalue]
    constructor
    · intro h
      cases h
    · intro h
      exact absurd hvalue h.defined
  rw [if_neg hvalue]
  cases hbody : Text.stripStart? Linkage.mark name.toList with
  | none =>
    constructor
    · intro h
      cases h
    · intro h
      have hsome := Text.isSome_stripStart?_iff.2 h.marked
      rw [hbody] at hsome
      cases hsome
  | some body =>
    rw [Text.stripStart?_eq_some_iff.1 hbody, reflects_iff]
    cases body with
    | nil => cases kind <;> simp
    | cons c cs =>
      by_cases hfunction : e.isFunction = true
      · have hobject := not_isObject_of_isFunction hfunction
        cases kind <;> simp [hfunction, hobject, hvalue]
      · cases kind <;> simp [hfunction, hvalue, and_assoc]

/-! ## Definitions and their places -/

/-- Where a symbol stands: which section it is in, and which entry of that table it is. -/
structure Place where
  table : Nat
  row : Nat
  deriving DecidableEq, Repr

/-- The first place comes before the second one in the walk over all tables. -/
def Place.Before (p q : Place) : Prop := p.table < q.table ∨ p.table = q.table ∧ p.row < q.row

/-- A symbol of the compiler as an image has it. -/
structure Definition where
  place : Place
  kind : SymbolKind
  name : String
  entry : Entry

namespace Definition

/-- The definition stands in an image: at its place, an entry of a symbol table has its name, and is of its kind. -/
structure StandsIn (d : Definition) (bytes : Bytes) : Prop where
  found : ∃ s names, (sections bytes)[d.place.table]? = some s ∧ s.isSymbolTable = true ∧
    (symbolsOf bytes s)[d.place.row]? = some (d.entry, names) ∧ nameOf? bytes d.entry names = some d.name
  reflects : Reflects d.kind d.name.toList d.entry

def symbol (bias : Address) (d : Definition) : Symbol where
  kind := d.kind
  name := d.name
  address := bias + d.entry.value
  demangled := Linkage.demangle d.name
  size := d.entry.size

end Definition

/-- What an entry defines, at its place. -/
def definition? (bytes : Bytes) (place : Place) (e : Entry) (names : Nat) : Option Definition := do
  let name ← nameOf? bytes e names
  let kind ← classify name e
  return { place, kind, name, entry := e }

/-- The definitions of one section. -/
def tableDefinitions (bytes : Bytes) (table : Nat) (s : Section) : List Definition :=
  (symbolsOf bytes s).zipIdx.filterMap fun row => definition? bytes ⟨table, row.2⟩ row.1.1 row.1.2

/-- The definitions of an image, in the order of their places. -/
def definitions (bytes : Bytes) : List Definition :=
  (sections bytes).zipIdx.flatMap fun s => tableDefinitions bytes s.2 s.1

variable {d : Definition} {s : Section} {table : Nat}

theorem definition?_eq_some_iff {place : Place} {e : Entry} {names : Nat} :
    definition? bytes place e names = some d ↔ nameOf? bytes e names = some d.name ∧
      Reflects d.kind d.name.toList d.entry ∧ d.place = place ∧ d.entry = e := by
  unfold definition?
  constructor
  · intro h
    obtain ⟨name, hname, h⟩ := Option.bind_eq_some_iff.1 h
    obtain ⟨kind, hkind, h⟩ := Option.bind_eq_some_iff.1 h
    cases h
    exact ⟨hname, classify_eq_some_iff.1 hkind, rfl, rfl⟩
  · rintro ⟨hname, hreflects, rfl, rfl⟩
    have hkind := classify_eq_some_iff.2 hreflects
    simp [hname, hkind]

theorem mem_tableDefinitions : d ∈ tableDefinitions bytes table s ↔ d.place.table = table ∧
    ∃ names, (symbolsOf bytes s)[d.place.row]? = some (d.entry, names) ∧ nameOf? bytes d.entry names = some d.name ∧
      Reflects d.kind d.name.toList d.entry := by
  unfold tableDefinitions
  rw [List.mem_filterMap]
  constructor
  · rintro ⟨⟨⟨e, names⟩, row⟩, hrow, hd⟩
    obtain ⟨hname, hreflects, hplace, rfl⟩ := definition?_eq_some_iff.1 hd
    rw [hplace]
    exact ⟨rfl, names, List.mk_mem_zipIdx_iff_getElem?.1 hrow, hname, hreflects⟩
  · rintro ⟨rfl, names, hrow, hname, hreflects⟩
    exact ⟨((d.entry, names), d.place.row), List.mk_mem_zipIdx_iff_getElem?.2 hrow,
      definition?_eq_some_iff.2 ⟨hname, hreflects, rfl, rfl⟩⟩

theorem symbolsOf_of_not_isSymbolTable (h : ¬ s.isSymbolTable = true) : symbolsOf bytes s = [] := by
  unfold symbolsOf namesOf?
  rw [if_neg h]

/-- **The definitions are those that stand in the image.** -/
theorem mem_definitions : d ∈ definitions bytes ↔ d.StandsIn bytes := by
  unfold definitions
  rw [List.mem_flatMap]
  constructor
  · rintro ⟨⟨s, table⟩, hs, hd⟩
    obtain ⟨rfl, names, hrow, hname, hreflects⟩ := mem_tableDefinitions.1 hd
    refine ⟨⟨s, names, List.mk_mem_zipIdx_iff_getElem?.1 hs, ?_, hrow, hname⟩, hreflects⟩
    by_contra hno
    rw [symbolsOf_of_not_isSymbolTable hno] at hrow
    cases hrow
  · intro h
    obtain ⟨s, names, hs, -, hrow, hname⟩ := h.found
    exact ⟨(s, d.place.table), List.mk_mem_zipIdx_iff_getElem?.2 hs,
      mem_tableDefinitions.2 ⟨rfl, names, hrow, hname, h.reflects⟩⟩

theorem pairwise_zipIdx {α : Type} (l : List α) : l.zipIdx.Pairwise fun a b => a.2 < b.2 := by
  rw [← List.pairwise_map, List.zipIdx_map_snd]
  exact List.pairwise_lt_range' 1

/-- **They come in the order of their places**, so none comes twice. -/
theorem pairwise_definitions (bytes : Bytes) : (definitions bytes).Pairwise fun c d => c.place.Before d.place := by
  unfold definitions
  rw [List.pairwise_flatMap]
  constructor
  · -- within a section, by the row
    intro s hs
    refine (pairwise_zipIdx _).filterMap _ fun row row' hlt c hc d hd => ?_
    obtain ⟨-, -, hc, -⟩ := definition?_eq_some_iff.1 hc
    obtain ⟨-, -, hd, -⟩ := definition?_eq_some_iff.1 hd
    rw [hc, hd]
    exact .inr ⟨rfl, hlt⟩
  · -- between two sections, by the section
    refine (pairwise_zipIdx _).imp fun hlt c hc d hd => ?_
    left
    rw [(mem_tableDefinitions.1 hc).1, (mem_tableDefinitions.1 hd).1]
    exact hlt

/-! ## Symbols -/

theorem symbolOf?_eq (bias : Address) (place : Place) (e : Entry) (names : Nat) :
    symbolOf? bytes bias e names = (definition? bytes place e names).map (Definition.symbol bias) := by
  unfold symbolOf? definition?
  cases nameOf? bytes e names with
  | none => rfl
  | some name => cases hkind : classify name e <;> simp [hkind, Definition.symbol]

theorem map_symbol_tableDefinitions (bytes : Bytes) (bias : Address) (table : Nat) (s : Section) :
    (tableDefinitions bytes table s).map (Definition.symbol bias) =
      (symbolsOf bytes s).filterMap fun row => symbolOf? bytes bias row.1 row.2 := by
  unfold tableDefinitions
  rw [List.map_filterMap]
  conv_rhs => rw [← List.zipIdx_map_fst 0 (symbolsOf bytes s), List.filterMap_map]
  exact List.filterMap_congr fun row _ => (symbolOf?_eq bias _ _ _).symm

/-- Elements that yield nothing can be left out beforehand. -/
theorem flatMap_filter_of_nil {α β : Type} {f : α → List β} {p : α → Bool} (h : ∀ a, ¬ p a = true → f a = [])
    (as : List α) : (as.filter p).flatMap f = as.flatMap f := by
  induction as with
  | nil => rfl
  | cons a as ih =>
    rw [List.flatMap_cons, ← ih]
    by_cases ha : p a = true
    · rw [List.filter_cons_of_pos ha, List.flatMap_cons]
    · rw [List.filter_cons_of_neg ha, h a ha, List.nil_append]

/-- **The symbols of an image are its definitions**, in the same order. -/
theorem symbols_eq (bytes : Bytes) (bias : Address) :
    symbols bytes bias = (definitions bytes).map (Definition.symbol bias) := by
  have hnone : ∀ s : Section, ¬ s.isSymbolTable = true →
      (symbolsOf bytes s).filterMap (fun row => symbolOf? bytes bias row.1 row.2) = [] := by
    intro s hs
    rw [symbolsOf_of_not_isSymbolTable hs]
    rfl
  have hall : symbols bytes bias = (sections bytes).flatMap fun s =>
      (symbolsOf bytes s).filterMap fun row => symbolOf? bytes bias row.1 row.2 := flatMap_filter_of_nil hnone _
  unfold definitions
  rw [hall, List.map_flatMap]
  conv_lhs => rw [← List.zipIdx_map_fst 0 (sections bytes), List.flatMap_map]
  exact List.flatMap_congr fun s _ => (map_symbol_tableDefinitions bytes bias s.2 s.1).symm

/-! ## Addresses -/

theorem value_lt_of_readEntry? {start : Nat} {e : Entry} (h : readEntry? bytes start = some e) : e.value < 2 ^ 64 := by
  obtain ⟨nameOffset, -, h⟩ := Option.bind_eq_some_iff.1 h
  obtain ⟨info, -, h⟩ := Option.bind_eq_some_iff.1 h
  obtain ⟨value, hvalue, h⟩ := Option.bind_eq_some_iff.1 h
  obtain ⟨size, -, h⟩ := Option.bind_eq_some_iff.1 h
  cases h
  exact Bytes.number?_lt hvalue

theorem exists_readEntry?_of_mem {n start : Nat} {e : Entry} (h : e ∈ entriesFrom bytes n start) :
    ∃ start, readEntry? bytes start = some e := by
  induction n generalizing start with
  | zero => cases h
  | succ n ih =>
    unfold entriesFrom at h
    cases hread : readEntry? bytes start with
    | none =>
      rw [hread] at h
      cases h
    | some e' =>
      rw [hread] at h
      rcases List.mem_cons.1 h with rfl | hrest
      · exact ⟨start, hread⟩
      · exact ih hrest

/-- The value of a definition is a word. -/
theorem Definition.StandsIn.value_lt (h : d.StandsIn bytes) : d.entry.value < 2 ^ 64 := by
  obtain ⟨s, names, -, -, hrow, -⟩ := h.found
  have hmem := List.mem_of_getElem? hrow
  unfold symbolsOf at hmem
  cases hnames : namesOf? bytes s with
  | none =>
    rw [hnames] at hmem
    cases hmem
  | some base =>
    rw [hnames] at hmem
    obtain ⟨e, he, heq⟩ := List.mem_map.1 hmem
    obtain ⟨rfl, -⟩ := Prod.mk.inj heq
    obtain ⟨start, hread⟩ := exists_readEntry?_of_mem he
    exact value_lt_of_readEntry? hread

end Image
end Introspect
