import Introspect.Proofs.Address
import Introspect.Proofs.Image.Writer
/-!
# Reading what was written

Reading an image that was laid out from a list of symbols gives everything back: the header, the sections, every entry
of the table with its name, and, of the symbols, those that introspection uses, in their order.  The names may be any
text without a zero character; what bounds them is that the place of a name is a number of 32 bits.
-/
namespace Introspect
namespace Image

variable {bytes : Bytes} {start offset names : Nat} {es : List NamedEntry} {e : NamedEntry}

/-! ## Sizes -/

theorem length_closedName (name : String) : (closedName name).length = (Text.toUtf8 name).length + 1 :=
  List.length_append

theorem length_le_namesOf (es : List NamedEntry) : es.length ≤ (namesOf es).length := by
  induction es with
  | nil => exact Nat.zero_le _
  | cons e es ih =>
    unfold namesOf at ih ⊢
    rw [List.flatMap_cons, List.length_append, List.length_cons, length_closedName]
    omega

theorem length_nameTable (es : List NamedEntry) : (nameTable es).length = (namesOf es).length + 1 := by
  rw [nameTable, List.length_append, show (closedName "").length = 1 from by decide, Nat.add_comm]

theorem length_entriesWith (offset : Nat) (es : List NamedEntry) : (entriesWith offset es).length = es.length := by
  induction es generalizing offset with
  | nil => rfl
  | cons e es ih => rw [entriesWith, List.length_cons, List.length_cons, ih]

theorem length_entryTable (es : List NamedEntry) : (entryTable es).length = entrySize * (es.length + 1) := by
  have htable : ∀ entries : List Entry, (entries.flatMap (Entry.encode · 1)).length = entrySize * entries.length := by
    intro entries
    induction entries with
    | nil => rfl
    | cons entry entries ih =>
      rw [List.flatMap_cons, List.length_append, ih, Entry.length_encode, List.length_cons, Nat.mul_succ, Nat.add_comm]
  rw [entryTable, List.length_append, Entry.length_encode, htable, length_entriesWith, Nat.mul_succ, Nat.add_comm]

theorem aligned_le (n : Nat) : aligned n ≤ n + 7 := by
  unfold aligned
  omega

/-- All places in the image are below 2^40. -/
theorem sectionsStart_lt (hsize : (nameTable es).length < 2 ^ 32) :
    entriesStart es < 2 ^ 40 ∧ (entryTable es).length < 2 ^ 40 ∧ sectionsStart es < 2 ^ 40 := by
  have hcount := length_le_namesOf es
  have hnames := length_nameTable es
  have htable := length_entryTable es
  have hentries := aligned_le (headerSize + (nameTable es).length)
  have hsections := aligned_le (entriesStart es + (entryTable es).length)
  change sectionsStart es ≤ _ at hsections
  change entriesStart es ≤ _ at hentries
  unfold headerSize at hentries
  unfold entrySize at htable
  omega

theorem headerOf_fits (fileType : UInt16) (hsize : (nameTable es).length < 2 ^ 32) : (headerOf fileType es).Fits := by
  unfold headerOf
  constructor <;> dsimp only
  case fileType => exact fileType.toNat_lt
  case sectionOffset => exact Nat.lt_trans (sectionsStart_lt hsize).2.2 (by decide)
  all_goals decide

theorem noSection_fits (es : List NamedEntry) : (noSection es).Fits := by
  unfold noSection
  constructor <;> dsimp only
  all_goals decide

theorem symbolSection_fits (hsize : (nameTable es).length < 2 ^ 32) : (symbolSection es).Fits := by
  unfold symbolSection
  constructor <;> dsimp only
  case offset => exact Nat.lt_trans (sectionsStart_lt hsize).1 (by decide)
  case size => exact Nat.lt_trans (sectionsStart_lt hsize).2.1 (by decide)
  all_goals decide

theorem nameSection_fits (hsize : (nameTable es).length < 2 ^ 32) : (nameSection es).Fits := by
  unfold nameSection
  constructor <;> dsimp only
  case size => exact Nat.lt_trans hsize (by decide)
  all_goals decide

theorem entriesWith_fit (hoffset : offset + (namesOf es).length < 256 ^ 4) :
    ∀ entry ∈ entriesWith offset es, entry.Fits := by
  induction es generalizing offset with
  | nil => simp [entriesWith]
  | cons e es ih =>
    unfold namesOf at ih hoffset
    rw [List.flatMap_cons, List.length_append] at hoffset
    intro entry hentry
    rcases List.mem_cons.1 hentry with rfl | hentry
    · exact ⟨by change offset < 256 ^ 4; omega, e.info.toNat_lt, e.value.toNat_lt, e.size.toNat_lt⟩
    · exact ih (by omega) entry hentry

/-! ## Reading -/

theorem entriesFrom_of_holds {owner : Nat} {entries : List Entry}
    (h : bytes.HoldsAt start (entries.flatMap (Entry.encode · owner))) (hf : ∀ entry ∈ entries, entry.Fits) :
    entriesFrom bytes entries.length start = entries := by
  induction entries generalizing start with
  | nil => rfl
  | cons entry entries ih =>
    rw [List.flatMap_cons, Bytes.holdsAt_append, Entry.length_encode] at h
    rw [List.length_cons, entriesFrom, readEntry?_of_holds h.1 (hf entry List.mem_cons_self)]
    dsimp only
    rw [ih h.2 fun other hother => hf other (List.mem_cons_of_mem entry hother)]

theorem nameOf?_of_holds {entry : Entry} {name : String}
    (h : bytes.HoldsAt (names + entry.nameOffset) (closedName name)) (hname : '\x00' ∉ name.toList) :
    nameOf? bytes entry names = some name := by
  unfold nameOf?
  rw [Bytes.terminated?_eq_some_iff.2 ⟨Text.zero_not_mem_toUtf8 hname, h⟩, Option.bind_some, Text.ofUtf8?_toUtf8]

/-- What is computed from the entries and their names is computed from the symbols that were put in. -/
theorem filterMap_entriesWith {β : Type} {f : Entry → Option β} {g : NamedEntry → Option β}
    (h : bytes.HoldsAt (names + offset) (namesOf es)) (hnames : ∀ e ∈ es, '\x00' ∉ e.name.toList)
    (hfg : ∀ e offset, nameOf? bytes (e.entry offset) names = some e.name → f (e.entry offset) = g e) :
    (entriesWith offset es).filterMap f = es.filterMap g := by
  induction es generalizing offset with
  | nil => rfl
  | cons e es ih =>
    unfold namesOf at h ih
    rw [List.flatMap_cons, Bytes.holdsAt_append, Nat.add_assoc] at h
    have hname : nameOf? bytes (e.entry offset) names = some e.name :=
      nameOf?_of_holds h.1 (hnames e List.mem_cons_self)
    rw [entriesWith, List.filterMap_cons, List.filterMap_cons, hfg e offset hname,
      ih h.2 fun other hother => hnames other (List.mem_cons_of_mem e hother)]

theorem header?_layOut (fileType : UInt16) (hsize : (nameTable es).length < 2 ^ 32) :
    header? (layOut fileType es) = some (headerOf fileType es) :=
  header?_of_holds (layOut_holds fileType es).1 (headerOf_fits fileType hsize)

theorem readSection?_layOut (fileType : UInt16) (hsize : (nameTable es).length < 2 ^ 32) :
    readSection? (layOut fileType es) 0 ((headerOf fileType es).sectionStart 0) = some (noSection es) ∧
    readSection? (layOut fileType es) 1 ((headerOf fileType es).sectionStart 1) = some (symbolSection es) ∧
    readSection? (layOut fileType es) 2 ((headerOf fileType es).sectionStart 2) = some (nameSection es) := by
  obtain ⟨-, -, -, hnone, hsymbols, hnames⟩ := layOut_holds fileType es
  exact ⟨readSection?_of_holds hnone (noSection_fits es), readSection?_of_holds hsymbols (symbolSection_fits hsize),
    readSection?_of_holds hnames (nameSection_fits hsize)⟩

theorem sections_layOut (fileType : UInt16) (hsize : (nameTable es).length < 2 ^ 32) :
    sections (layOut fileType es) = [noSection es, symbolSection es, nameSection es] := by
  obtain ⟨h0, h1, h2⟩ := readSection?_layOut fileType hsize
  unfold sections
  rw [header?_layOut fileType hsize]
  change sectionsFrom _ _ 3 0 = _
  simp only [sectionsFrom, h0, h1, h2]

theorem symbolsOf_layOut (fileType : UInt16) (hsize : (nameTable es).length < 2 ^ 32) :
    symbolsOf (layOut fileType es) (symbolSection es) = (noEntry :: entriesWith 1 es).map (·, headerSize) := by
  have hnames : namesOf? (layOut fileType es) (symbolSection es) = some headerSize := by
    unfold namesOf? section?
    rw [header?_layOut fileType hsize]
    change (readSection? (layOut fileType es) 2 ((headerOf fileType es).sectionStart 2)).map Section.offset = _
    rw [(readSection?_layOut fileType hsize).2.2]
    rfl
  have hcount : (symbolSection es).size / entrySize = (entriesWith 1 es).length + 1 := by
    change (entryTable es).length / entrySize = _
    rw [length_entryTable, length_entriesWith, Nat.mul_div_cancel_left _ (by decide)]
  have hholds := (layOut_holds fileType es).2.2.1
  rw [entryTable, Bytes.holdsAt_append, Entry.length_encode] at hholds
  have hfits : ∀ entry ∈ entriesWith 1 es, entry.Fits :=
    entriesWith_fit (by rw [Nat.add_comm, ← length_nameTable]; exact hsize)
  unfold symbolsOf
  rw [hnames, hcount]
  change (entriesFrom (layOut fileType es) _ (entriesStart es)).map _ = _
  rw [entriesFrom, readEntry?_of_holds hholds.1 ⟨by decide, by decide, by decide, by decide⟩]
  dsimp only
  rw [entriesFrom_of_holds hholds.2 hfits]

/-! ## Symbols -/

/-- The symbol that introspection sees in an image shifted by `bias`, if it is of one of the kinds that it uses.  Where the
name stands plays no part. -/
def NamedEntry.symbol? (bias : Address) (e : NamedEntry) : Option Symbol :=
  (classify e.name (e.entry 0)).map fun kind =>
    { kind, address := ⟨bias.word + e.value⟩, name := e.name, demangled := Linkage.demangle e.name, size := e.size.toNat }

theorem symbolOf?_entry {bias : Address} (h : nameOf? bytes (e.entry offset) names = some e.name) :
    symbolOf? bytes bias (e.entry offset) names = e.symbol? bias := by
  have haddress : bias + e.value.toNat = (⟨bias.word + e.value⟩ : Address) := by
    apply Address.ext
    rw [Address.toNat_add]
    exact (UInt64.toNat_add bias.word e.value).symm
  have hkind : classify e.name (e.entry offset) = classify e.name (e.entry 0) := rfl
  unfold symbolOf? NamedEntry.symbol?
  rw [h, ← hkind, ← haddress, Option.bind_eq_bind, Option.bind_some]
  cases classify e.name (e.entry offset) <;> rfl

/-- **Reading an image undoes laying it out.**  Its header and its three sections are the ones that were written; its table
has the empty entry first and then every entry that was written, each with its own name; and its symbols are those of
the symbols put in that introspection uses, in the order of the table. -/
theorem reading_undoes_layOut (fileType : UInt16) (es : List NamedEntry) (bias : Address)
    (hnames : ∀ e ∈ es, '\x00' ∉ e.name.toList) (hsize : (nameTable es).length < 2 ^ 32) :
    header? (layOut fileType es) = some (headerOf fileType es) ∧
    sections (layOut fileType es) = [noSection es, symbolSection es, nameSection es] ∧
    symbolsOf (layOut fileType es) (symbolSection es) = (noEntry :: entriesWith 1 es).map (·, headerSize) ∧
    (noEntry :: entriesWith 1 es).map (nameOf? (layOut fileType es) · headerSize) = some "" :: es.map (some ·.name) ∧
    symbols (layOut fileType es) bias = es.filterMap (NamedEntry.symbol? bias) := by
  have hholds := (layOut_holds fileType es).2.1
  rw [nameTable, Bytes.holdsAt_append, show (closedName "").length = 1 from by decide] at hholds
  obtain ⟨hempty, hrest⟩ := hholds
  have hfirst : nameOf? (layOut fileType es) noEntry headerSize = some "" := nameOf?_of_holds hempty (by decide)
  have hsections := sections_layOut fileType hsize
  have hsymbols := symbolsOf_layOut fileType hsize
  refine ⟨header?_layOut fileType hsize, hsections, hsymbols, ?_, ?_⟩
  · rw [List.map_cons, hfirst]
    congr 1
    rw [← List.filterMap_eq_map, ← List.filterMap_eq_map]
    exact filterMap_entriesWith hrest hnames fun e offset h => congrArg some h
  · have hnone : symbolOf? (layOut fileType es) bias noEntry headerSize = none := by
      unfold symbolOf?
      rw [hfirst]
      rfl
    unfold symbols
    rw [hsections, show List.filter Section.isSymbolTable [noSection es, symbolSection es, nameSection es] =
      [symbolSection es] from rfl, List.flatMap_cons, List.flatMap_nil, List.append_nil, hsymbols,
      List.map_cons, List.filterMap_cons]
    dsimp only
    rw [hnone, List.filterMap_map]
    exact filterMap_entriesWith hrest hnames fun e offset h => symbolOf?_entry h

/-- Here an undefined function, one of another language and the vtable of a class stand in one table. -/
def mixed : List NamedEntry :=
  [⟨"_Y4main1fFZv", 0x12, 0, 16⟩, ⟨"puts", 0x12, 0x1000, 16⟩, ⟨"_Y4main5NœudVT", 0x11, 0x2000, 24⟩]

theorem reading_undoes_layOut_mixed :
    (∀ e ∈ mixed, '\x00' ∉ e.name.toList) ∧ (nameTable mixed).length < 2 ^ 32 ∧
      (symbols (layOut 3 mixed) ⟨0xFFFFFFFFFFFFFFFF⟩).map (fun s => (s.kind, s.address, s.name, s.size)) =
        [(.vtable, ⟨0x1FFF⟩, "_Y4main5NœudVT", 24)] := by
  have hnames : ∀ e ∈ mixed, '\x00' ∉ e.name.toList := by decide +kernel
  have hsize : (nameTable mixed).length < 2 ^ 32 := by decide +kernel
  obtain ⟨-, -, -, -, hsymbols⟩ := reading_undoes_layOut 3 mixed ⟨0xFFFFFFFFFFFFFFFF⟩ hnames hsize
  refine ⟨hnames, hsize, ?_⟩
  rw [hsymbols]
  decide +kernel

end Image
end Introspect
