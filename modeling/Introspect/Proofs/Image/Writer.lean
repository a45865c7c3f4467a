import Introspect.Image.Symbols
import Introspect.Proofs.Image.Bytes
import Introspect.Proofs.Octets
import Introspect.Proofs.Text
/-!
# Writing an image

An image with one table of symbols is laid out piece by piece: the header, the names, the table behind an entry that
stands for nothing, and three sections, of which the first stands for nothing, the second is the table and the third the
names.  Names and table are filled up to a multiple of eight bytes.  Each piece stands where the pieces before it end,
and each record is read back from where it stands (`layOut_holds`, `header?_of_holds`, `readSection?_of_holds`,
`readEntry?_of_holds`).
-/
namespace Introspect
namespace Image

/-! ## Records -/

/-- The header in its 64 bytes, for a machine of one kind and with no program headers. -/
def Header.encode (h : Header) : List UInt8 :=
  [magic ++ [class64], [1, 1, 0, 0, 0, 0, 0, 0, 0, 0, 0], Octets.encode 2 h.fileType, Octets.encode 2 62,
    Octets.encode 4 1, Octets.encode 8 h.entry, Octets.encode 8 0, Octets.encode 8 h.sectionOffset, Octets.encode 4 0,
    Octets.encode 2 64, Octets.encode 2 0, Octets.encode 2 0, Octets.encode 2 h.sectionEntrySize,
    Octets.encode 2 h.sectionCount, Octets.encode 2 0].flatten

/-- A section in its 64 bytes; `width` is that of the records it holds. -/
def Section.encode (s : Section) (width : Nat) : List UInt8 :=
  [Octets.encode 4 0, Octets.encode 4 s.kind, Octets.encode 8 s.flags, Octets.encode 8 0, Octets.encode 8 s.offset,
    Octets.encode 8 s.size, Octets.encode 4 s.link, Octets.encode 4 s.info, Octets.encode 8 0,
    Octets.encode 8 width].flatten

/-- An entry in its 24 bytes; `owner` is the section that the symbol lies in. -/
def Entry.encode (e : Entry) (owner : Nat) : List UInt8 :=
  [Octets.encode 4 e.nameOffset, Octets.encode 1 e.info, Octets.encode 1 0, Octets.encode 2 owner,
    Octets.encode 8 e.value, Octets.encode 8 e.size].flatten

theorem Header.length_encode (h : Header) : h.encode.length = headerSize := by
  simp only [encode, magic, List.flatten_cons, List.flatten_nil, List.length_append, List.length_cons, List.length_nil,
    Octets.length_encode, headerSize]

theorem Section.length_encode (s : Section) (width : Nat) : (s.encode width).length = 64 := by
  simp only [encode, List.flatten_cons, List.flatten_nil, List.length_append, List.length_nil, Octets.length_encode]

theorem Entry.length_encode (e : Entry) (owner : Nat) : (e.encode owner).length = entrySize := by
  simp only [encode, List.flatten_cons, List.flatten_nil, List.length_append, List.length_nil, Octets.length_encode,
    entrySize]

/-- Each field of the header fits its bytes. -/
structure Header.Fits (h : Header) : Prop where
  fileType : h.fileType < 256 ^ 2
  entry : h.entry < 256 ^ 8
  sectionOffset : h.sectionOffset < 256 ^ 8
  sectionEntrySize : h.sectionEntrySize < 256 ^ 2
  sectionCount : h.sectionCount < 256 ^ 2

/-- Each field of the section fits its bytes. -/
structure Section.Fits (s : Section) : Prop where
  kind : s.kind < 256 ^ 4
  flags : s.flags < 256 ^ 8
  offset : s.offset < 256 ^ 8
  size : s.size < 256 ^ 8
  link : s.link < 256 ^ 4
  info : s.info < 256 ^ 4

/-- Each field of the entry fits its bytes. -/
structure Entry.Fits (e : Entry) : Prop where
  nameOffset : e.nameOffset < 256 ^ 4
  info : e.info < 256 ^ 1
  value : e.value < 256 ^ 8
  size : e.size < 256 ^ 8

variable {bytes : Bytes} {start : Nat}

theorem number?_encode {width n : Nat} (h : bytes.HoldsAt start (Octets.encode width n)) (hn : n < 256 ^ width) :
    bytes.number? width start = some n :=
  Bytes.number?_eq_some_iff.2 ⟨_, h, Octets.length_encode width n, Octets.decode_encode_of_lt hn⟩

theorem header?_of_holds {h : Header} (hh : bytes.HoldsAt 0 h.encode) (hf : h.Fits) : header? bytes = some h := by
  have hsize := (Bytes.holdsAt_iff.1 hh).1
  rw [h.length_encode] at hsize
  unfold Header.encode at hh
  rw [List.flatten_cons, Bytes.holdsAt_append] at hh
  obtain ⟨hmagic, hh⟩ := hh
  simp only [List.flatten_cons, Bytes.holdsAt_append, Octets.length_encode, magic, List.length_append, List.length_cons,
    List.length_nil, Nat.reduceAdd] at hh
  obtain ⟨-, hfileType, -, -, hentry, -, hoffset, -, -, -, -, hwidth, hcount, -⟩ := hh
  unfold header?
  rw [if_pos (isImage_iff.2 ⟨by omega, hmagic⟩), number?_encode hfileType hf.fileType, number?_encode hentry hf.entry,
    number?_encode hoffset hf.sectionOffset, number?_encode hwidth hf.sectionEntrySize,
    number?_encode hcount hf.sectionCount]
  rfl

theorem readSection?_of_holds {s : Section} {width : Nat} (hs : bytes.HoldsAt s.headerOffset (s.encode width))
    (hf : s.Fits) : readSection? bytes s.index s.headerOffset = some s := by
  unfold Section.encode at hs
  simp only [List.flatten_cons, Bytes.holdsAt_append, Octets.length_encode, Nat.add_assoc, Nat.reduceAdd] at hs
  obtain ⟨-, hkind, hflags, -, hoffset, hsize, hlink, hinfo, -⟩ := hs
  unfold readSection?
  rw [number?_encode hkind hf.kind, number?_encode hflags hf.flags, number?_encode hoffset hf.offset,
    number?_encode hsize hf.size, number?_encode hlink hf.link, number?_encode hinfo hf.info]
  rfl

theorem readEntry?_of_holds {e : Entry} {owner : Nat} (he : bytes.HoldsAt start (e.encode owner)) (hf : e.Fits) :
    readEntry? bytes start = some e := by
  unfold Entry.encode at he
  simp only [List.flatten_cons, Bytes.holdsAt_append, Octets.length_encode, Nat.add_assoc, Nat.reduceAdd] at he
  obtain ⟨hname, hinfo, -, -, hvalue, hsize, -⟩ := he
  unfold readEntry?
  rw [number?_encode hname hf.nameOffset, number?_encode hinfo hf.info, number?_encode hvalue hf.value,
    number?_encode hsize hf.size]
  rfl

/-! ## The image -/

/-- A symbol as it is put into an image. -/
structure NamedEntry where
  name : String
  info : UInt8
  value : UInt64
  size : UInt64
  deriving DecidableEq, Repr

def NamedEntry.entry (e : NamedEntry) (nameOffset : Nat) : Entry :=
  ⟨nameOffset, e.info.toNat, e.value.toNat, e.size.toNat⟩

/-- The entry that every table begins with. -/
def noEntry : Entry := ⟨0, 0, 0, 0⟩

/-- A name and the zero byte that closes it. -/
def closedName (name : String) : List UInt8 := Text.toUtf8 name ++ [0]

/-- All names one after the other, from a place on that is not known here. -/
def namesOf (es : List NamedEntry) : List UInt8 := es.flatMap fun e => closedName e.name

/-- The names of the image: the empty one comes first. -/
def nameTable (es : List NamedEntry) : List UInt8 := closedName "" ++ namesOf es

/-- The entries, the first of which has its name at `offset`. -/
def entriesWith : Nat → List NamedEntry → List Entry
  | _, [] => []
  | offset, e :: es => e.entry offset :: entriesWith (offset + (closedName e.name).length) es

def entryTable (es : List NamedEntry) : List UInt8 :=
  noEntry.encode 0 ++ (entriesWith 1 es).flatMap (Entry.encode · 1)

/-- The next multiple of eight. -/
def aligned (n : Nat) : Nat := (n + 7) / 8 * 8

def padding (n : Nat) : List UInt8 := List.replicate (aligned n - n) 0

def entriesStart (es : List NamedEntry) : Nat := aligned (headerSize + (nameTable es).length)

def sectionsStart (es : List NamedEntry) : Nat := aligned (entriesStart es + (entryTable es).length)

def headerOf (fileType : UInt16) (es : List NamedEntry) : Header := ⟨fileType.toNat, 0, sectionsStart es, 64, 3⟩

def noSection (es : List NamedEntry) : Section := ⟨0, sectionsStart es, 0, 0, 0, 0, 0, 0⟩

def symbolSection (es : List NamedEntry) : Section :=
  ⟨1, sectionsStart es + 64, 2, 0, entriesStart es, (entryTable es).length, 2, 1⟩

def nameSection (es : List NamedEntry) : Section :=
  ⟨2, sectionsStart es + 128, 3, 0, headerSize, (nameTable es).length, 0, 0⟩

/-- An image of the file type with the symbols. -/
def layOut (fileType : UInt16) (es : List NamedEntry) : Bytes :=
  [(headerOf fileType es).encode, nameTable es, padding (headerSize + (nameTable es).length), entryTable es,
    padding (entriesStart es + (entryTable es).length), (noSection es).encode 0, (symbolSection es).encode entrySize,
    (nameSection es).encode 0].flatten.toArray

theorem length_padding (n : Nat) : n + (padding n).length = aligned n := by
  unfold padding aligned
  rw [List.length_replicate]
  omega

theorem entriesStart_eq (es : List NamedEntry) : headerSize + (nameTable es).length +
    (padding (headerSize + (nameTable es).length)).length = entriesStart es := length_padding _

theorem sectionsStart_eq (es : List NamedEntry) : entriesStart es + (entryTable es).length +
    (padding (entriesStart es + (entryTable es).length)).length = sectionsStart es := length_padding _

/-- **Each piece stands where it belongs.** -/
theorem layOut_holds (fileType : UInt16) (es : List NamedEntry) :
    (layOut fileType es).HoldsAt 0 (headerOf fileType es).encode ∧
    (layOut fileType es).HoldsAt headerSize (nameTable es) ∧
    (layOut fileType es).HoldsAt (entriesStart es) (entryTable es) ∧
    (layOut fileType es).HoldsAt (sectionsStart es) ((noSection es).encode 0) ∧
    (layOut fileType es).HoldsAt (sectionsStart es + 64) ((symbolSection es).encode entrySize) ∧
    (layOut fileType es).HoldsAt (sectionsStart es + 128) ((nameSection es).encode 0) := by
  have hall : (layOut fileType es).HoldsAt 0 (layOut fileType es).toList := ⟨[], [], by simp, rfl⟩
  rw [show (layOut fileType es).toList = _ from List.toList_toArray] at hall
  simp only [List.flatten_cons, Bytes.holdsAt_append, Header.length_encode, Section.length_encode, Nat.zero_add,
    entriesStart_eq, sectionsStart_eq] at hall
  obtain ⟨hheader, hnames, -, hentries, -, hnone, hsymbols, hsection, -⟩ := hall
  exact ⟨hheader, hnames, hentries, hnone, hsymbols, hsection⟩

end Image
end Introspect
