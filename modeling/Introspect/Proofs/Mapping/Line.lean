import Introspect.Mapping.Entry
import Introspect.Proofs.Text.Numerals
import Introspect.Proofs.Text.Words
/-!
# The grammar of a line

A row is what a line of a memory map can say.  It can be written in many ways: each number in any of its numerals, and
the words with any blanks between and around them, also where the path is cut into words.  A line is read exactly if
there is a row that is written in it, and then as that row says (`line_grammar`).
-/
namespace Introspect
namespace Text

variable {c : Char} {cs : List Char} {n d : Nat}

theorem not_isBlank_of_digitValue? (h : digitValue? 16 c = some d) : isBlank c = false := by
  have hrange := toNat_of_digitValue? h
  simp only [isBlank, blankRanges, List.any_cons, List.any_nil, Bool.or_eq_false_iff, Bool.and_eq_false_iff,
    decide_eq_false_iff_not, and_true]
  omega

theorem Numeral.isWord (h : Numeral n cs) : IsWord cs := by
  refine ⟨h.nonempty, fun c hc => ?_⟩
  rcases h.mem c hc with rfl | ⟨d, hd⟩
  · decide
  · exact not_isBlank_of_digitValue? hd

end Text

namespace Mapping

open Text (Numeral IsWord Spaced)

/-- What a line says: the five fields, and the words of the path, which has none where no path is named. -/
structure Row where
  start : Address
  stop : Address
  permissions : List Char
  offset : Nat
  device : List Char
  inode : List Char
  path : List (List Char)
  offset_lt : offset < Text.wordLimit
  isWord : ∀ w ∈ permissions :: device :: inode :: path, IsWord w

namespace Row

/-- The mapping that a row is about; the device and the inode do not enter it. -/
def mapping (r : Row) : Mapping where
  start := r.start
  stop := r.stop
  permissions := String.ofList r.permissions
  offset := r.offset
  path := if r.path = [] then none else some (String.ofList (Text.joinWith [' '] r.path))

/-- The words that a row can be written in. -/
def Spelling (r : Row) (ws : List (List Char)) : Prop :=
  ∃ start stop offset, Numeral r.start.toNat start ∧ Numeral r.stop.toNat stop ∧ Numeral r.offset offset ∧
    ws = (start ++ '-' :: stop) :: r.permissions :: offset :: r.device :: r.inode :: r.path

/-- A row stands in a line when the line has its words, with whatever blanks between and around them. -/
def StandsIn (r : Row) (line : String) : Prop := ∃ ws, r.Spelling ws ∧ Spaced ws line.toList

end Row

variable {r : Row} {cs : List Char} {a : Address} {ws : List (List Char)} {line : String} {m : Mapping}

theorem readAddress?_eq_some_iff : readAddress? cs = some a ↔ Numeral a.toNat cs := by
  unfold readAddress?
  simp only [Option.map_eq_some_iff, Text.readUnsigned?_eq_some_iff]
  constructor
  · rintro ⟨n, hn, rfl⟩
    have hnat : (Address.ofNat n).toNat = n := UInt64.toNat_ofNat_of_lt hn.1
    rwa [hnat]
  · exact fun h => ⟨a.toNat, h, Address.ext (UInt64.toNat_ofNat_of_lt h.1)⟩

theorem isWord_range {start stop : List Char} (hstart : IsWord start) (hstop : IsWord stop) :
    IsWord (start ++ '-' :: stop) := by
  refine ⟨List.append_ne_nil_of_left_ne_nil hstart.nonempty _, List.forall_mem_append.2 ⟨hstart.unbroken, ?_⟩⟩
  exact List.forall_mem_cons.2 ⟨by decide, hstop.unbroken⟩

theorem Row.Spelling.isWord (h : r.Spelling ws) : ∀ w ∈ ws, IsWord w := by
  obtain ⟨start, stop, offset, hstart, hstop, hoffset, rfl⟩ := h
  obtain ⟨hpermissions, hrest⟩ := List.forall_mem_cons.1 r.isWord
  refine List.forall_mem_cons.2 ⟨isWord_range hstart.isWord hstop.isWord, ?_⟩
  exact List.forall_mem_cons.2 ⟨hpermissions, List.forall_mem_cons.2 ⟨hoffset.isWord, hrest⟩⟩

theorem Row.exists_spelling (r : Row) : ∃ ws, r.Spelling ws := by
  have hstart := Text.numeral_toDigits r.start.word.toNat_lt
  have hstop := Text.numeral_toDigits r.stop.word.toNat_lt
  exact ⟨_, _, _, _, hstart, hstop, Text.numeral_toDigits r.offset_lt, rfl⟩

theorem ofWords?_of_spelling (h : r.Spelling ws) : ofWords? ws = some r.mapping := by
  obtain ⟨start, stop, offset, hstart, hstop, hoffset, rfl⟩ := h
  simp only [ofWords?, Text.splitOnce?_append hstart.dash_not_mem, readAddress?_eq_some_iff.2 hstart,
    readAddress?_eq_some_iff.2 hstop, Text.readUnsigned?_eq_some_iff.2 hoffset, Option.bind_eq_bind, Option.bind_some,
    Option.pure_def, Row.mapping, List.isEmpty_iff]

theorem exists_spelling_of_ofWords? (hws : ∀ w ∈ ws, IsWord w) (h : ofWords? ws = some m) :
    ∃ r : Row, r.Spelling ws ∧ r.mapping = m := by
  unfold ofWords? at h
  split at h
  · rename_i range permissions offset device inode path
    simp only [Option.bind_eq_bind, Option.bind_eq_some_iff, Option.pure_def, Option.some.injEq] at h
    obtain ⟨⟨before, after⟩, hcut, start, hstart, stop, hstop, n, hoffset, rfl⟩ := h
    obtain ⟨rfl, -⟩ := Text.splitOnce?_eq_some_iff.1 hcut
    have hoffset := Text.readUnsigned?_eq_some_iff.1 hoffset
    obtain ⟨-, hws⟩ := List.forall_mem_cons.1 hws
    obtain ⟨hpermissions, hws⟩ := List.forall_mem_cons.1 hws
    obtain ⟨-, hws⟩ := List.forall_mem_cons.1 hws
    let r : Row :=
      { start, stop, permissions, offset := n, device, inode, path, offset_lt := hoffset.1
        isWord := List.forall_mem_cons.2 ⟨hpermissions, hws⟩ }
    refine ⟨r, ⟨before, after, offset, ?_, ?_, hoffset, rfl⟩, ?_⟩
    · exact readAddress?_eq_some_iff.1 hstart
    · exact readAddress?_eq_some_iff.1 hstop
    · simp only [r, Row.mapping, List.isEmpty_iff]
  · cases h

theorem ofLine?_eq_some_iff : ofLine? line = some m ↔ ∃ r : Row, r.StandsIn line ∧ r.mapping = m := by
  constructor
  · intro h
    have hspaced := Text.words_eq_iff.1 (Eq.refl (Text.words line.toList))
    obtain ⟨r, hspelling, hr⟩ := exists_spelling_of_ofWords? hspaced.isWord h
    exact ⟨r, ⟨_, hspelling, hspaced⟩, hr⟩
  · rintro ⟨r, ⟨ws, hspelling, hspaced⟩, rfl⟩
    rw [ofLine?, hspaced.words_eq, ofWords?_of_spelling hspelling]

/-- **A line is read exactly if a row stands in it, and as that row says.**  Every row has a spelling, and every spelling
stands in a line. -/
theorem line_grammar :
    (∀ (line : String) (m : Mapping), ofLine? line = some m ↔ ∃ r : Row, r.StandsIn line ∧ r.mapping = m) ∧
    (∀ line : String, ofLine? line = none ↔ ∀ r : Row, ¬ r.StandsIn line) ∧
    ∀ r : Row, (∃ ws, r.Spelling ws) ∧ ∀ ws, r.Spelling ws → ∃ line : String, Spaced ws line.toList := by
  refine ⟨fun line m => ofLine?_eq_some_iff, fun line => ?_, fun r => ⟨r.exists_spelling, fun ws hspelling => ?_⟩⟩
  · rw [Option.eq_none_iff_forall_ne_some]
    constructor
    · exact fun h r hr => h r.mapping (ofLine?_eq_some_iff.2 ⟨r, hr, rfl⟩)
    · intro h m hm
      obtain ⟨r, hr, -⟩ := ofLine?_eq_some_iff.1 hm
      exact h r hr
  · refine ⟨String.ofList (Text.joinWith [' '] ws), ?_⟩
    rw [String.toList_ofList]
    exact Text.spaced_joinWith hspelling.isWord

/-- A library whose path has a blank in it. -/
def blankPath : Row where
  start := ⟨0xAF⟩
  stop := ⟨0xB0⟩
  permissions := "r-xp".toList
  offset := 0
  device := "fd:01".toList
  inode := "7".toList
  path := ["/usr".toList, "lib".toList]
  offset_lt := by decide
  isWord := by decide +kernel

/-- A spelling of it, with letters in either case, and with zeros and a `+` in front. -/
def blankPathWords : List (List Char) :=
  ["+00aF-0B0", "r-xp", "0", "fd:01", "7", "/usr", "lib"].map String.toList

/-- Blanks of many kinds stand around and between the words, also inside the path. -/
theorem line_grammar_blankPath : blankPath.Spelling blankPathWords ∧
    ofLine? "\t+00aF-0B0\u00a0r-xp  0  fd:01 7 /usr\u2003lib \n" = some blankPath.mapping ∧
    blankPath.mapping.path = some "/usr lib" ∧ ∃ line : String, Spaced blankPathWords line.toList := by
  have hspelling : blankPath.Spelling blankPathWords := by
    refine ⟨"+00aF".toList, "0B0".toList, "0".toList, ⟨by decide, "00aF".toList, ?_, .inr rfl⟩,
      ⟨by decide, "0B0".toList, ?_, .inl rfl⟩, ⟨by decide, "0".toList, ?_, .inl rfl⟩, rfl⟩
    · exact ⟨2, "aF".toList, rfl, by decide +kernel⟩
    · exact ⟨1, "B0".toList, rfl, by decide +kernel⟩
    · exact ⟨0, "0".toList, rfl, by decide +kernel⟩
  refine ⟨hspelling, (line_grammar.1 _ _).2 ⟨blankPath, ⟨_, hspelling, ?_⟩, rfl⟩, by decide +kernel, ?_⟩
  · exact Text.words_eq_iff.1 (by decide +kernel)
  · exact (line_grammar.2.2 blankPath).2 _ hspelling

end Mapping
end Introspect
