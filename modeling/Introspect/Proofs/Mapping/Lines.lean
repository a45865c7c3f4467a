import Introspect.Proofs.Mapping.Line
import Introspect.Proofs.Mapping.Text
/-!
# A memory map is read line by line

A memory map that is text is read piece by piece, each on its own (`ofBytes?_eq`).  So what stands before the end of a
line and what stands behind it are read apart (`ofBytes?_append`), and a line that says nothing can stand anywhere
(`line_by_line`): one without words, one in which the words are no row, and one with a number that is too long for a
word.  How long a line is does not matter otherwise.
-/
namespace Introspect
namespace Mapping

open Text (Valid Spaced Blanks Hexadecimal Numeral)

/-! ## Pieces -/

/-- The mapping that a piece of a memory map is about. -/
def ofPiece? (piece : List UInt8) : Option Mapping := (Text.ofUtf8? piece).bind ofLine?

theorem mapM_eq_filterMap {α β : Type} {f : α → Option β} : ∀ {xs : List α}, (∀ x ∈ xs, (f x).isSome = true) →
    xs.mapM f = some (xs.filterMap f)
  | [], _ => rfl
  | x :: xs, h => by
    obtain ⟨hx, hxs⟩ := List.forall_mem_cons.1 h
    obtain ⟨y, hy⟩ := Option.isSome_iff_exists.1 hx
    rw [List.mapM_cons, hy, mapM_eq_filterMap hxs, List.filterMap_cons_some hy]
    rfl

/-- The piece that is left out behind the last newline says nothing. -/
theorem filterMap_lines {α : Type} {g : List UInt8 → Option α} (hnil : g [] = none) (bytes : List UInt8) :
    (lines bytes).filterMap g = (Text.splitOn1 newline bytes).filterMap g := by
  unfold lines
  dsimp only
  split
  · next hlast =>
    obtain ⟨pieces, h⟩ := List.getLast?_eq_some_iff.1 hlast
    rw [h, List.dropLast_concat, List.filterMap_append, List.filterMap_cons_none hnil, List.filterMap_nil,
      List.append_nil]
  · rfl

theorem utf8EncodeChar_newline : String.utf8EncodeChar '\n' = [newline] := by decide +kernel

theorem ofBytes?_eq_none_iff {bytes : List UInt8} : ofBytes? bytes = none ↔ ¬ Valid bytes := by
  rw [← Text.isSome_ofUtf8?_iff, ← isSome_ofBytes?_iff, Bool.not_eq_true, Option.isSome_eq_false_iff,
    Option.isNone_iff_eq_none]

/-- **A memory map that is text is read piece by piece.** -/
theorem ofBytes?_eq {bytes : List UInt8} (h : Valid bytes) :
    ofBytes? bytes = some ((Text.splitOn1 newline bytes).filterMap ofPiece?) := by
  have hpieces := (Text.valid_splitOn1 utf8EncodeChar_newline (by decide)).2 h
  have hlines : ∀ line ∈ lines bytes, (Text.ofUtf8? line).isSome = true := by
    rw [forall_mem_lines (P := fun line => (Text.ofUtf8? line).isSome = true) (by decide)]
    exact fun piece hp => Text.isSome_ofUtf8?_iff.2 (hpieces piece hp)
  have hnil : ofPiece? [] = none := by decide +kernel
  unfold ofBytes?
  rw [mapM_eq_filterMap hlines, ← filterMap_lines hnil]
  refine congrArg some ?_
  rw [List.filterMap_filterMap]
  rfl

/-! ## Ends of lines -/

/-- How a line can end. -/
inductive Ending where
  | newline
  | returnNewline
  deriving DecidableEq, Repr

def Ending.bytes : Ending → List UInt8
  | .newline => [Mapping.newline]
  | .returnNewline => [13, Mapping.newline]

/-- **What stands before a newline and what stands behind it are read apart**, and one of them is no text if the whole is
none. -/
theorem ofBytes?_append_newline (a b : List UInt8) :
    ofBytes? (a ++ newline :: b) = (ofBytes? a).bind fun before => (ofBytes? b).map (before ++ ·) := by
  have hvalid : Valid (a ++ newline :: b) ↔ Valid a ∧ Valid b :=
    Text.valid_append_cons utf8EncodeChar_newline (by decide)
  by_cases ha : Valid a
  · by_cases hb : Valid b
    · rw [ofBytes?_eq ha, ofBytes?_eq hb, ofBytes?_eq (hvalid.2 ⟨ha, hb⟩), Text.splitOn1_append_cons,
        List.filterMap_append]
      rfl
    · rw [ofBytes?_eq ha, ofBytes?_eq_none_iff.2 hb, ofBytes?_eq_none_iff.2 fun h => hb (hvalid.1 h).2]
      rfl
  · rw [ofBytes?_eq_none_iff.2 ha, ofBytes?_eq_none_iff.2 fun h => ha (hvalid.1 h).1]
    rfl

/-- A carriage return at the end is a blank behind the words of the last line. -/
theorem ofPiece?_append_return {piece : List UInt8} (h : Valid piece) :
    ofPiece? (piece ++ [13]) = ofPiece? piece := by
  obtain ⟨text, htext⟩ := Option.isSome_iff_exists.1 (Text.isSome_ofUtf8?_iff.2 h)
  have hreturn : Text.toUtf8 "\r" = [13] := by decide +kernel
  have hlonger : Text.ofUtf8? (piece ++ [13]) = some (text ++ "\r") := by
    rw [Text.ofUtf8?_eq_some_iff, Text.toUtf8_append, hreturn, ← Text.ofUtf8?_eq_some_iff.1 htext]
  have hblank : Blanks "\r".toList := List.forall_mem_singleton.2 (by decide)
  have hwords : Text.words (text ++ "\r").toList = Text.words text.toList := by
    rw [String.toList_append]
    exact ((Text.words_eq_iff.1 rfl).before_blanks hblank).words_eq
  unfold ofPiece?
  rw [htext, hlonger, Option.bind_some, Option.bind_some, ofLine?, ofLine?, hwords]

theorem ofBytes?_append_return (a : List UInt8) : ofBytes? (a ++ [13]) = ofBytes? a := by
  have hown : String.utf8EncodeChar '\r' = [13] := by decide +kernel
  have hvalid : Valid (a ++ [13]) ↔ Valid a :=
    (Text.valid_append_cons hown (by decide)).trans (and_iff_left ⟨[], rfl⟩)
  by_cases ha : Valid a
  · rw [ofBytes?_eq ha, ofBytes?_eq (hvalid.2 ha)]
    obtain ⟨front, last, hsplit, hlonger⟩ := Text.exists_splitOn1_append (by decide : newline ∉ [13]) a
    have hlast : Valid last := by
      refine (Text.valid_splitOn1 utf8EncodeChar_newline (by decide)).2 ha last ?_
      rw [hsplit]
      exact List.mem_append_right front List.mem_cons_self
    rw [hsplit, hlonger, List.filterMap_append, List.filterMap_append]
    refine congrArg (fun found => some (front.filterMap ofPiece? ++ found)) ?_
    rw [List.filterMap_cons, List.filterMap_cons, ofPiece?_append_return hlast]
  · rw [ofBytes?_eq_none_iff.2 ha, ofBytes?_eq_none_iff.2 fun h => ha (hvalid.1 h)]

/-- **The end of a line, of either kind, stands between texts that are read apart.** -/
theorem ofBytes?_append (a : List UInt8) (e : Ending) (b : List UInt8) :
    ofBytes? (a ++ e.bytes ++ b) = (ofBytes? a).bind fun before => (ofBytes? b).map (before ++ ·) := by
  rw [List.append_assoc]
  cases e with
  | newline => exact ofBytes?_append_newline a b
  | returnNewline =>
    change ofBytes? (a ++ 13 :: (newline :: b)) = _
    rw [List.append_cons, ofBytes?_append_newline, ofBytes?_append_return]

/-- What says nothing behind the end of a line changes nothing. -/
theorem ofBytes?_append_nothing (a : List UInt8) (e : Ending) {b : List UInt8} (hb : ofBytes? b = some []) :
    ofBytes? (a ++ e.bytes ++ b) = ofBytes? a := by
  rw [ofBytes?_append, hb]
  cases ofBytes? a with
  | none => rfl
  | some before => exact congrArg some (List.append_nil before)

theorem ofBytes?_ended (a : List UInt8) (e : Ending) : ofBytes? (a ++ e.bytes) = ofBytes? a := by
  have hnil : ofBytes? [] = some [] := by decide +kernel
  rw [← List.append_nil (a ++ e.bytes), ofBytes?_append_nothing a e hnil]

/-! ## One line -/

theorem ofBytes?_toUtf8 {line : String} (h : '\n' ∉ line.toList) :
    ofBytes? (Text.toUtf8 line) = some (ofLine? line).toList := by
  have hline := Text.ofUtf8?_toUtf8 line
  have hvalid : Valid (Text.toUtf8 line) := Text.isSome_ofUtf8?_iff.1 (by rw [hline]; rfl)
  have hone : Text.splitOn1 newline (Text.toUtf8 line ++ []) = [Text.toUtf8 line ++ []] :=
    Text.splitOn1_append (Text.not_mem_toUtf8 utf8EncodeChar_newline (by decide) h) rfl
  rw [List.append_nil] at hone
  rw [ofBytes?_eq hvalid, hone]
  have hpiece : ofPiece? (Text.toUtf8 line) = ofLine? line := by rw [ofPiece?, hline, Option.bind_some]
  cases hl : ofLine? line <;> simp [hpiece, hl]

/-- No row stands in the line: it is short of words, or a word is not what its place asks for. -/
def Malformed (line : String) : Prop := ∀ r : Row, ¬ r.StandsIn line

theorem malformed_iff {line : String} : Malformed line ↔ ofLine? line = none := by
  rw [Option.eq_none_iff_forall_ne_some]
  constructor
  · intro h m hm
    obtain ⟨r, hr, -⟩ := ofLine?_eq_some_iff.1 hm
    exact h r hr
  · exact fun h r hr => h r.mapping (ofLine?_eq_some_iff.2 ⟨r, hr, rfl⟩)

/-- A line without words, the empty one among them, is no row. -/
theorem malformed_of_blanks {line : String} (h : Blanks line.toList) : Malformed line := by
  rw [malformed_iff, ofLine?, Text.words_eq_iff.2 (Spaced.blank h)]
  rfl

/-- Digits, with or without a `+`, that denote a number which is no word. -/
def Oversized (cs : List Char) : Prop :=
  ∃ n ds, Text.wordLimit ≤ n ∧ Hexadecimal n ds ∧ (cs = ds ∨ cs = '+' :: ds)

theorem Oversized.not_numeral {cs : List Char} {n : Nat} (h : Oversized cs) : ¬ Numeral n cs := by
  obtain ⟨m, ds, hm, hds, hcs⟩ := h
  rintro ⟨hn, ds', hds', hcs'⟩
  have hsame : ∀ {xs : List Char}, Hexadecimal m xs → ¬ Hexadecimal n xs := by
    intro xs hx hx'
    have heq := hx.digitsValue?.symm.trans hx'.digitsValue?
    obtain rfl := Option.some.inj heq
    exact absurd hn (Nat.not_lt.2 hm)
  rcases hcs with rfl | rfl <;> rcases hcs' with rfl | hplus
  · exact hsame hds hds'
  · exact Text.not_hexadecimal_plus (hplus ▸ hds)
  · exact Text.not_hexadecimal_plus hds'
  · exact hsame hds ((List.cons.inj hplus).2 ▸ hds')

/-- One of the three numbers of the line is too long for a word. -/
def Overlong (line : String) : Prop :=
  ∃ start stop permissions offset rest, '-' ∉ start ∧
    Spaced ((start ++ '-' :: stop) :: permissions :: offset :: rest) line.toList ∧
    (Oversized start ∨ Oversized stop ∨ Oversized offset)

theorem malformed_of_overlong {line : String} (h : Overlong line) : Malformed line := by
  obtain ⟨start, stop, permissions, offset, rest, hdash, hspaced, hover⟩ := h
  rintro r ⟨ws, ⟨start', stop', offset', hstart, hstop, hoffset, rfl⟩, hrow⟩
  have hwords := hspaced.words_eq.symm.trans hrow.words_eq
  obtain ⟨hrange, hwords⟩ := List.cons.inj hwords
  obtain ⟨-, hwords⟩ := List.cons.inj hwords
  obtain ⟨rfl, -⟩ := List.cons.inj hwords
  have hcut := (Text.splitOnce?_append hdash stop).symm.trans
    (hrange ▸ Text.splitOnce?_append hstart.dash_not_mem stop')
  obtain ⟨rfl, rfl⟩ := Prod.mk.inj (Option.some.inj hcut)
  rcases hover with hover | hover | hover
  · exact hover.not_numeral hstart
  · exact hover.not_numeral hstop
  · exact hover.not_numeral hoffset

/-- **A memory map is read line by line.**  It is refused exactly if it is no text.  What stands on the two sides of the
end of a line is read apart, whichever of the two ends it is, and an end behind the last line changes nothing.  A line
that is malformed is passed over wherever it stands, and the lines around it are read as if it were not there; so is one
that is empty or blank, and one with a number that is too long. -/
theorem line_by_line :
    (∀ bytes, ofBytes? bytes = none ↔ ¬ Valid bytes) ∧
    (∀ a (e : Ending) b,
      ofBytes? (a ++ e.bytes ++ b) = (ofBytes? a).bind fun before => (ofBytes? b).map (before ++ ·)) ∧
    (∀ a (e : Ending), ofBytes? (a ++ e.bytes) = ofBytes? a) ∧
    (∀ line : String, '\n' ∉ line.toList → ofBytes? (Text.toUtf8 line) = some (ofLine? line).toList) ∧
    (∀ line : String, '\n' ∉ line.toList → Malformed line → ∀ a (e e' : Ending) b,
      ofBytes? (Text.toUtf8 line ++ e.bytes ++ b) = ofBytes? b ∧
      ofBytes? (a ++ e.bytes ++ (Text.toUtf8 line ++ e'.bytes ++ b)) = ofBytes? (a ++ e.bytes ++ b) ∧
      ofBytes? (a ++ e.bytes ++ Text.toUtf8 line) = ofBytes? a) ∧
    (∀ line : String, Blanks line.toList ∨ Overlong line → Malformed line) := by
  refine ⟨fun _ => ofBytes?_eq_none_iff, ofBytes?_append, ofBytes?_ended, fun _ => ofBytes?_toUtf8, ?_, ?_⟩
  · intro line hline hbad a e e' b
    have hnothing : ofBytes? (Text.toUtf8 line) = some [] := by
      rw [ofBytes?_toUtf8 hline, malformed_iff.1 hbad]
      rfl
    have hbefore : ∀ e : Ending, ofBytes? (Text.toUtf8 line ++ e.bytes ++ b) = ofBytes? b := by
      intro e
      rw [ofBytes?_append, hnothing]
      exact Option.map_id'
    refine ⟨hbefore e, ?_, ofBytes?_append_nothing a e hnothing⟩
    rw [ofBytes?_append, hbefore, ofBytes?_append]
  · exact fun line h => h.elim malformed_of_blanks malformed_of_overlong

/-- A line whose range starts at 2^64. -/
def beyondWords : String := "10000000000000000-10000000000001000 r--p 0 fd:01 7 /x"

/-- It is passed over, behind a line with a character of two bytes before its end; the lines around it are read. -/
theorem line_by_line_beyondWords : '\n' ∉ beyondWords.toList ∧ Overlong beyondWords ∧
    ∃ before after : Mapping, before.path = some "/\u00e9" ∧ after.path = none ∧
      ofBytes? (Text.toUtf8 "AF-B0 r-xp 0 fd:01 7 /\u00e9" ++ Ending.returnNewline.bytes ++
        (Text.toUtf8 beyondWords ++ Ending.newline.bytes ++ Text.toUtf8 "C0-D0 rw-p 10 0:0 0")) =
      some [before, after] := by
  obtain ⟨-, happend, -, hone, hpassed, hmalformed⟩ := line_by_line
  have hline : '\n' ∉ beyondWords.toList := by decide +kernel
  have hlong : Overlong beyondWords := by
    refine ⟨"10000000000000000".toList, "10000000000001000".toList, "r--p".toList, "0".toList,
      ["fd:01", "7", "/x"].map String.toList, by decide +kernel, Text.words_eq_iff.1 (by decide +kernel), .inl ?_⟩
    exact ⟨0x10000000000000000, _, Nat.le_refl _, ⟨0, _, rfl, by decide +kernel⟩, .inl rfl⟩
  refine ⟨hline, hlong, ⟨⟨0xAF⟩, ⟨0xB0⟩, "r-xp", 0, some "/\u00e9"⟩, ⟨⟨0xC0⟩, ⟨0xD0⟩, "rw-p", 16, none⟩, rfl, rfl, ?_⟩
  have hafter : '\n' ∉ "C0-D0 rw-p 10 0:0 0".toList := by decide +kernel
  have hbefore : '\n' ∉ "AF-B0 r-xp 0 fd:01 7 /\u00e9".toList := by decide +kernel
  obtain ⟨-, hbetween, -⟩ := hpassed _ hline (hmalformed _ (.inr hlong))
    (Text.toUtf8 "AF-B0 r-xp 0 fd:01 7 /\u00e9") .returnNewline .newline (Text.toUtf8 "C0-D0 rw-p 10 0:0 0")
  rw [hbetween, happend, hone _ hbefore, hone _ hafter]
  decide +kernel

end Mapping
end Introspect
