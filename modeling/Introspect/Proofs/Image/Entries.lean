import Introspect.Proofs.Image.Sections
/-!
# A symbol table within its file

A symbol table has as many entries as its size has room for, as long as they lie in the file; what the header says about
the rest is not believed (`symbols_bounded`).  The entry of a number is the value of the 24 bytes at its place.
-/
namespace Introspect
namespace Image

variable {bytes : Bytes} {start i k : Nat} {s : Section}

/-! ## One entry -/

/-- What the bytes of an entry say; three of them, from the fifth on, say nothing here. -/
def Entry.decode (chunk : List UInt8) : Entry where
  nameOffset := Octets.decode (chunk.take 4)
  info := Octets.decode ((chunk.drop 4).take 1)
  value := Octets.decode ((chunk.drop 8).take 8)
  size := Octets.decode ((chunk.drop 16).take 8)

/-- A field is a part of the record it stands in. -/
theorem number?_within {width offset n : Nat} (hrecord : start + n ≤ bytes.size) (hfield : offset + width ≤ n) :
    bytes.number? width (start + offset) =
      some (Octets.decode (((bytes.extract start (start + n)).toList.drop offset).take width)) := by
  rw [Bytes.number?_of_le (by omega)]
  simp only [Array.toList_extract, List.extract_eq_take_drop, Nat.add_sub_cancel_left, List.drop_take, List.drop_drop,
    List.take_take]
  rw [Nat.min_eq_left (Nat.le_sub_of_add_le (by omega))]

/-- **An entry is read exactly if its 24 bytes lie in the file**, and as they say. -/
theorem readEntry?_eq (bytes : Bytes) (start : Nat) : readEntry? bytes start =
    if start + 24 ≤ bytes.size then some (Entry.decode (bytes.extract start (start + 24)).toList) else none := by
  unfold readEntry?
  split
  · next hsize =>
    have hname : bytes.number? 4 (start + 0) = _ := number?_within hsize (by decide)
    rw [Nat.add_zero] at hname
    rw [hname, number?_within hsize (by decide), number?_within hsize (by decide), number?_within hsize (by decide)]
    rfl
  · next hsize =>
    have hlast : bytes.number? 8 (start + 16) = none := Bytes.number?_of_lt (by omega)
    simp only [hlast, bind, Option.bind_none, Option.bind_fun_none]

theorem readEntry?_eq_none_iff : readEntry? bytes start = none ↔ bytes.size < start + 24 := by
  rw [readEntry?_eq]
  split
  · simp only [reduceCtorEq, false_iff, Nat.not_lt, *]
  · simp only [true_iff]
    omega

/-! ## The table -/

theorem entriesFrom_eq (bytes : Bytes) (base n i : Nat) : entriesFrom bytes n (base + i * entrySize) =
    foundFrom (fun i => readEntry? bytes (base + i * entrySize)) n i := by
  induction n generalizing i with
  | zero => rfl
  | succ n ih =>
    unfold entriesFrom foundFrom
    rw [Nat.add_assoc, ← Nat.succ_mul, ih (i + 1)]
    cases readEntry? bytes (base + i * entrySize) <;> rfl

/-- The entries of a table start in order, so behind one that does not fit none does. -/
theorem readEntry?_succ (bytes : Bytes) (base i : Nat) (hnone : readEntry? bytes (base + i * entrySize) = none) :
    readEntry? bytes (base + (i + 1) * entrySize) = none := by
  rw [readEntry?_eq_none_iff] at hnone ⊢
  rw [Nat.succ_mul]
  omega

theorem symbolsOf_of_namesOf? {names : Nat} (hn : namesOf? bytes s = some names) : symbolsOf bytes s =
    (foundFrom (fun i => readEntry? bytes (s.offset + i * entrySize)) (s.size / entrySize) 0).map (·, names) := by
  unfold symbolsOf
  rw [hn, ← entriesFrom_eq, Nat.zero_mul, Nat.add_zero]

theorem symbolsOf_of_nameless (hn : namesOf? bytes s = none) : symbolsOf bytes s = [] := by
  unfold symbolsOf
  rw [hn]

/-- How many entries a table has: as many as its size has room for and the file has bytes for, behind its start. -/
def entryCount (bytes : Bytes) (s : Section) : Nat := min (s.size / 24) ((bytes.size - s.offset) / 24)

/-- **The entries of a table, by number.** -/
theorem symbolsOf_eq {names : Nat} (hn : namesOf? bytes s = some names) : symbolsOf bytes s =
    (List.range (entryCount bytes s)).map fun k =>
      (Entry.decode (bytes.extract (s.offset + 24 * k) (s.offset + 24 * k + 24)).toList, names) := by
  rw [symbolsOf_of_namesOf? hn]
  refine List.ext_getElem? fun k => ?_
  rw [List.getElem?_map, getElem?_foundFrom (readEntry?_succ bytes s.offset), Nat.zero_add, Nat.mul_comm k, readEntry?_eq,
    List.getElem?_map]
  change Option.map _ (if k < s.size / 24 then if s.offset + 24 * k + 24 ≤ bytes.size then _ else _ else _) = _
  by_cases hk : k < entryCount bytes s
  · have hsize : k < s.size / 24 := Nat.lt_of_lt_of_le hk (Nat.min_le_left _ _)
    have hfile : k < (bytes.size - s.offset) / 24 := Nat.lt_of_lt_of_le hk (Nat.min_le_right _ _)
    rw [if_pos hsize, if_pos (by omega), List.getElem?_range hk]
    rfl
  · have hout : ¬ (k < s.size / 24 ∧ k < (bytes.size - s.offset) / 24) := fun h => hk (Nat.lt_min.2 h)
    rw [List.getElem?_eq_none (by rw [List.length_range]; exact Nat.le_of_not_lt hk)]
    split
    · rw [if_neg (by omega)]
      rfl
    · rfl

/-! ## In words -/

theorem symbolWalk_of_namesOf? (hbytes : bytes.size < Text.wordLimit) {names : Nat}
    (hn : namesOf? bytes s = some names) :
    symbolWalk bytes s = .ok (⟨s.offset, entrySize, s.size / entrySize, 0⟩, names) := by
  unfold namesOf? at hn
  split at hn
  · next htable =>
    obtain ⟨linked, hlinked, rfl⟩ := Option.map_eq_some_iff.1 hn
    unfold symbolWalk
    rw [if_pos htable, numberedSection_eq hbytes, hlinked]
    rfl
  · cases hn

theorem symbolWalk_of_nameless (hbytes : bytes.size < Text.wordLimit) (hn : namesOf? bytes s = none) :
    symbolWalk bytes s = .ok (⟨s.offset, entrySize, 0, 0⟩, 0) := by
  unfold namesOf? at hn
  unfold symbolWalk
  split at hn
  · next htable =>
    rw [if_pos htable, numberedSection_eq hbytes, Option.map_eq_none_iff.1 hn]
    rfl
  · next htable =>
    rw [if_neg htable]
    rfl

/-- **The walk yields the entries and does not fault**, whatever the header of the section says. -/
theorem yields_symbols (hbytes : bytes.size < Text.wordLimit) (hsize : s.size < Text.wordLimit) :
    ∃ w names, symbolWalk bytes s = .ok (w, names) ∧ Yields (nextSymbol bytes names) w (symbolsOf bytes s) := by
  cases hn : namesOf? bytes s with
  | none =>
    refine ⟨_, _, symbolWalk_of_nameless hbytes hn, ?_⟩
    rw [symbolsOf_of_nameless hn]
    exact Walk.yields_nothing (Nat.le_refl 0)
  | some names =>
    refine ⟨_, _, symbolWalk_of_namesOf? hbytes hn, ?_⟩
    unfold nextSymbol
    rw [symbolsOf_of_namesOf? hn, map_foundFrom, funext (fetchSymbol?_eq hbytes)]
    refine Walk.yields (w := ⟨s.offset, entrySize, s.size / entrySize, 0⟩)
      (Nat.lt_of_le_of_lt (Nat.div_le_self _ _) hsize) (fun i hi => ?_) fun i start hstart => ?_
    · -- an entry that the size has room for starts before the size is used up
      have hroom : i * entrySize ≤ s.size :=
        Nat.le_trans (Nat.mul_le_mul_right _ (Nat.le_of_lt hi)) (Nat.div_mul_le_self _ _)
      exact Nat.lt_of_le_of_lt hroom hsize
    · rw [readEntry?_eq_none_iff.2 (by omega)]
      rfl

/-- **A walk over symbols is bounded by the file**, whatever the header of the section says: it yields nothing if the
section is no symbol table or links to none that can be read, and otherwise as many entries as both the size and the
file have room for, each as the 24 bytes at its place say, with the place of the names.  It never faults. -/
theorem symbols_bounded (bytes : Bytes) (s : Section) (hbytes : bytes.size < Text.wordLimit)
    (hsize : s.size < Text.wordLimit) :
    (s.isSymbolTable = false ∨ Image.section? bytes s.link = none → symbolsOf bytes s = []) ∧
    (∀ names, s.isSymbolTable = true → Image.section? bytes s.link = some names →
      symbolsOf bytes s = (List.range (min (s.size / 24) ((bytes.size - s.offset) / 24))).map fun k =>
        (Entry.decode (bytes.extract (s.offset + 24 * k) (s.offset + 24 * k + 24)).toList, names.offset)) ∧
    ∃ w names, symbolWalk bytes s = .ok (w, names) ∧ Yields (nextSymbol bytes names) w (symbolsOf bytes s) := by
  refine ⟨fun hnone => symbolsOf_of_nameless ?_, fun names htable hlinked => symbolsOf_eq ?_, yields_symbols hbytes hsize⟩
  · unfold namesOf?
    rcases hnone with htable | hlinked
    · rw [htable]
      rfl
    · rw [hlinked, Option.map_none, ite_self]
  · unfold namesOf?
    rw [if_pos htable, hlinked]
    rfl

/-- A symbol table that is said to fill the address space from some place on, in a file of 64 bytes. -/
def boundless (offset : Nat) : Section where
  index := 0
  headerOffset := 8
  kind := 2
  flags := 0
  offset := offset
  size := 0xFFFFFFFFFFFFFFFF
  link := 1
  info := 0

/-- Two entries fit in the file from the sixteenth byte on; behind its end there is none, whatever the size. -/
theorem symbols_bounded_boundless : overlapping.size < Text.wordLimit ∧ (boundless 16).size < Text.wordLimit ∧
    (symbolsOf overlapping (boundless 16)).length = 2 ∧ symbolsOf overlapping (boundless 65) = [] ∧
    ∃ w names, symbolWalk overlapping (boundless 16) = .ok (w, names) ∧
      Yields (nextSymbol overlapping names) w (symbolsOf overlapping (boundless 16)) := by
  have hbytes : overlapping.size < Text.wordLimit := by decide +kernel
  have hsize : ∀ offset, (boundless offset).size < Text.wordLimit :=
    fun _ => show 0xFFFFFFFFFFFFFFFF < Text.wordLimit by decide
  have hlink : (Image.section? overlapping 1).isSome = true := by decide +kernel
  have hlength : overlapping.size = 64 := by decide +kernel
  obtain ⟨names, hnames⟩ := Option.isSome_iff_exists.1 hlink
  obtain ⟨-, hentries, hwalk⟩ := symbols_bounded overlapping (boundless 16) hbytes (hsize 16)
  obtain ⟨-, hbehind, -⟩ := symbols_bounded overlapping (boundless 65) hbytes (hsize 65)
  refine ⟨hbytes, hsize 16, ?_, ?_, hwalk⟩
  · rw [hentries names rfl hnames, hlength, List.length_map, List.length_range]
    rfl
  · rw [hbehind names rfl hnames, hlength]
    rfl

end Image
end Introspect
