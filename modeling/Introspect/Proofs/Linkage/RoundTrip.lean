import Introspect.Linkage.Names
import Introspect.Proofs.Text
/-!
# Decoding what was encoded

Segments are read back from a linkage name as they were written, whatever characters they are made of and whatever
follows them, as long as neither a segment nor what follows begins with a digit.  So every name that is derived from a
path shows that path again, in its normal form, and a path is known by its encoding up to that form
(`demangle_derived`).
-/
namespace Introspect
namespace Linkage

/-- A segment whose length can be told apart from the segment itself, and is one that is read. -/
structure Plain (seg : List Char) : Prop where
  nonempty : seg ≠ []
  undigited : Text.Undigited seg
  fits : Text.byteLength seg < Text.wordLimit

variable {segs : List (List Char)} {seg tail rest : List Char}

/-- Digits state a length if the number they denote is positive and fits a word. -/
theorem segmentLength?_of_isDigit {ds : List Char} (hd : ∀ c ∈ ds, c.isDigit = true) :
    segmentLength? ds = if 0 < Nat.ofDigitChars 10 ds 0 ∧ Nat.ofDigitChars 10 ds 0 < Text.wordLimit then
      some (Nat.ofDigitChars 10 ds 0) else none := by
  unfold segmentLength?
  by_cases hne : ds = []
  · subst hne
    rfl
  · rw [Text.readDigits?_of_isDigit hne hd]
    by_cases hlt : Nat.ofDigitChars 10 ds 0 < Text.wordLimit
    · simp [hlt, Option.filter_some, Nat.pos_iff_ne_zero]
    · simp [hlt]

/-- **One segment more**: its length first, and then as many bytes. -/
theorem decodeSegments?_eq (cs : List Char) : decodeSegments? cs =
    match segmentLength? (cs.takeWhile Char.isDigit) with
    | none => some ([], cs)
    | some n => match Text.takeBytes? n (cs.dropWhile Char.isDigit) with
      | none => none
      | some (seg, rest) => (decodeSegments? rest).map fun p => (seg :: p.1, p.2) := by
  rw [decodeSegments?]
  split
  · rename_i hn
    rw [hn]
  · rename_i n hn
    split
    · rename_i ht
      rw [hn]
      dsimp only
      rw [ht]
    · rename_i seg rest ht
      dsimp only
      rw [hn]
      dsimp only
      rw [ht]

/-- Where no digit follows, no segment does. -/
theorem decodeSegments?_undigited (h : Text.Undigited tail) : decodeSegments? tail = some ([], tail) := by
  have hspan : tail.takeWhile Char.isDigit = [] := (@Text.span_digits [] tail (by simp) h).1
  rw [decodeSegments?_eq, hspan]
  rfl

/-- Digits that state the length of a segment; they may begin with zeros. -/
structure Spells (ds seg : List Char) : Prop where
  digits : ∀ c ∈ ds, c.isDigit = true
  length : Nat.ofDigitChars 10 ds 0 = Text.byteLength seg
  plain : Plain seg

/-- **A segment is read behind any digits that state its length**, whatever follows it. -/
theorem Spells.decode {ds : List Char} (h : Spells ds seg) (rest : List Char) :
    decodeSegments? (ds ++ (seg ++ rest)) = (decodeSegments? rest).map fun p => (seg :: p.1, p.2) := by
  obtain ⟨htake, hdrop⟩ := Text.span_digits h.digits (h.plain.undigited.append h.plain.nonempty rest)
  rw [decodeSegments?_eq, htake, hdrop, segmentLength?_of_isDigit h.digits, h.length,
    if_pos ⟨Text.byteLength_pos h.plain.nonempty, h.plain.fits⟩]
  dsimp only
  rw [Text.takeBytes?_append]

theorem Plain.spells (h : Plain seg) : Spells (Nat.toDigits 10 (Text.byteLength seg)) seg :=
  ⟨Text.isDigit_of_mem_toDigits, Nat.ofDigitChars_ten_toDigits, h⟩

/-- **A segment is read back as it was written**, whatever follows it. -/
theorem decodeSegments?_encodeSegment (h : Plain seg) (rest : List Char) :
    decodeSegments? (encodeSegment seg ++ rest) = (decodeSegments? rest).map fun p => (seg :: p.1, p.2) := by
  unfold encodeSegment
  rw [List.append_assoc]
  exact h.spells.decode rest

/-- **Segments are read back as they were written**, and what follows them is left. -/
theorem decodeSegments?_encodeSegments (hs : ∀ seg ∈ segs, Plain seg) (ht : Text.Undigited tail) :
    decodeSegments? (encodeSegments segs ++ tail) = some (segs, tail) := by
  induction segs with
  | nil => exact decodeSegments?_undigited ht
  | cons seg segs ih =>
    have hrest := ih fun s hmem => hs s (List.mem_cons_of_mem seg hmem)
    unfold encodeSegments at hrest ⊢
    rw [List.flatMap_cons, List.append_assoc, decodeSegments?_encodeSegment (hs seg List.mem_cons_self), hrest]
    rfl

theorem encodeSegments_append (segs segs' : List (List Char)) :
    encodeSegments (segs ++ segs') = encodeSegments segs ++ encodeSegments segs' := List.flatMap_append

/-- **A name with the mark is decoded exactly if segments are read behind it.** -/
theorem demangle?_emitted (body : List Char) : demangle? (emitted body) =
    ((decodeSegments? body).filter fun p => !p.1.isEmpty).map fun p => String.ofList (showDecoded p.1 p.2) := by
  unfold demangle? emitted decode?
  rw [String.toList_ofList, Text.stripStart?_append]
  dsimp only
  cases decodeSegments? body with
  | none => rfl
  | some p =>
    obtain ⟨segs, tail⟩ := p
    cases segs <;> rfl

theorem demangle_emitted (hne : segs ≠ []) (hs : ∀ seg ∈ segs, Plain seg) (ht : Text.Undigited tail) :
    demangle (emitted (encodeSegments segs ++ tail)) = String.ofList (showDecoded segs tail) := by
  unfold demangle
  rw [demangle?_emitted, decodeSegments?_encodeSegments hs ht, Option.filter_some, if_pos (by simpa using hne)]
  rfl

/-! ## Paths -/

/-- The path without its empty segments. -/
def normalize (path : String) : String := String.ofList (joinSegments (segments path.toList))

/-- A path that a name can carry: it has segments, and none of them begins with a digit.  Its length is a word, as is
that of every text in memory. -/
structure Encodable (path : String) : Prop where
  named : segments path.toList ≠ []
  undigited : ∀ seg ∈ segments path.toList, Text.Undigited seg
  fits : Text.byteLength path.toList < Text.wordLimit

variable {path method other : String}

theorem Encodable.plain (h : Encodable path) : ∀ seg ∈ segments path.toList, Plain seg := by
  intro seg hseg
  obtain ⟨hmem, hne⟩ := List.mem_filter.1 hseg
  exact ⟨by simpa using hne, h.undigited seg hseg,
    Nat.lt_of_le_of_lt (Text.byteLength_splitOn2 ':' ':' path.toList seg hmem) h.fits⟩

/-- **A path is known by its encoding**, up to its empty segments. -/
theorem segments_of_mangle (hp : Encodable path) (ho : Encodable other) (h : mangle path = mangle other) :
    segments path.toList = segments other.toList := by
  have hnil : Text.Undigited [] := by decide
  have hpath := decodeSegments?_encodeSegments hp.plain hnil
  have hother := decodeSegments?_encodeSegments ho.plain hnil
  have hencode : encodeSegments (segments path.toList) = encodeSegments (segments other.toList) := String.ofList_inj.1 h
  rw [hencode, hother] at hpath
  exact (congrArg Prod.fst (Option.some.inj hpath)).symm

theorem Encodable.demangle (hp : Encodable path) (ht : Text.Undigited tail) :
    demangle (emitted (encode path.toList ++ tail)) =
      normalize path ++ if tail.head? = some callableMark then " (...)" else "" := by
  unfold encode
  rw [demangle_emitted hp.named hp.plain ht, showDecoded, String.ofList_append, normalize]
  congr 1
  split <;> rfl

theorem undigited_signature (params : List (List Char)) (ret : List Char) : Text.Undigited (signature params ret) := by
  intro c hc
  obtain rfl := Option.some.inj hc
  rfl

/-- **A member of a class is shown below it**, and as something to call. -/
theorem Encodable.demangle_member (hp : Encodable path) (hne : segs ≠ []) (hs : ∀ seg ∈ segs, Plain seg)
    (params : List (List Char)) (ret : List Char) :
    Linkage.demangle (emitted (encode path.toList ++ encodeSegments segs ++ signature params ret)) =
      normalize path ++ "::" ++ String.ofList (joinSegments segs) ++ " (...)" := by
  unfold encode
  rw [← encodeSegments_append, demangle_emitted (List.append_ne_nil_of_left_ne_nil hp.named segs)
    (List.forall_mem_append.2 ⟨hp.plain, hs⟩) (undigited_signature params ret)]
  have hjoin : joinSegments (segments path.toList ++ segs) =
      joinSegments (segments path.toList) ++ separator ++ joinSegments segs := Text.joinWith_append hp.named hne
  have hseparator : String.ofList separator = "::" := rfl
  have htail : String.ofList callableTail = " (...)" := rfl
  unfold showDecoded normalize
  rw [hjoin, if_pos (show (signature params ret).head? = some callableMark from rfl), String.ofList_append,
    String.ofList_append, String.ofList_append, hseparator, htail]

theorem plain_self : Plain ['s', 'e', 'l', 'f'] := ⟨by decide, by decide, by decide +kernel⟩

theorem appended_eq_emitted (path tail : String) :
    "_Y" ++ mangle path ++ tail = emitted (encode path.toList ++ tail.toList) := by
  have hmark : String.ofList mark = "_Y" := rfl
  unfold emitted mangle
  rw [String.ofList_append, String.ofList_append, String.ofList_toList, hmark, String.append_assoc]

/-- **Every name that is derived from a path shows the path again**, in its normal form: behind the mark and before any
tail that does not begin with a digit; in the names of a vtable, a type info, a constructor, a function and a method.
And paths with one encoding have the same segments. -/
theorem demangle_derived (hp : Encodable path) :
    (∀ tail : String, Text.Undigited tail.toList → demangle ("_Y" ++ mangle path ++ tail) =
      normalize path ++ if tail.toList.head? = some 'F' then " (...)" else "") ∧
    demangle (vtableSymbol path) = normalize path ∧
    demangle (typeInfoSymbol path) = normalize path ∧
    demangle (constructorSymbol path) = normalize path ++ "::self (...)" ∧
    (∀ params ret, demangle (functionSymbol path params ret) = normalize path ++ " (...)") ∧
    (∀ method params ret receiver, Encodable method → demangle (methodSymbol path method params ret receiver) =
      normalize path ++ "::" ++ normalize method ++ " (...)") ∧
    ∀ other, Encodable other → mangle other = mangle path → segments other.toList = segments path.toList := by
  refine ⟨fun tail ht => ?_, ?_, ?_, ?_, fun params ret => ?_, fun method params ret receiver hm => ?_,
    fun other ho h => segments_of_mangle ho hp h⟩
  · rw [appended_eq_emitted]
    exact hp.demangle ht
  · rw [vtableSymbol, hp.demangle (by decide), if_neg (by decide), String.append_empty]
  · rw [typeInfoSymbol, hp.demangle (by decide), if_neg (by decide), String.append_empty]
  · have hself : ∀ seg ∈ [['s', 'e', 'l', 'f']], Plain seg := by simp [plain_self]
    have h := hp.demangle_member (by decide) hself [changeableReference (encode path.toList)]
      (changeableReference (encode path.toList))
    rw [String.append_assoc, String.append_assoc] at h
    unfold encodeSegments at h
    rw [List.flatMap_cons, List.flatMap_nil, List.append_nil] at h
    exact h
  · rw [functionSymbol, hp.demangle (undigited_signature _ _)]
    rfl
  · exact hp.demangle_member hm.named hm.plain _ _

/-- Here a segment is made of what elsewhere stands between segments, and what follows reads like one. -/
theorem demangle_derived_colon :
    Encodable "::main:::Nöde::F" ∧ Text.Undigited "F1iZv".toList ∧
      demangle ("_Y" ++ mangle "::main:::Nöde::F" ++ "F1iZv") = "main:::Nöde::F (...)" := by
  have hp : Encodable "::main:::Nöde::F" := ⟨by decide +kernel, by decide +kernel, by decide +kernel⟩
  refine ⟨hp, by decide +kernel, ?_⟩
  rw [(demangle_derived hp).1 "F1iZv" (by decide +kernel)]
  decide +kernel

end Linkage
end Introspect
