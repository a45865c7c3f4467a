import Introspect.Linkage.SymbolName
import Introspect.Proofs.Linkage.RoundTrip
/-!
# Lengths that run past the end

A name may end in a length that asks for more bytes than follow.  If the length is a word, the whole name is left as it
is, whatever segments stand before it.  But a length beyond the word is not read as a length: it ends the segments, as
any tail does, and the ones before it are decoded without it (`demangle?_overrun`).
-/
namespace Introspect
namespace Linkage

/-- Segments, each behind the digits of its length. -/
def spell (pairs : List (List Char × List Char)) : List Char := pairs.flatMap fun p => p.1 ++ p.2

variable {pairs : List (List Char × List Char)} {ds rest : List Char}

/-- Segments are read one after the other, whatever follows them. -/
theorem decodeSegments?_spell (hp : ∀ p ∈ pairs, Spells p.1 p.2) (tail : List Char) :
    decodeSegments? (spell pairs ++ tail) =
      (decodeSegments? tail).map fun p => (pairs.map Prod.snd ++ p.1, p.2) := by
  induction pairs with
  | nil => simp [spell]
  | cons p pairs ih =>
    have hrest := ih fun q hq => hp q (List.mem_cons_of_mem p hq)
    unfold spell at hrest ⊢
    rw [List.flatMap_cons, List.append_assoc, List.append_assoc, (hp p List.mem_cons_self).decode, hrest,
      Option.map_map]
    rfl

/-- **A length that too few bytes follow is refused if it is a word**, and is no length if it is not. -/
theorem decodeSegments?_overrun (hd : ∀ c ∈ ds, c.isDigit = true) (hr : Text.Undigited rest)
    (hover : Text.byteLength rest < Nat.ofDigitChars 10 ds 0) : decodeSegments? (ds ++ rest) =
      if Nat.ofDigitChars 10 ds 0 < Text.wordLimit then none else some ([], ds ++ rest) := by
  obtain ⟨htake, hdrop⟩ := Text.span_digits hd hr
  have hpos : 0 < Nat.ofDigitChars 10 ds 0 := by omega
  rw [decodeSegments?_eq, htake, hdrop, segmentLength?_of_isDigit hd]
  by_cases hword : Nat.ofDigitChars 10 ds 0 < Text.wordLimit
  · rw [if_pos hword, if_pos ⟨hpos, hword⟩]
    dsimp only
    rw [Text.takeBytes?_eq_none hover]
  · rw [if_neg hword, if_neg fun h => hword h.2]

/-- **What becomes of a name whose last length runs past the end.** -/
theorem demangle?_overrun (hp : ∀ p ∈ pairs, Spells p.1 p.2) (hd : ∀ c ∈ ds, c.isDigit = true)
    (hr : Text.Undigited rest) (hover : Text.byteLength rest < Nat.ofDigitChars 10 ds 0) :
    demangle? (emitted (spell pairs ++ (ds ++ rest))) =
      if pairs = [] ∨ Nat.ofDigitChars 10 ds 0 < Text.wordLimit then none
      else some (String.ofList (joinSegments (pairs.map Prod.snd))) := by
  rw [demangle?_emitted, decodeSegments?_spell hp, decodeSegments?_overrun hd hr hover]
  by_cases hword : Nat.ofDigitChars 10 ds 0 < Text.wordLimit
  · rw [if_pos hword, if_pos (.inr hword)]
    rfl
  · rw [if_neg hword, Option.map_some, List.append_nil]
    cases pairs with
    | nil => rfl
    | cons p pairs =>
      have hdigit : ds ≠ [] := by
        rintro rfl
        exact hword (by decide)
      have htail : ¬ (ds ++ rest).head? = some callableMark := by
        obtain ⟨d, more, rfl⟩ := List.exists_cons_of_ne_nil hdigit
        intro hhead
        have hmark : d = callableMark := Option.some.inj hhead
        have hyes := hd d List.mem_cons_self
        rw [hmark] at hyes
        exact absurd hyes (by decide)
      rw [if_neg (by simp [hword]), Option.filter_some, if_pos (by simp), Option.map_some]
      unfold showDecoded
      rw [if_neg htail, List.append_nil]

theorem ofRaw_emitted {body : List Char} (h : body ≠ []) :
    SymbolName.ofRaw (emitted body) = ⟨emitted body, demangle? (emitted body), .ymir⟩ := by
  obtain ⟨c, cs, rfl⟩ := List.exists_cons_of_ne_nil h
  have hmark : Text.stripStart? mark (emitted (c :: cs)).toList = some (c :: cs) := by
    unfold emitted
    rw [String.toList_ofList, Text.stripStart?_append]
  unfold SymbolName.ofRaw SymbolName.ofRawBy
  rw [hmark]

/-- **A name whose last length runs past its end is left as it is**, and has no decoded form, whatever segments stand
before that length: as long as the length is a word, or no segment stands before it.  Otherwise the segments are shown,
and what should have been a length is dropped with all that follows it. -/
theorem overrun_unchanged {name : String} (hname : name = emitted (spell pairs ++ (ds ++ rest)))
    (hp : ∀ p ∈ pairs, Spells p.1 p.2) (hd : ∀ c ∈ ds, c.isDigit = true) (hr : Text.Undigited rest)
    (hover : Text.byteLength rest < Nat.ofDigitChars 10 ds 0) :
    (pairs = [] ∨ Nat.ofDigitChars 10 ds 0 < Text.wordLimit →
      demangle? name = none ∧ demangle name = name ∧ SymbolName.ofRaw name = ⟨name, none, .ymir⟩) ∧
    (pairs ≠ [] → Text.wordLimit ≤ Nat.ofDigitChars 10 ds 0 →
      demangle name = String.ofList (joinSegments (pairs.map Prod.snd)) ∧
      SymbolName.ofRaw name = ⟨name, some (String.ofList (joinSegments (pairs.map Prod.snd))), .ymir⟩) := by
  subst hname
  have hdecoded := demangle?_overrun hp hd hr hover
  have hbody : spell pairs ++ (ds ++ rest) ≠ [] := by
    intro hnil
    obtain ⟨rfl, -⟩ := List.append_eq_nil_iff.1 (List.append_eq_nil_iff.1 hnil).2
    rw [Nat.ofDigitChars_nil] at hover
    omega
  rw [ofRaw_emitted hbody]
  unfold demangle
  constructor
  · intro h
    rw [if_pos h] at hdecoded
    rw [hdecoded]
    exact ⟨rfl, rfl, rfl⟩
  · intro hne hword
    rw [if_neg fun h => h.elim hne (Nat.not_lt.2 hword)] at hdecoded
    rw [hdecoded]
    exact ⟨rfl, rfl⟩

theorem spells_a : Spells ['1'] ['a'] := ⟨List.all_eq_true.1 rfl, by decide, by decide, by decide, by decide +kernel⟩

/-- Seven bytes are asked for where six follow: the length begins with zeros, as one before it does, and the text behind
it has five characters. -/
theorem overrun_unchanged_zeros : (∀ p ∈ [(['1'], ['a']), (['0', '2'], ['b', 'c'])], Spells p.1 p.2) ∧
    demangle? "_Y1a02bc007hällo" = none ∧ demangle "_Y1a02bc007hällo" = "_Y1a02bc007hällo" ∧
    SymbolName.ofRaw "_Y1a02bc007hällo" = ⟨"_Y1a02bc007hällo", none, .ymir⟩ := by
  have hbc : Spells ['0', '2'] ['b', 'c'] := ⟨List.all_eq_true.1 rfl, by decide, by decide, by decide, by decide +kernel⟩
  have hp : ∀ p ∈ [(['1'], ['a']), (['0', '2'], ['b', 'c'])], Spells p.1 p.2 := by simp [spells_a, hbc]
  have hd : ∀ c ∈ ['0', '0', '7'], c.isDigit = true := List.all_eq_true.1 rfl
  have hr : Text.Undigited ['h', 'ä', 'l', 'l', 'o'] := by decide
  have hname : "_Y1a02bc007hällo" = emitted
      (spell [(['1'], ['a']), (['0', '2'], ['b', 'c'])] ++ (['0', '0', '7'] ++ ['h', 'ä', 'l', 'l', 'o'])) := by
    decide +kernel
  exact ⟨hp, (overrun_unchanged hname hp hd hr (by decide +kernel)).1 (.inr (by decide +kernel))⟩

/-- **A length beyond the word does not make a name undecodable**: it is dropped, and the segment before it is shown. -/
theorem overrun_decoded : ∃ (pairs : List (List Char × List Char)) (ds rest : List Char),
    (∀ p ∈ pairs, Spells p.1 p.2) ∧ (∀ c ∈ ds, c.isDigit = true) ∧ Text.Undigited rest ∧
    Text.byteLength rest < Nat.ofDigitChars 10 ds 0 ∧
    demangle? (emitted (spell pairs ++ (ds ++ rest))) = some "a" ∧
    emitted (spell pairs ++ (ds ++ rest)) = "_Y1a18446744073709551616b" := by
  have hp : ∀ p ∈ [(['1'], ['a'])], Spells p.1 p.2 := by simp [spells_a]
  have hd : ∀ c ∈ "18446744073709551616".toList, c.isDigit = true := List.all_eq_true.1 (by decide +kernel)
  have hr : Text.Undigited ['b'] := by decide
  have hover : Text.byteLength ['b'] < Nat.ofDigitChars 10 "18446744073709551616".toList 0 := by decide +kernel
  refine ⟨_, _, _, hp, hd, hr, hover, ?_, by decide +kernel⟩
  rw [demangle?_overrun hp hd hr hover, if_neg (by decide +kernel)]
  rfl

end Linkage
end Introspect
