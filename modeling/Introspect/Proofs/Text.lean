import Introspect.Text.Cut
import Introspect.Text.Digits
import Introspect.Text.Utf8
/-!
# Reading back what was written

A run of digits reads as the number it denotes, as long as that fits a word; and a text that is cut after as many bytes
as one of its beginnings has is cut there.
-/
namespace Introspect
namespace Text

/-! ## Digits -/

theorem digitValue?_of_isDigit {c : Char} (h : c.isDigit = true) : digitValue? 10 c = some (c.toNat - '0'.toNat) := by
  obtain ⟨hlow, hhigh⟩ := Char.isDigit_iff_toNat.1 h
  have hrange : '0' ≤ c ∧ c ≤ '9' := ⟨hlow, hhigh⟩
  unfold digitValue?
  rw [if_pos hrange, Option.filter_some, if_pos]
  have hzero : '0'.toNat = 48 := rfl
  have hnine : '9'.toNat = 57 := rfl
  rw [decide_eq_true_eq]
  omega

theorem digitsValue?_of_isDigit : ∀ (cs : List Char) (acc : Nat), (∀ c ∈ cs, c.isDigit = true) →
    digitsValue? 10 acc cs = some (Nat.ofDigitChars 10 cs acc)
  | [], acc, _ => by rw [digitsValue?, Nat.ofDigitChars_nil]
  | c :: cs, acc, h => by
    rw [digitsValue?, digitValue?_of_isDigit (h c List.mem_cons_self), Option.bind_some, Nat.ofDigitChars_cons,
      Nat.mul_comm 10 acc]
    exact digitsValue?_of_isDigit cs _ fun d hd => h d (List.mem_cons_of_mem c hd)

theorem isDigit_of_mem_toDigits {n : Nat} : ∀ c ∈ Nat.toDigits 10 n, c.isDigit = true := fun _ hc =>
  Nat.isDigit_of_mem_toDigits (by decide) (by decide) hc

/-- **A run of digits reads as the number it denotes**, if that fits a word. -/
theorem readDigits?_of_isDigit {ds : List Char} (hne : ds ≠ []) (hd : ∀ c ∈ ds, c.isDigit = true) :
    readDigits? 10 ds = if Nat.ofDigitChars 10 ds 0 < wordLimit then some (Nat.ofDigitChars 10 ds 0) else none := by
  unfold readDigits?
  rw [if_neg (by simpa using hne), digitsValue?_of_isDigit ds 0 hd, Option.filter_some]
  simp only [decide_eq_true_eq]

/-- The text does not go on with a digit. -/
def Undigited (cs : List Char) : Prop := ∀ c ∈ cs.head?, c.isDigit = false

instance (cs : List Char) : Decidable (Undigited cs) :=
  match cs with
  | [] => isTrue fun _ h => by cases h
  | c :: _ => decidable_of_iff (c.isDigit = false) (by simp [Undigited])

theorem Undigited.append {cs : List Char} (h : Undigited cs) (hne : cs ≠ []) (ds : List Char) :
    Undigited (cs ++ ds) := by
  cases cs with
  | nil => exact absurd rfl hne
  | cons c cs => exact h

/-- **A run of digits ends where a text follows that does not go on with one.** -/
theorem span_digits {ds cs : List Char} (hd : ∀ c ∈ ds, c.isDigit = true) (hc : Undigited cs) :
    (ds ++ cs).takeWhile Char.isDigit = ds ∧ (ds ++ cs).dropWhile Char.isDigit = cs := by
  induction ds with
  | nil =>
    cases cs with
    | nil => exact ⟨rfl, rfl⟩
    | cons c cs =>
      have hno : ¬ c.isDigit = true := by rw [hc c rfl]; decide
      exact ⟨List.takeWhile_cons_of_neg hno, List.dropWhile_cons_of_neg hno⟩
  | cons d ds ih =>
    obtain ⟨htake, hdrop⟩ := ih fun c hc => hd c (List.mem_cons_of_mem d hc)
    have hyes := hd d List.mem_cons_self
    rw [List.cons_append, List.takeWhile_cons_of_pos hyes, List.dropWhile_cons_of_pos hyes, htake, hdrop]
    exact ⟨rfl, rfl⟩

/-! ## Cuts -/

theorem byteLength_cons (c : Char) (cs : List Char) : byteLength (c :: cs) = c.utf8Size + byteLength cs := rfl

theorem byteLength_append (a b : List Char) : byteLength (a ++ b) = byteLength a + byteLength b := by
  induction a with
  | nil => exact (Nat.zero_add _).symm
  | cons c a ih => rw [List.cons_append, byteLength_cons, byteLength_cons, ih, Nat.add_assoc]

theorem length_le_byteLength (cs : List Char) : cs.length ≤ byteLength cs := by
  induction cs with
  | nil => exact Nat.le_refl 0
  | cons c cs ih =>
    have hc := c.utf8Size_pos
    rw [byteLength_cons, List.length_cons]
    omega

theorem byteLength_pos {cs : List Char} (h : cs ≠ []) : 0 < byteLength cs := by
  exact Nat.lt_of_lt_of_le (List.length_pos_iff.2 h) (length_le_byteLength cs)

/-- **A cut after the bytes of a beginning gives that beginning.** -/
theorem takeBytes?_append (taken rest : List Char) : takeBytes? (byteLength taken) (taken ++ rest) = some (taken, rest) := by
  induction taken with
  | nil =>
    rw [List.nil_append, show byteLength [] = 0 from rfl]
    unfold takeBytes?
    rfl
  | cons c taken ih =>
    have hc := c.utf8Size_pos
    obtain ⟨n, hn⟩ : ∃ n, byteLength (c :: taken) = n + 1 := ⟨byteLength (c :: taken) - 1, by rw [byteLength_cons]; omega⟩
    have hrest : n + 1 - c.utf8Size = byteLength taken := by rw [← hn, byteLength_cons]; omega
    rw [hn, List.cons_append, takeBytes?, if_pos (by rw [← hn, byteLength_cons]; omega), hrest, ih]
    rfl

/-- A cut behind the end of the text is refused. -/
theorem takeBytes?_eq_none {n : Nat} {cs : List Char} (h : byteLength cs < n) : takeBytes? n cs = none := by
  cases ht : takeBytes? n cs with
  | none => rfl
  | some cut =>
    obtain ⟨taken, rest⟩ := cut
    obtain ⟨rfl, hn⟩ := takeBytes?_eq_some_append ht
    rw [byteLength_append] at h
    omega

theorem stripStart?_append (start rest : List Char) : stripStart? start (start ++ rest) = some rest := by
  induction start with
  | nil => rfl
  | cons c start ih => rw [List.cons_append, stripStart?, if_pos rfl, ih]

theorem stripStart?_eq_some_iff {start cs rest : List Char} : stripStart? start cs = some rest ↔ cs = start ++ rest := by
  constructor
  · intro h
    fun_induction stripStart? start cs with
    | case1 cs => exact Option.some.inj h
    | case2 => cases h
    | case3 start c cs ih => rw [ih h, List.cons_append]
    | case4 => cases h
  · rintro rfl
    exact stripStart?_append start rest

theorem isSome_stripStart?_iff {start cs : List Char} : (stripStart? start cs).isSome ↔ start <+: cs := by
  rw [Option.isSome_iff_exists]
  constructor
  · rintro ⟨rest, h⟩
    exact ⟨rest, (stripStart?_eq_some_iff.1 h).symm⟩
  · rintro ⟨rest, rfl⟩
    exact ⟨rest, stripStart?_append start rest⟩

theorem splitOnce?_append {x : Char} {before : List Char} (hx : x ∉ before) (after : List Char) :
    splitOnce? x (before ++ x :: after) = some (before, after) := by
  induction before with
  | nil => exact if_pos rfl
  | cons c before ih =>
    have hc : c ≠ x := fun h => hx (h ▸ List.mem_cons_self)
    rw [List.cons_append, splitOnce?, if_neg hc, ih fun h => hx (List.mem_cons_of_mem c h)]
    rfl

/-- **A text is cut in two at the first separator.** -/
theorem splitOnce?_eq_some_iff {x : Char} {cs before after : List Char} :
    splitOnce? x cs = some (before, after) ↔ cs = before ++ x :: after ∧ x ∉ before := by
  constructor
  · intro h
    induction cs generalizing before with
    | nil => cases h
    | cons c cs ih =>
      rw [splitOnce?] at h
      split at h
      · rename_i hc
        cases h
        exact ⟨by rw [hc]; rfl, List.not_mem_nil⟩
      · rename_i hc
        obtain ⟨⟨rest, after⟩, hcut, heq⟩ := Option.map_eq_some_iff.1 h
        cases heq
        obtain ⟨rfl, hx⟩ := ih hcut
        exact ⟨rfl, List.not_mem_cons_of_ne_of_not_mem (Ne.symm hc) hx⟩
  · rintro ⟨rfl, hx⟩
    exact splitOnce?_append hx after

theorem byteLength_splitOn2 (x y : Char) (cs : List Char) :
    ∀ piece ∈ splitOn2 x y cs, byteLength piece ≤ byteLength cs := by
  fun_induction splitOn2 x y cs with
  | case1 => simp
  | case2 c => simp
  | case3 c d cs hsep ih =>
    intro piece hp
    rw [byteLength_cons, byteLength_cons]
    rcases List.mem_cons.1 hp with rfl | hp
    · exact Nat.zero_le _
    · have := ih piece hp
      omega
  | case4 c d cs hne hnil ih =>
    intro piece hp
    rw [List.mem_singleton.1 hp, byteLength_cons, byteLength_cons]
    exact Nat.add_le_add_left (Nat.zero_le _) _
  | case5 c d cs hne first rest hcons ih =>
    rw [hcons] at ih
    intro piece hp
    rw [byteLength_cons]
    rcases List.mem_cons.1 hp with rfl | hp
    · rw [byteLength_cons]
      exact Nat.add_le_add_left (ih first List.mem_cons_self) _
    · have := ih piece (List.mem_cons_of_mem first hp)
      omega

theorem joinWith_cons {sep piece : List Char} {rest : List (List Char)} (h : rest ≠ []) :
    joinWith sep (piece :: rest) = piece ++ sep ++ joinWith sep rest := by
  cases rest with
  | nil => exact absurd rfl h
  | cons next rest => rfl

theorem joinWith_append {sep : List Char} {as bs : List (List Char)} (ha : as ≠ []) (hb : bs ≠ []) :
    joinWith sep (as ++ bs) = joinWith sep as ++ sep ++ joinWith sep bs := by
  induction as with
  | nil => exact absurd rfl ha
  | cons a as ih =>
    by_cases has : as = []
    · rw [has, List.cons_append, List.nil_append, joinWith_cons hb]
      rfl
    · rw [List.cons_append, joinWith_cons (List.append_ne_nil_of_left_ne_nil has bs), ih has, joinWith_cons has]
      simp only [List.append_assoc]

/-! ## Bytes -/

theorem toUtf8_eq (text : String) : toUtf8 text = text.toList.flatMap String.utf8EncodeChar := by
  unfold toUtf8
  rw [String.toUTF8_eq_toByteArray, ← String.utf8Encode_toList]
  unfold List.utf8Encode
  rw [List.data_toByteArray, List.toList_toArray]

/-- **Text is read back from its bytes.** -/
theorem ofUtf8?_toUtf8 (text : String) : ofUtf8? (toUtf8 text) = some text := by
  unfold ofUtf8? toUtf8 String.fromUTF8?
  rw [Array.toArray_toList]
  exact dif_pos text.isValidUTF8

/-- **A byte below 128 is a character of its own**, and never a part of another one. -/
theorem toNat_of_mem_utf8EncodeChar {c : Char} {b : UInt8} (h : b ∈ String.utf8EncodeChar c) (hb : b.toNat < 128) :
    c.toNat = b.toNat := by
  have hhigh : ∀ x y : UInt8, 128 ≤ y.toNat → b ≠ x ||| y := by
    rintro x y hy rfl
    rw [UInt8.toNat_or] at hb
    exact absurd (Nat.lt_of_le_of_lt (Nat.le_trans hy Nat.right_le_or) hb) (Nat.lt_irrefl _)
  rcases c.utf8Size_eq with hc | hc | hc | hc
  · rw [String.utf8EncodeChar_eq_singleton hc, List.mem_singleton] at h
    have hsmall : c.toNat ≤ 127 := by simpa [Char.utf8Size_eq_one_iff, UInt32.le_iff_toNat_le] using hc
    rw [h, UInt32.toNat_toUInt8]
    exact (Nat.mod_eq_of_lt (Nat.lt_of_le_of_lt hsmall (by decide))).symm
  -- every byte of a longer form has its highest bit set
  · rw [String.utf8EncodeChar_eq_cons_cons hc] at h
    simp [hhigh] at h
  · rw [String.utf8EncodeChar_eq_cons_cons_cons hc] at h
    simp [hhigh] at h
  · rw [String.utf8EncodeChar_eq_cons_cons_cons_cons hc] at h
    simp [hhigh] at h

theorem eq_of_mem_utf8EncodeChar {own c : Char} {b : UInt8} (hown : String.utf8EncodeChar own = [b]) (hb : b.toNat < 128)
    (h : b ∈ String.utf8EncodeChar c) : c = own := by
  have hself : b ∈ String.utf8EncodeChar own := by rw [hown]; exact List.mem_cons_self
  exact Char.toNat_inj.1 ((toNat_of_mem_utf8EncodeChar h hb).trans (toNat_of_mem_utf8EncodeChar hself hb).symm)

/-- A byte that is a character of its own stands only where that character does. -/
theorem not_mem_toUtf8 {own : Char} {b : UInt8} (hown : String.utf8EncodeChar own = [b]) (hb : b.toNat < 128)
    {text : String} (h : own ∉ text.toList) : b ∉ toUtf8 text := by
  rw [toUtf8_eq, List.mem_flatMap]
  rintro ⟨c, hc, hbyte⟩
  exact h (eq_of_mem_utf8EncodeChar hown hb hbyte ▸ hc)

theorem zero_not_mem_toUtf8 {text : String} (h : '\x00' ∉ text.toList) : 0 ∉ toUtf8 text :=
  not_mem_toUtf8 (by decide +kernel) (by decide) h

theorem toUtf8_append (a b : String) : toUtf8 (a ++ b) = toUtf8 a ++ toUtf8 b := by
  rw [toUtf8_eq, toUtf8_eq, toUtf8_eq, String.toList_append, List.flatMap_append]

/-- **Bytes are read as the text that is written in them.** -/
theorem ofUtf8?_eq_some_iff {bytes : List UInt8} {text : String} :
    ofUtf8? bytes = some text ↔ bytes = toUtf8 text := by
  constructor
  · intro h
    unfold ofUtf8? String.fromUTF8? at h
    split at h
    · rw [← Option.some.inj h]
      exact List.toList_toArray.symm
    · cases h
  · rintro rfl
    exact ofUtf8?_toUtf8 text

/-- Bytes that characters are written in. -/
def Valid (bytes : List UInt8) : Prop := ∃ cs : List Char, bytes = cs.flatMap String.utf8EncodeChar

theorem isSome_ofUtf8?_iff {bytes : List UInt8} : (ofUtf8? bytes).isSome = true ↔ Valid bytes := by
  rw [Option.isSome_iff_exists]
  constructor
  · rintro ⟨text, htext⟩
    exact ⟨text.toList, (ofUtf8?_eq_some_iff.1 htext).trans (toUtf8_eq text)⟩
  · rintro ⟨cs, rfl⟩
    exact ⟨String.ofList cs, ofUtf8?_eq_some_iff.2 (by rw [toUtf8_eq, String.toList_ofList])⟩

/-! ## Lines -/

section

variable {α : Type} [DecidableEq α] {x : α}

theorem splitOn1_ne_nil (x : α) (l : List α) : splitOn1 x l ≠ [] := by
  fun_cases splitOn1 x l <;> simp_all

/-- What does not hold the separator stays at the head of the first piece. -/
theorem splitOn1_append {first piece l : List α} {rest : List (List α)} (hx : x ∉ first)
    (h : splitOn1 x l = piece :: rest) : splitOn1 x (first ++ l) = (first ++ piece) :: rest := by
  induction first with
  | nil => exact h
  | cons c first ih =>
    have hc : c ≠ x := fun h => hx (h ▸ List.mem_cons_self)
    rw [List.cons_append, splitOn1, if_neg hc, ih fun h => hx (List.mem_cons_of_mem c h)]
    rfl

/-- **Each side of a separator has its own pieces.** -/
theorem splitOn1_append_cons (x : α) (a b : List α) : splitOn1 x (a ++ x :: b) = splitOn1 x a ++ splitOn1 x b := by
  induction a with
  | nil => exact if_pos rfl
  | cons c a ih =>
    rw [List.cons_append, splitOn1, splitOn1, ih]
    split
    · rfl
    · obtain ⟨piece, rest, h⟩ := List.exists_cons_of_ne_nil (splitOn1_ne_nil x a)
      rw [h]
      rfl

/-- What does not hold the separator comes to the end of the last piece. -/
theorem exists_splitOn1_append {c : List α} (hx : x ∉ c) (l : List α) :
    ∃ front last, splitOn1 x l = front ++ [last] ∧ splitOn1 x (l ++ c) = front ++ [last ++ c] := by
  induction l with
  | nil =>
    have hc : splitOn1 x (c ++ []) = [c ++ []] := splitOn1_append hx rfl
    rw [List.append_nil] at hc
    exact ⟨[], [], rfl, hc⟩
  | cons y l ih =>
    obtain ⟨front, last, hl, hlc⟩ := ih
    by_cases hy : y = x
    · refine ⟨[] :: front, last, ?_, ?_⟩
      · rw [splitOn1, if_pos hy, hl, List.cons_append]
      · rw [List.cons_append, splitOn1, if_pos hy, hlc, List.cons_append]
    · rw [List.cons_append, splitOn1, splitOn1, if_neg hy, if_neg hy, hl, hlc]
      cases front with
      | nil => exact ⟨[], y :: last, rfl, rfl⟩
      | cons piece front => exact ⟨(y :: piece) :: front, last, rfl, rfl⟩

/-- **The pieces between the separators make up the whole.** -/
theorem intercalate_splitOn1 (x : α) (l : List α) : [x].intercalate (splitOn1 x l) = l := by
  fun_induction splitOn1 x l with
  | case1 => rfl
  | case2 l ih =>
    obtain ⟨piece, rest, h⟩ := List.exists_cons_of_ne_nil (splitOn1_ne_nil x l)
    rw [h] at ih ⊢
    rw [List.intercalate_cons_cons, ih]
    rfl
  | case3 c l _ h => exact absurd h (splitOn1_ne_nil x l)
  | case4 c l _ piece rest h ih =>
    rw [h] at ih
    cases rest with
    | nil => rw [← ih]; rfl
    | cons next rest => rw [← ih, List.intercalate_cons_cons, List.intercalate_cons_cons]; rfl

end

theorem Valid.append {a b : List UInt8} (ha : Valid a) (hb : Valid b) : Valid (a ++ b) := by
  obtain ⟨cs, rfl⟩ := ha
  obtain ⟨ds, rfl⟩ := hb
  exact ⟨cs ++ ds, (List.flatMap_append ..).symm⟩

/-- **Text is cut into text** where it is cut at a character of one byte. -/
theorem valid_splitOn1 {sep : Char} {b : UInt8} (hown : String.utf8EncodeChar sep = [b]) (hb : b.toNat < 128)
    {bytes : List UInt8} : (∀ piece ∈ splitOn1 b bytes, Valid piece) ↔ Valid bytes := by
  constructor
  · intro h
    rw [← intercalate_splitOn1 b bytes]
    generalize splitOn1 b bytes = pieces at h
    induction pieces with
    | nil => exact ⟨[], rfl⟩
    | cons piece rest ih =>
      have hpiece := h piece List.mem_cons_self
      have hrest := ih fun p hp => h p (List.mem_cons_of_mem piece hp)
      cases rest with
      | nil =>
        rw [List.intercalate_singleton]
        exact hpiece
      | cons next rest =>
        rw [List.intercalate_cons_cons]
        exact (hpiece.append ⟨[sep], by rw [List.flatMap_singleton, hown]⟩).append hrest
  · rintro ⟨cs, rfl⟩
    induction cs with
    | nil => exact fun piece hp => ⟨[], List.mem_singleton.1 hp⟩
    | cons c cs ih =>
      rw [List.flatMap_cons]
      by_cases hc : b ∈ String.utf8EncodeChar c
      · intro piece hp
        rw [eq_of_mem_utf8EncodeChar hown hb hc, hown, List.singleton_append, splitOn1, if_pos rfl] at hp
        rcases List.mem_cons.1 hp with rfl | hp
        · exact ⟨[], rfl⟩
        · exact ih piece hp
      · -- the bytes of the character stay together, in the first piece
        obtain ⟨first, rest, h⟩ := List.exists_cons_of_ne_nil (splitOn1_ne_nil b (cs.flatMap String.utf8EncodeChar))
        rw [splitOn1_append hc h]
        rw [h] at ih
        intro piece hp
        rcases List.mem_cons.1 hp with rfl | hp
        · exact Valid.append ⟨[c], (List.flatMap_singleton ..).symm⟩ (ih first List.mem_cons_self)
        · exact ih piece (List.mem_cons_of_mem first hp)

/-- **A character of one byte stands between texts.** -/
theorem valid_append_cons {sep : Char} {b : UInt8} (hown : String.utf8EncodeChar sep = [b]) (hb : b.toNat < 128)
    {left right : List UInt8} : Valid (left ++ b :: right) ↔ Valid left ∧ Valid right := by
  rw [← valid_splitOn1 hown hb, ← valid_splitOn1 hown hb, ← valid_splitOn1 hown hb, splitOn1_append_cons,
    List.forall_mem_append]

end Text
end Introspect
