import Introspect.Proofs.Text
import Introspect.Text.Blank
/-!
# Words and the blanks between them

`Spaced` says how words can stand in a text: blanks may stand before the first, behind the last and between any two, and
where one word follows another there is at least one.  Every text is such a text for exactly one list of words, and that
is what cutting it into words gives (`words_eq_iff`).
-/
namespace Introspect
namespace Text

def Blanks (cs : List Char) : Prop := ∀ c ∈ cs, isBlank c = true

structure IsWord (w : List Char) : Prop where
  nonempty : w ≠ []
  unbroken : ∀ c ∈ w, isBlank c = false

instance (w : List Char) : Decidable (IsWord w) :=
  decidable_of_iff (w ≠ [] ∧ (w.all fun c => !isBlank c) = true)
    ⟨fun h => ⟨h.1, by simpa using h.2⟩, fun h => ⟨h.nonempty, by simpa using h.unbroken⟩⟩

/-- Words in a text, each behind a gap and with a blank or nothing at all behind it. -/
inductive Spaced : List (List Char) → List Char → Prop where
  | blank {gap : List Char} (blank : Blanks gap) : Spaced [] gap
  | word {gap w rest : List Char} {ws : List (List Char)} (blank : Blanks gap) (word : IsWord w)
    (apart : ∀ c ∈ rest.head?, isBlank c = true) (others : Spaced ws rest) : Spaced (w :: ws) (gap ++ (w ++ rest))

variable {c : Char} {cs w rest gap : List Char} {ws : List (List Char)}

theorem Spaced.behind_blank (hc : isBlank c = true) (h : Spaced ws cs) : Spaced ws (c :: cs) := by
  cases h with
  | blank gap => exact .blank (List.forall_mem_cons.2 ⟨hc, gap⟩)
  | word gap word apart others =>
    rw [← List.cons_append]
    exact .word (List.forall_mem_cons.2 ⟨hc, gap⟩) word apart others

theorem Spaced.isWord (h : Spaced ws cs) : ∀ w ∈ ws, IsWord w := by
  induction h with
  | blank _ => exact fun w hw => (List.not_mem_nil hw).elim
  | word _ word _ _ ih => exact List.forall_mem_cons.2 ⟨word, ih⟩

/-- Blanks behind the last word change nothing. -/
theorem Spaced.before_blanks (h : Spaced ws cs) (hgap : Blanks gap) : Spaced ws (cs ++ gap) := by
  induction h with
  | blank before => exact .blank (List.forall_mem_append.2 ⟨before, hgap⟩)
  | @word before w rest ws blank word apart _ ih =>
    rw [List.append_assoc, List.append_assoc]
    refine .word blank word ?_ ih
    cases rest with
    | nil => exact fun c hc => hgap c (List.mem_of_mem_head? hc)
    | cons d rest => exact apart

/-! ## Cutting -/

theorem words_of_blank (hc : isBlank c = true) (cs : List Char) : words (c :: cs) = words cs := by
  rw [words.eq_def]
  exact if_pos hc

theorem words_gap (hgap : Blanks gap) (cs : List Char) : words (gap ++ cs) = words cs := by
  induction gap with
  | nil => rfl
  | cons c gap ih =>
    obtain ⟨hc, hgap⟩ := List.forall_mem_cons.1 hgap
    rw [List.cons_append, words_of_blank hc, ih hgap]

/-- **A word is cut off where a blank or nothing follows it.** -/
theorem words_append (hw : IsWord w) (hrest : ∀ c ∈ rest.head?, isBlank c = true) :
    words (w ++ rest) = w :: words rest := by
  obtain ⟨hne, hunbroken⟩ := hw
  induction w with
  | nil => exact absurd rfl hne
  | cons c w ih =>
    obtain ⟨hc, hunbroken⟩ := List.forall_mem_cons.1 hunbroken
    rw [List.cons_append, words.eq_def]
    simp only [hc, Bool.false_eq_true, if_false]
    cases w with
    | nil =>
      cases rest with
      | nil => rfl
      | cons d rest => exact if_pos (hrest d rfl)
    | cons d w =>
      have hd : ¬ isBlank d = true := by rw [hunbroken d List.mem_cons_self]; decide
      have hword := ih (List.cons_ne_nil d w) hunbroken
      rw [List.cons_append] at hword ⊢
      simp only [if_neg hd, hword]

theorem Spaced.words_eq (h : Spaced ws cs) : words cs = ws := by
  induction h with
  | @blank gap hgap =>
    have hwords := words_gap hgap []
    rwa [List.append_nil] at hwords
  | word gap word apart _ ih => rw [words_gap gap, words_append word apart, ih]

/-! ## Every text -/

theorem blanks_nil : Blanks [] := fun _ h => (List.not_mem_nil h).elim

/-- A character in front makes a word of its own, or the first word longer. -/
theorem Spaced.behind_character (hc : isBlank c = false) (h : Spaced ws cs) : ∃ ws', Spaced ws' (c :: cs) := by
  by_cases hapart : ∀ d ∈ cs.head?, isBlank d = true
  · exact ⟨[c] :: ws, .word blanks_nil ⟨List.cons_ne_nil c [], List.forall_mem_singleton.2 hc⟩ hapart h⟩
  cases h with
  | blank gap => exact absurd (fun d hd => gap d (List.mem_of_mem_head? hd)) hapart
  | @word gap w rest ws blank word apart others =>
    cases gap with
    | nil =>
      refine ⟨(c :: w) :: ws, .word blanks_nil ⟨List.cons_ne_nil c w, ?_⟩ apart others⟩
      exact List.forall_mem_cons.2 ⟨hc, word.unbroken⟩
    | cons d gap => exact absurd (fun e he => Option.some.inj he ▸ blank d List.mem_cons_self) hapart

theorem exists_spaced (cs : List Char) : ∃ ws, Spaced ws cs := by
  induction cs with
  | nil => exact ⟨[], .blank blanks_nil⟩
  | cons c cs ih =>
    obtain ⟨ws, h⟩ := ih
    cases hc : isBlank c with
    | true => exact ⟨ws, h.behind_blank hc⟩
    | false => exact h.behind_character hc

/-- **The words of a text are those that are spaced in it.** -/
theorem words_eq_iff : words cs = ws ↔ Spaced ws cs := by
  refine ⟨?_, Spaced.words_eq⟩
  rintro rfl
  obtain ⟨ws, h⟩ := exists_spaced cs
  rwa [h.words_eq]

/-- Words can stand with single spaces between them. -/
theorem spaced_joinWith (hws : ∀ w ∈ ws, IsWord w) : Spaced ws (joinWith [' '] ws) := by
  induction ws with
  | nil => exact .blank blanks_nil
  | cons w ws ih =>
    obtain ⟨hw, hws⟩ := List.forall_mem_cons.1 hws
    cases ws with
    | nil =>
      have hone : Spaced [w] ([] ++ (w ++ [])) := .word blanks_nil hw (fun c hc => by cases hc) (.blank blanks_nil)
      rwa [List.nil_append, List.append_nil] at hone
    | cons next ws =>
      have hspace : isBlank ' ' = true := by decide
      rw [joinWith_cons (List.cons_ne_nil next ws), List.append_assoc]
      exact .word blanks_nil hw (fun c hc => Option.some.inj hc ▸ hspace) ((ih hws).behind_blank hspace)

end Text
end Introspect
