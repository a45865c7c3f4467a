import Introspect.Image.Symbols
import Introspect.Proofs.Image.Bytes
import Mathlib.Data.List.Basic
import Mathlib.Data.List.Flatten
/-!
# A file that was cut short

What is found in a file is found in every longer file that begins with it (`Lasting`).  This holds of the numbers and
the texts, and it holds of whatever is put together from them: the header, a section, an entry, the name of a symbol.  A
walk that stops at the end of the beginning goes on in the longer file, and what it found before stays.  So cutting a
file short hides symbols, and does nothing else to them (`truncation_hides`).
-/
namespace Introspect
namespace Image

/-- What is found in a file is found in every longer one. -/
def Lasting {α : Type} (find : Bytes → Option α) : Prop :=
  ∀ bytes more a, find bytes = some a → find (bytes ++ more) = some a

namespace Lasting

variable {α β : Type}

/-! ## Each way to look for something -/

theorem number? (width start : Nat) : Lasting (Bytes.number? · width start) := by
  intro bytes more n h
  obtain ⟨chunk, hchunk, hrest⟩ := Bytes.number?_eq_some_iff.1 h
  exact Bytes.number?_eq_some_iff.2 ⟨chunk, hchunk.append more, hrest⟩

theorem terminated? (start : Nat) : Lasting (Bytes.terminated? · start) := by
  intro bytes more text h
  obtain ⟨hzero, hhold⟩ := Bytes.terminated?_eq_some_iff.1 h
  exact Bytes.terminated?_eq_some_iff.2 ⟨hzero, hhold.append more⟩

theorem const (a : Option α) : Lasting fun _ => a := by
  intro bytes more b h
  exact h

theorem bind {find : Bytes → Option α} {next : α → Bytes → Option β} (hf : Lasting find) (hn : ∀ a, Lasting (next a)) :
    Lasting fun bytes => find bytes >>= fun a => next a bytes := by
  intro bytes more b h
  obtain ⟨a, ha, hb⟩ := Option.bind_eq_some_iff.1 h
  exact Option.bind_eq_some_iff.2 ⟨a, hf bytes more a ha, hn a bytes more b hb⟩

theorem ite {find : Bytes → Option α} {ok : Bytes → Bool} (hf : Lasting find)
    (hok : ∀ bytes more, ok bytes = true → ok (bytes ++ more) = true) :
    Lasting fun bytes => if ok bytes = true then find bytes else none := by
  intro bytes more a h
  dsimp only at h ⊢
  by_cases ho : ok bytes = true
  · rw [if_pos ho] at h
    rw [if_pos (hok bytes more ho)]
    exact hf bytes more a h
  · rw [if_neg ho] at h
    cases h

/-! ## What is looked for in an image -/

theorem header? : Lasting Image.header? := by
  unfold Image.header?
  refine ite ?_ fun bytes more hi => ?_
  · refine bind (number? 2 16) fun fileType => ?_
    refine bind (number? 8 24) fun entry => ?_
    refine bind (number? 8 40) fun sectionOffset => ?_
    refine bind (number? 2 58) fun sectionEntrySize => ?_
    refine bind (number? 2 60) fun sectionCount => ?_
    exact const _
  · obtain ⟨hsize, hmagic⟩ := isImage_iff.1 hi
    exact isImage_iff.2 ⟨by rw [Array.size_append]; omega, hmagic.append more⟩

theorem readSection? (index start : Nat) : Lasting (Image.readSection? · index start) := by
  unfold Image.readSection?
  refine bind (number? 4 _) fun kind => ?_
  refine bind (number? 8 _) fun flags => ?_
  refine bind (number? 8 _) fun offset => ?_
  refine bind (number? 8 _) fun size => ?_
  refine bind (number? 4 _) fun link => ?_
  refine bind (number? 4 _) fun info => ?_
  exact const _

theorem section? (index : Nat) : Lasting (Image.section? · index) := by
  unfold Image.section?
  refine bind header? fun h => ?_
  by_cases hi : index < h.sectionCount
  · simp only [if_pos hi]
    exact readSection? index _
  · simp only [if_neg hi]
    exact const none

theorem readEntry? (start : Nat) : Lasting (Image.readEntry? · start) := by
  unfold Image.readEntry?
  refine bind (number? 4 _) fun nameOffset => ?_
  refine bind (number? 1 _) fun info => ?_
  refine bind (number? 8 _) fun value => ?_
  refine bind (number? 8 _) fun size => ?_
  exact const _

theorem namesOf? (s : Section) : Lasting (Image.namesOf? · s) := by
  unfold Image.namesOf?
  by_cases ht : s.isSymbolTable = true
  · simp only [if_pos ht, Option.map_eq_bind]
    exact bind (section? s.link) fun names => const _
  · simp only [if_neg ht]
    exact const none

theorem nameOf? (e : Entry) (names : Nat) : Lasting (Image.nameOf? · e names) := by
  unfold Image.nameOf?
  exact bind (terminated? _) fun text => const _

theorem symbolOf? (bias : Address) (e : Entry) (names : Nat) : Lasting (Image.symbolOf? · bias e names) := by
  unfold Image.symbolOf?
  exact bind (nameOf? e names) fun name => const _

end Lasting

/-! ## Walks -/

theorem sectionsFrom_append (bytes more : Bytes) (h : Header) (n index : Nat) :
    sectionsFrom bytes h n index <+: sectionsFrom (bytes ++ more) h n index := by
  induction n generalizing index with
  | zero => exact List.prefix_refl _
  | succ n ih =>
    unfold sectionsFrom
    cases hs : readSection? bytes index (h.sectionStart index) with
    | none => exact List.nil_prefix
    | some s =>
      have hmore : readSection? (bytes ++ more) index (h.sectionStart index) = some s :=
        Lasting.readSection? index _ bytes more s hs
      rw [hmore]
      exact (List.prefix_cons_inj s).2 (ih (index + 1))

/-- **The sections of the beginning come first** among those of the longer file. -/
theorem sections_append (bytes more : Bytes) : sections bytes <+: sections (bytes ++ more) := by
  unfold sections
  cases hh : header? bytes with
  | none => exact List.nil_prefix
  | some h =>
    rw [Lasting.header? bytes more h hh]
    exact sectionsFrom_append bytes more h h.sectionCount 0

theorem entriesFrom_append (bytes more : Bytes) (n start : Nat) :
    entriesFrom bytes n start <+: entriesFrom (bytes ++ more) n start := by
  induction n generalizing start with
  | zero => exact List.prefix_refl _
  | succ n ih =>
    unfold entriesFrom
    cases he : readEntry? bytes start with
    | none => exact List.nil_prefix
    | some e =>
      have hmore : readEntry? (bytes ++ more) start = some e := Lasting.readEntry? start bytes more e he
      rw [hmore]
      exact (List.prefix_cons_inj e).2 (ih (start + entrySize))

theorem symbolsOf_append (bytes more : Bytes) (s : Section) : symbolsOf bytes s <+: symbolsOf (bytes ++ more) s := by
  unfold symbolsOf
  cases hn : namesOf? bytes s with
  | none => exact List.nil_prefix
  | some names =>
    have hmore : namesOf? (bytes ++ more) s = some names := Lasting.namesOf? s bytes more names hn
    rw [hmore]
    exact (entriesFrom_append bytes more _ _).map _

/-- What a list yields when more is found for its elements. -/
theorem filterMap_sublist {α β : Type} {f g : α → Option β} (h : ∀ a b, f a = some b → g a = some b) (as : List α) :
    (as.filterMap f).Sublist (as.filterMap g) := by
  rw [List.filterMap_eq_flatMap_toList, List.filterMap_eq_flatMap_toList]
  refine List.Sublist.flatMap_right as fun a _ => ?_
  cases hf : f a with
  | none => exact List.nil_sublist _
  | some b => rw [h a b hf]

/-- **Cutting a file short hides symbols and does nothing else.**  The sections of the beginning are the first sections
of the longer file; its symbols are symbols of the longer file, each with all its data, and in the same order. -/
theorem truncation_hides (bytes more : Bytes) (bias : Address) :
    sections bytes <+: sections (bytes ++ more) ∧ (symbols bytes bias).Sublist (symbols (bytes ++ more) bias) := by
  have hsections := sections_append bytes more
  refine ⟨hsections, ?_⟩
  unfold symbols
  refine ((hsections.sublist.filter _).flatMap _).trans (List.Sublist.flatMap_right _ fun s _ => ?_)
  -- of one table: its entries come first, and each that had a symbol has the same one
  refine ((symbolsOf_append bytes more s).sublist.filterMap _).trans (filterMap_sublist (fun entry symbol h => ?_) _)
  exact Lasting.symbolOf? bias entry.1 entry.2 bytes more symbol h

end Image
end Introspect
