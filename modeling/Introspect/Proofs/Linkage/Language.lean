import Introspect.Linkage.SymbolName
import Introspect.Proofs.Text
/-!
# Which names are decoded

The names of other compilers are decoded by whatever takes their marks for its own.  The language of a name is told from
fewer marks, so a name that opens with one of the others (`strayMarks`) has the language of a plain name and may be shown
decoded all the same.  Every other name is shown as it is, unless the compiler or a Rust compiler has emitted it.
-/
namespace Introspect
namespace Linkage

/-- The marks of the names that a Rust compiler emits. -/
def rustMarks : List (List Char) := [['_', 'Z', 'N'], ['_', 'R']]

/-- The forms of these marks on systems that put one underscore more or less before a name. -/
def strayMarks : List (List Char) := [['Z', 'N'], ['_', '_', 'Z', 'N'], ['R'], ['_', '_', 'R']]

/-- The text opens with one of these. -/
def Opens (marks : List (List Char)) (cs : List Char) : Prop := ∃ start ∈ marks, start <+: cs

instance (marks : List (List Char)) (cs : List Char) : Decidable (Opens marks cs) :=
  inferInstanceAs (Decidable (∃ start ∈ marks, start <+: cs))

/-- What a decoder of Rust names is relied on for: it decodes no name that opens with none of the marks. -/
def NeedsMark (decode? : List Char → Option (List Char)) : Prop :=
  ∀ name shown, decode? name = some shown → Opens (rustMarks ++ strayMarks) name

variable {marks marks' : List (List Char)} {name cs : List Char}

theorem Opens.mono (h : Opens marks cs) (hm : ∀ start ∈ marks, start ∈ marks') : Opens marks' cs := by
  obtain ⟨start, hstart, hpre⟩ := h
  exact ⟨start, hm start hstart, hpre⟩

theorem Opens.trans (h : Opens marks cs) (hp : cs <+: name) : Opens marks name := by
  obtain ⟨start, hstart, hpre⟩ := h
  exact ⟨start, hstart, List.IsPrefix.trans hpre hp⟩

/-! ## The decoder of both schemes -/

theorem splitAtFirst?_eq_some {part before after : List Char} (h : splitAtFirst? part cs = some (before, after)) :
    cs = before ++ (part ++ after) := by
  induction cs generalizing before with
  | nil => cases h
  | cons c cs ih =>
    unfold splitAtFirst? at h
    split at h
    · rename_i rest hrest
      obtain ⟨rfl, rfl⟩ : [] = before ∧ rest = after := by simpa using h
      rw [List.nil_append]
      exact Text.stripStart?_eq_some_iff.1 hrest
    · obtain ⟨⟨start, rest⟩, hcut, heq⟩ := Option.map_eq_some_iff.1 h
      obtain ⟨rfl, rfl⟩ : c :: start = before ∧ rest = after := by simpa using heq
      rw [List.cons_append, ← ih hcut]

/-- What an optimiser has left on a name stands at its end. -/
theorem isPrefix_dropOptimiserMark (name : List Char) : dropOptimiserMark name <+: name := by
  unfold dropOptimiserMark
  split
  · rename_i before after hsplit
    split
    · have hname := splitAtFirst?_eq_some hsplit
      exact ⟨_, hname.symm⟩
    · exact List.prefix_rfl
  · exact List.prefix_rfl

theorem Legacy.opens_of_parse? {parsed : List (List Char) × List Char} (h : Legacy.parse? name = some parsed) :
    Opens Legacy.starts name := by
  unfold Legacy.parse? at h
  split at h
  · cases h
  · rename_i body hbody
    obtain ⟨start, hstart, hstrip⟩ := List.exists_of_findSome?_eq_some hbody
    exact ⟨start, hstart, body, (Text.stripStart?_eq_some_iff.1 hstrip).symm⟩

theorem V0.opens_of_parse? {parsed : List Char × List Char} (h : V0.parse? name = some parsed) :
    Opens [['_', 'R'], ['R'], ['_', '_', 'R']] name := by
  obtain ⟨body, hbody, -⟩ := Option.bind_eq_some_iff.1 h
  unfold V0.body? at hbody
  split at hbody
  · exact ⟨['_', 'R'], by simp, List.prefix_append _ _⟩
  · exact ⟨['R'], by simp, List.prefix_append _ _⟩
  · exact ⟨['_', '_', 'R'], by simp, List.prefix_append _ _⟩
  · cases hbody

/-- **Neither scheme reads a name without its mark.** -/
theorem needsMark_demangleForeign? : NeedsMark demangleForeign? := by
  intro name shown h
  unfold demangleForeign? at h
  dsimp only at h
  have hopens : Opens (rustMarks ++ strayMarks) (dropOptimiserMark name) := by
    cases hlegacy : Legacy.parse? (dropOptimiserMark name) with
    | some parsed => exact (Legacy.opens_of_parse? hlegacy).mono (by decide)
    | none =>
      rw [hlegacy] at h
      cases hv0 : V0.parse? (dropOptimiserMark name) with
      | some parsed => exact (V0.opens_of_parse? hv0).mono (by decide)
      | none =>
        rw [hv0] at h
        cases h
  exact hopens.trans (isPrefix_dropOptimiserMark name)

/-! ## The language of a name -/

namespace SymbolName

variable {decode? : List Char → Option (List Char)} {raw : String}

theorem foreignLanguage_stray (h : Opens strayMarks cs) (decoded : Bool) : foreignLanguage cs decoded = .c := by
  obtain ⟨start, hstart, rest, rfl⟩ := h
  simp only [strayMarks, List.mem_cons, List.not_mem_nil, or_false] at hstart
  rcases hstart with rfl | rfl | rfl | rfl <;> rfl

theorem foreignLanguage_rust (h : Opens rustMarks cs) : foreignLanguage cs true = .rust := by
  obtain ⟨start, hstart, rest, rfl⟩ := h
  simp only [rustMarks, List.mem_cons, List.not_mem_nil, or_false] at hstart
  rcases hstart with rfl | rfl <;> rfl

/-- A name that opens with a stray mark is not the compiler's. -/
theorem stripStart?_mark_stray (h : Opens strayMarks cs) : Text.stripStart? mark cs = none := by
  obtain ⟨start, hstart, rest, rfl⟩ := h
  simp only [strayMarks, List.mem_cons, List.not_mem_nil, or_false] at hstart
  rcases hstart with rfl | rfl | rfl | rfl <;> rfl

theorem ofRawBy_stray (h : Opens strayMarks raw.toList) :
    ofRawBy decode? raw = ⟨raw, (decode? raw.toList).map String.ofList, .c⟩ := by
  unfold ofRawBy
  rw [stripStart?_mark_stray h]
  dsimp only
  rw [foreignLanguage_stray h]

theorem raw_ofRawBy : (ofRawBy decode? raw).raw = raw := by
  unfold ofRawBy
  split <;> rfl

/-- **Only the compiler's names and those of a Rust compiler have a decoded form**, stray marks apart. -/
theorem language_of_decoded (hd : NeedsMark decode?) (hs : Opens strayMarks raw.toList → decode? raw.toList = none)
    {text : String} (h : (ofRawBy decode? raw).demangled = some text) :
    (ofRawBy decode? raw).language = .ymir ∨ (ofRawBy decode? raw).language = .rust := by
  unfold ofRawBy at h ⊢
  split at h
  · exact .inl rfl
  · right
    obtain ⟨shown, hshown, -⟩ := Option.map_eq_some_iff.1 h
    obtain ⟨start, hstart, hpre⟩ := hd _ _ hshown
    have hrust : Opens rustMarks raw.toList := by
      rcases List.mem_append.1 hstart with hrust | hstray
      · exact ⟨start, hrust, hpre⟩
      · rw [hs ⟨start, hstray, hpre⟩] at hshown
        cases hshown
    dsimp only
    rw [hshown]
    exact foreignLanguage_rust hrust

/-- **A name of another language is shown as it is**: it has no decoded form, and a name that has one is the compiler's
or that of a Rust compiler.  Only a name that opens with a stray mark and can be decoded is not: its language is that of
a plain name, and the decoded form is shown. -/
theorem plain_names_verbatim (hd : NeedsMark decode?) (raw : String) :
    ((Opens strayMarks raw.toList → decode? raw.toList = none) →
      ((ofRawBy decode? raw).language = .c ∨ (ofRawBy decode? raw).language = .cpp →
        (ofRawBy decode? raw).demangled = none ∧ (ofRawBy decode? raw).display = raw) ∧
      ((ofRawBy decode? raw).demangled.isSome →
        (ofRawBy decode? raw).language = .ymir ∨ (ofRawBy decode? raw).language = .rust)) ∧
    (Opens strayMarks raw.toList →
      ofRawBy decode? raw = ⟨raw, (decode? raw.toList).map String.ofList, .c⟩) := by
  constructor
  · intro hs
    constructor
    · intro hlang
      have hnone : (ofRawBy decode? raw).demangled = none := by
        cases htext : (ofRawBy decode? raw).demangled with
        | none => rfl
        | some text =>
          rcases language_of_decoded hd hs htext with hymir | hrust
          · rw [hymir] at hlang
            simp at hlang
          · rw [hrust] at hlang
            simp at hlang
      refine ⟨hnone, ?_⟩
      unfold display
      rw [hnone]
      exact raw_ofRawBy
    · intro hsome
      obtain ⟨text, htext⟩ := Option.isSome_iff_exists.1 hsome
      exact language_of_decoded hd hs htext
  · exact ofRawBy_stray

/-- A plain name that opens with a stray mark, behind which nothing can be decoded. -/
theorem plain_names_verbatim_rand : NeedsMark demangleForeign? ∧ Opens strayMarks "RAND_bytes".toList ∧
    (ofRaw "RAND_bytes").language = .c ∧ (ofRaw "RAND_bytes").demangled = none ∧
    (ofRaw "RAND_bytes").display = "RAND_bytes" := by
  have hnone : demangleForeign? "RAND_bytes".toList = none := by decide +kernel
  have hplain : (ofRaw "RAND_bytes").language = .c := by decide +kernel
  have hverbatim := (plain_names_verbatim needsMark_demangleForeign? "RAND_bytes").1 fun _ => hnone
  exact ⟨needsMark_demangleForeign?, by decide +kernel, hplain, hverbatim.1 (.inl hplain)⟩

/-- **A plain name that reads as one of a Rust compiler's without its first underscore is shown decoded**, whatever it is
that decodes it so; the decoder of both schemes does. -/
theorem plain_name_decoded : demangleForeign? "ZN1aE".toList = some ['a'] ∧
    ∀ decode? : List Char → Option (List Char), decode? "ZN1aE".toList = some ['a'] →
      (ofRawBy decode? "ZN1aE").language = .c ∧ (ofRawBy decode? "ZN1aE").demangled = some "a" ∧
        (ofRawBy decode? "ZN1aE").display ≠ "ZN1aE" := by
  refine ⟨by decide +kernel, fun decode? hdecode => ?_⟩
  rw [ofRawBy_stray (by decide), hdecode]
  exact ⟨rfl, rfl, by decide⟩

end SymbolName
end Linkage
end Introspect
