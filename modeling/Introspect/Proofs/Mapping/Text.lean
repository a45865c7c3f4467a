import Introspect.Mapping.Description
import Introspect.Proofs.Text
/-!
# A memory map is text or it is not

The lines of a memory map are read one by one, and the first that is no text ends the reading.  A newline is a byte of
its own, so the lines are text exactly if the whole is: a memory map is refused for its bytes exactly if they are not
valid UTF-8, whatever the lines say.
-/
namespace Introspect
namespace Mapping

theorem isSome_mapM_iff {α β : Type} {f : α → Option β} : ∀ {xs : List α},
    (xs.mapM f).isSome = true ↔ ∀ x ∈ xs, (f x).isSome = true
  | [] => by simp
  | x :: xs => by
    rw [List.mapM_cons, List.forall_mem_cons, ← @isSome_mapM_iff _ _ _ xs]
    cases f x with
    | none => simp
    | some y => cases xs.mapM f <;> simp

/-- The piece that is left out behind the last newline is empty. -/
theorem forall_mem_lines {bytes : List UInt8} {P : List UInt8 → Prop} (hnil : P []) :
    (∀ line ∈ lines bytes, P line) ↔ ∀ piece ∈ Text.splitOn1 newline bytes, P piece := by
  unfold lines
  dsimp only
  split
  · rename_i hlast
    obtain ⟨pieces, h⟩ := List.getLast?_eq_some_iff.1 hlast
    rw [h, List.dropLast_concat]
    refine ⟨fun hall piece hp => ?_, fun hall line hl => hall line (List.mem_append_left _ hl)⟩
    rcases List.mem_append.1 hp with hp | hp
    · exact hall piece hp
    · exact List.mem_singleton.1 hp ▸ hnil
  · exact Iff.rfl

/-- **A memory map is read exactly if its bytes are text.** -/
theorem isSome_ofBytes?_iff {bytes : List UInt8} :
    (ofBytes? bytes).isSome = true ↔ (Text.ofUtf8? bytes).isSome = true := by
  have hlines : (ofBytes? bytes).isSome = ((lines bytes).mapM Text.ofUtf8?).isSome := by
    unfold ofBytes?
    cases (lines bytes).mapM Text.ofUtf8? <;> rfl
  rw [hlines, isSome_mapM_iff, Text.isSome_ofUtf8?_iff]
  simp only [Text.isSome_ofUtf8?_iff]
  rw [forall_mem_lines (P := Text.Valid) ⟨[], rfl⟩]
  have hnewline : String.utf8EncodeChar '\n' = [newline] := by decide +kernel
  exact Text.valid_splitOn1 hnewline (by decide)

end Mapping
end Introspect
