import Introspect.Proofs.Image.Definitions
import Introspect.Proofs.Registry.Lookup
/-!
# Overloads

Overloads are shown as one path, and the table of paths has room for one of them.  A registration enters itself there,
and takes out what it replaces only if that still stands there.  Where names decide paths, as they do in every image,
what a registration takes out of a path it enters there again.  So no path is lost while a symbol with it is registered,
and it leads to the one that was registered last (`overloads_latest`).
-/
namespace Introspect
namespace Registry

variable {history : List Symbol} {s : Symbol}

/-- What was registered last at a place is the registration there that none follows. -/
theorem Side.last_eq_some_iff {κ ν : Type} [DecidableEq κ] [DecidableEq ν] {side : Side κ ν} {k : κ} :
    side.last history k = some s ↔ side.place s = k ∧
      ∃ earlier later, history = earlier ++ s :: later ∧ ∀ t ∈ later, side.place t ≠ k := by
  unfold last
  rw [List.find?_eq_some_iff_append, decide_eq_true_eq]
  refine and_congr_right fun _ => ?_
  constructor
  · rintro ⟨later, earlier, hsplit, hlater⟩
    refine ⟨earlier.reverse, later.reverse, ?_, fun t ht => by simpa using hlater t (List.mem_reverse.1 ht)⟩
    rw [← List.reverse_reverse history, hsplit]
    simp
  · rintro ⟨earlier, later, rfl, hlater⟩
    refine ⟨later.reverse, earlier.reverse, by simp, fun t ht => by simpa using hlater t (List.mem_reverse.1 ht)⟩

/-- In a history, a kind and a name are always shown as one path. -/
def PathsByName (history : List Symbol) : Prop :=
  ∀ s ∈ history, ∀ t ∈ history, s.key = t.key → s.demangled = t.demangled

instance (history : List Symbol) : Decidable (PathsByName history) :=
  inferInstanceAs (Decidable (∀ s ∈ history, ∀ t ∈ history, s.key = t.key → s.demangled = t.demangled))

/-- **What comes from images is shown by its name.** -/
theorem pathsByName_of_images (h : ∀ s ∈ history, ∃ bytes bias, s ∈ Image.symbols bytes bias) :
    PathsByName history := by
  have hdecoded : ∀ s ∈ history, s.demangled = Linkage.demangle s.name := by
    intro s hs
    obtain ⟨bytes, bias, hs⟩ := h s hs
    rw [Image.symbols_eq] at hs
    obtain ⟨d, -, rfl⟩ := List.mem_map.1 hs
    rfl
  intro s hs t ht hkey
  rw [hdecoded s hs, hdecoded t ht, show s.name = t.name from congrArg Prod.snd hkey]

/-- **What was registered last with a path is the record of its name**: had its name been registered again, it would have
been with that path. -/
theorem PathsByName.current (h : PathsByName history) {k : SymbolKey} (hlast : Side.paths.last history k = some s) :
    lastNamed history s.key = some s := by
  obtain ⟨hplace, earlier, later, rfl, hlater⟩ := Side.last_eq_some_iff.1 hlast
  have hpath : ∀ t ∈ later, t.key ≠ s.key := by
    intro t ht hkey
    have hdemangled : t.demangled = s.demangled := h t (by simp [ht]) s (by simp) hkey
    have hkind : t.kind = s.kind := congrArg Prod.fst hkey
    exact hlater t ht ((Prod.ext hkind hdemangled : t.pathKey = s.pathKey).trans hplace)
  refine List.find?_eq_some_iff_append.2 ⟨decide_eq_true rfl, later.reverse, earlier.reverse, by simp, fun t ht => ?_⟩
  simpa using hpath t (List.mem_reverse.1 ht)

/-- **A path leads to what was registered with it last.** -/
theorem PathsByName.findPath?_eq (h : PathsByName history) (mapsPath path : String) (kind : SymbolKind) :
    (ofHistory mapsPath history).findPath? path kind = Side.paths.last history (kind, path) := by
  rw [findPath?_ofHistory]
  cases hlast : Side.paths.last history (kind, path) with
  | none => rfl
  | some t => rw [Option.filter_some, decide_eq_true (h.current hlast), if_pos rfl]

theorem mem_of_registered {mapsPath : String} (hs : (ofHistory mapsPath history).Registered s) : s ∈ history :=
  List.mem_reverse.1 (List.mem_of_find?_eq_some ((registered_iff mapsPath history s).1 hs))

/-- **A path leads to the overload that was registered last, and to none only if none is registered.**  What images bring
in is such a history. -/
theorem overloads_latest :
    (∀ history : List Symbol, (∀ s ∈ history, ∃ bytes bias, s ∈ Image.symbols bytes bias) → PathsByName history) ∧
    ∀ (mapsPath : String) (history : List Symbol), PathsByName history → ∀ (path : String) (kind : SymbolKind),
      ((ofHistory mapsPath history).findPath? path kind = none ↔
        ∀ s, (ofHistory mapsPath history).Registered s → s.pathKey ≠ (kind, path)) ∧
      ∀ s, (ofHistory mapsPath history).findPath? path kind = some s ↔
        (ofHistory mapsPath history).Registered s ∧ s.pathKey = (kind, path) ∧
          ∃ earlier later, history = earlier ++ s :: later ∧ ∀ t ∈ later, t.pathKey ≠ (kind, path) := by
  refine ⟨fun history => pathsByName_of_images, fun mapsPath history h path kind => ?_⟩
  rw [h.findPath?_eq]
  have hregistered : ∀ s, Side.paths.last history (kind, path) = some s →
      (ofHistory mapsPath history).Registered s := fun s hs => (registered_iff mapsPath history s).2 (h.current hs)
  refine ⟨⟨fun hnone s hs hpath => ?_, fun hnone => ?_⟩, fun s => ?_⟩
  · have hno := List.find?_eq_none.1 hnone s (List.mem_reverse.2 (mem_of_registered hs))
    exact hno (decide_eq_true hpath)
  · refine Option.eq_none_iff_forall_ne_some.2 fun s hs => ?_
    exact hnone s (hregistered s hs) (Side.place_of_last hs)
  · exact ⟨fun hs => ⟨hregistered s hs, Side.last_eq_some_iff.1 hs⟩, fun hs => Side.last_eq_some_iff.2 hs.2⟩

/-- Two overloads and a class of the same path, the first of the overloads registered again at the end. -/
def overloaded : List Symbol := [
  ⟨.function, .ofNat 0x1000, "_Y1fFiZv", "f (...)", 16⟩, ⟨.function, .ofNat 0x2000, "_Y1fFlZv", "f (...)", 16⟩,
  ⟨.vtable, .ofNat 0x3000, "_Y1fVT", "f (...)", 16⟩, ⟨.function, .ofNat 0x4000, "_Y1fFiZv", "f (...)", 16⟩]

theorem overloads_latest_again : PathsByName overloaded ∧
    (ofHistory "" overloaded).findPath? "f (...)" .function =
      some ⟨.function, .ofNat 0x4000, "_Y1fFiZv", "f (...)", 16⟩ ∧
    (ofHistory "" overloaded).findPath? "g (...)" .function = none := by
  have h : PathsByName overloaded := by decide +kernel
  refine ⟨h, ?_, ?_⟩
  · refine ((overloads_latest.2 "" overloaded h "f (...)" .function).2 _).2 ⟨by decide +kernel, rfl, ?_⟩
    exact ⟨overloaded.take 3, [], rfl, by simp⟩
  · have hnone : ∀ t ∈ overloaded, t.pathKey ≠ (.function, "g (...)") := by decide +kernel
    exact (overloads_latest.2 "" overloaded h "g (...)" .function).1.2 fun s hs => hnone s (mem_of_registered hs)

end Registry
end Introspect
