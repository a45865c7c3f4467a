import Introspect.Proofs.Registry.Reverse
import Mathlib.Data.List.Dedup
/-!
# Every look-up answers with a current record

Three tables have to agree after any history of registrations.  There are as many records as kinds and names have been
registered, each the last one of its kind and name; what the addresses and the paths lead to is one of these records,
with that address and that path.  So no look-up, by name, by path or by address, answers with a record that was replaced
(`lookups_current`).
-/
namespace Introspect

theorem Table.mem_keys_iff {κ α : Type} [DecidableEq κ] {t : Table κ α} {k : κ} :
    k ∈ t.entries.map Prod.fst ↔ ∃ a, t.get? k = some a := by
  rw [List.mem_map]
  constructor
  · rintro ⟨e, he, rfl⟩
    exact ⟨e.2, get?_of_mem he⟩
  · rintro ⟨a, ha⟩
    exact ⟨(k, a), mem_of_get? ha, rfl⟩

namespace Registry

variable {history : List Symbol} {k : SymbolKey}

theorem exists_lastNamed_iff : (∃ s, lastNamed history k = some s) ↔ k ∈ history.map Symbol.key := by
  unfold lastNamed
  rw [← Option.isSome_iff_exists, List.find?_isSome, List.mem_map]
  simp

/-- **There are as many records as kinds and names have been registered.** -/
theorem size_ofHistory (mapsPath : String) (history : List Symbol) :
    (ofHistory mapsPath history).size = (history.map Symbol.key).dedup.length := by
  have hkeys : ((ofHistory mapsPath history).symbols.entries.map Prod.fst).Perm (history.map Symbol.key).dedup := by
    rw [List.perm_ext_iff_of_nodup (ofHistory mapsPath history).symbols.distinct (List.nodup_dedup _)]
    intro k
    simp only [Table.mem_keys_iff, symbols_ofHistory, exists_lastNamed_iff, List.mem_dedup]
  have hlength := hkeys.length_eq
  rw [List.length_map] at hlength
  exact hlength

theorem registered_iff (mapsPath : String) (history : List Symbol) (s : Symbol) :
    (ofHistory mapsPath history).Registered s ↔ lastNamed history s.key = some s := by
  rw [← symbols_ofHistory mapsPath]
  rfl

/-- **A path leads to the symbol that was registered with it last**, while that is the record of its name. -/
theorem findPath?_ofHistory (mapsPath : String) (history : List Symbol) (path : String) (kind : SymbolKind) :
    (ofHistory mapsPath history).findPath? path kind =
      (Side.paths.last history (kind, path)).filter fun s => lastNamed history s.key = some s := by
  unfold findPath?
  rw [show (ofHistory mapsPath history).byPath.get? (kind, path) = _ from
    Side.paths.get?_ofHistory mapsPath history (kind, path)]
  cases ht : Side.paths.last history (kind, path) with
  | none => rfl
  | some t =>
    have hplace : t.pathKey = (kind, path) := Side.place_of_last ht
    have hkind : t.kind = kind := congrArg Prod.fst hplace
    rw [Option.filter_some]
    by_cases hcur : lastNamed history t.key = some t
    · have hget : (ofHistory mapsPath history).get? t.name kind = some t := by
        rw [← hkind]
        exact (registered_iff mapsPath history t).2 hcur
      rw [decide_eq_true hcur, if_pos rfl]
      exact hget
    · rw [decide_eq_false hcur, if_neg Bool.false_ne_true]
      rfl

/-- An overload that came first is not found by the path again when the later one is registered under another path. -/
example : (ofHistory "" [⟨.function, .ofNat 0x1000, "f1", "f (...)", 16⟩, ⟨.function, .ofNat 0x2000, "f2", "f (...)", 16⟩,
    ⟨.function, .ofNat 0x2000, "f2", "g (...)", 16⟩]).findPath? "f (...)" .function = none := by decide +kernel

/-- **Whatever leads to a symbol leads to a current record**, one that was registered last under its kind and name; and
there is one of these for every kind and name. -/
theorem lookups_current (mapsPath : String) (history : List Symbol) :
    (∀ name kind, (ofHistory mapsPath history).get? name kind = lastNamed history (kind, name)) ∧
    (ofHistory mapsPath history).size = (history.map Symbol.key).dedup.length ∧
    (∀ a k, (ofHistory mapsPath history).byAddress.get? a = some k →
      ∃ s, (ofHistory mapsPath history).Registered s ∧ s.key = k ∧ s.address = a) ∧
    (∀ kind path name, (ofHistory mapsPath history).byPath.get? (kind, path) = some name →
      ∃ s, (ofHistory mapsPath history).Registered s ∧ s.key = (kind, name) ∧ s.demangled = path) ∧
    (∀ a s, (ofHistory mapsPath history).symbolAt? a = some s →
      (ofHistory mapsPath history).Registered s ∧ lastNamed history s.key = some s ∧ s.contains a = true) ∧
    (∀ path kind s, (ofHistory mapsPath history).findPath? path kind = some s →
      (ofHistory mapsPath history).Registered s ∧ lastNamed history s.key = some s ∧ s.kind = kind ∧
        s.demangled = path) := by
  have hkeyed := keyed_ofHistory mapsPath history
  have hcurrent : ∀ k s, (ofHistory mapsPath history).symbols.get? k = some s →
      s.key = k ∧ (ofHistory mapsPath history).Registered s := by
    intro k s h
    have hkey := hkeyed k s h
    exact ⟨hkey, by rw [← hkey] at h; exact h⟩
  refine ⟨fun name kind => symbols_ofHistory mapsPath history (kind, name), size_ofHistory mapsPath history,
    fun a k h => ?_, fun kind path name h => ?_, fun a s h => ?_, fun path kind s h => ?_⟩
  · obtain ⟨s, hs, ha⟩ := Side.addresses.leads_ofHistory mapsPath history a k h
    obtain ⟨hkey, hreg⟩ := hcurrent _ s hs
    exact ⟨s, hreg, hkey, ha⟩
  · obtain ⟨s, hs, hpath⟩ := Side.paths.leads_ofHistory mapsPath history (kind, path) name h
    obtain ⟨hkey, hreg⟩ := hcurrent _ s hs
    exact ⟨s, hreg, hkey, congrArg Prod.snd hpath⟩
  · obtain ⟨hreg, hcontains, -⟩ := symbolAt?_sound (coherent_ofHistory mapsPath history) h
    exact ⟨hreg, (registered_iff mapsPath history s).1 hreg, hcontains⟩
  · rw [findPath?_ofHistory] at h
    obtain ⟨hlast, hcur⟩ := Option.filter_eq_some_iff.1 h
    have hcur := of_decide_eq_true hcur
    have hplace : s.pathKey = (kind, path) := Side.place_of_last hlast
    exact ⟨(registered_iff mapsPath history s).2 hcur, hcur, congrArg Prod.fst hplace, congrArg Prod.snd hplace⟩

end Registry
end Introspect
