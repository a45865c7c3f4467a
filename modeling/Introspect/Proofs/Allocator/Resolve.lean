import Introspect.Allocator
import Introspect.Proofs.Action
import Introspect.Proofs.Registry.Discovery
/-!
# Looking a name up

A look-up refreshes the registry at most (`Refreshed`), and so it changes no record there but by what an image claims
(`Searched`); where it finds nothing it says so, unless discovery was sent out and could not read the memory map.
-/
namespace Introspect
namespace Allocator

variable {s s' s'' : Allocator} {files : Storage}

/-- Only the registry is another one, and each record there is the old one or what an image claims. -/
structure Searched (files : Storage) (s s' : Allocator) : Prop where
  rest : s' = { s with registry := s'.registry }
  onward : s.registry.Onward s'.registry
  records : ∀ name kind, s'.registry.get? name kind = s.registry.get? name kind ∨
    s.settings.discoverOnMiss = true ∧
      ∃ t, s.registry.Claimed files (kind, name) t ∧ s'.registry.get? name kind = some t

namespace Searched

theorem refl (s : Allocator) : Searched files s s := ⟨rfl, .refl _, fun _ _ => .inl rfl⟩

theorem heap (h : Searched files s s') : s'.heap = s.heap := by rw [h.rest]

theorem catalog (h : Searched files s s') : s'.catalog = s.catalog := by rw [h.rest]

theorem settings (h : Searched files s s') : s'.settings = s.settings := by rw [h.rest]

theorem trans (h : Searched files s s') (h' : Searched files s' s'') : Searched files s s'' where
  rest := by rw [h'.rest, h.rest]
  onward := h.onward.trans h'.onward
  records name kind := by
    rcases h'.records name kind with hsame | ⟨hon, t, hc, ht⟩
    · rw [hsame]
      exact h.records name kind
    · exact .inr ⟨h.settings ▸ hon, t, hc.earlier h.onward, ht⟩

end Searched

/-- The registry is refreshed, any number of times, and nothing else happens; without discovery not even that. -/
inductive Refreshed (files : Storage) : Allocator → Allocator → Prop where
  | refl (s : Allocator) : Refreshed files s s
  | refresh {s s' : Allocator} {report : Report} {r : Registry} (discovers : s.settings.discoverOnMiss = true)
    (found : s.registry.tryRefresh files = .ok (report, r)) (after : Refreshed files { s with registry := r } s') :
    Refreshed files s s'

namespace Refreshed

theorem trans (h : Refreshed files s s') (h' : Refreshed files s' s'') : Refreshed files s s'' := by
  induction h with
  | refl s => exact h'
  | refresh hon hfound _ ih => exact .refresh hon hfound (ih h')

/-- **Refreshing puts into the registry what images claim**, and changes nothing else. -/
theorem searched (h : Refreshed files s s') : Searched files s s' := by
  induction h with
  | refl s => exact .refl s
  | @refresh s s' report r hon hfound _ ih =>
    obtain ⟨honward, hrecords⟩ := Registry.tryRefresh_records hfound
    have hone : Searched files s { s with registry := r } :=
      ⟨rfl, honward, fun name kind => (hrecords name kind).imp_right fun h => ⟨hon, h⟩⟩
    exact hone.trans ih

end Refreshed

theorem resolve_of_lookup {name : String} {kind : SymbolKind} {a : Address}
    (h : s.registry.lookup name kind = some a) : resolve files name kind s = .ok a s := by
  simp only [resolve, Action.run_bind, Action.run_get, h]
  rfl

/-- Why a look-up fails: there is no such symbol, or the search for it could not begin. -/
def Missed (files : Storage) (name : String) (kind : SymbolKind) (s : Allocator) (stop : Stop Error) : Prop :=
  ∃ cause, stop = .failure cause ∧ (cause = .symbolNotFound kind name ∨
    s.registry.lookup name kind = none ∧ s.settings.discoverOnMiss = true ∧
      s.registry.tryRefresh files = .error cause)

/-- **A look-up refreshes the registry at most**, and ends in what is registered then. -/
theorem resolve_refreshes (s : Allocator) (files : Storage) (name : String) (kind : SymbolKind) :
    (resolve files name kind).Ends s
      (fun a s' => Refreshed files s s' ∧ s'.registry.lookup name kind = some a)
      fun stop s' => Refreshed files s s' ∧ Missed files name kind s stop := by
  have hquery : ∀ t, Refreshed files s t →
      (Action.query fun s : Allocator => (s.registry.require name kind).map Symbol.address).Ends t
        (fun a s' => Refreshed files s s' ∧ s'.registry.lookup name kind = some a)
        fun stop s' => Refreshed files s s' ∧ Missed files name kind s stop := fun t ht => by
    rw [Action.ends_query]
    unfold Registry.require Registry.lookup
    cases t.registry.get? name kind with
    | none => exact ⟨ht, _, rfl, .inl rfl⟩
    | some sym => exact ⟨ht, rfl⟩
  simp only [resolve, Action.ends_bind, Action.ends_get]
  cases hl : s.registry.lookup name kind with
  | some a => exact ⟨.refl s, hl⟩
  | none =>
    dsimp only
    by_cases hon : s.settings.discoverOnMiss = true
    · rw [if_pos hon, Action.ends_bind, Action.ends_modifyM]
      cases hr : s.registry.tryRefresh files with
      | error err => exact ⟨.refl s, err, rfl, .inr ⟨hl, hon, hr⟩⟩
      | ok done =>
        obtain ⟨report, r⟩ := done
        exact hquery { s with registry := r } (.refresh hon hr (.refl _))
    · rw [if_neg hon]
      exact hquery s (.refl s)

/-- **What looking a name up ends in.** -/
theorem ends_resolve (s : Allocator) (files : Storage) (name : String) (kind : SymbolKind) :
    (resolve files name kind).Ends s
      (fun a s' => Searched files s s' ∧ s'.registry.lookup name kind = some a)
      fun stop s' => Searched files s s' ∧ Missed files name kind s stop :=
  (resolve_refreshes s files name kind).mono (fun _ _ h => h.imp_left Refreshed.searched) fun _ _ h =>
    h.imp_left Refreshed.searched

end Allocator
end Introspect
