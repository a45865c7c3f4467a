import Introspect.Proofs.Registry.Basic
/-!
# The tables beside the records

Beside its records the registry has one table that leads back to them from the addresses and one that leads back from
the paths.  Both are kept alike: a registration takes out what the replaced symbol has entered, if it still stands there,
and enters the new symbol at its own place.  A `Side` says how symbols are entered in such a table, and what a
registration does to it is proved once for both (`Side.get?_register`).
-/
namespace Introspect
namespace Registry

/-- Every record stands under its own key. -/
def Keyed (r : Registry) : Prop := ∀ k s, r.symbols.get? k = some s → s.key = k

theorem symbols_register (r : Registry) (s : Symbol) (k : SymbolKey) :
    (r.register s).symbols.get? k = if k = s.key then some s else r.symbols.get? k := get?_register r s k.2 k.1

theorem Keyed.register {r : Registry} (hk : r.Keyed) (s : Symbol) : (r.register s).Keyed := by
  intro k t h
  rw [symbols_register] at h
  by_cases hs : k = s.key
  · rw [if_pos hs] at h
    rw [hs, Option.some.inj h]
  · rw [if_neg hs] at h
    exact hk k t h

/-- The registry without the entries of the symbol that `s` replaces. -/
def cleared (r : Registry) (s : Symbol) : Registry := (r.symbols.get? s.key).elim r r.unlink

/-- A table beside the records: at which place it enters a symbol, what it enters there, and under which key the record
stands that an entry leads to. -/
structure Side (κ ν : Type) [DecidableEq κ] [DecidableEq ν] where
  table : Registry → Table κ ν
  place : Symbol → κ
  entry : Symbol → ν
  owner : κ → ν → SymbolKey
  owner_entry : ∀ s, owner (place s) (entry s) = s.key
  owner_inj : ∀ k v w, owner k v = owner k w → v = w
  table_new : ∀ mapsPath, table { mapsPath } = .empty
  table_unlink : ∀ (r : Registry) s, table (r.unlink s) =
    if (table r).get? (place s) = some (entry s) then (table r).erase (place s) else table r
  table_register : ∀ (r : Registry) s, table (r.register s) = (table (r.cleared s)).insert (place s) (entry s)

namespace Side

variable {κ ν : Type} [DecidableEq κ] [DecidableEq ν]

/-- An address leads to the key of the symbol that lies there. -/
def addresses : Side Address SymbolKey where
  table := byAddress
  place := Symbol.address
  entry := Symbol.key
  owner _ k := k
  owner_entry _ := rfl
  owner_inj _ _ _ h := h
  table_new _ := rfl
  table_unlink _ _ := rfl
  table_register r s := by
    unfold register cleared
    cases r.symbols.get? s.key <;> rfl

/-- A kind and a path lead to the name of the symbol that is shown as that path. -/
def paths : Side SymbolKey String where
  table := byPath
  place := Symbol.pathKey
  entry := Symbol.name
  owner k name := (k.1, name)
  owner_entry _ := rfl
  owner_inj _ _ _ h := congrArg Prod.snd h
  table_new _ := rfl
  table_unlink _ _ := rfl
  table_register r s := by
    unfold register cleared
    cases r.symbols.get? s.key <;> rfl

variable (side : Side κ ν) {r : Registry}

/-- Every entry leads to a record, and stands at the place of that record. -/
def Leads (r : Registry) : Prop :=
  ∀ k v, (side.table r).get? k = some v → ∃ s, r.symbols.get? (side.owner k v) = some s ∧ side.place s = k

theorem get?_unlink (r : Registry) (s : Symbol) (k : κ) :
    (side.table (r.unlink s)).get? k =
      if k = side.place s ∧ (side.table r).get? k = some (side.entry s) then none else (side.table r).get? k := by
  rw [side.table_unlink]
  by_cases hs : (side.table r).get? (side.place s) = some (side.entry s)
  · simp only [if_pos hs, Table.get?_erase]
    by_cases hk : k = side.place s
    · rw [if_pos hk, if_pos ⟨hk, hk ▸ hs⟩]
    · rw [if_neg hk, if_neg fun h => hk h.1]
  · rw [if_neg hs, if_neg]
    rintro ⟨rfl, h⟩
    exact hs h

/-- What is taken out is what leads to the record that is replaced, and nothing else. -/
theorem get?_cleared (hk : r.Keyed) (hl : side.Leads r) (s : Symbol) (k : κ) :
    (side.table (r.cleared s)).get? k = ((side.table r).get? k).filter (side.owner k · ≠ s.key) := by
  unfold cleared
  cases hv : (side.table r).get? k with
  | none =>
    cases r.symbols.get? s.key with
    | none => exact hv
    | some old =>
      rw [Option.elim_some, get?_unlink, hv]
      exact if_neg fun h => by cases h.2
  | some v =>
    obtain ⟨t, ht, hplace⟩ := hl k v hv
    rw [Option.filter_some]
    by_cases howner : side.owner k v = s.key
    · -- the entry leads to the record that is replaced, which therefore is entered here
      rw [howner] at ht
      have hentry : v = side.entry t := by
        apply side.owner_inj k
        rw [howner, ← hk _ _ ht, ← side.owner_entry t, hplace]
      rw [ht, Option.elim_some, get?_unlink, hv, if_pos ⟨hplace.symm, congrArg some hentry⟩, howner]
      simp
    · rw [decide_eq_true howner, if_pos rfl]
      cases hold : r.symbols.get? s.key with
      | none => exact hv
      | some old =>
        rw [Option.elim_some, get?_unlink, hv, if_neg]
        rintro ⟨rfl, h⟩
        rw [Option.some.inj h, side.owner_entry] at howner
        exact howner (hk _ _ hold)

/-- **The place of a symbol leads to it from now on**, and no other place does. -/
theorem get?_register (hk : r.Keyed) (hl : side.Leads r) (s : Symbol) (k : κ) :
    (side.table (r.register s)).get? k =
      if k = side.place s then some (side.entry s)
      else ((side.table r).get? k).filter (side.owner k · ≠ s.key) := by
  rw [side.table_register, Table.get?_insert, side.get?_cleared hk hl]

theorem Leads.register {side : Side κ ν} (hk : r.Keyed) (hl : side.Leads r) (s : Symbol) :
    side.Leads (r.register s) := by
  intro k v h
  rw [side.get?_register hk hl] at h
  rw [symbols_register]
  by_cases hs : k = side.place s
  · rw [if_pos hs] at h
    obtain rfl := Option.some.inj h
    rw [hs, side.owner_entry]
    exact ⟨s, if_pos rfl, rfl⟩
  · rw [if_neg hs] at h
    obtain ⟨hv, hne⟩ := Option.filter_eq_some_iff.1 h
    obtain ⟨t, ht, hplace⟩ := hl k v hv
    exact ⟨t, by rw [if_neg (of_decide_eq_true hne)]; exact ht, hplace⟩

end Side
end Registry
end Introspect
