import Introspect.Proofs.Registry.Side
/-!
# What a registry remembers of its registrations

A registry is the trace of a history of registrations.  Under a kind and a name it has the symbol that was registered
last under them.  In the tables beside the records a place leads to the symbol that was entered last there, but only
while that is still the record of its name: once the name has been registered again the place leads nowhere, whoever
else was entered there before (`Side.get?_ofHistory`).
-/
namespace Introspect
namespace Registry

/-- Every record stands under its own key, and the addresses lead to records that are there. -/
structure Coherent (r : Registry) : Prop where
  keyed : ∀ k s, r.symbols.get? k = some s → s.key = k
  located : ∀ a k, r.byAddress.get? a = some k → ∃ s, r.symbols.get? k = some s ∧ s.address = a

/-- The registry after the symbols of a history were registered, the first of the list first. -/
def ofHistory (mapsPath : String) (history : List Symbol) : Registry := history.foldl register { mapsPath }

/-- What was registered last under a key. -/
def lastNamed (history : List Symbol) (k : SymbolKey) : Option Symbol := history.reverse.find? (·.key = k)

/-- What was registered last at an address. -/
def lastAt (history : List Symbol) (a : Address) : Option Symbol := history.reverse.find? (·.address = a)

/-- What was registered last at a place of a table beside the records. -/
def Side.last {κ ν : Type} [DecidableEq κ] [DecidableEq ν] (side : Side κ ν) (history : List Symbol) (k : κ) :
    Option Symbol := history.reverse.find? (side.place · = k)

variable {mapsPath : String} {history : List Symbol} {s : Symbol} {a : Address}

theorem ofHistory_concat (mapsPath : String) (history : List Symbol) (s : Symbol) :
    ofHistory mapsPath (history ++ [s]) = (ofHistory mapsPath history).register s := by
  unfold ofHistory
  rw [List.foldl_append]
  rfl

/-- The last of a history with some property is the new one, if that has it. -/
theorem find?_reverse_concat (history : List Symbol) (s : Symbol) (p : Symbol → Bool) :
    (history ++ [s]).reverse.find? p = if p s = true then some s else history.reverse.find? p := by
  rw [List.reverse_append, List.reverse_singleton, List.singleton_append, List.find?_cons]
  cases p s <;> rfl

theorem lastNamed_concat (history : List Symbol) (s : Symbol) (k : SymbolKey) :
    lastNamed (history ++ [s]) k = if s.key = k then some s else lastNamed history k := by
  unfold lastNamed
  simp only [find?_reverse_concat, decide_eq_true_eq]

/-- Induction over a history, from its first registration to its last. -/
theorem history_induction {P : List Symbol → Prop} (nil : P []) (concat : ∀ history s, P history → P (history ++ [s]))
    (history : List Symbol) : P history := by
  have h : ∀ news : List Symbol, P news.reverse := by
    intro news
    induction news with
    | nil => exact nil
    | cons s news ih =>
      rw [List.reverse_cons]
      exact concat _ _ ih
  rw [← List.reverse_reverse history]
  exact h _

/-! ## Records -/

theorem keyed_ofHistory (mapsPath : String) (history : List Symbol) : (ofHistory mapsPath history).Keyed := by
  induction history using history_induction with
  | nil => intro k s h; cases h
  | concat history s ih =>
    rw [ofHistory_concat]
    exact ih.register s

/-- **A key leads to what was registered last under it.** -/
theorem symbols_ofHistory (mapsPath : String) (history : List Symbol) (k : SymbolKey) :
    (ofHistory mapsPath history).symbols.get? k = lastNamed history k := by
  induction history using history_induction with
  | nil => rfl
  | concat history s ih =>
    rw [ofHistory_concat, symbols_register, lastNamed_concat, ih]
    by_cases h : k = s.key
    · rw [if_pos h, if_pos h.symm]
    · rw [if_neg h, if_neg (Ne.symm h)]

/-! ## The tables beside them -/

namespace Side

variable {κ ν : Type} [DecidableEq κ] [DecidableEq ν] (side : Side κ ν) {k : κ}

theorem last_concat (history : List Symbol) (s : Symbol) (k : κ) :
    side.last (history ++ [s]) k = if side.place s = k then some s else side.last history k := by
  unfold last
  simp only [find?_reverse_concat, decide_eq_true_eq]

theorem place_of_last {side : Side κ ν} (h : side.last history k = some s) : side.place s = k := by
  simpa using List.find?_some h

theorem leads_ofHistory (mapsPath : String) (history : List Symbol) : side.Leads (ofHistory mapsPath history) := by
  induction history using history_induction with
  | nil =>
    intro k v h
    rw [ofHistory, List.foldl_nil, side.table_new] at h
    cases h
  | concat history s ih =>
    rw [ofHistory_concat]
    exact ih.register (keyed_ofHistory mapsPath history) s

/-- **A place leads to what was registered last there**, while that is the record of its name. -/
theorem get?_ofHistory (mapsPath : String) (history : List Symbol) (k : κ) :
    (side.table (ofHistory mapsPath history)).get? k =
      ((side.last history k).filter fun s => lastNamed history s.key = some s).map side.entry := by
  induction history using history_induction with
  | nil =>
    rw [ofHistory, List.foldl_nil, side.table_new]
    rfl
  | concat history s ih =>
    rw [ofHistory_concat, side.get?_register (keyed_ofHistory mapsPath history) (side.leads_ofHistory mapsPath history),
      last_concat, ih]
    by_cases hk : k = side.place s
    · rw [if_pos hk, if_pos hk.symm, Option.filter_some, lastNamed_concat, if_pos rfl]
      simp
    rw [if_neg hk, if_neg (Ne.symm hk)]
    cases ht : side.last history k with
    | none => rfl
    | some t =>
      have hplace := place_of_last ht
      have howner : side.owner k (side.entry t) = t.key := by rw [← hplace, side.owner_entry]
      have hts : s ≠ t := by
        rintro rfl
        exact hk hplace.symm
      rw [Option.filter_some, Option.filter_some, lastNamed_concat]
      by_cases hkey : s.key = t.key
      · rw [if_pos hkey, decide_eq_false fun h => hts (Option.some.inj h)]
        by_cases hcur : lastNamed history t.key = some t <;> simp [hcur, hkey, howner]
      · rw [if_neg hkey]
        by_cases hcur : lastNamed history t.key = some t <;> simp [hcur, howner, Ne.symm hkey]

end Side

theorem coherent_ofHistory (mapsPath : String) (history : List Symbol) : (ofHistory mapsPath history).Coherent :=
  ⟨keyed_ofHistory mapsPath history, Side.addresses.leads_ofHistory mapsPath history⟩

/-- **An address leads to what was registered last at it**, while that is the record of its name. -/
theorem byAddress_ofHistory (mapsPath : String) (history : List Symbol) (a : Address) :
    (ofHistory mapsPath history).byAddress.get? a =
      ((lastAt history a).filter fun s => lastNamed history s.key = some s).map Symbol.key :=
  Side.addresses.get?_ofHistory mapsPath history a

end Registry
end Introspect
