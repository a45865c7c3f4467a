import Introspect.Registry.Basic
/-!
# What a registration changes

A registration answers for its own kind and name, and for no other: the records of all other symbols stay as they are,
whatever happens to the side tables.
-/
namespace Introspect
namespace Registry

variable {r : Registry}

theorem get?_register (r : Registry) (s : Symbol) (name : String) (kind : SymbolKind) :
    (r.register s).get? name kind = if (kind, name) = s.key then some s else r.get? name kind := by
  simp only [register, get?, Table.get?_insert]
  split
  · rfl
  · cases r.symbols.get? s.key <;> rfl

theorem get?_register_of_ne {s : Symbol} {name : String} {kind : SymbolKind} (h : s.key ≠ (kind, name)) :
    (r.register s).get? name kind = r.get? name kind := by
  rw [get?_register, if_neg h.symm]

@[simp] theorem indexed_register (r : Registry) (s : Symbol) : (r.register s).indexed = r.indexed := by
  unfold register
  cases r.symbols.get? s.key <;> rfl

@[simp] theorem mapsPath_register (r : Registry) (s : Symbol) : (r.register s).mapsPath = r.mapsPath := by
  unfold register
  cases r.symbols.get? s.key <;> rfl

/-! ## Many at once -/

/-- **A record is as it was, or one of those that were registered.** -/
theorem get?_foldl_register (r : Registry) (ss : List Symbol) (name : String) (kind : SymbolKind) :
    (ss.foldl register r).get? name kind = r.get? name kind ∨
      ∃ s ∈ ss, s.key = (kind, name) ∧ (ss.foldl register r).get? name kind = some s := by
  induction ss generalizing r with
  | nil => exact .inl rfl
  | cons s ss ih =>
    rw [List.foldl_cons]
    rcases ih (r.register s) with h | ⟨t, ht, hkey, h⟩
    · rw [get?_register] at h
      by_cases hs : (kind, name) = s.key
      · rw [if_pos hs] at h
        exact .inr ⟨s, List.mem_cons_self, hs.symm, h⟩
      · rw [if_neg hs] at h
        exact .inl h
    · exact .inr ⟨t, List.mem_cons_of_mem _ ht, hkey, h⟩

@[simp] theorem indexed_foldl_register (r : Registry) (ss : List Symbol) :
    (ss.foldl register r).indexed = r.indexed := by
  induction ss generalizing r with
  | nil => rfl
  | cons s ss ih => rw [List.foldl_cons, ih, indexed_register]

@[simp] theorem mapsPath_foldl_register (r : Registry) (ss : List Symbol) :
    (ss.foldl register r).mapsPath = r.mapsPath := by
  induction ss generalizing r with
  | nil => rfl
  | cons s ss ih => rw [List.foldl_cons, ih, mapsPath_register]

/-! ## Files that have been looked at -/

@[simp] theorem get?_markIndexed (r : Registry) (l : Location) (name : String) (kind : SymbolKind) :
    (r.markIndexed l).get? name kind = r.get? name kind := by
  unfold markIndexed
  split <;> rfl

@[simp] theorem mapsPath_markIndexed (r : Registry) (l : Location) : (r.markIndexed l).mapsPath = r.mapsPath := by
  unfold markIndexed
  split <;> rfl

theorem isIndexed_markIndexed {l k : Location} (h : r.isIndexed k = true) : (r.markIndexed l).isIndexed k = true := by
  unfold markIndexed
  split
  · exact h
  · exact Bool.or_eq_true_iff.2 (.inr h)

end Registry
end Introspect
