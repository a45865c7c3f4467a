/-!
# Tables

A table holds at most one value for a key; the type says so.  What a table answers after a change is one equation per
operation: `get?_insert` and `get?_erase`.
-/
namespace Introspect

structure Table (κ α : Type) where
  entries : List (κ × α)
  distinct : (entries.map Prod.fst).Nodup

namespace Table

variable {κ α : Type} [DecidableEq κ]

def empty : Table κ α := ⟨[], .nil⟩

def size (t : Table κ α) : Nat := t.entries.length

def values (t : Table κ α) : List α := t.entries.map Prod.snd

def get? (t : Table κ α) (k : κ) : Option α := (t.entries.find? (·.1 = k)).map Prod.snd

def erase (t : Table κ α) (k : κ) : Table κ α where
  entries := t.entries.filter (·.1 ≠ k)
  distinct := ((List.filter_sublist (l := t.entries)).map Prod.fst).nodup t.distinct

def insert (t : Table κ α) (k : κ) (a : α) : Table κ α where
  entries := (k, a) :: (t.erase k).entries
  distinct := by
    refine List.nodup_cons.2 ⟨?_, (t.erase k).distinct⟩
    simp [erase]

/-! ## What a table answers -/

@[simp] theorem get?_empty (k : κ) : (empty : Table κ α).get? k = none := rfl

theorem get?_erase (t : Table κ α) (k j : κ) :
    (t.erase k).get? j = if j = k then none else t.get? j := by
  simp only [get?, erase, List.find?_filter]
  by_cases h : j = k
  · subst h
    simp [List.find?_eq_none]
  · rw [if_neg h]
    congr 2
    funext e
    by_cases he : e.1 = j <;> simp [he, h]

theorem get?_insert (t : Table κ α) (k j : κ) (a : α) :
    (t.insert k a).get? j = if j = k then some a else t.get? j := by
  by_cases h : j = k
  · subst h
    simp [get?, insert]
  · rw [if_neg h, ← (get?_erase t k j).trans (if_neg h)]
    simp [get?, insert, Ne.symm h]

theorem mem_of_get? {t : Table κ α} {k : κ} {a : α} (h : t.get? k = some a) : (k, a) ∈ t.entries := by
  obtain ⟨e, he, rfl⟩ := Option.map_eq_some_iff.1 h
  have h1 := List.mem_of_find?_eq_some he
  have h2 := List.find?_some he
  simp only [decide_eq_true_eq] at h2
  exact h2 ▸ h1

theorem get?_of_mem {t : Table κ α} {k : κ} {a : α} (h : (k, a) ∈ t.entries) : t.get? k = some a := by
  obtain ⟨entries, distinct⟩ := t
  unfold get?
  simp only at h ⊢
  induction entries with
  | nil => cases h
  | cons e rest ih =>
    rw [List.map_cons, List.nodup_cons] at distinct
    rw [List.find?_cons]
    rcases List.mem_cons.1 h with rfl | h
    · simp
    · have hne : e.1 ≠ k := fun hk => distinct.1 (hk ▸ List.mem_map.2 ⟨(k, a), h, rfl⟩)
      rw [decide_eq_false hne]
      exact ih distinct.2 h

end Table
end Introspect
