import Introspect.Mapping.Description
/-!
# The order of locations

Locations are ordered by their components, and two of them have one place in the order exactly if they are the same
location (`compare_eq_iff`).  A list in order holds no location twice, so what puts a location into its place
(`insertFile`, `lowerBase`) keeps a set of locations, or a map from them.
-/
namespace Introspect

instance : Std.TransOrd Component :=
  @Std.instTransCmpCompareLex Component (compareOn Component.rank) (compareOn Component.text)
    inferInstance inferInstance

instance : Std.LawfulEqOrd Component where
  compare_self := Std.ReflCmp.compare_self
  eq_of_compare {a b} h := by
    obtain ⟨hrank, htext⟩ := Ordering.then_eq_eq.1 h
    have hrank := Std.LawfulEqOrd.eq_of_compare hrank
    have htext := Std.LawfulEqOrd.eq_of_compare htext
    cases a <;> cases b <;> simp_all [Component.rank, Component.text]

namespace Location

variable {a b c : Location}

instance : Std.TransOrd Location where
  eq_swap := (inferInstance : Std.TransOrd (List Component)).eq_swap
  isLE_trans := (inferInstance : Std.TransOrd (List Component)).isLE_trans

theorem same_iff : a.same b = true ↔ a.components = b.components := decide_eq_true_iff

theorem same_self (a : Location) : a.same a = true := same_iff.2 rfl

theorem same_symm (h : a.same b = true) : b.same a = true := same_iff.2 (same_iff.1 h).symm

theorem same_trans (h : a.same b = true) (h' : b.same c = true) : a.same c = true :=
  same_iff.2 ((same_iff.1 h).trans (same_iff.1 h'))

/-- **Two locations have one place in the order exactly if they are the same.** -/
theorem compare_eq_iff : compare a b = .eq ↔ a.same b = true :=
  (Std.compare_eq_iff_eq (α := List Component)).trans same_iff.symm

/-- Each stands before those that come later. -/
def InOrder (ls : List Location) : Prop := ls.Pairwise fun a b => compare a b = .lt

end Location
end Introspect
