import Introspect.Linkage.Names
import Introspect.Proofs.Text
/-!
# Classes with the same symbols

A class is told apart by its encoded path alone: two classes have the same vtable symbol, and the same constructor
symbol, exactly if their paths have the same segments.  For the constructor this takes a count, since its name holds the
path three times and the length of the path twice.
-/
namespace Introspect
namespace Linkage

theorem emitted_inj {a b : List Char} : emitted a = emitted b ↔ a = b := by
  rw [emitted, emitted, String.ofList_inj, List.append_cancel_left_eq]

theorem mangle_inj {p q : String} : mangle p = mangle q ↔ encode p.toList = encode q.toList := String.ofList_inj

theorem vtableSymbol_inj {p q : String} : vtableSymbol p = vtableSymbol q ↔ mangle p = mangle q := by
  rw [vtableSymbol, vtableSymbol, emitted_inj, mangle_inj, List.append_cancel_right_eq]

theorem length_toDigits_mono {m n : Nat} (h : m ≤ n) : (Nat.toDigits 10 m).length ≤ (Nat.toDigits 10 n).length := by
  have hn : n < 10 ^ (Nat.toDigits 10 n).length :=
    (Nat.length_toDigits_le_iff (by decide) Nat.length_toDigits_pos).1 (Nat.le_refl _)
  exact (Nat.length_toDigits_le_iff (by decide) Nat.length_toDigits_pos).2 (Nat.lt_of_le_of_lt h hn)

def constructorBody (cls : List Char) : List Char :=
  cls ++ (encodeSegment ['s', 'e', 'l', 'f'] ++ signature [changeableReference cls] (changeableReference cls))

theorem constructorSymbol_eq (p : String) : constructorSymbol p = emitted (constructorBody (encode p.toList)) := by
  rw [constructorSymbol, constructorBody, List.append_assoc]

theorem length_constructorBody (cls : List Char) :
    (constructorBody cls).length = 3 * cls.length + 2 * (Nat.toDigits 10 (Text.byteLength cls + 1)).length + 13 := by
  have hself : (Nat.toDigits 10 (Text.byteLength ['s', 'e', 'l', 'f'])).length = 1 := by decide
  simp only [constructorBody, signature, changeableReference, encodeSegment, List.length_append, List.length_cons,
    List.length_nil, List.flatten_cons, List.flatten_nil, hself]
  omega

/-- The longer of two paths in one name would make that name longer than itself. -/
theorem eq_of_constructorBody {a b : List Char} (hle : a.length ≤ b.length)
    (h : constructorBody a = constructorBody b) : a = b := by
  have ha : a <+: constructorBody b := h ▸ ⟨_, rfl⟩
  have hb : b <+: constructorBody b := ⟨_, rfl⟩
  obtain ⟨rest, rfl⟩ := List.prefix_of_prefix_length_le ha hb hle
  have hbytes : Text.byteLength a + 1 ≤ Text.byteLength (a ++ rest) + 1 := by
    rw [Text.byteLength_append]
    omega
  have hdigits := length_toDigits_mono hbytes
  have hlen := congrArg List.length h
  rw [length_constructorBody, length_constructorBody, List.length_append] at hlen
  have hrest : rest.length = 0 := by omega
  rw [List.eq_nil_of_length_eq_zero hrest, List.append_nil]

theorem constructorSymbol_inj {p q : String} : constructorSymbol p = constructorSymbol q ↔ mangle p = mangle q := by
  rw [constructorSymbol_eq, constructorSymbol_eq, emitted_inj, mangle_inj]
  constructor
  · intro h
    rcases Nat.le_total (encode p.toList).length (encode q.toList).length with hle | hle
    · exact eq_of_constructorBody hle h
    · exact (eq_of_constructorBody hle h.symm).symm
  · exact congrArg constructorBody

end Linkage
end Introspect
