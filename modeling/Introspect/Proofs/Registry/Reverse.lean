import Introspect.Proofs.Address
import Introspect.Proofs.Registry.History
/-!
# From an address back to its symbol

An address belongs to the symbols whose range it lies in.  The registry finds one through the addresses that lead to
records: it takes the greatest of them that is not above and asks whether that record reaches so far.  What is found is
right; and while no two symbols share an address, a symbol is found at every address of its range, exactly if nobody was
registered at its own address after it (`reverseLookup_exact`).  If another symbol was, and has moved on since, the
address leads nowhere and the symbol is lost (`reverseLookup_loses`).
-/
namespace Introspect

theorem Symbol.contains_iff {s : Symbol} {a : Address} :
    s.contains a = true ↔ s.address.toNat ≤ a.toNat ∧ a.toNat < s.address.toNat + max s.size 1 := by
  unfold contains Address.offsetFrom
  by_cases hle : s.address ≤ a
  · have hnat := Address.le_iff.1 hle
    rw [if_pos hle]
    by_cases h0 : a.toNat - s.address.toNat = 0
    · rw [h0]
      simp only [true_iff]
      omega
    · obtain ⟨d, hd⟩ := Nat.exists_eq_succ_of_ne_zero h0
      rw [hd]
      simp only [decide_eq_true_eq]
      omega
  · rw [if_neg hle]
    have hnat : ¬ s.address.toNat ≤ a.toNat := hle
    simp only [Bool.false_eq_true, false_iff]
    omega

theorem Symbol.contains_self (s : Symbol) : s.contains s.address = true := by
  rw [contains_iff]
  omega

namespace Registry

variable {r : Registry} {s t : Symbol} {a : Address}

/-! ## The greatest entry that is not above -/

/-- What `lastUpTo` looks for among the entries. -/
def IsLast (entries : List (Address × SymbolKey)) (a : Address) : Option (Address × SymbolKey) → Prop
  | none => ∀ e ∈ entries, ¬ e.1 ≤ a
  | some e => e ∈ entries ∧ e.1 ≤ a ∧ ∀ f ∈ entries, f.1 ≤ a → f.1 ≤ e.1

theorem IsLast.step {seen : List (Address × SymbolKey)} {best : Option (Address × SymbolKey)}
    (h : IsLast seen a best) (e : Address × SymbolKey) :
    IsLast (seen ++ [e]) a (if e.1 ≤ a ∧ best.all (·.1 < e.1) then some e else best) := by
  by_cases hle : e.1 ≤ a
  · cases best with
    | none =>
      rw [if_pos ⟨hle, rfl⟩]
      refine ⟨by simp, hle, fun f hf hfa => ?_⟩
      rcases List.mem_append.1 hf with hf | hf
      · exact absurd hfa (h f hf)
      · rw [List.mem_singleton.1 hf]
        exact Nat.le_refl _
    | some b =>
      obtain ⟨hb, hba, hmax⟩ := h
      by_cases hlt : b.1 < e.1
      · rw [if_pos ⟨hle, by simpa using hlt⟩]
        refine ⟨by simp, hle, fun f hf hfa => ?_⟩
        rcases List.mem_append.1 hf with hf | hf
        · exact Nat.le_trans (hmax f hf hfa) (Nat.le_of_lt hlt)
        · rw [List.mem_singleton.1 hf]
          exact Nat.le_refl _
      · rw [if_neg fun hc => hlt (by simpa using hc.2)]
        refine ⟨List.mem_append_left _ hb, hba, fun f hf hfa => ?_⟩
        rcases List.mem_append.1 hf with hf | hf
        · exact hmax f hf hfa
        · rw [List.mem_singleton.1 hf]
          exact Nat.le_of_not_lt hlt
  · rw [if_neg fun hc => hle hc.1]
    cases best with
    | none =>
      intro f hf
      rcases List.mem_append.1 hf with hf | hf
      · exact h f hf
      · rw [List.mem_singleton.1 hf]
        exact hle
    | some b =>
      obtain ⟨hb, hba, hmax⟩ := h
      refine ⟨List.mem_append_left _ hb, hba, fun f hf hfa => ?_⟩
      rcases List.mem_append.1 hf with hf | hf
      · exact hmax f hf hfa
      · rw [List.mem_singleton.1 hf] at hfa
        exact absurd hfa hle

theorem isLast_lastUpTo (entries : List (Address × SymbolKey)) (a : Address) :
    IsLast entries a (lastUpTo entries a) := by
  suffices h : ∀ rest seen best, IsLast seen a best → IsLast (seen ++ rest) a
      (rest.foldl (fun best e => if e.1 ≤ a ∧ best.all (·.1 < e.1) then some e else best) best) from
    h entries [] none fun e he => by cases he
  intro rest
  induction rest with
  | nil =>
    intro seen best h
    rw [List.append_nil]
    exact h
  | cons e rest ih =>
    intro seen best h
    rw [List.foldl_cons, List.append_cons]
    exact ih _ _ (h.step e)

/-! ## What is found -/

/-- The symbol is the record of its kind and name. -/
def Registered (r : Registry) (s : Symbol) : Prop := r.get? s.name s.kind = some s

instance (r : Registry) (s : Symbol) : Decidable (r.Registered s) := inferInstanceAs (Decidable (_ = _))

/-- No address belongs to two of the symbols that are registered. -/
def Apart (r : Registry) : Prop :=
  ∀ s t, r.Registered s → r.Registered t → s ≠ t → ∀ a, ¬ (s.contains a = true ∧ t.contains a = true)

/-- **What is found is registered and reaches to the address.** -/
theorem symbolAt?_sound (hc : r.Coherent) (h : r.symbolAt? a = some s) :
    r.Registered s ∧ s.contains a = true ∧ r.byAddress.get? s.address = some s.key := by
  unfold symbolAt? at h
  have hlast := isLast_lastUpTo r.byAddress.entries a
  cases he : lastUpTo r.byAddress.entries a with
  | none => rw [he] at h; cases h
  | some e =>
    rw [he] at h hlast
    obtain ⟨hrec, hcon⟩ := Option.filter_eq_some_iff.1 h
    have hget := Table.get?_of_mem hlast.1
    obtain ⟨t, ht, hta⟩ := hc.located _ _ hget
    obtain rfl := Option.some.inj (hrec.symm.trans ht)
    have hkey := hc.keyed _ _ hrec
    refine ⟨?_, hcon, ?_⟩
    · rw [← hkey] at hrec
      exact hrec
    · rw [hta, hkey]
      exact hget

/-- **A symbol that its own address leads to is found at every address of its range**, while no two symbols share one:
the record that is found starts no lower, and if it started higher, its first address would belong to both. -/
theorem symbolAt?_complete (hc : r.Coherent) (hap : r.Apart) (hs : r.Registered s)
    (hat : r.byAddress.get? s.address = some s.key) (ha : s.contains a = true) : r.symbolAt? a = some s := by
  have hrange := Symbol.contains_iff.1 ha
  have hlast := isLast_lastUpTo r.byAddress.entries a
  unfold symbolAt?
  cases he : lastUpTo r.byAddress.entries a with
  | none =>
    rw [he] at hlast
    exact absurd hrange.1 (hlast _ (Table.mem_of_get? hat))
  | some e =>
    rw [he] at hlast
    obtain ⟨hmem, hea, hmax⟩ := hlast
    obtain ⟨t, ht, hta⟩ := hc.located _ _ (Table.get?_of_mem hmem)
    have hkey := hc.keyed _ _ ht
    have hle := hmax _ (Table.mem_of_get? hat) hrange.1
    rw [Address.le_iff] at hea hle
    have hreg : r.Registered t := by
      unfold Registered get?
      rw [show (t.kind, t.name) = e.2 from hkey]
      exact ht
    have hts : t = s := Classical.byContradiction fun hne => by
      refine hap t s hreg hs hne e.1 ⟨hta ▸ t.contains_self, Symbol.contains_iff.2 ⟨hle, ?_⟩⟩
      omega
    change (r.symbols.get? e.2).filter (·.contains a) = some s
    rw [ht, Option.filter_some, hts, if_pos ha]

/-! ## What is lost -/

/-- **A symbol is found at the addresses of its range exactly if nobody was registered at its address after it**; if
somebody was, nothing is found there. -/
theorem reverseLookup_exact (mapsPath : String) (history : List Symbol) (hap : (ofHistory mapsPath history).Apart)
    (hs : (ofHistory mapsPath history).Registered s) (ha : s.contains a = true) :
    (ofHistory mapsPath history).symbolAt? a = if lastAt history s.address = some s then some s else none := by
  have hc := coherent_ofHistory mapsPath history
  have hnamed : lastNamed history s.key = some s := by
    rw [← symbols_ofHistory mapsPath]
    exact hs
  have hat : (ofHistory mapsPath history).byAddress.get? s.address = some s.key ↔
      lastAt history s.address = some s := by
    rw [byAddress_ofHistory]
    constructor
    · intro h
      obtain ⟨t, ht, hkey⟩ := Option.map_eq_some_iff.1 h
      obtain ⟨hlast, hcur⟩ := Option.filter_eq_some_iff.1 ht
      have hcur := of_decide_eq_true hcur
      rw [hkey, hnamed] at hcur
      rw [hlast, ← hcur]
    · intro h
      rw [h, Option.filter_some, decide_eq_true hnamed]
      rfl
  by_cases h : lastAt history s.address = some s
  · rw [if_pos h]
    exact symbolAt?_complete hc hap hs (hat.2 h) ha
  · rw [if_neg h]
    cases hx : (ofHistory mapsPath history).symbolAt? a with
    | none => rfl
    | some t =>
      -- what is found instead would share the address
      obtain ⟨ht, hta, hby⟩ := symbolAt?_sound hc hx
      have hts : t = s := Classical.byContradiction fun hne => hap t s ht hs hne a ⟨hta, ha⟩
      exact absurd (hat.1 (hts ▸ hby)) h

/-! ## Symbols that met at one address -/

/-- A function of sixteen bytes. -/
def sixteen (name : String) (address : Nat) : Symbol := ⟨.function, .ofNat address, name, name, 16⟩

theorem apart_ofHistory {mapsPath : String} {history : List Symbol}
    (h : ∀ s ∈ history, ∀ t ∈ history, lastNamed history s.key = some s → lastNamed history t.key = some t → s ≠ t →
      s.address.toNat + max s.size 1 ≤ t.address.toNat ∨ t.address.toNat + max t.size 1 ≤ s.address.toNat) :
    (ofHistory mapsPath history).Apart := by
  have hnamed : ∀ s, (ofHistory mapsPath history).Registered s → lastNamed history s.key = some s := by
    intro s hs
    rw [← symbols_ofHistory mapsPath]
    exact hs
  intro s t hs ht hne a hboth
  have hs := hnamed s hs
  have ht := hnamed t ht
  have hsa := Symbol.contains_iff.1 hboth.1
  have hta := Symbol.contains_iff.1 hboth.2
  have hmem : ∀ {u}, lastNamed history u.key = some u → u ∈ history := fun hu =>
    List.mem_reverse.1 (List.mem_of_find?_eq_some hu)
  have := h s (hmem hs) t (hmem ht) hs ht hne
  omega

/-- Here the symbol that is looked for came to the address of another one, which has moved on since. -/
theorem reverseLookup_exact_later :
    (ofHistory "" [sixteen "b" 0x1000, sixteen "a" 0x1000, sixteen "b" 0x2000]).Apart ∧
    (ofHistory "" [sixteen "b" 0x1000, sixteen "a" 0x1000, sixteen "b" 0x2000]).Registered (sixteen "a" 0x1000) ∧
    (sixteen "a" 0x1000).contains (.ofNat 0x1004) = true ∧
    (ofHistory "" [sixteen "b" 0x1000, sixteen "a" 0x1000, sixteen "b" 0x2000]).symbolAt? (.ofNat 0x1004) =
      some (sixteen "a" 0x1000) := by
  have hap : (ofHistory "" [sixteen "b" 0x1000, sixteen "a" 0x1000, sixteen "b" 0x2000]).Apart :=
    apart_ofHistory (by decide +kernel)
  refine ⟨hap, by decide +kernel, by decide +kernel, ?_⟩
  rw [reverseLookup_exact "" _ hap (s := sixteen "a" 0x1000) (by decide +kernel) (by decide +kernel)]
  decide +kernel

/-- **A symbol is lost** when another one came to its address and has moved on since: it is registered, no symbol shares
an address with another, and nothing is found at the address where it starts. -/
theorem reverseLookup_loses :
    (ofHistory "" [sixteen "a" 0x1000, sixteen "b" 0x1000, sixteen "b" 0x2000]).Apart ∧
    (ofHistory "" [sixteen "a" 0x1000, sixteen "b" 0x1000, sixteen "b" 0x2000]).Registered (sixteen "a" 0x1000) ∧
    (sixteen "a" 0x1000).contains (.ofNat 0x1000) = true ∧
    (ofHistory "" [sixteen "a" 0x1000, sixteen "b" 0x1000, sixteen "b" 0x2000]).symbolAt? (.ofNat 0x1000) = none :=
  ⟨apart_ofHistory (by decide +kernel), by decide +kernel, by decide +kernel, by decide +kernel⟩

end Registry
end Introspect
