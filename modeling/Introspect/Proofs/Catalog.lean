import Introspect.Allocator
import Introspect.Proofs.Heap.Words
import Introspect.Proofs.Layout.Placed
/-!
# Vtables and fresh instances

An address is the vtable of a class when it is the one that the class was given and the number that stands there says
so; both are read where the vtable lies, so nothing that happens elsewhere on the heap changes the answer.
-/
namespace Introspect
namespace Catalog

variable {c : Catalog} {h h' : Heap} {vtable : Address} {d : Declared}

theorem ofVtable_ok : c.ofVtable h vtable = .ok d ↔
    ∃ number, h.readWord vtable = .ok number ∧ number ≠ 0 ∧ c.entries[number.toNat - 1]? = some d ∧
      d.vtable = vtable := by
  unfold ofVtable
  cases hr : h.readWord vtable with
  | error e =>
    constructor
    · rintro ⟨⟩
    · rintro ⟨_, ⟨⟩, _⟩
  | ok number =>
    have hbind : (do
        let number ← (Except.ok number : Except Error UInt64).toOption
        if number = 0 then none else (c.entries[number.toNat - 1]?).filter (·.vtable = vtable) : Option Declared)
        = if number = 0 then none else (c.entries[number.toNat - 1]?).filter (·.vtable = vtable) := rfl
    rw [hbind]
    by_cases h0 : number = 0
    · rw [if_pos h0]
      refine iff_of_false (fun h => by cases h) ?_
      rintro ⟨n, hn, hne, -⟩
      exact hne (Except.ok.inj hn ▸ h0)
    · rw [if_neg h0]
      cases he : (c.entries[number.toNat - 1]?).filter (·.vtable = vtable) with
      | none =>
        refine iff_of_false (fun h => by cases h) ?_
        rintro ⟨n, hn, -, hd, hv⟩
        obtain rfl := Except.ok.inj hn
        exact Option.filter_eq_none_iff.1 he d hd (decide_eq_true hv)
      | some d' =>
        obtain ⟨h1, h2⟩ := Option.filter_eq_some_iff.1 he
        constructor
        · intro h
          obtain rfl := Except.ok.inj h
          exact ⟨number, rfl, h0, h1, of_decide_eq_true h2⟩
        · rintro ⟨n, hn, -, h3, -⟩
          obtain rfl := Except.ok.inj hn
          rw [Option.some.inj (h1.symm.trans h3)]

theorem ofVtable_error {e : Error} (hv : c.ofVtable h vtable = .error e) : e = .unknownVtable vtable := by
  unfold ofVtable at hv
  simp only at hv
  split at hv
  · cases hv
  · exact (Except.error.inj hv).symm

theorem mem_of_ofVtable (hv : c.ofVtable h vtable = .ok d) : d ∈ c.entries ∧ d.vtable = vtable := by
  obtain ⟨_, -, -, hd, hv⟩ := ofVtable_ok.1 hv
  exact ⟨List.mem_of_getElem? hd, hv⟩

theorem ofVtable_congr (hr : h'.read vtable 8 = h.read vtable 8) : c.ofVtable h' vtable = c.ofVtable h vtable := by
  unfold ofVtable
  rw [Heap.readWord_congr hr]

/-- **A heap that has only grown knows the same vtables.** -/
theorem ofVtable_grown (ha : h.Arranged) (g : Heap.Grows Heap.Nowhere h h') (hv : c.ofVtable h vtable = .ok d) :
    c.ofVtable h' vtable = .ok d := by
  obtain ⟨number, hr, h0, he, hvt⟩ := ofVtable_ok.1 hv
  exact ofVtable_ok.2 ⟨number, Heap.readWord_of_grows ha g (fun _ _ h => h) hr, h0, he, hvt⟩

theorem ofVtable_append (d' : Declared) (hv : c.ofVtable h vtable = .ok d) :
    ofVtable ⟨c.entries ++ [d']⟩ h vtable = .ok d := by
  obtain ⟨number, hr, h0, he, hvt⟩ := ofVtable_ok.1 hv
  exact ofVtable_ok.2 ⟨number, hr, h0, List.getElem?_append_left (List.getElem?_eq_some_iff.1 he).1 ▸ he, hvt⟩

theorem eq_of_readWord {a : Address} (ha : h.Arranged) (hi : h.Inside a.toNat 8)
    (hz : ∀ x, Heap.Window a.toNat 8 x → h.byteAt x = 0) : h.readAddress a = .ok .null := by
  have hb : h.bytesAt a.toNat 8 = List.replicate 8 0 := Heap.bytesAt_zero hz
  simp only [Heap.readAddress, Heap.readWord, Heap.read_inside ha hi, hb]
  rfl

/-- **A fresh instance** lies behind everything else; its vtable stands in its first word and its monitor is null. -/
theorem ends_newInstance (ha : h.Arranged) (hv : c.ofVtable h vtable = .ok d) (hd : d.type.Built) :
    (c.newInstance vtable).Ends h
      (fun o h' => o = h.next ∧ Heap.Grows Heap.Nowhere h h' ∧ h'.outline = (o.toNat, d.type.size) :: h.outline ∧
        h'.readAddress o = .ok vtable ∧ h'.readAddress (o + Class.monitorOffset) = .ok .null ∧
        ∀ x, Heap.Window (o.toNat + 8) (d.type.size - 8) x → h'.byteAt x = 0)
      fun e h' => h' = h ∧ ∃ f, e = .fault f ∧ h.allocate d.type.size = .error f := by
  simp only [newInstance, Action.ends_bind, Action.ends_query, hv, Heap.ends_newBlock]
  cases hx : h.allocate d.type.size with
  | error f => exact ⟨trivial, f, rfl, rfl⟩
  | ok r =>
    obtain ⟨o, k⟩ := r
    obtain ⟨rfl, hk, ho, hb⟩ := Heap.allocate_spec ha hx
    have hsize := hd.placed.le
    simp only [Class.headerSize] at hsize
    have hin : ∀ i n, i + n ≤ 16 → k.Inside (h.next.toNat + i) n := fun i n hi =>
      ⟨(h.next.toNat, d.type.size), ho ▸ List.mem_cons_self, by simp only; omega, by simp only; omega⟩
    have hlt := hk.inside_lt (hin 8 8 (by omega))
    simp only [Action.ends_modifyM, Class.vtableOffset, Address.add_zero]
    obtain ⟨h', hw⟩ := Heap.writeAddress_inside hk (hin 0 8 (by omega)) vtable
    rw [hw]
    have g := Heap.grows_writeAddress hk hw
    have g0 : Heap.Grows Heap.Nowhere h h' := (Heap.grows_allocate ha hx).trans ha g fun x hx hx' => by
      have := hx'.1
      omega
    have hzero : ∀ x, Heap.Window (h.next.toNat + 8) (d.type.size - 8) x → h'.byteAt x = 0 := fun x hx => by
      have hx1 := hx.1
      have hx2 := hx.2
      have h3 := (hk.bounds (e := (h.next.toNat, d.type.size)) (ho ▸ List.mem_cons_self)).2.1
      have h4 := Heap.le_span d.type.size
      simp only at h3
      rw [g.bytes x (by omega) (fun hx' => by have := hx'.2; omega), hb, if_neg (by omega)]
    refine ⟨rfl, g0, (Heap.outline_writeWord hk hw).trans ho, Heap.readAddress_writeAddress hk hw, ?_, hzero⟩
    have h8 : (h.next + Class.monitorOffset).toNat = h.next.toNat + 8 :=
      Address.toNat_add_of_lt (by simp only [Class.monitorOffset]; omega)
    refine eq_of_readWord g.arranged (by rw [h8]; exact g.inside (hin 8 8 (by omega))) fun x hx => hzero x ?_
    rw [h8] at hx
    exact hx.mono (Nat.le_refl _) (by omega)

/-- **A fresh vtable** lies behind everything else, and its number stands in its first word. -/
theorem ends_newVtable (ha : h.Arranged) (number size : Nat) :
    (newVtable number size).Ends h
      (fun v h' => v = h.next ∧ Heap.Grows Heap.Nowhere h h' ∧ h'.outline = (v.toNat, vtableSize) :: h.outline ∧
        h'.readWord v = .ok (UInt64.ofNat number))
      fun e h' => h' = h ∧ ∃ f, e = .fault f := by
  simp only [newVtable, Action.ends_bind, Heap.ends_newBlock]
  cases hx : h.allocate vtableSize with
  | error f => exact ⟨trivial, f, rfl⟩
  | ok r =>
    obtain ⟨v, k⟩ := r
    obtain ⟨rfl, hk, ho, -⟩ := Heap.allocate_spec ha hx
    have hin : ∀ i n, i + n ≤ 16 → k.Inside (h.next.toNat + i) n := fun i n hi =>
      ⟨(h.next.toNat, vtableSize), ho ▸ List.mem_cons_self, by simp only; omega, by simp only [vtableSize]; omega⟩
    have hlt := hk.inside_lt (hin 8 8 (by omega))
    have h8 : (h.next + 8).toNat = h.next.toNat + 8 := Address.toNat_add_of_lt (by omega)
    simp only [Action.ends_modifyM, Action.ends_pure]
    obtain ⟨h1, hw1⟩ := Heap.writeWord_inside hk (hin 0 8 (by omega)) (UInt64.ofNat number)
    have g1 := Heap.grows_writeWord hk hw1
    rw [hw1]
    simp only
    obtain ⟨h2, hw2⟩ := Heap.writeWord_inside g1.arranged (a := h.next + 8)
      (by rw [h8]; exact g1.inside (hin 8 8 (by omega))) (UInt64.ofNat size)
    have g2 := Heap.grows_writeWord g1.arranged hw2
    rw [h8] at g2
    rw [hw2]
    refine ⟨trivial, ?_, ?_, ?_⟩
    · refine ((Heap.grows_allocate ha hx).trans ha g1 fun x hx hx' => ?_).trans ha g2 fun x hx hx' => ?_
      · have := hx'.1; omega
      · have := hx'.1; omega
    · rw [Heap.outline_writeWord g1.arranged hw2, Heap.outline_writeWord hk hw1, ho]
    · exact Heap.readWord_of_grows g1.arranged g2 (fun x hx => hx.apart (.inl (Nat.le_refl _)))
        (Heap.readWord_writeWord hk hw1)

end Catalog
end Introspect
