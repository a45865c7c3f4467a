import Introspect.Proofs.Heap.Growth
import Introspect.Proofs.Octets
/-!
# Words and slices on a growing heap

What the accesses of a copy do, each with one statement: how it ends and what the heap is then.
-/
namespace Introspect

theorem Slice.isEmpty_iff {s : Slice} : s.isEmpty = true ↔ s.length = 0 := by simp [Slice.isEmpty]

namespace Heap

variable {h h' : Heap}

theorem Arranged.inside_lt (ha : h.Arranged) {a n : Nat} (hi : h.Inside a n) : a + n < 2 ^ 64 := by
  obtain ⟨e, he, h1, h2⟩ := hi
  have h3 := (ha.bounds he).2.1
  have h4 := le_span e.2
  have h5 := h.next.toNat_lt
  omega

theorem Arranged.inside_le_next (ha : h.Arranged) {a n : Nat} (hi : h.Inside a n) : a + n ≤ h.next.toNat := by
  obtain ⟨e, he, h1, h2⟩ := hi
  have h3 := (ha.bounds he).2.1
  have h4 := le_span e.2
  omega

/-! ## Words -/

theorem inside_of_readWord {a : Address} {w : UInt64} (hr : h.readWord a = .ok w) : h.Inside a.toNat 8 := by
  unfold readWord at hr
  cases hb : h.read a 8 with
  | error e => rw [hb] at hr; cases hr
  | ok bs => exact inside_of_read hb

theorem inside_of_readAddress {a x : Address} (hr : h.readAddress a = .ok x) : h.Inside a.toNat 8 := by
  unfold readAddress at hr
  cases hb : h.readWord a with
  | error e => rw [hb] at hr; cases hr
  | ok w => exact inside_of_readWord hb

theorem readWord_congr {a : Address} (hr : h'.read a 8 = h.read a 8) : h'.readWord a = h.readWord a := by
  unfold readWord
  rw [hr]

theorem readAddress_congr {a : Address} (hr : h'.read a 8 = h.read a 8) : h'.readAddress a = h.readAddress a := by
  unfold readAddress
  rw [readWord_congr hr]

theorem readSlice_congr {a : Address} (hr : h'.read a 8 = h.read a 8) (hr' : h'.read (a + 8) 8 = h.read (a + 8) 8) :
    h'.readSlice a = h.readSlice a := by
  unfold readSlice
  rw [readWord_congr hr, readAddress_congr hr']

theorem readWord_writeWord {a : Address} {w : UInt64} (ha : h.Arranged) (hw : h.writeWord a w = .ok h') :
    h'.readWord a = .ok w := by
  have hr := read_write ha hw
  rw [Octets.length_encode] at hr
  unfold readWord
  rw [hr]
  refine congrArg Except.ok (UInt64.toNat_inj.1 ?_)
  rw [UInt64.toNat_ofNat', Octets.decode_encode]
  have := w.toNat_lt
  omega

theorem readAddress_writeAddress {a x : Address} (ha : h.Arranged) (hw : h.writeAddress a x = .ok h') :
    h'.readAddress a = .ok x := by
  unfold readAddress
  rw [readWord_writeWord ha hw]
  rfl

theorem grows_writeWord {a : Address} {w : UInt64} (ha : h.Arranged) (hw : h.writeWord a w = .ok h') :
    Grows (Window a.toNat 8) h h' := by
  have := grows_write ha hw
  rwa [Octets.length_encode] at this

theorem grows_writeAddress {a x : Address} (ha : h.Arranged) (hw : h.writeAddress a x = .ok h') :
    Grows (Window a.toNat 8) h h' := grows_writeWord ha hw

theorem outline_writeWord {a : Address} {w : UInt64} (ha : h.Arranged) (hw : h.writeWord a w = .ok h') :
    h'.outline = h.outline := outline_write ha hw

theorem writeWord_inside {a : Address} (ha : h.Arranged) (hi : h.Inside a.toNat 8) (w : UInt64) :
    ∃ h', h.writeWord a w = .ok h' :=
  write_of_inside ha (by rwa [Octets.length_encode])

theorem writeAddress_inside {a : Address} (ha : h.Arranged) (hi : h.Inside a.toNat 8) (x : Address) :
    ∃ h', h.writeAddress a x = .ok h' := writeWord_inside ha hi x.word

theorem readWord_of_grows {W : Nat → Prop} (ha : h.Arranged) (g : Grows W h h') {a : Address}
    (hw : ∀ x, Window a.toNat 8 x → ¬ W x) {w : UInt64} (hr : h.readWord a = .ok w) : h'.readWord a = .ok w := by
  rw [readWord_congr (g.read_eq ha (inside_of_readWord hr) hw), hr]

theorem readAddress_of_grows {W : Nat → Prop} (ha : h.Arranged) (g : Grows W h h') {a : Address}
    (hw : ∀ x, Window a.toNat 8 x → ¬ W x) {x : Address} (hr : h.readAddress a = .ok x) : h'.readAddress a = .ok x := by
  rw [readAddress_congr (g.read_eq ha (inside_of_readAddress hr) hw), hr]

theorem readSlice_ok {a : Address} {s : Slice} :
    h.readSlice a = .ok s ↔ h.readWord a = .ok s.length ∧ h.readAddress (a + 8) = .ok s.data := by
  unfold readSlice
  cases h.readWord a with
  | error e => exact iff_of_false (fun h => by cases h) fun h => by cases h.1
  | ok length =>
    cases h.readAddress (a + 8) with
    | error e => exact iff_of_false (fun h => by cases h) fun h => by cases h.2
    | ok data =>
      constructor
      · intro h
        obtain rfl := Except.ok.inj h
        exact ⟨rfl, rfl⟩
      · rintro ⟨h1, h2⟩
        rw [Except.ok.inj h1, Except.ok.inj h2]
        rfl

theorem readSlice_of_grows {W : Nat → Prop} (ha : h.Arranged) (g : Grows W h h') {a : Address}
    (hw : ∀ x, Window a.toNat 8 x → ¬ W x) (hw' : ∀ x, Window (a + 8).toNat 8 x → ¬ W x) {s : Slice}
    (hr : h.readSlice a = .ok s) : h'.readSlice a = .ok s := by
  obtain ⟨h1, h2⟩ := readSlice_ok.1 hr
  exact readSlice_ok.2 ⟨readWord_of_grows ha g hw h1, readAddress_of_grows ha g hw' h2⟩

/-! ## The bytes of a word -/

theorem read_of_readWord {a : Address} {w : UInt64} (ha : h.Arranged) (hr : h.readWord a = .ok w) :
    h.read a 8 = .ok (Octets.encode 8 w.toNat) := by
  have hi := inside_of_readWord hr
  have hlen : (h.bytesAt a.toNat 8).length = 8 := by rw [bytesAt, List.length_map, List.length_range]
  unfold readWord at hr
  rw [read_inside ha hi] at hr ⊢
  obtain rfl := Except.ok.inj hr
  have hlt : Octets.decode (h.bytesAt a.toNat 8) < 2 ^ 64 := by
    have := Octets.decode_lt (h.bytesAt a.toNat 8)
    rwa [hlen] at this
  have henc := Octets.encode_decode (h.bytesAt a.toNat 8)
  rw [hlen] at henc
  rw [UInt64.toNat_ofNat', Nat.mod_eq_of_lt hlt, henc]

theorem bytesAt_add (h : Heap) (a m n : Nat) : h.bytesAt a (m + n) = h.bytesAt a m ++ h.bytesAt (a + m) n := by
  simp only [bytesAt, List.range_add, List.map_append, List.map_map, Function.comp_def, Nat.add_assoc]

theorem read_of_readSlice {a : Address} {s : Slice} (ha : h.Arranged) (hi : h.Inside a.toNat 16)
    (hr : h.readSlice a = .ok s) :
    h.read a 16 = .ok (Octets.encode 8 s.length.toNat ++ Octets.encode 8 s.data.word.toNat) := by
  obtain ⟨hlength, hdata⟩ := readSlice_ok.1 hr
  have h8 : (a + 8).toNat = a.toNat + 8 := by
    have := ha.inside_lt hi
    exact Address.toNat_add_of_lt (by omega)
  have hword : h.readWord (a + 8) = .ok s.data.word := by
    unfold readAddress at hdata
    cases hw : h.readWord (a + 8) with
    | error e => rw [hw] at hdata; cases hdata
    | ok w =>
      rw [hw] at hdata
      rw [← Except.ok.inj hdata]
  have h1 := read_of_readWord ha hlength
  have h2 := read_of_readWord ha hword
  rw [read_inside ha (inside_of_readWord hlength)] at h1
  rw [read_inside ha (inside_of_readWord hword), h8] at h2
  rw [read_inside ha hi, bytesAt_add h a.toNat 8 8, Except.ok.inj h1, Except.ok.inj h2]

/-! ## Copies of bytes -/

theorem grows_copy {a b : Address} {n : Nat} (ha : h.Arranged) (hc : h.copy a b n = .ok h') :
    Grows (Window b.toNat n) h h' := by
  unfold copy at hc
  by_cases hn : n = 0
  · rw [if_pos hn, Except.ok.injEq] at hc
    exact hc ▸ .refl ha
  · rw [if_neg hn] at hc
    by_cases hi : h.Inside a.toNat n
    · rw [read_inside ha hi] at hc
      have := grows_write ha hc
      rwa [bytesAt, List.length_map, List.length_range] at this
    · rw [read_outside hi] at hc
      cases hc

theorem outline_copy {a b : Address} {n : Nat} (ha : h.Arranged) (hc : h.copy a b n = .ok h') :
    h'.outline = h.outline := by
  unfold copy at hc
  by_cases hn : n = 0
  · rw [if_pos hn, Except.ok.injEq] at hc
    exact hc ▸ rfl
  · rw [if_neg hn] at hc
    cases hr : h.read a n with
    | error e => rw [hr] at hc; cases hc
    | ok bs =>
      rw [hr] at hc
      exact outline_write ha hc

/-- **Bytes are copied from inside to inside.** -/
theorem copy_inside {a b : Address} {n : Nat} (ha : h.Arranged) (hi : n ≠ 0 → h.Inside a.toNat n)
    (hj : h.Inside b.toNat n) : ∃ h', h.copy a b n = .ok h' ∧ h'.bytesAt b.toNat n = h.bytesAt a.toNat n := by
  unfold copy
  by_cases hn : n = 0
  · exact ⟨h, if_pos hn, by subst hn; rfl⟩
  · rw [if_neg hn, read_inside ha (hi hn)]
    have hlen : (h.bytesAt a.toNat n).length = n := by simp [bytesAt]
    have hj' : h.Inside b.toNat (h.bytesAt a.toNat n).length := by rwa [hlen]
    obtain ⟨h', hw⟩ := write_of_inside ha hj'
    refine ⟨h', hw, ?_⟩
    have hr := read_write ha hw
    rw [hlen, read_inside (Arranged.write ha hw) ((grows_write ha hw).inside hj), Except.ok.injEq] at hr
    exact hr

theorem copy_outside {a b : Address} {n : Nat} (hn : n ≠ 0) (hi : ¬ h.Inside a.toNat n) :
    h.copy a b n = .error (.invalidAddress a n) := by
  unfold copy
  rw [if_neg hn, read_outside hi]
  rfl

/-! ## Slices -/

theorem bufferSize?_eq_some {length : UInt64} {size n : Nat} :
    bufferSize? length size = some n ↔ n = length.toNat * size ∧ length.toNat * size < 2 ^ 64 := by
  simp only [bufferSize?, Option.filter_eq_some_iff, Option.some.injEq]
  constructor
  · rintro ⟨rfl, hlt⟩
    exact ⟨rfl, of_decide_eq_true hlt⟩
  · rintro ⟨rfl, hlt⟩
    exact ⟨rfl, decide_eq_true hlt⟩

/-- **The check of a slice** succeeds if the buffer lies in one block, and gives its size. -/
theorem checkSlice_ok {s : Slice} {size n : Nat} (hs : s.length ≠ 0) :
    h.checkSlice s size = .ok n ↔
      n = s.length.toNat * size ∧ s.length.toNat * size < 2 ^ 64 ∧ ∃ bs, h.read s.data n = .ok bs := by
  unfold checkSlice
  rw [if_neg (by simpa [Slice.isEmpty] using hs)]
  cases hb : bufferSize? s.length size with
  | none =>
    refine iff_of_false (by simp) fun hn => ?_
    rw [bufferSize?_eq_some.2 ⟨hn.1, hn.2.1⟩] at hb
    cases hb
  | some total =>
    obtain ⟨rfl, hlt⟩ := bufferSize?_eq_some.1 hb
    simp only
    cases hr : h.read s.data (s.length.toNat * size) with
    | error e =>
      refine iff_of_false (fun hc => by cases hc) fun hn => ?_
      obtain ⟨rfl, -, bs, hbs⟩ := hn
      rw [hr] at hbs
      cases hbs
    | ok bs =>
      constructor
      · intro hc
        obtain rfl := Except.ok.inj hc
        exact ⟨rfl, hlt, bs, hr⟩
      · rintro ⟨rfl, -⟩
        rfl

theorem inside_of_checkSlice {s : Slice} {size n : Nat} (hs : s.length ≠ 0) (hc : h.checkSlice s size = .ok n) :
    h.Inside s.data.toNat (s.length.toNat * size) := by
  obtain ⟨rfl, -, bs, hb⟩ := (checkSlice_ok hs).1 hc
  exact inside_of_read hb

theorem checkSlice_congr {s : Slice} {size : Nat}
    (hr : ∀ n, s.length ≠ 0 → bufferSize? s.length size = some n → h'.read s.data n = h.read s.data n) :
    h'.checkSlice s size = h.checkSlice s size := by
  unfold checkSlice
  by_cases hs : s.isEmpty = true
  · rw [if_pos hs, if_pos hs]
  · rw [if_neg hs, if_neg hs]
    cases hb : bufferSize? s.length size with
    | none => rfl
    | some n => simp only [hr n (fun h0 => hs (Slice.isEmpty_iff.2 h0)) hb]

theorem ends_newBlock {size : Nat} {ok : Address → Heap → Prop} {stop : Stop Error → Heap → Prop} :
    (newBlock size).Ends h ok stop ↔
      match h.allocate size with
      | .ok (a, h') => ok a h'
      | .error f => stop (.fault f) h := by
  simp only [newBlock, Action.ends_bind, Action.ends_get]
  cases h.allocate size with
  | ok r => rfl
  | error f => rfl

/-- **The buffer for a copy of a checked slice** lies behind everything else; an empty slice gets none. -/
theorem ends_newSlice {s : Slice} {size n : Nat} (ha : h.Arranged) (hs : h.checkSlice s size = .ok n) :
    (newSlice size s.length).Ends h
      (fun copy h' => (s.length = 0 ∧ copy = .empty ∧ h' = h) ∨
        (s.length ≠ 0 ∧ copy = ⟨s.length, h.next⟩ ∧ Grows Nowhere h h' ∧
          h'.outline = (h.next.toNat, s.length.toNat * size) :: h.outline))
      fun e h' => h' = h ∧ s.length ≠ 0 ∧ ∃ f, e = .fault f ∧ h.allocate (s.length.toNat * size) = .error f := by
  unfold newSlice
  by_cases h0 : s.length = 0
  · rw [if_pos h0]
    exact .inl ⟨h0, rfl, rfl⟩
  · obtain ⟨rfl, hn, -⟩ := (checkSlice_ok h0).1 hs
    rw [if_neg h0, bufferSize?_eq_some.2 ⟨rfl, hn⟩]
    simp only [Action.ends_bind, ends_newBlock, Action.ends_pure]
    cases hx : h.allocate (s.length.toNat * size) with
    | error f => exact ⟨trivial, h0, f, rfl, rfl⟩
    | ok r =>
      obtain ⟨b, h'⟩ := r
      obtain ⟨rfl, -, ho, -⟩ := allocate_spec ha hx
      exact .inr ⟨h0, rfl, grows_allocate ha hx, ho⟩

/-- **A slice's header is written where there is room for it**, and read back. -/
theorem ends_writeSlice (ha : h.Arranged) (a : Address) (s : Slice) :
    (writeSlice a s).Ends h
      (fun _ h' => Grows (Window a.toNat 16) h h' ∧ h'.outline = h.outline ∧ h'.readSlice a = .ok s)
      fun _ h' => Grows (Window a.toNat 16) h h' ∧ ¬ h.Inside a.toNat 16 := by
  simp only [writeSlice, Action.ends_bind, Action.ends_modifyM]
  cases hw : h.writeWord a s.length with
  | error e =>
    refine ⟨.refl ha, fun hi => ?_⟩
    obtain ⟨k, hk⟩ := writeWord_inside ha (hi.mono (m := 8) (Nat.le_refl _) (by omega)) s.length
    rw [hw] at hk
    cases hk
  | ok k =>
    have g := grows_writeWord ha hw
    have hlt : a.toNat + 8 < 2 ^ 64 := ha.inside_lt (n := 8) (by
      by_contra hi
      rw [writeWord, write_outside (by rwa [Octets.length_encode])] at hw
      cases hw)
    have h8 : (a + 8).toNat = a.toNat + 8 := Address.toNat_add_of_lt hlt
    have g16 : Grows (Window a.toNat 16) h k := g.mono fun x _ hx => hx.mono (Nat.le_refl _) (by omega)
    simp only
    cases hw' : k.writeAddress (a + 8) s.data with
    | error e =>
      refine ⟨g16, fun hi => ?_⟩
      obtain ⟨k', hk⟩ := writeAddress_inside g.arranged (a := a + 8)
        (by rw [h8]; exact g.inside (hi.mono (by omega) (by omega))) s.data
      rw [hw'] at hk
      cases hk
    | ok k' =>
      have g' := grows_writeAddress g.arranged hw'
      rw [h8] at g'
      refine ⟨g16.trans ha g' fun x _ hx => hx.mono (by omega) (by omega),
        (outline_writeWord g.arranged hw').trans (outline_writeWord ha hw), ?_⟩
      have hlen : k'.readWord a = .ok s.length :=
        readWord_of_grows g.arranged g' (fun x hx => hx.apart (.inl (Nat.le_refl _))) (readWord_writeWord ha hw)
      simp only [readSlice, hlen, readAddress_writeAddress g.arranged hw', bind, Except.bind]

end Heap
end Introspect
