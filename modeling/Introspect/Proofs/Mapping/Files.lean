import Introspect.Proofs.Mapping.Order
/-!
# The files of a memory map

A memory map lists its mappings in some order, and a file as often as it is mapped.  What discovery takes from it
depends on neither: the files come out once each, in the order of locations, and each base is the least start among the
mappings of its file at offset zero.  Both are folds over the mappings, so what holds of the mappings that have been
seen is carried through them one by one.
-/
namespace Introspect
namespace Mapping

open Location (InOrder same_iff same_self same_symm same_trans compare_eq_iff)

variable {l k : Location} {ls : List Location} {bs : List (Location × Address)} {ms : List Mapping}

theorem not_same_of_lt (h : compare l k = .lt) : l.same k = false := by
  rw [Bool.eq_false_iff, Ne, ← compare_eq_iff, h]
  decide

theorem not_same_of_gt (h : compare l k = .gt) : l.same k = false := by
  rw [Bool.eq_false_iff, Ne, ← compare_eq_iff, h]
  decide

/-- What stands behind a location that is not above `l` stands behind `l`, and is another location. -/
theorem lt_of_head (hs : InOrder (k :: ls)) (hle : compare l k ≠ .gt) : ∀ x ∈ ls, compare l x = .lt := by
  intro x hx
  have hkx := (List.pairwise_cons.1 hs).1 x hx
  cases h : compare l k with
  | lt => exact Std.TransCmp.lt_trans h hkx
  | eq => exact Std.TransCmp.lt_of_eq_of_lt h hkx
  | gt => exact absurd h hle

/-! ## Files -/

/-- **A location put into its place** takes it from whatever spelling stood there, and leaves all others. -/
theorem mem_insertFile (hs : InOrder ls) : k ∈ insertFile l ls ↔ k = l ∨ k ∈ ls ∧ l.same k = false := by
  induction ls with
  | nil => simp [insertFile]
  | cons x ls ih =>
    have hrest := ih (List.pairwise_cons.1 hs).2
    unfold insertFile
    cases hc : compare l x with
    | lt =>
      have hbehind := lt_of_head hs (by rw [hc]; decide)
      simp only [List.mem_cons]
      refine or_congr_right ⟨fun h => ⟨h, ?_⟩, And.left⟩
      rcases h with rfl | h
      · exact not_same_of_lt hc
      · exact not_same_of_lt (hbehind k h)
    | eq =>
      have hbehind := lt_of_head hs (by rw [hc]; decide)
      simp only [List.mem_cons]
      refine or_congr_right ⟨fun h => ⟨.inr h, not_same_of_lt (hbehind k h)⟩, fun ⟨h, hne⟩ => h.resolve_left ?_⟩
      rintro rfl
      rw [compare_eq_iff.1 hc] at hne
      cases hne
    | gt =>
      simp only [List.mem_cons, hrest]
      constructor
      · rintro (rfl | rfl | ⟨h, hne⟩)
        · exact .inr ⟨.inl rfl, not_same_of_gt hc⟩
        · exact .inl rfl
        · exact .inr ⟨.inr h, hne⟩
      · rintro (rfl | ⟨rfl | h, hne⟩)
        · exact .inr (.inl rfl)
        · exact .inl rfl
        · exact .inr (.inr ⟨h, hne⟩)

theorem inOrder_insertFile (hs : InOrder ls) : InOrder (insertFile l ls) := by
  induction ls with
  | nil => exact List.pairwise_singleton ..
  | cons x ls ih =>
    obtain ⟨hx, hls⟩ := List.pairwise_cons.1 hs
    unfold insertFile
    cases hc : compare l x with
    | lt =>
      refine List.pairwise_cons.2 ⟨fun y hy => ?_, hs⟩
      rcases List.mem_cons.1 hy with rfl | hy
      · exact hc
      · exact lt_of_head hs (by rw [hc]; decide) y hy
    | eq => exact List.pairwise_cons.2 ⟨lt_of_head hs (by rw [hc]; decide), hls⟩
    | gt =>
      refine List.pairwise_cons.2 ⟨fun y hy => ?_, ih hls⟩
      rcases (mem_insertFile hls).1 hy with rfl | ⟨hy, -⟩
      · exact Std.OrientedCmp.lt_of_gt hc
      · exact hx y hy

/-- What putting locations into their places one after the other keeps: the order, and for each of them one that is the
same. -/
theorem foldl_insertFile (new : List Location) : ∀ {old : List Location}, InOrder old →
    InOrder (new.foldl (fun acc l => insertFile l acc) old) ∧
    (∀ k ∈ new.foldl (fun acc l => insertFile l acc) old, k ∈ old ∨ k ∈ new) ∧
    ∀ l, (l ∈ old ∨ l ∈ new) → ∃ k ∈ new.foldl (fun acc l => insertFile l acc) old, l.same k = true := by
  induction new with
  | nil => exact fun hs => ⟨hs, fun k hk => .inl hk, fun l hl => ⟨l, hl.resolve_right List.not_mem_nil, same_self l⟩⟩
  | cons x new ih =>
    intro old hs
    obtain ⟨horder, hfrom, hkept⟩ := ih (inOrder_insertFile (l := x) hs)
    refine ⟨horder, fun k hk => ?_, fun l hl => ?_⟩
    · rcases hfrom k hk with h | h
      · rcases (mem_insertFile hs).1 h with rfl | ⟨h, -⟩
        · exact .inr List.mem_cons_self
        · exact .inl h
      · exact .inr (List.mem_cons_of_mem x h)
    · by_cases hx : x.same l = true
      · -- the place is taken over by the newer spelling
        obtain ⟨k, hk, hsame⟩ := hkept x (.inl ((mem_insertFile hs).2 (.inl rfl)))
        exact ⟨k, hk, same_trans (same_symm hx) hsame⟩
      · refine hkept l ?_
        rcases hl with h | h
        · exact .inl ((mem_insertFile hs).2 (.inr ⟨h, Bool.eq_false_iff.2 hx⟩))
        · refine (List.mem_cons.1 h).elim (fun h => absurd (h ▸ same_self x) hx) .inr

theorem inOrder_files (ms : List Mapping) : InOrder (files ms) := (foldl_insertFile _ .nil).1

theorem file_of_mem_files (h : l ∈ files ms) : l ∈ ms.filterMap file :=
  ((foldl_insertFile _ .nil).2.1 l h).resolve_left List.not_mem_nil

theorem exists_mem_files (h : l ∈ ms.filterMap file) : ∃ k ∈ files ms, l.same k = true :=
  (foldl_insertFile _ .nil).2.2 l (.inr h)

theorem file_eq_some {m : Mapping} :
    m.file = some l ↔ ∃ path, m.path = some path ∧ isBracketed path = false ∧ l = ⟨path⟩ := by
  unfold file
  simp only [Option.map_eq_some_iff, Option.filter_eq_some_iff, Bool.not_eq_true']
  constructor
  · rintro ⟨path, ⟨hpath, hb⟩, rfl⟩
    exact ⟨path, hpath, hb, rfl⟩
  · rintro ⟨path, hpath, hb, rfl⟩
    exact ⟨path, ⟨hpath, hb⟩, rfl⟩

/-- **Where no location is spelled in two ways, the files are determined by what is mapped.** -/
theorem files_congr {ms' : List Mapping} (hms : ∀ m, m ∈ ms ↔ m ∈ ms')
    (hone : ∀ l ∈ ms.filterMap file, ∀ k ∈ ms.filterMap file, l.same k = true → l = k) : files ms' = files ms := by
  have hfile : ∀ l, l ∈ ms'.filterMap file ↔ l ∈ ms.filterMap file := fun l => by
    simp only [List.mem_filterMap, hms]
  have hmem : ∀ l, l ∈ files ms' ↔ l ∈ files ms := by
    intro l
    constructor
    · intro h
      have hl := (hfile l).1 (file_of_mem_files h)
      obtain ⟨k, hk, hsame⟩ := exists_mem_files hl
      exact hone l hl k (file_of_mem_files hk) hsame ▸ hk
    · intro h
      have hl := file_of_mem_files h
      obtain ⟨k, hk, hsame⟩ := exists_mem_files ((hfile l).2 hl)
      exact hone l hl k ((hfile k).1 (file_of_mem_files hk)) hsame ▸ hk
  have hnodup : ∀ ms, (files ms).Nodup := fun ms => (inOrder_files ms).imp fun h heq => by
    rw [heq, compare_eq_iff.2 (same_self _)] at h
    cases h
  have hperm : (files ms').Perm (files ms) := (List.perm_ext_iff_of_nodup (hnodup ms') (hnodup ms)).2 hmem
  have hasymm : ∀ a b : Location, a ∈ files ms' → b ∈ files ms → compare a b = .lt → compare b a = .lt → a = b :=
    fun _ _ _ _ hab hba => absurd hba (Std.OrientedCmp.not_lt_of_lt hab)
  exact hperm.eq_of_pairwise hasymm (inOrder_files ms') (inOrder_files ms)

/-! ## Bases -/

/-- The lower of a base and the one that is there. -/
def lowest (base : Address) : Option Address → Address
  | none => base
  | some old => if base < old then base else old

theorem baseOf?_eq_none (h : ∀ e ∈ bs, l.same e.1 = false) : baseOf? l bs = none := by
  unfold baseOf?
  rw [List.find?_eq_none.2 fun e he => Bool.eq_false_iff.1 (h e he)]
  rfl

theorem baseOf?_cons (l k : Location) (b : Address) (bs : List (Location × Address)) :
    baseOf? l ((k, b) :: bs) = if l.same k = true then some b else baseOf? l bs := by
  unfold baseOf?
  rw [List.find?_cons]
  dsimp only
  cases l.same k <;> rfl

/-- **A base put into its place** lowers the base of its own location, and of no other. -/
theorem baseOf?_lowerBase (b : Address) (hs : InOrder (bs.map Prod.fst)) (k : Location) :
    baseOf? k (lowerBase l b bs) = if k.same l = true then some (lowest b (baseOf? k bs)) else baseOf? k bs := by
  induction bs with
  | nil => rw [lowerBase, baseOf?_cons]; rfl
  | cons e bs ih =>
    obtain ⟨x, old⟩ := e
    have hrest := ih (List.pairwise_cons.1 hs).2
    unfold lowerBase
    cases hc : compare l x with
    | lt =>
      simp only
      rw [baseOf?_cons]
      by_cases hk : k.same l = true
      · -- the location is below all that are there
        have hnone : baseOf? k ((x, old) :: bs) = none := baseOf?_eq_none fun e he => by
          have hlt : compare l e.1 = .lt := by
            rcases List.mem_cons.1 he with rfl | he
            · exact hc
            · exact lt_of_head hs (by rw [hc]; decide) e.1 (List.mem_map_of_mem he)
          exact not_same_of_lt (Std.TransCmp.lt_of_eq_of_lt (compare_eq_iff.2 hk) hlt)
        rw [if_pos hk, if_pos hk, hnone]
        rfl
      · rw [if_neg hk, if_neg hk]
    | eq =>
      have hlx := compare_eq_iff.1 hc
      simp only
      rw [baseOf?_cons, baseOf?_cons]
      by_cases hk : k.same l = true
      · rw [if_pos (same_trans hk hlx), if_pos hk, if_pos (same_trans hk hlx)]
        rfl
      · have hkx : ¬ k.same x = true := fun h => hk (same_trans h (same_symm hlx))
        rw [if_neg hkx, if_neg hk, if_neg hkx]
    | gt =>
      simp only
      rw [baseOf?_cons, baseOf?_cons, hrest]
      by_cases hk : k.same l = true
      · have hkx : ¬ k.same x = true := fun h => by
          have := same_trans (same_symm hk) h
          rw [not_same_of_gt hc] at this
          cases this
        rw [if_neg hkx, if_neg hkx]
      · rw [if_neg hk, if_neg hk]

theorem mem_keys_lowerBase {b : Address} (h : k ∈ (lowerBase l b bs).map Prod.fst) : k = l ∨ k ∈ bs.map Prod.fst := by
  induction bs with
  | nil => exact .inl (List.mem_singleton.1 h)
  | cons e bs ih =>
    obtain ⟨x, old⟩ := e
    unfold lowerBase at h
    cases hc : compare l x with
    | lt => simpa [hc] using h
    | eq => simpa [hc] using Or.inr h
    | gt =>
      simp only [hc, List.map_cons, List.mem_cons] at h ⊢
      rcases h with h | h
      · exact .inr (.inl h)
      · exact (ih h).imp_right .inr

theorem inOrder_lowerBase (b : Address) (hs : InOrder (bs.map Prod.fst)) :
    InOrder ((lowerBase l b bs).map Prod.fst) := by
  induction bs with
  | nil => exact List.pairwise_singleton ..
  | cons e bs ih =>
    obtain ⟨x, old⟩ := e
    obtain ⟨hx, hbs⟩ := List.pairwise_cons.1 hs
    unfold lowerBase
    cases hc : compare l x with
    | lt =>
      refine List.pairwise_cons.2 ⟨fun y hy => ?_, hs⟩
      rcases List.mem_cons.1 hy with rfl | hy
      · exact hc
      · exact lt_of_head hs (by rw [hc]; decide) y hy
    | eq => exact hs
    | gt =>
      refine List.pairwise_cons.2 ⟨fun y hy => ?_, ih hbs⟩
      rcases mem_keys_lowerBase hy with rfl | hy
      · exact Std.OrientedCmp.lt_of_gt hc
      · exact hx y hy

/-- What a base is among the heads of files that have been seen: the least start under the location. -/
def IsLowest (hs : List (Location × Address)) (l : Location) : Option Address → Prop
  | none => ∀ e ∈ hs, l.same e.1 = false
  | some a => (∃ e ∈ hs, l.same e.1 = true ∧ e.2 = a) ∧ ∀ e ∈ hs, l.same e.1 = true → a ≤ e.2

theorem IsLowest.step {seen : List (Location × Address)} {best : Option Address} (h : IsLowest seen k best)
    (l : Location) (a : Address) :
    IsLowest (seen ++ [(l, a)]) k (if k.same l = true then some (lowest a best) else best) := by
  by_cases hk : k.same l = true
  · rw [if_pos hk]
    cases best with
    | none =>
      refine ⟨⟨(l, a), by simp, hk, rfl⟩, fun e he hsame => ?_⟩
      rcases List.mem_append.1 he with he | he
      · rw [h e he] at hsame
        cases hsame
      · obtain rfl := List.mem_singleton.1 he
        exact Nat.le_refl _
    | some b =>
      obtain ⟨⟨e, he, hsame, rfl⟩, hleast⟩ := h
      simp only [lowest]
      by_cases hlt : a < e.2
      · rw [if_pos hlt]
        refine ⟨⟨(l, a), by simp, hk, rfl⟩, fun f hf hsame => ?_⟩
        rcases List.mem_append.1 hf with hf | hf
        · exact Nat.le_trans (Nat.le_of_lt hlt) (hleast f hf hsame)
        · obtain rfl := List.mem_singleton.1 hf
          exact Nat.le_refl _
      · rw [if_neg hlt]
        refine ⟨⟨e, List.mem_append_left _ he, hsame, rfl⟩, fun f hf hsame => ?_⟩
        rcases List.mem_append.1 hf with hf | hf
        · exact hleast f hf hsame
        · obtain rfl := List.mem_singleton.1 hf
          exact Nat.le_of_not_lt hlt
  · rw [if_neg hk]
    have hno : k.same l = false := Bool.eq_false_iff.2 hk
    cases best with
    | none =>
      intro e he
      rcases List.mem_append.1 he with he | he
      · exact h e he
      · exact List.mem_singleton.1 he ▸ hno
    | some b =>
      obtain ⟨⟨e, he, hsame, rfl⟩, hleast⟩ := h
      refine ⟨⟨e, List.mem_append_left _ he, hsame, rfl⟩, fun f hf hsame => ?_⟩
      rcases List.mem_append.1 hf with hf | hf
      · exact hleast f hf hsame
      · obtain rfl := List.mem_singleton.1 hf
        exact absurd hsame hk

theorem IsLowest.unique {hs hs' : List (Location × Address)} {x y : Option Address} (hx : IsLowest hs l x)
    (hy : IsLowest hs' l y) (hmem : ∀ e, e ∈ hs ↔ e ∈ hs') : x = y := by
  cases x with
  | none =>
    cases y with
    | none => rfl
    | some b =>
      obtain ⟨⟨e, he, hsame, -⟩, -⟩ := hy
      rw [hx e ((hmem e).2 he)] at hsame
      cases hsame
  | some a =>
    obtain ⟨⟨e, he, hsame, rfl⟩, hleast⟩ := hx
    cases y with
    | none =>
      rw [hy e ((hmem e).1 he)] at hsame
      cases hsame
    | some b =>
      obtain ⟨⟨f, hf, hsame', rfl⟩, hleast'⟩ := hy
      exact congrArg some (Address.ext
        (Nat.le_antisymm (hleast f ((hmem f).2 hf) hsame') (hleast' e ((hmem e).1 he) hsame)))

theorem foldl_lowerBase (new : List (Location × Address)) : ∀ {seen bs : List (Location × Address)},
    InOrder (bs.map Prod.fst) → (∀ k ∈ bs.map Prod.fst, k ∈ seen.map Prod.fst) →
    (∀ k, IsLowest seen k (baseOf? k bs)) →
    InOrder ((new.foldl (fun acc e => lowerBase e.1 e.2 acc) bs).map Prod.fst) ∧
    (∀ k ∈ (new.foldl (fun acc e => lowerBase e.1 e.2 acc) bs).map Prod.fst, k ∈ (seen ++ new).map Prod.fst) ∧
    ∀ k, IsLowest (seen ++ new) k (baseOf? k (new.foldl (fun acc e => lowerBase e.1 e.2 acc) bs)) := by
  induction new with
  | nil =>
    intro seen bs hs hkeys hlow
    rw [List.append_nil]
    exact ⟨hs, hkeys, hlow⟩
  | cons e new ih =>
    intro seen bs hs hkeys hlow
    rw [List.append_cons]
    refine ih (inOrder_lowerBase e.2 hs) (fun k hk => ?_) fun k => ?_
    · rw [List.map_append, List.mem_append]
      exact (mem_keys_lowerBase hk).elim (fun h => .inr (h ▸ List.mem_singleton_self _)) fun h => .inl (hkeys k h)
    · rw [baseOf?_lowerBase e.2 hs]
      exact (hlow k).step e.1 e.2

/-- What the bases are: in order, each a head's location, and each the least start among the heads of its location. -/
theorem bases_spec (ms : List Mapping) :
    InOrder ((bases ms).map Prod.fst) ∧ (∀ k ∈ (bases ms).map Prod.fst, k ∈ (heads ms).map Prod.fst) ∧
    ∀ k, IsLowest (heads ms) k (baseOf? k (bases ms)) :=
  @foldl_lowerBase (heads ms) [] [] List.Pairwise.nil (fun _ h => h) fun _ _ h => (List.not_mem_nil h).elim

theorem mem_heads {a : Address} : (l, a) ∈ heads ms ↔ ∃ m ∈ ms, m.offset = 0 ∧ m.file = some l ∧ m.start = a := by
  unfold heads
  simp only [List.mem_filterMap, List.mem_filter, decide_eq_true_eq, Option.map_eq_some_iff, Prod.mk.injEq]
  constructor
  · rintro ⟨m, ⟨hm, h0⟩, k, hk, rfl, rfl⟩
    exact ⟨m, hm, h0, hk, rfl⟩
  · rintro ⟨m, hm, h0, hk, rfl⟩
    exact ⟨m, ⟨hm, h0⟩, l, hk, rfl, rfl⟩

theorem baseOf?_congr {ms' : List Mapping} (hms : ∀ m, m ∈ ms ↔ m ∈ ms') (l : Location) :
    baseOf? l (bases ms') = baseOf? l (bases ms) := by
  refine ((bases_spec ms').2.2 l).unique ((bases_spec ms).2.2 l) fun e => ?_
  obtain ⟨k, a⟩ := e
  simp only [mem_heads, hms]

end Mapping
end Introspect
