import Introspect.Proofs.Registry.Basic
import Introspect.Registry.Discovery
/-!
# What discovery brings in

Discovery registers the symbols of the files that are mapped and have not been looked at.  A record whose kind and name
none of them defines (`Claims`) stays as it is, and looking at the files again never defines more.
-/
namespace Introspect
namespace Registry

variable {r r' : Registry} {files : Storage} {key : SymbolKey}

/-- An image that is mapped and has not been looked at defines a symbol with this kind and name. -/
structure Claims (r : Registry) (files : Storage) (key : SymbolKey) (ms : List Mapping) (l : Location) (bytes : Bytes)
    (bias : Address) (s : Symbol) : Prop where
  mapped : files.mappings r.mapsPath = .ok ms
  file : l ∈ Mapping.files ms
  unseen : r.isIndexed l = false
  content : files.read l.text = .ok bytes
  defined : s ∈ Image.symbols bytes bias
  key : s.key = key

def Claimed (r : Registry) (files : Storage) (key : SymbolKey) (s : Symbol) : Prop :=
  ∃ ms l bytes bias, r.Claims files key ms l bytes bias s

def Unclaimed (r : Registry) (files : Storage) (key : SymbolKey) : Prop :=
  ∀ ms l bytes bias s, ¬ r.Claims files key ms l bytes bias s

/-- A later registry: it reads the same memory map, and has looked at what the earlier one has. -/
structure Onward (r r' : Registry) : Prop where
  mapsPath : r'.mapsPath = r.mapsPath
  indexed : ∀ l, r.isIndexed l = true → r'.isIndexed l = true

theorem Onward.refl (r : Registry) : r.Onward r := ⟨rfl, fun _ h => h⟩

theorem Onward.trans {r'' : Registry} (h : r.Onward r') (h' : r'.Onward r'') : r.Onward r'' :=
  ⟨h'.mapsPath.trans h.mapsPath, fun l hl => h'.indexed l (h.indexed l hl)⟩

theorem Claims.earlier {ms : List Mapping} {l : Location} {bytes : Bytes} {bias : Address} {s : Symbol}
    (hc : r'.Claims files key ms l bytes bias s) (h : r.Onward r') : r.Claims files key ms l bytes bias s where
  mapped := h.mapsPath ▸ hc.mapped
  file := hc.file
  unseen := by
    cases hl : r.isIndexed l with
    | false => rfl
    | true => exact absurd (h.indexed l hl) (by rw [hc.unseen]; decide)
  content := hc.content
  defined := hc.defined
  key := hc.key

theorem Claimed.earlier {s : Symbol} (hc : r'.Claimed files key s) (h : r.Onward r') : r.Claimed files key s := by
  obtain ⟨ms, l, bytes, bias, hc⟩ := hc
  exact ⟨ms, l, bytes, bias, hc.earlier h⟩

theorem Unclaimed.onward (hu : r.Unclaimed files key) (h : r.Onward r') : r'.Unclaimed files key :=
  fun ms l bytes bias s hc => hu ms l bytes bias s (hc.earlier h)

theorem Unclaimed.not_claimed {s : Symbol} (hu : r.Unclaimed files key) : ¬ r.Claimed files key s := by
  rintro ⟨ms, l, bytes, bias, hc⟩
  exact hu ms l bytes bias s hc

/-- Looking at a file marks it, and registers what the image in it defines, if it is one. -/
theorem indexFile_snd (r : Registry) (files : Storage) (l : Location) (base : Option Address) :
    (r.indexFile files l base).2 = r.markIndexed l ∨ ∃ bytes bias, files.read l.text = .ok bytes ∧
      (r.indexFile files l base).2 = (Image.symbols bytes bias).foldl register (r.markIndexed l) := by
  unfold indexFile
  cases hb : files.read l.text with
  | error e => exact .inl rfl
  | ok bytes =>
    dsimp only [indexImage?]
    cases Image.header? bytes with
    | none => exact .inl rfl
    | some header => exact .inr ⟨bytes, _, rfl, rfl⟩

theorem indexMapped_snd (files : Storage) (bases : List (Location × Address)) (report : Report) (r : Registry)
    (l : Location) : (indexMapped files bases (report, r) l).2 =
      if r.isIndexed l then r else (r.indexFile files l (Mapping.baseOf? l bases)).2 := by
  simp only [indexMapped]
  split <;> rfl

theorem onward_indexFile (r : Registry) (files : Storage) (l : Location) (base : Option Address) :
    r.Onward (r.indexFile files l base).2 := by
  have hmark : r.Onward (r.markIndexed l) := ⟨mapsPath_markIndexed r l, fun _ h => isIndexed_markIndexed h⟩
  rcases indexFile_snd r files l base with h | ⟨bytes, bias, -, h⟩
  · rw [h]
    exact hmark
  · rw [h]
    refine hmark.trans ⟨mapsPath_foldl_register .., fun k hk => ?_⟩
    rw [isIndexed, indexed_foldl_register]
    exact hk

/-- Looking at a file leaves a record as it was, or puts one there that the file defines. -/
theorem get?_indexFile (r : Registry) (files : Storage) (l : Location) (base : Option Address) (name : String)
    (kind : SymbolKind) : (r.indexFile files l base).2.get? name kind = r.get? name kind ∨
      ∃ bytes bias s, files.read l.text = .ok bytes ∧ s ∈ Image.symbols bytes bias ∧ s.key = (kind, name) ∧
        (r.indexFile files l base).2.get? name kind = some s := by
  rcases indexFile_snd r files l base with h | ⟨bytes, bias, hb, h⟩
  · rw [h, get?_markIndexed]
    exact .inl rfl
  · rw [h]
    rcases get?_foldl_register (r.markIndexed l) (Image.symbols bytes bias) name kind with h | ⟨s, hs, hkey, h⟩
    · exact .inl (h.trans (get?_markIndexed ..))
    · exact .inr ⟨bytes, bias, s, hb, hs, hkey, h⟩

/-- **Discovery leaves a record as it was, or puts one there that an image claims.** -/
theorem tryRefresh_records {report : Report} (ht : r.tryRefresh files = .ok (report, r')) :
    r.Onward r' ∧ ∀ name kind, r'.get? name kind = r.get? name kind ∨
      ∃ s, r.Claimed files (kind, name) s ∧ r'.get? name kind = some s := by
  unfold tryRefresh at ht
  cases hm : files.mappings r.mapsPath with
  | error e => rw [hm] at ht; cases ht
  | ok ms =>
    rw [hm] at ht
    obtain rfl := congrArg Prod.snd (Except.ok.inj ht)
    -- the files one after the other, each looked at by a later registry than the last one
    suffices hstep : ∀ (ls : List Location) (done : Report × Registry), (∀ l ∈ ls, l ∈ Mapping.files ms) →
        r.Onward done.2 → r.Onward (ls.foldl (indexMapped files (Mapping.bases ms)) done).2 ∧
        ∀ name kind, (ls.foldl (indexMapped files (Mapping.bases ms)) done).2.get? name kind = done.2.get? name kind ∨
          ∃ s, r.Claimed files (kind, name) s ∧
            (ls.foldl (indexMapped files (Mapping.bases ms)) done).2.get? name kind = some s from
      hstep _ ({}, r) (fun _ h => h) (.refl r)
    intro ls
    induction ls with
    | nil => exact fun done _ ho => ⟨ho, fun _ _ => .inl rfl⟩
    | cons l ls ih =>
      rintro ⟨report, k⟩ hls ho
      have hone : k.Onward (indexMapped files (Mapping.bases ms) (report, k) l).2 ∧
          ∀ name kind, (indexMapped files (Mapping.bases ms) (report, k) l).2.get? name kind = k.get? name kind ∨
            ∃ s, r.Claimed files (kind, name) s ∧
              (indexMapped files (Mapping.bases ms) (report, k) l).2.get? name kind = some s := by
        rw [indexMapped_snd]
        by_cases hl : k.isIndexed l = true
        · rw [if_pos hl]
          exact ⟨.refl k, fun _ _ => .inl rfl⟩
        · rw [if_neg hl]
          refine ⟨onward_indexFile .., fun name kind => ?_⟩
          rcases get?_indexFile k files l (Mapping.baseOf? l (Mapping.bases ms)) name kind with
            h | ⟨bytes, bias, s, hb, hs, hkey, h⟩
          · exact .inl h
          · have hclaim : k.Claims files (kind, name) ms l bytes bias s :=
              ⟨ho.mapsPath ▸ hm, hls l List.mem_cons_self, by simpa using hl, hb, hs, hkey⟩
            exact .inr ⟨s, ⟨ms, l, bytes, bias, hclaim.earlier ho⟩, h⟩
      obtain ⟨h1, h2⟩ := ih (indexMapped files (Mapping.bases ms) (report, k) l)
        (fun x hx => hls x (List.mem_cons_of_mem _ hx)) (ho.trans hone.1)
      refine ⟨h1, fun name kind => ?_⟩
      rcases h2 name kind with h | h
      · rw [List.foldl_cons, h]
        exact hone.2 name kind
      · rw [List.foldl_cons]
        exact .inr h

end Registry
end Introspect
