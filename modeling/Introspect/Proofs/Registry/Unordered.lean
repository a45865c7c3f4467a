import Introspect.Proofs.Image.Writer
import Introspect.Proofs.Registry.Refresh
/-!
# The order of a memory map

The files of a memory map and their load bases are sets: what stands in them depends on which mappings there are, not on
how they follow each other (`Mapping.surveyed`).  The files are looked at in the order of locations, which is the same
for the same set.  So two memory maps with the same mappings lead a refresh to the same registry, although a symbol that
two files define is the later one's.  Only the spelling of a location can tell them apart: it is the last line's.
-/
namespace Introspect
namespace Mapping

/-- A file is mapped from its beginning, starting at `a`. -/
def LoadedAt (ms : List Mapping) (l : Location) (a : Address) : Prop :=
  ∃ m ∈ ms, m.offset = 0 ∧ m.start = a ∧ ∃ k, m.file = some k ∧ l.same k = true

/-- The files of a memory map are those with a path that is not in brackets, each once; the bases are there for those
that are mapped from their beginning, and each is the least start. -/
structure Surveyed (ms : List Mapping) : Prop where
  inOrder_files : Location.InOrder (files ms)
  mapped : ∀ l : Location, (∃ k ∈ files ms, l.same k = true) ↔
    ∃ m ∈ ms, ∃ path, m.path = some path ∧ isBracketed path = false ∧ l.same ⟨path⟩ = true
  inOrder_bases : Location.InOrder ((bases ms).map Prod.fst)
  based : ∀ l, (baseOf? l (bases ms)).isSome = true ↔ ∃ a, LoadedAt ms l a
  least : ∀ l a, baseOf? l (bases ms) = some a ↔ LoadedAt ms l a ∧ ∀ b, LoadedAt ms l b → a ≤ b
  keys : ∀ k ∈ (bases ms).map Prod.fst, ∃ l ∈ files ms, k.same l = true
  unbracketed : ∀ l, l ∈ files ms ∨ l ∈ (bases ms).map Prod.fst → isBracketed l.text = false

variable {ms : List Mapping} {l : Location}

theorem loadedAt_iff {a : Address} : LoadedAt ms l a ↔ ∃ e ∈ heads ms, l.same e.1 = true ∧ e.2 = a := by
  constructor
  · rintro ⟨m, hm, h0, ha, k, hk, hsame⟩
    exact ⟨(k, a), mem_heads.2 ⟨m, hm, h0, hk, ha⟩, hsame, rfl⟩
  · rintro ⟨⟨k, b⟩, he, hsame, rfl⟩
    obtain ⟨m, hm, h0, hk, hb⟩ := mem_heads.1 he
    exact ⟨m, hm, h0, hb, k, hk, hsame⟩

theorem mem_file_of_mem_keys {k : Location} (h : k ∈ (bases ms).map Prod.fst) : k ∈ ms.filterMap file := by
  obtain ⟨e, he, rfl⟩ := List.mem_map.1 ((bases_spec ms).2.1 k h)
  obtain ⟨m, hm, -, hk, -⟩ := mem_heads.1 he
  exact List.mem_filterMap.2 ⟨m, hm, hk⟩

theorem not_bracketed_of_file (h : l ∈ ms.filterMap file) : isBracketed l.text = false := by
  obtain ⟨m, -, hm⟩ := List.mem_filterMap.1 h
  obtain ⟨path, -, hb, rfl⟩ := file_eq_some.1 hm
  exact hb

theorem baseOf?_eq_some_iff {a : Address} :
    baseOf? l (bases ms) = some a ↔ LoadedAt ms l a ∧ ∀ b, LoadedAt ms l b → a ≤ b := by
  have hlow := (bases_spec ms).2.2 l
  simp only [loadedAt_iff]
  constructor
  · intro h
    rw [h] at hlow
    refine ⟨hlow.1, ?_⟩
    rintro b ⟨e, he, hsame, rfl⟩
    exact hlow.2 e he hsame
  · rintro ⟨hat, hleast⟩
    have hlowest : IsLowest (heads ms) l (some a) := ⟨hat, fun e he hsame => hleast e.2 ⟨e, he, hsame, rfl⟩⟩
    exact hlow.unique hlowest fun _ => Iff.rfl

theorem isSome_baseOf?_iff : (baseOf? l (bases ms)).isSome = true ↔ ∃ a, LoadedAt ms l a := by
  have hlow := (bases_spec ms).2.2 l
  simp only [loadedAt_iff]
  cases h : baseOf? l (bases ms) with
  | none =>
    rw [h] at hlow
    refine ⟨fun hnone => (Bool.false_ne_true hnone).elim, ?_⟩
    rintro ⟨a, e, he, hsame, -⟩
    rw [hlow e he] at hsame
    exact hsame
  | some a =>
    rw [h] at hlow
    exact ⟨fun _ => ⟨a, hlow.1⟩, fun _ => rfl⟩

theorem surveyed (ms : List Mapping) : Surveyed ms where
  inOrder_files := Mapping.inOrder_files ms
  mapped := fun l => by
    constructor
    · rintro ⟨k, hk, hsame⟩
      obtain ⟨m, hm, hfile⟩ := List.mem_filterMap.1 (file_of_mem_files hk)
      obtain ⟨path, hpath, hb, rfl⟩ := file_eq_some.1 hfile
      exact ⟨m, hm, path, hpath, hb, hsame⟩
    · rintro ⟨m, hm, path, hpath, hb, hsame⟩
      have hfile : (⟨path⟩ : Location) ∈ ms.filterMap file :=
        List.mem_filterMap.2 ⟨m, hm, file_eq_some.2 ⟨path, hpath, hb, rfl⟩⟩
      obtain ⟨k, hk, hsame'⟩ := exists_mem_files hfile
      exact ⟨k, hk, Location.same_trans hsame hsame'⟩
  inOrder_bases := (bases_spec ms).1
  based := fun _ => isSome_baseOf?_iff
  least := fun _ _ => baseOf?_eq_some_iff
  keys := fun _ h => exists_mem_files (mem_file_of_mem_keys h)
  unbracketed := fun _ h => not_bracketed_of_file (h.elim file_of_mem_files mem_file_of_mem_keys)

end Mapping

namespace Registry

/-- What is registered does not depend on where the memory map is. -/
theorem foldl_register_mapsPath (ss : List Symbol) : ∀ (r : Registry) (mapsPath : String),
    ss.foldl register { r with mapsPath } = { ss.foldl register r with mapsPath } := by
  induction ss with
  | nil => exact fun _ _ => rfl
  | cons s ss ih =>
    intro r mapsPath
    have hone : register { r with mapsPath } s = { r.register s with mapsPath } := by
      unfold register
      cases r.symbols.get? s.key <;> rfl
    rw [List.foldl_cons, hone, ih, List.foldl_cons]

/-- **Discovery does not depend on the order of a memory map**, nor on how often a mapping stands in it. -/
theorem discovery_unordered :
    (∀ ms, Mapping.Surveyed ms) ∧
    ∀ (r : Registry) (mapsPath : String) (files files' : Storage) (ms ms' : List Mapping),
      files.mappings r.mapsPath = .ok ms → files'.mappings mapsPath = .ok ms' → (∀ m, m ∈ ms ↔ m ∈ ms') →
      (∀ l ∈ ms.filterMap Mapping.file, ∀ k ∈ ms.filterMap Mapping.file, l.same k = true → l = k) →
      (∀ l ∈ ms.filterMap Mapping.file, r.isIndexed l = false → files'.read l.text = files.read l.text) →
      ∃ report r', r.tryRefresh files = .ok (report, r') ∧
        ({ r with mapsPath } : Registry).tryRefresh files' = .ok (report, { r' with mapsPath }) := by
  refine ⟨Mapping.surveyed, fun r mapsPath files files' ms ms' hms hms' hmem hone hfiles => ?_⟩
  have hunseen : r.unseenOf ms' = r.unseenOf ms := congrArg r.unseen (Mapping.files_congr hmem hone)
  have hfound : r.foundIn files' ms' = r.foundIn files ms := by
    rw [← foundIn_congr hfiles, foundIn, foundIn, hunseen, funext (Mapping.baseOf?_congr hmem)]
  refine ⟨_, _, tryRefresh_eq hms, ?_⟩
  have hlooked : looked { r with mapsPath } (r.unseenOf ms) (r.foundIn files ms) =
      { r.looked (r.unseenOf ms) (r.foundIn files ms) with mapsPath } := by
    rw [looked, foldl_register_mapsPath]
    rfl
  rw [← hlooked, ← hfound, ← hunseen]
  exact tryRefresh_eq hms'

/-- A location in two spellings is spelled as in its last line, and with a slash behind its name a file is not found. -/
example : Mapping.files [⟨.null, .null, "r", 0, some "lib"⟩, ⟨.null, .null, "r", 0, some "lib/"⟩] = [⟨"lib/"⟩] ∧
    Mapping.files [⟨.null, .null, "r", 0, some "lib/"⟩, ⟨.null, .null, "r", 0, some "lib"⟩] = [⟨"lib"⟩] := by
  decide +kernel

/-- Two images that define the same function, and two memory maps that hold them. -/
def twiceDefined : Storage where
  nodes := [
    ([.name "maps".toList], .file (Text.toUtf8
      "1000-2000 r 0 0:0 0 lib\n5000-6000 r 0 0:0 0 app\n3000-4000 r 0 0:0 0 app\n").toArray),
    ([.name "others".toList], .file (Text.toUtf8
      "3000-4000 r 0 0:0 0 app\n5000-6000 r 0 0:0 0 app\n3000-4000 r 0 0:0 0 app\n1000-2000 r 0 0:0 0 lib\n").toArray),
    ([.name "app".toList], .file (Image.layOut 3 [⟨"_Y4main1fFZv", 0x12, 0x10, 16⟩])),
    ([.name "lib".toList], .file (Image.layOut 3 [⟨"_Y4main1fFZv", 0x12, 0x20, 16⟩]))]

/-- In both orders it is the image with the later location that has the function. -/
theorem discovery_unordered_twice : ∃ report r',
    ({ mapsPath := "maps" } : Registry).tryRefresh twiceDefined = .ok (report, r') ∧
      ({ mapsPath := "others" } : Registry).tryRefresh twiceDefined = .ok (report, { r' with mapsPath := "others" }) ∧
      r'.lookup "_Y4main1fFZv" .function = some (.ofNat 0x1020) := by
  let lib : Mapping := ⟨.ofNat 0x1000, .ofNat 0x2000, "r", 0, some "lib"⟩
  let high : Mapping := ⟨.ofNat 0x5000, .ofNat 0x6000, "r", 0, some "app"⟩
  let low : Mapping := ⟨.ofNat 0x3000, .ofNat 0x4000, "r", 0, some "app"⟩
  have hms : twiceDefined.mappings "maps" = .ok [lib, high, low] := by decide +kernel
  have hms' : twiceDefined.mappings "others" = .ok [low, high, low, lib] := by decide +kernel
  have hforth : ∀ m ∈ [lib, high, low], m ∈ [low, high, low, lib] := by decide +kernel
  have hback : ∀ m ∈ [low, high, low, lib], m ∈ [lib, high, low] := by decide +kernel
  have hone : ∀ l ∈ [lib, high, low].filterMap Mapping.file, ∀ k ∈ [lib, high, low].filterMap Mapping.file,
    l.same k = true → l = k := by decide +kernel
  obtain ⟨report, r', hr, hr'⟩ := discovery_unordered.2 { mapsPath := "maps" } "others" twiceDefined twiceDefined _ _
    hms hms' (fun m => ⟨hforth m, hback m⟩) hone fun _ _ _ => rfl
  refine ⟨report, r', hr, hr', ?_⟩
  have hlookup : (({ mapsPath := "maps" } : Registry).tryRefresh twiceDefined).map
      (·.2.lookup "_Y4main1fFZv" .function) = .ok (some (.ofNat 0x1020)) := by decide +kernel
  rw [hr] at hlookup
  exact Except.ok.inj hlookup

end Registry
end Introspect
