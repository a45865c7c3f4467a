import Introspect.Proofs.Image.Writer
import Introspect.Proofs.Registry.Refresh
/-!
# A refresh, file by file

A file can be looked at by itself.  Its load base is then taken from the memory map as it is at that moment, and whether
it has been looked at is asked at that moment too; a refresh has taken all bases before the first file.  While the memory
map does not change this makes no difference, since nothing that is registered touches the place of the memory map: one
file looked at by itself is one step of the loop, and a refresh is the mapped files looked at one by one
(`refresh_one_by_one`).
-/
namespace Introspect
namespace Registry

variable {r : Registry} {files : Storage} {ms : List Mapping}

/-- Look at one more file, and add what is counted to what was counted before. -/
def refreshNext (files : Storage) (done : Report × Registry) (l : Location) : Report × Registry :=
  (done.1 + (done.2.refreshPath files l).1, (done.2.refreshPath files l).2)

/-- Look at one file after the other, each by itself, and count them all. -/
def refreshEach (r : Registry) (files : Storage) (ls : List Location) : Report × Registry :=
  ls.foldl (refreshNext files) ({}, r)

theorem refreshPath_of_seen {l : Location} (h : r.isIndexed l = true) (files : Storage) :
    r.refreshPath files l = ({}, r) := if_pos h

theorem mapsPath_refreshPath (r : Registry) (files : Storage) (l : Location) :
    (r.refreshPath files l).2.mapsPath = r.mapsPath := by
  unfold refreshPath
  split
  · rfl
  · exact (onward_indexFile ..).mapsPath

/-- **One file by itself is one step of the loop** over the files of the memory map. -/
theorem indexMapped_eq_refreshNext (hms : files.mappings r.mapsPath = .ok ms) (report : Report) (l : Location) :
    indexMapped files (Mapping.bases ms) (report, r) l = refreshNext files (report, r) l := by
  unfold refreshNext
  by_cases hseen : r.isIndexed l = true
  · rw [refreshPath_of_seen hseen]
    simp only [indexMapped, if_pos hseen]
    rfl
  · simp only [indexMapped, refreshPath, if_neg hseen, hms]

theorem foldl_indexMapped_eq (hms : files.mappings r.mapsPath = .ok ms) (ls : List Location) (report : Report) :
    ls.foldl (indexMapped files (Mapping.bases ms)) (report, r) = ls.foldl (refreshNext files) (report, r) := by
  induction ls generalizing report r with
  | nil => rfl
  | cons l ls ih =>
    rw [List.foldl_cons, List.foldl_cons, indexMapped_eq_refreshNext hms]
    -- the next file is looked at with the same memory map
    exact ih (mapsPath_refreshPath r files l ▸ hms) _

/-- After a refresh every mapped file has been looked at, in whatever spelling. -/
theorem isIndexed_of_mapped {found : List (Option (List Symbol))} {k l : Location} (hk : k ∈ Mapping.files ms)
    (hsame : l.same k = true) : (r.looked (r.unseenOf ms) found).isIndexed l = true := by
  rw [isIndexed_congr hsame]
  have hnone : (r.looked (r.unseenOf ms) found).unseenOf ms = [] := unseenOf_looked
  simpa using List.filter_eq_nil_iff.1 hnone k hk

/-- **A refresh is the mapped files looked at one by one**: it leaves the same registry, and reports what they report
together.  None of them has to be looked at afterwards, in whatever spelling and whatever has become of the files. -/
theorem refresh_one_by_one (hms : files.mappings r.mapsPath = .ok ms) :
    ∃ report r', r.tryRefresh files = .ok (report, r') ∧ r.refreshEach files (Mapping.files ms) = (report, r') ∧
      ∀ (later : Storage) (k l : Location), k ∈ Mapping.files ms → l.same k = true →
        r'.refreshPath later l = ({}, r') := by
  have hrefresh : r.tryRefresh files = .ok (r.refreshEach files (Mapping.files ms)) := by
    unfold tryRefresh refreshEach
    rw [hms, ← foldl_indexMapped_eq hms]
    rfl
  refine ⟨_, _, tryRefresh_eq hms, ?_, fun later k l hk hsame => refreshPath_of_seen (isIndexed_of_mapped hk hsame) later⟩
  rw [tryRefresh_eq hms] at hrefresh
  exact (Except.ok.inj hrefresh).symm

/-- Two images with the same function, of which one has no mapping at offset zero, and a file that is missing. -/
def halfLoaded : Storage where
  nodes := [
    ([.name "maps".toList], .file (Text.toUtf8
      "5000-6000 r 0 0:0 0 lib\n1000-2000 r 2 0:0 0 app\n8000-9000 r 0 0:0 0 gone\n3000-4000 r 0 0:0 0 lib\n").toArray),
    ([.name "app".toList], .file (Image.layOut 3 [⟨"_Y4main1fFZv", 0x12, 0x10, 16⟩, ⟨"_Y4main1gFZv", 0x12, 0x30, 16⟩])),
    ([.name "lib".toList], .file (Image.layOut 3 [⟨"_Y4main1fFZv", 0x12, 0x20, 16⟩]))]

/-- The function that both define is the later one's, at its load base; the other stays where it was linked. -/
theorem refresh_one_by_one_half : ∃ report r',
    ({ mapsPath := "maps" } : Registry).tryRefresh halfLoaded = .ok (report, r') ∧
      ({ mapsPath := "maps" } : Registry).refreshEach halfLoaded [⟨"app"⟩, ⟨"gone"⟩, ⟨"lib"⟩] = (report, r') ∧
      report = { indexed := 2, skipped := 1, symbols := 3 } ∧
      r'.lookup "_Y4main1fFZv" .function = some (.ofNat 0x3020) ∧
      r'.lookup "_Y4main1gFZv" .function = some (.ofNat 0x30) ∧ r'.refreshPath {} ⟨"lib//."⟩ = ({}, r') := by
  have hms : halfLoaded.mappings "maps" = .ok [
      ⟨.ofNat 0x5000, .ofNat 0x6000, "r", 0, some "lib"⟩, ⟨.ofNat 0x1000, .ofNat 0x2000, "r", 2, some "app"⟩,
      ⟨.ofNat 0x8000, .ofNat 0x9000, "r", 0, some "gone"⟩, ⟨.ofNat 0x3000, .ofNat 0x4000, "r", 0, some "lib"⟩] := by
    decide +kernel
  obtain ⟨report, r', hr, heach, hagain⟩ := @refresh_one_by_one { mapsPath := "maps" } halfLoaded _ hms
  have hrun : (({ mapsPath := "maps" } : Registry).tryRefresh halfLoaded).map (fun done =>
      (done.1, done.2.lookup "_Y4main1fFZv" .function, done.2.lookup "_Y4main1gFZv" .function)) =
        .ok ({ indexed := 2, skipped := 1, symbols := 3 }, some (.ofNat 0x3020), some (.ofNat 0x30)) := by decide +kernel
  rw [hr] at hrun
  obtain ⟨hreport, hf, hg⟩ := Prod.mk.inj (Except.ok.inj hrun) |>.imp_right Prod.mk.inj
  refine ⟨report, r', hr, heach, hreport, hf, hg, hagain {} ⟨"lib"⟩ ⟨"lib//."⟩ (by decide +kernel) (by decide +kernel)⟩

end Registry
end Introspect
