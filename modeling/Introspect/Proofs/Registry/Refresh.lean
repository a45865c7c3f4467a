import Introspect.Proofs.Action
import Introspect.Proofs.Image.Writer
import Introspect.Proofs.Mapping.Files
import Introspect.Proofs.Mapping.Text
import Introspect.Proofs.Registry.Discovery
import Mathlib.Data.List.Dedup
import Mathlib.Data.List.Perm.Basic
/-!
# What a refresh does

A refresh goes through the mapped files in the order of locations.  A file that has been looked at is passed over; any
other is marked, and then it is read.  Since no location comes twice, whether a file is looked at is settled before the
first one is read (`unseen`), and the whole loop is one equation (`tryRefresh_eq`): the unseen files are marked, what
their images define is registered in that order, and each of them is counted once.  All that is known of a refresh, what
it counts, what it looks at, and that a second one has nothing to do, is read off that equation.
-/
namespace Introspect

/-- What the image in a file defines, with its load base added where it can be loaded anywhere; `none` where the file
cannot be read or holds no image. -/
def Storage.defined? (files : Storage) (base : Location → Option Address) (l : Location) : Option (List Symbol) := do
  let bytes ← (files.read l.text).toOption
  let header ← Image.header? bytes
  return Image.symbols bytes (if header.isRelocatable then (base l).getD .null else .null)

theorem Storage.defined?_eq_none_iff {files : Storage} {base : Location → Option Address} {l : Location} :
    files.defined? base l = none ↔
      (∃ e, files.read l.text = .error e) ∨ ∃ bytes, files.read l.text = .ok bytes ∧ Image.header? bytes = none := by
  unfold defined?
  cases hread : files.read l.text with
  | error e => simp [Except.toOption]
  | ok bytes => cases hheader : Image.header? bytes <;> simp [Except.toOption, hheader]

/-- The text in a file. -/
def Storage.text (files : Storage) (path : String) : Except FileFailure String := do
  match Text.ofUtf8? (← files.read path).toList with
  | some text => .ok text
  | none => .error .notText

/-- What is counted when files have been looked at. -/
def Report.count (found : List (Option (List Symbol))) : Report where
  indexed := found.countP Option.isSome
  skipped := found.countP Option.isNone
  symbols := (found.flatMap (·.getD [])).length

theorem Report.add_mk (a b : Report) :
    a + b = ⟨a.indexed + b.indexed, a.skipped + b.skipped, a.symbols + b.symbols⟩ := rfl

theorem Report.zero_add (a : Report) : ({} : Report) + a = a := by
  simp only [Report.add_mk, Nat.zero_add]

theorem Report.add_assoc (a b c : Report) : a + b + c = a + (b + c) := by
  simp only [Report.add_mk, Nat.add_assoc]

theorem Report.count_cons (x : Option (List Symbol)) (found : List (Option (List Symbol))) :
    count (x :: found) = count [x] + count found := by
  cases x <;> simp [count, Report.add_mk, Nat.add_comm]

theorem Report.count_files (found : List (Option (List Symbol))) :
    (Report.count found).indexed + (Report.count found).skipped = found.length := by
  have hnone : found.countP Option.isNone = found.countP (¬ Option.isSome · = true) :=
    List.countP_congr fun x _ => by cases x <;> simp
  show found.countP _ + found.countP _ = _
  rw [hnone, ← List.length_eq_countP_add_countP]

/-- **A memory map can be had exactly if its file is text.** -/
theorem Storage.mappings_text (files : Storage) (path : String) :
    match files.text path with
    | .error e => files.mappings path = .error (.memoryMapUnavailable path e.message)
    | .ok _ => ∃ ms, files.mappings path = .ok ms := by
  unfold Storage.text mappings
  cases files.read path with
  | error e => rfl
  | ok bytes =>
    have htext := @Mapping.isSome_ofBytes?_iff bytes.toList
    dsimp only [bind, Except.bind]
    cases hbytes : Text.ofUtf8? bytes.toList <;> cases hms : Mapping.ofBytes? bytes.toList <;>
      simp_all

namespace Registry

variable {r : Registry} {files : Storage} {ms : List Mapping}

/-! ## One file -/

theorem isIndexed_iff {l : Location} : r.isIndexed l = true ↔ ∃ k ∈ r.indexed, l.same k = true := List.any_eq_true

theorem markIndexed_of_unseen {l : Location} (h : r.isIndexed l = false) :
    r.markIndexed l = { r with indexed := l :: r.indexed } := by
  unfold markIndexed
  rw [if_neg (by rw [h]; decide)]

/-- **Looking at a file** marks it, registers what its image defines, and counts it. -/
theorem indexFile_eq (r : Registry) (files : Storage) (base : Location → Option Address) (l : Location) :
    r.indexFile files l (base l) =
      (.count [files.defined? base l], ((files.defined? base l).getD []).foldl register (r.markIndexed l)) := by
  unfold indexFile Storage.defined?
  cases hread : files.read l.text with
  | error e => rfl
  | ok bytes =>
    cases hheader : Image.header? bytes with
    | none => simp [indexImage?, hheader, Report.count, Except.toOption]
    | some header => simp [indexImage?, hheader, Report.count, Except.toOption]

theorem register_with (r : Registry) (indexed : List Location) (s : Symbol) :
    register { r with indexed } s = { r.register s with indexed } := by
  unfold register
  cases r.symbols.get? s.key <;> rfl

/-- What is registered does not depend on what has been looked at. -/
theorem foldl_register_with (ss : List Symbol) : ∀ (r : Registry) (indexed : List Location),
    ss.foldl register { r with indexed } = { ss.foldl register r with indexed } := by
  induction ss with
  | nil => exact fun _ _ => rfl
  | cons s ss ih =>
    intro r indexed
    rw [List.foldl_cons, register_with, ih, List.foldl_cons]

/-! ## The loop -/

/-- The files among these that have not been looked at. -/
def unseen (r : Registry) (ls : List Location) : List Location := ls.filter (!r.isIndexed ·)

theorem mem_unseen {ls : List Location} {l : Location} : l ∈ r.unseen ls ↔ l ∈ ls ∧ r.isIndexed l = false := by
  unfold unseen
  rw [List.mem_filter, Bool.not_eq_true']

theorem unseen_cons_seen {l : Location} (h : r.isIndexed l = true) (ls : List Location) :
    r.unseen (l :: ls) = r.unseen ls := by
  unfold unseen
  rw [List.filter_cons_of_neg (by rw [h]; decide)]

theorem unseen_cons {l : Location} (h : r.isIndexed l = false) (ls : List Location) :
    r.unseen (l :: ls) = l :: r.unseen ls := by
  unfold unseen
  rw [List.filter_cons_of_pos (by rw [h]; rfl)]

/-- What looking at one file leaves unseen of others. -/
theorem unseen_marked {k : Registry} {l : Location} {ls : List Location} (hk : k.indexed = l :: r.indexed)
    (hne : ∀ x ∈ ls, x.same l = false) : k.unseen ls = r.unseen ls :=
  List.filter_congr fun x hx => by
    unfold isIndexed
    rw [hk, List.any_cons, hne x hx, Bool.false_or]

/-- The registry after these files were looked at, with what was found in them. -/
def looked (r : Registry) (ls : List Location) (found : List (Option (List Symbol))) : Registry :=
  { (found.flatMap (·.getD [])).foldl register r with indexed := ls.reverse ++ r.indexed }

/-- **The loop over the files**: those that were not looked at are, each once and in their order. -/
theorem foldl_indexMapped (files : Storage) (bases : List (Location × Address)) : ∀ (ls : List Location),
    ls.Pairwise (fun a b => b.same a = false) → ∀ (report : Report) (r : Registry),
    ls.foldl (indexMapped files bases) (report, r) =
      (report + .count ((r.unseen ls).map (files.defined? (Mapping.baseOf? · bases))),
        r.looked (r.unseen ls) ((r.unseen ls).map (files.defined? (Mapping.baseOf? · bases)))) := by
  intro ls
  induction ls with
  | nil => exact fun _ report r => rfl
  | cons l ls ih =>
    intro hd report r
    obtain ⟨hl, hls⟩ := List.pairwise_cons.1 hd
    rw [List.foldl_cons]
    by_cases hseen : r.isIndexed l = true
    · have hstep : indexMapped files bases (report, r) l = (report, r) := by
        simp only [indexMapped, if_pos hseen]
      rw [hstep, ih hls, unseen_cons_seen hseen]
    · have hunseen : r.isIndexed l = false := Bool.eq_false_iff.2 hseen
      generalize hx : files.defined? (Mapping.baseOf? · bases) l = x
      have hstep : indexMapped files bases (report, r) l =
          (report + .count [x], { (x.getD []).foldl register r with indexed := l :: r.indexed }) := by
        simp only [indexMapped, if_neg hseen]
        rw [indexFile_eq r files (Mapping.baseOf? · bases) l, hx, markIndexed_of_unseen hunseen, foldl_register_with]
      rw [hstep, ih hls, unseen_marked rfl hl, unseen_cons hunseen, List.map_cons, hx,
        Report.count_cons x (List.map _ _), Report.add_assoc]
      refine Prod.ext rfl ?_
      simp only [looked, List.flatMap_cons, List.foldl_append, List.reverse_cons, List.append_assoc,
        List.singleton_append, foldl_register_with]

/-- The files of a memory map that have not been looked at. -/
def unseenOf (r : Registry) (ms : List Mapping) : List Location := r.unseen (Mapping.files ms)

/-- What is found in them. -/
def foundIn (r : Registry) (files : Storage) (ms : List Mapping) : List (Option (List Symbol)) :=
  (r.unseenOf ms).map (files.defined? (Mapping.baseOf? · (Mapping.bases ms)))

theorem files_apart (ms : List Mapping) : (Mapping.files ms).Pairwise fun a b => b.same a = false :=
  (Mapping.inOrder_files ms).imp fun h => Mapping.not_same_of_gt (Std.OrientedCmp.gt_of_lt h)

/-- **A refresh, as one equation.** -/
theorem tryRefresh_eq (h : files.mappings r.mapsPath = .ok ms) :
    r.tryRefresh files = .ok (.count (r.foundIn files ms), r.looked (r.unseenOf ms) (r.foundIn files ms)) := by
  unfold tryRefresh
  rw [h]
  refine congrArg Except.ok ((foldl_indexMapped files _ _ (files_apart ms) _ _).trans ?_)
  rw [Report.zero_add]
  rfl

theorem tryRefresh_error {e : Error} (h : files.mappings r.mapsPath = .error e) : r.tryRefresh files = .error e := by
  unfold tryRefresh
  rw [h]
  rfl

/-! ## What is left afterwards -/

theorem isIndexed_congr {l k : Location} (h : l.same k = true) : r.isIndexed l = r.isIndexed k := by
  unfold isIndexed Location.same
  rw [Location.same_iff.1 h]

theorem mapsPath_looked (r : Registry) (ls : List Location) (found : List (Option (List Symbol))) :
    (r.looked ls found).mapsPath = r.mapsPath := mapsPath_foldl_register r _

theorem isIndexed_looked {ls : List Location} {found : List (Option (List Symbol))} {l : Location} :
    (r.looked ls found).isIndexed l = true ↔ r.isIndexed l = true ∨ ∃ k ∈ ls, l.same k = true := by
  simp only [isIndexed_iff, looked, List.mem_append, List.mem_reverse, or_and_right, exists_or]
  exact Or.comm

/-- Every mapped file that was not looked at is among those that are, under some spelling. -/
theorem exists_mem_unseenOf {l : Location} (h : l ∈ ms.filterMap Mapping.file) (hl : r.isIndexed l = false) :
    ∃ k ∈ r.unseenOf ms, l.same k = true := by
  obtain ⟨k, hk, hsame⟩ := Mapping.exists_mem_files h
  exact ⟨k, mem_unseen.2 ⟨hk, isIndexed_congr hsame ▸ hl⟩, hsame⟩

theorem of_mem_unseenOf {l : Location} (h : l ∈ r.unseenOf ms) :
    l ∈ ms.filterMap Mapping.file ∧ r.isIndexed l = false :=
  ⟨Mapping.file_of_mem_files (mem_unseen.1 h).1, (mem_unseen.1 h).2⟩

theorem unseenOf_apart (r : Registry) (ms : List Mapping) : (r.unseenOf ms).Pairwise fun a b => b.same a = false :=
  (files_apart ms).filter _

/-- The files that are looked at are as many as the paths, by components, that were not looked at. -/
theorem length_unseenOf (r : Registry) (ms : List Mapping) : (r.unseenOf ms).length =
    (((ms.filterMap Mapping.file).filter (!r.isIndexed ·)).map Location.components).dedup.length := by
  rw [← List.length_map Location.components]
  have hnodup : ((r.unseenOf ms).map Location.components).Nodup :=
    List.pairwise_map.2 ((unseenOf_apart r ms).imp fun {a b} h (heq : a.components = b.components) =>
      Bool.false_ne_true (h.symm.trans (Location.same_iff.2 heq.symm)))
  refine ((List.perm_ext_iff_of_nodup hnodup (List.nodup_dedup _)).2 fun c => ?_).length_eq
  simp only [List.mem_dedup, List.mem_map, List.mem_filter, Bool.not_eq_true']
  constructor
  · rintro ⟨l, hl, rfl⟩
    exact ⟨l, of_mem_unseenOf hl, rfl⟩
  · rintro ⟨l, ⟨hl, hunseen⟩, rfl⟩
    obtain ⟨k, hk, hsame⟩ := exists_mem_unseenOf hl hunseen
    exact ⟨k, hk, (Location.same_iff.1 hsame).symm⟩

/-- What a refresh brings in depends on the files that it looks at, and on no others. -/
theorem foundIn_congr {files' : Storage} (h : ∀ l ∈ ms.filterMap Mapping.file, r.isIndexed l = false →
    files'.read l.text = files.read l.text) : r.foundIn files' ms = r.foundIn files ms :=
  List.map_congr_left fun l hl => by
    unfold Storage.defined?
    rw [h l (of_mem_unseenOf hl).1 (of_mem_unseenOf hl).2]

theorem unseenOf_looked {found : List (Option (List Symbol))} : (r.looked (r.unseenOf ms) found).unseenOf ms = [] := by
  refine List.filter_eq_nil_iff.2 fun l hl => ?_
  have hl : l ∈ ms.filterMap Mapping.file := Mapping.file_of_mem_files hl
  suffices (r.looked (r.unseenOf ms) found).isIndexed l = true by rw [this]; decide
  rw [isIndexed_looked]
  cases hseen : r.isIndexed l with
  | true => exact .inl rfl
  | false => exact .inr (exists_mem_unseenOf hl hseen)

/-- What a refresh of `r` that reads `ms` reports, and the registry it leaves. -/
structure Refreshed (r : Registry) (files : Storage) (ms : List Mapping) (report : Report) (r' : Registry) : Prop where
  mapsPath : r'.mapsPath = r.mapsPath
  /-- Each mapped file is counted once, however often and in whatever spellings it is mapped. -/
  counted : report.indexed + report.skipped =
    (((ms.filterMap Mapping.file).filter (!r.isIndexed ·)).map Location.components).dedup.length
  indexed : ∀ l, r'.isIndexed l = true ↔ r.isIndexed l = true ∨ ∃ k ∈ ms.filterMap Mapping.file, l.same k = true
  /-- The files that were not looked at bring in what their images define, and nothing if they cannot be read or hold no
  image; no other file has a part in it. -/
  brought : ∃ ls : List Location, ls.Pairwise (fun a b => b.same a = false) ∧
    (∀ l ∈ ls, l ∈ ms.filterMap Mapping.file ∧ r.isIndexed l = false) ∧
    (∀ l ∈ ms.filterMap Mapping.file, r.isIndexed l = false → ∃ k ∈ ls, l.same k = true) ∧
    report = .count (ls.map (files.defined? (Mapping.baseOf? · (Mapping.bases ms)))) ∧
    r' = r.looked ls (ls.map (files.defined? (Mapping.baseOf? · (Mapping.bases ms))))
  /-- A file is passed over where it cannot be read or holds no image. -/
  skipped : ∀ l, files.defined? (Mapping.baseOf? · (Mapping.bases ms)) l = none ↔
    (∃ e, files.read l.text = .error e) ∨ ∃ bytes, files.read l.text = .ok bytes ∧ Image.header? bytes = none
  unaffected : ∀ files' : Storage, files'.mappings r.mapsPath = .ok ms →
    (∀ l ∈ ms.filterMap Mapping.file, r.isIndexed l = false → files'.read l.text = files.read l.text) →
    r.tryRefresh files' = .ok (report, r')
  again : ∀ files' : Storage, files'.mappings r.mapsPath = .ok ms → r'.tryRefresh files' = .ok ({}, r')

/-- **A refresh looks at each mapped file once, and fails only before it looks at any**: an unreadable memory map leaves
the registry as it was, and after a refresh there is nothing left to do over the same memory map. -/
theorem refresh_once (r : Registry) (files : Storage) :
    (∀ e, files.text r.mapsPath = .error e →
      r.tryRefresh files = .error (.memoryMapUnavailable r.mapsPath e.message) ∧
      (Action.modifyM fun k => (k.tryRefresh files).map Prod.snd).Ends r (fun _ _ => False)
        fun stop r' => stop = .failure (.memoryMapUnavailable r.mapsPath e.message) ∧ r' = r) ∧
    ∀ text, files.text r.mapsPath = .ok text → ∃ ms report r', files.mappings r.mapsPath = .ok ms ∧
      r.tryRefresh files = .ok (report, r') ∧ r.Refreshed files ms report r' := by
  constructor
  · intro e he
    have hfail := files.mappings_text r.mapsPath
    rw [he] at hfail
    have hfail := tryRefresh_error hfail
    refine ⟨hfail, ?_⟩
    rw [Action.ends_modifyM, hfail]
    exact ⟨rfl, rfl⟩
  · intro text htext
    have hms := files.mappings_text r.mapsPath
    rw [htext] at hms
    obtain ⟨ms, hms⟩ := hms
    refine ⟨ms, _, _, hms, tryRefresh_eq hms, {
      mapsPath := mapsPath_looked ..
      counted := ?_
      indexed := fun l => ?_
      brought := ⟨r.unseenOf ms, unseenOf_apart r ms, fun l => of_mem_unseenOf, fun l => exists_mem_unseenOf, rfl, rfl⟩
      skipped := fun _ => Storage.defined?_eq_none_iff
      unaffected := fun files' hms' hfiles => ?_
      again := fun files' hms' => ?_ }⟩
    · rw [Report.count_files, foundIn, List.length_map, length_unseenOf]
    · rw [isIndexed_looked]
      refine or_congr_right' fun hl => ?_
      constructor
      · rintro ⟨k, hk, hsame⟩
        exact ⟨k, (of_mem_unseenOf hk).1, hsame⟩
      · rintro ⟨k, hk, hsame⟩
        have hk' : r.isIndexed k = false := isIndexed_congr hsame ▸ Bool.eq_false_iff.2 hl
        obtain ⟨j, hj, hsame'⟩ := exists_mem_unseenOf hk hk'
        exact ⟨j, hj, Location.same_trans hsame hsame'⟩
    · rw [tryRefresh_eq hms', foundIn_congr hfiles]
    · rw [tryRefresh_eq (mapsPath_looked .. ▸ hms'), foundIn, unseenOf_looked]
      rfl

/-- A memory map with an image that is mapped twice and defines a function, a file that is none, a file that is missing
and memory without a file. -/
def mixedFiles : Storage where
  nodes := [
    ([.name "maps".toList], .file (Text.toUtf8
      "1-2 r 0 0:0 0 lib\n3-4 r 0 0:0 0 junk\n5-6 r 0 0:0 0 gone\n7-8 r 2 0:0 0 lib\n9-a r 0 0:0 0 [heap]\n").toArray),
    ([.name "lib".toList], .file (Image.layOut 3 [⟨"_Y4main3fooFZv", 0x12, 0x1000, 16⟩])),
    ([.name "junk".toList], .file #[1, 2, 3])]

/-- The refresh brings in the function, at its value from where the image is mapped first, and nothing else. -/
theorem refresh_once_mixed : ∃ report r', ({ mapsPath := "maps" } : Registry).tryRefresh mixedFiles = .ok (report, r') ∧
    report = { indexed := 1, skipped := 2, symbols := 1 } ∧ r'.indexed.map Location.text = ["lib", "junk", "gone"] ∧
    (r'.list.map fun s => (s.kind, s.name, s.address, s.size)) = [(.function, "_Y4main3fooFZv", .ofNat 0x1001, 16)] ∧
    r'.tryRefresh mixedFiles = .ok ({}, r') := by
  obtain ⟨text, htext⟩ : ∃ text, mixedFiles.text "maps" = .ok text := ⟨_, rfl⟩
  obtain ⟨ms, report, r', hms, hr, h⟩ := (refresh_once { mapsPath := "maps" } mixedFiles).2 text htext
  have hreport : (({ mapsPath := "maps" } : Registry).tryRefresh mixedFiles).map Prod.fst =
      .ok { indexed := 1, skipped := 2, symbols := 1 } := by decide +kernel
  have hindexed : (({ mapsPath := "maps" } : Registry).tryRefresh mixedFiles).map (·.2.indexed.map Location.text) =
      .ok ["lib", "junk", "gone"] := by decide +kernel
  have hsymbols : (({ mapsPath := "maps" } : Registry).tryRefresh mixedFiles).map
      (·.2.list.map fun s => (s.kind, s.name, s.address, s.size)) =
      .ok [(.function, "_Y4main3fooFZv", .ofNat 0x1001, 16)] := by decide +kernel
  rw [hr] at hreport hindexed hsymbols
  exact ⟨report, r', hr, Except.ok.inj hreport, Except.ok.inj hindexed, Except.ok.inj hsymbols, h.again mixedFiles hms⟩

end Registry
end Introspect
