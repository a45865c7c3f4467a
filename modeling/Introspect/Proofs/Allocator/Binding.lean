import Introspect.Proofs.Allocator.Reachable
import Introspect.Proofs.Allocator.Resolve
import Introspect.Proofs.Instance
import Introspect.Proofs.Linkage.Names
import Mathlib.Data.List.Perm.Subperm
/-!
# A name stays bound to its class

A class is created through two names in the registry, one for its vtable and one for its constructor, and the registry
is open: anybody may register anything, and discovery does.  So a class keeps its names as long as nobody else is given
them: no other class with the same linkage name is declared, and no image that discovery comes upon defines them.  The
number in the vtable is as open, since a constructor may write where it likes; so what is asked of a constructor is
asked of its run, that the number has not changed by the end of it.
-/
namespace Introspect

/-! ## Numbers and code addresses -/

namespace Heap

theorem blocks_le_top : ∀ es : List (Nat × Nat), firstBase + 16 * es.length ≤ top es
  | [] => Nat.le_refl _
  | e :: es => by
    have h1 := blocks_le_top es
    have h2 := one_le_span e.2
    simp only [List.length_cons, top]
    omega

end Heap

namespace Catalog

/-- Constructors have the code addresses from the first on, in the order of their classes. -/
def Numbered (c : Catalog) : Prop :=
  c.entries.filterMap Declared.code =
    (List.range (c.entries.filter (·.code.isSome)).length).map fun k => textBase + k * codeStride

theorem Numbered.entryFor {c : Catalog} (hn : c.Numbered) (d : ClassDefinition) (vtable : Address) :
    Numbered ⟨c.entries ++ [c.entryFor d vtable]⟩ := by
  unfold Numbered at *
  rw [List.filterMap_append, List.filter_append, hn]
  cases hd : d.constructor with
  | none => simp [Catalog.entryFor, hd]
  | some construct => simp [Catalog.entryFor, hd, nextCode, List.range_succ]

/-- No class has the code address yet that the next constructor will get. -/
theorem Numbered.fresh {c : Catalog} (hn : c.Numbered) (hsize : c.entries.length < 2 ^ 60 - 2 ^ 20) :
    ∀ e ∈ c.entries, e.code ≠ some c.nextCode := by
  intro e he hcode
  have hmem : c.nextCode ∈ c.entries.filterMap Declared.code := List.mem_filterMap.2 ⟨e, he, hcode⟩
  rw [hn] at hmem
  obtain ⟨k, hk, heq⟩ := List.mem_map.1 hmem
  have hk := List.mem_range.1 hk
  have hlen := List.length_filter_le (·.code.isSome) c.entries
  have hnat := congrArg Address.toNat heq
  simp only [nextCode, textBase, codeStride, Address.toNat_add, Address.toNat_ofNat] at hnat
  omega

theorem find?_path {c : Catalog} {e : Declared} (he : e ∈ c.entries) : (c.find? e.type.path).isSome = true :=
  List.find?_isSome.2 ⟨e, he, decide_eq_true rfl⟩

end Catalog

namespace Allocator

theorem Reachable.numbered {s : Allocator} (hs : s.Reachable) : s.catalog.Numbered := by
  induction hs with
  | start _ _ => rfl
  | heap _ _ ih | registry _ _ ih => exact ih
  | declare hs _ hd ih =>
    obtain ⟨-, v, h, -, -, -, -, rfl⟩ := (ends_declare hs.wellFormed.arranged _).of_ok hd
    exact ih.entryFor _ v

/-- Each class has a block for its vtable, so there are far fewer classes than words. -/
theorem WellFormed.entries_lt {s : Allocator} (hs : s.WellFormed) : s.catalog.entries.length < 2 ^ 60 - 2 ^ 20 := by
  have hnodup : (s.catalog.entries.map fun d => (d.vtable.toNat, Catalog.vtableSize)).Nodup := by
    refine List.Nodup.of_map (fun e => Address.ofNat e.1) ?_
    rw [List.map_map]
    convert hs.distinct using 2
    exact funext fun d => Address.ext ((Address.toNat_ofNat _).trans (Nat.mod_eq_of_lt d.vtable.toNat_lt))
  have hsub : (s.catalog.entries.map fun d => (d.vtable.toNat, Catalog.vtableSize)) ⊆ s.heap.outline := fun e he => by
    obtain ⟨d, hd, rfl⟩ := List.mem_map.1 he
    exact hs.vtables d hd
  have hle := (List.subperm_of_subset hnodup hsub).length_le
  have htop := Heap.blocks_le_top s.heap.outline
  have hlt := hs.arranged.top_lt
  rw [List.length_map] at hle
  simp only [Heap.firstBase] at htop
  omega

end Allocator

/-! ## What constructors do -/

namespace Heap

/-- What has been done to the heap has left it in order, as its own operations do, and the number in the vtable is the
same. -/
structure Spares (v : Address) (k h : Heap) : Prop where
  arranged : h.Arranged
  number : h.readWord v = k.readWord v

/-- The heap has made place for an instance: one block more, which is zero but for the vtable in its first word. -/
structure Grants (k h : Heap) (c : Class) (v a : Address) : Prop where
  grows : Grows Nowhere k h
  block : h.outline = (a.toNat, c.size) :: k.outline
  vtable : h.readAddress a = .ok v
  zero : ∀ x, Window (a.toNat + 8) (c.size - 8) x → h.byteAt x = 0

end Heap

/-- On the instance of the class that the heap makes place for, the constructor succeeds, unless the blocks that it
takes itself do not fit into memory; of what was there it writes nothing but the instance, and leaves it its vtable. -/
def Constructor.Succeeds (construct : Constructor) (c : Class) (v : Address) (takes : Multiset Nat) (k : Heap) : Prop :=
  ∀ (h : Heap) (a : Address), k.Grants h c v a →
    (construct ⟨c, a⟩).Ends h
      (fun _ h' => Heap.Grows (Heap.Window a.toNat c.size) h h' ∧ h'.readAddress a = h.readAddress a)
      fun e _ => (∃ f, e = .fault f) ∧ ¬ Heap.Room (takes + h.sizes)

namespace Allocator

variable {s s' : Allocator} {index : Nat} {e : Declared} {code : Address} {files : Storage}

/-! ## The invariant -/

/-- The names of a class lead to what the class was given. -/
structure Bound (s : Allocator) (index : Nat) (e : Declared) (code : Address) : Prop where
  arranged : s.heap.Arranged
  built : e.type.Built
  counted : index + 1 < 2 ^ 64
  entry : s.catalog.entries[index]? = some e
  number : s.heap.readWord e.vtable = .ok (UInt64.ofNat (index + 1))
  vtable : s.registry.lookup e.type.vtableSymbol .vtable = some e.vtable
  constructor : s.registry.lookup e.type.constructorSymbol .function = some code
  code : s.catalog.constructorAt? code = some e

/-- Discovery would leave both names of the class alone. -/
def Left (s : Allocator) (files : Storage) (c : Class) : Prop :=
  s.settings.discoverOnMiss = true → s.registry.Unclaimed files (.vtable, c.vtableSymbol) ∧
    s.registry.Unclaimed files (.function, c.constructorSymbol)

/-- The same classes are declared, and the registry leads from the names of the class to what it led to. -/
structure Keeps (c : Class) (s s' : Allocator) : Prop where
  catalog : s'.catalog = s.catalog
  vtable : s'.registry.get? c.vtableSymbol .vtable = s.registry.get? c.vtableSymbol .vtable
  constructor : s'.registry.get? c.constructorSymbol .function = s.registry.get? c.constructorSymbol .function

namespace Bound

theorem mem (b : s.Bound index e code) : e ∈ s.catalog.entries := List.mem_of_getElem? b.entry

theorem ofVtable (b : s.Bound index e code) : s.ofVtable e.vtable = .ok e := by
  have hnat : (UInt64.ofNat (index + 1)).toNat = index + 1 := by
    rw [UInt64.toNat_ofNat']
    exact Nat.mod_eq_of_lt b.counted
  refine Catalog.ofVtable_ok.2 ⟨_, b.number, fun h0 => ?_, ?_, rfl⟩
  · rw [h0] at hnat
    exact absurd hnat (by simp)
  · rw [hnat]
    exact b.entry

/-- The number lies in a block, so nothing new on the heap comes to stand there. -/
theorem vtable_le (b : s.Bound index e code) : e.vtable.toNat + 8 ≤ s.heap.next.toNat :=
  b.arranged.inside_le_next (Heap.inside_of_readWord b.number)

/-- **Whatever leaves the names and the number alone keeps the names bound.** -/
theorem keep (b : s.Bound index e code) (k : Keeps e.type s s') (h : Heap.Spares e.vtable s.heap s'.heap) :
    s'.Bound index e code where
  arranged := h.arranged
  built := b.built
  counted := b.counted
  entry := k.catalog ▸ b.entry
  number := h.number.trans b.number
  vtable := (congrArg (Option.map Symbol.address) k.vtable).trans b.vtable
  constructor := (congrArg (Option.map Symbol.address) k.constructor).trans b.constructor
  code := k.catalog ▸ b.code

/-- What grows on the heap spares the number, unless it writes there. -/
theorem spares (b : s.Bound index e code) {W : Nat → Prop} {h : Heap} (g : Heap.Grows W s.heap h)
    (hw : ∀ x, Heap.Window e.vtable.toNat 8 x → ¬ W x) : Heap.Spares e.vtable s.heap h :=
  ⟨g.arranged, (Heap.readWord_of_grows b.arranged g hw b.number).trans b.number.symm⟩

theorem grow (b : s.Bound index e code) {W : Nat → Prop} {h : Heap} (g : Heap.Grows W s.heap h)
    (hw : ∀ x, Heap.Window e.vtable.toNat 8 x → ¬ W x) : Bound { s with heap := h } index e code :=
  have k : Keeps e.type s { s with heap := h } := ⟨rfl, rfl, rfl⟩
  b.keep k (b.spares g hw)

end Bound

/-! ## Declaring -/

theorem get?_announce_vtable (r : Registry) (d : Declared) (name : String) :
    (Catalog.announce r d).get? name .vtable =
      if name = d.type.vtableSymbol then some (Catalog.vtableSymbol d.type d.vtable) else r.get? name .vtable := by
  have hone : (r.register (Catalog.vtableSymbol d.type d.vtable)).get? name .vtable =
      if name = d.type.vtableSymbol then some (Catalog.vtableSymbol d.type d.vtable) else r.get? name .vtable := by
    simp [Registry.get?_register, Symbol.key, Catalog.vtableSymbol]
  unfold Catalog.announce
  cases d.code with
  | none => exact hone
  | some code => exact (Registry.get?_register_of_ne (by simp [Symbol.key, Catalog.constructorSymbol])).trans hone

theorem get?_announce_function (r : Registry) (d : Declared) (name : String) :
    (Catalog.announce r d).get? name .function =
      match d.code with
      | some code =>
        if name = d.type.constructorSymbol then some (Catalog.constructorSymbol d.type code) else r.get? name .function
      | none => r.get? name .function := by
  have hone : (r.register (Catalog.vtableSymbol d.type d.vtable)).get? name .function = r.get? name .function :=
    Registry.get?_register_of_ne (by simp [Symbol.key, Catalog.vtableSymbol])
  unfold Catalog.announce
  cases d.code with
  | none => exact hone
  | some code =>
    dsimp only
    rw [Registry.get?_register, hone]
    simp [Symbol.key, Catalog.constructorSymbol]

/-- **A class that is declared is bound to its names.** -/
theorem Bound.of_declare (hs : s.Reachable) {d : ClassDefinition} (made : d.type.Made) {construct : Constructor}
    (hc : d.constructor = some construct) (hd : declare d s = .ok () s') :
    s'.Bound s.catalog.size (s.catalog.entryFor d s.heap.next) s.catalog.nextCode := by
  obtain ⟨-, v, h, rfl, g, -, hr, rfl⟩ := (ends_declare hs.wellFormed.arranged d).of_ok hd
  have hcode : (s.catalog.entryFor d s.heap.next).code = some s.catalog.nextCode := by
    simp [Catalog.entryFor, hc]
  have hcount := hs.wellFormed.entries_lt
  refine ⟨g.arranged, made.built, ?_, ?_, hr, ?_, ?_, ?_⟩
  · simp only [Catalog.size]
    omega
  · exact List.getElem?_concat_length
  · rw [Registry.lookup, get?_announce_vtable, if_pos rfl]
    rfl
  · rw [Registry.lookup, get?_announce_function, hcode]
    simp only [if_pos]
    rfl
  · have hold : s.catalog.constructorAt? s.catalog.nextCode = none := List.find?_eq_none.2 fun e he => by
      simpa using hs.numbered.fresh hs.wellFormed.entries_lt e he
    simp only [Catalog.constructorAt?] at hold ⊢
    rw [List.find?_append, hold, Option.none_or, List.find?_singleton, if_pos (decide_eq_true hcode)]

/-- **Declaring another class keeps the names bound**, if it has another linkage name.  No class is declared twice. -/
theorem Bound.declare (b : s.Bound index e code) {d : ClassDefinition}
    (other : d.type.mangled = e.type.mangled → d.type.path = e.type.path) :
    (declare d).Always s fun s' => s'.Bound index e code := by
  refine (ends_declare b.arranged d).mono (fun _ s' hdeclared => ?_) fun _ s' hs' => hs' ▸ b
  obtain ⟨hnew, v, h, rfl, g, -, -, rfl⟩ := hdeclared
  have hmangled : d.type.mangled ≠ e.type.mangled := fun heq => by
    have hfind := Catalog.find?_path b.mem
    rw [← other heq, hnew] at hfind
    cases hfind
  refine ⟨g.arranged, b.built, b.counted, ?_, ?_, ?_, ?_, ?_⟩
  · exact List.getElem?_append_left (List.getElem?_eq_some_iff.1 b.entry).1 ▸ b.entry
  · exact Heap.readWord_of_grows b.arranged g (fun _ _ h => h) b.number
  · have hname : e.type.vtableSymbol ≠ (s.catalog.entryFor d s.heap.next).type.vtableSymbol := fun heq =>
      hmangled (Linkage.vtableSymbol_inj.1 heq).symm
    rw [Registry.lookup, get?_announce_vtable, if_neg hname]
    exact b.vtable
  · have hname : e.type.constructorSymbol ≠ (s.catalog.entryFor d s.heap.next).type.constructorSymbol := fun heq =>
      hmangled (Linkage.constructorSymbol_inj.1 heq).symm
    rw [Registry.lookup, get?_announce_function]
    cases (s.catalog.entryFor d s.heap.next).code with
    | none => exact b.constructor
    | some _ =>
      dsimp only
      rw [if_neg hname]
      exact b.constructor
  · have hcode := b.code
    simp only [Catalog.constructorAt?] at hcode ⊢
    rw [List.find?_append, hcode, Option.some_or]

/-! ## Creating -/

/-- A look-up leaves the names of a class alone, if discovery would. -/
theorem resolve_keeps {c : Class} (name : String) (kind : SymbolKind) (hl : s.Left files c) :
    (resolve files name kind).Always s fun s' => Keeps c s s' ∧ s'.Left files c := by
  suffices h : ∀ s', Searched files s s' → Keeps c s s' ∧ s'.Left files c from
    (ends_resolve s files name kind).mono (fun _ s' hs => h s' hs.1) fun _ s' hs => h s' hs.1
  intro s' hs
  refine ⟨⟨hs.catalog, ?_, ?_⟩, fun hon => ?_⟩
  · refine (hs.records _ _).resolve_right fun hclaim => ?_
    obtain ⟨hon, t, hc, -⟩ := hclaim
    exact (hl hon).1.not_claimed hc
  · refine (hs.records _ _).resolve_right fun hclaim => ?_
    obtain ⟨hon, t, hc, -⟩ := hclaim
    exact (hl hon).2.not_claimed hc
  · obtain ⟨h1, h2⟩ := hl (hs.settings ▸ hon)
    exact ⟨h1.onward hs.onward, h2.onward hs.onward⟩

theorem Keeps.trans {c : Class} {s'' : Allocator} (k : Keeps c s s') (k' : Keeps c s' s'') : Keeps c s s'' :=
  ⟨k'.catalog.trans k.catalog, k'.vtable.trans k.vtable, k'.constructor.trans k.constructor⟩

/-- What works on the heap keeps what is said of the rest. -/
theorem onHeap_always {ε α : Type} (x : Action ε Heap α) {P : Allocator → Prop} (h : ∀ k, P { s with heap := k }) :
    (onHeap x).Always s P := by
  simp only [Action.Always, onHeap, Action.ends_on]
  unfold Action.Ends
  cases x s.heap <;> exact h _

/-- **Creating anything leaves the names of a class alone**, whatever a constructor does to the heap. -/
theorem create_keeps {c : Class} (hl : s.Left files c) (path : String) :
    (create files path).Always s (Keeps c s) := by
  simp only [create, Action.Always, Action.ends_bind, Action.ends_query, Action.ends_get]
  refine (resolve_keeps _ _ hl).mono (fun vtable s1 h1 => ?_) fun _ _ h => h.1
  refine (resolve_keeps _ _ h1.2).mono (fun address s2 h2 => ?_) fun _ _ h => h1.1.trans h.1
  have k := h1.1.trans h2.1
  cases s2.ofVtable vtable with
  | error err => exact k
  | ok d =>
    dsimp only
    cases s2.constructorAt? address with
    | none => exact k
    | some construct =>
      simp only [allocate, Action.ends_bind, Action.ends_get, Action.ends_pure]
      exact (onHeap_always _ fun h => ⟨k.catalog, k.vtable, k.constructor⟩).mono
        (fun o s3 (k3 : Keeps c s s3) => onHeap_always _ fun h => ⟨k3.catalog, k3.vtable, k3.constructor⟩)
        fun _ _ h => h

/-! ## Runs -/

def after {α : Type} (x : Run α) (s : Allocator) : Allocator :=
  match x s with
  | .ok _ s' | .error _ s' => s'

theorem after_of_always {α : Type} {x : Run α} {P : Allocator → Prop} (h : x.Always s P) : P (after x s) := by
  simp only [Action.Always, Action.Ends, after] at *
  cases hx : x s <;> rw [hx] at h <;> exact h

theorem eq_after {α : Type} {x : Run α} {s : Allocator} {a : α} (h : x.answer? s = some a) :
    x s = .ok a (after x s) := by
  unfold Action.answer? at h
  unfold after
  cases hx : x s with
  | ok b s' =>
    rw [hx] at h
    rw [Option.some.inj h]
  | error e s' =>
    rw [hx] at h
    cases h

theorem exists_ofVtable {s : Allocator} {v : Address} {c : Class}
    (h : (s.ofVtable v).toOption.map Declared.type = some c) : ∃ e, s.ofVtable v = .ok e ∧ e.type = c := by
  cases hv : s.ofVtable v with
  | error e => rw [hv] at h; cases h
  | ok e =>
    rw [hv] at h
    exact ⟨e, rfl, Option.some.inj h⟩

/-- Classes are declared and instances created, none of them in the way of the class `c` with its vtable at `v`: no
other class has its linkage name, no image that discovery comes upon defines one of its symbols, and when a creation is
over, the number in its vtable is the same. -/
inductive Later (c : Class) (v : Address) : Allocator → Allocator → Prop where
  | refl (s : Allocator) : Later c v s s
  | declare {s s' : Allocator} {d : ClassDefinition} (h : Later c v s s')
    (other : d.type.mangled = c.mangled → d.type.path = c.path) : Later c v s (after (declare d) s')
  | create {s s' : Allocator} {files : Storage} (h : Later c v s s') (path : String) (left : s'.Left files c)
    (spared : Heap.Spares v s'.heap (after (create files path) s').heap) :
    Later c v s (after (create files path) s')

theorem Bound.later (b : s.Bound index e code) (h : Later e.type e.vtable s s') : s'.Bound index e code := by
  induction h with
  | refl => exact b
  | declare _ other ih => exact after_of_always (ih.declare other)
  | create _ path left spared ih => exact ih.keep (after_of_always (create_keeps left path)) spared

/-- What creating an instance by a bound name amounts to: the constructor that runs is the one of the class. -/
theorem Bound.create_eq (b : s.Bound index e code) {construct : Constructor}
    (hc : e.definition.constructor = some construct) (files : Storage) :
    Allocator.create files e.type.path s = (do
      let o ← Allocator.allocate e.vtable
      onHeap ((construct ⟨e.type, o⟩).mapFailure (.constructionFailed e.type.path))
      return o) s := by
  have hv : resolve files (Linkage.vtableSymbol e.type.path) .vtable s = .ok e.vtable s := resolve_of_lookup b.vtable
  have hcode : resolve files (Linkage.constructorSymbol e.type.path) .function s = .ok code s :=
    resolve_of_lookup b.constructor
  have hd : Action.query (·.ofVtable e.vtable) s = .ok e s := by
    simp only [Action.query, Action.run_bind, Action.run_get, b.ofVtable]
    rfl
  have hcon : s.constructorAt? code = some construct := by
    rw [constructorAt?, b.code]
    exact hc
  simp only [Allocator.create, Action.run_bind, Action.run_get, hv, hcode, hd, hcon]

theorem Bound.ends_create (b : s.Bound index e code) {construct : Constructor} {takes : Multiset Nat}
    (hc : e.definition.constructor = some construct) (hsucc : construct.Succeeds e.type e.vtable takes s.heap)
    (files : Storage) :
    (Allocator.create files e.type.path).Ends s (fun o s' => s'.classOf o = .ok e)
      fun stop _ => (∃ f, stop = .fault f) ∧ ¬ Heap.Room (takes + e.type.size ::ₘ s.heap.sizes) := by
  have hvtable := b.vtable_le
  have hheader : 16 ≤ e.type.size := b.built.placed.le
  rw [Action.Ends, b.create_eq hc files, ← Action.Ends]
  simp only [Allocator.allocate, onHeap, Action.ends_bind, Action.ends_get, Action.ends_on, Action.ends_pure,
    Action.ends_mapFailure]
  refine (Catalog.ends_newInstance b.arranged b.ofVtable b.built).mono (fun o h hnew => ?_) fun stop h hh => ?_
  · obtain ⟨rfl, g, ho, hr, -, hzero⟩ := hnew
    have hsizes : h.sizes = e.type.size ::ₘ s.heap.sizes := by
      rw [Heap.sizes_eq, Heap.sizes_eq, ho]
      rfl
    refine (hsucc h s.heap.next ⟨g, ho, hr, hzero⟩).mono (fun _ h' hs => ?_) fun stop h' hs => ?_
    · obtain ⟨g', hkept⟩ := hs
      have b' := (b.grow g fun _ _ h => h).grow g' fun x hx hw => by
        have := hx.2
        have := hw.1
        omega
      exact classOf_ok.2 ⟨e.vtable, hkept.trans hr, b'.ofVtable⟩
    · obtain ⟨⟨f, rfl⟩, hroom⟩ := hs
      exact ⟨⟨f, rfl⟩, hsizes ▸ hroom⟩
  · obtain ⟨-, f, rfl, hx⟩ := hh
    refine ⟨⟨f, rfl⟩, fun hroom => ?_⟩
    obtain ⟨a, h', hok⟩ := Heap.allocate_of_room b.arranged (hroom.mono (Multiset.le_add_left _ _))
    rw [hok] at hx
    cases hx

end Allocator

/-! ## A class of numbers -/

namespace Numbers

/-- A class of instances with one number, which their constructor sets. -/
def type (path : String) : Class := ⟨⟨path, [⟨"x", 16, .int64⟩], 24⟩, []⟩

def set (n : Int64) : Constructor := fun o => (o.writeInt "x" n).mapFailure Error.message

def definition (path : String) (n : Int64) : ClassDefinition := ⟨type path, some (set n)⟩

theorem made {path : String} (h : (Linkage.segments path.toList).isEmpty = false) : (type path).Made := by
  have hfields : ∀ f ∈ [("x", Shape.int64)], f.2.Made := fun f hf => by
    obtain rfl := List.mem_singleton.1 hf
    exact .scalar 8
  have hbuild : Class.build path none [("x", .int64)] = .ok (type path) := by
    rw [Class.build, h]
    rfl
  exact .root hfields hbuild

theorem set_grows {h : Heap} {o : Instance} (n : Int64) (ha : h.Arranged) (hb : o.type.Built)
    (hi : h.Inside o.address.toNat o.type.size) :
    (set n o).Ends h (fun _ h' => Heap.Grows (Heap.Window (o.address.toNat + 16) (o.type.size - 16)) h h')
      fun _ h' => h' = h ∧ ¬ (FieldWrite.int n).Fits o.type "x" := by
  refine (Action.ends_mapFailure _ _).2 ((FieldWrite.run_spec (w := .int n) ha hb hi (.refl _)).mono
    (fun _ h' hs => ?_) fun stop h' hs => ?_)
  · obtain ⟨f, hf, -, -, g, -⟩ := hs
    obtain ⟨-, h1, h2, -⟩ := hb.field_inside ha hi hf
    exact g.mono fun x _ hx => hx.mono (by omega) (by omega)
  · obtain ⟨rfl, hfits, rfl⟩ := hs
    exact ⟨rfl, hfits⟩

theorem succeeds {path : String} (n : Int64) (h : (Linkage.segments path.toList).isEmpty = false) (v : Address)
    (k : Heap) : (set n).Succeeds (type path) v 0 k := by
  intro h' a granted
  have ha := granted.grows.arranged
  refine (set_grows n ha (made h).built ?_).mono (fun _ h' g => ⟨?_, ?_⟩) fun _ h' hs => ?_
  · exact ⟨_, granted.block ▸ List.mem_cons_self, Nat.le_refl _, Nat.le_refl _⟩
  · exact g.mono fun x _ hx => hx.mono (Nat.le_add_right _ _) (by simp only [type, Class.size]; omega)
  · exact (Heap.readAddress_of_grows ha g (fun x hx => hx.apart (.inl (by simp only; omega))) granted.vtable).trans
      granted.vtable.symm
  · exact absurd ⟨⟨"x", 16, .int64⟩, rfl, rfl⟩ hs.2

def start : Allocator := Allocator.new { mapsPath := "maps" }

def declared : Allocator := Allocator.after (Allocator.declare (definition "m::A" 1)) start

theorem declare_start : Allocator.declare (definition "m::A" 1) start = .ok () declared := by
  have hrun : (Allocator.declare (definition "m::A" 1)).returns start = true := by decide +kernel
  obtain ⟨_, _, hd⟩ := Action.exists_of_returns hrun
  rw [declared, Allocator.after, hd]

/-- A constructor that writes zero to a word of the heap, wherever its instance lies. -/
def scrawl (a : Address) : Constructor := fun _ =>
  (Action.modifyM fun h => h.writeWord a 0).mapFailure Error.message

def meddler (a : Address) : ClassDefinition := ⟨type "m::B", some (scrawl a)⟩

/-- A constructor that takes the vtable from its own instance. -/
def disown : Constructor := fun o => (Action.modifyM fun h => h.writeAddress o.address .null).mapFailure Error.message

theorem disown_grows {h : Heap} {o : Instance} (ha : h.Arranged) (hi : h.Inside o.address.toNat 8) :
    (disown o).Ends h (fun _ h' => Heap.Grows (Heap.Window o.address.toNat 8) h h') fun _ _ => False := by
  obtain ⟨h', hw⟩ := Heap.writeAddress_inside ha hi .null
  simp only [disown, Action.ends_mapFailure, Action.ends_modifyM, hw]
  exact Heap.grows_writeAddress ha hw

def disowning : ClassDefinition := ⟨type "m::A", some disown⟩

end Numbers

namespace Allocator
open Numbers

variable {s : Allocator} {files : Storage}

/-- **A declared class stays instantiable by its name** while nobody else is given its names: whatever is declared and
created in between, creating by the path gives an instance of the class, or memory is used up, and the constructor that
is run on it is the one of the class. -/
theorem create_declared {s₀ s₁ s₂ : Allocator} {d : ClassDefinition} {construct : Constructor} {takes : Multiset Nat}
    (hs : s₀.Reachable) (made : d.type.Made) (hd : declare d s₀ = .ok () s₁) (hc : d.constructor = some construct)
    (hl : Later d.type s₀.heap.next s₁ s₂) (hsucc : construct.Succeeds d.type s₀.heap.next takes s₂.heap)
    (files : Storage) :
    ∃ e : Declared, e.definition = d ∧ e.vtable = s₀.heap.next ∧
      (create files d.type.path).Ends s₂ (fun o s₃ => s₃.classOf o = .ok e)
        (fun stop _ => (∃ f, stop = .fault f) ∧ ¬ Heap.Room (takes + d.type.size ::ₘ s₂.heap.sizes)) ∧
      create files d.type.path s₂ = (do
        let o ← allocate e.vtable
        onHeap ((construct ⟨d.type, o⟩).mapFailure (.constructionFailed d.type.path))
        return o) s₂ := by
  have b := (Bound.of_declare hs made hc hd).later hl
  exact ⟨_, rfl, rfl, b.ends_create hc hsucc files, b.create_eq hc files⟩

/-- In between an instance of another class is created, whose constructor writes right beside the number in the
vtable. -/
theorem create_declared_number : ∃ o₁ s₁ o₂ s₂ e,
    create {} "m::B" (after (declare (meddler (.ofNat 0x10000008))) declared) = .ok o₁ s₁ ∧
    create {} "m::A" s₁ = .ok o₂ s₂ ∧ s₂.classOf o₂ = .ok e ∧ e.definition = definition "m::A" 1 := by
  have hmaps : (Storage.mappings {}
      (after (declare (meddler (.ofNat 0x10000008))) declared).registry.mapsPath).toOption.isNone = true := by
    decide +kernel
  have hunclaimed : ∀ key, (after (declare (meddler (.ofNat 0x10000008))) declared).registry.Unclaimed {} key := by
    intro key ms l bytes bias s hc
    rw [hc.mapped] at hmaps
    cases hmaps
  have hbetween : (create {} "m::B").returns (after (declare (meddler (.ofNat 0x10000008))) declared) = true := by
    decide +kernel
  obtain ⟨o₁, s₁, hs₁⟩ := Action.exists_of_returns hbetween
  have hafter : after (create {} "m::B") (after (declare (meddler (.ofNat 0x10000008))) declared) = s₁ := by
    rw [after, hs₁]
  have hspared : Heap.Spares start.heap.next (after (declare (meddler (.ofNat 0x10000008))) declared).heap
      (after (create {} "m::B") (after (declare (meddler (.ofNat 0x10000008))) declared)).heap :=
    ⟨⟨by decide +kernel, by decide +kernel⟩, by decide +kernel⟩
  have hl : Later (type "m::A") start.heap.next declared s₁ :=
    hafter ▸ .create (.declare (.refl _) fun h => absurd h (by decide +kernel)) "m::B"
      (fun _ => ⟨hunclaimed _, hunclaimed _⟩) hspared
  obtain ⟨e, he, -, hends, -⟩ := create_declared (.start _ _) (made (by decide)) declare_start rfl hl
    (succeeds 1 (by decide) _ _) {}
  have hrun : (create {} "m::A").returns
      (after (create {} "m::B") (after (declare (meddler (.ofNat 0x10000008))) declared)) = true := by decide +kernel
  rw [hafter] at hrun
  obtain ⟨o₂, s₂, hs₂⟩ := Action.exists_of_returns hrun
  exact ⟨o₁, s₁, o₂, s₂, e, hs₁, hs₂, hends.of_ok hs₂, he⟩

/-! ## How a name is lost -/

def Instantiable (s : Allocator) (files : Storage) (d : ClassDefinition) : Prop :=
  (create files d.type.path).Ends s (fun o s' => ∃ e, e.definition = d ∧ s'.classOf o = .ok e)
    fun stop _ => ∃ f, stop = .fault f

/-- Creating by a path fails, or gives an instance of a class with another path. -/
def loses (s : Allocator) (files : Storage) (path : String) : Bool :=
  match create files path s with
  | .ok o s' => match s'.classOf o with
    | .ok e => e.type.path ≠ path
    | .error _ => true
  | .error (.failure _) _ => true
  | .error (.fault _) _ => false

theorem not_instantiable {d : ClassDefinition} (h : s.loses files d.type.path = true) : ¬ s.Instantiable files d := by
  intro hi
  unfold Instantiable Action.Ends at hi
  unfold loses at h
  cases hx : Allocator.create files d.type.path s with
  | ok o s' =>
    rw [hx] at hi h
    obtain ⟨e, rfl, he⟩ := hi
    simp only [he] at h
    exact absurd rfl (of_decide_eq_true h)
  | error stop s' =>
    rw [hx] at hi h
    obtain ⟨f, rfl⟩ := hi
    cases h

/-- An image with one symbol, for a vtable of `m::A`: a header, the headers of two sections, the names, the symbol. -/
def image : List UInt8 :=
  Image.magic ++ [Image.class64] ++ List.replicate 11 0 ++ Octets.encode 2 2 ++ List.replicate 22 0
    ++ Octets.encode 8 64 ++ List.replicate 10 0 ++ Octets.encode 2 64 ++ Octets.encode 2 2 ++ List.replicate 2 0
    ++ Octets.encode 4 0 ++ Octets.encode 4 2 ++ List.replicate 16 0 ++ Octets.encode 8 208 ++ Octets.encode 8 24
    ++ Octets.encode 4 1 ++ List.replicate 20 0
    ++ Octets.encode 4 0 ++ Octets.encode 4 3 ++ List.replicate 16 0 ++ Octets.encode 8 192 ++ Octets.encode 8 10
    ++ List.replicate 24 0
    ++ [0] ++ Text.toUtf8 "_Y1m1AVT" ++ List.replicate 7 0
    ++ Octets.encode 4 1 ++ [1] ++ List.replicate 3 0 ++ Octets.encode 8 0x4000 ++ Octets.encode 8 16

def mapped : Storage where
  nodes := [([.name "maps".toList], .file (Text.toUtf8 "1000-2000 r--p 0 0:0 0 lib").toArray),
    ([.name "lib".toList], .file image.toArray)]

/-- **The names of a class can be taken from it**: by a class with another path and the same linkage name, by an image
that discovery indexes on its way to another class, and, as for the vtable, by the constructor of another class.  And an
instance may lose its class to its own constructor. -/
theorem create_declared_loses : start.Reachable ∧ declare (definition "m::A" 1) start = .ok () declared ∧
    (∀ k, (set 1).Succeeds (type "m::A") start.heap.next 0 k) ∧
    ¬ Instantiable (after (declare (definition "::m::A" 2)) declared) {} (definition "m::A" 1) ∧
    ¬ Instantiable (after (create mapped "m::B") declared) {} (definition "m::A" 1) ∧
    ¬ Instantiable (after (create {} "m::B") (after (declare (meddler (.ofNat 0x10000000))) declared)) {}
      (definition "m::A" 1) ∧
    (declare disowning).returns start = true ∧
    (∀ h o, h.Arranged → h.Inside o.address.toNat 8 →
      (disown o).Ends h (fun _ h' => Heap.Grows (Heap.Window o.address.toNat 8) h h') fun _ _ => False) ∧
    ¬ Instantiable (after (declare disowning) start) {} disowning :=
  ⟨.start _ _, declare_start, succeeds 1 (by decide) _, not_instantiable (by decide +kernel),
    not_instantiable (by decide +kernel), not_instantiable (by decide +kernel), by decide +kernel,
    fun _ _ => disown_grows, not_instantiable (by decide +kernel)⟩

end Allocator
end Introspect
