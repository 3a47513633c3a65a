import Cavs.BundleWhole

/-!
# A bundle for a receiver that has some of it

A thin bundle carries what the receiver lacks and names as prerequisites the objects it
holds that the others depend on. Of the roots it says nothing: one that the receiver holds
counts as satisfied only where it happens to be a prerequisite.
-/
namespace Cavs
open FileProg (Bytes IoError Op get_put_ne get_put_self)
open FileProg.Eff
open ByteScan

section Thin
variable {hash : Bytes → ChunkHash} {zstd : Zstd} {limits : DecodeLimits} {reader : BundleLimits} {fuel : Nat}
  {w : ObjDisk} {roots : List (ObjectKind × ObjectId)} {options : BundleOptions} {file : Bytes}
  {summary : BundleSummary} {l : List StoredObject} {packed : PackedObjects} {stored : Bytes} {have_ : List ObjectId}

/-- In a store that is closed, all that its objects reach is there. -/
theorem present_of_reachable (closed : DependencyClosed w) {roots : List ObjectId} (there : ∀ r ∈ roots, Present w r)
    {x : ObjectId} (reach : Reachable (lookup limits w) roots x) : Present w x := by
  obtain ⟨r, mem, path⟩ := reach
  induction path with
  | refl => exact there r mem
  | tail _ edge _ => exact closed limits _ _ edge

/-- A have-set that claims an object claims what is below it. -/
def HaveClosed (source : GraphSource) (have_ : List ObjectId) : Prop :=
  ∀ x y, x ∈ have_ → Edge source x y → y ∈ have_

/-- What is reached and not held. -/
def Lacked (source : GraphSource) (roots have_ : List ObjectId) (x : ObjectId) : Prop :=
  Reachable source roots x ∧ x ∉ have_

/-- What is held and named by what is not. -/
def Assumed (source : GraphSource) (roots have_ : List ObjectId) (y : ObjectId) : Prop :=
  y ∈ have_ ∧ ∃ x, Lacked source roots have_ x ∧ Edge source x y

/-- The objects that travel are those that are reached and not held. -/
theorem Made.lacked (made : Made hash zstd limits fuel w roots options file summary l packed stored)
    (open_ : options.walker.kinds.isUnrestricted = true) (thin : options.excludeHave = some have_)
    (closed : DependencyClosed w) (there : ∀ r ∈ roots.map Prod.snd, Present w r)
    (haves : HaveClosed (lookup limits w) have_) (x : ObjectId) :
    x ∈ l.map StoredObject.id ↔ Lacked (lookup limits w) (roots.map Prod.snd) have_ x := by
  obtain ⟨plan, planned, same⟩ := included_thin thin made.included
  obtain ⟨last, walked, done, lists, -⟩ := missingFrom_planned open_ Walked.init Planned.init planned
  have held : ∀ x, (HaveSet.ofList have_).mayHave x = true ↔ x ∈ have_ := fun x => decide_eq_true_iff
  rw [same, lists.missing x]
  constructor
  · rintro ⟨visited, free, -⟩
    refine ⟨walked.sound x (.inl visited), fun mem => ?_⟩
    rw [(held x).mpr mem] at free
    cases free
  · rintro ⟨reach, free⟩
    have visited : x ∈ last.visited := by
      refine (walked.complete done (P := fun x => x ∈ have_) haves (fun x cut => ?_) reach).resolve_right free
      exact (held x).mp (Bool.and_eq_true_iff.mp cut).1
    refine ⟨visited, Bool.eq_false_of_not_eq_true fun mem => free ((held x).mp mem), ?_⟩
    obtain ⟨node, found⟩ := lists.looked x visited
    have present := present_of_reachable closed there reach
    unfold Present at present
    cases node with
    | some n => exact ⟨n, found⟩
    | none =>
        unfold lookup at found
        split at found
        · rename_i f file
          cases node : looseNode limits x f.bytes with
          | error e => rw [node] at found; cases found
          | ok n => rw [node] at found; cases found
        · rename_i absent
          rw [absent] at present
          cases present

theorem frontier_mem {included frontier : List ObjectId} {object : StoredObject}
    (h : frontierOf included (some have_) object = .ok frontier) (y : ObjectId) :
    y ∈ frontier ↔ Declares object.kind object.bytes y ∧ y ∉ included ∧ y ∈ have_ := by
  unfold frontierOf at h
  dsimp only at h
  cases decoded : decodeEnvelope object.kind object.bytes (limitsFor object) with
  | error e => rw [decoded] at h; cases h
  | ok envelope =>
      rw [decoded] at h
      cases h
      rw [List.mem_filter, declares_iff decoded, decide_eq_true_iff]

theorem Made.edges (made : Made hash zstd limits fuel w roots options file summary l packed stored)
    (open_ : options.walker.kinds.isUnrestricted = true) (thin : options.excludeHave = some have_)
    {object : StoredObject} (mem : object ∈ l) (y : ObjectId) :
    Edge (lookup limits w) object.id y ↔ Declares object.kind object.bytes y := by
  obtain ⟨plan, planned, same⟩ := included_thin thin made.included
  obtain ⟨last, -, -, lists, -⟩ := missingFrom_planned open_ Walked.init Planned.init planned
  have inside := List.mem_map_of_mem (f := StoredObject.id) mem
  rw [same, lists.missing] at inside
  obtain ⟨-, -, node, found⟩ := inside
  exact edge_iff (made.packs.read object mem) found y

/-- The prerequisites of a thin bundle are what it assumes. -/
theorem Made.assumed (made : Made hash zstd limits fuel w roots options file summary l packed stored)
    (open_ : options.walker.kinds.isUnrestricted = true) (thin : options.excludeHave = some have_)
    (closed : DependencyClosed w) (there : ∀ r ∈ roots.map Prod.snd, Present w r)
    (haves : HaveClosed (lookup limits w) have_) (y : ObjectId) :
    y ∈ sortIds packed.prerequisites ↔ Assumed (lookup limits w) (roots.map Prod.snd) have_ y := by
  have lacked := made.lacked open_ thin closed there haves
  rw [made.prerequisites]
  constructor
  · rintro ⟨object, mem, frontier, front, inside⟩
    rw [thin] at front
    obtain ⟨declares, -, held⟩ := (frontier_mem front y).mp inside
    exact ⟨held, object.id, (lacked _).mp (List.mem_map_of_mem mem), (made.edges open_ thin mem y).mpr declares⟩
  · rintro ⟨held, x, lacks, edge⟩
    obtain ⟨object, mem, rfl⟩ := List.mem_map.mp ((lacked x).mpr lacks)
    obtain ⟨frontier, front⟩ := made.packs.frontier object mem
    refine ⟨object, mem, frontier, front, ?_⟩
    rw [thin] at front
    refine (frontier_mem front y).mpr ⟨(made.edges open_ thin mem y).mp edge, fun inside => ?_, held⟩
    exact ((lacked y).mp inside).2 held

/-- What a thin bundle is for: it verifies as complete, and a store that holds what was
excluded has all that the roots reach once it is imported. -/
structure CompleteFor (hash : Bytes → ChunkHash) (zstd : Zstd) (reader : BundleLimits) (own : DecodeLimits)
    (source : GraphSource) (roots have_ : List ObjectId) (file : Bytes) : Prop where
  whole : ∃ v, verifyBundle hash reader zstd file = .ok v ∧ v.isComplete = true
  lands : ∀ durability s u, (∀ id ∈ have_, Present u id) →
    (∃ r t v, (importBundle hash zstd reader own durability file).Runs (objSem fun _ _ => False) s u r t v) ∧
    ∀ r t v, (importBundle hash zstd reader own durability file).Runs (objSem fun _ _ => False) s u r t v →
      (∃ report, r = .ok report ∧ report.missingPrerequisites = []) ∧ ∀ x, Reachable source roots x → Present v x

/-- The ceilings of a reader for objects that travel and those that are assumed; and every
root that is held is one of the latter. -/
structure Receivable (reader : BundleLimits) (roots have_ : List ObjectId) (l : List StoredObject)
    (assumed : List ObjectId) : Prop where
  rootCount : roots.length ≤ reader.maxRoots
  assumedCount : assumed.length ≤ reader.maxObjects
  objects : l.length ≤ reader.maxObjects
  payload : (payloadOf l).length ≤ reader.maxPayloadBytes
  decodes : ∀ object ∈ l, ∃ e, decodeEnvelope object.kind object.bytes reader.objects = .ok e
  named : ∀ r ∈ roots, r ∈ have_ → r ∈ assumed

theorem sortIds_nodup (ids : List ObjectId) : (sortIds ids).Nodup :=
  (List.perm_insertionSort _ _).nodup_iff.mpr (List.nodup_dedup _)

/-- When the header of a thin bundle is within the ceilings, given that its references are. -/
theorem Made.within_thin (made : Made hash zstd limits fuel w roots options file summary l packed stored)
    (plain : options.compress = false) (refCount : options.refs.length ≤ reader.maxRefs)
    (names : ∀ r ∈ options.refs, (strBytes r.name).length ≤ 512) :
    (headerOf roots options packed stored).Within reader ↔
      roots.length ≤ reader.maxRoots ∧ (sortIds packed.prerequisites).length ≤ reader.maxObjects ∧
        l.length ≤ reader.maxObjects ∧ (payloadOf l).length ≤ reader.maxPayloadBytes := by
  have rows : packed.table.length = l.length := by rw [made.table, rowsFrom_length]
  constructor
  · rintro ⟨rootCount, assumedCount, -, -, table, payload, -⟩
    dsimp only [headerOf] at *
    exact ⟨rootCount, assumedCount, rows ▸ table, made.payload ▸ payload⟩
  · rintro ⟨rootCount, assumedCount, objects, payload⟩
    rw [← rows] at objects
    rw [← made.payload] at payload
    refine ⟨rootCount, assumedCount, refCount, names, objects, payload, fun flag => ?_⟩
    rw [show options.compress = true from flag] at plain
    cases plain

/-- What travels names only what travels and what is assumed; the roots that travel or are
assumed are those that are not held or are named. -/
theorem Made.closed_thin (made : Made hash zstd limits fuel w roots options file summary l packed stored)
    (open_ : options.walker.kinds.isUnrestricted = true) (thin : options.excludeHave = some have_)
    (closed : DependencyClosed w) (there : ∀ r ∈ roots.map Prod.snd, Present w r)
    (haves : HaveClosed (lookup limits w) have_) :
    Closed reader.objects l (roots.map Prod.snd) (sortIds packed.prerequisites) ↔
      (∀ object ∈ l, ∃ e, decodeEnvelope object.kind object.bytes reader.objects = .ok e) ∧
        ∀ r ∈ roots.map Prod.snd, r ∈ have_ → r ∈ sortIds packed.prerequisites := by
  have lacked := made.lacked open_ thin closed there haves
  have assumed := made.assumed open_ thin closed there haves
  constructor
  · rintro ⟨decodes, -, satisfied⟩
    refine ⟨decodes, fun r mem held => (satisfied r mem).resolve_left fun inside => ?_⟩
    exact ((lacked r).mp inside).2 held
  · rintro ⟨decodes, named⟩
    refine ⟨decodes, fun object mem y declares => ?_, fun r mem => ?_⟩
    · have edge := (made.edges open_ thin mem y).mpr declares
      have lacks := (lacked _).mp (List.mem_map_of_mem mem)
      by_cases held : y ∈ have_
      · exact .inr ((assumed y).mpr ⟨held, _, lacks, edge⟩)
      · exact .inl ((lacked y).mpr ⟨lacks.1.edge edge, held⟩)
    · by_cases held : r ∈ have_
      · exact .inr (named r mem held)
      · exact .inl ((lacked r).mpr ⟨⟨r, mem, .refl⟩, held⟩)

/-- Once a bundle of what is lacked is imported beside what is held, all is there. -/
theorem Made.lands (made : Made hash zstd limits fuel w roots options file summary l packed stored)
    (open_ : options.walker.kinds.isUnrestricted = true) (thin : options.excludeHave = some have_)
    (plain : options.compress = false) (closed : DependencyClosed w) (there : ∀ r ∈ roots.map Prod.snd, Present w r)
    (haves : HaveClosed (lookup limits w) have_) (payload : packed.payload.length < 2 ^ 64) (size : file.length < 2 ^ 64)
    {v : BundleVerification} (verified : verifyBundle hash reader zstd file = .ok v) (complete : v.isComplete = true)
    (decodes : ∀ object ∈ l, ∃ e, decodeEnvelope object.kind object.bytes reader.objects = .ok e)
    {durability : Durability} {s t : Nat} {u u' : ObjDisk} {r : Except ObjectError ImportReport}
    (holds : ∀ id ∈ have_, Present u id)
    (run : (importBundle hash zstd reader reader.objects durability file).Runs (objSem fun _ _ => False) s u r t u') :
    (∃ report, r = .ok report ∧ report.missingPrerequisites = []) ∧
      ∀ x, Reachable (lookup limits w) (roots.map Prod.snd) x → Present u' x := by
  have lossless : options.compress = true → zstd.Lossless := by
    intro flag
    rw [plain] at flag
    cases flag
  obtain ⟨sum, opens⟩ := made.opens reader lossless payload size
  unfold verifyBundle at verified
  cases opened : openBytes zstd reader hash file with
  | error e => rw [opened] at verified; cases verified
  | ok a =>
      rw [opened] at verified
      obtain ⟨-, rfl⟩ := (opens a).mp opened
      rw [BundleVerification.isComplete, Bool.and_eq_true, List.isEmpty_iff, List.isEmpty_iff] at complete
      obtain ⟨⟨report, ok, missing⟩, between⟩ := ((wp_iff ..).mp (importBundle_lands ⟨opened, _, verified, complete.2⟩
        fun row mem => .inr (made.row_fits decodes mem))).2 r t u' run
      refine ⟨⟨report, ok, missing.trans ?_⟩, fun x reach => ?_⟩
      · rw [List.filter_eq_nil_iff]
        intro y mem absent
        have held := ((made.assumed open_ thin closed there haves y).mp mem).1
        exact of_decide_eq_true absent (holds y held)
      · by_cases held : x ∈ have_
        · exact between.present (holds x held)
        · have inside := (made.lacked open_ thin closed there haves x).mpr ⟨reach, held⟩
          obtain ⟨object, mem, rfl⟩ := List.mem_map.mp inside
          obtain ⟨row, listed, same⟩ := made.row_of mem
          have id_ : row.id = object.id := congrArg Filed.id same
          exact id_ ▸ between.done row listed

/-- A thin bundle is complete for its receiver exactly when every root that the receiver
holds is named by an object that travels, and the reader's ceilings let it through. -/
theorem createBundle_thin (open_ : (options.walk.getD .default).kinds.isUnrestricted = true)
    (thin : options.excludeHave = some have_) (plain : options.compress = false)
    (refCount : options.refs.length ≤ BundleLimits.default.maxRefs)
    (names : ∀ r ∈ options.refs, (strBytes r.name).length ≤ 512)
    (closed : DependencyClosed w) (there : ∀ r ∈ roots.map Prod.snd, Present w r)
    (haves : HaveClosed (lookup limits w) have_)
    (bundle : createBundle hash zstd limits fuel w roots options = some (.ok (file, summary)))
    (payload : summary.payloadBytes < 2 ^ 64) (size : summary.fileBytes < 2 ^ 64) :
    ∃ l assumed, (l.map StoredObject.id).Nodup ∧ assumed.Nodup ∧
      (∀ object ∈ l, readObject hash w object.id = .ok object) ∧
      (∀ x, x ∈ l.map StoredObject.id ↔ Lacked (lookup limits w) (roots.map Prod.snd) have_ x) ∧
      (∀ y, y ∈ assumed ↔ Assumed (lookup limits w) (roots.map Prod.snd) have_ y) ∧
      (CompleteFor hash zstd .default .default (lookup limits w) (roots.map Prod.snd) have_ file ↔
        Receivable .default (roots.map Prod.snd) have_ l assumed) := by
  obtain ⟨l, packed, stored, made⟩ := createBundle_made bundle
  rw [made.counted] at payload size
  have lacked := made.lacked open_ thin closed there haves
  have assumed := made.assumed open_ thin closed there haves
  refine ⟨l, sortIds packed.prerequisites, made.once open_, sortIds_nodup _, made.packs.read, lacked, assumed, ?_⟩
  have verifies := made.verifies .default (fun flag => by rw [plain] at flag; cases flag) open_ payload size
  rw [made.within_thin plain refCount names, made.closed_thin open_ thin closed there haves] at verifies
  constructor
  · rintro ⟨whole, -⟩
    obtain ⟨⟨rootCount, assumedCount, objects, small⟩, decodes, named⟩ := verifies.mp whole
    exact ⟨by rwa [List.length_map], assumedCount, objects, small, decodes, named⟩
  · rintro ⟨rootCount, assumedCount, objects, small, decodes, named⟩
    rw [List.length_map] at rootCount
    have whole := verifies.mpr ⟨⟨rootCount, assumedCount, objects, small⟩, decodes, named⟩
    refine ⟨whole, fun durability s u holds => ⟨importBundle_plain.runs s u, fun r t v run => ?_⟩⟩
    obtain ⟨verification, verified, complete⟩ := whole
    exact made.lands open_ thin plain closed there haves payload size verified complete decodes holds run

end Thin

section Page

/-- For a receiver that has the leaf. -/
def leafHeld : BundleOptions := { plainOptions with excludeHave := some [leaf] }

theorem thin_ends :
    (createBundle lengthHash noZstd .default 3 pageStore [(.tree, page)] leafHeld).map
      (fun r => r.map fun b => (b.2.payloadBytes, b.2.fileBytes)) = some (.ok (41, 271)) ∧
    (createBundle lengthHash noZstd .default 3 pageStore [(.chunk, leaf)] leafHeld).map
      (fun r => r.map fun b => (verifyBundle lengthHash .default noZstd b.1).map BundleVerification.isComplete) =
      some (.ok (.ok false)) := by decide +kernel

theorem page_declares (y : ObjectId) : Declares .tree pageBytes y ↔ y = leaf := by
  rw [declares_iff page_decodes.1, List.mem_singleton]

theorem leaf_declares (y : ObjectId) : ¬ Declares .chunk leafBytes y := by
  rw [declares_iff page_decodes.2.1]
  exact List.not_mem_nil

/-- The one edge of the store is from the page to its leaf. -/
theorem pageStore_edge {limits : DecodeLimits} {x y : ObjectId} (e : Edge (lookup limits pageStore) x y) :
    x = page ∧ y = leaf := by
  have pageFile : pageStore.get (.loose page) = some ⟨looseBytes .tree pageBytes, 0⟩ := get_put_self ..
  have leafFile : pageStore.get (.loose leaf) = some ⟨looseBytes .chunk leafBytes, 0⟩ := by
    rw [pageStore, get_put_ne (by decide)]
    exact get_put_self ..
  by_cases isPage : x = page
  · subst isPage
    exact ⟨rfl, (page_declares y).mp (declares_of_edge (by decide) pageFile e)⟩
  by_cases isLeaf : x = leaf
  · subst isLeaf
    exact absurd (declares_of_edge (by decide) leafFile e) (leaf_declares y)
  · obtain ⟨node, found, -⟩ := e
    unfold lookup pageStore at found
    rw [get_put_ne (by simpa using isPage), get_put_ne (by simpa using isLeaf),
      FileProg.get_empty] at found
    cases found

theorem pageStore_closed : DependencyClosed pageStore := by
  intro limits x y e
  rw [(pageStore_edge e).2]
  decide

theorem leaf_haveClosed : HaveClosed (lookup .default pageStore) [leaf] := by
  intro x y _ e
  rw [(pageStore_edge e).2]
  exact List.mem_singleton_self _

theorem pageStore_reachable {x : ObjectId} (reach : Reachable (lookup .default pageStore) [page] x) :
    x = page ∨ x = leaf := by
  obtain ⟨r, mem, path⟩ := reach
  cases List.mem_singleton.mp mem
  cases path with
  | refl => exact .inl rfl
  | tail _ edge => exact .inr (pageStore_edge edge).2

/-- A page goes to a receiver that has its leaf. -/
theorem createBundle_thin_page : ∃ file summary,
    createBundle lengthHash noZstd .default 3 pageStore [(.tree, page)] leafHeld = some (.ok (file, summary)) ∧
    CompleteFor lengthHash noZstd .default .default (lookup .default pageStore) [page] [leaf] file := by
  obtain ⟨r, bundle, same⟩ := Option.map_eq_some_iff.mp thin_ends.1
  cases r with
  | error e => cases same
  | ok b =>
      obtain ⟨file, summary⟩ := b
      rw [Except.map, Except.ok.injEq, Prod.mk.injEq] at same
      obtain ⟨payload, size⟩ := same
      dsimp only at payload size
      obtain ⟨l, assumed, once, distinct, read, lacked, assumes, iff⟩ := createBundle_thin rfl rfl rfl (by decide)
        (fun r mem => (List.not_mem_nil mem).elim) pageStore_closed (by decide) leaf_haveClosed bundle (by omega) (by omega)
      refine ⟨file, summary, bundle, iff.mpr ?_⟩
      have objects : ∀ object ∈ l, object = ⟨page, .tree, pageBytes⟩ := by
        intro object mem
        obtain ⟨reach, free⟩ := (lacked object.id).mp (List.mem_map_of_mem mem)
        have id_ := (pageStore_reachable reach).resolve_right fun same => free (same ▸ List.mem_singleton_self _)
        have found := read object mem
        rw [id_, page_decodes.2.2.1] at found
        exact (Except.ok.inj found).symm
      have one : l.length ≤ 1 := by
        have sub : l.map StoredObject.id ⊆ [page] := by
          intro x mem
          obtain ⟨object, inside, rfl⟩ := List.mem_map.mp mem
          rw [objects object inside]
          exact List.mem_singleton_self _
        simpa using (List.subperm_of_subset once sub).length_le
      have held : assumed.length ≤ 1 := by
        have sub : assumed ⊆ [leaf] := fun y mem => ((assumes y).mp mem).1
        exact (List.subperm_of_subset distinct sub).length_le
      have bytes : (payloadOf l).length ≤ 41 := by
        match l, one, objects with
        | [], _, _ => exact Nat.zero_le _
        | [object], _, objects =>
            rw [objects object (List.mem_singleton_self _)]
            decide
      refine ⟨by decide, held.trans (by decide), one.trans (by decide), bytes.trans (by decide), fun object mem => ?_, ?_⟩
      · rw [objects object mem]
        exact ⟨⟨1, .tree, [leaf], []⟩, page_decodes.1⟩
      · intro r mem held
        cases List.mem_singleton.mp mem
        exact absurd (List.mem_singleton.mp held) (by decide)

/-- A root that the receiver has counts as missing when nothing that travels names it. -/
theorem held_root_unsatisfied : ¬ ∀ (hash : Bytes → ChunkHash) (zstd : Zstd) (limits : DecodeLimits) (fuel : Nat)
    (w : ObjDisk) (roots : List (ObjectKind × ObjectId)) (options : BundleOptions) (have_ : List ObjectId) (file : Bytes)
    (summary : BundleSummary), (options.walk.getD .default).kinds.isUnrestricted = true →
    options.excludeHave = some have_ → options.compress = false →
    options.refs.length ≤ BundleLimits.default.maxRefs → (∀ r ∈ options.refs, (strBytes r.name).length ≤ 512) →
    DependencyClosed w → (∀ r ∈ roots.map Prod.snd, Present w r) → HaveClosed (lookup limits w) have_ →
    createBundle hash zstd limits fuel w roots options = some (.ok (file, summary)) →
    CompleteFor hash zstd .default .default (lookup limits w) (roots.map Prod.snd) have_ file := by
  intro h
  obtain ⟨r, bundle, same⟩ := Option.map_eq_some_iff.mp thin_ends.2
  cases r with
  | error e => cases same
  | ok b =>
      obtain ⟨v, verified, complete⟩ := (h _ _ _ _ _ _ _ [leaf] b.1 b.2 rfl rfl rfl (by decide)
        (fun r mem => (List.not_mem_nil mem).elim) pageStore_closed (by decide) leaf_haveClosed bundle).whole
      rw [Except.map, Except.ok.injEq, verified] at same
      rw [Except.map, Except.ok.injEq, complete] at same
      cases same

end Page
end Cavs
