import Cavs.Packing

/-!
# A bundle on its own

What is packed without a have-set goes from one store to another: where the ceilings of
the reader let it through, it opens as what was written, verifies as complete and, once it
is imported, makes the same bundle again. The writer knows none of these ceilings.
-/
namespace Cavs
open FileProg (Bytes IoError Op)
open FileProg.Eff
open ByteScan

section Made
variable {hash : Bytes → ChunkHash} {zstd : Zstd} {limits : DecodeLimits} {fuel : Nat}
  {w : ObjDisk} {roots : List (ObjectKind × ObjectId)} {options : BundleOptions} {file : Bytes}
  {summary : BundleSummary} {l : List StoredObject} {packed : PackedObjects} {stored : Bytes} {included : List ObjectId}

/-- The walk of a bundle: every object has to be there. -/
def BundleOptions.walker (options : BundleOptions) : WalkOptions :=
  { options.walk.getD .default with missingIsError := true }

theorem included_alone (alone : options.excludeHave = none) {roots : List ObjectId}
    (h : includedObjects limits fuel w roots options = some (.ok included)) :
    ∃ visits, walkReachable (lookup limits w) options.walker fuel roots = some (.ok visits) ∧
      included = visits.map Visit.id := by
  unfold includedObjects at h
  rw [alone] at h
  obtain ⟨r, walks, same⟩ := Option.map_eq_some_iff.mp h
  cases r with
  | error e => cases same
  | ok visits => exact ⟨visits, walks, (Except.ok.inj same).symm⟩

theorem included_thin {have_ : List ObjectId} (thin : options.excludeHave = some have_) {roots : List ObjectId}
    (h : includedObjects limits fuel w roots options = some (.ok included)) :
    ∃ plan, computeMissing (lookup limits w) options.walker (.ofList have_) fuel roots = some (.ok plan) ∧
      included = plan.missing := by
  unfold includedObjects at h
  rw [thin] at h
  obtain ⟨r, planned, same⟩ := Option.map_eq_some_iff.mp h
  cases r with
  | error e => cases same
  | ok plan => exact ⟨plan, planned, (Except.ok.inj same).symm⟩

/-- What a bundle was made of. -/
structure Made (hash : Bytes → ChunkHash) (zstd : Zstd) (limits : DecodeLimits) (fuel : Nat) (w : ObjDisk)
    (roots : List (ObjectKind × ObjectId)) (options : BundleOptions) (file : Bytes) (summary : BundleSummary)
    (l : List StoredObject) (packed : PackedObjects) (stored : Bytes) : Prop where
  included : includedObjects limits fuel w (roots.map Prod.snd) options = some (.ok (l.map StoredObject.id))
  packs : PackedFrom hash w (l.map StoredObject.id) options.excludeHave ⟨[], [], []⟩ packed l
  squeezed : if options.compress then zstd.compress (payloadOf l) = .ok stored else stored = payloadOf l
  sealed : file = sealUnsigned hash (writeHeader (headerOf roots options packed stored) ++ stored)
  counted : summary = ⟨packed.table.length, packed.payload.length, file.length, (sortIds packed.prerequisites).length⟩

theorem createBundle_made (h : createBundle hash zstd limits fuel w roots options = some (.ok (file, summary))) :
    ∃ l packed stored, Made hash zstd limits fuel w roots options file summary l packed stored := by
  unfold createBundle at h
  cases walks : includedObjects limits fuel w (roots.map Prod.snd) options with
  | none => rw [walks] at h; cases h
  | some r =>
      cases r with
      | error e => rw [walks] at h; cases h
      | ok included =>
          rw [walks, Option.map_some, Option.some.injEq] at h
          change (packObjects hash w included options.excludeHave included ⟨[], [], []⟩ >>= _) = _ at h
          cases packs : packObjects hash w included options.excludeHave included ⟨[], [], []⟩ with
          | error e => rw [packs] at h; cases h
          | ok packed =>
              obtain ⟨l, rfl, packed_⟩ := packObjects_ok packs
              have payload : packed.payload = payloadOf l := by rw [packed_.payload, List.nil_append]
              rw [packs] at h
              dsimp only [bind, Except.bind] at h
              by_cases flag : options.compress = true
              · rw [if_pos flag] at h
                cases shrunk : zstd.compress packed.payload with
                | error e => rw [shrunk] at h; cases h
                | ok stored =>
                    rw [shrunk] at h
                    cases h
                    refine ⟨l, packed, stored, walks, packed_, ?_, rfl, rfl⟩
                    rw [if_pos flag, ← payload]
                    exact shrunk
              · rw [if_neg flag] at h
                cases h
                refine ⟨l, packed, packed.payload, walks, packed_, ?_, rfl, rfl⟩
                rw [if_neg flag]
                exact payload

namespace Made
variable (made : Made hash zstd limits fuel w roots options file summary l packed stored)
include made

theorem payload : packed.payload = payloadOf l := by rw [made.packs.payload, List.nil_append]

theorem table : packed.table = rowsFrom 0 l := by
  rw [made.packs.table]
  rfl

theorem prerequisites (y : ObjectId) : y ∈ sortIds packed.prerequisites ↔ ∃ object ∈ l, ∃ frontier,
    frontierOf (l.map StoredObject.id) options.excludeHave object = .ok frontier ∧ y ∈ frontier := by
  rw [mem_sortIds, made.packs.prerequisites]
  exact or_iff_right List.not_mem_nil

theorem decoded (lossless : options.compress = true → zstd.Lossless) :
    decodePayload zstd options.compress stored packed.payload.length = .ok (payloadOf l) := by
  have squeezed := made.squeezed
  unfold decodePayload
  rw [made.payload]
  split_ifs at squeezed ⊢ with flag other
  · rw [lossless flag squeezed]
    dsimp only
    rw [if_neg (not_not.mpr rfl)]
  · exact absurd (by rw [squeezed]) other
  · rw [squeezed]

theorem known : ∀ row ∈ packed.table, row.kind.Known := by
  intro row mem
  rw [made.table] at mem
  obtain ⟨object, inside, same⟩ := @rowsFrom_mem l (payloadOf l) [] [] (payload_split rfl) row mem
  rw [← show object.kind = row.kind from congrArg Filed.kind same]
  exact (readObject_ok (made.packs.read object inside)).2.2.1

/-- The numbers of the header fit their fields when the file and its payload fit memory. -/
theorem sized (payload : packed.payload.length < 2 ^ 64) (size : file.length < 2 ^ 64) :
    (headerOf roots options packed stored).Sized := by
  have parts : (sealUnsigned hash (writeHeader (headerOf roots options packed stored) ++ stored)).length =
      _ + footerLen := (sealBundle_parts _ (hash _).2).1
  rw [made.sealed, parts] at size
  simp only [List.length_append, writeHeader, writeList, le_length] at size
  have countOf : ∀ {α : Type} {f : α → Bytes} {l : List α}, (∀ x, 1 ≤ (f x).length) → l.length ≤ (l.flatMap f).length := by
    intro α f l pos
    have := @length_flatMap_ge α f l 1 fun x _ => pos x
    omega
  have roots_ := @countOf _ writeBundleRoot roots fun r => by rw [writeBundleRoot, List.length_append, le_length]; omega
  have prerequisites_ := @countOf _ writeId (sortIds packed.prerequisites) fun id => by rw [writeId_length]; omega
  have refs_ := @countOf _ writeRef options.refs fun r => by
    have := writeVaruint_length_pos (strBytes r.name).length
    rw [writeRef, List.length_append]
    omega
  have rows_ := @countOf _ writeRow packed.table fun row => by have := writeRow_length row; omega
  dsimp only [headerOf] at size
  refine ⟨rfl, options.createdAt.getD 0 |>.toNat_lt, ?_, ?_, ⟨?_, fun r mem => ?_⟩, ⟨?_, fun row mem => ?_⟩, ?_, payload⟩
  · dsimp only [headerOf]
    omega
  · dsimp only [headerOf]
    omega
  · dsimp only [headerOf]
    omega
  · have := @length_le_flatMap _ writeRef _ _ mem
    rw [writeRef, List.length_append, List.length_append] at this
    dsimp only [headerOf] at this
    omega
  · dsimp only [headerOf]
    omega
  · refine ⟨made.known row mem, ?_⟩
    have table : row ∈ rowsFrom 0 l := made.table ▸ mem
    have inside := (@rowsFrom_filed l packed.payload [] [] (payload_split made.payload)).2 row table
    omega
  · dsimp only [headerOf]
    omega

/-- No object travels twice. -/
theorem once (open_ : options.walker.kinds.isUnrestricted = true) : (l.map StoredObject.id).Nodup := by
  cases excluded : options.excludeHave with
  | none =>
      obtain ⟨visits, walks, same⟩ := included_alone excluded made.included
      rw [same]
      exact (walkFrom_nodup open_ walks).1
  | some have_ =>
      obtain ⟨plan, planned, same⟩ := included_thin excluded made.included
      rw [same]
      exact (List.nodup_append.mp (computeMissing_covers open_ planned).2.2.1).1

theorem laid (open_ : options.walker.kinds.isUnrestricted = true) (payload : packed.payload.length < 2 ^ 64) :
    Laid hash ⟨(headerOf roots options packed stored).reread, payloadOf l⟩ l where
  payload := rfl
  table := made.table
  small := made.payload ▸ payload
  named object mem := (readObject_ok (made.packs.read object mem)).2.1
  once := made.once open_

/-- A bundle opens exactly when its header is within the ceilings of the reader. -/
theorem opens (reader : BundleLimits) (lossless : options.compress = true → zstd.Lossless) (payload : packed.payload.length < 2 ^ 64)
    (size : file.length < 2 ^ 64) : ∃ sum, ∀ a, openBytes zstd reader hash file = .ok a ↔
      (headerOf roots options packed stored).Within reader ∧
        a = ⟨⟨(headerOf roots options packed stored).reread, payloadOf l⟩, [], sum⟩ := by
  have small : (bundleMagic ++ (writeHeader (headerOf roots options packed stored) ++ stored)).length < 2 ^ 64 := by
    have parts : (sealUnsigned hash (writeHeader (headerOf roots options packed stored) ++ stored)).length =
        _ + footerLen := (sealBundle_parts _ (hash _).2).1
    rw [made.sealed, parts, List.length_append] at size
    omega
  rw [made.sealed]
  exact ⟨_, fun a => openBytes_sealUnsigned (made.sized payload size) rfl (made.decoded lossless) small⟩

/-- When a bundle verifies as complete. -/
theorem verifies (reader : BundleLimits) (lossless : options.compress = true → zstd.Lossless) (open_ : options.walker.kinds.isUnrestricted = true)
    (payload : packed.payload.length < 2 ^ 64) (size : file.length < 2 ^ 64) :
    (∃ v, verifyBundle hash reader zstd file = .ok v ∧ v.isComplete = true) ↔
      (headerOf roots options packed stored).Within reader ∧
        Closed reader.objects l (roots.map Prod.snd) (sortIds packed.prerequisites) := by
  obtain ⟨sum, opens⟩ := made.opens reader lossless payload size
  have closed := @verifyOpen_laid hash reader _ l (made.laid open_ payload)
  have ids : (roots.map fun r => (r.1.reread, r.2)).map Prod.snd = roots.map Prod.snd := by
    rw [List.map_map]
    rfl
  change _ ↔ Closed reader.objects l ((roots.map fun r => (r.1.reread, r.2)).map Prod.snd)
    (sortIds packed.prerequisites) at closed
  rw [ids] at closed
  rw [← closed]
  unfold verifyBundle
  constructor
  · rintro ⟨v, verified, complete⟩
    cases opened : openBytes zstd reader hash file with
    | error e => rw [opened] at verified; cases verified
    | ok a =>
        rw [opened] at verified
        obtain ⟨within, rfl⟩ := (opens a).mp opened
        exact ⟨within, v, verified, complete⟩
  · rintro ⟨within, v, verified, complete⟩
    rw [(opens _).mpr ⟨within, rfl⟩]
    exact ⟨v, verified, complete⟩

/-- Without a have-set, what an object names travels with it, and every root travels. -/
theorem closed_alone (open_ : options.walker.kinds.isUnrestricted = true) (alone : options.excludeHave = none) :
    (∀ object ∈ l, ∀ y, Declares object.kind object.bytes y → y ∈ l.map StoredObject.id) ∧
      ∀ r ∈ roots.map Prod.snd, r ∈ l.map StoredObject.id := by
  obtain ⟨visits, walks, same⟩ := included_alone alone made.included
  obtain ⟨nodes, all⟩ := walkFrom_visits open_ Walked.init walks
  have reached : ∀ x, Reachable (lookup limits w) (roots.map Prod.snd) x ↔ x ∈ l.map StoredObject.id := by
    intro x
    rw [all x, same, List.mem_map]
    exact or_iff_right List.not_mem_nil
  constructor
  · intro object mem y declares
    have here := List.mem_map_of_mem (f := StoredObject.id) mem
    rw [same, List.mem_map] at here
    obtain ⟨v, visited, id_⟩ := here
    have found := nodes v visited
    rw [id_] at found
    have read := made.packs.read object mem
    obtain ⟨n, node⟩ := lookup_read read found
    rw [node] at found
    have reach := (reached object.id).mpr (List.mem_map_of_mem mem)
    exact (reached y).mp (reach.edge ((edge_iff read found y).mpr declares))
  · intro r mem
    exact (reached r).mp ⟨r, mem, .refl⟩

/-- A store that has the objects makes the same bundle. -/
theorem again {v : ObjDisk} {own : DecodeLimits}
    (bundle : createBundle hash zstd limits fuel w roots options = some (.ok (file, summary)))
    (open_ : options.walker.kinds.isUnrestricted = true) (alone : options.excludeHave = none)
    (files : ∀ object ∈ l, ∃ t, v.get (.loose object.id) = some ⟨looseBytes object.kind object.bytes, t⟩)
    (decodes : ∀ object ∈ l, ∃ e, decodeEnvelope object.kind object.bytes own = .ok e) :
    createBundle hash zstd own fuel v roots options = some (.ok (file, summary)) := by
  obtain ⟨visits, walks, same⟩ := included_alone alone made.included
  obtain ⟨nodes, -⟩ := walkFrom_visits open_ Walked.init walks
  have objects : ∀ {id}, id ∈ l.map StoredObject.id → readObject hash v id = readObject hash w id := by
    intro id mem
    obtain ⟨object, inside, rfl⟩ := List.mem_map.mp mem
    obtain ⟨t, file⟩ := files object inside
    have read := made.packs.read object inside
    obtain ⟨-, named, known, -⟩ := readObject_ok read
    rw [read, readObject_looseBytes known named file]
  have graph : ∀ visit ∈ visits, lookup own v visit.id = lookup limits w visit.id := by
    intro visit mem
    have inside : visit.id ∈ l.map StoredObject.id := same ▸ List.mem_map_of_mem mem
    obtain ⟨object, inside, id_⟩ := List.mem_map.mp inside
    have found := nodes visit mem
    rw [← id_] at found ⊢
    have read := made.packs.read object inside
    obtain ⟨n, node⟩ := lookup_read read found
    obtain ⟨t, file⟩ := files object inside
    obtain ⟨e, decoded⟩ := decodes object inside
    exact lookup_same read (node ▸ found) file decoded
  have walks' : walkReachable (lookup own v) options.walker fuel (roots.map Prod.snd) = some (.ok visits) :=
    walkFrom_congr open_ walks graph
  have included' : includedObjects own fuel v (roots.map Prod.snd) options = some (.ok (l.map StoredObject.id)) := by
    unfold includedObjects
    rw [alone]
    change (walkReachable (lookup own v) options.walker fuel (roots.map Prod.snd)).map _ = _
    rw [walks', same]
    rfl
  rw [← bundle]
  unfold createBundle
  rw [included', made.included, Option.map_some, Option.map_some]
  refine congrArg some ?_
  change (packObjects hash v _ _ _ _ >>= _) = (packObjects hash w _ _ _ _ >>= _)
  rw [packObjects_congr fun id mem => objects mem]

end Made

end Made

section Whole
variable {hash : Bytes → ChunkHash} {zstd : Zstd} {limits own : DecodeLimits} {reader : BundleLimits} {fuel : Nat}
  {w : ObjDisk} {roots : List (ObjectKind × ObjectId)} {options : BundleOptions} {file : Bytes}
  {summary : BundleSummary} {l : List StoredObject} {packed : PackedObjects} {stored : Bytes}

/-- A bundle that a reader hands back whole: it opens as what was written, verifies as
complete, and makes itself again from a store that was empty before its import. -/
structure ReadsBack (hash : Bytes → ChunkHash) (zstd : Zstd) (reader : BundleLimits) (own : DecodeLimits) (fuel : Nat)
    (roots : List (ObjectKind × ObjectId)) (options : BundleOptions) (file : Bytes) (summary : BundleSummary)
    (l : List StoredObject) : Prop where
  opens : ∃ a, openBytes zstd reader hash file = .ok a ∧ a.content.roots = roots ∧ a.content.refs = options.refs ∧
    a.content.table = rowsFrom 0 l ∧ a.content.table.map (sliceOf a.content.payload) = l.map StoredObject.bytes
  whole : ∃ v, verifyBundle hash reader zstd file = .ok v ∧ v.isComplete = true
  again : ∀ durability s u, (∀ id, ¬ Present u id) →
    (∃ r t v, (importBundle hash zstd reader own durability file).Runs (objSem fun _ _ => False) s u r t v) ∧
    ∀ r t v, (importBundle hash zstd reader own durability file).Runs (objSem fun _ _ => False) s u r t v →
      (∃ report, r = .ok report) ∧ createBundle hash zstd own fuel v roots options = some (.ok (file, summary))

/-- The ceilings of a reader, and what of a root a tag tells. -/
structure Readable (zstd : Zstd) (reader : BundleLimits) (roots : List (ObjectKind × ObjectId)) (options : BundleOptions)
    (l : List StoredObject) : Prop where
  rootCount : roots.length ≤ reader.maxRoots
  kinds : ∀ r ∈ roots, r.1.Known
  refCount : options.refs.length ≤ reader.maxRefs
  names : ∀ r ∈ options.refs, (strBytes r.name).length ≤ 512
  objects : l.length ≤ reader.maxObjects
  payload : (payloadOf l).length ≤ reader.maxPayloadBytes
  expansion : options.compress = true → ∀ stored, zstd.compress (payloadOf l) = .ok stored →
    (payloadOf l).length ≤ max stored.length 1 * reader.maxExpansionRatio
  decodes : ∀ object ∈ l, ∃ e, decodeEnvelope object.kind object.bytes reader.objects = .ok e

/-- What the ceilings mean for the header of a bundle that assumes nothing. -/
theorem Made.within_iff (made : Made hash zstd limits fuel w roots options file summary l packed stored)
    (alone : sortIds packed.prerequisites = []) :
    (headerOf roots options packed stored).Within reader ↔
      roots.length ≤ reader.maxRoots ∧ options.refs.length ≤ reader.maxRefs ∧
        (∀ r ∈ options.refs, (strBytes r.name).length ≤ 512) ∧ l.length ≤ reader.maxObjects ∧
        (payloadOf l).length ≤ reader.maxPayloadBytes ∧
        (options.compress = true → (payloadOf l).length ≤ max stored.length 1 * reader.maxExpansionRatio) := by
  have rows : packed.table.length = l.length := by rw [made.table, rowsFrom_length]
  constructor
  · rintro ⟨roots_, -, refs, names, table, payload, expansion⟩
    dsimp only [headerOf] at *
    rw [rows] at table
    rw [made.payload] at payload expansion
    exact ⟨roots_, refs, names, table, payload, expansion⟩
  · rintro ⟨roots_, refs, names, table, payload, expansion⟩
    rw [← rows] at table
    rw [← made.payload] at payload expansion
    refine ⟨roots_, ?_, refs, names, table, payload, expansion⟩
    dsimp only [headerOf]
    rw [alone]
    exact Nat.zero_le _

theorem Made.alone_prerequisites (made : Made hash zstd limits fuel w roots options file summary l packed stored)
    (alone : options.excludeHave = none) : sortIds packed.prerequisites = [] := by
  rw [List.eq_nil_iff_forall_not_mem]
  intro y mem
  obtain ⟨object, -, frontier, front, inside⟩ := (made.prerequisites y).mp mem
  rw [alone] at front
  cases front
  cases inside

theorem fits_of_decoded {kind : ObjectKind} {bytes : Bytes} {e : ObjectEnvelope}
    (h : decodeEnvelope kind bytes own = .ok e) : bytes.length ≤ own.maxLenFor kind := by
  unfold decodeEnvelope at h
  split_ifs at h with large
  all_goals exact Nat.le_of_not_lt large

/-- Every object has a row. -/
theorem Made.row_of (made : Made hash zstd limits fuel w roots options file summary l packed stored)
    {object : StoredObject} (mem : object ∈ l) : ∃ row ∈ packed.table, row.filed (payloadOf l) = object.filed := by
  have filed := List.mem_map_of_mem (f := StoredObject.filed) mem
  rw [← (@rowsFrom_filed l (payloadOf l) [] [] (payload_split rfl)).1, List.mem_map] at filed
  obtain ⟨row, mem, same⟩ := filed
  exact ⟨row, made.table ▸ mem, same⟩

theorem Made.row_fits (made : Made hash zstd limits fuel w roots options file summary l packed stored)
    (decodes : ∀ object ∈ l, ∃ e, decodeEnvelope object.kind object.bytes own = .ok e) {row : Row}
    (mem : row ∈ packed.table) : row.Fits own (payloadOf l) := by
  rw [made.table] at mem
  obtain ⟨object, inside, same⟩ := @rowsFrom_mem l (payloadOf l) [] [] (payload_split rfl) row mem
  obtain ⟨e, decoded⟩ := decodes object inside
  rw [StoredObject.filed, Row.filed, Filed.mk.injEq] at same
  rw [Row.Fits, ← same.2.1, ← same.2.2]
  exact fits_of_decoded decoded

/-- A bundle is read back whole exactly when it is within the ceilings. -/
theorem Made.readsBack_iff (made : Made hash zstd limits fuel w roots options file summary l packed stored)
    (bundle : createBundle hash zstd limits fuel w roots options = some (.ok (file, summary)))
    (lossless : zstd.Lossless) (open_ : options.walker.kinds.isUnrestricted = true) (alone : options.excludeHave = none)
    (payload : packed.payload.length < 2 ^ 64) (size : file.length < 2 ^ 64) :
    ReadsBack hash zstd reader reader.objects fuel roots options file summary l ↔
      Readable zstd reader roots options l := by
  have prerequisites := made.alone_prerequisites alone
  obtain ⟨inside, reached⟩ := made.closed_alone open_ alone
  obtain ⟨sum, opens⟩ := made.opens reader (fun _ => lossless) payload size
  have verifies := made.verifies reader (fun _ => lossless) open_ payload size
  rw [made.within_iff prerequisites] at opens verifies
  have slices : (rowsFrom 0 l).map (sliceOf (payloadOf l)) = l.map StoredObject.bytes := by
    have filed := congrArg (List.map Filed.bytes) (@rowsFrom_filed l (payloadOf l) [] [] (payload_split rfl)).1
    rw [List.map_map, List.map_map] at filed
    exact filed
  constructor
  · rintro ⟨⟨a, opened, same, -⟩, whole, -⟩
    obtain ⟨⟨roots_, refs, names, objects, small, expands⟩, closed⟩ := verifies.mp whole
    obtain ⟨-, rfl⟩ := (opens a).mp opened
    refine ⟨roots_, fun r mem => ?_, refs, names, objects, small, fun flag stored' shrunk => ?_, closed.decodes⟩
    · change roots.map (fun r => (r.1.reread, r.2)) = roots at same
      have := List.map_inj_left.mp (same.trans (List.map_id roots).symm) r mem
      exact ObjectKind.reread_eq_iff.mp (congrArg Prod.fst this)
    · have squeezed := made.squeezed
      rw [if_pos flag, shrunk] at squeezed
      cases squeezed
      exact expands flag
  · rintro ⟨roots_, kinds, refs, names, objects, small, expansion, decodes⟩
    have expands : options.compress = true →
        (payloadOf l).length ≤ max stored.length 1 * reader.maxExpansionRatio := by
      intro flag
      have squeezed := made.squeezed
      rw [if_pos flag] at squeezed
      exact expansion flag stored squeezed
    have opened := (opens _).mpr ⟨⟨roots_, refs, names, objects, small, expands⟩, rfl⟩
    have closed : Closed reader.objects l (roots.map Prod.snd) (sortIds packed.prerequisites) :=
      ⟨decodes, fun object mem y declares => .inl (inside object mem y declares), fun r mem => .inl (reached r mem)⟩
    have whole := verifies.mpr ⟨⟨roots_, refs, names, objects, small, expands⟩, closed⟩
    have same : roots.map (fun r => (r.1.reread, r.2)) = roots := by
      conv_rhs => rw [← List.map_id roots]
      refine List.map_inj_left.mpr fun r mem => ?_
      rw [ObjectKind.reread_eq_iff.mpr (kinds r mem)]
      rfl
    refine ⟨⟨_, opened, same, rfl, made.table, ?_⟩, whole, fun durability s u empty => ⟨importBundle_plain.runs s u, ?_⟩⟩
    · exact (congrArg _ made.table).trans slices
    · intro r t v run
      obtain ⟨verification, verified, complete⟩ := whole
      unfold verifyBundle at verified
      rw [opened] at verified
      rw [BundleVerification.isComplete, Bool.and_eq_true, List.isEmpty_iff, List.isEmpty_iff] at complete
      have checked := verifyOpen_checked verified
      obtain ⟨⟨report, ok, -⟩, between⟩ :=
        ((wp_iff ..).mp (importBundle_lands ⟨opened, _, verified, complete.2⟩ fun row mem =>
          Or.inr (made.row_fits decodes mem))).2 r t v run
      refine ⟨⟨report, ok⟩, made.again bundle open_ alone (fun object mem => ?_) decodes⟩
      obtain ⟨row, listed, same⟩ := made.row_of mem
      rw [Row.filed, StoredObject.filed, Filed.mk.injEq] at same
      have absent : u.get (.loose row.id) = none := by
        rw [← Option.not_isSome_iff_eq_none]
        exact empty row.id
      obtain ⟨time, landed⟩ := between.landed (fun r mem => checked.one r mem row listed) listed absent
      rw [same.1, same.2.1] at landed
      refine ⟨time, landed.trans ?_⟩
      rw [show sliceOf _ row = object.bytes from same.2.2]

/-- A bundle made without a have-set is read back whole by the default reader exactly when
it is within the ceilings of that reader. -/
theorem createBundle_readsBack (lossless : zstd.Lossless)
    (open_ : (options.walk.getD .default).kinds.isUnrestricted = true) (alone : options.excludeHave = none)
    (bundle : createBundle hash zstd limits fuel w roots options = some (.ok (file, summary)))
    (payload : summary.payloadBytes < 2 ^ 64) (size : summary.fileBytes < 2 ^ 64) :
    ∃ l, includedObjects limits fuel w (roots.map Prod.snd) options = some (.ok (l.map StoredObject.id)) ∧
      (∀ object ∈ l, readObject hash w object.id = .ok object) ∧
      (ReadsBack hash zstd .default .default fuel roots options file summary l ↔
        Readable zstd .default roots options l) := by
  obtain ⟨l, packed, stored, made⟩ := createBundle_made bundle
  rw [made.counted] at payload size
  exact ⟨l, made.included, made.packs.read, made.readsBack_iff bundle lossless open_ alone payload size⟩

/-- No references, no have-set, no compression. -/
def plainOptions : BundleOptions := ⟨[], none, none, false, none⟩

theorem noZstd_lossless : noZstd.Lossless := by
  intro raw stored shrunk
  cases shrunk

theorem page_decodes :
    decodeEnvelope .tree pageBytes .default = .ok ⟨1, .tree, [leaf], []⟩ ∧
    decodeEnvelope .chunk leafBytes .default = .ok ⟨1, .chunk, [], leafBytes⟩ ∧
    readObject lengthHash pageStore page = .ok ⟨page, .tree, pageBytes⟩ ∧
    readObject lengthHash pageStore leaf = .ok ⟨leaf, .chunk, leafBytes⟩ ∧
    includedObjects .default 3 pageStore [page] plainOptions = some (.ok [page, leaf]) ∧
    (createBundle lengthHash noZstd .default 3 pageStore [(.tree, page)] plainOptions).map
      (fun r => r.map fun b => (b.2.payloadBytes, b.2.fileBytes)) = some (.ok (42, 278)) := by decide +kernel

/-- A page and its leaf come back whole. -/
theorem createBundle_readsBack_page : ∃ file summary l,
    createBundle lengthHash noZstd .default 3 pageStore [(.tree, page)] plainOptions = some (.ok (file, summary)) ∧
    ReadsBack lengthHash noZstd .default .default 3 [(.tree, page)] plainOptions file summary l := by
  obtain ⟨pageDecodes, leafDecodes, pageRead, leafRead, ids, ends⟩ := page_decodes
  obtain ⟨r, bundle, same⟩ := Option.map_eq_some_iff.mp ends
  cases r with
  | error e => cases same
  | ok b =>
      obtain ⟨file, summary⟩ := b
      rw [Except.map, Except.ok.injEq, Prod.mk.injEq] at same
      obtain ⟨payload, size⟩ := same
      dsimp only at payload size
      obtain ⟨l, included, read, iff⟩ := createBundle_readsBack noZstd_lossless rfl rfl bundle (by omega) (by omega)
      have objects : l = [⟨page, .tree, pageBytes⟩, ⟨leaf, .chunk, leafBytes⟩] := by
        rw [List.map_cons, List.map_nil, ids, Option.some.injEq, Except.ok.injEq] at included
        obtain ⟨a, rest, rfl, first, others⟩ := List.map_eq_cons_iff.mp included.symm
        obtain ⟨b, rest, rfl, second, others⟩ := List.map_eq_cons_iff.mp others
        cases List.map_eq_nil_iff.mp others
        have firstRead := read a (by simp)
        have secondRead := read b (by simp)
        rw [first, pageRead] at firstRead
        rw [second, leafRead] at secondRead
        rw [← Except.ok.inj firstRead, ← Except.ok.inj secondRead]
      refine ⟨file, summary, l, bundle, iff.mpr ?_⟩
      rw [objects]
      refine ⟨by decide, by decide, by decide, fun r mem => (List.not_mem_nil mem).elim, by decide, by decide,
        fun flag => Bool.noConfusion flag, fun object mem => ?_⟩
      rcases List.mem_cons.mp mem with rfl | mem
      · exact ⟨⟨1, .tree, [leaf], []⟩, pageDecodes⟩
      · cases List.mem_singleton.mp mem
        exact ⟨⟨1, .chunk, [], leafBytes⟩, leafDecodes⟩

/-- A reference with a long name, which the writer takes and no reader does. -/
def longName : BundleOptions := { plainOptions with refs := [⟨String.ofList (List.replicate 513 'a'), leaf⟩] }

/-- Not everything that is written opens. -/
theorem long_name_written : ¬ ∀ (hash : Bytes → ChunkHash) (zstd : Zstd) (limits : DecodeLimits) (fuel : Nat) (w : ObjDisk)
    (roots : List (ObjectKind × ObjectId)) (options : BundleOptions) (file : Bytes) (summary : BundleSummary),
    zstd.Lossless → (options.walk.getD .default).kinds.isUnrestricted = true → options.excludeHave = none →
    createBundle hash zstd limits fuel w roots options = some (.ok (file, summary)) →
    ∃ a, openBytes zstd .default hash file = .ok a := by
  intro h
  have ends : (createBundle lengthHash noZstd .default 3 pageStore [(.chunk, leaf)] longName).map
      (fun r => r.map fun b => (openBytes noZstd .default lengthHash b.1).map fun _ => ()) =
        some (.ok (.error badRefName)) := by decide +kernel
  obtain ⟨r, bundle, same⟩ := Option.map_eq_some_iff.mp ends
  cases r with
  | error e => cases same
  | ok b =>
      obtain ⟨a, opened⟩ := h _ _ _ _ _ _ _ b.1 b.2 noZstd_lossless rfl rfl bundle
      rw [Except.map, Except.ok.injEq, opened] at same
      cases same

end Whole
end Cavs
