import Cavs.SessionRoute

/-!
# What a session's answers hold

A disk that answers with the chunks of the asset makes a server that answers a request with
one instruction for each chunk it names, in their order, and every inline payload is
accepted by a client as the chunk it is sent for.
-/
namespace Cavs
open FileProg (Bytes)

section Stored
variable {env : ContainerEnv} {stored : StoredForm} {raw : Bytes} {content : ChunkHash → Bytes} {asset : Asset}

/-- A stored form of these bytes that a container takes; grouped bytes are compressed. -/
structure StoredForm.Holds (env : ContainerEnv) (stored : StoredForm) (raw : Bytes) : Prop where
  unpacks : unpackStored env stored.flags stored.lenRaw stored.bytes = .ok raw
  long : raw.length = stored.lenRaw.toNat
  shortRaw : raw.length ≤ maxChunkRaw
  short : stored.bytes.length ≤ maxChunkRaw
  grouped : stored.flags &&& chunkFlagBg4 ≠ 0 → stored.flags &&& chunkFlagZstd ≠ 0

/-- What the disk reads are the asset's chunks, which have the hashes of its table. -/
structure TrueDisk (env : ContainerEnv) (asset : Asset) (content : ChunkHash → Bytes) (disk : ServerDisk) : Prop where
  named : ∀ idx hash, asset.hashOf idx = some hash → env.hashChunk (content hash) = hash
  batch : ∀ n k cold payloads, readStoredBatch asset (disk.reads n k) cold = .ok payloads →
    List.Forall₂ (fun idx stored => ∀ hash, asset.hashOf idx = some hash → stored.Holds env (content hash)) cold payloads
  raw : ∀ idx b, disk.readRaw idx = some b → ∀ hash, asset.hashOf idx = some hash → b = content hash

def DeliveryInstr.hash : DeliveryInstr → ChunkHash
  | .ref hash => hash
  | .inline hash .. => hash

/-- A client takes the instruction, and an inline payload for the chunk of its hash. -/
def DeliveryInstr.Sound (env : ContainerEnv) (content : ChunkHash → Bytes) : DeliveryInstr → Prop
  | .ref _ => True
  | .inline hash lenRaw compression payload =>
      (DeliveryInstr.inline hash lenRaw compression payload).Fits ∧
        wireRaw env hash lenRaw compression payload = .ok (content hash) ∧
        (content hash).length = lenRaw.toNat ∧ env.hashChunk (content hash) = hash

/-- The form that travels is taken for the chunk. -/
theorem Holds.wire (h : stored.Holds env raw) (hash : ChunkHash) :
    ∃ payload flags, wirePayload env stored = .ok (payload, flags) ∧ payload.length ≤ maxChunkRaw ∧
      wireRaw env hash stored.lenRaw (if flags &&& chunkFlagZstd ≠ 0 then compressionZstd else compressionNone) payload =
        .ok raw := by
  have unpacks := h.unpacks
  have plain : wireRaw env hash stored.lenRaw compressionNone raw = .ok raw := if_pos rfl
  by_cases grouped : stored.flags &&& chunkFlagBg4 ≠ 0
  · simp only [unpackStored, if_pos (h.grouped grouped), if_pos grouped] at unpacks
    cases unzip : env.decompress stored.lenRaw.toNat stored.bytes with
    | error e =>
        rw [unzip] at unpacks
        cases unpacks
    | ok bytes =>
        rw [unzip] at unpacks
        cases unpacks
        exact ⟨bg4Ungroup bytes, 0, by rw [wirePayload, if_pos grouped, unzip], h.shortRaw, plain⟩
  · simp only [unpackStored, if_neg grouped] at unpacks
    refine ⟨stored.bytes, stored.flags, by rw [wirePayload, if_neg grouped], h.short, ?_⟩
    by_cases zipped : stored.flags &&& chunkFlagZstd ≠ 0
    · rw [if_pos zipped] at unpacks ⊢
      cases unzip : env.decompress stored.lenRaw.toNat stored.bytes with
      | error e =>
          rw [unzip] at unpacks
          cases unpacks
      | ok bytes =>
          rw [unzip] at unpacks
          cases unpacks
          have differs : compressionZstd ≠ compressionNone := by decide
          simp only [wireRaw, if_neg differs, if_pos, unzip]
    · rw [if_neg zipped] at unpacks ⊢
      cases unpacks
      exact plain

theorem planSlots_idx {force : Bool} {chunks : List UInt32} {known : Finset UInt32} :
    (planSlots force chunks known).1.map Slot.idx = chunks := by
  induction chunks generalizing known with
  | nil => rfl
  | cons idx rest ih =>
      simp only [planSlots]
      split
      · exact congrArg (idx :: ·) ih
      · exact congrArg (idx :: ·) ih

/-- Filled slots are instructions for their chunks, and the inline ones are sound. -/
theorem fillSlots_sound (named : ∀ idx hash, asset.hashOf idx = some hash → env.hashChunk (content hash) = hash)
    {slots : List Slot} {payloads : List StoredForm} {instrs : List DeliveryInstr}
    (read : List.Forall₂ (fun idx stored => ∀ hash, asset.hashOf idx = some hash → stored.Holds env (content hash))
      (coldOf slots) payloads) (h : fillSlots env asset slots payloads = .ok instrs) :
    (instrs.map fun i => some i.hash) = slots.map (fun slot => asset.hashOf slot.idx) ∧
      ∀ i ∈ instrs, i.Sound env content := by
  induction slots generalizing payloads instrs with
  | nil =>
      cases h
      simp
  | cons slot rest ih =>
      cases slot with
      | ref idx =>
          obtain ⟨hash, found, h⟩ := Outcome.ok_of_bindO h
          obtain ⟨tail, later, h⟩ := Outcome.ok_of_bindO h
          cases h
          obtain ⟨names, sound⟩ := ih read later
          have here := (hashAt_ok found).symm
          exact ⟨List.cons_eq_cons.mpr ⟨here, names⟩, List.forall_mem_cons.mpr ⟨trivial, sound⟩⟩
      | inline idx =>
          cases read with
          | @cons _ stored _ payloads holds read =>
              obtain ⟨⟨payload, flags⟩, wire, h⟩ := Outcome.ok_of_bindO h
              obtain ⟨hash, found, h⟩ := Outcome.ok_of_bindO h
              obtain ⟨tail, later, h⟩ := Outcome.ok_of_bindO h
              cases h
              obtain ⟨names, sound⟩ := ih read later
              have here := hashAt_ok found
              have holds := holds hash here
              obtain ⟨payload', flags', wire', short, taken⟩ := Holds.wire holds hash
              cases wire.symm.trans wire'
              refine ⟨List.cons_eq_cons.mpr ⟨here.symm, names⟩, List.forall_mem_cons.mpr ⟨⟨⟨?_, ?_, short⟩, taken,
                holds.long, named idx hash here⟩, sound⟩⟩
              · split <;> decide
              · exact holds.long ▸ holds.shortRaw

end Stored

section Answers
variable {env : ContainerEnv} {asset : Asset} {content : ChunkHash → Bytes} {disk : ServerDisk} {maxCold b n : Nat}
  {known known' : Finset UInt32}

/-- The hashes of the chunks an item asks for. -/
def Item.names (asset : Asset) (item : Item) : List ChunkHash :=
  match item.found with
  | .ok chunks => chunks.filterMap asset.hashOf
  | .error _ => []

/-- The instructions are for the item's chunks, and can be taken. -/
structure Item.AnsweredBy (env : ContainerEnv) (asset : Asset) (content : ChunkHash → Bytes) (item : Item)
    (instrs : List DeliveryInstr) : Prop where
  names : instrs.map DeliveryInstr.hash = item.names asset
  sound : ∀ i ∈ instrs, i.Sound env content
  long : ∀ chunks, item.found = .ok chunks → instrs.length = chunks.length
  found : ∃ chunks, item.found = .ok chunks

theorem planItem_answered (true_ : TrueDisk env asset content disk) {item : Item} {instrs : List DeliveryInstr}
    (h : planItem env asset maxCold (disk.reads b n) item known = (.ok instrs, known')) :
    item.AnsweredBy env asset content instrs := by
  cases found : item.found with
  | error e =>
      rw [@planItem_missing env asset maxCold n (disk.reads b) known item e found] at h
      cases h
  | ok chunks =>
      rw [@planItem_found env asset maxCold n (disk.reads b) known item chunks found] at h
      simp only [planChunks] at h
      split at h
      · cases h
      · rename_i payloads read
        obtain ⟨filled, -⟩ := Prod.mk.inj h
        obtain ⟨names, sound⟩ := fillSlots_sound true_.named (true_.batch b n _ _ read) filled
        have listed : (instrs.map fun i => some i.hash) = chunks.map asset.hashOf := by
          rw [names, ← @planSlots_idx (collapses maxCold item.mayCollapse known chunks) chunks known, List.map_map,
            planSlots_idx]
          rfl
        refine ⟨?_, sound, ?_, chunks, found⟩
        · have dropped := congrArg (List.filterMap id) listed
          rw [List.filterMap_map, List.filterMap_map] at dropped
          simp only [Item.names, found]
          simpa [Function.comp_def] using dropped
        · intro _ same
          cases found.symm.trans same
          simpa using congrArg List.length listed

theorem planItems_answered (true_ : TrueDisk env asset content disk) {items : List Item} {l : List (List DeliveryInstr)}
    (h : planItems env asset maxCold (disk.reads b) items n known = (.ok l, known')) :
    List.Forall₂ (fun item instrs => item.AnsweredBy env asset content instrs) items l := by
  induction items generalizing n known l with
  | nil =>
      cases h
      exact List.Forall₂.nil
  | cons item rest ih =>
      obtain ⟨instrs, k, one, h⟩ := Planning.ok_of_bind h
      obtain ⟨more, k', later, h⟩ := Planning.ok_of_bind h
      cases h
      exact List.Forall₂.cons (planItem_answered true_ one) (ih later)

end Answers

section Response
variable {env : ContainerEnv} {asset : Asset} {content : ChunkHash → Bytes} {disk : ServerDisk} {maxCold b : Nat}
  {known known' : Finset UInt32} {items : List Item} {l : List (List DeliveryInstr)} {chunks : List UInt32}
  {req : BatchRequest} {resp : BatchResponse}

theorem answered_names (h : List.Forall₂ (Item.AnsweredBy env asset content) items l) :
    l.flatten.map DeliveryInstr.hash = items.flatMap (Item.names asset) := by
  induction h with
  | nil => rfl
  | cons one _ ih => rw [List.flatten_cons, List.map_append, ih, List.flatMap_cons, one.names]

theorem answered_sound (h : List.Forall₂ (Item.AnsweredBy env asset content) items l) :
    ∀ i ∈ l.flatten, i.Sound env content := by
  induction h with
  | nil => simp
  | cons one _ ih =>
      intro i mem
      rcases List.mem_append.mp mem with here | later
      · exact one.sound i here
      · exact ih i later

theorem answered_short (h : List.Forall₂ (Item.AnsweredBy env asset content) items l)
    (short : ∀ item ∈ items, ∀ chunks, item.found = .ok chunks → chunks.length < 2 ^ 32) :
    ∀ instrs ∈ l, instrs.length < 2 ^ 32 := by
  induction h with
  | nil => simp
  | cons one _ ih =>
      obtain ⟨here, later⟩ := List.forall_mem_cons.mp short
      obtain ⟨chunks, found⟩ := one.found
      refine List.forall_mem_cons.mpr ⟨?_, ih later⟩
      rw [one.long chunks found]
      exact here chunks found

/-- The counts of the asset's tables have room on the wire. -/
structure Asset.CountsFit (asset : Asset) : Prop where
  tracks : asset.tracks.length < 2 ^ 32
  inits : ∀ t ∈ asset.tracks, t.initChunks.length < 2 ^ 32
  chunks : ∀ s ∈ asset.segments, s.chunks.length < 2 ^ 32

theorem initItem_short (counts : asset.CountsFit) {id : UInt32} (found : (initItem asset id).found = .ok chunks) :
    chunks.length < 2 ^ 32 := by
  simp only [initItem] at found
  split at found
  · rename_i track there
    cases found
    exact counts.inits track (List.mem_of_find?_eq_some there)
  · cases found

theorem segmentItem_short (counts : asset.CountsFit) {id : UInt64}
    (found : (segmentItem asset id).found = .ok chunks) : chunks.length < 2 ^ 32 := by
  simp only [segmentItem] at found
  split at found
  · rename_i segment there
    cases found
    exact counts.chunks segment (List.mem_of_find?_eq_some there)
  · cases found

/-- A response has the chunks of the request's items, in forms a client takes. -/
structure BatchResponse.Answers (env : ContainerEnv) (asset : Asset) (content : ChunkHash → Bytes) (req : BatchRequest)
    (resp : BatchResponse) : Prop where
  names : resp.instrs.map DeliveryInstr.hash = (req.items asset).flatMap (Item.names asset)
  sound : ∀ i ∈ resp.instrs, i.Sound env content
  counts : resp.CountsFit

theorem planRequest_answers (true_ : TrueDisk env asset content disk) (counts : asset.CountsFit)
    (fewInits : req.trackInits.length < 2 ^ 32) (fewSegments : req.segmentIds.length < 2 ^ 32)
    (h : planRequest env asset maxCold (disk.reads b) req known = (.ok resp, known')) :
    resp.Answers env asset content req := by
  obtain ⟨inits, k, first, h⟩ := Planning.ok_of_bind h
  obtain ⟨segments, k', second, h⟩ := Planning.ok_of_bind h
  cases h
  have longInits := planItems_length first
  have longSegments := planItems_length second
  rw [List.length_map] at longInits longSegments
  have answeredInits := planItems_answered true_ first
  have answeredSegments := planItems_answered true_ second
  have both := List.rel_append answeredInits answeredSegments
  have ofInits := @map_zipWith _ _ _ InitDelivery.mk InitDelivery.instrs (fun _ _ => rfl) req.trackInits inits longInits
  have ofSegments := @map_zipWith _ _ _ SegmentDelivery.mk SegmentDelivery.instrs (fun _ _ => rfl) req.segmentIds segments
    longSegments
  have instrs : BatchResponse.instrs ⟨List.zipWith InitDelivery.mk req.trackInits inits,
      List.zipWith SegmentDelivery.mk req.segmentIds segments⟩ = (inits ++ segments).flatten := by
    rw [BatchResponse.instrs, List.flatMap_def, ofInits, List.flatMap_def, ofSegments, List.flatten_append]
  refine ⟨?_, ?_, ?_, ?_, ?_, ?_⟩
  · rw [instrs]
    exact answered_names both
  · rw [instrs]
    exact answered_sound both
  · simpa [longInits] using fewInits
  · simpa [longSegments] using fewSegments
  · intro init mem
    have there : init.instrs ∈ inits := ofInits ▸ List.mem_map_of_mem mem
    apply answered_short answeredInits _ _ there
    intro item mem chunks found
    obtain ⟨id, -, rfl⟩ := List.mem_map.mp mem
    exact initItem_short counts found
  · intro seg mem
    have there : seg.instrs ∈ segments := ofSegments ▸ List.mem_map_of_mem mem
    apply answered_short answeredSegments _ _ there
    intro item mem chunks found
    obtain ⟨id, -, rfl⟩ := List.mem_map.mp mem
    exact segmentItem_short counts found

/-- The session is open on the asset. -/
def Serves (id : String) (asset : Asset) (state : AppState) : Prop :=
  ∃ session, state.sessions id = some session ∧ state.assets session.asset = some asset

theorem planBatch_answers {id : String} {state next : AppState} (serves : Serves id asset state)
    (true_ : TrueDisk env asset content disk) (counts : asset.CountsFit)
    (fewInits : req.trackInits.length < 2 ^ 32) (fewSegments : req.segmentIds.length < 2 ^ 32)
    (h : planBatch env state id (disk.reads b) req = (.ok resp, next)) :
    Serves id asset next ∧ resp.Answers env asset content req := by
  obtain ⟨session, opened, served⟩ := serves
  simp only [planBatch, opened, served] at h
  split at h
  · cases h
  · obtain ⟨planned, rfl⟩ := Prod.mk.inj h
    refine ⟨⟨_, if_pos rfl, served⟩, ?_⟩
    exact planRequest_answers true_ counts fewInits fewSegments (Prod.ext planned rfl)

end Response

end Cavs
