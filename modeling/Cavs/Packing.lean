import Cavs.BundleRead
import Cavs.Collect
import Cavs.Import

/-!
# What a bundle is packed from

The objects of a bundle are those a walk visited, each once, laid back to back. What a
store needs to be for the same bundle to be made again is that it has these objects.
-/
namespace Cavs
open FileProg (Bytes IoError Op)
open FileProg.Eff
open ByteScan

section Walk
variable {source source' : GraphSource} {o : WalkOptions} {st st' : WalkState} {v : Visit} {fuel : Nat}
  {visits : List Visit}

/-- No object is visited twice. -/
theorem walkFrom_nodup (open_ : o.kinds.isUnrestricted = true)
    (h : walkFrom source o fuel st = some (.ok visits)) :
    (visits.map Visit.id).Nodup ∧ ∀ v ∈ visits, v.id ∉ st.visited := by
  induction fuel generalizing st visits with
  | zero => cases h
  | succ fuel ih =>
      rcases walkFrom_ok h with ⟨st', -, rfl⟩ | ⟨v, st', rest, visited, walks, rfl⟩
      · exact ⟨List.nodup_nil, fun v mem => (List.not_mem_nil mem).elim⟩
      · have step := nextVisit_some open_ visited
        obtain ⟨once, fresh⟩ := ih walks
        rw [step.visited] at fresh
        constructor
        · rw [List.map_cons, List.nodup_cons]
          refine ⟨fun mem => ?_, once⟩
          obtain ⟨v', mem, same⟩ := List.mem_map.mp mem
          exact fresh v' mem (same ▸ .head _)
        · intro v' mem
          cases mem with
          | head => exact step.fresh
          | tail _ mem => exact fun seen => fresh v' mem (.tail _ seen)

theorem visit_congr {id : ObjectId} {depth : Nat} (same : source' id = source id) :
    visit source' o st id depth = visit source o st id depth := by
  unfold visit
  rw [same]

/-- Of a graph only the object that is visited next is looked at. -/
theorem nextVisit_congr (open_ : o.kinds.isUnrestricted = true) {pending : List (ObjectId × Nat)} {r : Option Visit}
    (h : nextVisit source o pending st = .ok (r, st')) (same : ∀ v, r = some v → source' v.id = source v.id) :
    nextVisit source' o pending st = .ok (r, st') := by
  induction pending generalizing st with
  | nil =>
      rw [nextVisit] at h ⊢
      exact h
  | cons e rest ih =>
      obtain ⟨id, depth⟩ := e
      rw [nextVisit] at h ⊢
      split at h
      · cases h
      dsimp only at h ⊢
      split at h
      · rename_i seen
        rw [if_pos seen]
        exact ih h
      · rename_i unseen
        rw [if_neg unseen]
        split at h
        · cases h
        · rename_i found
          cases h
          obtain ⟨id_, -⟩ := visit_some found rfl rfl
          rw [visit_congr (id_ ▸ same _ rfl), found]
        · exact absurd ‹_› (visit_none open_)

/-- A walk goes the same way over two graphs that agree on what it visits. -/
theorem walkFrom_congr (open_ : o.kinds.isUnrestricted = true)
    (h : walkFrom source o fuel st = some (.ok visits)) (same : ∀ v ∈ visits, source' v.id = source v.id) :
    walkFrom source' o fuel st = some (.ok visits) := by
  induction fuel generalizing st visits with
  | zero => cases h
  | succ fuel ih =>
      rw [walkFrom, WalkState.next]
      rcases walkFrom_ok h with ⟨st', ended, rfl⟩ | ⟨v, st', rest, visited, walks, rfl⟩
      · rw [nextVisit_congr open_ ended fun v none => by cases none]
      · rw [nextVisit_congr open_ visited fun v' found => by cases found; exact same v (.head _)]
        dsimp only
        rw [ih walks fun v' mem => same v' (.tail _ mem)]
        rfl

end Walk

section Stored
variable {hash : Bytes → ChunkHash} {limits limits' : DecodeLimits} {w v : ObjDisk} {id : ObjectId}
  {kind : ObjectKind} {raw bytes : Bytes} {object : StoredObject} {t : Nat} {e : ObjectEnvelope}
  {node : ObjectNode}

theorem parseLoose_known (h : parseLoose id raw = .ok (kind, bytes)) : kind.Known := by
  unfold parseLoose at h
  split_ifs at h
  dsimp only at h
  split_ifs at h
  split at h
  · rename_i found
    cases h
    refine ObjectKind.known_of_fromTag ?_ found
    calc ofLe ((raw.drop 10).take 4) < 256 ^ ((raw.drop 10).take 4).length := ofLe_lt _
      _ ≤ 256 ^ 4 := Nat.pow_le_pow_right (by decide) (List.length_take_le ..)
  · cases h

/-- An object that is read has the bytes its id was made from. -/
theorem readObject_ok (h : readObject hash w id = .ok object) :
    object.id = id ∧ ObjectId.compute hash object.kind object.bytes = id ∧ object.kind.Known ∧
      ∃ f, w.get (.loose id) = some f ∧ parseLoose id f.bytes = .ok (object.kind, object.bytes) := by
  unfold readObject at h
  split at h
  · rename_i f file
    unfold checkObject at h
    cases parsed : parseLoose id f.bytes with
    | error e => rw [parsed] at h; cases h
    | ok r =>
        obtain ⟨kind, bytes⟩ := r
        rw [parsed] at h
        change (if ObjectId.compute hash kind bytes ≠ id then _ else _) = _ at h
        split_ifs at h with named
        cases h
        exact ⟨rfl, not_not.mp named, parseLoose_known parsed, f, file, parsed⟩
  · cases h

/-- An object in its place is read. -/
theorem readObject_looseBytes (known : object.kind.Known)
    (named : ObjectId.compute hash object.kind object.bytes = object.id)
    (file : v.get (.loose object.id) = some ⟨looseBytes object.kind object.bytes, t⟩) :
    readObject hash v object.id = .ok object := by
  rw [readObject, file]
  dsimp only
  rw [checkObject, parseLoose_looseBytes known]
  change (if ObjectId.compute hash object.kind object.bytes ≠ object.id then _ else _) = _
  rw [if_neg (not_not.mpr named)]

/-- What is decoded names what the object declares, whatever it was decoded under. -/
theorem declares_iff (h : decodeEnvelope kind bytes limits = .ok e) (y : ObjectId) :
    Declares kind bytes y ↔ y ∈ e.dependencies := by
  constructor
  · rintro ⟨limits', e', decoded, mem⟩
    rwa [← decodeEnvelope_agrees h decoded]
  · intro mem
    exact ⟨limits, e, h, mem⟩

theorem decodeEnvelopeOf_ok {deps : List ObjectId}
    (h : looseNode.decodeEnvelopeOf limits kind bytes = .ok deps) :
    kind.isPayload = true ∧ deps = [] ∨
      kind.isPayload = false ∧ ∃ e, decodeEnvelope kind bytes limits = .ok e ∧ deps = e.dependencies := by
  unfold looseNode.decodeEnvelopeOf at h
  split_ifs at h with payload
  · cases h
    exact .inl ⟨payload, rfl⟩
  · cases decoded : decodeEnvelope kind bytes limits with
    | error e => rw [decoded] at h; cases h
    | ok e =>
        rw [decoded] at h
        cases h
        exact .inr ⟨Bool.eq_false_of_not_eq_true payload, e, rfl, rfl⟩

theorem lookup_parsed {f : FileProg.File} (file : w.get (.loose id) = some f)
    (parsed : parseLoose id f.bytes = .ok (kind, bytes)) :
    lookup limits w id = (looseNode.decodeEnvelopeOf limits kind bytes).map fun deps =>
      some ⟨id, kind, UInt64.ofNat bytes.length, deps⟩ := by
  rw [lookup, file]
  dsimp only
  rw [looseNode_parsed limits parsed]
  cases looseNode.decodeEnvelopeOf limits kind bytes <;> rfl

/-- The edges of an object that was looked at are what it declares. -/
theorem edge_iff (read : readObject hash w id = .ok object) (found : lookup limits w id = .ok (some node))
    (y : ObjectId) :
    Edge (lookup limits w) id y ↔ Declares object.kind object.bytes y := by
  obtain ⟨-, -, -, f, file, parsed⟩ := readObject_ok read
  have edge : Edge (lookup limits w) id y ↔ y ∈ node.dependencies := by
    constructor
    · rintro ⟨node', found', mem⟩
      rw [found] at found'
      cases found'
      exact mem
    · intro mem
      exact ⟨node, found, mem⟩
  rw [edge]
  rw [lookup_parsed file parsed] at found
  cases decoded : looseNode.decodeEnvelopeOf limits object.kind object.bytes with
  | error e => rw [decoded] at found; cases found
  | ok deps =>
      rw [decoded] at found
      cases found
      rcases decodeEnvelopeOf_ok decoded with ⟨payload, rfl⟩ | ⟨-, e, envelope, rfl⟩
      · constructor
        · intro mem
          cases mem
        · rintro ⟨limits', e, envelope, mem⟩
          rw [decodeEnvelope_payload payload envelope] at mem
          cases mem
      · exact (declares_iff envelope y).symm

theorem lookup_read {node : Option ObjectNode} (read : readObject hash w id = .ok object)
    (found : lookup limits w id = .ok node) : ∃ n, node = some n := by
  obtain ⟨-, -, -, f, file, parsed⟩ := readObject_ok read
  rw [lookup_parsed file parsed] at found
  cases decoded : looseNode.decodeEnvelopeOf limits object.kind object.bytes with
  | error e => rw [decoded] at found; cases found
  | ok deps =>
      rw [decoded] at found
      cases found
      exact ⟨_, rfl⟩

/-- A store that has the object looks the same there, if it can decode it. -/
theorem lookup_same (read : readObject hash w object.id = .ok object)
    (found : lookup limits w object.id = .ok (some node))
    (file : v.get (.loose object.id) = some ⟨looseBytes object.kind object.bytes, t⟩)
    (decoded : decodeEnvelope object.kind object.bytes limits' = .ok e) :
    lookup limits' v object.id = lookup limits w object.id := by
  obtain ⟨-, -, known, f, there, parsed⟩ := readObject_ok read
  rw [lookup_parsed file (parseLoose_looseBytes known)]
  rw [lookup_parsed there parsed] at found ⊢
  cases before : looseNode.decodeEnvelopeOf limits object.kind object.bytes with
  | error e => rw [before] at found; cases found
  | ok deps =>
      congr 1
      unfold looseNode.decodeEnvelopeOf
      rcases decodeEnvelopeOf_ok before with ⟨payload, rfl⟩ | ⟨structural, e', envelope, rfl⟩
      · rw [if_pos payload]
      · rw [if_neg (by rw [structural]; exact Bool.false_ne_true), decoded, decodeEnvelope_agrees envelope decoded]
        rfl

end Stored

section Layout
variable {hash : Bytes → ChunkHash} {limits : DecodeLimits} {w v : ObjDisk} {included ids : List ObjectId}
  {excludeHave : Option (List ObjectId)} {packed packed' : PackedObjects} {l : List StoredObject}

/-- Objects back to back. -/
def payloadOf (l : List StoredObject) : Bytes := l.flatMap StoredObject.bytes

/-- The rows of objects laid back to back from an offset on. -/
def rowsFrom : Nat → List StoredObject → List Row
  | _, [] => []
  | n, object :: l => ⟨object.kind, object.id, n, object.bytes.length⟩ :: rowsFrom (n + object.bytes.length) l

def StoredObject.filed (object : StoredObject) : Filed := ⟨object.id, object.kind, object.bytes⟩

theorem rowsFrom_length (n : Nat) : (rowsFrom n l).length = l.length := by
  induction l generalizing n with
  | nil => rfl
  | cons object l ih => rw [rowsFrom, List.length_cons, List.length_cons, ih]

/-- Every row of a layout lies in the payload, and its slice is its object. -/
theorem rowsFrom_filed {payload front rest : Bytes} (split : payload = front ++ (payloadOf l ++ rest)) :
    (rowsFrom front.length l).map (fun row => row.filed payload) = l.map StoredObject.filed ∧
      ∀ row ∈ rowsFrom front.length l, row.offset + row.length ≤ payload.length := by
  induction l generalizing front with
  | nil => exact ⟨rfl, fun row mem => (List.not_mem_nil mem).elim⟩
  | cons object l ih =>
      have split' : payload = (front ++ object.bytes) ++ (payloadOf l ++ rest) := by
        rw [split, payloadOf, List.flatMap_cons]
        simp only [List.append_assoc]
        rfl
      obtain ⟨filed, inside⟩ := ih split'
      rw [List.length_append] at filed inside
      have slice : sliceOf payload ⟨object.kind, object.id, front.length, object.bytes.length⟩ = object.bytes := by
        rw [sliceOf, split', List.append_assoc, List.drop_left, List.take_left]
      constructor
      · rw [rowsFrom, List.map_cons, List.map_cons, filed, Row.filed, slice]
        rfl
      · rw [rowsFrom, List.forall_mem_cons]
        refine ⟨?_, inside⟩
        rw [split', List.length_append, List.length_append]
        exact Nat.le_add_right ..

theorem rowsFrom_mem {payload front rest : Bytes} (split : payload = front ++ (payloadOf l ++ rest)) {row : Row}
    (mem : row ∈ rowsFrom front.length l) : ∃ object ∈ l, object.filed = row.filed payload := by
  have := List.mem_map_of_mem (f := fun row => row.filed payload) mem
  rwa [(rowsFrom_filed split).1, List.mem_map] at this

/-- The rows of a layout all verify, when their objects have the ids they are filed under. -/
theorem verifyRows_rowsFrom {payload front rest : Bytes} {contents : List Filed}
    (split : payload = front ++ (payloadOf l ++ rest)) (small : payload.length < 2 ^ 64)
    (named : ∀ object ∈ l, ObjectId.compute hash object.kind object.bytes = object.id)
    (once : (contents.map Filed.id ++ l.map StoredObject.id).Nodup) :
    verifyRows hash payload (rowsFrom front.length l) contents = .ok (contents ++ l.map StoredObject.filed) := by
  induction l generalizing front contents with
  | nil => rw [rowsFrom, verifyRows, List.map_nil, List.append_nil]
  | cons object l ih =>
      obtain ⟨filed, inside⟩ := rowsFrom_filed split
      rw [rowsFrom, List.map_cons, List.map_cons, List.cons.injEq] at filed
      rw [rowsFrom, List.forall_mem_cons] at inside
      have slice : sliceOf payload ⟨object.kind, object.id, front.length, object.bytes.length⟩ = object.bytes :=
        congrArg Filed.bytes filed.1
      have within := inside.1
      dsimp only at within
      have new : (contents.find? fun f => f.id = object.id) = none := by
        rw [List.find?_eq_none]
        intro f mem same
        rw [List.map_cons, List.nodup_append] at once
        exact once.2.2 _ (List.mem_map_of_mem mem) _ (.head _) (of_decide_eq_true same)
      unfold rowsFrom verifyRows
      dsimp only
      rw [if_neg (by omega), if_neg (Nat.not_lt_of_le within), slice, named object (.head _),
        if_neg (not_not.mpr rfl), new]
      dsimp only
      have split' : payload = (front ++ object.bytes) ++ (payloadOf l ++ rest) := by
        rw [split, payloadOf, List.flatMap_cons]
        simp only [List.append_assoc]
        rfl
      have rest_ := @ih (front ++ object.bytes) (contents ++ [object.filed]) split'
        (fun object mem => named object (.tail _ mem)) (by
          rw [List.map_append, List.append_assoc]
          exact once)
      rw [List.length_append] at rest_
      refine rest_.trans ?_
      rw [List.map_cons, List.append_assoc]
      rfl

/-- What is packed, and what for: the objects in order, and the prerequisites they are in
need of. -/
structure PackedFrom (hash : Bytes → ChunkHash) (w : ObjDisk) (included : List ObjectId)
    (excludeHave : Option (List ObjectId)) (packed packed' : PackedObjects) (l : List StoredObject) : Prop where
  read : ∀ object ∈ l, readObject hash w object.id = .ok object
  payload : packed'.payload = packed.payload ++ payloadOf l
  table : packed'.table = packed.table ++ rowsFrom packed.payload.length l
  frontier : ∀ object ∈ l, ∃ frontier, frontierOf included excludeHave object = .ok frontier
  prerequisites : ∀ y, y ∈ packed'.prerequisites ↔ y ∈ packed.prerequisites ∨
    ∃ object ∈ l, ∃ frontier, frontierOf included excludeHave object = .ok frontier ∧ y ∈ frontier

theorem packObjects_ok (h : packObjects hash w included excludeHave ids packed = .ok packed') :
    ∃ l, l.map StoredObject.id = ids ∧ PackedFrom hash w included excludeHave packed packed' l := by
  induction ids generalizing packed with
  | nil =>
      cases h
      refine ⟨[], rfl, fun object mem => (List.not_mem_nil mem).elim, ?_, ?_,
        fun object mem => (List.not_mem_nil mem).elim, fun y => ?_⟩
      · rw [payloadOf, List.flatMap_nil, List.append_nil]
      · rw [rowsFrom, List.append_nil]
      · simp
  | cons id ids ih =>
      rw [packObjects] at h
      cases read : readObject hash w id with
      | error e => rw [read] at h; cases h
      | ok object =>
          rw [read] at h
          cases front : frontierOf included excludeHave object with
          | error e =>
              change (frontierOf included excludeHave object >>= _) = _ at h
              rw [front] at h
              cases h
          | ok frontier =>
              change (frontierOf included excludeHave object >>= _) = _ at h
              rw [front] at h
              obtain ⟨l, rfl, objects, payload, table, frontiers, prerequisites⟩ := ih h
              have same : object.id = id := (readObject_ok read).1
              subst same
              refine ⟨object :: l, rfl, ?_, ?_, ?_, ?_, fun y => ?_⟩
              · exact List.forall_mem_cons.mpr ⟨read, objects⟩
              · rw [payload, List.append_assoc]
                rfl
              · rw [table, List.append_assoc, List.length_append]
                rfl
              · exact List.forall_mem_cons.mpr ⟨⟨frontier, front⟩, frontiers⟩
              · rw [prerequisites, List.mem_append, List.exists_mem_cons_iff, or_assoc]
                refine or_congr_right (or_congr_left ⟨fun mem => ⟨frontier, front, mem⟩, ?_⟩)
                rintro ⟨frontier', front', mem⟩
                rw [front] at front'
                cases front'
                exact mem

/-- Packing looks at nothing but the objects it packs. -/
theorem packObjects_congr (same : ∀ id ∈ ids, readObject hash v id = readObject hash w id) :
    packObjects hash v included excludeHave ids packed = packObjects hash w included excludeHave ids packed := by
  induction ids generalizing packed with
  | nil => rfl
  | cons id ids ih =>
      rw [packObjects, packObjects, same id (.head _)]
      refine bind_congr fun object => bind_congr fun frontier => ?_
      exact ih fun id mem => same id (.tail _ mem)

end Layout

section Whole
variable {hash : Bytes → ChunkHash} {limits : BundleLimits} {known d : List ObjectId} {contents : List Filed}
  {content : Content} {l : List StoredObject}

theorem mem_sortIds {ids : List ObjectId} {y : ObjectId} : y ∈ sortIds ids ↔ y ∈ ids := by
  rw [sortIds, List.mem_insertionSort, List.mem_dedup]

theorem danglingOf_ok (h : danglingOf limits known contents = .ok d) :
    (∀ f ∈ contents, ∃ e, decodeEnvelope f.kind f.bytes limits.objects = .ok e) ∧
      ∀ y, y ∈ d ↔ y ∉ known ∧ ∃ f ∈ contents, Declares f.kind f.bytes y := by
  induction contents generalizing d with
  | nil =>
      cases h
      simp
  | cons f contents ih =>
      rw [danglingOf] at h
      split at h
      · cases h
      rename_i envelope decoded
      split at h
      · cases h
      rename_i more rest
      cases h
      obtain ⟨decodes, mem⟩ := ih rest
      refine ⟨List.forall_mem_cons.mpr ⟨⟨envelope, decoded⟩, decodes⟩, fun y => ?_⟩
      rw [List.mem_append, mem, List.mem_filter, List.exists_mem_cons_iff, declares_iff decoded, decide_eq_true_iff]
      tauto

theorem danglingOf_isOk (decodes : ∀ f ∈ contents, ∃ e, decodeEnvelope f.kind f.bytes limits.objects = .ok e) :
    ∃ d, danglingOf limits known contents = .ok d := by
  induction contents with
  | nil => exact ⟨[], rfl⟩
  | cons f contents ih =>
      obtain ⟨⟨envelope, decoded⟩, rest⟩ := List.forall_mem_cons.mp decodes
      obtain ⟨d, more⟩ := ih rest
      exact ⟨_, by rw [danglingOf, decoded]; dsimp only; rw [more]⟩

/-- A whole payload with nothing before or behind it. -/
theorem payload_split {payload : Bytes} (h : payload = payloadOf l) : payload = [] ++ (payloadOf l ++ []) := by
  rw [h, List.append_nil, List.nil_append]

/-- A content that is objects laid back to back, each under its id and only once. -/
structure Laid (hash : Bytes → ChunkHash) (content : Content) (l : List StoredObject) : Prop where
  payload : content.payload = payloadOf l
  table : content.table = rowsFrom 0 l
  small : content.payload.length < 2 ^ 64
  named : ∀ object ∈ l, ObjectId.compute hash object.kind object.bytes = object.id
  once : (l.map StoredObject.id).Nodup

theorem Laid.verifyRows (laid : Laid hash content l) :
    verifyRows hash content.payload content.table [] = .ok (l.map StoredObject.filed) := by
  have rows := @verifyRows_rowsFrom hash l content.payload [] [] [] (payload_split laid.payload) laid.small laid.named
    (by rw [List.map_nil, List.nil_append]; exact laid.once)
  rw [laid.table]
  exact rows

/-- Every object can be decoded and names nothing that is neither there nor assumed, and
neither does any root. -/
structure Closed (limits : DecodeLimits) (l : List StoredObject) (roots prerequisites : List ObjectId) : Prop where
  decodes : ∀ object ∈ l, ∃ e, decodeEnvelope object.kind object.bytes limits = .ok e
  inside : ∀ object ∈ l, ∀ y, Declares object.kind object.bytes y → y ∈ l.map StoredObject.id ∨ y ∈ prerequisites
  roots : ∀ r ∈ roots, r ∈ l.map StoredObject.id ∨ r ∈ prerequisites

/-- When objects laid back to back verify as complete. -/
theorem verifyOpen_laid (laid : Laid hash content l) :
    (∃ v, verifyOpen hash limits content = .ok v ∧ v.isComplete = true) ↔
      Closed limits.objects l (content.roots.map Prod.snd) content.prerequisites := by
  have ids : (l.map StoredObject.filed).map Filed.id = l.map StoredObject.id := by
    rw [List.map_map]
    rfl
  have sorted : ∀ f, f ∈ (l.map StoredObject.filed).insertionSort (fun a b => idLe a.id b.id) ↔
      ∃ object ∈ l, object.filed = f := by
    intro f
    rw [List.mem_insertionSort, List.mem_map]
  unfold verifyOpen
  rw [laid.verifyRows]
  dsimp only
  rw [ids]
  constructor
  · rintro ⟨v, verified, complete⟩
    split at verified
    · cases verified
    rename_i dangling found
    cases verified
    obtain ⟨decodes, mem⟩ := danglingOf_ok found
    rw [BundleVerification.isComplete, Bool.and_eq_true, List.isEmpty_iff, List.isEmpty_iff,
      List.filter_eq_nil_iff] at complete
    obtain ⟨satisfied, none⟩ := complete
    refine ⟨fun object mem => decodes _ ((sorted _).mpr ⟨object, mem, rfl⟩), fun object inside y declares => ?_,
      fun r mem => ?_⟩
    · by_contra missing
      rw [← List.mem_append] at missing
      have : y ∈ sortIds dangling := mem_sortIds.mpr ((mem y).mpr
        ⟨missing, _, (sorted _).mpr ⟨object, inside, rfl⟩, declares⟩)
      rw [show sortIds dangling = [] from none] at this
      cases this
    · rw [← List.mem_append]
      exact of_not_not fun out => satisfied r mem (decide_eq_true out)
  · rintro ⟨decodes, inside, roots⟩
    obtain ⟨d, found⟩ := @danglingOf_isOk limits (l.map StoredObject.id ++ content.prerequisites)
      ((l.map StoredObject.filed).insertionSort fun a b => idLe a.id b.id) (by
        intro f mem
        obtain ⟨object, inside, rfl⟩ := (sorted f).mp mem
        exact decodes object inside)
    rw [found]
    refine ⟨_, rfl, ?_⟩
    have none : sortIds d = [] := by
      rw [List.eq_nil_iff_forall_not_mem]
      intro y mem
      obtain ⟨missing, f, inside', declares⟩ := ((danglingOf_ok found).2 y).mp (mem_sortIds.mp mem)
      obtain ⟨object, there, rfl⟩ := (sorted f).mp inside'
      exact missing (List.mem_append.mpr (inside object there y declares))
    rw [BundleVerification.isComplete, Bool.and_eq_true, List.isEmpty_iff, List.isEmpty_iff,
      List.filter_eq_nil_iff]
    exact ⟨fun r mem out => of_decide_eq_true out (List.mem_append.mpr (roots r mem)), none⟩

end Whole
end Cavs
