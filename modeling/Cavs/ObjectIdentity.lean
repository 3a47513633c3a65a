import Cavs.ObjectStore

/-!
# An object is what its id says

A file of a store holds the object it was first written for. Where no chunk was made
to look like a structural object, that is every object with its id.
-/
namespace Cavs
open FileProg (Bytes IoError Op get_del_ne get_move_self get_put_ne)
open FileProg.Eff
open ByteScan

/-- What runs of an object store are relative to: any operation may fail, or only those
in `mayFail`. Its directories are made with it. -/
def objSem (mayFail : Op ObjPath Unit → ObjDisk → Prop) : FileProg.Sem ObjPath Unit Unit :=
  ⟨fun _ => (), fun _ => none, mayFail, fun _ _ => True⟩

section Put
variable {hash : Bytes → ChunkHash} {mayFail : Op ObjPath Unit → ObjDisk → Prop} {limits : DecodeLimits}
  {durability : Durability} {kind : ObjectKind} {bytes : Bytes} {s : Nat} {w : ObjDisk}

/-- Every object file was written for an object in `puts`. -/
def WrittenFor (hash : Bytes → ChunkHash) (puts : List (ObjectKind × Bytes)) (w : ObjDisk) : Prop :=
  ∀ id f, w.get (.loose id) = some f →
    ∃ p ∈ puts, id = .compute hash p.1 p.2 ∧ f.bytes = looseBytes p.1 p.2

/-- The object files are as they were but for one that may be new. -/
def PutFrom (id : ObjectId) (file : Bytes) (w v : ObjDisk) : Prop :=
  (∀ other, other ≠ id → v.get (.loose other) = w.get (.loose other)) ∧
    (v.get (.loose id) = w.get (.loose id) ∨
      w.get (.loose id) = none ∧ ∃ t, v.get (.loose id) = some ⟨file, t⟩)

theorem PutFrom.refl (id : ObjectId) (file : Bytes) (w : ObjDisk) : PutFrom id file w w :=
  ⟨fun _ _ => rfl, .inl rfl⟩

/-- Away from the object files nothing is a put. -/
theorem PutFrom.tmp {id : ObjectId} {file : Bytes} {v v' : ObjDisk} (h : PutFrom id file w v)
    (same : ∀ other, v'.get (.loose other) = v.get (.loose other)) : PutFrom id file w v' :=
  ⟨fun other ne => (same other).trans (h.1 other ne), by rw [same]; exact h.2⟩

/-- One put: at every point the files are as before or with the object in its place, and
a put that ends well leaves its file there. -/
theorem putObject_wp {C : ObjDisk → Prop} {Q : Except ObjectError ObjectId → Nat → ObjDisk → Prop}
    (crash : ∀ v, PutFrom (.compute hash kind bytes) (looseBytes kind bytes) w v → C v)
    (next : ∀ r t v, PutFrom (.compute hash kind bytes) (looseBytes kind bytes) w v →
      (∀ id, r = .ok id → id = .compute hash kind bytes ∧ (v.get (.loose id)).isSome) →
      (∀ e, r = .error e → (bytes.length > limits.maxLenFor kind ∧ v = w ∧
        e = .tooLarge "object" bytes.length (limits.maxLenFor kind)) ∨
        bytes.length ≤ limits.maxLenFor kind ∧ (∃ o u, mayFail o u) ∧ ∃ what io, e = .io what io) → Q r t v) :
    (putObject hash limits durability kind bytes).Wp (objSem mayFail) C Q s w := by
  have here := crash w (.refl _ _ w)
  refine wp_ite (fun large => ?_) fun small => ?_
  · exact ⟨here, next _ s w (.refl _ _ w) (fun id h => by cases h) fun e h => .inl ⟨large, rfl, by
      cases h; rfl⟩⟩
  have fits : bytes.length ≤ limits.maxLenFor kind := Nat.le_of_not_gt small
  generalize hid : ObjectId.compute hash kind bytes = id at crash next here
  have fails : (∃ o u, mayFail o u) → ∀ {t v} {what : String} {io : IoError},
      PutFrom id (looseBytes kind bytes) w v → Q (.error (.io what io)) t v := fun may _ _ _ _ put =>
    next _ _ _ put (fun id h => by cases h) fun e h => .inr ⟨fits, may, _, _, by cases h; rfl⟩
  dsimp only
  refine (wp_present here (wp_ite (fun known => ?_) fun unknown => ?_)).then
  · refine ⟨here, next _ s w (.refl _ _ w) (fun id' h => ?_) fun e h => by cases h⟩
    cases h
    exact ⟨rfl, known⟩
  have absent : w.get (.loose id) = none := by
    simpa using unknown
  have tmp : ∀ b t, PutFrom id (looseBytes kind bytes) w (w.put (.tmp id s) b t) := fun b t =>
    (PutFrom.refl id _ w).tmp fun other => get_put_ne (by simp) ..
  have c := fun b t => crash _ (tmp b t)
  refine wp_see (wp_set ((wp_write rfl here (fun n t => c _ t) (fun t => wp_good ?_)
    fun may v cut => ?_).then))
  swap
  · have put : PutFrom id (looseBytes kind bytes) w v := by
      rcases cut with rfl | ⟨n, t, rfl⟩
      · exact .refl ..
      · exact tmp ..
    exact wp_bad (crash v put) (fails ⟨_, _, may⟩ put)
  generalize hx : w.put (.tmp id s) (looseBytes kind bytes) t = x
  have inPlace : x.get (.tmp id s) = some ⟨looseBytes kind bytes, t⟩ := by
    rw [← hx]
    exact FileProg.get_put_self ..
  have put : PutFrom id (looseBytes kind bytes) w x := hx ▸ tmp ..
  have still : x.get (.loose id) = none := by
    rw [← hx, get_put_ne (by simp)]
    exact absent
  have cx := crash x put
  refine Wp.seq (R := fun r t' v => t' = s + 1 ∧ v = x ∧
    (r = .ok () ∨ (∃ o u, mayFail o u) ∧ ∃ io, r = .error (.io "sync object" io)))
    ?_ ?_ ?_
  · refine wp_ite (fun _ => ?_) fun _ => ⟨cx, rfl, rfl, .inl rfl⟩
    exact (wp_sync cx ⟨cx, rfl, rfl, .inl rfl⟩ fun may =>
      ⟨cx, rfl, rfl, .inr ⟨⟨_, _, may⟩, _, rfl⟩⟩).then
  swap
  · rintro e t' v ⟨rfl, rfl, h | ⟨may, io, h⟩⟩
    · cases h
    · cases h
      exact fails may put
  rintro ⟨⟩ t' v - ⟨rfl, rfl, -⟩
  refine (wp_rename rfl cx (fun f found => ?_) (fun none => ?_) fun may => ?_).then
  · rw [inPlace, Option.some.injEq] at found
    subst found
    have moved : PutFrom id (looseBytes kind bytes) w (v.move (.tmp id s) (.loose id)
        ⟨looseBytes kind bytes, t⟩) := by
      refine ⟨fun other ne => ?_, .inr ⟨absent, t, get_move_self ..⟩⟩
      rw [FileProg.get_move_ne (by simpa using ne) (by simp)]
      exact put.1 other ne
    refine ⟨crash _ moved, crash _ moved, next _ _ _ moved (fun id' h => ?_) fun e h => by cases h⟩
    cases h
    exact ⟨rfl, by rw [get_move_self]; rfl⟩
  · rw [inPlace] at none
    cases none
  · have gone : PutFrom id (looseBytes kind bytes) w (v.del (.tmp id s)) :=
      put.tmp fun other => get_del_ne (by simp) _
    have lost : ∀ {u : ObjDisk}, PutFrom id (looseBytes kind bytes) w u → u.get (.loose id) = none →
        (op (.present (.loose id)) >>= fun there =>
          if there then pure id else FileProg.Eff.throw (.io "publish object" .other) : ObjM ObjectId).Wp
          (objSem mayFail) C Q (s + 1) u := by
      intro u put none
      refine (wp_present (crash u put) (wp_ite (fun there => ?_) fun _ =>
        (wp_throw ..).mpr ⟨crash u put, fails ⟨_, _, may⟩ put⟩)).then
      rw [none] at there
      cases there
    exact (wp_remove cx (fun _ => ⟨crash _ gone, lost gone (by
        rw [get_del_ne (by simp)]; exact still)⟩) (fun _ => lost put still) fun _ => lost put still).then

end Put

section Sequence
variable {hash : Bytes → ChunkHash} {mayFail : Op ObjPath Unit → ObjDisk → Prop} {limits : DecodeLimits}
  {durability : Durability} {s : Nat} {w : ObjDisk} {l : List ((ObjectKind × Bytes) × Except ObjectError ObjectId)}

/-- The puts made on a new store so far, each with its outcome. -/
inductive Puts (hash : Bytes → ChunkHash) (mayFail : Op ObjPath Unit → ObjDisk → Prop)
    (limits : DecodeLimits) (durability : Durability) :
    List ((ObjectKind × Bytes) × Except ObjectError ObjectId) → Nat → ObjDisk → Prop
  | new : Puts hash mayFail limits durability [] 0 .empty
  | put {l s w kind bytes r t v} (before : Puts hash mayFail limits durability l s w)
      (run : (putObject hash limits durability kind bytes).Runs (objSem mayFail) s w r t v) :
      Puts hash mayFail limits durability (l ++ [((kind, bytes), r)]) t v

/-- Every file was written by one of the puts, and every put that ended well has its file. -/
theorem Puts.files (h : Puts hash mayFail limits durability l s w) :
    WrittenFor hash (l.map Prod.fst) w ∧
      ∀ p id, (p, .ok id) ∈ l → id = .compute hash p.1 p.2 ∧ (w.get (.loose id)).isSome := by
  induction h with
  | new =>
      refine ⟨fun id f found => ?_, fun p id mem => by cases mem⟩
      rw [FileProg.get_empty] at found
      cases found
  | @put l s w kind bytes r t v _ run ih =>
      obtain ⟨written, kept⟩ := ih
      obtain ⟨from_, ends⟩ := ((wp_iff ..).mp (putObject_wp (C := fun _ => True)
        (Q := fun r _ v => PutFrom (.compute hash kind bytes) (looseBytes kind bytes) w v ∧
          ∀ id, r = .ok id → id = .compute hash kind bytes ∧ (v.get (.loose id)).isSome)
        (fun _ _ => trivial) fun r t v put ok _ => ⟨put, ok⟩)).2 r t v run
      have stays : ∀ id, (w.get (.loose id)).isSome → (v.get (.loose id)).isSome := by
        intro id there
        by_cases same : id = .compute hash kind bytes
        · subst same
          rcases from_.2 with kept | ⟨none, -⟩
          · rw [kept]; exact there
          · rw [none] at there; cases there
        · rw [from_.1 id same]; exact there
      refine ⟨fun id f found => ?_, fun p id mem => ?_⟩
      · have old : w.get (.loose id) = some f → ∃ p ∈ (l ++ [((kind, bytes), r)]).map Prod.fst,
            id = .compute hash p.1 p.2 ∧ f.bytes = looseBytes p.1 p.2 := fun found => by
          obtain ⟨p, mem, is⟩ := written id f found
          refine ⟨p, ?_, is⟩
          rw [List.map_append]
          exact List.mem_append_left _ mem
        by_cases same : id = .compute hash kind bytes
        · subst same
          rcases from_.2 with kept | ⟨-, time, new⟩
          · exact old (kept ▸ found)
          · rw [new, Option.some.injEq] at found
            subst found
            exact ⟨(kind, bytes), by simp, rfl, rfl⟩
        · exact old (from_.1 id same ▸ found)
      · rcases List.mem_append.mp mem with mem | mem
        · exact ⟨(kept p id mem).1, stays id (kept p id mem).2⟩
        · rw [List.mem_singleton, Prod.mk.injEq] at mem
          obtain ⟨rfl, rfl⟩ := mem
          exact ends id rfl

/-- Where the hash tells the objects put apart, two of them share an id only when one is a
chunk made to look like the other; and where there is no such chunk, what was put is what
its id gives back. -/
theorem putObject_getObject (puts : Puts hash mayFail limits durability l s w)
    (known : ∀ p ∈ l, p.1.1.Known)
    (injective : ∀ p ∈ l, ∀ q ∈ l, hash (preimage p.1.1 p.1.2) = hash (preimage q.1.1 q.1.2) →
      preimage p.1.1 p.1.2 = preimage q.1.1 q.1.2) :
    (∀ p ∈ l, ∀ q ∈ l, ObjectId.compute hash p.1.1 p.1.2 = .compute hash q.1.1 q.1.2 ↔
      p.1 = q.1 ∨ Twins p.1.1 p.1.2 q.1.1 q.1.2 ∨ Twins q.1.1 q.1.2 p.1.1 p.1.2) ∧
    ((∀ p ∈ l, ∀ q ∈ l, ¬ Twins p.1.1 p.1.2 q.1.1 q.1.2) →
      ∀ kind bytes id, ((kind, bytes), .ok id) ∈ l →
        ∀ n r t v, (getObject hash id).Runs (objSem fun _ _ => False) n w r t v →
          r = .ok ⟨id, kind, bytes⟩) := by
  have shared : ∀ p ∈ l, ∀ q ∈ l, ObjectId.compute hash p.1.1 p.1.2 = .compute hash q.1.1 q.1.2 ↔
      p.1 = q.1 ∨ Twins p.1.1 p.1.2 q.1.1 q.1.2 ∨ Twins q.1.1 q.1.2 p.1.1 p.1.2 := by
    intro p hp q hq
    rw [ObjectId.compute_inj, Prod.ext_iff, ← preimage_eq_iff (known p hp) (known q hq)]
    exact ⟨injective p hp q hq, fun same => by rw [same]⟩
  refine ⟨shared, fun apart kind bytes id mem n r t v run => ?_⟩
  obtain ⟨written, kept⟩ := puts.files
  obtain ⟨rfl, there⟩ := kept _ _ mem
  obtain ⟨f, found⟩ := Option.isSome_iff_exists.mp there
  obtain ⟨p, hp, same, file⟩ := written _ f found
  obtain ⟨q, hq, rfl⟩ := List.mem_map.mp hp
  have one : (kind, bytes) = q.1 := by
    rcases (shared _ mem _ hq).mp same with one | twins | twins
    · exact one
    · exact absurd twins (apart _ mem _ hq)
    · exact absurd twins (apart _ hq _ mem)
  rw [← one] at file
  have checked : checkObject hash (.compute hash kind bytes) f.bytes =
      .ok ⟨.compute hash kind bytes, kind, bytes⟩ := by
    rw [checkObject, file, parseLoose_looseBytes (known _ mem)]
    change (if _ then _ else _) = _
    rw [if_neg (by simp)]
  have goal : (getObject hash (.compute hash kind bytes)).Wp (objSem fun _ _ => False) (fun _ => True)
      (fun r _ _ => r = .ok ⟨.compute hash kind bytes, kind, bytes⟩) n w := by
    refine (wp_read trivial (fun g there => ?_) (fun none => ?_) False.elim).then
    · rw [found, Option.some.injEq] at there
      subst there
      change Wp (objSem _) _ _ (FileProg.Eff.ofExcept (checkObject hash _ f.bytes)) n w
      rw [checked]
      exact ⟨trivial, rfl⟩
    · rw [found] at none
      cases none
  exact ((wp_iff ..).mp goal).2 r t v run

/-- A run in which every operation goes well. -/
def smoothObj : FileProg.Exec ObjPath Unit Unit := ⟨fun _ => (), fun _ => none, fun _ => false⟩

theorem smoothObj_within : smoothObj.Within (objSem fun _ _ => False) :=
  ⟨rfl, rfl, fun _ h => Bool.noConfusion h, fun _ _ => trivial⟩

def plainHash : Bytes → ChunkHash := fun _ => zeroHash

/-- A tree and a chunk put on a new store are read back. -/
theorem putObject_getObject_pair : ∃ w : ObjDisk, ∀ kind bytes, (kind, bytes) ∈ [(ObjectKind.tree, [7]), (.chunk, [8])] →
    ∀ n r t v, (getObject lengthHash (.compute lengthHash kind bytes)).Runs (objSem fun _ _ => False) n w r t v →
      r = .ok ⟨.compute lengthHash kind bytes, kind, bytes⟩ := by
  have ends : ((smoothObj.run [] (putObject lengthHash .default .onFlush .tree [7] 0) .empty).bind fun x =>
      (smoothObj.run [] (putObject lengthHash .default .onFlush .chunk [8] x.1.2) x.2).map fun y => (x.1.1, y.1.1)) =
        some (.ok (.compute lengthHash .tree [7]), .ok (.compute lengthHash .chunk [8])) := by decide +kernel
  obtain ⟨⟨⟨r, t⟩, u⟩, tree, rest⟩ := Option.bind_eq_some_iff.mp ends
  obtain ⟨⟨⟨r', t'⟩, w⟩, chunk, same⟩ := Option.map_eq_some_iff.mp rest
  obtain ⟨rfl, rfl⟩ := Prod.mk.inj same
  have puts := (Puts.new.put (smoothObj_within.runs tree)).put (smoothObj_within.runs chunk)
  have apart := (putObject_getObject puts (by decide +kernel) (by decide +kernel)).2 (by unfold Twins; decide +kernel)
  refine ⟨w, fun kind bytes mem n => apart kind bytes _ ?_ n⟩
  simp only [List.mem_cons, List.not_mem_nil, or_false, Prod.mk.injEq] at mem
  rcases mem with ⟨rfl, rfl⟩ | ⟨rfl, rfl⟩
  · exact List.mem_cons_self
  · exact List.mem_cons_of_mem _ List.mem_cons_self

/-- A chunk can be made to take the name of any tree, whatever the hash. -/
theorem chunk_named_as_tree : ¬ ∀ (hash : Bytes → ChunkHash) (k k' : ObjectKind) (b b' : Bytes),
    k.Known → k'.Known →
    (hash (preimage k b) = hash (preimage k' b') → preimage k b = preimage k' b') →
    ObjectId.compute hash k b = .compute hash k' b' → k = k' ∧ b = b' := by
  intro h
  have same : preimage .chunk (objectDomain ++ (le 4 2 ++ [7])) = preimage .tree [7] := rfl
  have := h plainHash .chunk .tree (objectDomain ++ (le 4 2 ++ [7])) [7]
    (by decide) (by decide) (fun _ => same) rfl
  cases this.1

end Sequence
end Cavs
