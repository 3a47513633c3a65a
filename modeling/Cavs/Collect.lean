import Cavs.GraphReach
import Cavs.ObjectStore

/-!
# Deleting what nothing can reach

A collection reads the roots, marks what they reach, lists what is old and not marked,
reads the roots once more and deletes. It is told twice: as one call with nothing going
on beside it, and as a sequence of steps that a writer's may come between.
-/
namespace Cavs
open FileProg (Bytes)
open ByteScan
open Relation (ReflTransGen)

/-- How to run a collection. -/
structure GcOptions where
  grace : Nat
  leases : List ObjectId
  dryRun : Bool
  walk : WalkOptions

structure GcReport where
  dryRun : Bool
  roots : Nat
  reachable : Nat
  keptByGrace : Nat
  keptByLease : Nat
  removed : List ObjectId
  bytesRemoved : Nat
  missingRoots : List ObjectId
  abortedBecauseRootsMoved : Bool
  deriving DecidableEq, Repr

section Collect
variable (hash : Bytes → ChunkHash) (limits : DecodeLimits) (o : GcOptions)

/-- The time of the grace period before `now`, in nanoseconds, or the epoch where a clock
cannot say it. -/
def cutoffAt (now grace : Nat) : Int :=
  if (now : Int) - grace < -(2 ^ 63 * 10 ^ 9) then 0 else now - grace

/-- Whether an object was written after the cutoff; one without a time counts as young. -/
def writtenSince (w : ObjDisk) (id : ObjectId) (cutoff : Int) : Bool :=
  match w.get (.loose id) with
  | some f => decide ((f.mtime : Int) > cutoff)
  | none => true

/-- What keeps an object off the list of candidates. -/
def spared (w : ObjDisk) (reachable : List ObjectId) (cutoff : Int) (id : ObjectId) : Bool :=
  id ∈ reachable || id ∈ o.leases || writtenSince w id cutoff

def presentIds (visits : List Visit) : List ObjectId :=
  (visits.filter fun v => v.node.isSome).map Visit.id

def sizeOf (w : ObjDisk) (id : ObjectId) : Nat :=
  match w.get (.loose id) with
  | some f => match checkObject hash id f.bytes with
    | .ok object => object.bytes.length
    | .error _ => 0
  | none => 0

/-- One candidate of the sweep. -/
def sweepOne (cutoff : Int) (r : GcReport × ObjDisk) (id : ObjectId) : GcReport × ObjDisk :=
  let (report, w) := r
  if writtenSince w id cutoff then ({ report with keptByGrace := report.keptByGrace + 1 }, w)
  else
    ({ report with
      removed := report.removed ++ [id]
      bytesRemoved := report.bytesRemoved + sizeOf hash w id },
     if o.dryRun then w else w.del (.loose id))

/-- A collection that nothing happens beside, at time `now`; the roots are read twice. -/
def collect (fuel now : Nat) (readRoots : Fin 2 → Except ObjectError (List ObjectId)) (w : ObjDisk) :
    Option (Except ObjectError (GcReport × ObjDisk)) :=
  match readRoots 0 with
  | .error e => some (.error e)
  | .ok frozen => match walkReachable (lookup limits w) o.walk fuel frozen with
    | none => none
    | some (.error e) => some (.error e)
    | some (.ok visits) =>
        let reachable := presentIds visits
        let cutoff := cutoffAt now o.grace
        let listed := listObjects w
        let candidates := listed.filter fun id => !spared o w reachable cutoff id
        let unreached := listed.filter fun id => id ∉ reachable
        let report : GcReport := {
          dryRun := o.dryRun
          roots := frozen.length
          reachable := reachable.length
          keptByLease := (unreached.filter fun id => id ∈ o.leases).length
          keptByGrace := (unreached.filter fun id => id ∉ o.leases ∧ writtenSince w id cutoff).length
          removed := []
          bytesRemoved := 0
          missingRoots := (visits.filter fun v => v.node.isNone).map Visit.id
          abortedBecauseRootsMoved := false }
        if candidates = [] then some (.ok (report, w))
        else match readRoots 1 with
          | .error e => some (.error e)
          | .ok now =>
              if now ≠ frozen then some (.ok ({ report with abortedBecauseRootsMoved := true }, w))
              else some (.ok (candidates.foldl (sweepOne hash o cutoff) (report, w)))

end Collect

section Walk
variable {source : GraphSource} {o : WalkOptions} {roots : List ObjectId} {st : WalkState} {fuel : Nat}
  {visits : List Visit}

/-- A walk that ends well has nothing left to visit, or visits and goes on. -/
theorem walkFrom_ok (h : walkFrom source o (fuel + 1) st = some (.ok visits)) :
    (∃ st', nextVisit source o st.pending st = .ok (none, st') ∧ visits = []) ∨
      ∃ v st' rest, nextVisit source o st.pending st = .ok (some v, st') ∧
        walkFrom source o fuel st' = some (.ok rest) ∧ visits = v :: rest := by
  rw [walkFrom] at h
  split at h
  · cases h
  · rename_i ended
    cases h
    exact .inl ⟨_, ended, rfl⟩
  · rename_i v st' visited
    cases rest : walkFrom source o fuel st' with
    | none => rw [rest] at h; cases h
    | some r =>
        cases r with
        | error e => rw [rest] at h; cases h
        | ok vs =>
            rw [rest] at h
            cases h
            exact .inr ⟨v, st', vs, visited, rest, rfl⟩

/-- The visits of a walk that is never cut are the objects its roots reach. -/
theorem walkFrom_visits (open_ : o.kinds.isUnrestricted = true)
    (walked : Walked source roots (fun _ => False) st) (h : walkFrom source o fuel st = some (.ok visits)) :
    (∀ v ∈ visits, source v.id = .ok v.node) ∧
      ∀ x, Reachable source roots x ↔ x ∈ st.visited ∨ ∃ v ∈ visits, v.id = x := by
  induction fuel generalizing st visits with
  | zero => cases h
  | succ fuel ih =>
      rcases walkFrom_ok h with ⟨st', ended, rfl⟩ | ⟨v, st', rest, visited, walks, rfl⟩
      · obtain ⟨done, -⟩ := nextVisit_none open_ ended
        refine ⟨fun v mem => (List.not_mem_nil mem).elim, fun x => ⟨fun reach => ?_, ?_⟩⟩
        · rcases walked.complete done (P := fun _ => False) (fun _ _ none _ => none)
            (fun _ cut => cut) reach with seen | none
          · exact .inl seen
          · exact none.elim
        · rintro (seen | ⟨v, mem, -⟩)
          · exact walked.sound x (.inl seen)
          · cases mem
      · have step := nextVisit_some open_ visited
        obtain ⟨nodes, all⟩ := ih (walked.visits step) walks
        refine ⟨fun v' mem => ?_, fun x => ?_⟩
        · cases mem with
          | head => exact step.node
          | tail _ mem => exact nodes v' mem
        · rw [all x, step.visited, List.mem_cons]
          constructor
          · rintro ((rfl | seen) | ⟨v', mem, same⟩)
            · exact .inr ⟨v, List.mem_cons_self, rfl⟩
            · exact .inl seen
            · exact .inr ⟨v', .tail _ mem, same⟩
          · rintro (seen | ⟨v', mem, same⟩)
            · exact .inl (.inr seen)
            · cases mem with
              | head => exact .inl (.inl same.symm)
              | tail _ mem => exact .inr ⟨v', mem, same⟩

/-- On a graph where only the ids in `all` can be reached the walk comes to an end. -/
theorem walkFrom_isSome (open_ : o.kinds.isUnrestricted = true) {all : List ObjectId}
    (finite : ∀ x, Reachable source roots x → x ∈ all) (walked : Walked source roots (fun _ => False) st)
    (enough : all.length < fuel + st.visited.length) :
    (walkFrom source o fuel st).isSome := by
  induction fuel generalizing st with
  | zero =>
      have sub : st.visited ⊆ all := fun x mem => finite x (walked.sound x (.inl mem))
      have := (List.subperm_of_subset walked.nodup sub).length_le
      omega
  | succ fuel ih =>
      rw [walkFrom]
      split
      · rfl
      · rfl
      · rename_i v st' visited
        have visits := nextVisit_some open_ visited
        have grown : st'.visited.length = st.visited.length + 1 := by
          rw [visits.visited, List.length_cons]
        rw [Option.isSome_map]
        exact ih (walked.visits visits) (by omega)

theorem mem_presentIds (open_ : o.kinds.isUnrestricted = true)
    (h : walkReachable source o fuel roots = some (.ok visits)) {x : ObjectId} :
    x ∈ presentIds visits ↔ Reachable source roots x ∧ ∃ node, source x = .ok (some node) := by
  obtain ⟨nodes, all⟩ := walkFrom_visits open_ Walked.init h
  rw [presentIds, List.mem_map, all x]
  constructor
  · rintro ⟨v, mem, rfl⟩
    obtain ⟨mem, some⟩ := List.mem_filter.mp mem
    obtain ⟨node, found⟩ := Option.isSome_iff_exists.mp some
    exact ⟨.inr ⟨v, mem, rfl⟩, node, found ▸ nodes v mem⟩
  · rintro ⟨seen | ⟨v, mem, rfl⟩, node, found⟩
    · cases seen
    · have : v.node = some node := Except.ok.inj ((nodes v mem).symm.trans found)
      exact ⟨v, List.mem_filter.mpr ⟨mem, by rw [this]; rfl⟩, rfl⟩

/-- What a walk looked at without error is there when its file is. -/
theorem present_of_reached {limits : DecodeLimits} {w : ObjDisk} (open_ : o.kinds.isUnrestricted = true)
    (h : walkReachable (lookup limits w) o fuel roots = some (.ok visits)) {x : ObjectId} :
    x ∈ presentIds visits ↔ Reachable (lookup limits w) roots x ∧ Present w x := by
  rw [mem_presentIds open_ h]
  refine and_congr_right fun reach => ?_
  obtain ⟨nodes, all⟩ := walkFrom_visits open_ Walked.init h
  obtain ⟨v, mem, rfl⟩ := ((all x).mp reach).resolve_left (List.not_mem_nil)
  have found := nodes v mem
  unfold lookup at found ⊢
  unfold Present
  cases file : w.get (.loose v.id) with
  | none => simp
  | some f =>
      rw [file] at found
      simp only [Option.isSome_some, iff_true]
      cases node : looseNode limits v.id f.bytes with
      | error e => simp [node, Except.map] at found
      | ok n => exact ⟨n, rfl⟩

end Walk

section Sweep
variable {hash : Bytes → ChunkHash} {limits : DecodeLimits} {o : GcOptions} {cutoff : Int}

/-- A sweep that deletes takes away the candidates that are old, and nothing else. -/
theorem sweep_get (real : o.dryRun = false) (candidates : List ObjectId) (report : GcReport) (w : ObjDisk)
    (id : ObjectId) : ((candidates.foldl (sweepOne hash o cutoff) (report, w)).2).get (.loose id) =
      if id ∈ candidates ∧ writtenSince w id cutoff = false then none else w.get (.loose id) := by
  induction candidates generalizing report w with
  | nil => simp
  | cons c rest ih =>
      rw [List.foldl_cons, sweepOne]
      split
      · rename_i young
        rw [ih]
        by_cases same : id = c
        · subst same
          simp [young]
        · simp [same]
      · rename_i old
        rw [Bool.not_eq_true] at old
        simp only [real, Bool.false_eq_true, if_false]
        rw [ih]
        by_cases same : id = c
        · subst same
          simp [old]
        · have other : (w.del (.loose c)).get (.loose id) = w.get (.loose id) :=
            FileProg.get_del_ne (by simpa using same) w
          simp [same, other, writtenSince]

end Sweep

section Kept
variable {hash : Bytes → ChunkHash} {limits : DecodeLimits} {o : GcOptions} {fuel now : Nat}
  {roots : List ObjectId} {w v : ObjDisk} {report : GcReport}

/-- With nothing going on beside it a collection deletes what it does not spare. -/
theorem collect_get (real : o.dryRun = false)
    (h : collect hash limits o fuel now (fun _ => .ok roots) w = some (.ok (report, v))) :
    ∃ visits, walkReachable (lookup limits w) o.walk fuel roots = some (.ok visits) ∧
      ∀ id, v.get (.loose id) =
        if Present w id ∧ spared o w (presentIds visits) (cutoffAt now o.grace) id = false then none
        else w.get (.loose id) := by
  rw [collect] at h
  dsimp only at h
  split at h
  · cases h
  · cases h
  rename_i visits walked
  refine ⟨visits, walked, fun id => ?_⟩
  have candidate : id ∈ (listObjects w).filter (fun id => !spared o w (presentIds visits) (cutoffAt now o.grace) id) ↔
      Present w id ∧ spared o w (presentIds visits) (cutoffAt now o.grace) id = false := by
    rw [List.mem_filter, mem_listObjects, Bool.not_eq_true']
  split at h
  · rename_i nothing
    cases h
    rw [nothing] at candidate
    rw [if_neg (candidate.not.mp (List.not_mem_nil))]
  · rw [if_neg (by simp)] at h
    simp only [Option.some.injEq, Except.ok.injEq] at h
    have removed := congrArg (fun r : GcReport × ObjDisk => r.2.get (.loose id)) h
    dsimp only at removed
    rw [← removed, sweep_get real]
    refine if_congr ⟨fun mem => candidate.mp mem.1, fun old => ⟨candidate.mpr old, ?_⟩⟩ rfl rfl
    have := old.2
    simp only [spared, Bool.or_eq_false_iff] at this
    exact this.2

/-- The ids that the objects of a store depend on. -/
def namedIn (limits : DecodeLimits) (w : ObjDisk) : List ObjectId :=
  (listObjects w).flatMap fun id =>
    match lookup limits w id with
    | .ok (some node) => node.dependencies
    | _ => []

/-- What roots reach is one of them or named by an object. -/
theorem reachable_finite {x : ObjectId} (h : Reachable (lookup limits w) roots x) :
    x ∈ roots ++ namedIn limits w := by
  obtain ⟨r, mem, path⟩ := h
  rw [List.mem_append]
  cases path with
  | refl => exact .inl mem
  | @tail a _ _ e =>
      obtain ⟨node, found, dep⟩ := e
      refine .inr (List.mem_flatMap.mpr ⟨a, (mem_listObjects w).mpr ?_, ?_⟩)
      · rw [Present, Option.isSome_iff_ne_none]
        intro absent
        rw [lookup, absent] at found
        cases found
      · rw [found]
        exact dep

/-- A collection comes to an end. -/
theorem collect_isSome (open_ : o.walk.kinds.isUnrestricted = true) (readRoots : Fin 2 → Except ObjectError (List ObjectId)) :
    ∃ fuel, (collect hash limits o fuel now readRoots w).isSome := by
  cases frozen : readRoots 0 with
  | error e => exact ⟨0, by rw [collect, frozen]; rfl⟩
  | ok roots =>
      refine ⟨(roots ++ namedIn limits w).length + 1, ?_⟩
      have ends := walkFrom_isSome open_ (fun x => @reachable_finite limits roots w x)
        Walked.init (Nat.lt_succ_self _)
      obtain ⟨r, walked⟩ := Option.isSome_iff_exists.mp ends
      simp only [collect, frozen, walkReachable, walked]
      cases r with
      | error e => rfl
      | ok visits =>
          dsimp only
          split
          · rfl
          split
          · rfl
          split <;> rfl

/-- A collection of a store nobody else writes to comes to an end, and what it leaves is
what the roots reach, what is leased and what is young, as it was. -/
theorem collect_keeps (open_ : o.walk.kinds.isUnrestricted = true) (real : o.dryRun = false) :
    (∃ fuel, (collect hash limits o fuel now (fun _ => .ok roots) w).isSome) ∧
      ∀ fuel report v, collect hash limits o fuel now (fun _ => .ok roots) w = some (.ok (report, v)) →
        ∀ id, (Present v id ↔ Present w id ∧ (Reachable (lookup limits w) roots id ∨ id ∈ o.leases ∨
            ∃ f, w.get (.loose id) = some f ∧ (f.mtime : Int) > cutoffAt now o.grace)) ∧
          (Present v id → v.get (.loose id) = w.get (.loose id)) := by
  refine ⟨collect_isSome open_ _, fun fuel report v h id => ?_⟩
  obtain ⟨visits, walked, left⟩ := collect_get real h
  have kept : spared o w (presentIds visits) (cutoffAt now o.grace) id = true ↔
      (Reachable (lookup limits w) roots id ∧ Present w id) ∨ id ∈ o.leases ∨
        writtenSince w id (cutoffAt now o.grace) = true := by
    simp only [spared, Bool.or_eq_true, decide_eq_true_eq, present_of_reached open_ walked, or_assoc]
  have young : Present w id → (writtenSince w id (cutoffAt now o.grace) = true ↔
      ∃ f, w.get (.loose id) = some f ∧ (f.mtime : Int) > cutoffAt now o.grace) := by
    intro there
    obtain ⟨f, found⟩ := Option.isSome_iff_exists.mp there
    simp [writtenSince, found]
  constructor
  · rw [Present, left id]
    by_cases there : Present w id
    · cases spare : spared o w (presentIds visits) (cutoffAt now o.grace) id with
      | false =>
          rw [spare] at kept
          rw [young there] at kept
          simp only [there, true_and, and_true, Bool.false_eq_true, false_iff, if_true,
            Option.isSome_none] at kept ⊢
          exact kept
      | true =>
          rw [spare] at kept
          rw [young there] at kept
          simp only [there, true_and, and_true, true_iff, Bool.true_eq_false, if_false] at kept ⊢
          exact iff_of_true there kept
    · rw [if_neg fun h => there h.1]
      exact iff_of_false there fun h => there h.1
  · intro there
    rw [Present, left id] at there
    rw [left id]
    split at there
    · cases there
    · rw [if_neg ‹_›]

/-- A store of the two, both written at the beginning. -/
def pageStore : ObjDisk :=
  (FileProg.World.empty.put (.loose leaf) (looseBytes .chunk leafBytes) 0).put
    (.loose page) (looseBytes .tree pageBytes) 0

def leasing (leases : List ObjectId) : GcOptions := ⟨10, leases, false, .default⟩

theorem page_needs_leaf : Edge (lookup .default pageStore) page leaf :=
  ⟨⟨page, .tree, 41, [leaf]⟩, rfl, List.mem_singleton_self _⟩

def scrap (n : Nat) : ObjectId := .compute lengthHash .chunk (.replicate n 7)

/-- Next to the two, a chunk as old that nothing names and another that is young. -/
def scrapStore : ObjDisk :=
  (pageStore.put (.loose (scrap 2)) (looseBytes .chunk (.replicate 2 7)) 0).put
    (.loose (scrap 3)) (looseBytes .chunk (.replicate 3 7)) 95

/-- The chunk stays with the tree when that is a root, the old scrap goes. -/
theorem collect_keeps_page : ∃ fuel report v,
    collect lengthHash .default (leasing []) fuel 100 (fun _ => .ok [page]) scrapStore = some (.ok (report, v)) ∧
      Present v leaf ∧ Present v (scrap 3) ∧ ¬ Present v (scrap 2) := by
  have needs : Edge (lookup .default scrapStore) page leaf := ⟨⟨page, .tree, 41, [leaf]⟩, rfl, List.mem_singleton_self _⟩
  obtain ⟨report, ends⟩ : ∃ report, collect lengthHash .default (leasing []) 3 100 (fun _ => .ok [page]) scrapStore =
      some (.ok (report, scrapStore.del (.loose (scrap 2)))) := ⟨_, rfl⟩
  have kept := (collect_keeps rfl rfl).2 3 _ _ ends
  exact ⟨3, report, _, ends, (kept leaf).1.mpr ⟨by decide +kernel, .inl ⟨page, List.mem_singleton_self _, .single needs⟩⟩,
    (kept (scrap 3)).1.mpr ⟨by decide +kernel, .inr (.inr ⟨_, rfl, by decide⟩)⟩, by decide +kernel⟩

theorem collect_leased : ∃ r, collect lengthHash .default (leasing [page]) 3 100 (fun _ => .ok []) pageStore = some (.ok r) ∧
    ¬ Present r.2 leaf := ⟨_, rfl, by decide +kernel⟩

/-- The chunk goes when the tree is only leased: a lease protects the object it names, not
what that object needs. -/
theorem lease_without_closure : ¬ ∀ (hash : Bytes → ChunkHash) (limits : DecodeLimits) (o : GcOptions)
    (fuel now : Nat) (roots : List ObjectId) (w v : ObjDisk) (report : GcReport),
    o.walk.kinds.isUnrestricted = true → o.dryRun = false →
    collect hash limits o fuel now (fun _ => .ok roots) w = some (.ok (report, v)) →
    ∀ id, Present v id ↔ Present w id ∧ Reachable (lookup limits w)
      (roots ++ o.leases ++ (listObjects w).filter fun id => writtenSince w id (cutoffAt now o.grace)) id := by
  intro h
  obtain ⟨r, run, gone⟩ := collect_leased
  refine gone ((h _ _ _ _ _ _ _ _ _ rfl rfl run leaf).mpr ⟨by decide +kernel, page, ?_, .single page_needs_leaf⟩)
  exact List.mem_append_left _ (List.mem_singleton_self page)

end Kept
end Cavs
