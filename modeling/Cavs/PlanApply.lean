import Cavs.LinkFs
import Cavs.Plan

/-!
# Applying a directory plan

Changed files are staged and verified, the intent is journaled, then directories, files,
links and deletions are carried out one after another in the output directory.
-/
namespace Cavs
open FileProg (Bytes)
open LinkFs (Comp FsError Tree)
open OpProg.Cmd (throw forEach attempt ofExcept)

structure ApplyJournal where
  version : Nat
  planBlake3 : String
  planPath : Option String
  oldRoot : LinkFs.Path
  outRoot : LinkFs.Path
  state : String
  filesStaged : List String
  filesMoved : List String
  deriving DecidableEq, Repr

structure ApplyOptions where
  deleteRemoved : Bool
  checkOld : Bool
  planPath : Option String
  deriving DecidableEq, Repr

/-- The hash, what identifies a plan, and the text form of a journal. -/
structure ApplyEnv where
  hash : Bytes → ChunkHash
  identity : OfflinePlan → String
  encodeJournal : ApplyJournal → Bytes
  decodeJournal : Bytes → Option ApplyJournal

inductive ApplyError where
  | panics
  | plan (e : PlanError)
  | fs (e : FsError)
  | corruptJournal
  | otherJournal (planBlake3 : String)
  deriving DecidableEq, Repr

abbrev Apply (α : Type) := OpProg.Cmd LinkFs.Op LinkFs.Op.Res ApplyError α

def fs (o : LinkFs.Op) : Apply o.Res := OpProg.Cmd.op o

def io {α : Type} : Except FsError α → Apply α
  | .ok a => pure a
  | .error e => throw (.fs e)

def stagingDir : LinkFs.Name := ".cavs-staging".toList
def journalFile : LinkFs.Name := ".cavs-journal.json".toList
def journalTmp : LinkFs.Name := ".cavs-journal.json.tmp".toList

section Paths

/-- The steps of a path text; empty parts and single dots are none. -/
def comps (p : String) : List Comp :=
  (p.toList.splitOn '/').filterMap fun c =>
    if c = [] ∨ c = ['.'] then none else if c = ['.', '.'] then some .up else some (.name c)

def isAbsolute (p : String) : Bool := p.toList.head? == some '/'

/-- A path text taken from a directory; an absolute one stands for itself. -/
def join (root : LinkFs.Path) (p : String) : List Comp :=
  if isAbsolute p then comps p else root.map .name ++ comps p

/-- The parts of a safe path. -/
def planNames (p : String) : LinkFs.Path := p.toList.splitOn '/'

theorem planNames_ne_nil (p : String) : planNames p ≠ [] := List.splitOnPPrepend_ne_nil _ _ _

theorem comps_of_plain {l : List (List Char)} (plain : ∀ c ∈ l, c ≠ [] ∧ c ≠ ['.'] ∧ c ≠ ['.', '.']) :
    (l.filterMap fun c => if c = [] ∨ c = ['.'] then none else if c = ['.', '.'] then some Comp.up else some (.name c)) =
      l.map .name := by
  induction l with
  | nil => rfl
  | cons c l ih =>
      obtain ⟨filled, dot, up⟩ := plain c List.mem_cons_self
      rw [List.filterMap_cons, if_neg (not_or.mpr ⟨filled, dot⟩), if_neg up, ih fun d mem => plain d (List.mem_cons_of_mem _ mem)]
      rfl

/-- A safe path leads, part by part, below the directory it is taken from. -/
theorem join_safe {p : String} (safe : pathIsSafe p = true) (root : LinkFs.Path) : join root p = LinkFs.below root (planNames p) := by
  rw [pathIsSafe] at safe
  simp only [Bool.and_eq_true, List.all_eq_true, bne_iff_ne, ne_eq] at safe
  obtain ⟨⟨⟨⟨⟨-, relative⟩, -⟩, -⟩, -⟩, plain⟩ := safe
  have notAbsolute : isAbsolute p = false := by
    rw [isAbsolute, beq_eq_false_iff_ne]
    exact relative
  rw [join, notAbsolute, if_neg Bool.false_ne_true, comps, comps_of_plain, LinkFs.below, List.map_append]
  · rfl
  · intro c mem
    obtain ⟨⟨filled, dot⟩, up⟩ := plain c mem
    exact ⟨filled, dot, up⟩

end Paths

section Files
variable (env : ApplyEnv)

def dirOr (path : List Comp) (e : FsError) : Apply Unit := do
  match ← fs (.metadata path) with
  | some m => (if m.isDir then pure () else throw (.fs e))
  | none => throw (.fs e)

/-- Make a directory, and first its parents where they are missing; the path is reversed. -/
def createUp : List Comp → Apply Unit
  | [] => pure ()
  | c :: up => do
      match ← fs (.mkdir (c :: up).reverse) with
      | .ok () => return ()
      | .error .notFound => do
          createUp up
          match ← fs (.mkdir (c :: up).reverse) with
          | .ok () => return ()
          | .error e => dirOr (c :: up).reverse e
      | .error e => dirOr (c :: up).reverse e

def createDirAll (path : List Comp) : Apply Unit := createUp path.reverse

def hashFile (path : List Comp) : Apply ChunkHash := do
  let bytes ← io (← fs (.read path))
  return env.hash bytes

/-- The path is a file of this size and hash; any error reads as no. -/
def fileMatches (path : List Comp) (size : UInt64) (expected : ChunkHash) : Apply Bool := do
  match ← fs (.metadata path) with
  | none => return false
  | some m =>
      (if m.isFile ∧ m.len = size.toNat then do
        match ← attempt (hashFile env path) with
        | .ok h => return decide (h = expected)
        | .error _ => return false
      else pure false)

def setExecutable (path : List Comp) (executable : Bool) : Apply Unit := do
  match ← fs (.metadata path) with
  | none => throw (.fs .notFound)
  | some _ => do io (← fs (.setExecutable path executable))

def createSymlink (target : String) (link : List Comp) : Apply Unit := do
  match ← fs (.linkMetadata link) with
  | some _ => do io (← fs (.unlink link))
  | none => pure ()
  createDirAll link.dropLast
  (if target = "" ∨ target.toList.contains (Char.ofNat 0) then throw (.fs .other)
  else do io (← fs (.symlink (isAbsolute target) (comps target) link)))

end Files

section Journal
variable (env : ApplyEnv) (out : LinkFs.Path)

/-- A file that lies directly in the output directory. -/
def inOut (n : LinkFs.Name) : List Comp := LinkFs.below out [n]

def saveJournal (journal : ApplyJournal) : Apply Unit := do
  createDirAll (out.map .name)
  io (← fs (.create (inOut out journalTmp)))
  io (← fs (.append (inOut out journalTmp) (env.encodeJournal journal)))
  io (← fs (.rename (inOut out journalTmp) (inOut out journalFile)))

/-- Whether a text may be cut behind its first bytes. -/
def cutsAt (s : String) (n : Nat) : Bool :=
  match (strBytes s).drop n with
  | [] => decide ((strBytes s).length = n)
  | c :: _ => decide (c < 128 ∨ 192 ≤ c)

/-- A journal that is there has to be one of this plan. -/
def checkJournal (identity : String) : Apply Unit := do
  match ← fs (.metadata (inOut out journalFile)) with
  | none => return ()
  | some _ => do
      let bytes ← io (← fs (.read (inOut out journalFile)))
      match env.decodeJournal bytes with
      | none => throw .corruptJournal
      | some journal =>
          (if journal.planBlake3 = identity then pure ()
          else if cutsAt journal.planBlake3 12 then throw (.otherJournal journal.planBlake3)
          else throw .panics)

end Journal

section Stage
variable (env : ApplyEnv) (plan : OfflinePlan) (old out : LinkFs.Path)

/-- Where an old entry lies; the ids of a valid plan are distinct. -/
def oldPath (id : UInt32) : Option (List Comp) :=
  (plan.oldEntries.find? fun e => e.entryId = id).map fun e => join old e.path

/-- Copy a range in bounded reads, from `done` bytes on; the offset of a read wraps. -/
def copyTo (source staged : List Comp) (offset : UInt64) (len done : Nat) : Apply Unit :=
  if done < len then do
    let n := min (len - done) readChunk8
    let buf ← io (← fs (.readRange source (offset + UInt64.ofNat done).toNat n))
    io (← fs (.append staged buf))
    copyTo source staged offset len (done + n)
  else pure ()
termination_by len - done
decreasing_by
  have : 0 < readChunk8 := by decide
  omega

/-- Write the bytes of one operation to a staged file. -/
def stageOp (staged : List Comp) : PlanOp → Apply Unit
  | .copyOld oldId offset _ _ len => match oldPath plan old oldId with
    | some source => copyTo source staged offset len.toNat 0
    | none => if len = 0 then pure () else throw (.plan (.invalid s!"op references unknown old entry {oldId}"))
  | .inlined _ _ len blobOffset => match inlineRange plan.blob blobOffset len with
    | .ok bytes => do io (← fs (.append staged bytes))
    | .error e => throw (.plan e)
    | .panics => throw .panics

def stagedName (id : UInt32) : LinkFs.Name := 'e' :: (toString id).toList

def stagedPath (id : UInt32) : List Comp := LinkFs.below out [stagingDir, stagedName id]

/-- Stage one file, unless the file in place or one staged before already matches. -/
def stageEntry (journal : ApplyJournal) (entry : PlanEntry) : Apply (Option PlanEntry) := do
  match entry.blake3 with
  | none => throw .panics
  | some expected => do
      if ← fileMatches env (join out entry.path) entry.size expected then return none
      else if ← fileMatches env (stagedPath out entry.entryId) entry.size expected then return some entry
      else do
        io (← fs (.create (stagedPath out entry.entryId)))
        forEach (plan.ops.filter fun o => o.newEntryId = entry.entryId) (stageOp plan old (stagedPath out entry.entryId))
        let got ← hashFile env (stagedPath out entry.entryId)
        if got ≠ expected then do
          let _ ← attempt (saveJournal env out { journal with state := "failed" })
          throw (.plan (.applyHashMismatch entry.path))
        else return some entry

def stageAll (journal : ApplyJournal) : List PlanEntry → Apply (List PlanEntry)
  | [] => return []
  | entry :: rest => do
      let staged ← (if entry.kind = .file then stageEntry env plan old out journal entry else pure none)
      return staged.toList ++ (← stageAll journal rest)

/-- The bytes of all old entries, in their order. -/
def readOld : List OldEntry → Apply Bytes
  | [] => return []
  | e :: rest => do
      let bytes ← io (← fs (.read (join old e.path)))
      return bytes ++ (← readOld rest)

def verifyOldSource : Apply Unit := do
  match plan.oldBlake3 with
  | none => return ()
  | some expected => do
      let bytes ← readOld old plan.oldEntries
      (if env.hash bytes ≠ expected then
        throw (.plan (.invalid "old source does not match the plan's recorded content hash"))
      else pure ())

end Stage

section Commit
variable (env : ApplyEnv) (plan : OfflinePlan) (old out : LinkFs.Path) (opts : ApplyOptions)

def makeDirectory (entry : PlanEntry) : Apply Unit := do
  match ← fs (.metadata (join out entry.path)) with
  | some m => (if m.isDir then pure () else createDirAll (join out entry.path))
  | none => createDirAll (join out entry.path)

def placeFile (entry : PlanEntry) : Apply Unit := do
  createDirAll (join out entry.path).dropLast
  io (← fs (.rename (stagedPath out entry.entryId) (join out entry.path)))
  setExecutable (join out entry.path) entry.executable

/-- Everything up to the permissions of the files; the journal is handed on. -/
def placeFiles : Apply ApplyJournal := do
  (if plan.mode ≠ .directory then
    throw (.plan (.invalid "directory apply needs a directory plan (use artifact apply)"))
  else pure ())
  ofExcept ((ensurePortable plan).mapError .plan)
  (if opts.checkOld then verifyOldSource env plan old else pure ())
  checkJournal env out (env.identity plan)
  createDirAll (inOut out stagingDir)
  createDirAll (out.map .name)
  let journal : ApplyJournal := ⟨1, env.identity plan, opts.planPath, old, out, "staging", [], []⟩
  saveJournal env out journal
  let staged ← stageAll env plan old out journal plan.newEntries
  let journal := { journal with state := "verified", filesStaged := staged.map PlanEntry.path }
  saveJournal env out journal
  forEach (plan.newEntries.filter fun e => e.kind = .directory) (makeDirectory out)
  let journal := { journal with state := "committing" }
  saveJournal env out journal
  forEach staged (placeFile out)
  forEach (plan.newEntries.filter fun e => e.kind = .file) fun e => setExecutable (join out e.path) e.executable
  return { journal with filesMoved := staged.map PlanEntry.path }

def makeLink (entry : PlanEntry) : Apply Unit :=
  createSymlink (entry.symlinkTarget.getD "") (join out entry.path)

/-- Remove a path that the new build no longer has; a directory that is not empty stays. -/
def removeDeleted (p : String) : Apply Unit := do
  match ← fs (.metadata (join out p)) with
  | some m =>
      (if m.isDir then do
        let _ ← fs (.rmdir (join out p))
        pure ()
      else do io (← fs (.unlink (join out p))))
  | none => do
      match ← fs (.linkMetadata (join out p)) with
      | some _ => do io (← fs (.unlink (join out p)))
      | none => pure ()

/-- Links, deletions, and the end of the journal. -/
def finishApply (journal : ApplyJournal) : Apply Unit := do
  forEach (plan.newEntries.filter fun e => e.kind = .symlink) (makeLink out)
  (if opts.deleteRemoved then forEach plan.deleted (removeDeleted out) else pure ())
  saveJournal env out { journal with state := "committed" }
  let _ ← fs (.removeAll (inOut out stagingDir))
  let _ ← fs (.unlink (inOut out journalFile))
  pure ()

def applyDir : Apply Unit := do
  let journal ← placeFiles env plan old out opts
  finishApply env plan out opts journal

end Commit
end Cavs
