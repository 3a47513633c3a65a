import Cavs.Hybrid

/-!
# The client's chunk cache

One file for each chunk, named by its hash, in a directory named by the first two digits.
The cache lies in the same tree as everything else the client writes.
-/
namespace Cavs
open FileProg (Bytes)
open LinkFs (Comp FsError Tree)
open OpProg (Cmd Prog)
open OpProg.Cmd (throw forEach)
open Rebuild (Overflow)

/-- A path text taken from a path. -/
def joinTo (front : List Comp) (p : String) : List Comp := if isAbsolute p then comps p else front ++ comps p

namespace ChunkCache
variable (root : LinkFs.Path) (hashChunk : Bytes → ChunkHash)

/-- The text's first two bytes, where they are whole characters. -/
def shard (hex : String) : Option String := if cutsAt hex 2 then utf8 ((strBytes hex).take 2) else none

def pathForHex (hex : String) : Option (List Comp) :=
  (shard hex).map fun two => joinTo (joinTo (root.map .name) two) hex

/-- The entry of a hash; its digits are single bytes. -/
def entry (hash : ChunkHash) : List Comp :=
  let hex := (toHex hash).toList
  LinkFs.below root [hex.take 2, hex]

def entryTmp (hash : ChunkHash) : List Comp :=
  let hex := (toHex hash).toList
  LinkFs.below root [hex.take 2, hex ++ ".tmp".toList]

def put (hash : ChunkHash) (payload : Bytes) : Apply Unit := do
  match ← fs (.metadata (entry root hash)) with
  | some _ => return ()
  | none => do
      createDirAll (entry root hash).dropLast
      io (← fs (.create (entryTmp root hash)))
      io (← fs (.append (entryTmp root hash) payload))
      io (← fs (.rename (entryTmp root hash) (entry root hash)))

/-- The payload, where it has the hash; an entry with other bytes is dropped. -/
def verified (hash : ChunkHash) (payload : Bytes) : Apply (Option Bytes) :=
  if hashChunk payload ≠ hash then do
    let _ ← fs (.unlink (entry root hash))
    return none
  else return some payload

def get (hash : ChunkHash) : Apply (Option Bytes) := do
  match ← fs (.read (entry root hash)) with
  | .error _ => return none
  | .ok payload => verified root hashChunk hash payload

variable {root hashChunk} {Step : (o : LinkFs.Op) → Tree → o.Res → Tree → Prop}

theorem get_wp (hash : ChunkHash) (t : Tree) :
    (get root hashChunk hash).Wp Step (fun _ => True) (fun _ _ => True)
      (fun r _ => ∀ b, r = some b → hashChunk b = hash) t := by
  apply Cmd.Wp.bind
  apply Cmd.Wp.op trivial
  intro r u _
  cases r with
  | error e =>
      apply Cmd.Wp.pure
      simp
  | ok payload =>
      dsimp only [verified]
      split
      · apply Cmd.Wp.bind
        apply Cmd.Wp.op trivial
        intro _ v _
        apply Cmd.Wp.pure
        simp
      · rename_i same
        apply Cmd.Wp.pure
        rintro b ⟨⟩
        exact not_not.mp same

end ChunkCache

section Hybrid

/-- What hybrid reconstruction does outside of itself. -/
inductive HybridOp where
  | fs (o : LinkFs.Op)
  | fetch (hash : String)
  | write (b : Bytes)

@[reducible] def HybridOp.Res : HybridOp → Type
  | .fs o => o.Res
  | .fetch _ => Except FsError Bytes
  | .write _ => Except FsError Unit

inductive HybridStop where
  | tree (e : ApplyError)
  | plan (e : HybridError)
  | origin (hash : String) (e : FsError)
  | sink (e : FsError)
  deriving DecidableEq, Repr

abbrev HybridM (α : Type) := Cmd HybridOp HybridOp.Res HybridStop α

/-- The tree, and the bytes the sink has taken. -/
abbrev HybridState := Tree × Bytes

/-- The origin answers as it likes, and the sink may take a part of what it is given and fail. -/
def HybridStep (mayFail : LinkFs.Op → Tree → Prop) : (o : HybridOp) → HybridState → o.Res → HybridState → Prop
  | .fs o, x, r, y => LinkFs.Step mayFail o x.1 r y.1 ∧ y.2 = x.2
  | .fetch _, x, _, y => y = x
  | .write b, x, r, y =>
      (r = .ok () ∧ y = (x.1, x.2 ++ b)) ∨ ((∃ e, r = .error e) ∧ ∃ n, y = (x.1, x.2 ++ b.take n))

def inTree (o : LinkFs.Op) : Prog HybridOp HybridOp.Res o.Res := .call (.fs o) .ret

def liftTree {α : Type} (p : Apply α) : HybridM α := Cmd.embed inTree .tree p

def hybridCache (root : LinkFs.Path) (hashChunk : Bytes → ChunkHash) : CacheCalls HybridOp HybridOp.Res HybridStop where
  get h := liftTree (ChunkCache.get root hashChunk h)
  put h b := liftTree (ChunkCache.put root h b)

def ask (o : HybridOp) : HybridM o.Res := Cmd.op o

def hybridWrite (b : Bytes) : HybridM Unit := do
  let r : Except FsError Unit ← ask (.write b)
  match r with
  | .ok () => return ()
  | .error e => throw (.sink e)

def hybridFetch (hash : String) : HybridM Bytes := do
  let r : Except FsError Bytes ← ask (.fetch hash)
  match r with
  | .ok b => return b
  | .error e => throw (.origin hash e)

def hybridReconstruct (m : Overflow) (hashChunk : Bytes → ChunkHash) (root : LinkFs.Path)
    (prev : Option PreviousArtifact) (p : Rebuild.ReconstructionPlan) : HybridM ExecOutcome :=
  executePlan m hashChunk .plan (hybridCache root hashChunk) hybridWrite hybridFetch prev p

def plainReconstruct (hashChunk : Bytes → ChunkHash) (root : LinkFs.Path) (hexes : List String) : HybridM Unit :=
  forEach hexes (appendChunk .plan (hybridCache root hashChunk) hybridWrite)

variable {mayFail : LinkFs.Op → Tree → Prop} {root : LinkFs.Path} {hashChunk : Bytes → ChunkHash}

/-- The executor does not panic. -/
def NoPanic (e : HybridStop) (_ : HybridState) : Prop := e ≠ .plan .outOfBounds ∧ e ≠ .plan .overflow

theorem liftTree_wp {α : Type} {p : Apply α} {Q : α → Tree → Prop} {x : HybridState}
    (h : p.Wp (LinkFs.Step mayFail) (fun _ => True) (fun _ _ => True) Q x.1) :
    (liftTree p).Wp (HybridStep mayFail) (fun _ => True) NoPanic (fun a y => y.2 = x.2 ∧ Q a y.1) x := by
  apply Cmd.Wp.embed (S := fun y t => y.1 = t ∧ y.2 = x.2) _ _ _ ⟨rfl, rfl⟩ h
  · rintro o y t ⟨rfl, same⟩ _
    refine ⟨trivial, ?_⟩
    rintro r z ⟨does, kept⟩
    exact ⟨z.1, does, rfl, kept.trans same⟩
  · rintro a y u ⟨rfl, same⟩ q
    exact ⟨same, q⟩
  · intro e y u _ _
    exact ⟨by simp, by simp⟩

theorem ask_wp {o : HybridOp} {E : HybridStop → HybridState → Prop} {Q : o.Res → HybridState → Prop} {x : HybridState}
    (h : ∀ r y, HybridStep mayFail o x r y → Q r y) :
    Cmd.Wp (HybridStep mayFail) (fun _ => True) E Q (ask o) x := ⟨trivial, h⟩

theorem hybrid_surroundings :
    Surroundings (HybridStep mayFail) (fun _ => True) NoPanic hashChunk .plan (hybridCache root hashChunk) hybridWrite
      hybridFetch (fun out x => x.2 = out) where
  get := by
    rintro h out x rfl
    exact Cmd.Wp.mono (liftTree_wp (ChunkCache.get_wp h x.1)) fun _ _ q => q
  put := by
    rintro h b out x rfl
    apply Cmd.Wp.mono (liftTree_wp (Q := fun _ _ => True) (Cmd.Wp.any _ _))
    exact fun _ _ q => q.1
  fetch := by
    rintro hex out x rfl
    apply Cmd.Wp.bind
    apply ask_wp
    rintro r _ rfl
    cases r with
    | ok b => rfl
    | error e => exact ⟨by simp, by simp⟩
  write := by
    rintro b out x rfl
    apply Cmd.Wp.bind
    apply ask_wp
    rintro r y (⟨rfl, rfl⟩ | ⟨⟨e, rfl⟩, -⟩)
    · rfl
    · exact ⟨by simp, by simp⟩
  fails := by
    intro e out x slice sum _
    exact ⟨by simpa using slice, by simpa using sum⟩

end Hybrid

end Cavs
