import Cavs.Signature

/-!
# Looking for old blocks in new bytes

A window slides over the new bytes. Its weak hash is kept up to date byte by byte and looked
up among the weak hashes of the old blocks; a block is taken when the strong hash agrees, and
the window moves behind it. What lies between blocks that were taken is sent.
-/
namespace Cavs.Signature
open FileProg (Bytes)

def maxInlineData : Nat := 4 * 1024 * 1024

inductive DiffOp where
  | copyOldRange (entryId : UInt32) (oldOffset newOffset len : Nat)
  | inlineData (newOffset len : Nat)
  deriving DecidableEq, Repr

structure DiffPlan where
  ops : List DiffOp
  reusedBytes : Nat
  inlineBytes : Nat
  opsBeforeCoalescing : Nat
  deriving DecidableEq, Repr

section Rolling

/-- The sums of a window that slides. -/
structure RollingWeak where
  a : UInt32
  b : UInt32
  len : UInt32

namespace RollingWeak

def new (window : Bytes) : RollingWeak :=
  let len := UInt32.ofNat window.length
  let sums := window.zipIdx.foldl (fun (s : UInt32 × UInt32) x =>
    (s.1 + x.1.toUInt32, s.2 + (len - UInt32.ofNat x.2) * x.1.toUInt32)) (0, 0)
  ⟨sums.1, sums.2, len⟩

/-- One byte leaves in front and one comes in behind. -/
def roll (r : RollingWeak) (out inp : UInt8) : RollingWeak :=
  let a := r.a - out.toUInt32 + inp.toUInt32
  { r with
    a
    b := r.b - r.len * out.toUInt32 + a }

def digest (r : RollingWeak) : UInt32 :=
  let low : UInt32 := 0xffff
  (r.a &&& low) ||| ((r.b &&& low) <<< 16)

end RollingWeak
end Rolling

section Index

/-- The full blocks of a signature by their weak hashes, in order. -/
structure WeakHashIndex where
  sig : CavsSignature
  byWeak : List (UInt32 × UInt32)
  entryPath : List (UInt32 × String)

namespace WeakHashIndex

/-- Indices have 32 bits. -/
def build (sig : CavsSignature) : WeakHashIndex where
  sig
  byWeak := sig.blocks.zipIdx.filterMap fun x =>
    if x.1.len = sig.blockSize then some (x.1.weak32, UInt32.ofNat x.2) else none
  entryPath := sig.entries.filterMap fun e => if e.kind = .file then some (e.entryId, e.path) else none

variable (index : WeakHashIndex)

/-- An index that is out of range ends the program. -/
def block (i : UInt32) : Option SignatureBlockHash := index.sig.blocks[i.toNat]?

def candidates (weak : UInt32) : List UInt32 :=
  index.byWeak.filterMap fun x => if x.1 = weak then some x.2 else none

/-- The path of a file; of several with one id the last counts. -/
def pathOf (entryId : UInt32) : Option String := index.entryPath.reverse.lookup entryId

/-- How much a block is preferred. -/
def score (targetPath : Option String) (prev : Option (UInt32 × Nat)) (b : SignatureBlockHash) : Int :=
  let continues : Int := if prev = some (b.entryId, b.offset.toNat) then 500 else 0
  let samePath : Int := if targetPath.isSome ∧ index.pathOf b.entryId = targetPath then 1000 else 0
  (continues + samePath) * 1000000 - min b.offset.toNat 500000 - b.entryId.toNat

end WeakHashIndex

/-- The last of the greatest. -/
def maxByKey {α : Type} (key : α → Int) : List α → Option α
  | [] => none
  | x :: rest => some (rest.foldl (fun best y => if key best ≤ key y then y else best) x)

end Index

section Scan
variable (hashChunk : Bytes → ChunkHash)

/-- The block that the window is taken from. -/
def WeakHashIndex.find (index : WeakHashIndex) (weak : UInt32) (window : Bytes) (targetPath : Option String)
    (prev : Option (UInt32 × Nat)) : Option (Option SignatureBlockHash) :=
  match index.candidates weak with
  | [] => some none
  | cands => do
      let blocks ← cands.mapM index.block
      return maxByKey (index.score targetPath prev) (blocks.filter fun b => b.strongBlake3 = hashChunk window)

/-- What was found so far; bytes from `owedStart` on are owed. -/
structure DiffState where
  rawOps : List DiffOp
  reusedBytes : Nat
  inlineBytes : Nat
  opsBeforeCoalescing : Nat
  owedStart : Nat
  prevCopy : Option (UInt32 × Nat)

/-- Every turn takes a byte at least. -/
def emitInline : (fuel : Nat) → DiffState → (at_ stop : Nat) → DiffState
  | 0, s, _, _ => s
  | fuel + 1, s, at_, stop =>
      if at_ < stop then
        let len := min (stop - at_) maxInlineData
        emitInline fuel { s with
          rawOps := s.rawOps ++ [.inlineData at_ len]
          inlineBytes := s.inlineBytes + len
          opsBeforeCoalescing := s.opsBeforeCoalescing + 1 } (at_ + len) stop
      else s

def DiffState.owe (s : DiffState) (stop : Nat) : DiffState := emitInline (stop - s.owedStart) s s.owedStart stop

/-- The window at `pos` is taken from a block. -/
def DiffState.copy (s : DiffState) (blockSize pos : Nat) (b : SignatureBlockHash) : DiffState :=
  let s := s.owe pos
  { s with
    rawOps := s.rawOps ++ [.copyOldRange b.entryId b.offset.toNat pos blockSize]
    reusedBytes := s.reusedBytes + blockSize
    opsBeforeCoalescing := s.opsBeforeCoalescing + 1
    prevCopy := some (b.entryId, b.offset.toNat + blockSize)
    owedStart := pos + blockSize }

/-- Slide the window from `pos` on; every turn moves it. -/
def slide (index : WeakHashIndex) (new : Bytes) (targetPath : Option String) :
    (fuel : Nat) → (pos : Nat) → RollingWeak → DiffState → Option DiffState
  | 0, _, _, _ => none
  | fuel + 1, pos, rw_, s => do
      let bs := index.sig.blockSize.toNat
      match ← index.find hashChunk rw_.digest ((new.drop pos).take bs) targetPath s.prevCopy with
      | some b =>
          let s := s.copy bs pos b
          if pos + bs + bs > new.length then return s
          else slide index new targetPath fuel (pos + bs) (.new ((new.drop (pos + bs)).take bs)) s
      | none =>
          if pos + bs ≥ new.length then return s
          else do
            let out ← new[pos]?
            let inp ← new[pos + bs]?
            slide index new targetPath fuel (pos + 1) (rw_.roll out inp) s

end Scan

section Coalesce

/-- A copy that goes on where the last one stops makes it longer. -/
def coalesceStep (out : List DiffOp) (op : DiffOp) : List DiffOp :=
  match out.getLast?, op with
  | some (.copyOldRange pe po pn pl), .copyOldRange entryId oldOffset newOffset len =>
      if pe = entryId ∧ po + pl = oldOffset ∧ pn + pl = newOffset then out.dropLast ++ [.copyOldRange pe po pn (pl + len)]
      else out ++ [op]
  | _, _ => out ++ [op]

def coalesce (ops : List DiffOp) : List DiffOp := ops.foldl coalesceStep []

end Coalesce

def diffBytes (hashChunk : Bytes → ChunkHash) (index : WeakHashIndex) (new : Bytes) (targetPath : Option String) :
    Option DiffPlan := do
  let bs := index.sig.blockSize.toNat
  let start : DiffState := ⟨[], 0, 0, 0, 0, none⟩
  let s ← if bs ≤ new.length ∧ index.byWeak ≠ [] then
      slide hashChunk index new targetPath (new.length + 1) 0 (.new (new.take bs)) start
    else pure start
  let s := s.owe new.length
  return ⟨coalesce s.rawOps, s.reusedBytes, s.inlineBytes, s.opsBeforeCoalescing⟩

/-- The operations go on where the last one stopped, up to the end. -/
def coversFrom (newLen : Nat) : (at_ : Nat) → List DiffOp → Bool
  | at_, [] => at_ = newLen
  | at_, .copyOldRange _ _ newOffset len :: rest => newOffset = at_ && coversFrom newLen (at_ + len) rest
  | at_, .inlineData newOffset len :: rest => newOffset = at_ && coversFrom newLen (at_ + len) rest

def validateCoverage (plan : DiffPlan) (newLen : Nat) : Bool := coversFrom newLen 0 plan.ops

end Cavs.Signature
