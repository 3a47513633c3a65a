import Cavs.ObjectId
import Mathlib.Data.UInt
import Mathlib.Logic.Relation

/-!
# Walking the object graph

Which objects can be reached from some roots: a depth-first walk over an explicit
stack, with ceilings, that never looks inside a body. What a receiver is missing is
the same walk, cut below what it holds.
-/
namespace Cavs

/-- One object as the graph sees it. -/
structure ObjectNode where
  id : ObjectId
  kind : ObjectKind
  storedLen : UInt64
  dependencies : List ObjectId
  deriving DecidableEq, Repr

/-- Where object metadata can be looked up; `none` when the object is not there. -/
abbrev GraphSource := ObjectId → Except ObjectError (Option ObjectNode)

/-- The classes a walk cares about; an empty `include` admits every class. -/
structure KindFilter where
  included : List ObjectKind
  excluded : List ObjectKind

namespace KindFilter

def all : KindFilter := ⟨[], []⟩

def admits (f : KindFilter) (kind : ObjectKind) : Bool :=
  if kind ∈ f.excluded then false else f.included.isEmpty || kind ∈ f.included

def isUnrestricted (f : KindFilter) : Bool := f.included.isEmpty && f.excluded.isEmpty

theorem admits_of_unrestricted {f : KindFilter} (h : f.isUnrestricted = true) (kind : ObjectKind) :
    f.admits kind = true := by
  rw [isUnrestricted, Bool.and_eq_true, List.isEmpty_iff, List.isEmpty_iff] at h
  simp [admits, h.1, h.2]

end KindFilter

/-- Ceilings and stop conditions. `interrupt n` is what the cancel flag or the deadline
says at the `n`-th check of the budget. -/
structure WalkOptions where
  maxDepth : Nat
  maxDependenciesPerObject : Nat
  maxObjects : Nat
  maxBytes : UInt64
  kinds : KindFilter
  missingIsError : Bool
  interrupt : Nat → Option ObjectError

def WalkOptions.default : WalkOptions where
  maxDepth := 4096
  maxDependenciesPerObject := 2 ^ 20
  maxObjects := 100000000
  maxBytes := 2 ^ 44
  kinds := .all
  missingIsError := false
  interrupt := fun _ => none

structure Visit where
  id : ObjectId
  depth : Nat
  node : Option ObjectNode
  deriving DecidableEq, Repr

def Visit.storedLen (v : Visit) : UInt64 := (v.node.map ObjectNode.storedLen).getD 0

def saturatingAdd (a b : UInt64) : UInt64 := UInt64.ofNat (min (a.toNat + b.toNat) (2 ^ 64 - 1))

/-- A walk between two objects. The top of the stack is the head of `pending`; the path
starts at its root. -/
structure WalkState where
  pending : List (ObjectId × Nat)
  visited : List ObjectId
  path : List ObjectId
  objects : Nat
  bytes : UInt64
  pushedLast : Nat
  checks : Nat

section Walk
variable (source : GraphSource) (o : WalkOptions)

/-- The roots without repetition, the first on top. -/
def WalkState.start (roots : List ObjectId) : WalkState :=
  ⟨roots.dedup.map fun id => (id, 0), [], [], 0, 0, 0, 0⟩

def WalkState.pruneLast (st : WalkState) : WalkState :=
  { st with pending := st.pending.drop st.pushedLast, pushedLast := 0 }

def budgetCheck (st : WalkState) : Option ObjectError :=
  match o.interrupt st.checks with
  | some e => some e
  | none =>
      if st.objects > o.maxObjects then some (.walkBudget "objects" o.maxObjects)
      else if st.bytes > o.maxBytes then some (.walkBudget "bytes" o.maxBytes.toNat)
      else none

/-- The visit of an object that was not visited before, when there is one to yield. -/
def visit (st : WalkState) (id : ObjectId) (depth : Nat) :
    Except ObjectError (Option Visit × WalkState) :=
  if depth > o.maxDepth then .error (.walkBudget "depth" o.maxDepth)
  else match source id with
  | .error e => .error e
  | .ok none =>
      if o.missingIsError then .error (.notFound (toHex id.digest))
      else .ok (some ⟨id, depth, none⟩, { st with objects := st.objects + 1 })
  | .ok (some node) =>
      if o.kinds.admits node.kind = false then .ok (none, st)
      else if node.dependencies.length > o.maxDependenciesPerObject then
        .error (.tooManyDependencies node.dependencies.length o.maxDependenciesPerObject)
      else
        let path := st.path ++ [id]
        match node.dependencies.reverse.find? (· ∈ path) with
        | some dep => .error (.cycleDetected (toHex dep.digest))
        | none =>
            let fresh := node.dependencies.filter (· ∉ st.visited)
            .ok (some ⟨id, depth, some node⟩, { st with
              pending := fresh.map (fun dep => (dep, depth + 1)) ++ st.pending
              path
              objects := st.objects + 1
              bytes := saturatingAdd st.bytes node.storedLen
              pushedLast := fresh.length })

/-- The next object, with `pending` the stack; `none` when the stack is empty. Entries
for objects visited already, or of classes left out, are passed over. -/
def nextVisit : List (ObjectId × Nat) → WalkState → Except ObjectError (Option Visit × WalkState)
  | pending, st => match budgetCheck o st with
    | some e => .error e
    | none => match pending with
      | [] => .ok (none, { st with pending := [] })
      | (id, depth) :: rest =>
          let st := { st with
            pending := rest, pushedLast := 0, path := st.path.take depth, checks := st.checks + 1 }
          if id ∈ st.visited then nextVisit rest st
          else match visit source o { st with visited := id :: st.visited } id depth with
            | .error e => .error e
            | .ok (some v, st) => .ok (some v, st)
            | .ok (none, st) => nextVisit rest st

def WalkState.next (st : WalkState) : Except ObjectError (Option Visit × WalkState) :=
  nextVisit source o st.pending st

/-- The visits of a walk; `fuel` bounds their number. -/
def walkFrom : (fuel : Nat) → WalkState → Option (Except ObjectError (List Visit))
  | 0, _ => none
  | fuel + 1, st => match st.next source o with
    | .error e => some (.error e)
    | .ok (none, _) => some (.ok [])
    | .ok (some v, st) => (walkFrom fuel st).map fun r => r.map fun vs => v :: vs

def walkReachable (fuel : Nat) (roots : List ObjectId) : Option (Except ObjectError (List Visit)) :=
  walkFrom source o fuel (.start roots)

end Walk

/-- What a receiver holds; when definite, a hit is certain and claims the closure. -/
structure HaveSet where
  mayHave : ObjectId → Bool
  isDefinite : Bool

/-- What has to be sent for a receiver to reach the roots. -/
structure MissingPlan where
  missing : List ObjectId
  bytes : UInt64
  uncertain : List ObjectId
  unavailable : List ObjectId
  alreadyPresent : Nat
  deriving DecidableEq, Repr

def MissingPlan.empty : MissingPlan := ⟨[], 0, [], [], 0⟩

/-- What one visit adds to a plan, when it is not pruned. -/
def MissingPlan.add (plan : MissingPlan) (held : Bool) (v : Visit) : MissingPlan :=
  match v.node with
  | none => { plan with unavailable := plan.unavailable ++ [v.id] }
  | some node =>
      if held then { plan with uncertain := plan.uncertain ++ [v.id] }
      else { plan with
        missing := plan.missing ++ [v.id], bytes := saturatingAdd plan.bytes node.storedLen }

section Missing
variable (source : GraphSource) (o : WalkOptions) (have_ : HaveSet)

def missingFrom : (fuel : Nat) → WalkState → MissingPlan → Option (Except ObjectError MissingPlan)
  | 0, _, _ => none
  | fuel + 1, st, plan => match st.next source o with
    | .error e => some (.error e)
    | .ok (none, _) => some (.ok plan)
    | .ok (some v, st) =>
        if have_.mayHave v.id && have_.isDefinite then
          -- Claiming an object claims its closure.
          missingFrom fuel st.pruneLast { plan with alreadyPresent := plan.alreadyPresent + 1 }
        else missingFrom fuel st (plan.add (have_.mayHave v.id) v)

def computeMissing (fuel : Nat) (roots : List ObjectId) : Option (Except ObjectError MissingPlan) :=
  missingFrom source o have_ fuel (.start roots) .empty

end Missing
end Cavs
