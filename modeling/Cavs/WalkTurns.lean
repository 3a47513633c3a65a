import Cavs.GraphWalk

/-!
# Walks that are stopped and taken up again

`next_visit` with the state it leaves also where it gives an error, and walks in several
sittings: each continues the state of the one before with options of its own, and ends after
some visits, or when it is cancelled or runs past its deadline.
-/
namespace Cavs

section Next
variable (source : GraphSource) (o : WalkOptions)

/-- The dependencies of a visited object onto the stack, the last first, up to one on the path. -/
def pushDependencies (depth : Nat) : (deps : List ObjectId) → WalkState → Option ObjectError × WalkState
  | [], st => (none, st)
  | dep :: deps, st =>
      if dep ∈ st.path then (some (.cycleDetected (toHex dep.digest)), st)
      else if dep ∈ st.visited then pushDependencies depth deps st
      else pushDependencies depth deps { st with
        pending := (dep, depth + 1) :: st.pending, pushedLast := st.pushedLast + 1 }

/-- What the loop does with an object that was not visited before; without an item, it goes on. -/
def enter (st : WalkState) (id : ObjectId) (depth : Nat) : Option (Except ObjectError Visit) × WalkState :=
  if depth > o.maxDepth then (some (.error (.walkBudget "depth" o.maxDepth)), st)
  else match source id with
  | .error e => (some (.error e), st)
  | .ok none =>
      if o.missingIsError then (some (.error (.notFound (toHex id.digest))), st)
      else (some (.ok ⟨id, depth, none⟩), { st with objects := st.objects + 1 })
  | .ok (some node) =>
      if o.kinds.admits node.kind = false then (none, st)
      else if node.dependencies.length > o.maxDependenciesPerObject then
        (some (.error (.tooManyDependencies node.dependencies.length o.maxDependenciesPerObject)), st)
      else
        match pushDependencies depth node.dependencies.reverse { st with
          objects := st.objects + 1
          bytes := saturatingAdd st.bytes node.storedLen
          path := st.path ++ [id]
          pushedLast := 0 } with
        | (some e, st) => (some (.error e), st)
        | (none, st) => (some (.ok ⟨id, depth, some node⟩), st)

/-- The next item of a walk and the state behind it, with `pending` the stack. -/
def nextItem : (pending : List (ObjectId × Nat)) → WalkState → Option (Except ObjectError Visit) × WalkState
  | pending, st => match budgetCheck o st with
    | some e => (some (.error e), { st with pending })
    | none => match pending with
      | [] => (none, { st with pending := [] })
      | (id, depth) :: rest =>
          let st := { st with
            pending := rest, pushedLast := 0, path := st.path.take depth, checks := st.checks + 1 }
          if id ∈ st.visited then nextItem rest st
          else match enter source o { st with visited := id :: st.visited } id depth with
            | (some item, st) => (some item, st)
            | (none, st) => nextItem rest st

inductive Ending where
  | paused
  | finished
  | failed (e : ObjectError)
  deriving DecidableEq, Repr

/-- Up to `n` items of a walk: the visits, how it ended, and the state that is left. -/
def sitting : (n : Nat) → WalkState → List Visit × Ending × WalkState
  | 0, st => ([], .paused, st)
  | n + 1, st => match nextItem source o st.pending st with
    | (none, st) => ([], .finished, st)
    | (some (.error e), st) => ([], .failed e, st)
    | (some (.ok v), st) => (v :: (sitting n st).1, (sitting n st).2)

end Next

def ObjectError.isInterrupt : ObjectError → Bool
  | .walkCancelled => true
  | .walkDeadlineExceeded => true
  | _ => false

/-- The state of a paused walk for another; the checks of its own options are counted anew. -/
def WalkState.resume (st : WalkState) : WalkState := { st with pushedLast := 0, checks := 0 }

/-- The visits of a walk in sittings, each with its options and the most items it takes. What
ends a sitting without ending the walk is a pause, a cancellation or a deadline. -/
def sittings (source : GraphSource) : List (WalkOptions × Nat) → WalkState → List Visit × Ending
  | [], _ => ([], .paused)
  | (o, n) :: more, st => match sitting source o n st.resume with
    | (visits, .paused, st) => (visits ++ (sittings source more st).1, (sittings source more st).2)
    | (visits, .finished, _) => (visits, .finished)
    | (visits, .failed e, st) =>
        if e.isInterrupt then (visits ++ (sittings source more st).1, (sittings source more st).2)
        else (visits, .failed e)

section Keeps
variable {source : GraphSource} {o : WalkOptions} {st st' : WalkState} {id : ObjectId} {depth : Nat}

theorem pushDependencies_none (st : WalkState) {deps : List ObjectId} (h : deps.find? (· ∈ st.path) = none) :
    pushDependencies depth deps st = (none, { st with
      pending := (deps.filter (· ∉ st.visited)).reverse.map (fun dep => (dep, depth + 1)) ++ st.pending
      pushedLast := st.pushedLast + (deps.filter (· ∉ st.visited)).length }) := by
  induction deps generalizing st with
  | nil => rfl
  | cons dep deps ih =>
      obtain ⟨off, clear⟩ : dep ∉ st.path ∧ deps.find? (· ∈ st.path) = none := by
        by_cases on : dep ∈ st.path
        · simp [on] at h
        · exact ⟨on, by simpa [on] using h⟩
      by_cases old : dep ∈ st.visited
      · simp only [pushDependencies, if_neg off, if_pos old, ih st clear]
        simp [old]
      · simp only [pushDependencies, if_neg off, if_neg old, ih { st with
          pending := (dep, depth + 1) :: st.pending, pushedLast := st.pushedLast + 1 } clear]
        simp [old, Nat.add_assoc, Nat.add_comm 1]

theorem pushDependencies_some (depth : Nat) (st : WalkState) {deps : List ObjectId} {dep : ObjectId} (h : deps.find? (· ∈ st.path) = some dep) :
    ∃ st', pushDependencies depth deps st = (some (.cycleDetected (toHex dep.digest)), st') := by
  induction deps generalizing st with
  | nil => cases h
  | cons first deps ih =>
      by_cases on : first ∈ st.path
      · have this : first = dep := by simpa [on] using h
        subst this
        exact ⟨st, by simp only [pushDependencies, if_pos on]⟩
      · have later : deps.find? (· ∈ st.path) = some dep := by simpa [on] using h
        by_cases old : first ∈ st.visited
        · simp only [pushDependencies, if_neg on, if_pos old]
          exact ih _ later
        · simp only [pushDependencies, if_neg on, if_neg old]
          exact ih _ later

/-- What `visit` gives is what `enter` gives, without the state behind an error. -/
theorem visit_enter :
    visit source o st id depth = match enter source o st id depth with
      | (some (.error e), _) => .error e
      | (some (.ok v), st) => .ok (some v, st)
      | (none, st) => .ok (none, st) := by
  unfold visit enter
  by_cases deep : depth > o.maxDepth
  · rw [if_pos deep, if_pos deep]
  rw [if_neg deep, if_neg deep]
  cases source id with
  | error e => rfl
  | ok item => cases item with
    | none => cases o.missingIsError with
      | true => rfl
      | false => rfl
    | some node =>
        dsimp only
        by_cases out : o.kinds.admits node.kind = false
        · rw [if_pos out, if_pos out]
        rw [if_neg out, if_neg out]
        by_cases many : node.dependencies.length > o.maxDependenciesPerObject
        · rw [if_pos many, if_pos many]
        rw [if_neg many, if_neg many]
        cases found : node.dependencies.reverse.find? (· ∈ st.path ++ [id]) with
        | some dep =>
            obtain ⟨left, pushed⟩ := pushDependencies_some depth { st with
              objects := st.objects + 1, bytes := saturatingAdd st.bytes node.storedLen
              path := st.path ++ [id], pushedLast := 0 } found
            rw [pushed]
        | none =>
            rw [pushDependencies_none { st with
              objects := st.objects + 1, bytes := saturatingAdd st.bytes node.storedLen
              path := st.path ++ [id], pushedLast := 0 } found]
            simp [List.filter_reverse]

/-- `next_visit` without the state behind an error is `nextVisit`. -/
theorem nextVisit_nextItem (pending : List (ObjectId × Nat)) (st : WalkState) :
    nextVisit source o pending st = match nextItem source o pending st with
      | (some (.error e), _) => .error e
      | (some (.ok v), st) => .ok (some v, st)
      | (none, st) => .ok (none, st) := by
  induction pending generalizing st with
  | nil =>
      rw [nextVisit, nextItem]
      cases budgetCheck o st with
      | some e => rfl
      | none => rfl
  | cons entry rest ih =>
      obtain ⟨id, depth⟩ := entry
      rw [nextVisit, nextItem]
      cases budgetCheck o st with
      | some e => rfl
      | none =>
          dsimp only
          split
          · exact ih _
          · rw [visit_enter]
            generalize enter source o _ id depth = result
            obtain ⟨item, left⟩ := result
            cases item with
            | none => exact ih left
            | some r => cases r with
              | error e => rfl
              | ok v => rfl

/-- A walk that is collected is one sitting that was not paused. -/
theorem walkFrom_sitting (fuel : Nat) (st : WalkState) :
    walkFrom source o fuel st = match sitting source o fuel st with
      | (_, .paused, _) => none
      | (visits, .finished, _) => some (.ok visits)
      | (_, .failed e, _) => some (.error e) := by
  induction fuel generalizing st with
  | zero => rfl
  | succ fuel ih =>
      rw [walkFrom, WalkState.next, nextVisit_nextItem, sitting]
      generalize nextItem source o st.pending st = result
      obtain ⟨item, left⟩ := result
      cases item with
      | none => rfl
      | some r => cases r with
        | error e => rfl
        | ok v =>
            dsimp only
            rw [ih left]
            generalize sitting source o fuel left = rest
            obtain ⟨visits, ending, last⟩ := rest
            cases ending with
            | paused => rfl
            | finished => rfl
            | failed e => rfl

end Keeps
end Cavs
