import Cavs.GraphReach
import Cavs.WalkTurns
import Cavs.DepthFirst
import Mathlib.Algebra.Order.BigOperators.Group.List
import Mathlib.Data.Finset.Union
import Mathlib.Data.Set.Finite.Basic

/-!
# A walk is a depth-first search

What a walk yields, item by item, is what the recursive search finds, up to the first object
that depends on one of its own ancestors; and it is the same in any number of sittings.
-/
namespace Cavs
open DepthFirst

section Told
variable (g : ObjectId → Option ObjectNode) (kinds : KindFilter)

/-- The graph a walk goes through: the dependencies of what is there and admitted. -/
def admittedDependencies (x : ObjectId) : List ObjectId := match g x with
  | some node => if kinds.admits node.kind then node.dependencies else []
  | none => []

/-- What a walk yields for an object it finds: nothing for a class left out. -/
def visitOf (f : Found ObjectId) : Option Visit := match g f.item with
  | some node => if kinds.admits node.kind then some ⟨f.item, f.path.length, some node⟩ else none
  | none => some ⟨f.item, f.path.length, none⟩

/-- The dependency for which a walk says that there is a cycle. -/
def cycleAt (f : Found ObjectId) : Option ObjectId :=
  (admittedDependencies g kinds f.item).reverse.find? (· ∈ f.path ++ [f.item])

/-- What a walk yields for what is found, and the dependency it ends with, if any. -/
def told : List (Found ObjectId) → List Visit × Option ObjectId
  | [] => ([], none)
  | f :: found => match cycleAt g kinds f with
    | some dep => ([], some dep)
    | none => match visitOf g kinds f with
      | some v => (v :: (told found).1, (told found).2)
      | none => told found

/-- How a walk ends, by the dependency it ends with. -/
def endingOf : Option ObjectId → Ending
  | none => .finished
  | some dep => .failed (.cycleDetected (toHex dep.digest))

/-- The state of a walk between two objects, and the search it stands for. -/
structure Stands (st : WalkState) (agenda seen : List (Found ObjectId)) : Prop where
  stack : st.pending = agenda.map fun f => (f.item, f.path.length)
  visited : ∀ x, x ∈ st.visited ↔ x ∈ items seen
  nested : agenda.Pairwise fun f below => below.path <+: f.path
  above : ∀ f ∈ agenda, f.path <+: st.path

/-- What a walk has still to find. -/
def Comes (st : WalkState) (found : List (Found ObjectId)) : Prop :=
  ∃ agenda seen, Stands st agenda seen ∧ Runs (admittedDependencies g kinds) agenda seen (seen ++ found)

end Told

section Enter
variable {g : ObjectId → Option ObjectNode} {o : WalkOptions} {st st' : WalkState} {f : Found ObjectId}

/-- Why a walk fails at an object it finds, cycles apart. -/
inductive Refuses (g : ObjectId → Option ObjectNode) (o : WalkOptions) (f : Found ObjectId) : ObjectError → Prop
  | deep (far : o.maxDepth < f.path.length) : Refuses g o f (.walkBudget "depth" o.maxDepth)
  | missing (strict : o.missingIsError = true) : Refuses g o f (.notFound (toHex f.item.digest))
  | many {node : ObjectNode} (here : g f.item = some node)
      (much : node.dependencies.length > o.maxDependenciesPerObject) :
      Refuses g o f (.tooManyDependencies node.dependencies.length o.maxDependenciesPerObject)

/-- What is left of a walk at an object whose ancestors are its path, when it goes on. -/
structure Enters (g : ObjectId → Option ObjectNode) (kinds : KindFilter) (st : WalkState) (f : Found ObjectId)
    (st' : WalkState) : Prop where
  pending : st'.pending = ((admittedDependencies g kinds f.item).filter (· ∉ st.visited)).map
    (fun dep => (dep, f.path.length + 1)) ++ st.pending
  visited : st'.visited = st.visited
  path : f.path <+: st'.path
  deeper : admittedDependencies g kinds f.item ≠ [] → st'.path = f.path ++ [f.item]
  objects : st'.objects = st.objects + (visitOf g kinds f).toList.length
  bytes : st'.bytes.toNat ≤ st.bytes.toNat + ((visitOf g kinds f).toList.map fun v => v.storedLen.toNat).sum

theorem saturatingAdd_le (a b : UInt64) : (saturatingAdd a b).toNat ≤ a.toNat + b.toNat := by
  rw [saturatingAdd, UInt64.toNat_ofNat_of_lt' (by rw [UInt64.size]; omega)]
  exact Nat.min_le_left _ _

theorem enter_cases (at_ : st.path = f.path) :
    (∃ e, Refuses g o f e ∧ enter (fun id => .ok (g id)) o st f.item f.path.length = (some (.error e), st)) ∨
    f.path.length ≤ o.maxDepth ∧
      ((∃ dep st', cycleAt g o.kinds f = some dep ∧ enter (fun id => .ok (g id)) o st f.item f.path.length =
          (some (.error (.cycleDetected (toHex dep.digest))), st')) ∨
        cycleAt g o.kinds f = none ∧ ∃ st', enter (fun id => .ok (g id)) o st f.item f.path.length =
          ((visitOf g o.kinds f).map .ok, st') ∧ Enters g o.kinds st f st') := by
  unfold enter
  by_cases deep : f.path.length > o.maxDepth
  · exact .inl ⟨_, .deep deep, by rw [if_pos deep]⟩
  rw [if_neg deep]
  cases here : g f.item with
  | none =>
      simp only [here]
      cases strict : o.missingIsError with
      | true => exact .inl ⟨_, .missing strict, rfl⟩
      | false =>
          refine .inr ⟨by omega, .inr ⟨by simp [cycleAt, admittedDependencies, here],
            { st with objects := st.objects + 1 }, by simp [visitOf, here], ?_⟩⟩
          · constructor
            all_goals simp [admittedDependencies, visitOf, here, at_]
  | some node =>
      simp only [here]
      by_cases left : o.kinds.admits node.kind = false
      · refine .inr ⟨by omega, .inr ⟨by simp [cycleAt, admittedDependencies, here, left], st, ?_, ?_⟩⟩
        · simp [left, visitOf, here]
        · constructor
          all_goals simp [admittedDependencies, visitOf, here, left, at_]
      rw [if_neg left]
      have admitted : o.kinds.admits node.kind = true := by simpa using left
      by_cases many : node.dependencies.length > o.maxDependenciesPerObject
      · exact .inl ⟨_, .many here many, by rw [if_pos many]⟩
      rw [if_neg many]
      have deps : admittedDependencies g o.kinds f.item = node.dependencies := by
        simp [admittedDependencies, here, admitted]
      cases cyc : cycleAt g o.kinds f with
      | some dep =>
          rw [cycleAt, deps, ← at_] at cyc
          obtain ⟨left, pushed⟩ := pushDependencies_some f.path.length { st with
            objects := st.objects + 1, bytes := saturatingAdd st.bytes node.storedLen
            path := st.path ++ [f.item], pushedLast := 0 } cyc
          exact .inr ⟨by omega, .inl ⟨dep, left, rfl, by rw [pushed]⟩⟩
      | none =>
          rw [cycleAt, deps, ← at_] at cyc
          refine .inr ⟨by omega, .inr ⟨rfl, _, by
            rw [pushDependencies_none { st with
              objects := st.objects + 1, bytes := saturatingAdd st.bytes node.storedLen
              path := st.path ++ [f.item], pushedLast := 0 } cyc]
            simp only [visitOf, here, admitted]
            rfl, ?_⟩⟩
          constructor
          · simp [deps, List.filter_reverse]
          · rfl
          · simp [at_]
          · simp [at_]
          · simp [visitOf, here, admitted]
          · simpa [visitOf, here, admitted, Visit.storedLen] using saturatingAdd_le st.bytes node.storedLen

end Enter

section Next
variable {g : ObjectId → Option ObjectNode} {kinds : KindFilter} {o : WalkOptions} {st st' st'' : WalkState}
  {agenda seen found later later' : List (Found ObjectId)} {f : Found ObjectId} {n : Nat}

/-- Popping an entry leaves the path at the ancestors of its object. -/
theorem Stands.pop (h : Stands st (f :: agenda) seen) (checks : Nat) :
    st.path.take f.path.length = f.path ∧
      Stands { st with pending := agenda.map (fun f => (f.item, f.path.length)), pushedLast := 0
                       path := f.path, checks } agenda seen := by
  refine ⟨(List.prefix_iff_eq_take.mp (h.above f (.head _))).symm, rfl, h.visited, (List.pairwise_cons.mp h.nested).2, ?_⟩
  exact fun below mem => (List.pairwise_cons.mp h.nested).1 below mem

/-- Going below an object puts its dependencies on the stack, with the object on their path. -/
theorem Stands.enter {visited : List ObjectId} (h : Stands st (f :: agenda) seen) (old : ∀ x, x ∈ visited ↔ x ∈ items (seen ++ [f]))
    (pending : st'.pending = agenda.map fun f => (f.item, f.path.length)) (marks : st'.visited = visited)
    (e : Enters g kinds st' f st'') :
    Stands st'' (((admittedDependencies g kinds f.item).filter (· ∉ items (seen ++ [f]))).map
      (fun dep => ⟨dep, f.path ++ [f.item]⟩) ++ agenda) (seen ++ [f]) := by
  have below : ∀ below ∈ agenda, below.path <+: f.path := (List.pairwise_cons.mp h.nested).1
  constructor
  · rw [e.pending, pending, List.map_append, List.map_map, marks]
    congr 1
    have same : (admittedDependencies g kinds f.item).filter (· ∉ visited) =
        (admittedDependencies g kinds f.item).filter (· ∉ items (seen ++ [f])) :=
      List.filter_congr fun x _ => by simp only [old x]
    rw [same]
    exact List.map_congr_left fun x _ => by simp
  · rw [e.visited, marks]
    exact old
  · refine List.pairwise_append.mpr ⟨?_, (List.pairwise_cons.mp h.nested).2, ?_⟩
    · exact List.pairwise_map.mpr (List.pairwise_of_forall fun _ _ => List.prefix_refl _)
    · intro up mem down under
      obtain ⟨dep, -, rfl⟩ := List.mem_map.mp mem
      exact (below down under).trans (List.prefix_append _ _)
  · intro up mem
    rcases List.mem_append.mp mem with pushed | under
    · obtain ⟨dep, some_, rfl⟩ := List.mem_map.mp pushed
      have any : admittedDependencies g kinds f.item ≠ [] := List.ne_nil_of_mem (List.mem_of_mem_filter some_)
      rw [e.deeper any]
    · exact (below up under).trans e.path

theorem mem_visited (h : ∀ x, x ∈ st.visited ↔ x ∈ items seen) (x : ObjectId) :
    x ∈ f.item :: st.visited ↔ x ∈ items (seen ++ [f]) := by
  rw [items_append, items_singleton, List.mem_append, List.mem_singleton, List.mem_cons, h x, or_comm]

theorem told_cons (clear : cycleAt g kinds f = none) :
    told g kinds (f :: later) = ((visitOf g kinds f).toList ++ (told g kinds later).1, (told g kinds later).2) := by
  rw [told, clear]
  cases visitOf g kinds f with
  | none => rfl
  | some v => rfl

/-- A number that the objects and the bytes of a walk stay within. -/
structure Bounds (g : ObjectId → Option ObjectNode) (kinds : KindFilter) (st : WalkState) (found : List (Found ObjectId))
    (n : Nat) : Prop where
  objects : st.objects + (told g kinds found).1.length ≤ n
  bytes : st.bytes.toNat + ((told g kinds found).1.map fun v => v.storedLen.toNat).sum ≤ n

/-- What a walk has still to find when it found some of it. -/
structure Left (g : ObjectId → Option ObjectNode) (o : WalkOptions) (st : WalkState) (found : List (Found ObjectId))
    (st' : WalkState) (later : List (Found ObjectId)) : Prop where
  comes : Comes g o.kinds st' later
  passed : ∃ passed, found = passed ++ later ∧ ∀ f ∈ passed, f.path.length ≤ o.maxDepth
  within : ∀ n, Bounds g o.kinds st found n → Bounds g o.kinds st' later n

theorem Left.trans (h : Left g o st found st' later) (h' : Left g o st' later st'' later') :
    Left g o st found st'' later' := by
  obtain ⟨passed, rfl, near⟩ := h.passed
  obtain ⟨passed', rfl, near'⟩ := h'.passed
  refine ⟨h'.comes, ⟨passed ++ passed', (List.append_assoc ..).symm, fun f mem => ?_⟩, fun n fits => h'.within n (h.within n fits)⟩
  rcases List.mem_append.mp mem with mem | mem
  · exact near f mem
  · exact near' f mem

/-- What an item of a walk is, by what the walk has still to find. -/
inductive Gives (g : ObjectId → Option ObjectNode) (o : WalkOptions) (st : WalkState) (found : List (Found ObjectId)) :
    Option (Except ObjectError Visit) × WalkState → Prop
  | spent {st' : WalkState} (said : told g o.kinds found = ([], none)) (left : Left g o st found st' []) :
      Gives g o st found (none, st')
  | yielded {st' : WalkState} {v : Visit} {later : List (Found ObjectId)}
      (said : told g o.kinds found = (v :: (told g o.kinds later).1, (told g o.kinds later).2))
      (left : Left g o st found st' later) : Gives g o st found (some (.ok v), st')
  | stopped {st' : WalkState} {e : ObjectError} {later : List (Found ObjectId)} (stop : budgetCheck o st' = some e)
      (said : told g o.kinds found = told g o.kinds later) (left : Left g o st found st' later) :
      Gives g o st found (some (.error e), st')
  | cycle {st' : WalkState} {dep : ObjectId} (said : told g o.kinds found = ([], some dep)) :
      Gives g o st found (some (.error (.cycleDetected (toHex dep.digest))), st')
  | refused {st' : WalkState} {e : ObjectError} {f : Found ObjectId} (mem : f ∈ found) (why : Refuses g o f e) :
      Gives g o st found (some (.error e), st')

/-- What is passed over first changes nothing of what an item says. -/
theorem Gives.after {item : Option (Except ObjectError Visit) × WalkState} (said : told g o.kinds found = told g o.kinds later)
    (left : Left g o st found st' later) (h : Gives g o st' later item) : Gives g o st found item := by
  cases h with
  | spent told_ more => exact .spent (said.trans told_) (left.trans more)
  | yielded told_ more => exact .yielded (said.trans told_) (left.trans more)
  | stopped stop told_ more => exact .stopped stop (said.trans told_) (left.trans more)
  | cycle told_ => exact .cycle (said.trans told_)
  | refused mem why =>
      obtain ⟨passed, rfl, -⟩ := left.passed
      exact .refused (List.mem_append_right _ mem) why

theorem Comes.left (h : Comes g o.kinds st found) : Left g o st found st found :=
  ⟨h, ⟨[], rfl, fun _ mem => nomatch mem⟩, fun _ fits => fits⟩

/-- A class that is left out has nothing below it. -/
theorem admittedDependencies_nil (h : visitOf g kinds f = none) : admittedDependencies g kinds f.item = [] := by
  unfold visitOf at h
  unfold admittedDependencies
  cases here : g f.item with
  | none => rfl
  | some node =>
      simp only [here] at h ⊢
      by_cases admitted : kinds.admits node.kind = true
      · simp [admitted] at h
      · exact if_neg admitted

theorem Left.enter (comes : Comes g o.kinds st' later) (clear : cycleAt g o.kinds f = none) (near : f.path.length ≤ o.maxDepth)
    (e : Enters g o.kinds st'' f st') (objects : st''.objects = st.objects) (bytes : st''.bytes = st.bytes) :
    Left g o st (f :: later) st' later := by
  refine ⟨comes, ⟨[f], rfl, fun x mem => ?_⟩, fun n fits => ?_⟩
  · rw [List.mem_singleton.mp mem]
    exact near
  · have first := fits.objects
    have second := fits.bytes
    rw [told_cons clear, List.length_append, ← objects] at first
    rw [told_cons clear, List.map_append, List.sum_append, ← bytes] at second
    have more := e.bytes
    exact ⟨by rw [e.objects]; omega, by omega⟩

theorem nextItem_gives (pending : List (ObjectId × Nat)) (top : st.pending = pending) (h : Comes g o.kinds st found) :
    Gives g o st found (nextItem (fun id => .ok (g id)) o pending st) := by
  induction pending generalizing st found with
  | nil =>
      have same : { st with pending := [] } = st := by rw [← top]
      rw [nextItem, same]
      cases stop : budgetCheck o st with
      | some e => exact .stopped stop rfl h.left
      | none =>
          obtain ⟨agenda, seen, stands, runs⟩ := h
          have empty : agenda = [] := List.map_eq_nil_iff.mp (stands.stack.symm.trans top)
          subst empty
          generalize whole : seen ++ found = out at runs
          cases runs
          have spent : found = [] := List.append_right_eq_self.mp whole
          subst spent
          exact .spent rfl (Comes.left ⟨[], seen, stands, by rw [List.append_nil]; exact .nil seen⟩)
  | cons entry rest ih =>
      rw [nextItem]
      cases stop : budgetCheck o st with
      | some e =>
          have same : { st with pending := entry :: rest } = st := by rw [← top]
          dsimp only
          rw [same]
          exact .stopped stop rfl h.left
      | none =>
          obtain ⟨agenda, seen, stands, runs⟩ := h
          obtain ⟨f, agenda, rfl, rfl, rfl⟩ := List.map_eq_cons_iff.mp (stands.stack.symm.trans top)
          obtain ⟨cut, popped⟩ := stands.pop (st.checks + 1)
          dsimp only
          rw [cut]
          generalize whole : seen ++ found = out at runs
          cases runs with
          | skip old runs =>
              subst whole
              rw [if_pos ((stands.visited f.item).mpr old)]
              have comes : Comes g o.kinds _ found := ⟨agenda, seen, popped, runs⟩
              exact (ih rfl comes).after rfl ⟨comes, comes.left.passed, fun n fits => ⟨fits.objects, fits.bytes⟩⟩
          | visit new runs =>
              rw [if_neg fun old => new ((stands.visited f.item).mp old)]
              obtain ⟨later, split⟩ := runs.extends
              have found_eq : found = f :: later := by
                rw [← split, List.append_assoc] at whole
                exact List.append_cancel_left whole
              subst found_eq
              rw [← split] at runs
              generalize at_eq : (WalkState.mk (agenda.map fun f => (f.item, f.path.length)) (f.item :: st.visited) f.path st.objects
                st.bytes 0 (st.checks + 1)) = st₁
              have at_ : st₁.path = f.path := by rw [← at_eq]
              rcases enter_cases (g := g) (o := o) at_ with ⟨e, why, run⟩ | ⟨near, ⟨dep, st', cyc, run⟩ | ⟨clear, st', run, enters⟩⟩
              · rw [run]
                exact .refused (.head _) why
              · rw [run]
                exact .cycle (by rw [told, cyc])
              · rw [run]
                have comes : Comes g o.kinds st' later := by
                  refine ⟨_, _, stands.enter (mem_visited stands.visited) ?_ ?_ enters, runs⟩
                  · rw [← at_eq]
                  · rw [← at_eq]
                have left : Left g o st (f :: later) st' later := .enter comes clear near enters (by rw [← at_eq]) (by rw [← at_eq])
                cases yield : visitOf g o.kinds f with
                | some v => exact .yielded (by rw [told_cons clear, yield]; rfl) left
                | none =>
                    refine (ih ?_ comes).after (by rw [told_cons clear, yield]; rfl) left
                    rw [enters.pending, admittedDependencies_nil yield, ← at_eq]
                    rfl

end Next

/-- What a cancel flag and a deadline can say. -/
def WalkOptions.Interrupts (o : WalkOptions) : Prop := ∀ k e, o.interrupt k = some e → e.isInterrupt = true

/-- Ceilings of at least `n`, with objects that are missing reported as visits. -/
structure WalkOptions.Ample (o : WalkOptions) (n : Nat) : Prop where
  depth : n ≤ o.maxDepth
  dependencies : n ≤ o.maxDependenciesPerObject
  objects : n ≤ o.maxObjects
  bytes : min n (2 ^ 64 - 1) ≤ o.maxBytes.toNat
  tolerant : o.missingIsError = false
  interrupts : o.Interrupts

section Sitting
variable {g : ObjectId → Option ObjectNode} {kinds : KindFilter} {o : WalkOptions} {st : WalkState}
  {found later : List (Found ObjectId)} {n : Nat} {st' : WalkState} {e : ObjectError} {k : Nat}

/-- Every found object is within a number, by its depth and by its dependencies. -/
def FitsIn (g : ObjectId → Option ObjectNode) (found : List (Found ObjectId)) (n : Nat) : Prop :=
  ∀ f ∈ found, f.path.length ≤ n ∧ ∀ node, g f.item = some node → node.dependencies.length ≤ n

theorem WalkOptions.Ample.stop (ample : o.Ample n) (within : Bounds g kinds st found n)
    (stop : budgetCheck o st = some e) : e.isInterrupt = true ∧ ∃ k, o.interrupt k = some e := by
  unfold budgetCheck at stop
  cases said : o.interrupt st.checks with
  | some e' =>
      simp only [said, Option.some.injEq] at stop
      subst stop
      exact ⟨ample.interrupts _ _ said, _, said⟩
  | none =>
      have few := within.objects
      have small := within.bytes
      have room := ample.objects
      have more := ample.bytes
      have top := st.bytes.toNat_lt
      have first : ¬st.objects > o.maxObjects := by omega
      have second : ¬st.bytes > o.maxBytes := by
        rw [gt_iff_lt, UInt64.lt_iff_toNat_lt]
        omega
      simp [said, first, second] at stop

theorem WalkOptions.Ample.refuses {f : Found ObjectId} (ample : o.Ample n) (fits : FitsIn g found n)
    (mem : f ∈ found) : ¬Refuses g o f e := by
  obtain ⟨near, few⟩ := fits f mem
  intro why
  cases why with
  | deep far =>
      have := ample.depth
      omega
  | missing strict =>
      rw [ample.tolerant] at strict
      cases strict
  | many here much =>
      have := few _ here
      have := ample.dependencies
      omega

/-- What a sitting is, by what the walk has still to find. -/
inductive Sits (g : ObjectId → Option ObjectNode) (o : WalkOptions) (st : WalkState) (found : List (Found ObjectId)) (k : Nat) :
    List Visit × Ending × WalkState → Prop
  | ends {visits : List Visit} {last : Option ObjectId} {st' : WalkState} (said : told g o.kinds found = (visits, last))
      (near : last = none → ∀ f ∈ found, f.path.length ≤ o.maxDepth) : Sits g o st found k (visits, endingOf last, st')
  | rests {visits : List Visit} {ending : Ending} {st' : WalkState} {later : List (Found ObjectId)}
      (said : told g o.kinds found = (visits ++ (told g o.kinds later).1, (told g o.kinds later).2))
      (left : Left g o st found st' later)
      (why : ending = .paused ∧ visits.length = k ∨ ∃ e, ending = .failed e ∧ budgetCheck o st' = some e) :
      Sits g o st found k (visits, ending, st')
  | refused {visits : List Visit} {e : ObjectError} {st' : WalkState} {f : Found ObjectId}
      (part : visits <+: (told g o.kinds found).1) (mem : f ∈ found) (why : Refuses g o f e) :
      Sits g o st found k (visits, .failed e, st')

theorem Sits.part {run : List Visit × Ending × WalkState} (h : Sits g o st found k run) :
    run.1 <+: (told g o.kinds found).1 := by
  cases h with
  | ends said near => rw [said]
  | rests said left why =>
      rw [said]
      exact List.prefix_append _ _
  | refused part mem why => exact part

theorem Left.fits (h : Left g o st found st' later) (fits : FitsIn g found n) : FitsIn g later n := by
  obtain ⟨passed, rfl, -⟩ := h.passed
  exact fun f mem => fits f (List.mem_append_right _ mem)

theorem Left.near (h : Left g o st found st' later) (near : ∀ f ∈ later, f.path.length ≤ o.maxDepth) :
    ∀ f ∈ found, f.path.length ≤ o.maxDepth := by
  obtain ⟨passed, rfl, first⟩ := h.passed
  intro f mem
  rcases List.mem_append.mp mem with mem | mem
  · exact first f mem
  · exact near f mem

theorem sitting_sits (h : Comes g o.kinds st found) (k : Nat) :
    Sits g o st found k (sitting (fun id => .ok (g id)) o k st) := by
  induction k generalizing st found with
  | zero => exact .rests rfl h.left (.inl ⟨rfl, rfl⟩)
  | succ k ih =>
      have gives := nextItem_gives st.pending rfl h
      rw [sitting]
      generalize nextItem (fun id => .ok (g id)) o st.pending st = item at gives
      cases gives with
      | spent said left => exact .ends said fun _ => left.near fun _ mem => (List.not_mem_nil mem).elim
      | stopped stop said left => exact .rests said left (.inr ⟨_, rfl, stop⟩)
      | cycle said => exact .ends said fun bad => by cases bad
      | refused mem why => exact .refused List.nil_prefix mem why
      | @yielded st' v later said left =>
          have sits := ih left.comes
          dsimp only
          generalize sitting (fun id => .ok (g id)) o k st' = result at sits ⊢
          cases sits with
          | ends told_ near => exact .ends (by rw [said, told_]) fun none_ => left.near (near none_)
          | rests told_ more why =>
              refine .rests (by rw [said, told_]; rfl) (left.trans more) ?_
              rcases why with ⟨paused, length⟩ | why
              · exact .inl ⟨paused, congrArg (· + 1) length⟩
              · exact .inr why
          | refused part mem why =>
              obtain ⟨passed, rfl, -⟩ := left.passed
              refine .refused ?_ (List.mem_append_right _ mem) why
              rw [said]
              exact (List.prefix_cons_inj v).mpr part

theorem Comes.resume (h : Comes g kinds st found) : Comes g kinds st.resume found := by
  obtain ⟨agenda, seen, stands, runs⟩ := h
  exact ⟨agenda, seen, ⟨stands.stack, stands.visited, stands.nested, stands.above⟩, runs⟩

theorem sittings_rests {source : GraphSource} {more : List (WalkOptions × Nat)} {visits : List Visit}
    {ending : Ending} (run : sitting source o k st.resume = (visits, ending, st'))
    (why : ending = .paused ∨ ∃ e, ending = .failed e ∧ e.isInterrupt = true) :
    sittings source ((o, k) :: more) st = (visits ++ (sittings source more st').1, (sittings source more st').2) := by
  rw [sittings, run]
  rcases why with rfl | ⟨e, rfl, interrupt⟩
  · rfl
  · exact if_pos interrupt

/-- A walk in sittings says a part of what there is to find, and all of it where it ends. -/
theorem sittings_told {schedule : List (WalkOptions × Nat)} (ample : ∀ s ∈ schedule, s.1.kinds = kinds ∧ s.1.Ample n)
    (h : Comes g kinds st found) (within : Bounds g kinds st found n) (fits : FitsIn g found n) :
    let run := sittings (fun id => .ok (g id)) schedule st
    run = ((told g kinds found).1, endingOf (told g kinds found).2) ∨
      run.2 = .paused ∧ run.1 <+: (told g kinds found).1 ∧ ∀ s, schedule.getLast? = some s →
        s.1.interrupt = (fun _ => none) → s.2 ≤ (told g kinds found).1.length := by
  induction schedule generalizing st found with
  | nil => exact .inr ⟨rfl, List.nil_prefix, fun s last => nomatch last⟩
  | cons s schedule ih =>
      obtain ⟨o, k⟩ := s
      obtain ⟨⟨same, room⟩, others⟩ := List.forall_mem_cons.mp ample
      subst same
      have sits := sitting_sits h.resume k
      dsimp only
      generalize run : sitting (fun id => .ok (g id)) o k st.resume = result at sits
      cases sits with
      | refused part mem why => exact absurd why (room.refuses fits mem)
      | @ends visits last st' said near =>
          rw [sittings, run, said]
          cases last with
          | none => exact .inl rfl
          | some dep => exact .inl rfl
      | @rests visits ending st' later said left why =>
          have small := left.within n ⟨within.objects, within.bytes⟩
          have cause : ending = .paused ∧ visits.length = k ∨
              ∃ e, ending = .failed e ∧ e.isInterrupt = true ∧ ∃ i, o.interrupt i = some e :=
            why.imp id fun ⟨e, failed, stop⟩ => ⟨e, failed, room.stop small stop⟩
          rw [sittings_rests run (cause.imp And.left fun ⟨e, failed, interrupt, _⟩ => ⟨e, failed, interrupt⟩)]
          rw [said]
          rcases ih others left.comes small (left.fits fits) with whole | ⟨rests, part, last⟩
          · exact .inl (by rw [whole])
          · refine .inr ⟨rests, (List.prefix_append_right_inj _).mpr part, fun s end_ free => ?_⟩
            rw [List.length_append]
            cases schedule with
            | nil =>
                have only : s = (o, k) := by simpa using end_.symm
                subst only
                rcases cause with ⟨-, length⟩ | ⟨e, -, -, i, asked⟩
                · dsimp only
                  omega
                · rw [free] at asked
                  cases asked
            | cons next more =>
                have := last s (by rwa [List.getLast?_cons_cons] at end_) free
                omega

end Sitting

section Traversal
variable {g : ObjectId → Option ObjectNode} {kinds : KindFilter} {found : List (Found ObjectId)} {f : Found ObjectId}
  {roots : List ObjectId} {succ : ObjectId → List ObjectId}

theorem cycleAt_none_iff : cycleAt g kinds f = none ↔ ¬Blocked (admittedDependencies g kinds) f := by
  rw [cycleAt, List.find?_eq_none]
  simp only [List.mem_reverse, decide_eq_true_eq]
  constructor
  · rintro clear ⟨y, next, on⟩
    exact clear y next on
  · exact fun clear y next on => clear ⟨y, next, on⟩

/-- What is yielded: what is found before the first object that depends on one of its ancestors. -/
theorem told_visits (g : ObjectId → Option ObjectNode) (kinds : KindFilter) (found : List (Found ObjectId)) :
    (told g kinds found).1 = (found.takeWhile fun f => (cycleAt g kinds f).isNone).filterMap (visitOf g kinds) := by
  induction found with
  | nil => rfl
  | cons f found ih =>
      cases clear : cycleAt g kinds f with
      | some dep => simp [told, clear]
      | none =>
          rw [told_cons clear, ih, List.takeWhile_cons_of_pos (by rw [clear]; rfl)]
          cases yield : visitOf g kinds f with
          | none => simp [yield]
          | some v => simp [yield]

theorem told_cycle_iff : (∃ dep, (told g kinds found).2 = some dep) ↔ ∃ f ∈ found, Blocked (admittedDependencies g kinds) f := by
  induction found with
  | nil => simp [told]
  | cons f found ih =>
      cases clear : cycleAt g kinds f with
      | some dep =>
          have blocked : Blocked (admittedDependencies g kinds) f := by
            by_contra free
            rw [cycleAt_none_iff.mpr free] at clear
            cases clear
          exact ⟨fun _ => ⟨f, .head _, blocked⟩, fun _ => ⟨dep, by rw [told, clear]⟩⟩
      | none =>
          rw [told_cons clear, ih]
          simp [cycleAt_none_iff.mp clear]

/-- In a graph without cycles everything is yielded that is there and admitted, or missing. -/
theorem told_acyclic (clear : ∀ f ∈ found, ¬Blocked (admittedDependencies g kinds) f) :
    told g kinds found = (found.filterMap (visitOf g kinds), none) := by
  induction found with
  | nil => rfl
  | cons f found ih =>
      obtain ⟨first, others⟩ := List.forall_mem_cons.mp clear
      rw [told_cons (cycleAt_none_iff.mpr first), ih others]
      cases yield : visitOf g kinds f with
      | none => simp [yield]
      | some v => simp [yield]

/-- In a finite graph the search has a result. -/
theorem exists_search (finite : {x | (g x).isSome}.Finite) (kinds : KindFilter) (roots : List ObjectId) :
    ∃ found, Search (admittedDependencies g kinds) [] [] roots found := by
  classical
  let next := fun x => (admittedDependencies g kinds x).toFinset
  refine Search.total (roots.toFinset ∪ finite.toFinset.biUnion next) (fun x _ y mem => ?_) [] [] roots ?_
  · refine Finset.mem_union_right _ (Finset.mem_biUnion.mpr ⟨x, ?_, List.mem_toFinset.mpr mem⟩)
    rw [Set.Finite.mem_toFinset]
    cases here : g x with
    | none => simp [admittedDependencies, here] at mem
    | some node => simp [here]
  · exact fun x mem => Finset.mem_union_left _ (List.mem_toFinset.mpr mem)

/-- A walk that starts stands for the search from its roots, each taken once. -/
theorem start_comes (search : Search (admittedDependencies g kinds) [] [] roots.dedup found) :
    Comes g kinds (.start roots) found := by
  refine ⟨roots.dedup.map (⟨·, []⟩), [], ⟨?_, ?_, ?_, ?_⟩, ?_⟩
  · rw [List.map_map]
    rfl
  · exact fun x => Iff.rfl
  · exact List.pairwise_map.mpr (List.pairwise_of_forall fun _ _ => List.prefix_refl _)
  · intro f mem
    obtain ⟨r, -, rfl⟩ := List.mem_map.mp mem
    exact List.prefix_refl _
  · have runs := @Search.runs _ _ _ _ _ _ _ _ [] [] search (fun _ mem => nomatch mem) (.nil found)
    simpa using runs

/-- A number that ceilings have to reach. -/
def enough (g : ObjectId → Option ObjectNode) (kinds : KindFilter) (found : List (Found ObjectId)) : Nat :=
  (found.map fun f => f.path.length + (((g f.item).map fun node => node.dependencies.length).getD 0)).sum +
    (told g kinds found).1.length + ((told g kinds found).1.map fun v => v.storedLen.toNat).sum

theorem bounds_enough (g : ObjectId → Option ObjectNode) (kinds : KindFilter) (found : List (Found ObjectId)) (roots : List ObjectId) :
    Bounds g kinds (.start roots) found (enough g kinds found) := by
  constructor
  · rw [show (WalkState.start roots).objects = 0 from rfl, enough]
    omega
  · rw [show (WalkState.start roots).bytes.toNat = 0 from rfl, enough]
    omega

theorem fits_enough (g : ObjectId → Option ObjectNode) (kinds : KindFilter) (found : List (Found ObjectId)) :
    FitsIn g found (enough g kinds found) := by
  intro f mem
  have le := List.le_sum_of_mem (List.mem_map_of_mem
    (f := fun f : Found ObjectId => f.path.length + (((g f.item).map fun node => node.dependencies.length).getD 0)) mem)
  rw [enough]
  refine ⟨by omega, fun node here => ?_⟩
  simp only [here, Option.map_some, Option.getD_some] at le
  omega

theorem visitOf_id {v : Visit} (h : visitOf g kinds f = some v) : v.id = f.item := by
  unfold visitOf at h
  cases here : g f.item with
  | none =>
      simp only [here, Option.some.injEq] at h
      rw [← h]
  | some node =>
      simp only [here, Option.ite_none_right_eq_some, Option.some.injEq] at h
      rw [← h.2]

theorem visitOf_isSome : (visitOf g kinds f).isSome ↔ ∀ node, g f.item = some node → kinds.admits node.kind = true := by
  unfold visitOf
  cases here : g f.item with
  | none => simp
  | some node => simp

theorem visits_ids (found : List (Found ObjectId)) :
    (found.filterMap (visitOf g kinds)).map Visit.id = items (found.filter fun f => (visitOf g kinds f).isSome) := by
  induction found with
  | nil => rfl
  | cons f found ih =>
      cases yield : visitOf g kinds f with
      | none => simpa [yield] using ih
      | some v =>
          simp only [List.filterMap_cons, yield, List.map_cons, ih, visitOf_id yield]
          simp [yield, items]

/-- What a walk from some roots is, with ceilings of `n` or more: the depth-first search from the
roots, each taken once, up to the first object that depends on one of its ancestors; a cycle is
its only error; and in sittings it says the same and ends the same. -/
structure Traverses (g : ObjectId → Option ObjectNode) (kinds : KindFilter) (roots start : List ObjectId)
    (found : List (Found ObjectId)) (visits : List Visit) (ending : Ending) (n : Nat) : Prop where
  once : start.Nodup
  same : ∀ x, x ∈ start ↔ x ∈ roots
  order : roots.Nodup → start = roots
  search : Search (admittedDependencies g kinds) [] [] start found
  preorder : visits = (found.takeWhile fun f => (cycleAt g kinds f).isNone).filterMap (visitOf g kinds)
  distinct : (visits.map Visit.id).Nodup
  reached : ∀ x ∈ visits.map Visit.id, Reaches (admittedDependencies g kinds) roots x
  complete : ¬Cyclic (admittedDependencies g kinds) roots → visits = found.filterMap (visitOf g kinds) ∧
    ∀ x, x ∈ visits.map Visit.id ↔
      Reaches (admittedDependencies g kinds) roots x ∧ ∀ node, g x = some node → kinds.admits node.kind = true
  finished : ¬Cyclic (admittedDependencies g kinds) roots ↔ ending = .finished
  cycle : Cyclic (admittedDependencies g kinds) roots ↔ ∃ dep : ObjectId, ending = .failed (.cycleDetected (toHex dep.digest))
  part : ∀ schedule : List (WalkOptions × Nat), (∀ s ∈ schedule, s.1.kinds = kinds ∧ s.1.Ample n) →
    let run := sittings (fun id => .ok (g id)) schedule (.start roots)
    run = (visits, ending) ∨ run.2 = .paused ∧ run.1 <+: visits
  ends : ∀ schedule : List (WalkOptions × Nat), (∀ s ∈ schedule, s.1.kinds = kinds ∧ s.1.Ample n) →
    ∀ s, schedule.getLast? = some s → s.1.interrupt = (fun _ => none) → visits.length < s.2 →
      sittings (fun id => .ok (g id)) schedule (.start roots) = (visits, ending)

theorem reaches_dedup {x : ObjectId} :
    Reaches succ roots.dedup x ↔ Reaches succ roots x := by
  simp only [Reaches, List.mem_dedup]

theorem cyclic_dedup :
    Cyclic succ roots.dedup ↔ Cyclic succ roots := by
  simp only [Cyclic, reaches_dedup]

theorem told_some_iff (search : Search (admittedDependencies g kinds) [] [] roots.dedup found) :
    (∃ dep, (told g kinds found).2 = some dep) ↔ Cyclic (admittedDependencies g kinds) roots :=
  told_cycle_iff.trans (search.blocked_iff.trans cyclic_dedup)

/-- What is yielded are objects that were found, each of them once. -/
theorem told_sublist (g : ObjectId → Option ObjectNode) (kinds : KindFilter) (found : List (Found ObjectId)) :
    ((told g kinds found).1.map Visit.id).Sublist (items found) := by
  rw [told_visits, visits_ids]
  exact (List.filter_sublist.trans (List.takeWhile_sublist _)).map Found.item

/-- For every finite graph of objects, whatever is missing in it, every list of roots and every filter, a
walk is the depth-first search. -/
theorem walk_traverses (g : ObjectId → Option ObjectNode) (finite : {x | (g x).isSome}.Finite) (roots : List ObjectId)
    (kinds : KindFilter) : ∃ start found visits ending n, Traverses g kinds roots start found visits ending n := by
  obtain ⟨found, search⟩ := exists_search finite kinds roots.dedup
  have once := search.nodup List.nodup_nil
  have cyclic := told_some_iff search
  refine ⟨roots.dedup, found, (told g kinds found).1, endingOf (told g kinds found).2, enough g kinds found, ?_⟩
  constructor
  case once => exact List.nodup_dedup roots
  case same => exact fun x => List.mem_dedup
  case order => exact fun nodup => nodup.dedup
  case search => exact search
  case preorder => exact told_visits g kinds found
  case distinct => exact once.sublist (told_sublist g kinds found)
  case reached => exact fun x mem => reaches_dedup.mp (search.mem_iff.mp ((told_sublist g kinds found).subset mem))
  case complete =>
      intro acyclic
      have clear : ∀ f ∈ found, ¬Blocked (admittedDependencies g kinds) f :=
        fun f mem blocked => acyclic (cyclic_dedup.mp (search.cyclic mem blocked))
      rw [told_acyclic clear]
      refine ⟨rfl, fun x => ?_⟩
      dsimp only
      rw [visits_ids]
      constructor
      · intro mem
        obtain ⟨f, some_, rfl⟩ := List.mem_map.mp mem
        obtain ⟨inside, yields⟩ := List.mem_filter.mp some_
        exact ⟨reaches_dedup.mp (search.mem_iff.mp (mem_items inside)), visitOf_isSome.mp yields⟩
      · rintro ⟨reach, admitted⟩
        obtain ⟨f, inside, rfl⟩ := List.mem_map.mp (search.mem_iff.mpr (reaches_dedup.mpr reach))
        exact mem_items (List.mem_filter.mpr ⟨inside, visitOf_isSome.mpr admitted⟩)
  case finished =>
      rw [← cyclic]
      cases (told g kinds found).2 with
      | none => simp [endingOf]
      | some dep => simp [endingOf]
  case cycle =>
      rw [← cyclic]
      cases (told g kinds found).2 with
      | none => simp [endingOf]
      | some dep => exact ⟨fun _ => ⟨dep, rfl⟩, fun _ => ⟨dep, rfl⟩⟩
  case part =>
      intro schedule ample
      exact (sittings_told ample (start_comes search) (bounds_enough g kinds found roots) (fits_enough g kinds found)).imp id
        fun rests => ⟨rests.1, rests.2.1⟩
  case ends =>
      intro schedule ample s last free long
      rcases sittings_told ample (start_comes search) (bounds_enough g kinds found roots) (fits_enough g kinds found)
        with whole | ⟨-, -, short⟩
      · exact whole
      · have := short s last free
        omega

/-- Nothing but a pair of objects: a tree over one chunk. -/
def lonePair (x : ObjectId) : Option ObjectNode :=
  if x = sameBytes 1 then some ⟨sameBytes 1, .tree, 10, [sameBytes 2]⟩
  else if x = sameBytes 2 then some ⟨sameBytes 2, .chunk, 10, []⟩
  else none

theorem lonePair_finite : {x | (lonePair x).isSome}.Finite := by
  refine (Set.toFinite {sameBytes 1, sameBytes 2}).subset fun x there => ?_
  by_contra other
  simp only [Set.mem_insert_iff, Set.mem_singleton_iff, not_or] at other
  simp [lonePair, other.1, other.2] at there

theorem walk_traverses_pair : ∃ start found visits ending n,
    Traverses lonePair .all [sameBytes 1] start found visits ending n :=
  walk_traverses lonePair lonePair_finite [sameBytes 1] .all

/-- A tree over a tree that depends on it, and over a chunk. -/
def loopedTree (x : ObjectId) : Option ObjectNode :=
  if x = sameBytes 1 then some ⟨sameBytes 1, .tree, 10, [sameBytes 2, sameBytes 3]⟩
  else if x = sameBytes 2 then some ⟨sameBytes 2, .tree, 10, [sameBytes 1]⟩
  else if x = sameBytes 3 then some ⟨sameBytes 3, .chunk, 10, []⟩
  else none

/-- Where there is a cycle a walk does not come to what is behind it: the chunk can be reached, and
no walk yields it, whatever its ceilings. -/
theorem walk_misses_behind_cycle :
    Reaches (admittedDependencies loopedTree .all) [sameBytes 1] (sameBytes 3) ∧
      ∀ o : WalkOptions, o.kinds = .all → ∀ k,
        sameBytes 3 ∉ (sitting (fun id => .ok (loopedTree id)) o k (.start [sameBytes 1])).1.map Visit.id := by
  have first : admittedDependencies loopedTree .all (sameBytes 1) = [sameBytes 2, sameBytes 3] := by decide +kernel
  have second : admittedDependencies loopedTree .all (sameBytes 2) = [sameBytes 1] := by decide +kernel
  have third : admittedDependencies loopedTree .all (sameBytes 3) = [] := by decide +kernel
  have search : Search (admittedDependencies loopedTree .all) [] [] ([sameBytes 1] : List ObjectId).dedup
      [⟨sameBytes 1, []⟩, ⟨sameBytes 2, [sameBytes 1]⟩, ⟨sameBytes 3, [sameBytes 1]⟩] := by
    have chunk : Search (admittedDependencies loopedTree .all) [sameBytes 1]
        [⟨sameBytes 1, []⟩, ⟨sameBytes 2, [sameBytes 1]⟩] [sameBytes 3]
        [⟨sameBytes 1, []⟩, ⟨sameBytes 2, [sameBytes 1]⟩, ⟨sameBytes 3, [sameBytes 1]⟩] :=
      .visit (by decide +kernel) (third ▸ .nil _ _) (.nil _ _)
    have both : Search (admittedDependencies loopedTree .all) [sameBytes 1] [⟨sameBytes 1, []⟩] [sameBytes 2, sameBytes 3]
        [⟨sameBytes 1, []⟩, ⟨sameBytes 2, [sameBytes 1]⟩, ⟨sameBytes 3, [sameBytes 1]⟩] :=
      .visit (by decide +kernel) (second ▸ .skip (by decide +kernel) (.nil _ _)) chunk
    exact .visit (by decide) (first ▸ both) (.nil [] _)
  have said : ((told loopedTree .all [⟨sameBytes 1, []⟩, ⟨sameBytes 2, [sameBytes 1]⟩, ⟨sameBytes 3, [sameBytes 1]⟩]).1.map Visit.id) =
      [sameBytes 1] := by decide +kernel
  refine ⟨reaches_dedup.mp (search.mem_iff.mp (by decide +kernel)), fun o all k mem => ?_⟩
  have part := (sitting_sits (o := o) (all ▸ start_comes search) k).part
  rw [all] at part
  have in_ := (part.map Visit.id).subset mem
  rw [said] at in_
  exact absurd in_ (by decide +kernel)

end Traversal
end Cavs
