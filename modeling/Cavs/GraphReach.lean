import Cavs.GraphWalk
import Mathlib.Data.List.Dedup

/-!
# What a walk reaches

A walk that admits every class and ends well has visited what the roots reach, and
nothing else; where it was cut, it has visited all that the roots reach without
passing below a cut.
-/
namespace Cavs
open Relation (ReflTransGen)

/-- One dependency. -/
def Edge (source : GraphSource) (a b : ObjectId) : Prop :=
  ∃ node, source a = .ok (some node) ∧ b ∈ node.dependencies

def Reachable (source : GraphSource) (roots : List ObjectId) (x : ObjectId) : Prop :=
  ∃ r ∈ roots, ReflTransGen (Edge source) r x

section Step
variable {source : GraphSource} {o : WalkOptions} {st st' : WalkState} {v : Visit}
  {id : ObjectId} {depth : Nat} {seen : List ObjectId}

def ids (pending : List (ObjectId × Nat)) : List ObjectId := pending.map Prod.fst

/-- What one visit does to the state of a walk. -/
structure Visits (source : GraphSource) (st : WalkState) (v : Visit) (st' : WalkState) : Prop where
  fresh : v.id ∉ st.visited
  here : v.id ∈ ids st.pending
  visited : st'.visited = v.id :: st.visited
  node : source v.id = .ok v.node
  bytes : st'.bytes = saturatingAdd st.bytes v.storedLen
  stack : ∃ pushed rest, st'.pending = pushed ++ rest ∧ st'.pushedLast = pushed.length ∧
    (∀ x ∈ ids rest, x ∈ ids st.pending) ∧
    (∀ x ∈ ids st.pending, x = v.id ∨ x ∈ ids rest ∨ x ∈ st.visited) ∧
    ids pushed = match v.node with
      | none => []
      | some node => node.dependencies.filter (· ∉ v.id :: st.visited)

theorem saturatingAdd_zero (a : UInt64) : saturatingAdd a 0 = a := by
  have := a.toNat_lt
  rw [saturatingAdd, UInt64.toNat_zero, Nat.add_zero, min_eq_left (by omega)]
  exact UInt64.ofNat_toNat

theorem visit_some (h : visit source o st id depth = .ok (some v, st')) (top : st.visited = id :: seen)
    (zero : st.pushedLast = 0) :
    v.id = id ∧ source id = .ok v.node ∧ st'.visited = st.visited ∧
      st'.bytes = saturatingAdd st.bytes v.storedLen ∧
      ∃ pushed, st'.pending = pushed ++ st.pending ∧ st'.pushedLast = pushed.length ∧
        ids pushed = match v.node with
          | none => []
          | some node => node.dependencies.filter (· ∉ id :: seen) := by
  unfold visit at h
  split at h
  · cases h
  split at h
  · cases h
  · split at h
    · cases h
    · rename_i found _
      cases h
      exact ⟨rfl, found, rfl, (saturatingAdd_zero _).symm, [], rfl, zero, rfl⟩
  · rename_i node found
    split at h
    · cases h
    split at h
    · cases h
    dsimp only at h
    split at h
    · cases h
    · cases h
      refine ⟨rfl, found, rfl, rfl, _, rfl, by simp, ?_⟩
      rw [ids, List.map_map, ← top]
      exact List.map_id' _

/-- With every class admitted a visit is never passed over. -/
theorem visit_none (open_ : o.kinds.isUnrestricted = true) :
    visit source o st id depth ≠ .ok (none, st') := by
  intro h
  unfold visit at h
  split at h
  · cases h
  split at h
  · cases h
  · split at h <;> cases h
  · split at h
    · rename_i left
      rw [KindFilter.admits_of_unrestricted open_] at left
      cases left
    · split at h
      · cases h
      · dsimp only at h
        split at h <;> cases h

theorem nextVisit_some (open_ : o.kinds.isUnrestricted = true) {pending : List (ObjectId × Nat)}
    (h : nextVisit source o pending st = .ok (some v, st')) :
    Visits source { st with pending } v st' := by
  induction pending generalizing st with
  | nil =>
      rw [nextVisit] at h
      split at h <;> cases h
  | cons e rest ih =>
      obtain ⟨id, depth⟩ := e
      rw [nextVisit] at h
      split at h
      · cases h
      dsimp only at h
      split at h
      · rename_i seen
        have next := ih h
        obtain ⟨pushed, rest', split, count, sub, all, deps⟩ := next.stack
        refine ⟨next.fresh, .tail _ next.here, next.visited, next.node, next.bytes,
          pushed, rest', split, count, fun x mem => .tail _ (sub x mem), fun x mem => ?_, deps⟩
        cases mem with
        | head => exact .inr (.inr seen)
        | tail _ mem => exact all x mem
      · rename_i unseen
        split at h
        · cases h
        · rename_i found
          cases h
          obtain ⟨rfl, node, visited, bytes, pushed, split, count, deps⟩ := visit_some found rfl rfl
          refine ⟨unseen, .head _, visited, node, bytes, pushed, rest, split, count,
            fun x mem => .tail _ mem, fun x mem => ?_, deps⟩
          cases mem with
          | head => exact .inl rfl
          | tail _ mem => exact .inr (.inl mem)
        · exact absurd ‹_› (visit_none open_)

/-- A walk ends when everything on the stack was visited, within the byte ceiling. -/
theorem nextVisit_none (open_ : o.kinds.isUnrestricted = true) {pending : List (ObjectId × Nat)}
    (h : nextVisit source o pending st = .ok (none, st')) :
    (∀ x ∈ ids pending, x ∈ st.visited) ∧ st.bytes ≤ o.maxBytes := by
  induction pending generalizing st with
  | nil =>
      rw [nextVisit] at h
      split at h
      · cases h
      · rename_i within
        refine ⟨fun x mem => (List.not_mem_nil mem).elim, ?_⟩
        unfold budgetCheck at within
        split at within
        · cases within
        split at within
        · cases within
        split at within
        · cases within
        · exact UInt64.not_lt.mp ‹_›
  | cons e rest ih =>
      obtain ⟨id, depth⟩ := e
      rw [nextVisit] at h
      split at h
      · cases h
      dsimp only at h
      split at h
      · rename_i seen
        obtain ⟨all, bound⟩ := ih h
        refine ⟨fun x mem => ?_, bound⟩
        cases mem with
        | head => exact seen
        | tail _ mem => exact all x mem
      · split at h
        · cases h
        · cases h
        · exact absurd ‹_› (visit_none open_)

end Step

section Walked
variable {source : GraphSource} {roots : List ObjectId} {cut : ObjectId → Prop} {st st' : WalkState}
  {v : Visit}

/-- A walk knows what it reached so far, and what it still owes. -/
structure Walked (source : GraphSource) (roots : List ObjectId) (cut : ObjectId → Prop)
    (st : WalkState) : Prop where
  nodup : st.visited.Nodup
  sound : ∀ x, x ∈ st.visited ∨ x ∈ ids st.pending → Reachable source roots x
  start : ∀ r ∈ roots, r ∈ st.visited ∨ r ∈ ids st.pending
  closed : ∀ x ∈ st.visited, ¬ cut x → ∀ y, Edge source x y → y ∈ st.visited ∨ y ∈ ids st.pending

theorem Walked.init : Walked source roots cut (.start roots) where
  nodup := List.nodup_nil
  sound x mem := by
    rcases mem with mem | mem
    · cases mem
    · rw [WalkState.start, ids, List.map_map] at mem
      have mem : x ∈ roots.dedup := by simpa using mem
      exact ⟨x, List.mem_dedup.mp mem, .refl⟩
  start r mem := by
    refine .inr ?_
    rw [WalkState.start, ids, List.map_map]
    simpa using mem
  closed x mem := by cases mem

theorem Reachable.edge {x y : ObjectId} (h : Reachable source roots x) (e : Edge source x y) :
    Reachable source roots y := by
  obtain ⟨r, mem, path⟩ := h
  exact ⟨r, mem, path.tail e⟩

/-- An entry that was owed before a visit is reached by it or still owed. -/
theorem Visits.owed (h : Visits source st v st') {rest pushed : List (ObjectId × Nat)}
    (all : ∀ x ∈ ids st.pending, x = v.id ∨ x ∈ ids rest ∨ x ∈ st.visited) {x : ObjectId}
    (mem : x ∈ st.visited ∨ x ∈ ids st.pending) :
    x ∈ st'.visited ∨ x ∈ ids (pushed ++ rest) := by
  rw [h.visited, ids, List.map_append, List.mem_append]
  rcases mem with mem | mem
  · exact .inl (.tail _ mem)
  · rcases all x mem with rfl | mem | mem
    · exact .inl (.head _)
    · exact .inr (.inr mem)
    · exact .inl (.tail _ mem)

theorem Walked.visits (walked : Walked source roots cut st) (h : Visits source st v st') :
    Walked source roots cut st' := by
  obtain ⟨pushed, rest, split, -, sub, all, deps⟩ := h.stack
  have here : Reachable source roots v.id := walked.sound _ (.inr h.here)
  refine ⟨?_, fun x mem => ?_, fun r mem => ?_, fun x mem uncut y e => ?_⟩
  · rw [h.visited]
    exact List.nodup_cons.mpr ⟨h.fresh, walked.nodup⟩
  · rw [h.visited, split, ids, List.map_append, List.mem_append] at mem
    rcases mem with mem | mem | mem
    · cases mem with
      | head => exact here
      | tail _ mem => exact walked.sound x (.inl mem)
    · change x ∈ ids pushed at mem
      rw [deps] at mem
      cases node : v.node with
      | none => rw [node] at mem; cases mem
      | some n =>
          rw [node] at mem
          exact here.edge ⟨n, node ▸ h.node, (List.mem_filter.mp mem).1⟩
    · exact walked.sound x (.inr (sub x mem))
  · rw [split]
    exact h.owed all (walked.start r mem)
  · rw [split]
    rw [h.visited] at mem
    cases mem with
    | head =>
        obtain ⟨n, found, dep⟩ := e
        by_cases seen : y ∈ v.id :: st.visited
        · exact .inl (h.visited ▸ seen)
        · refine .inr ?_
          rw [ids, List.map_append, List.mem_append]
          refine .inl ?_
          change y ∈ ids pushed
          have node : v.node = some n := Except.ok.inj (h.node.symm.trans found)
          rw [deps, node]
          exact List.mem_filter.mpr ⟨dep, decide_eq_true seen⟩
    | tail _ mem => exact h.owed all (walked.closed x mem uncut y e)

/-- Pruning takes back exactly what the visit of a cut object queued. -/
theorem Walked.prunes (walked : Walked source roots cut st) (h : Visits source st v st')
    (isCut : cut v.id) : Walked source roots cut st'.pruneLast := by
  obtain ⟨pushed, rest, split, count, sub, all, -⟩ := h.stack
  have dropped : st'.pruneLast.pending = rest := by
    rw [WalkState.pruneLast, split, count]
    exact List.drop_left
  have owed : ∀ {x}, x ∈ st.visited ∨ x ∈ ids st.pending →
      x ∈ st'.pruneLast.visited ∨ x ∈ ids st'.pruneLast.pending := fun mem => by
    rw [dropped]
    exact @Visits.owed _ _ _ _ h rest [] all _ mem
  have visited : st'.pruneLast.visited = v.id :: st.visited := h.visited
  refine ⟨?_, fun x mem => ?_, fun r mem => owed (walked.start r mem), fun x mem uncut y e => ?_⟩
  · rw [visited]
    exact List.nodup_cons.mpr ⟨h.fresh, walked.nodup⟩
  · rw [visited, dropped] at mem
    rcases mem with mem | mem
    · cases mem with
      | head => exact walked.sound _ (.inr h.here)
      | tail _ mem => exact walked.sound x (.inl mem)
    · exact walked.sound x (.inr (sub x mem))
  · rw [visited] at mem
    cases mem with
    | head => exact absurd isCut uncut
    | tail _ mem => exact owed (walked.closed x mem uncut y e)

/-- A walk that owes nothing has visited what can be reached without passing below a cut. -/
theorem Walked.complete (walked : Walked source roots cut st)
    (done : ∀ x ∈ ids st.pending, x ∈ st.visited) {P : ObjectId → Prop}
    (below : ∀ x y, P x → Edge source x y → P y) (given : ∀ x, cut x → P x)
    {x : ObjectId} (h : Reachable source roots x) : x ∈ st.visited ∨ P x := by
  obtain ⟨r, mem, path⟩ := h
  induction path with
  | refl => exact .inl ((walked.start r mem).elim id (done r))
  | @tail a b _ e ih =>
      rcases ih with seen | have_
      · by_cases isCut : cut a
        · exact .inr (below a b (given a isCut) e)
        · exact .inl ((walked.closed a seen isCut b e).elim (fun h => h) (done b))
      · exact .inr (below a b have_ e)

end Walked

section Plan
variable {source : GraphSource} {o : WalkOptions} {have_ : HaveSet} {roots : List ObjectId}
  {st st' : WalkState} {v : Visit} {plan : MissingPlan}

def HaveSet.cuts (have_ : HaveSet) (x : ObjectId) : Prop := (have_.mayHave x && have_.isDefinite) = true

/-- The stored length of an object that is there. -/
def lengthOf (source : GraphSource) (x : ObjectId) : Nat :=
  match source x with
  | .ok (some node) => node.storedLen.toNat
  | _ => 0

/-- Which list of a plan the visited objects went to. -/
structure Planned (source : GraphSource) (have_ : HaveSet) (visited : List ObjectId) (walked : UInt64)
    (plan : MissingPlan) : Prop where
  missing : ∀ x, x ∈ plan.missing ↔
    x ∈ visited ∧ have_.mayHave x = false ∧ ∃ node, source x = .ok (some node)
  uncertain : ∀ x, x ∈ plan.uncertain ↔
    x ∈ visited ∧ have_.mayHave x = true ∧ ¬ have_.cuts x ∧ ∃ node, source x = .ok (some node)
  unavailable : ∀ x, x ∈ plan.unavailable ↔ x ∈ visited ∧ ¬ have_.cuts x ∧ source x = .ok none
  once : plan.missing.Nodup ∧ plan.uncertain.Nodup ∧ plan.unavailable.Nodup
  looked : ∀ x ∈ visited, ∃ node, source x = .ok node
  bytes : plan.bytes.toNat = min (plan.missing.map (lengthOf source)).sum (2 ^ 64 - 1)
  bound : plan.bytes ≤ walked

theorem Planned.init : Planned source have_ [] 0 .empty where
  missing x := by simp [MissingPlan.empty]
  uncertain x := by simp [MissingPlan.empty]
  unavailable x := by simp [MissingPlan.empty]
  once := ⟨List.nodup_nil, List.nodup_nil, List.nodup_nil⟩
  looked x mem := by cases mem
  bytes := rfl
  bound := UInt64.le_refl _

theorem saturatingAdd_toNat (a b : UInt64) :
    (saturatingAdd a b).toNat = min (a.toNat + b.toNat) (2 ^ 64 - 1) := by
  rw [saturatingAdd, UInt64.toNat_ofNat']
  omega

theorem le_saturatingAdd (a b : UInt64) : a ≤ saturatingAdd a b := by
  rw [UInt64.le_iff_toNat_le, saturatingAdd_toNat]
  have := a.toNat_lt
  omega

/-- One more id in a list of distinct ids it was not in. -/
theorem nodup_snoc {l : List ObjectId} (h : l.Nodup) {x : ObjectId} (new : x ∉ l) : (l ++ [x]).Nodup :=
  List.nodup_append.mpr ⟨h, List.nodup_singleton x, fun a ha b hb => by
    rw [List.mem_singleton] at hb
    rintro rfl
    exact new (hb ▸ ha)⟩

/-- A visit that goes to none of the lists of a plan: they only gain what `x = v.id` gives. -/
theorem mem_visited_iff (visits : Visits source st v st') {x : ObjectId} :
    x ∈ st'.visited ↔ x = v.id ∨ x ∈ st.visited := by
  rw [visits.visited, List.mem_cons]

theorem Planned.add (h : Planned source have_ st.visited st.bytes plan) (visits : Visits source st v st')
    (uncut : ¬ have_.cuts v.id) :
    Planned source have_ st'.visited st'.bytes (plan.add (have_.mayHave v.id) v) := by
  have looked : ∀ x ∈ st'.visited, ∃ node, source x = .ok node := by
    intro x mem
    rcases (mem_visited_iff visits).mp mem with rfl | mem
    · exact ⟨_, visits.node⟩
    · exact h.looked x mem
  have visited := @mem_visited_iff source st st' v visits
  have found := visits.node
  have walked : plan.bytes ≤ st'.bytes := by
    rw [visits.bytes]
    exact UInt64.le_trans h.bound (le_saturatingAdd ..)
  cases node : v.node with
  | none =>
      rw [node] at found
      have absent : ∀ {x}, x = v.id → ¬ ∃ node, source x = .ok (some node) := by
        rintro x rfl ⟨n, there⟩
        rw [found] at there
        cases there
      simp only [MissingPlan.add, node]
      refine ⟨fun x => ?_, fun x => ?_, fun x => ?_, ⟨h.once.1, h.once.2.1, nodup_snoc h.once.2.2 ?_⟩, looked,
        h.bytes, walked⟩
      · rw [h.missing x, visited]
        exact ⟨fun ⟨a, b⟩ => ⟨.inr a, b⟩, fun ⟨a, b, c⟩ => ⟨a.resolve_left fun e => absent e c, b, c⟩⟩
      · rw [h.uncertain x, visited]
        exact ⟨fun ⟨a, b⟩ => ⟨.inr a, b⟩, fun ⟨a, b, c, d⟩ => ⟨a.resolve_left fun e => absent e d, b, c, d⟩⟩
      · rw [List.mem_append, List.mem_singleton, h.unavailable x, visited]
        constructor
        · rintro (⟨a, b⟩ | rfl)
          · exact ⟨.inr a, b⟩
          · exact ⟨.inl rfl, uncut, found⟩
        · rintro ⟨rfl | a, b⟩
          · exact .inr rfl
          · exact .inl ⟨a, b⟩
      · exact fun mem => visits.fresh ((h.unavailable _).mp mem).1
  | some n =>
      rw [node] at found
      have present : ∀ {x}, x = v.id → source x ≠ .ok none := by
        rintro x rfl there
        rw [found] at there
        cases there
      have unavailable : ∀ x, x ∈ plan.unavailable ↔ x ∈ st'.visited ∧ ¬ have_.cuts x ∧ source x = .ok none := by
        intro x
        rw [h.unavailable x, visited]
        exact ⟨fun ⟨a, b⟩ => ⟨.inr a, b⟩, fun ⟨a, b, c⟩ => ⟨a.resolve_left fun e => present e c, b, c⟩⟩
      cases held : have_.mayHave v.id with
      | true =>
          simp only [MissingPlan.add, node, if_true]
          refine ⟨fun x => ?_, fun x => ?_, unavailable, ⟨h.once.1, nodup_snoc h.once.2.1 ?_, h.once.2.2⟩,
            looked, h.bytes, walked⟩
          · rw [h.missing x, visited]
            refine ⟨fun ⟨a, b⟩ => ⟨.inr a, b⟩, fun ⟨a, b, c⟩ => ⟨a.resolve_left fun e => ?_, b, c⟩⟩
            rw [e, held] at b
            cases b
          · rw [List.mem_append, List.mem_singleton, h.uncertain x, visited]
            constructor
            · rintro (⟨a, b⟩ | rfl)
              · exact ⟨.inr a, b⟩
              · exact ⟨.inl rfl, held, uncut, n, found⟩
            · rintro ⟨rfl | a, b⟩
              · exact .inr rfl
              · exact .inl ⟨a, b⟩
          · exact fun mem => visits.fresh ((h.uncertain _).mp mem).1
      | false =>
          simp only [MissingPlan.add, node, Bool.false_eq_true, if_false]
          refine ⟨fun x => ?_, fun x => ?_, unavailable, ⟨nodup_snoc h.once.1 ?_, h.once.2.1, h.once.2.2⟩,
            looked, ?_, ?_⟩
          · rw [List.mem_append, List.mem_singleton, h.missing x, visited]
            constructor
            · rintro (⟨a, b⟩ | rfl)
              · exact ⟨.inr a, b⟩
              · exact ⟨.inl rfl, held, n, found⟩
            · rintro ⟨rfl | a, b⟩
              · exact .inr rfl
              · exact .inl ⟨a, b⟩
          · rw [h.uncertain x, visited]
            refine ⟨fun ⟨a, b⟩ => ⟨.inr a, b⟩, fun ⟨a, b, c⟩ => ⟨a.resolve_left fun e => ?_, b, c⟩⟩
            rw [e, held] at b
            cases b
          · exact fun mem => visits.fresh ((h.missing _).mp mem).1
          · have length : lengthOf source v.id = n.storedLen.toNat := by rw [lengthOf, found]
            rw [saturatingAdd_toNat, h.bytes, List.map_append, List.sum_append, List.map_singleton,
              List.sum_singleton, length]
            omega
          · rw [visits.bytes, Visit.storedLen, node, UInt64.le_iff_toNat_le, saturatingAdd_toNat,
              saturatingAdd_toNat]
            have := UInt64.le_iff_toNat_le.mp h.bound
            simp only [Option.map_some, Option.getD_some]
            omega

theorem Planned.skip (h : Planned source have_ st.visited st.bytes plan) (visits : Visits source st v st')
    (isCut : have_.cuts v.id) :
    Planned source have_ st'.visited st'.bytes { plan with alreadyPresent := plan.alreadyPresent + 1 } := by
  have visited := @mem_visited_iff source st st' v visits
  have held : have_.mayHave v.id = true := (Bool.and_eq_true_iff.mp isCut).1
  refine ⟨fun x => ?_, fun x => ?_, fun x => ?_, h.once, fun x mem => ?_, h.bytes, ?_⟩
  · rw [h.missing x, visited]
    refine ⟨fun ⟨a, b⟩ => ⟨.inr a, b⟩, fun ⟨a, b, c⟩ => ⟨a.resolve_left fun e => ?_, b, c⟩⟩
    rw [e, held] at b
    cases b
  · rw [h.uncertain x, visited]
    exact ⟨fun ⟨a, b⟩ => ⟨.inr a, b⟩,
      fun ⟨a, b, c, d⟩ => ⟨a.resolve_left fun e => c (e ▸ isCut), b, c, d⟩⟩
  · rw [h.unavailable x, visited]
    exact ⟨fun ⟨a, b⟩ => ⟨.inr a, b⟩, fun ⟨a, b, c⟩ => ⟨a.resolve_left fun e => b (e ▸ isCut), b, c⟩⟩
  · rcases visited.mp mem with rfl | mem
    · exact ⟨_, visits.node⟩
    · exact h.looked x mem
  · rw [visits.bytes]
    exact UInt64.le_trans h.bound (le_saturatingAdd ..)

/-- A plan that was computed covers a walk that owes nothing. -/
theorem missingFrom_planned (open_ : o.kinds.isUnrestricted = true) {fuel : Nat} {result : MissingPlan}
    (walked : Walked source roots have_.cuts st) (planned : Planned source have_ st.visited st.bytes plan)
    (h : missingFrom source o have_ fuel st plan = some (.ok result)) :
    ∃ last : WalkState, Walked source roots have_.cuts last ∧ (∀ x ∈ ids last.pending, x ∈ last.visited) ∧
      Planned source have_ last.visited last.bytes result ∧ last.bytes ≤ o.maxBytes := by
  induction fuel generalizing st plan with
  | zero => cases h
  | succ fuel ih =>
      rw [missingFrom] at h
      split at h
      · cases h
      · rename_i ended
        cases h
        obtain ⟨done, bound⟩ := nextVisit_none open_ ended
        exact ⟨st, walked, done, planned, bound⟩
      · rename_i visited
        have visits := nextVisit_some open_ visited
        split at h
        · rename_i isCut
          have skipped := planned.skip visits isCut
          exact ih (walked.prunes visits isCut) skipped h
        · rename_i uncut
          exact ih (walked.visits visits) (planned.add visits uncut) h

/-- A plan misses nothing: with a definite have-set every object is sent, unavailable or
held; with an indefinite one the three lists part the reachable objects. -/
theorem computeMissing_covers {fuel : Nat} (open_ : o.kinds.isUnrestricted = true)
    (h : computeMissing source o have_ fuel roots = some (.ok plan)) :
    (have_.isDefinite = true →
      (∀ x y, have_.mayHave x = true → Edge source x y → have_.mayHave y = true) →
      (∀ x, Reachable source roots x →
        x ∈ plan.missing ∨ x ∈ plan.unavailable ∨ have_.mayHave x = true) ∧
      ∀ x ∈ plan.missing, have_.mayHave x = false) ∧
    (have_.isDefinite = false →
      (∀ x, x ∈ plan.missing ∨ x ∈ plan.uncertain ∨ x ∈ plan.unavailable ↔ Reachable source roots x)) ∧
    (plan.missing ++ (plan.uncertain ++ plan.unavailable)).Nodup ∧
    plan.bytes.toNat = min (plan.missing.map (lengthOf source)).sum (2 ^ 64 - 1) ∧
    (o.maxBytes.toNat < 2 ^ 64 - 1 → plan.bytes.toNat = (plan.missing.map (lengthOf source)).sum) := by
  obtain ⟨last, walked, done, planned, bound⟩ := missingFrom_planned open_ Walked.init Planned.init h
  have listed : ∀ x ∈ last.visited, ¬ have_.cuts x →
      x ∈ plan.missing ∨ x ∈ plan.uncertain ∨ x ∈ plan.unavailable := by
    intro x mem uncut
    obtain ⟨node, found⟩ := planned.looked x mem
    cases node with
    | none => exact .inr (.inr ((planned.unavailable x).mpr ⟨mem, uncut, found⟩))
    | some n =>
        cases held : have_.mayHave x with
        | false => exact .inl ((planned.missing x).mpr ⟨mem, held, n, found⟩)
        | true => exact .inr (.inl ((planned.uncertain x).mpr ⟨mem, held, uncut, n, found⟩))
  refine ⟨fun definite closed => ⟨fun x reach => ?_, fun x mem => ((planned.missing x).mp mem).2.1⟩,
    fun indefinite x => ?_, ?_, planned.bytes, fun small => ?_⟩
  · rcases walked.complete done (P := fun x => have_.mayHave x = true) closed
      (fun x cut => (Bool.and_eq_true_iff.mp cut).1) reach with mem | held
    · cases held : have_.mayHave x with
      | true => exact .inr (.inr rfl)
      | false =>
          have uncut : ¬ have_.cuts x := by simp [HaveSet.cuts, held]
          rcases listed x mem uncut with mem | mem | mem
          · exact .inl mem
          · rw [planned.uncertain, held] at mem
            cases mem.2.1
          · exact .inr (.inl mem)
    · exact .inr (.inr held)
  · have uncut : ∀ x, ¬ have_.cuts x := fun x => by simp [HaveSet.cuts, indefinite]
    constructor
    · intro mem
      refine walked.sound x (.inl ?_)
      rcases mem with mem | mem | mem
      · exact ((planned.missing x).mp mem).1
      · exact ((planned.uncertain x).mp mem).1
      · exact ((planned.unavailable x).mp mem).1
    · intro reach
      rcases walked.complete done (P := fun _ => False) (fun _ _ none _ => none)
        (fun x cut => uncut x cut) reach with mem | none
      · exact listed x mem (uncut x)
      · exact none.elim
  · refine List.nodup_append.mpr ⟨planned.once.1, List.nodup_append.mpr ⟨planned.once.2.1,
      planned.once.2.2, fun x hx y hy same => ?_⟩, fun x hx y hy same => ?_⟩
    · subst same
      obtain ⟨-, -, -, n, found⟩ := (planned.uncertain x).mp hx
      rw [((planned.unavailable x).mp hy).2.2] at found
      cases found
    · subst same
      obtain ⟨-, free, n, found⟩ := (planned.missing x).mp hx
      rcases List.mem_append.mp hy with hy | hy
      · rw [((planned.uncertain x).mp hy).2.1] at free
        cases free
      · rw [((planned.unavailable x).mp hy).2.2] at found
        cases found
  · have below := UInt64.le_iff_toNat_le.mp (UInt64.le_trans planned.bound bound)
    have := planned.bytes
    omega

end Plan

section Heavy

/-- A tree over one chunk, each 2^63 bytes long. -/
def heavyPair : GraphSource := fun x =>
  if x = sameBytes 1 then .ok (some ⟨sameBytes 1, .tree, 2 ^ 63, [sameBytes 2]⟩)
  else if x = sameBytes 2 then .ok (some ⟨sameBytes 2, .chunk, 2 ^ 63, []⟩)
  else .ok none

def noByteCeiling : WalkOptions := { WalkOptions.default with maxBytes := 2 ^ 64 - 1 }

/-- Without a ceiling below it the total stops at 2^64 - 1. -/
theorem computeMissing_bytes_saturate : computeMissing heavyPair noByteCeiling ⟨fun _ => false, true⟩ 3
      [sameBytes 1] = some (.ok ⟨[sameBytes 1, sameBytes 2], 2 ^ 64 - 1, [], [], 0⟩) ∧
    ([sameBytes 1, sameBytes 2].map (lengthOf heavyPair)).sum = 2 ^ 64 := by
  decide +kernel

/-- Two trees that share one, a chunk below it, and an object that is not there. -/
def sharedGraph : GraphSource := fun x =>
  if x = sameBytes 1 then .ok (some ⟨sameBytes 1, .tree, 10, [sameBytes 3, sameBytes 5]⟩)
  else if x = sameBytes 2 then .ok (some ⟨sameBytes 2, .tree, 20, [sameBytes 3]⟩)
  else if x = sameBytes 3 then .ok (some ⟨sameBytes 3, .tree, 30, [sameBytes 4]⟩)
  else if x = sameBytes 4 then .ok (some ⟨sameBytes 4, .chunk, 40, []⟩)
  else .ok none

def holdsShared : HaveSet := ⟨fun x => x = sameBytes 3 ∨ x = sameBytes 4, true⟩

theorem holdsShared_closed (x y : ObjectId) (held : holdsShared.mayHave x = true) (edge : Edge sharedGraph x y) :
    holdsShared.mayHave y = true := by
  obtain ⟨node, found, mem⟩ := edge
  rcases of_decide_eq_true held with rfl | rfl
  · have tree : sharedGraph (sameBytes 3) = .ok (some ⟨sameBytes 3, .tree, 30, [sameBytes 4]⟩) := by decide +kernel
    obtain rfl := Option.some.inj (Except.ok.inj (tree.symm.trans found))
    obtain rfl := List.mem_singleton.mp mem
    decide +kernel
  · have chunk : sharedGraph (sameBytes 4) = .ok (some ⟨sameBytes 4, .chunk, 40, []⟩) := by decide +kernel
    obtain rfl := Option.some.inj (Except.ok.inj (chunk.symm.trans found))
    cases mem

/-- A receiver that holds the shared tree is sent the two above it. -/
theorem computeMissing_covers_shared : ∃ plan, computeMissing sharedGraph .default holdsShared 6
      [sameBytes 1, sameBytes 2] = some (.ok plan) ∧ plan.missing = [sameBytes 1, sameBytes 2] ∧
    (∀ x, Reachable sharedGraph [sameBytes 1, sameBytes 2] x →
      x ∈ plan.missing ∨ x ∈ plan.unavailable ∨ holdsShared.mayHave x = true) ∧
    (∀ x ∈ plan.missing, holdsShared.mayHave x = false) ∧ (plan.missing ++ (plan.uncertain ++ plan.unavailable)).Nodup ∧
    plan.bytes.toNat = (plan.missing.map (lengthOf sharedGraph)).sum := by
  have run : computeMissing sharedGraph .default holdsShared 6 [sameBytes 1, sameBytes 2] =
      some (.ok ⟨[sameBytes 1, sameBytes 2], 30, [], [sameBytes 5], 1⟩) := by decide +kernel
  obtain ⟨definite, -, apart, -, bytes⟩ := computeMissing_covers rfl run
  obtain ⟨covers, lacks⟩ := definite rfl holdsShared_closed
  exact ⟨_, run, rfl, covers, lacks, apart, bytes (by decide)⟩

end Heavy
end Cavs
