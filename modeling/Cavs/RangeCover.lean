import Cavs.Fetch
import Mathlib.Data.List.Chain

/-!
# What planned ranges cover

The missing chunks are put into groups, one request each. Every chunk lies inside the range
of its group and is in no other; a group keeps the limits on gaps, on its span and on the
bytes nobody asked for; and the sums on the way fit their words. So what is cut out of an
answer lies in it.
-/
namespace Cavs
open FileProg (Bytes)
open FileProg.Eff

section Words

/-- Arithmetic on words; what does not fit ends the program. -/
def addWord (a b : Nat) : Option Nat := if a + b < 2 ^ 64 then some (a + b) else none
def subWord (a b : Nat) : Option Nat := if b ≤ a then some (a - b) else none
def mulWord (a b : Nat) : Option Nat := if a * b < 2 ^ 64 then some (a * b) else none

theorem addWord_some {a b : Nat} (h : a + b < 2 ^ 64) : addWord a b = some (a + b) := if_pos h
theorem subWord_some {a b : Nat} (h : b ≤ a) : subWord a b = some (a - b) := if_pos h
theorem mulWord_some {a b : Nat} (h : a * b < 2 ^ 64) : mulWord a b = some (a * b) := if_pos h

/-- One entry is planned with every sum and difference in a word. -/
def auditEntry (groups : List RangeGroup) (entry : ChunkMapEntry) : Option (List RangeGroup) := do
  let start := entry.packOffsetAbs.toNat
  let len := entry.lenStored.toNat
  let fresh : RangeGroup := ⟨entry.pack, start, len, len, [entry]⟩
  let stop ← addWord start len
  match groups with
  | [] => return [fresh]
  | g :: earlier => do
      let reach ← addWord g.start g.span
      if g.pack = entry.pack ∧ reach ≤ start then do
        let useful ← addWord g.useful len
        let span ← subWord stop g.start
        let gap ← subWord start reach
        if gap ≤ maxCoalesceGap ∧ span ≤ maxCoalescedRange then do
          let waste ← mulWord (← subWord span useful) 100
          let most ← mulWord useful maxWasteRatioPct
          if waste ≤ most then return { g with span, useful, chunks := g.chunks ++ [entry] } :: earlier
          else return fresh :: groups
        else return fresh :: groups
      else return fresh :: groups

def auditEntries : List ChunkMapEntry → List RangeGroup → Option (List RangeGroup)
  | [], groups => return groups.reverse
  | entry :: rest, groups => do auditEntries rest (← auditEntry groups entry)

/-- Planning with checked arithmetic. -/
def auditRangeGroups (missing : List ChunkMapEntry) : Option (List RangeGroup) :=
  auditEntries (missing.insertionSort fun a b => a.before b) []

end Words

section Cover

def ChunkMapEntry.stop (e : ChunkMapEntry) : Nat := e.packOffsetAbs.toNat + e.lenStored.toNat

/-- Where the chunks of a group lie, and the limits it keeps. -/
structure RangeGroup.Covers (g : RangeGroup) : Prop where
  own : ∀ e ∈ g.chunks, e.pack = g.pack
  inside : ∀ e ∈ g.chunks, g.start ≤ e.packOffsetAbs.toNat ∧ e.stop ≤ g.start + g.span
  close : g.chunks.IsChain fun a b => a.stop ≤ b.packOffsetAbs.toNat ∧ b.packOffsetAbs.toNat ≤ a.stop + maxCoalesceGap
  reach : ∃ last, g.chunks.getLast? = some last ∧ g.start + g.span = last.stop
  sum : g.useful = (g.chunks.map fun e => e.lenStored.toNat).sum
  short : g.chunks.length = 1 ∨ g.span ≤ maxCoalescedRange
  useful : g.useful ≤ g.span
  waste : (g.span - g.useful) * 100 ≤ g.useful * maxWasteRatioPct

variable {g : RangeGroup} {entry : ChunkMapEntry} {groups earlier : List RangeGroup}

theorem covers_fresh (entry : ChunkMapEntry) : RangeGroup.Covers
    ⟨entry.pack, entry.packOffsetAbs.toNat, entry.lenStored.toNat, entry.lenStored.toNat, [entry]⟩ where
  own := List.forall_mem_singleton.mpr rfl
  inside := List.forall_mem_singleton.mpr ⟨le_refl _, le_refl _⟩
  close := .singleton _
  reach := ⟨entry, rfl, rfl⟩
  sum := by simp
  short := .inl rfl
  useful := le_refl _
  waste := by simp

/-- A group goes on with a chunk behind it that keeps the limits. -/
theorem RangeGroup.Covers.extend (h : g.Covers) (same : g.pack = entry.pack)
    (behind : g.start + g.span ≤ entry.packOffsetAbs.toNat)
    (close : entry.packOffsetAbs.toNat - (g.start + g.span) ≤ maxCoalesceGap)
    (short : entry.stop - g.start ≤ maxCoalescedRange)
    (waste : (entry.stop - g.start - (g.useful + entry.lenStored.toNat)) * 100 ≤
      (g.useful + entry.lenStored.toNat) * maxWasteRatioPct) :
    RangeGroup.Covers { g with
      span := entry.stop - g.start
      useful := g.useful + entry.lenStored.toNat
      chunks := g.chunks ++ [entry] } := by
  have stop : entry.stop = entry.packOffsetAbs.toNat + entry.lenStored.toNat := rfl
  have whole : g.start + (entry.stop - g.start) = entry.stop := by omega
  obtain ⟨last, latest, reach⟩ := h.reach
  refine ⟨?_, ?_, ?_, ⟨entry, List.getLast?_concat, whole⟩, ?_, .inr short, ?_, waste⟩
  · intro e mem
    rcases List.mem_append.mp mem with old | new
    · exact h.own e old
    · rw [List.mem_singleton.mp new, same]
  · intro e mem
    change g.start ≤ _ ∧ e.stop ≤ g.start + (entry.stop - g.start)
    rw [whole]
    rcases List.mem_append.mp mem with old | new
    · have := h.inside e old
      omega
    · rw [List.mem_singleton.mp new]
      omega
  · refine List.isChain_append.mpr ⟨h.close, .singleton _, fun a there b here => ?_⟩
    rw [latest] at there
    cases there
    cases here
    omega
  · rw [h.sum, List.map_append, List.sum_append, List.map_singleton, List.sum_singleton]
  · have := h.useful
    change g.useful + entry.lenStored.toNat ≤ entry.stop - g.start
    omega

/-- Groups of which each covers its chunks and ends within a word. -/
def Covered (groups : List RangeGroup) : Prop := ∀ g ∈ groups, g.Covers ∧ g.start + g.span < 2 ^ 64

theorem covered_fresh (fits : entry.stop < 2 ^ 64) (h : Covered groups) : Covered
    (⟨entry.pack, entry.packOffsetAbs.toNat, entry.lenStored.toNat, entry.lenStored.toNat, [entry]⟩ :: groups) :=
  List.forall_mem_cons.mpr ⟨⟨covers_fresh entry, fits⟩, h⟩

/-- An entry is planned without a sum or difference that does not fit, and joins the groups. -/
theorem planEntry_covers (fits : entry.stop < 2 ^ 64) (covered : Covered groups) :
    ∃ next, auditEntry groups entry = some next ∧ (∀ s, planEntry groups entry s = .ret (.ok next, s)) ∧
      Covered next ∧ next.reverse.flatMap RangeGroup.chunks = groups.reverse.flatMap RangeGroup.chunks ++ [entry] := by
  have stop : entry.stop = entry.packOffsetAbs.toNat + entry.lenStored.toNat := rfl
  unfold auditEntry planEntry
  simp only [addWord_some fits, wordAdd_eq fits]
  cases groups with
  | nil => exact ⟨_, rfl, fun _ => rfl, covered_fresh fits covered, rfl⟩
  | cons g earlier =>
      obtain ⟨⟨here, word⟩, others⟩ := List.forall_mem_cons.mp covered
      have useful := here.useful
      simp only [wordAdd_eq word]
      by_cases joins : g.pack = entry.pack ∧ g.start + g.span ≤ entry.packOffsetAbs.toNat
      · obtain ⟨same, behind⟩ := joins
        have ends : g.start ≤ entry.packOffsetAbs.toNat + entry.lenStored.toNat := by omega
        have left : g.useful + entry.lenStored.toNat ≤ entry.packOffsetAbs.toNat + entry.lenStored.toNat - g.start := by omega
        have sum : g.useful + entry.lenStored.toNat < 2 ^ 64 := by omega
        simp only [addWord_some word, Option.bind_eq_bind, Option.bind_some, if_pos (And.intro same behind),
          addWord_some sum, subWord_some ends, subWord_some behind, wordAdd_eq sum, wordSub_eq ends, wordSub_eq left]
        by_cases limits : entry.packOffsetAbs.toNat - (g.start + g.span) ≤ maxCoalesceGap ∧
            entry.packOffsetAbs.toNat + entry.lenStored.toNat - g.start ≤ maxCoalescedRange
        · have range : maxCoalescedRange = 8 * 1024 * 1024 := rfl
          have ratio : maxWasteRatioPct = 15 := rfl
          have waste : (entry.packOffsetAbs.toNat + entry.lenStored.toNat - g.start -
              (g.useful + entry.lenStored.toNat)) * 100 < 2 ^ 64 := by omega
          have most : (g.useful + entry.lenStored.toNat) * maxWasteRatioPct < 2 ^ 64 := by
            rw [ratio]
            omega
          rw [if_pos limits, subWord_some left, Option.bind_some, mulWord_some waste, Option.bind_some,
            mulWord_some most, Option.bind_some, wordMul_eq waste, wordMul_eq most]
          by_cases little : (entry.packOffsetAbs.toNat + entry.lenStored.toNat - g.start -
              (g.useful + entry.lenStored.toNat)) * 100 ≤ (g.useful + entry.lenStored.toNat) * maxWasteRatioPct
          · have extended := here.extend same behind limits.1 limits.2 little
            rw [if_pos little, if_pos ⟨same, behind, limits.1, limits.2, little⟩]
            refine ⟨_, rfl, fun _ => rfl, List.forall_mem_cons.mpr ⟨⟨extended, ?_⟩, others⟩, by simp⟩
            change g.start + (entry.stop - g.start) < 2 ^ 64
            omega
          · rw [if_neg little, if_neg fun all => little all.2.2.2.2]
            exact ⟨_, rfl, fun _ => rfl, covered_fresh fits covered, by simp⟩
        · rw [if_neg limits, if_neg fun all => limits ⟨all.2.2.1, all.2.2.2.1⟩]
          exact ⟨_, rfl, fun _ => rfl, covered_fresh fits covered, by simp⟩
      · simp only [addWord_some word, Option.bind_eq_bind, Option.bind_some, if_neg joins]
        rw [if_neg fun all => joins ⟨all.1, all.2.1⟩]
        exact ⟨_, rfl, fun _ => rfl, covered_fresh fits covered, by simp⟩

theorem planEntries_cover {l : List ChunkMapEntry} (fits : ∀ e ∈ l, e.stop < 2 ^ 64) (covered : Covered groups) :
    ∃ planned, auditEntries l groups = some planned ∧ (∀ s, planEntries l groups s = .ret (.ok planned, s)) ∧
      Covered planned ∧ planned.flatMap RangeGroup.chunks = groups.reverse.flatMap RangeGroup.chunks ++ l := by
  induction l generalizing groups with
  | nil =>
      refine ⟨groups.reverse, rfl, fun _ => rfl, fun g mem => covered g (List.mem_reverse.mp mem), ?_⟩
      rw [List.append_nil]
  | cons entry rest ih =>
      obtain ⟨here, later⟩ := List.forall_mem_cons.mp fits
      obtain ⟨next, audited, first, covered', chunks⟩ := planEntry_covers here covered
      obtain ⟨planned, audited', run, covered'', all⟩ := ih later covered'
      refine ⟨planned, ?_, fun s => ?_, covered'', by rw [all, chunks, List.append_assoc, List.singleton_append]⟩
      · rw [auditEntries, audited]
        exact audited'
      · rw [planEntries]
        change (planEntry groups entry s >>= _) = _
        rw [first]
        exact run s

end Cover

section Slices
variable (env : ContainerEnv) (replies : Nat → Except Unit Bytes)

theorem request_results : Results (· ≠ .panics) (fun _ => True) (request replies) :=
  Results.get.bind fun _ _ => (Results.modify _).bind fun _ _ => Results.pure trivial

/-- An answer that is accepted is as long as it has to be. -/
theorem getRangeRetrying_results (pack : String) (offset len : Nat) :
    Results (· ≠ .panics) (fun b : Bytes => len ≤ b.length) (getRangeRetrying replies pack offset len) := by
  have again : ∀ {f : Except Unit Bytes → F Bytes} {e : FetchError},
      (∀ bytes, f (.ok bytes) = if bytes.length ≥ len then pure bytes
        else FileProg.Eff.throw (.fails (.rangeLengthMismatch pack bytes.length len offset))) →
      (∀ u, f (.error u) = FileProg.Eff.throw (.fails e)) →
      Results (· ≠ .panics) (fun b : Bytes => len ≤ b.length) (request replies >>= f) := by
    intro f e long short
    apply (request_results replies).bind
    intro reply _
    cases reply with
    | error u =>
        rw [short]
        exact .throw fun bad => by cases bad
    | ok bytes =>
        rw [long]
        split
        · exact .pure ‹_›
        · exact .throw fun bad => by cases bad
  apply (request_results replies).bind
  intro reply _
  cases reply with
  | error e => exact again (fun _ => rfl) fun _ => rfl
  | ok bytes =>
      dsimp only
      split
      · exact .pure ‹_›
      · exact again (fun _ => rfl) fun _ => rfl

theorem cachePut_results (hash : ChunkHash) (payload : Bytes) :
    Results (· ≠ .panics) (fun _ => True) (cachePut hash payload) := by
  unfold cachePut
  apply (Results.op _).bind
  intro found _
  split
  · exact .pure trivial
  · apply (Results.op _).bind
    intro r _
    apply (Results.orThrow (fun _ => nofun) _).bind
    intro _ _
    apply (Results.op _).bind
    intro r _
    apply (Results.orThrow (fun _ => nofun) _).bind
    intro _ _
    apply (Results.op _).bind
    intro r _
    exact Results.orThrow (fun _ => nofun) _

/-- A chunk that lies in the answer is cut out of it. -/
theorem fetchEntry_results {g : RangeGroup} {wire : Bytes} {entry : ChunkMapEntry}
    (inside : g.start ≤ entry.packOffsetAbs.toNat ∧ entry.stop ≤ g.start + g.span) (long : g.span ≤ wire.length) :
    Results (· ≠ .panics) (fun _ => True) (fetchEntry env replies g wire entry) := by
  have stop : entry.stop = entry.packOffsetAbs.toNat + entry.lenStored.toNat := rfl
  unfold fetchEntry
  cases named : fromHex entry.hash with
  | none => exact .throw nofun
  | some hash =>
      dsimp only
      rw [if_neg (by omega)]
      apply Results.bind (R := fun _ => True)
      · split
        · exact .pure trivial
        · apply (Results.modify _).bind
          intro _ _
          apply (getRangeRetrying_results replies _ _ _).bind
          intro alone _
          apply (Results.modify _).bind
          intro _ _
          split
          · exact .pure trivial
          · exact .throw nofun
      · intro raw _
        exact (Results.modify _).bind fun _ _ => cachePut_results hash raw

/-- No slice of an answer that was accepted is out of range. -/
theorem fetchGroup_results {g : RangeGroup} (covers : g.Covers) :
    Results (· ≠ .panics) (fun _ => True) (fetchGroup env replies g) := by
  apply (getRangeRetrying_results replies _ _ _).bind
  intro wire long
  apply (Results.modify _).bind
  intro _ _
  apply (Results.forEach fun entry mem => fetchEntry_results env replies (covers.inside entry mem) long).bind
  intro _ _
  exact .modify _

end Slices

/-- Planned groups have each missing chunk once, in a range of its own pack that keeps the
limits; no sum or difference on the way leaves its word; and each group is fetched without
a slice outside the answer. -/
theorem planRangeGroups_covers (missing : List ChunkMapEntry) (fits : ∀ e ∈ missing, e.stop < 2 ^ 64) :
    ∃ groups, auditRangeGroups missing = some groups ∧ (∀ s, planRangeGroups missing s = .ret (.ok groups, s)) ∧
      (groups.flatMap RangeGroup.chunks).Perm missing ∧ (∀ g ∈ groups, g.Covers) ∧
      ∀ g ∈ groups, ∀ env replies, Results (· ≠ .panics) (fun _ => True) (fetchGroup env replies g) := by
  have sorted : (missing.insertionSort fun a b => a.before b).Perm missing := List.perm_insertionSort _ _
  obtain ⟨groups, audited, run, covered, all⟩ :=
    @planEntries_cover [] _ (fun e mem => fits e (sorted.mem_iff.mp mem)) (fun _ => nofun)
  refine ⟨groups, audited, run, ?_, fun g mem => (covered g mem).1, fun g mem env replies => ?_⟩
  · rw [all]
    exact sorted
  · exact fetchGroup_results env replies (covered g mem).1

/-- Two chunks that overlap and one of no bytes. -/
theorem planRangeGroups_covers_overlapping : ∃ groups,
    auditRangeGroups [⟨"b", 8, 8, 0, "p", 4⟩, ⟨"a", 8, 8, 0, "p", 0⟩, ⟨"c", 0, 0, 0, "p", 12⟩] = some groups ∧
      ∀ g ∈ groups, g.Covers :=
  have ⟨groups, audited, _, _, covers, _⟩ := planRangeGroups_covers
    [⟨"b", 8, 8, 0, "p", 4⟩, ⟨"a", 8, 8, 0, "p", 0⟩, ⟨"c", 0, 0, 0, "p", 12⟩] (by decide)
  ⟨groups, audited, covers⟩

end Cavs
