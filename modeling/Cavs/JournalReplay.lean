import Cavs.JournalApply

/-!
# What replaying a journal does

A sealed record is found whole or not at all, so a torn append ends a replay at
the last record boundary. What a replay went over stays what it is when more is
appended, and is skipped by every ledger of the same generation or a later one.
-/
namespace Cavs
open FileProg (Bytes)
open ByteScan
open Std (ExtTreeMap ExtTreeSet)
open List (append_assoc length_append length_drop length_take take_left')

variable {env : Env} {file file' : JournalFile}

section Sealing
variable {generation n : Nat} {body rest bytes record : Bytes}

def journalHeader (generation bodyLen : Nat) : Bytes :=
  journalMagic ++ (le 2 journalVersion ++ (le 2 0 ++ (le 4 bodyLen ++ le 8 generation)))

@[simp] theorem journalHeader_length (g l : Nat) : (journalHeader g l).length = 24 := by
  simp [journalHeader, journalMagic]

theorem sealRecord_eq : sealRecord env generation body =
    journalHeader generation body.length ++ (body ++
      (env.hashChunk (journalHeader generation body.length ++ body)).1) := by
  simp [sealRecord, journalHeader]

@[simp] theorem sealRecord_length : (sealRecord env generation body).length = 56 + body.length := by
  rw [sealRecord_eq, length_append, length_append, journalHeader_length,
    (env.hashChunk _).2]
  omega

theorem recordBody_sealRecord : recordBody (sealRecord env generation body) = body := by
  have cut : (sealRecord env generation body).length - journalSealSize =
      (journalHeader generation body.length ++ body).length := by
    simp [journalSealSize]; omega
  rw [recordBody, cut, sealRecord_eq, ← append_assoc, take_left',
    List.drop_left' (by simp [journalHeaderSize])]
  rfl

/-- What the fields of a header read as, whatever follows it. -/
theorem journalHeader_fields (rest : Bytes) (g l : Nat) :
    (journalHeader g l ++ rest).take 8 = journalMagic ∧
    ((journalHeader g l ++ rest).drop 8).take 2 = le 2 journalVersion ∧
    ((journalHeader g l ++ rest).drop 12).take 4 = le 4 l ∧
    ((journalHeader g l ++ rest).drop 16).take 8 = le 8 g := by
  refine ⟨?_, ?_, ?_, ?_⟩ <;>
    simp [journalHeader, journalMagic, le]

theorem nextJournalRecord_sealRecord (small : body.length < 2 ^ 32) (width : generation < 2 ^ 64) :
    nextJournalRecord env (sealRecord env generation body ++ rest) =
      some (sealRecord env generation body, generation) := by
  obtain ⟨magic, version, len, gen⟩ := journalHeader_fields (body ++
    (env.hashChunk (journalHeader generation body.length ++ body)).1 ++ rest) generation body.length
  have shape : sealRecord env generation body ++ rest = journalHeader generation body.length ++
      (body ++ (env.hashChunk (journalHeader generation body.length ++ body)).1 ++ rest) := by
    rw [sealRecord_eq]; simp
  have bodyLen : ofLe (le 4 body.length) = body.length := ofLe_le small
  have total : journalHeaderSize + body.length + journalSealSize =
      (sealRecord env generation body).length := by
    simp [journalHeaderSize, journalSealSize]; omega
  have whole : (sealRecord env generation body ++ rest).take (sealRecord env generation body).length =
      sealRecord env generation body := take_left' rfl
  have front : (sealRecord env generation body ++ rest).take
      ((sealRecord env generation body).length - journalSealSize) =
      journalHeader generation body.length ++ body := by
    rw [shape, append_assoc body, ← append_assoc]
    refine take_left' ?_
    simp [journalSealSize]; omega
  have back : (sealRecord env generation body).drop
      ((sealRecord env generation body).length - journalSealSize) =
      (env.hashChunk (journalHeader generation body.length ++ body)).1 := by
    rw [show (sealRecord env generation body).length - journalSealSize =
      (journalHeader generation body.length ++ body).length by simp [journalSealSize]; omega,
      sealRecord_eq, ← append_assoc, List.drop_left']
    rfl
  have long : ¬ ((sealRecord env generation body ++ rest).length <
      journalHeaderSize + journalSealSize) := by
    simp [journalHeaderSize, journalSealSize]; omega
  rw [← shape] at magic version len gen
  rw [nextJournalRecord, if_neg (by rw [magic]; simpa using long), version, len, gen, bodyLen, total,
    if_neg (by decide), if_neg (by simp), front, whole, back, if_neg (by simp), ofLe_le width]

/-- A record cut short is no record. -/
theorem nextJournalRecord_torn (small : body.length < 2 ^ 32) (cut : n < (sealRecord env generation body).length) :
    nextJournalRecord env ((sealRecord env generation body).take n) = none := by
  rw [nextJournalRecord]
  split
  · rfl
  · rename_i enough
    simp only [not_or, not_lt, journalHeaderSize, journalSealSize, length_take] at enough
    obtain ⟨k, rfl⟩ : ∃ k, n = 24 + k := ⟨n - 24, by omega⟩
    have shape : (sealRecord env generation body).take (24 + k) =
        journalHeader generation body.length ++
          (body ++ (env.hashChunk (journalHeader generation body.length ++ body)).1).take k := by
      rw [sealRecord_eq, List.take_append, journalHeader_length,
        List.take_of_length_le (by simp), Nat.add_sub_cancel_left]
    obtain ⟨-, version, len, -⟩ := journalHeader_fields ((body ++
      (env.hashChunk (journalHeader generation body.length ++ body)).1).take k) generation body.length
    rw [← shape] at version len
    have bodyLen : ofLe (le 4 body.length) = body.length := ofLe_le small
    rw [version, len, bodyLen, if_neg (by decide)]
    refine if_pos ?_
    simp only [length_take, journalHeaderSize, journalSealSize]
    rw [sealRecord_length] at cut
    omega

theorem nextJournalRecord_some {g : Nat} (h : nextJournalRecord env bytes = some (record, g)) :
    56 ≤ record.length ∧ record.length ≤ bytes.length ∧ record = bytes.take record.length := by
  rw [nextJournalRecord] at h
  split at h
  · cases h
  · split at h
    · cases h
    · dsimp only at h
      split at h
      · cases h
      · split at h
        · cases h
        · rename_i total _
          simp only [Option.some.injEq, Prod.mk.injEq] at h
          obtain ⟨rfl, -⟩ := h
          simp only [not_lt, journalHeaderSize, journalSealSize] at total ⊢
          refine ⟨?_, ?_, ?_⟩
          · rw [length_take]; omega
          · rw [length_take]; omega
          · rw [length_take, Nat.min_eq_left total]

theorem nextJournalRecord_append {g : Nat} (h : nextJournalRecord env bytes = some (record, g)) :
    nextJournalRecord env (bytes ++ rest) = some (record, g) := by
  rw [nextJournalRecord] at h
  split at h
  · cases h
  · rename_i start
    split at h
    · cases h
    · rename_i version
      dsimp only at h
      split at h
      · cases h
      · rename_i total
        have hs : journalHeaderSize = 24 := rfl
        have ss : journalSealSize = 32 := rfl
        simp only [not_or, not_lt, ne_eq, not_not] at start total
        have take : ∀ k, k ≤ bytes.length → (bytes ++ rest).take k = bytes.take k :=
          fun k hk => List.take_append_of_le_length hk
        have field : ∀ a k, a + k ≤ bytes.length →
            ((bytes ++ rest).drop a).take k = (bytes.drop a).take k := by
          intro a k hk
          rw [List.drop_append_of_le_length (by omega), List.take_append_of_le_length]
          rw [length_drop]; omega
        rw [nextJournalRecord, if_neg, field 8 2 (by omega), if_neg version]
        · simp only [field 12 4 (by omega), field 16 8 (by omega), take _ total,
            take _ ((Nat.sub_le _ _).trans total)]
          rw [if_neg (by rw [length_append]; omega)]
          exact h
        · rw [take 8 (by omega)]
          simp only [not_or, not_lt, ne_eq, not_not, length_append]
          exact ⟨by omega, start.2⟩

end Sealing

section Loop
variable {pos pos' : Nat} {bytes rest good record : Bytes} {index result later : Index}

theorem replayStep_len {len : Nat} (h : replayStep env file pos bytes index = .ok (result, len)) :
    56 ≤ len ∧ len ≤ bytes.length := by
  rw [replayStep] at h
  split at h
  · cases h
  · rename_i record generation found
    obtain ⟨long, within, -⟩ := nextJournalRecord_some found
    split at h
    · split at h
      · cases h; exact ⟨long, within⟩
      · cases h
    · split at h
      · cases h
      · cases h; exact ⟨long, within⟩

theorem replayStep_append {len : Nat} (h : replayStep env file pos bytes index = .ok (result, len)) :
    replayStep env file pos (bytes ++ rest) index = .ok (result, len) := by
  cases found : nextJournalRecord env bytes with
  | none => rw [replayStep, found] at h; cases h
  | some r =>
      rw [replayStep, found] at h
      rw [replayStep, nextJournalRecord_append found]
      exact h

/-- The loop does not need more fuel than there are bytes. -/
theorem replayLoop_fuel {fuel fuel' : Nat} (enough : bytes.length < fuel) (enough' : bytes.length < fuel') :
    replayLoop env file fuel pos bytes index = replayLoop env file fuel' pos bytes index := by
  induction fuel generalizing fuel' pos bytes index with
  | zero => omega
  | succ fuel ih =>
      cases fuel' with
      | zero => omega
      | succ fuel' =>
          rw [replayLoop, replayLoop]
          cases step : replayStep env file pos bytes index with
          | error index' => rfl
          | ok next =>
              obtain ⟨long, within⟩ := @replayStep_len _ _ _ _ _ next.1 next.2 step
              exact ih (by rw [length_drop]; omega) (by rw [length_drop]; omega)

/-- The replay of what is left of a journal from `pos` on. -/
def replayRest (env : Env) (file : JournalFile) (pos : Nat) (bytes : Bytes) (index : Index) :
    Index × Nat := replayLoop env file (bytes.length + 1) pos bytes index

theorem replayRest_error (h : replayStep env file pos bytes index = .error result) :
    replayRest env file pos bytes index = (result, pos) := by
  rw [replayRest, replayLoop, h]

theorem replayRest_ok {len : Nat} (h : replayStep env file pos bytes index = .ok (result, len)) :
    replayRest env file pos bytes index = replayRest env file (pos + len) (bytes.drop len) result := by
  obtain ⟨long, within⟩ := replayStep_len h
  rw [replayRest, replayLoop, h]
  exact replayLoop_fuel (by rw [length_drop]; omega) (by omega)

theorem replayRest_dead (h : nextJournalRecord env bytes = none) :
    replayRest env file pos bytes index = (index, pos) :=
  replayRest_error (by rw [replayStep, h])

theorem replayBytes_eq (start : Nat) (within : start ≤ bytes.length) :
    replayBytes env file index bytes start =
      ((replayRest env file start (bytes.drop start) index).1,
        ⟨(replayRest env file start (bytes.drop start) index).2, bytes.length⟩) := by
  have fuel : replayLoop env file (bytes.length + 1) start (bytes.drop start) index =
      replayLoop env file ((bytes.drop start).length + 1) start (bytes.drop start) index := replayLoop_fuel
    (by rw [length_drop]; omega) (by omega)
  simp only [replayBytes, Nat.min_eq_left within, fuel, replayRest]

/-- The whole of `bytes` is records the ledger takes or skips. -/
def Replays (env : Env) (file : JournalFile) (pos : Nat) (bytes : Bytes) (index result : Index) :
    Prop := replayRest env file pos bytes index = (result, pos + bytes.length)

theorem Replays.nil : Replays env file pos [] index index := replayRest_dead rfl

/-- One round of a replay that goes over all of its bytes. -/
theorem Replays.uncons (h : Replays env file pos bytes index result) (more : bytes ≠ []) :
    ∃ middle len, replayStep env file pos bytes index = .ok (middle, len) ∧ len ≤ bytes.length ∧
      0 < len ∧ Replays env file (pos + len) (bytes.drop len) middle result := by
  cases step : replayStep env file pos bytes index with
  | error stopped =>
      rw [Replays, replayRest_error step, Prod.mk.injEq] at h
      have := List.length_pos_iff.mpr more
      omega
  | ok next =>
      obtain ⟨middle, len⟩ := next
      obtain ⟨long, within⟩ := replayStep_len step
      refine ⟨middle, len, rfl, within, by omega, ?_⟩
      rw [Replays, replayRest_ok step] at h
      rw [Replays, h, length_drop]
      congr 1
      omega

theorem Replays.append (h : Replays env file pos good index result) :
    replayRest env file pos (good ++ rest) index =
      replayRest env file (pos + good.length) rest result := by
  induction size : good.length using Nat.strong_induction_on generalizing pos good index with
  | _ n ih =>
      by_cases empty : good = []
      · subst empty
        rw [Replays, replayRest_dead rfl, Prod.mk.injEq] at h
        subst size
        rw [h.1]
        rfl
      · obtain ⟨middle, len, step, within, positive, tail⟩ := h.uncons empty
        rw [replayRest_ok (replayStep_append step), List.drop_append_of_le_length within,
          ih (good.drop len).length (by rw [length_drop]; omega) tail rfl, length_drop]
        congr 1
        omega

theorem Replays.trans {other : Bytes} {last : Index} (h : Replays env file pos good index result)
    (h' : Replays env file (pos + good.length) other result last) :
    Replays env file pos (good ++ other) index last := by
  rw [Replays, h.append, h', length_append, Nat.add_assoc]

theorem Replays.generation_le (h : Replays env file pos bytes index result) :
    index.generation ≤ result.generation := by
  induction size : bytes.length using Nat.strong_induction_on generalizing pos bytes index with
  | _ n ih =>
      by_cases empty : bytes = []
      · subst empty
        rw [Replays, replayRest_dead rfl, Prod.mk.injEq] at h
        rw [h.1]
      · obtain ⟨middle, len, step, within, positive, tail⟩ := h.uncons empty
        have rest := ih (bytes.drop len).length (by rw [length_drop]; omega) tail rfl
        refine le_trans ?_ rest
        rw [replayStep] at step
        split at step
        · cases step
        · split at step
          · split at step
            · cases step; dsimp only; omega
            · cases step
          · split at step
            · cases step
            · cases step; exact le_refl _

/-- A ledger as new as what a journal led to skips all of it. -/
theorem Replays.stale (h : Replays env file pos bytes index result) (newer : result.generation ≤ later.generation) :
    Replays env file' pos' bytes later later := by
  induction size : bytes.length using Nat.strong_induction_on generalizing pos pos' bytes index with
  | _ n ih =>
      by_cases empty : bytes = []
      · subst empty; exact Replays.nil
      · obtain ⟨middle, len, step, within, positive, tail⟩ := h.uncons empty
        have skip : replayStep env file' pos' bytes later = .ok (later, len) := by
          have bound := tail.generation_le
          rw [replayStep] at step ⊢
          split at step
          · cases step
          · rename_i record generation found
            split at step
            · split at step
              · cases step
                dsimp only at bound
                rw [if_neg (by omega), if_neg (by omega)]
              · cases step
            · split at step
              · cases step
              · cases step
                rw [if_neg (by omega), if_neg (by omega)]
        have rest : Replays env file' (pos' + len) (bytes.drop len) later later :=
          ih (bytes.drop len).length (by rw [length_drop]; omega) tail rfl
        rw [Replays, replayRest_ok skip, rest, length_drop]
        congr 1
        omega

/-- A record of the next generation is applied. -/
theorem replays_record {generation : Nat} {body : Bytes} {applied : Index} (small : body.length < 2 ^ 32)
    (width : generation < 2 ^ 64) (follows : generation = index.generation + 1)
    (apply : applyRecord file (pos + journalHeaderSize) index body = (.ok (), applied)) :
    Replays env file pos (sealRecord env generation body) index
      { applied with generation := generation } := by
  have step : replayStep env file pos (sealRecord env generation body ++ []) index =
      .ok ({ applied with generation := generation }, (sealRecord env generation body).length) := by
    rw [replayStep, nextJournalRecord_sealRecord small width]
    dsimp only
    rw [if_pos follows, recordBody_sealRecord, apply]
  rw [List.append_nil] at step
  rw [Replays, replayRest_ok step, List.drop_length, replayRest_dead rfl]

end Loop
end Cavs
