import Mathlib.Data.List.Basic
import Mathlib.Logic.Relation

/-!
# Adaptive concurrency

A fetch in its automatic mode moves one limit: a clean window raises it by one, a push back of
the remote halves it. A gate in front of the workers admits them under the limit of the moment.
-/
namespace Cavs.Adaptive
open Relation (ReflTransGen)

/-- One second, in nanoseconds. -/
def WINDOW : Nat := 1000000000

def DECREASE_COOLDOWN : Nat := 1000000000

structure AimdWindow where
  windowStart : Nat
  successes : Nat
  pressure : Nat
  lastDecrease : Option Nat
  deriving DecidableEq, Repr

structure AimdController where
  min : Nat
  max : Nat
  limit : Nat
  decreases : Nat
  window : AimdWindow
  deriving DecidableEq, Repr

namespace AimdController

/-- The clamp stops the program when the floor is above the ceiling. -/
def new (min initial max created : Nat) : Option AimdController :=
  if min ≤ max then
    some ⟨min, max, Min.min (Max.max initial min) max, 0, ⟨created, 0, 0, none⟩⟩
  else none

/-- Times that run backwards count as no time at all, as `Instant` has it. -/
def onSuccessAt (c : AimdController) (now : Nat) : AimdController :=
  let successes := c.window.successes + 1
  if WINDOW ≤ now - c.window.windowStart then
    { c with
      limit := if 1 ≤ successes ∧ c.window.pressure = 0 ∧ c.limit < c.max then c.limit + 1 else c.limit
      window := { c.window with windowStart := now, successes := 0, pressure := 0 } }
  else { c with window := { c.window with successes } }

def cooled (c : AimdController) (now : Nat) : Bool :=
  match c.window.lastDecrease with
  | none => true
  | some t => decide (DECREASE_COOLDOWN ≤ now - t)

def onPressureAt (c : AimdController) (now : Nat) : AimdController :=
  let poisoned := { c.window with pressure := c.window.pressure + 1 }
  let next := Max.max (c.limit / 2) c.min
  if c.cooled now = true ∧ next < c.limit then
    { c with limit := next, decreases := c.decreases + 1, window := { poisoned with lastDecrease := some now } }
  else { c with window := poisoned }

end AimdController

/-- What the fetch tells the controller, and when. -/
inductive Event where
  | success (now : Nat)
  | pressure (now : Nat)
  deriving DecidableEq, Repr

def Event.now : Event → Nat
  | .success now | .pressure now => now

def Event.isPressure : Event → Bool
  | .success _ => false
  | .pressure _ => true

namespace AimdController

def step (c : AimdController) : Event → AimdController
  | .success now => c.onSuccessAt now
  | .pressure now => c.onPressureAt now

def run (c : AimdController) (events : List Event) : AimdController := events.foldl step c

/-- The event at which an evaluation window ends. -/
def Rolls (c : AimdController) : Event → Prop
  | .success now => WINDOW ≤ now - c.window.windowStart
  | .pressure _ => False

instance (c : AimdController) (e : Event) : Decidable (c.Rolls e) := by
  cases e with
  | success now => exact inferInstanceAs (Decidable (_ ≤ _))
  | pressure now => exact inferInstanceAs (Decidable False)

def Raises (c : AimdController) (e : Event) : Prop := c.limit < (c.step e).limit

def Lowers (c : AimdController) (e : Event) : Prop := (c.step e).limit < c.limit

/-- The events of the evaluation window that is open after some events, given those of the
window that was open before them. -/
def windowOf (c : AimdController) (seen : List Event) : List Event → List Event
  | [] => seen
  | e :: rest => (c.step e).windowOf (if c.Rolls e then [] else seen ++ [e]) rest

/-- How many windows without a pressure event end among some events. -/
def cleanWindows (c : AimdController) (seen : List Event) : List Event → Nat
  | [] => 0
  | e :: rest =>
      if c.Rolls e then
        (if seen.any Event.isPressure then 0 else 1) + (c.step e).cleanWindows [] rest
      else (c.step e).cleanWindows (seen ++ [e]) rest

end AimdController

/-! ## One event -/

/-- All that an event can do to a controller. -/
inductive Moved (c : AimdController) : Event → AimdController → Prop
  | rolled (now : Nat) : c.Rolls (.success now) → c.window.windowStart + WINDOW ≤ now →
      Moved c (.success now)
        { c with
          limit := if c.window.pressure = 0 ∧ c.limit < c.max then c.limit + 1 else c.limit
          window := { c.window with windowStart := now, successes := 0, pressure := 0 } }
  | noted (now : Nat) : ¬ c.Rolls (.success now) →
      Moved c (.success now) { c with window := { c.window with successes := c.window.successes + 1 } }
  | poisoned (now : Nat) :
      Moved c (.pressure now) { c with window := { c.window with pressure := c.window.pressure + 1 } }
  | lowered (now : Nat) : (∀ t, c.window.lastDecrease = some t → t + DECREASE_COOLDOWN ≤ now) →
      max (c.limit / 2) c.min < c.limit →
      Moved c (.pressure now)
        { c with
          limit := max (c.limit / 2) c.min
          decreases := c.decreases + 1
          window := { c.window with pressure := c.window.pressure + 1, lastDecrease := some now } }

theorem cooled_spaced {c : AimdController} {now t : Nat} (cooled : c.cooled now = true)
    (last : c.window.lastDecrease = some t) : t + DECREASE_COOLDOWN ≤ now := by
  have due : DECREASE_COOLDOWN ≤ now - t := by simpa [AimdController.cooled, last] using cooled
  simp only [DECREASE_COOLDOWN] at due ⊢
  omega

theorem moved_step (c : AimdController) (e : Event) : Moved c e (c.step e) := by
  cases e with
  | success now =>
      rw [AimdController.step, AimdController.onSuccessAt]
      by_cases due : WINDOW ≤ now - c.window.windowStart
      · simp only [if_pos due, Nat.le_add_left, true_and]
        refine .rolled now due ?_
        simp only [WINDOW] at due ⊢
        omega
      · simp only [if_neg due]
        exact .noted now due
  | pressure now =>
      rw [AimdController.step, AimdController.onPressureAt]
      by_cases lower : c.cooled now = true ∧ max (c.limit / 2) c.min < c.limit
      · simp only [if_pos lower]
        exact .lowered now (fun t => cooled_spaced lower.1) lower.2
      · simp only [if_neg lower]
        exact .poisoned now

section Run
variable {c d : AimdController} {e : Event} {seen events : List Event}

@[simp] theorem run_nil : c.run [] = c := rfl

@[simp] theorem run_cons : c.run (e :: events) = (c.step e).run events := rfl

theorem run_append (first second : List Event) : c.run (first ++ second) = (c.run first).run second :=
  List.foldl_append

theorem run_middle (events between : List Event) :
    c.run (events ++ e :: between) = ((c.run events).step e).run between := by
  rw [run_append, run_cons]

/-- The floor and the ceiling stay, and the limit stays between them. -/
theorem Moved.within (moved : Moved c e d) (within : c.min ≤ c.limit ∧ c.limit ≤ c.max) :
    d.min = c.min ∧ d.max = c.max ∧ c.min ≤ d.limit ∧ d.limit ≤ c.max := by
  cases moved with
  | rolled => exact ⟨rfl, rfl, by dsimp only; split <;> omega, by dsimp only; split <;> omega⟩
  | noted => exact ⟨rfl, rfl, within⟩
  | poisoned => exact ⟨rfl, rfl, within⟩
  | lowered _ _ less => exact ⟨rfl, rfl, Nat.le_max_right _ _, by dsimp only; omega⟩

theorem run_within (within : c.min ≤ c.limit ∧ c.limit ≤ c.max) :
    c.min ≤ (c.run events).limit ∧ (c.run events).limit ≤ c.max := by
  induction events generalizing c with
  | nil => exact within
  | cons e events ih =>
      obtain ⟨floor, ceiling, inside⟩ := (moved_step c e).within within
      rw [← floor, ← ceiling] at inside ⊢
      exact ih inside

/-- A raise is by one, and ends a window that has lasted long enough and saw no pressure. -/
theorem Moved.raises (moved : Moved c e d) (raises : c.limit < d.limit) : c.Rolls e ∧ c.window.pressure = 0 ∧
    d.limit = c.limit + 1 ∧ c.window.windowStart + WINDOW ≤ e.now ∧ d.window.windowStart = e.now := by
  cases moved with
  | rolled now rolls late =>
      by_cases earns : c.window.pressure = 0 ∧ c.limit < c.max
      · exact ⟨rolls, earns.1, if_pos earns, late, rfl⟩
      · simp only [if_neg earns, Nat.lt_irrefl] at raises
  | noted => exact absurd raises (Nat.lt_irrefl _)
  | poisoned => exact absurd raises (Nat.lt_irrefl _)
  | lowered _ _ less => exact absurd raises (Nat.lt_asymm less)

theorem Moved.lowers (moved : Moved c e d) (lowers : d.limit < c.limit) :
    (∀ t, c.window.lastDecrease = some t → t + DECREASE_COOLDOWN ≤ e.now) ∧ c.limit / 2 ≤ d.limit ∧
      d.decreases = c.decreases + 1 ∧ d.window.lastDecrease = some e.now := by
  cases moved with
  | rolled =>
      dsimp only at lowers
      split at lowers <;> omega
  | noted => exact absurd lowers (Nat.lt_irrefl _)
  | poisoned => exact absurd lowers (Nat.lt_irrefl _)
  | lowered now cooled => exact ⟨cooled, Nat.le_max_left _ _, rfl, rfl⟩

/-- Only a lower limit is counted as a decrease. -/
theorem Moved.counted (moved : Moved c e d) : d.decreases = c.decreases + 1 ↔ d.limit < c.limit := by
  refine ⟨fun counted => ?_, fun lowers => (moved.lowers lowers).2.2.1⟩
  cases moved with
  | rolled | noted | poisoned => exact absurd counted (Nat.ne_of_lt (Nat.lt_succ_self _))
  | lowered _ _ less => exact less

/-- The start of a window moves forward only. -/
theorem Moved.windowStart_le (moved : Moved c e d) : c.window.windowStart ≤ d.window.windowStart := by
  cases moved with
  | rolled now _ late => exact Nat.le_trans (Nat.le_add_right _ _) late
  | noted => exact Nat.le_refl _
  | poisoned => exact Nat.le_refl _
  | lowered => exact Nat.le_refl _

theorem run_windowStart_le (c : AimdController) (events : List Event) :
    c.window.windowStart ≤ (c.run events).window.windowStart := by
  induction events generalizing c with
  | nil => exact Nat.le_refl _
  | cons e events ih => exact Nat.le_trans (moved_step c e).windowStart_le (ih (c.step e))

theorem Moved.lastDecrease_le {t : Nat} (moved : Moved c e d) (last : c.window.lastDecrease = some t) :
    ∃ u, d.window.lastDecrease = some u ∧ t ≤ u := by
  cases moved with
  | rolled => exact ⟨t, last, Nat.le_refl t⟩
  | noted => exact ⟨t, last, Nat.le_refl t⟩
  | poisoned => exact ⟨t, last, Nat.le_refl t⟩
  | lowered now cooled => exact ⟨now, rfl, Nat.le_trans (Nat.le_add_right _ _) (cooled t last)⟩

theorem run_lastDecrease_le {t : Nat} (events : List Event) (last : c.window.lastDecrease = some t) :
    ∃ u, (c.run events).window.lastDecrease = some u ∧ t ≤ u := by
  induction events generalizing c t with
  | nil => exact ⟨t, last, Nat.le_refl t⟩
  | cons e events ih =>
      obtain ⟨v, next, earlier⟩ := (moved_step c e).lastDecrease_le last
      obtain ⟨u, final, le⟩ := ih next
      exact ⟨u, final, Nat.le_trans earlier le⟩

/-! ## Windows -/

/-- The controller counts the pressure events of the open window. -/
def Counts (c : AimdController) (seen : List Event) : Prop :=
  c.window.pressure = 0 ↔ seen.any Event.isPressure = false

theorem Moved.counts (moved : Moved c e d) (counts : Counts c seen) :
    Counts d (if c.Rolls e then [] else seen ++ [e]) := by
  cases moved with
  | rolled now rolls => simp [Counts, rolls]
  | noted now stays => simpa [Counts, stays, Event.isPressure] using counts
  | poisoned now | lowered now => simp [Counts, AimdController.Rolls, Event.isPressure]

theorem counts_run (counts : Counts c seen) : Counts (c.run events) (c.windowOf seen events) := by
  induction events generalizing c seen with
  | nil => exact counts
  | cons e events ih => exact ih ((moved_step c e).counts counts)

/-- Only the end of a clean window gains anything, and it gains one. -/
theorem Moved.gains (moved : Moved c e d) :
    d.limit ≤ c.limit + if c.Rolls e ∧ c.window.pressure = 0 then 1 else 0 := by
  cases moved with
  | rolled now rolls =>
      by_cases clean : c.window.pressure = 0
      · simp only [rolls, clean, true_and, if_true]
        split <;> omega
      · simp [clean]
  | noted => exact Nat.le_add_right _ _
  | poisoned => exact Nat.le_add_right _ _
  | lowered _ _ less => exact Nat.le_trans (Nat.le_of_lt less) (Nat.le_add_right _ _)

theorem limit_le_cleanWindows (counts : Counts c seen) (events : List Event) :
    (c.run events).limit ≤ c.limit + c.cleanWindows seen events := by
  induction events generalizing c seen with
  | nil => exact Nat.le_refl _
  | cons e events ih =>
      have gains := (moved_step c e).gains
      have rest := ih ((moved_step c e).counts counts)
      rw [run_cons, AimdController.cleanWindows]
      by_cases rolls : c.Rolls e
      · simp only [rolls, true_and, if_true] at gains rest ⊢
        by_cases clean : c.window.pressure = 0
        · rw [if_pos clean] at gains
          rw [counts.mp clean, if_neg Bool.false_ne_true]
          omega
        · rw [if_neg clean] at gains
          omega
      · simp only [rolls, false_and, if_false] at gains rest ⊢
        omega

/-! ## The law of the controller -/

/-- What holds over every run of a controller, whatever the times of its events are. -/
structure Lawful (c : AimdController) : Prop where
  within : ∀ events, c.min ≤ (c.run events).limit ∧ (c.run events).limit ≤ c.max
  raise_one : ∀ events e, (c.run events).Raises e → ((c.run events).step e).limit = (c.run events).limit + 1
  raise_spaced : ∀ events e between later, (c.run events).Raises e →
    (c.run (events ++ e :: between)).Raises later → e.now + WINDOW ≤ later.now
  raise_clean : ∀ events e, (c.run events).Raises e → ∀ p ∈ c.windowOf [] events ++ [e], p.isPressure = false
  lower_spaced : ∀ events e between later, (c.run events).Lowers e →
    (c.run (events ++ e :: between)).Lowers later → e.now + DECREASE_COOLDOWN ≤ later.now
  counted : ∀ events e, ((c.run events).step e).decreases = (c.run events).decreases + 1 ↔ (c.run events).Lowers e
  halved : ∀ events e, (c.run events).Lowers e → (c.run events).limit / 2 ≤ ((c.run events).step e).limit
  regained : ∀ events e later, (c.run events).Lowers e →
    (c.run events).limit < (c.run (events ++ e :: later)).limit →
    (c.run events).limit - ((c.run events).step e).limit
      < ((c.run events).step e).cleanWindows (c.windowOf [] (events ++ [e])) later

theorem lawful_of_start (within : c.min ≤ c.limit ∧ c.limit ≤ c.max) (start : c.window.pressure = 0) :
    Lawful c where
  within events := run_within within
  raise_one events e raises := ((moved_step _ e).raises raises).2.2.1
  raise_spaced events e between later raises again := by
    rw [run_middle] at again
    obtain ⟨-, -, -, -, starts⟩ := (moved_step _ e).raises raises
    obtain ⟨-, -, -, late, -⟩ := (moved_step _ later).raises again
    have forward := run_windowStart_le ((c.run events).step e) between
    omega
  raise_clean events e raises := by
    obtain ⟨rolls, zero, -⟩ := (moved_step _ e).raises raises
    have counts : Counts (c.run events) (c.windowOf [] events) := counts_run (by simp [Counts, start])
    have clean := counts.mp zero
    intro p mem
    rcases List.mem_append.mp mem with seen | last
    · simpa using List.any_eq_false.mp clean p seen
    · rw [List.mem_singleton.mp last]
      cases e with
      | success now => rfl
      | pressure now => exact rolls.elim
  lower_spaced events e between later lowers again := by
    rw [run_middle] at again
    obtain ⟨-, -, -, last⟩ := (moved_step _ e).lowers lowers
    obtain ⟨t, recent, le⟩ := run_lastDecrease_le between last
    have spaced := ((moved_step _ later).lowers again).1 t recent
    omega
  counted events e := (moved_step _ e).counted
  halved events e lowers := ((moved_step _ e).lowers lowers).2.1
  regained events e later lowers above := by
    have counts : Counts (c.run (events ++ [e])) (c.windowOf [] (events ++ [e])) :=
      counts_run (by simp [Counts, start])
    have gained := limit_le_cleanWindows counts later
    rw [run_middle] at above gained
    rw [run_nil] at gained
    unfold AimdController.Lowers at lowers
    omega

theorem new_eq_some {min max : Nat} (initial created : Nat) (ordered : min ≤ max) :
    ∃ c, AimdController.new min initial max created = some c ∧ c.min = min ∧ c.max = max ∧
      (min ≤ c.limit ∧ c.limit ≤ max) ∧ c.window.pressure = 0 :=
  ⟨_, if_pos ordered, rfl, rfl, by dsimp only; omega, rfl⟩

end Run

/-! ## The gate -/

structure Gate where
  active : Nat
  peak : Nat
  deriving DecidableEq, Repr

inductive Admission where
  | admitted
  | gaveUp
  | parked
  deriving DecidableEq, Repr

namespace Gate

def new : Gate := ⟨0, 0⟩

/-- One turn of the loop of `enter`, under the lock: the limit and the abort flag are read in it. -/
def poll (gate : Gate) (limit : Nat) (abort : Bool) : Admission × Gate :=
  if max limit 1 ≤ gate.active then (if abort then .gaveUp else .parked, gate)
  else (.admitted, ⟨gate.active + 1, max gate.peak (gate.active + 1)⟩)

/-- The drop of a permit. -/
def release (gate : Gate) : Gate := { gate with active := gate.active - 1 }

end Gate

/-- A permit, with the limit that was read when it was given. -/
structure Permit where
  call : Nat
  limit : Nat
  deriving DecidableEq, Repr

/-- The gate with the calls that wait at it and the permits that are held, the newest first. -/
structure Lanes where
  gate : Gate
  waiting : List Nat
  held : List Permit

namespace Lanes

def polled (s : Lanes) (call limit : Nat) (abort : Bool) : Lanes :=
  match s.gate.poll limit abort with
  | (.admitted, gate) => ⟨gate, s.waiting.erase call, ⟨call, limit⟩ :: s.held⟩
  | (.gaveUp, gate) => { s with gate, waiting := s.waiting.erase call }
  | (.parked, gate) => { s with gate }

/-- What one thread does next, where the limits it may read are given. -/
inductive Step (reads : Nat → Prop) : Lanes → Lanes → Prop
  | enter (s : Lanes) (call : Nat) : Step reads s { s with waiting := call :: s.waiting }
  | poll (s : Lanes) (call limit : Nat) (abort : Bool) : call ∈ s.waiting → reads limit →
      Step reads s (s.polled call limit abort)
  | drop (s : Lanes) (permit : Permit) : permit ∈ s.held →
      Step reads s { s with gate := s.gate.release, held := s.held.erase permit }

def start : Lanes := ⟨Gate.new, [], []⟩

def Reachable (reads : Nat → Prop) : Lanes → Prop := ReflTransGen (Step reads) start

end Lanes

section Lanes
variable {reads : Nat → Prop} {s t : Lanes}

/-- A permit was given while fewer permits were held than its limit allows. -/
def Ranked : List Permit → Prop
  | [] => True
  | p :: older => older.length < max p.limit 1 ∧ Ranked older

theorem Ranked.erase {held : List Permit} (ranked : Ranked held) (p : Permit) : Ranked (held.erase p) := by
  induction held with
  | nil => exact ranked
  | cons q older ih =>
      rw [List.erase_cons]
      split
      · exact ranked.2
      · exact ⟨Nat.lt_of_le_of_lt (List.erase_sublist.length_le) ranked.1, ih ranked.2⟩

structure Counted (reads : Nat → Prop) (s : Lanes) : Prop where
  active : s.gate.active = s.held.length
  ranked : Ranked s.held
  read : ∀ p ∈ s.held, reads p.limit
  peak : s.gate.active ≤ s.gate.peak

theorem counted_start : Counted reads Lanes.start := ⟨rfl, trivial, by simp [Lanes.start], Nat.le_refl _⟩

theorem Counted.step (counted : Counted reads s) (moves : s.Step reads t) : Counted reads t := by
  cases moves with
  | enter call => exact ⟨counted.active, counted.ranked, counted.read, counted.peak⟩
  | poll call limit abort waits may =>
      unfold Lanes.polled Gate.poll
      by_cases full : max limit 1 ≤ s.gate.active
      · rw [if_pos full]
        cases abort
        · exact ⟨counted.active, counted.ranked, counted.read, counted.peak⟩
        · exact ⟨counted.active, counted.ranked, counted.read, counted.peak⟩
      · rw [if_neg full]
        refine ⟨by simp [counted.active], ⟨?_, counted.ranked⟩, ?_, Nat.le_max_right _ _⟩
        · rw [← counted.active]
          exact Nat.not_le.mp full
        · exact List.forall_mem_cons.mpr ⟨may, counted.read⟩
  | drop permit mem =>
      refine ⟨?_, counted.ranked.erase permit, fun p still => counted.read p (List.mem_of_mem_erase still), ?_⟩
      · rw [List.length_erase_of_mem mem, ← counted.active]
        rfl
      · exact Nat.le_trans (Nat.sub_le _ _) counted.peak

theorem Counted.of_reachable (reachable : s.Reachable reads) : Counted reads s := by
  induction reachable with
  | refl => exact counted_start
  | tail _ moves ih => exact ih.step moves

/-- The workers inside are no more than a limit, or one, that a permit still held was given under. -/
theorem Counted.active_le (counted : Counted reads s) :
    s.gate.active = 0 ∨ ∃ p ∈ s.held, s.gate.active ≤ max p.limit 1 := by
  rw [counted.active]
  cases same : s.held with
  | nil => exact .inl rfl
  | cons p older =>
      have ranked := counted.ranked
      rw [same] at ranked
      exact .inr ⟨p, .head _, ranked.1⟩

/-- A gate that reads the limit of a controller never has more workers inside than its ceiling. -/
theorem active_le_ceiling {c : AimdController} (within : c.min ≤ c.limit ∧ c.limit ≤ c.max)
    (reachable : s.Reachable fun limit => ∃ events, limit = (c.run events).limit) : s.gate.active ≤ max c.max 1 := by
  have counted := Counted.of_reachable reachable
  rcases counted.active_le with none | ⟨p, mem, le⟩
  · omega
  · obtain ⟨events, read⟩ := counted.read p mem
    have below : (c.run events).limit ≤ c.max := (run_within within).2
    omega

theorem active_le_ceiling_eight : (Lanes.polled ⟨Gate.new, [0], []⟩ 0 8 false).gate.active ≤ max 64 1 := by
  have reachable : (Lanes.polled ⟨Gate.new, [0], []⟩ 0 8 false).Reachable
      (fun limit => ∃ events, limit = ((⟨2, 64, 8, 0, ⟨0, 0, 0, none⟩⟩ : AimdController).run events).limit) :=
    .tail (.single (.enter Lanes.start 0)) (.poll _ 0 8 false (.head _) ⟨[], rfl⟩)
  exact active_le_ceiling ⟨by decide, by decide⟩ reachable

end Lanes

/-! ## The law -/

/-- Over every run of events, at any times, the limit keeps the law of the controller; over every
interleaving of the workers at the gate, those inside are as many as the permits held, and no
more than the largest limit read for one of these, where a limit of zero counts as one. -/
theorem aimd_lawful (min initial max created : Nat) (ordered : min ≤ max) :
    (∃ c, AimdController.new min initial max created = some c ∧ c.min = min ∧ c.max = max ∧ Lawful c) ∧
      ∀ (reads : Nat → Prop) (s : Lanes), s.Reachable reads →
        s.gate.active = s.held.length ∧ (s.gate.active = 0 ∨ ∃ p ∈ s.held, s.gate.active ≤ Max.max p.limit 1) := by
  obtain ⟨c, made, floor, ceiling, within, start⟩ := new_eq_some initial created ordered
  refine ⟨⟨c, made, floor, ceiling, lawful_of_start (by omega) start⟩, fun reads s reachable => ?_⟩
  exact ⟨(Counted.of_reachable reachable).active, (Counted.of_reachable reachable).active_le⟩

theorem aimd_lawful_auto :
    (∃ c, AimdController.new 2 8 64 0 = some c ∧ c.min = 2 ∧ c.max = 64 ∧ Lawful c) ∧
      ∀ (reads : Nat → Prop) (s : Lanes), s.Reachable reads →
        s.gate.active = s.held.length ∧ (s.gate.active = 0 ∨ ∃ p ∈ s.held, s.gate.active ≤ max p.limit 1) :=
  aimd_lawful 2 8 64 0 (by decide)

/-- A controller may have a floor of zero; a worker that reads its limit of zero is let in. -/
theorem not_active_le_limit :
    ¬ ∀ (min initial max created : Nat), min ≤ max → ∀ c, AimdController.new min initial max created = some c →
      ∀ s : Lanes, s.Reachable (fun limit => ∃ events, limit = (c.run events).limit) →
        s.gate.active = 0 ∨ ∃ p ∈ s.held, s.gate.active ≤ p.limit := by
  intro all
  have reachable : (Lanes.polled ⟨Gate.new, [0], []⟩ 0 0 false).Reachable
      (fun limit => ∃ events, limit = ((⟨0, 0, 0, 0, ⟨0, 0, 0, none⟩⟩ : AimdController).run events).limit) :=
    .tail (.single (.enter Lanes.start 0)) (.poll _ 0 0 false (.head _) ⟨[], rfl⟩)
  rcases all 0 0 0 0 (Nat.le_refl 0) _ rfl _ reachable with none | ⟨p, mem, le⟩
  · exact absurd none (by decide)
  · rw [List.mem_singleton.mp mem] at le
    exact absurd le (by decide)

end Cavs.Adaptive
