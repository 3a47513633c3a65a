import Cavs.Outcome

/-!
# Calls that leave a trace

A call that returns, fails or ends the program, with the events it gave rise to until then.
-/

structure Traced (τ ε α : Type) where
  outcome : Outcome ε α
  events : List τ

namespace Traced
variable {τ ε α β : Type}

instance : Monad (Traced τ ε) where
  pure a := ⟨.ok a, []⟩
  bind m f := match m.outcome with
    | .ok a => ⟨(f a).outcome, m.events ++ (f a).events⟩
    | .error e => ⟨.error e, m.events⟩
    | .panics => ⟨.panics, m.events⟩

def lift (o : Outcome ε α) : Traced τ ε α := ⟨o, []⟩

/-- A call with an event of its own when it returns. -/
def log (event : τ) (o : Outcome ε α) : Traced τ ε α :=
  match o with
  | .ok a => ⟨.ok a, [event]⟩
  | .error e => ⟨.error e, []⟩
  | .panics => ⟨.panics, []⟩

/-- Every event is of this kind, whatever the outcome. -/
def Every (P : τ → Prop) (m : Traced τ ε α) : Prop := ∀ e ∈ m.events, P e

variable {m : Traced τ ε α} {f : α → Traced τ ε β} {o : Outcome ε α} {P : τ → Prop} {a : α} {b : β} {event : τ}

@[simp] theorem lift_outcome : (lift o : Traced τ ε α).outcome = o := rfl

@[simp] theorem lift_events : (lift o : Traced τ ε α).events = [] := rfl

@[simp] theorem log_outcome : (log event o).outcome = o := by cases o <;> rfl

theorem bind_ok (h : m.outcome = .ok a) :
    (m >>= f).outcome = (f a).outcome ∧ (m >>= f).events = m.events ++ (f a).events := by
  obtain ⟨outcome, events⟩ := m
  cases h
  exact ⟨rfl, rfl⟩

theorem ok_of_bind (h : (m >>= f).outcome = .ok b) : ∃ a, m.outcome = .ok a ∧ (f a).outcome = .ok b ∧
    (m >>= f).events = m.events ++ (f a).events := by
  obtain ⟨outcome, events⟩ := m
  cases outcome with
  | ok a => exact ⟨a, rfl, h, rfl⟩
  | error e => cases h
  | panics => cases h

theorem Every.pure : Every P (Pure.pure a : Traced τ ε α) := fun _ mem => (List.not_mem_nil mem).elim

theorem Every.lift : Every P (lift o : Traced τ ε α) := fun _ mem => (List.not_mem_nil mem).elim

theorem Every.log (h : ∀ a, o = .ok a → P event) : Every P (log event o) := by
  cases o with
  | ok a =>
      intro e mem
      exact List.mem_singleton.mp mem ▸ h a rfl
  | error e => exact fun _ mem => (List.not_mem_nil mem).elim
  | panics => exact fun _ mem => (List.not_mem_nil mem).elim

theorem Every.bind (hm : Every P m) (hf : ∀ a, m.outcome = .ok a → Every P (f a)) : Every P (m >>= f) := by
  obtain ⟨outcome, events⟩ := m
  cases outcome with
  | ok a =>
      intro e mem
      exact (List.mem_append.mp mem).elim (hm e) (hf a rfl e)
  | error e => exact hm
  | panics => exact hm

end Traced
