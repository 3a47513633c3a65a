/-!
# Outcomes that may be a panic

A call returns a value, returns an error, or ends the program.
-/

inductive Outcome (ε α : Type) where
  | ok (a : α)
  | error (e : ε)
  | panics
  deriving DecidableEq, Repr

namespace Outcome
variable {ε α β : Type} {m : Outcome ε α} {P : α → Prop}

instance : Monad (Outcome ε) where
  pure := .ok
  bind
    | .ok a, f => f a
    | .error e, _ => .error e
    | .panics, _ => .panics

def ofExcept : Except ε α → Outcome ε α
  | .ok a => .ok a
  | .error e => .error e

def ofOption (e : ε) : Option α → Outcome ε α
  | some a => .ok a
  | none => .error e

/-- The call comes back: with a value for which `P` holds, or with an error. -/
def Returns (o : Outcome ε α) (P : α → Prop) : Prop :=
  match o with
  | .ok a => P a
  | .error _ => True
  | .panics => False

@[simp] theorem ok_bind (a : α) (f : α → Outcome ε β) : (Outcome.ok a >>= f) = f a := rfl

@[simp] theorem error_bind (e : ε) (f : α → Outcome ε β) : (Outcome.error e >>= f) = .error e := rfl

@[simp] theorem panics_bind (f : α → Outcome ε β) : ((Outcome.panics : Outcome ε α) >>= f) = .panics := rfl

@[simp] theorem pure_eq (a : α) : (pure a : Outcome ε α) = .ok a := rfl

theorem ok_of_bindO {f : α → Outcome ε β} {b : β} (h : (m >>= f) = .ok b) :
    ∃ a, m = .ok a ∧ f a = .ok b := by
  cases m with
  | ok a => exact ⟨a, rfl, h⟩
  | error e => cases h
  | panics => cases h

theorem Returns.bind {f : α → Outcome ε β} {Q : β → Prop} (hm : m.Returns P) (hf : ∀ a, P a → (f a).Returns Q) :
    (m >>= f).Returns Q := by
  cases m with
  | ok a => exact hf a hm
  | error e => trivial
  | panics => exact hm.elim

theorem Returns.mono {Q : α → Prop} (hm : m.Returns P) (h : ∀ a, P a → Q a) :
    m.Returns Q := by
  cases m with
  | ok a => exact h a hm
  | error e => trivial
  | panics => exact hm

theorem returns_ofExcept {r : Except ε α} (h : ∀ a, r = .ok a → P a) :
    (ofExcept r).Returns P := by
  cases r with
  | error e => trivial
  | ok a => exact h a rfl

theorem returns_ofOption {e : ε} {o : Option α} (h : ∀ a, o = some a → P a) :
    (ofOption e o).Returns P := by
  cases o with
  | none => trivial
  | some a => exact h a rfl

end Outcome

theorem ok_of_bindE {ε α β : Type} {m : Except ε α} {f : α → Except ε β} {b : β}
    (h : (m >>= f) = .ok b) : ∃ a, m = .ok a ∧ f a = .ok b := by
  cases m with
  | error e => cases h
  | ok a => exact ⟨a, rfl, h⟩
