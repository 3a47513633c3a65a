/-!
# Programs over any operations

A program asks for operations one after another and sees their results. One relation says
what an operation may do to the state; the states a run goes through and its ends follow.
-/
namespace OpProg
variable {O : Type} {R : O → Type} {T α β : Type}

inductive Prog (O : Type) (R : O → Type) (α : Type) where
  | ret (a : α)
  | call (o : O) (k : R o → Prog O R α)

namespace Prog

def bind : Prog O R α → (α → Prog O R β) → Prog O R β
  | .ret a, f => f a
  | .call o k, f => .call o fun r => (k r).bind f

variable (Step : (o : O) → T → R o → T → Prop)

/-- The finished runs. -/
def Runs : Prog O R α → T → α → T → Prop
  | .ret a, t, b, v => b = a ∧ v = t
  | .call o k, t, b, v => ∃ r u, Step o t r u ∧ (k r).Runs u b v

/-- The states a run goes through, to its end or to where it is cut off. -/
def Reaches : Prog O R α → T → T → Prop
  | .ret _, t, v => v = t
  | .call o k, t, v => v = t ∨ ∃ r u, Step o t r u ∧ (k r).Reaches u v

variable {Step}

variable (Step) in
/-- Every state of a run from `t` is in `I` when an operation starts, and every end satisfies `Q`. -/
def Wp (I : T → Prop) (Q : α → T → Prop) : Prog O R α → T → Prop
  | .ret a, t => Q a t
  | .call o k, t => I t ∧ ∀ r u, Step o t r u → (k r).Wp I Q u

section Wp
variable {I : T → Prop} {Q : α → T → Prop} {p : Prog O R α} {t v : T}

theorem Wp.runs (h : p.Wp Step I Q t) {a : α} (run : p.Runs Step t a v) : Q a v := by
  induction p generalizing t with
  | ret b =>
      obtain ⟨rfl, rfl⟩ := run
      exact h
  | call o k ih =>
      obtain ⟨r, u, does, rest⟩ := run
      exact ih r (h.2 r u does) rest

theorem Wp.reaches (h : p.Wp Step I Q t) (ends : ∀ a u, Q a u → I u) (run : p.Reaches Step t v) : I v := by
  induction p generalizing t with
  | ret b =>
      cases run
      exact ends b _ h
  | call o k ih =>
      rcases run with rfl | ⟨r, u, does, rest⟩
      · exact h.1
      · exact ih r (h.2 r u does) rest

theorem Wp.mono {Q' : α → T → Prop} (h : p.Wp Step I Q t) (weaker : ∀ a u, Q a u → Q' a u) : p.Wp Step I Q' t := by
  induction p generalizing t with
  | ret b => exact weaker b t h
  | call o k ih => exact ⟨h.1, fun r u does => ih r (h.2 r u does)⟩

theorem Wp.bind {f : α → Prog O R β} {Q' : β → T → Prop} (h : p.Wp Step I (fun a u => (f a).Wp Step I Q' u) t) :
    (p.bind f).Wp Step I Q' t := by
  induction p generalizing t with
  | ret b => exact h
  | call o k ih => exact ⟨h.1, fun r u does => ih r (h.2 r u does)⟩

end Wp

/-- Where every operation has an outcome, every program has a run. -/
theorem runs_total (total : ∀ o t, ∃ r u, Step o t r u) (p : Prog O R α) (t : T) : ∃ a v, p.Runs Step t a v := by
  induction p generalizing t with
  | ret a => exact ⟨a, t, rfl, rfl⟩
  | call o k ih =>
      obtain ⟨r, u, does⟩ := total o t
      obtain ⟨a, v, rest⟩ := ih r u
      exact ⟨a, v, r, u, does, rest⟩

end Prog

/-- A program that ends in a value or in an error. -/
def Cmd (O : Type) (R : O → Type) (ε α : Type) : Type := Prog O R (Except ε α)

namespace Cmd
variable {ε : Type}

/-- The rest of a block after an outcome of its first statement. -/
def next (f : α → Cmd O R ε β) : Except ε α → Prog O R (Except ε β)
  | .ok a => f a
  | .error e => .ret (.error e)

instance : Monad (Cmd O R ε) where
  pure a := .ret (.ok a)
  bind m f := Prog.bind m (next f)

def op (o : O) : Cmd O R ε (R o) := .call o fun r => .ret (.ok r)

def throw (e : ε) : Cmd O R ε α := .ret (.error e)

def ofExcept : Except ε α → Cmd O R ε α
  | .ok a => pure a
  | .error e => throw e

/-- The outcome as a value. -/
def attempt (m : Cmd O R ε α) : Cmd O R ε (Except ε α) := Prog.bind m fun r => .ret (.ok r)

def forEach : List β → (β → Cmd O R ε Unit) → Cmd O R ε Unit
  | [], _ => pure ()
  | b :: bs, f => do
      f b
      forEach bs f

section Wp
variable {Step : (o : O) → T → R o → T → Prop} {I : T → Prop} {E : ε → T → Prop} {Q : α → T → Prop} {t : T}

/-- The ends in an error and the ends in a value. -/
def ends (E : ε → T → Prop) (Q : α → T → Prop) : Except ε α → T → Prop
  | .ok a => Q a
  | .error e => E e

variable (Step I E) in
def Wp (Q : α → T → Prop) (m : Cmd O R ε α) (t : T) : Prop := Prog.Wp Step I (ends E Q) m t

theorem Wp.pure {a : α} (h : Q a t) : (Pure.pure a : Cmd O R ε α).Wp Step I E Q t := h

theorem Wp.throw {e : ε} (h : E e t) : (Cmd.throw e : Cmd O R ε α).Wp Step I E Q t := h

theorem Wp.op {o : O} {Q : R o → T → Prop} (here : I t) (h : ∀ r u, Step o t r u → Q r u) :
    (Cmd.op o : Cmd O R ε (R o)).Wp Step I E Q t := ⟨here, h⟩

theorem Wp.mono {Q' : α → T → Prop} {m : Cmd O R ε α} (h : m.Wp Step I E Q t) (weaker : ∀ a u, Q a u → Q' a u) :
    m.Wp Step I E Q' t := by
  apply Prog.Wp.mono h
  intro r u good
  cases r with
  | error e => exact good
  | ok a => exact weaker a u good

theorem Wp.bind {m : Cmd O R ε α} {f : α → Cmd O R ε β} {Q' : β → T → Prop}
    (h : m.Wp Step I E (fun a u => (f a).Wp Step I E Q' u) t) : (m >>= f).Wp Step I E Q' t := by
  apply Prog.Wp.bind
  apply Prog.Wp.mono h
  intro r u good
  cases r with
  | error e => exact good
  | ok a => exact good

theorem Wp.attempt {m : Cmd O R ε α} {Q : Except ε α → T → Prop}
    (h : m.Wp Step I (fun e => Q (.error e)) (fun a => Q (.ok a)) t) : (Cmd.attempt m).Wp Step I E Q t := by
  apply Prog.Wp.bind
  apply Prog.Wp.mono h
  intro r u good
  cases r with
  | error e => exact good
  | ok a => exact good

/-- `J` tells of the state and of what is left of the list. -/
theorem Wp.forEach {l : List β} {f : β → Cmd O R ε Unit} (J : List β → T → Prop)
    (step : ∀ b rest u, b ∈ l → J (b :: rest) u → (f b).Wp Step I E (fun _ => J rest) u) (start : J l t) :
    (Cmd.forEach l f).Wp Step I E (fun _ => J []) t := by
  induction l generalizing t with
  | nil => exact start
  | cons b bs ih =>
      apply Wp.bind
      apply Wp.mono (step b bs t List.mem_cons_self start)
      intro _ u next
      exact ih (fun c rest u mem => step c rest u (List.mem_cons_of_mem _ mem)) next

end Wp

end Cmd
end OpProg
