import Cavs.OpProg

/-!
# Programs as parts of programs over more operations

A program runs inside one that has further operations and a larger state when each of its
operations is a program there.
-/
namespace OpProg
variable {O O' : Type} {R : O → Type} {R' : O' → Type} {T T' α ε ε' : Type}

/-- Every operation is replaced by a program. -/
def Prog.embed (f : (o : O) → Prog O' R' (R o)) : Prog O R α → Prog O' R' α
  | .ret a => .ret a
  | .call o k => (f o).bind fun r => (k r).embed f

/-- The outcome of a program with its error replaced. -/
def Cmd.embed (f : (o : O) → Prog O' R' (R o)) (g : ε → ε') (m : Cmd O R ε α) : Cmd O' R' ε' α :=
  (Prog.embed f m).bind fun r => .ret (r.mapError g)

section Wp
variable {Step : (o : O) → T → R o → T → Prop} {Step' : (o : O') → T' → R' o → T' → Prop} {I : T → Prop}
  {I' : T' → Prop} {f : (o : O) → Prog O' R' (R o)} {S : T' → T → Prop}

/-- What holds of the runs of a program holds of its runs inside the larger one, when each
operation there does what it does here. -/
theorem Prog.Wp.embed {Q : α → T → Prop} {p : Prog O R α} {t : T} {t' : T'}
    (each : ∀ o t' t, S t' t → I t → (f o).Wp Step' I' (fun r u' => ∃ u, Step o t r u ∧ S u' u) t')
    (rel : S t' t) (h : p.Wp Step I Q t) :
    (p.embed f).Wp Step' I' (fun a u' => ∃ u, S u' u ∧ Q a u) t' := by
  induction p generalizing t t' with
  | ret a => exact ⟨t, rel, h⟩
  | call o k ih =>
      apply Prog.Wp.bind
      apply Prog.Wp.mono (each o t' t rel h.1)
      intro r u' ⟨u, does, rel'⟩
      exact ih r rel' (h.2 r u does)

theorem Cmd.Wp.embed {E : ε → T → Prop} {E' : ε' → T' → Prop} {Q : α → T → Prop} {Q' : α → T' → Prop} {g : ε → ε'}
    {m : Cmd O R ε α} {t : T} {t' : T'}
    (each : ∀ o t' t, S t' t → I t → (f o).Wp Step' I' (fun r u' => ∃ u, Step o t r u ∧ S u' u) t')
    (good : ∀ a u' u, S u' u → Q a u → Q' a u') (bad : ∀ e u' u, S u' u → E e u → E' (g e) u')
    (rel : S t' t) (h : m.Wp Step I E Q t) : (m.embed f g).Wp Step' I' E' Q' t' := by
  apply Prog.Wp.bind
  apply Prog.Wp.mono (Prog.Wp.embed each rel h)
  intro r u' ⟨u, rel', ends⟩
  cases r with
  | ok a => exact good a u' u rel' ends
  | error e => exact bad e u' u rel' ends

end Wp

section Runs
variable {Step : (o : O) → T → R o → T → Prop} {Step' : (o : O') → T' → R' o → T' → Prop}
  {f : (o : O) → Prog O' R' (R o)} {β : Type}

end Runs

/-- Nothing is asked of the runs of a program. -/
theorem Cmd.Wp.any {Step : (o : O) → T → R o → T → Prop} (m : Cmd O R ε α) (t : T) :
    m.Wp Step (fun _ => True) (fun _ _ => True) (fun _ _ => True) t := by
  have any : ∀ (p : Prog O R (Except ε α)) (t : T),
      p.Wp Step (fun _ => True) (Cmd.ends (fun _ _ => True) fun _ _ => True) t := by
    intro p
    induction p with
    | ret r =>
        intro t
        cases r with
        | ok a => trivial
        | error e => trivial
    | call o k ih => exact fun t => ⟨trivial, fun r u _ => ih r u⟩
  exact any m t

end OpProg
