import Cavs.FileEff

/-!
# Runs that see the same files

Where nothing fails by itself and no file needs a directory, the outcome of a program hangs
on the files it looks at: from two trees in which these have the same bytes its runs end with
the same result, and in trees that agree again.
-/
namespace FileProg

variable {P K D α : Type} [DecidableEq P]

/-- Nothing fails by itself, and a file needs no directory. -/
structure Sem.Flawless (σ : Sem P K D) : Prop where
  sound : ∀ op w, ¬ σ.mayFail op w
  flat : ∀ p, σ.parent p = none

/-- The files of `T` are there in both or in neither, with the same bytes. -/
def World.Like (T : P → Prop) (w v : World P K) : Prop :=
  ∀ p, T p → (w.get p).map File.bytes = (v.get p).map File.bytes

/-- The result hangs on files of `T` alone, and so do the bytes it leaves in them. -/
def Op.Sees (T : P → Prop) : Op P K → Prop
  | .read p | .present p | .append p _ | .rename p _ | .remove p => T p
  | .write _ _ | .mkdir _ | .sync _ => True
  | _ => False

section Like
variable {T : P → Prop} {w v w' v' : World P K} {σ : Sem P K D} {p : P} {op : Op P K}

theorem World.Like.refl (w : World P K) : World.Like T w w := fun _ _ => rfl

theorem World.Like.symm (h : World.Like T w v) : World.Like T v w := fun p mem => (h p mem).symm

theorem World.Like.put (h : World.Like T w v) (p : P) (b : Bytes) (t s : Nat) :
    World.Like T (w.put p b t) (v.put p b s) := by
  intro q mem
  rw [get_put, get_put]
  split
  · rfl
  · exact h q mem

theorem World.Like.del (h : World.Like T w v) (p : P) : World.Like T (w.del p) (v.del p) := by
  intro q mem
  rw [get_del, get_del]
  split
  · rfl
  · exact h q mem

theorem World.Like.move (h : World.Like T w v) (p q : P) {f g : File} (same : f.bytes = g.bytes) :
    World.Like T (w.move p q f) (v.move p q g) := by
  intro r mem
  rw [get_move, get_move]
  split
  · exact congrArg some same
  · split
    · rfl
    · exact h r mem

theorem World.Like.bytes (h : World.Like T w v) (mem : T p) : w.bytes p = v.bytes p := by
  simp only [World.bytes, h p mem]

theorem World.Like.some (h : World.Like T w v) (mem : T p) {f : File} (found : w.get p = some f) :
    ∃ g, v.get p = some g ∧ f.bytes = g.bytes := by
  have same := h p mem
  rw [found] at same
  obtain ⟨g, there, bytes⟩ := Option.map_eq_some_iff.mp same.symm
  exact ⟨g, there, bytes.symm⟩

theorem World.Like.none (h : World.Like T w v) (mem : T p) (absent : w.get p = none) : v.get p = none := by
  have same := h p mem
  rw [absent] at same
  exact Option.map_eq_none_iff.mp same.symm

theorem Sem.Flawless.does (h : σ.Flawless) {r : op.Res D} (step : σ.Step op w r w') : σ.Does op w r w' := by
  rcases step with does | ⟨may, -⟩
  · exact does
  · exact absurd may (h.sound op w)

theorem Sem.Flawless.dirOk (h : σ.Flawless) (p : P) : σ.DirOk w p := by
  intro d parent
  rw [h.flat] at parent
  cases parent

/-- The outcomes of one operation in trees that look the same look the same. -/
theorem Sem.Flawless.like (h : σ.Flawless) {r r' : op.Res D} (sees : op.Sees T) (same : World.Like T w v)
    (first : σ.Step op w r w') (second : σ.Step op v r' v') : r = r' ∧ World.Like T w' v' := by
  have one := h.does first
  have two := h.does second
  cases op with
  | read p =>
      obtain ⟨rfl, rfl⟩ := one
      obtain ⟨rfl, rfl⟩ := two
      refine ⟨?_, same⟩
      cases found : w'.get p with
      | none => rw [same.none sees found]
      | some f =>
          obtain ⟨g, there, bytes⟩ := same.some sees found
          rw [there]
          exact congrArg Except.ok bytes
  | present p =>
      obtain ⟨rfl, rfl⟩ := one
      obtain ⟨rfl, rfl⟩ := two
      refine ⟨?_, same⟩
      have there := congrArg Option.isSome (same p sees)
      simpa using there
  | write p b =>
      obtain ⟨-, rfl, t, rfl⟩ := one.resolve_right fun bad => bad.1 (h.dirOk p)
      obtain ⟨-, rfl, s, rfl⟩ := two.resolve_right fun bad => bad.1 (h.dirOk p)
      exact ⟨rfl, same.put p b t s⟩
  | append p b =>
      obtain ⟨-, rfl, t, rfl⟩ := one.resolve_right fun bad => bad.1 (h.dirOk p)
      obtain ⟨-, rfl, s, rfl⟩ := two.resolve_right fun bad => bad.1 (h.dirOk p)
      refine ⟨rfl, ?_⟩
      rw [same.bytes sees]
      exact same.put p _ t s
  | rename p q =>
      simp only [Sem.Does] at one two
      cases found : w.get p with
      | none =>
          rw [found] at one
          rw [same.none sees found] at two
          obtain ⟨rfl, rfl⟩ := one
          obtain ⟨rfl, rfl⟩ := two
          exact ⟨rfl, same⟩
      | some f =>
          obtain ⟨g, there, bytes⟩ := same.some sees found
          rw [found] at one
          rw [there] at two
          obtain ⟨-, rfl, rfl⟩ := one.resolve_right fun bad => bad.1 (h.dirOk q)
          obtain ⟨-, rfl, rfl⟩ := two.resolve_right fun bad => bad.1 (h.dirOk q)
          exact ⟨rfl, same.move p q bytes⟩
  | remove p =>
      simp only [Sem.Does] at one two
      cases found : w.get p with
      | none =>
          rw [found] at one
          rw [same.none sees found] at two
          obtain ⟨rfl, rfl⟩ := one
          obtain ⟨rfl, rfl⟩ := two
          exact ⟨rfl, same⟩
      | some f =>
          obtain ⟨g, there, -⟩ := same.some sees found
          rw [found] at one
          rw [there] at two
          obtain ⟨rfl, rfl⟩ := one
          obtain ⟨rfl, rfl⟩ := two
          exact ⟨rfl, same.del p⟩
  | mkdir p =>
      refine ⟨one.1.trans two.1.symm, fun q mem => ?_⟩
      have made : ∀ {x y : World P K} {s : Except IoError Unit}, σ.Does (.mkdir p) x s y →
          (y.get q).map File.bytes = if q = p ∧ x.get p = none then some [] else (x.get q).map File.bytes := by
        rintro x y s ⟨-, done⟩
        cases found : x.get p with
        | some f =>
            rw [found] at done
            simp [done]
        | none =>
            rw [found] at done
            obtain ⟨t, rfl⟩ := done
            rw [get_put]
            split
            · simp [*]
            · simp [*]
      rw [made one, made two, same q mem]
      by_cases here : q = p
      · subst here
        have absent : w.get q = none ↔ v.get q = none := ⟨same.none mem, same.symm.none mem⟩
        simp [absent]
      · simp [here]
  | sync p =>
      obtain ⟨rfl, rfl⟩ := one
      obtain ⟨rfl, rfl⟩ := two
      exact ⟨rfl, same⟩
  | stat | setLen | list | now | seed | digest | mark => exact sees.elim

/-- Runs from trees that look the same end with the same result. -/
theorem Prog.All.like (h : σ.Flawless) {p : Prog P K D α} (sees : p.All (Op.Sees T)) (same : World.Like T w v) {a b : α}
    (first : p.Runs σ w a w') (second : p.Runs σ v b v') : a = b ∧ World.Like T w' v' := by
  induction p generalizing w v with
  | ret x =>
      obtain ⟨rfl, rfl⟩ := first
      obtain ⟨rfl, rfl⟩ := second
      exact ⟨rfl, same⟩
  | call op k ih =>
      obtain ⟨r, x, step, first⟩ := first
      obtain ⟨s, y, step', second⟩ := second
      obtain ⟨rfl, again⟩ := h.like sees.1 same step step'
      exact ih r (sees.2 r) again first second

omit [DecidableEq P] in
theorem Op.Sees.plain (sees : op.Sees T) : op.Plain := by
  cases op with
  | digest | mark => exact sees.elim
  | read | present | stat | write | append | setLen | sync | rename | remove | mkdir | list | now | seed => trivial

end Like

section Alone
variable {T : P → Prop} {Q : α → World P K → Prop} {w v : World P K} {σ : Sem P K D}

/-- What is left of the program, which looks at `T` only, ends in `Q` in a tree of its own
that looks the same there. -/
structure Prog.Alone (σ : Sem P K D) (T : P → Prop) (Q : α → World P K → Prop) (p : Prog P K D α) (w : World P K) :
    Prop where
  sees : p.All (Op.Sees T)
  ends : ∃ x, World.Like T x w ∧ p.Wp σ (fun _ => True) Q x

theorem Prog.Alone.start {p : Prog P K D α} (sees : p.All (Op.Sees T)) (ends : p.Wp σ (fun _ => True) Q w) :
    p.Alone σ T Q w := ⟨sees, w, .refl w, ends⟩

/-- A step here is a step there. -/
theorem Prog.Alone.step (h : σ.Flawless) {op : Op P K} {k : op.Res D → Prog P K D α}
    (alone : (Prog.call op k).Alone σ T Q w) {r : op.Res D} (step : σ.Step op w r v) : (k r).Alone σ T Q v := by
  obtain ⟨⟨sees, later⟩, x, same, ends⟩ := alone
  obtain ⟨r', u, there⟩ := Sem.step_exists (σ := σ) sees.plain x
  obtain ⟨rfl, again⟩ := h.like sees same there step
  exact ⟨later r', u, again, ends.2.2 r' u there⟩

/-- What others do elsewhere does not matter. -/
theorem Prog.Alone.stays {p : Prog P K D α} (alone : p.Alone σ T Q w) (kept : ∀ q, T q → v.get q = w.get q) :
    p.Alone σ T Q v := by
  obtain ⟨sees, x, same, ends⟩ := alone
  exact ⟨sees, x, fun q mem => by rw [same q mem, kept q mem], ends⟩

theorem Prog.Alone.result {a : α} (alone : (Prog.ret a : Prog P K D α).Alone σ T Q w) :
    ∃ x, World.Like T x w ∧ Q a x := by
  obtain ⟨-, x, same, ends⟩ := alone
  exact ⟨x, same, ends.2⟩

end Alone
end FileProg
