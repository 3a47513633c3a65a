import Cavs.FileEff

/-!
# Running a program

The run of a program in which nothing fails, the clock stands still and no directory is
asked for. It is computed, so that a finished run can be exhibited.
-/
namespace FileProg
variable {P K D ε S α : Type} [DecidableEq P]

/-- The regular outcome; a digest or a mark has none here. -/
def Op.exec : (op : Op P K) → World P K → Option (op.Res D × World P K)
  | .read p, w => some (match w.get p with
      | some f => .ok f.bytes
      | none => .error .notFound, w)
  | .present p, w => some ((w.get p).isSome, w)
  | .stat p, w => some ((w.get p).map fun f => (f.bytes.length, f.mtime), w)
  | .write p b, w => some (.ok (), w.put p b 0)
  | .append p b, w => some (.ok (), w.put p (w.bytes p ++ b) 0)
  | .setLen p n, w => match w.get p with
    | some f => some (.ok (), w.put p (f.bytes.take n ++ List.replicate (n - f.bytes.length) 0) 0)
    | none => some (.error .notFound, w)
  | .sync _, w => some (.ok (), w)
  | .rename p q, w => match w.get p with
    | some f => some (.ok (), w.move p q f)
    | none => some (.error .notFound, w)
  | .remove p, w => match w.get p with
    | some _ => some (.ok (), w.del p)
    | none => some (.error .notFound, w)
  | .mkdir p, w => match w.get p with
    | some _ => some (.ok (), w)
    | none => some (.ok (), w.put p [] 0)
  | .list d, w => some (.ok (w.files.keys.filter d), w)
  | .now, w | .seed, w => some (0, w)
  | .digest _, _ | .mark _, _ => none

def Prog.exec : Prog P K D α → World P K → Option (α × World P K)
  | .ret a, w => some (a, w)
  | .call op k, w => (op.exec w).bind fun x => (k x.1).exec x.2

variable {σ : Sem P K D}

theorem Op.exec_does {op : Op P K} {w v : World P K} {r : op.Res D} (dir : ∀ p, op.touches p → σ.DirOk w p)
    (h : op.exec w = some (r, v)) : σ.Step op w r v := by
  left
  cases op with
  | read p | present p | stat p | sync p =>
      cases h
      exact ⟨rfl, rfl⟩
  | write p b | append p b =>
      cases h
      exact .inl ⟨dir p rfl, rfl, 0, rfl⟩
  | setLen p n =>
      rw [Op.exec] at h
      cases found : w.get p with
      | none =>
          rw [found] at h
          cases h
          simp [Sem.Does, found]
      | some f =>
          rw [found] at h
          cases h
          simp only [Sem.Does, found]
          exact ⟨trivial, 0, rfl⟩
  | rename p q =>
      rw [Op.exec] at h
      cases found : w.get p with
      | none =>
          rw [found] at h
          cases h
          simp [Sem.Does, found]
      | some f =>
          rw [found] at h
          cases h
          simp [Sem.Does, found, dir q (.inr rfl)]
  | remove p =>
      rw [Op.exec] at h
      cases found : w.get p with
      | none =>
          rw [found] at h
          cases h
          simp [Sem.Does, found]
      | some f =>
          rw [found] at h
          cases h
          simp [Sem.Does, found]
  | mkdir p =>
      rw [Op.exec] at h
      cases found : w.get p with
      | none =>
          rw [found] at h
          cases h
          simp only [Sem.Does, found]
          exact ⟨trivial, 0, rfl⟩
      | some f =>
          rw [found] at h
          cases h
          simp [Sem.Does, found]
  | list d =>
      cases h
      exact ⟨rfl, _, rfl, .refl _⟩
  | now | seed =>
      cases h
      rfl
  | digest b | mark k => cases h

theorem Op.exec_step (flat : ∀ p, σ.parent p = none) {op : Op P K} {w v : World P K} {r : op.Res D}
    (h : op.exec w = some (r, v)) : σ.Step op w r v := by
  refine Op.exec_does (fun p _ d parent => ?_) h
  rw [flat] at parent
  cases parent

theorem Prog.exec_runs (flat : ∀ p, σ.parent p = none) {p : Prog P K D α} {w v : World P K} {a : α}
    (h : p.exec w = some (a, v)) : p.Runs σ w a v := by
  induction p generalizing w with
  | ret b =>
      cases h
      exact ⟨rfl, rfl⟩
  | call op k ih =>
      obtain ⟨⟨r, u⟩, step, rest⟩ := Option.bind_eq_some_iff.mp h
      exact ⟨r, u, Op.exec_step flat step, ih r rest⟩

/-- A run that is computed is a finished run. -/
theorem Eff.exec_runs (flat : ∀ p, σ.parent p = none) {m : Eff P K D ε S α} {s t : S} {w v : World P K}
    {r : Except ε α} (h : (m s).exec w = some ((r, t), v)) : m.Runs σ s w r t v :=
  Prog.exec_runs flat h

theorem Prog.exec_bind {β : Type} (p : Prog P K D β) (f : β → Prog P K D α) (w : World P K) :
    (p >>= f).exec w = (p.exec w).bind fun x => (f x.1).exec x.2 := by
  induction p generalizing w with
  | ret b => rfl
  | call op k ih =>
      simp only [Prog.call_bind, Prog.exec, Option.bind_assoc]
      exact congrArg _ (funext fun x => ih x.1 x.2)

/-- The computed run of a method. -/
def Eff.Ends (m : Eff P K D ε S α) (s : S) (w : World P K) (r : Except ε α) (t : S) (v : World P K) : Prop :=
  (m s).exec w = some ((r, t), v)

section Ends
variable {β : Type} {m : Eff P K D ε S β} {f : β → Eff P K D ε S α} {s t t' : S} {w v v' : World P K}
  {r : Except ε α}

theorem Eff.Ends.bind {b : β} (first : m.Ends s w (.ok b) t v) (rest : (f b).Ends t v r t' v') :
    (m >>= f).Ends s w r t' v' := by
  change (m s >>= _).exec w = _
  rw [Prog.exec_bind, show (m s).exec w = some ((.ok b, t), v) from first]
  exact rest

theorem Eff.Ends.bind_error {e : ε} (first : m.Ends s w (.error e) t v) : (m >>= f).Ends s w (.error e) t v := by
  change (m s >>= _).exec w = _
  rw [Prog.exec_bind, show (m s).exec w = some ((.error e, t), v) from first]
  rfl

theorem Eff.Ends.runs {r' : Except ε β} (flat : ∀ p, σ.parent p = none) (ends : m.Ends s w r' t v) : m.Runs σ s w r' t v :=
  Eff.exec_runs flat ends

section Ops
variable {p q : P} {f : File}

theorem Eff.Ends.present (there : w.get p = some f) : (Eff.op (.present p) : Eff P K D ε S _).Ends s w (.ok true) s w := by
  change (Op.exec (.present p) w).bind _ = _
  rw [Op.exec, there]
  rfl

theorem Eff.Ends.read (there : w.get p = some f) :
    (Eff.op (.read p) : Eff P K D ε S _).Ends s w (.ok (.ok f.bytes)) s w := by
  change (Op.exec (.read p) w).bind _ = _
  rw [Op.exec, there]
  rfl

theorem Eff.Ends.write (p : P) (b : Bytes) :
    (Eff.op (.write p b) : Eff P K D ε S _).Ends s w (.ok (.ok ())) s (w.put p b 0) := rfl

theorem Eff.Ends.append (p : P) (b : Bytes) :
    (Eff.op (.append p b) : Eff P K D ε S _).Ends s w (.ok (.ok ())) s (w.put p (w.bytes p ++ b) 0) := rfl

theorem Eff.Ends.sync (p : P) : (Eff.op (.sync p) : Eff P K D ε S _).Ends s w (.ok (.ok ())) s w := rfl

theorem Eff.Ends.mkdir_old (there : w.get p = some f) :
    (Eff.op (.mkdir p) : Eff P K D ε S _).Ends s w (.ok (.ok ())) s w := by
  change (Op.exec (.mkdir p) w).bind _ = _
  rw [Op.exec, there]
  rfl

theorem Eff.Ends.mkdir_new (absent : w.get p = none) :
    (Eff.op (.mkdir p) : Eff P K D ε S _).Ends s w (.ok (.ok ())) s (w.put p [] 0) := by
  change (Op.exec (.mkdir p) w).bind _ = _
  rw [Op.exec, absent]
  rfl

theorem Eff.Ends.rename (there : w.get p = some f) :
    (Eff.op (.rename p q) : Eff P K D ε S _).Ends s w (.ok (.ok ())) s (w.move p q f) := by
  change (Op.exec (.rename p q) w).bind _ = _
  rw [Op.exec, there]
  rfl

theorem Eff.Ends.list {d : P → Bool} {l : List P} (listed : w.files.keys.filter d = l) :
    (Eff.op (.list d) : Eff P K D ε S _).Ends s w (.ok (.ok l)) s w := by
  change (Op.exec (.list d) w).bind _ = _
  rw [Op.exec, listed]
  rfl

end Ops
end Ends

section Marked
variable {σ : Sem P K D} {p : Prog P K D α} {w v : World P K} {a : α}

variable (flat : Op P K → Bool)

/-- The computed run of a program that goes by marks and keeps to `flat` operations. -/
def Prog.execMarked : Prog P K D α → World P K → Option (α × World P K)
  | .ret a, w => some (a, w)
  | .call (.mark k) f, w => (f ()).execMarked { w with marks := k :: w.marks }
  | .call op f, w => if flat op then (op.exec w).bind fun x => (f x.1).execMarked x.2 else none

variable {flat}

theorem Prog.execMarked_call {op : Op P K} {f : op.Res D → Prog P K D α} (unmarked : ¬ ∃ k, op = .mark k)
    (h : (Prog.call op f).execMarked flat w = some (a, v)) :
    flat op = true ∧ ∃ r u, op.exec w = some (r, u) ∧ (f r).execMarked flat u = some (a, v) := by
  have rest : (if flat op then (op.exec w).bind fun x => (f x.1).execMarked flat x.2 else none) = some (a, v) := by
    cases op <;> first | exact h | exact absurd ⟨_, rfl⟩ unmarked
  split at rest
  · rename_i good
    obtain ⟨⟨r, u⟩, step, rest⟩ := Option.bind_eq_some_iff.mp rest
    exact ⟨good, r, u, step, rest⟩
  · cases rest

theorem Op.exec_marks {op : Op P K} {r : op.Res D} (h : op.exec w = some (r, v)) : v.marks = w.marks := by
  cases op with
  | setLen p _ | rename p _ | remove p | mkdir p =>
      rw [Op.exec] at h
      cases found : w.get p <;> rw [found] at h <;> cases h <;> rfl
  | _ => cases h <;> rfl

theorem Prog.execMarked_marks (h : p.execMarked flat w = some (a, v)) : ∀ k ∈ w.marks, k ∈ v.marks := by
  induction p generalizing w with
  | ret b =>
      cases h
      exact fun _ mem => mem
  | call op f ih =>
      by_cases mark : ∃ k, op = .mark k
      · obtain ⟨k, rfl⟩ := mark
        exact fun k' mem => ih () h k' (.tail _ mem)
      · obtain ⟨-, r, u, step, rest⟩ := execMarked_call mark h
        exact Op.exec_marks step ▸ ih r rest

/-- A run that is computed is a finished run, when what is known at the marks holds. -/
theorem Prog.execMarked_runs (rootless : ∀ op, flat op = true → ∀ p, op.touches p → σ.parent p = none)
    (known : ∀ k ∈ v.marks, ∀ u, σ.holds k u)
    (h : p.execMarked flat w = some (a, v)) : p.Runs σ w a v := by
  induction p generalizing w with
  | ret b =>
      cases h
      exact ⟨rfl, rfl⟩
  | call op f ih =>
      by_cases mark : ∃ k, op = .mark k
      · obtain ⟨k, rfl⟩ := mark
        have passed := known k (execMarked_marks (p := f ()) h k List.mem_cons_self) w
        exact ⟨(), _, .inl ⟨passed, rfl⟩, ih () h⟩
      · obtain ⟨good, r, u, step, rest⟩ := execMarked_call mark h
        refine ⟨r, u, Op.exec_does (fun p touched d parent => ?_) step, ih r rest⟩
        rw [rootless op good p touched] at parent
        cases parent

end Marked
end FileProg
