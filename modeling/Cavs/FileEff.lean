import Cavs.FileProg

/-!
# Stateful programs with errors

A method of a handle with mutable state: it runs file operations, changes the
state, and ends in a value or an error. The state survives an error.
-/
namespace FileProg

def Eff (P K D ε S α : Type) : Type := S → Prog P K D (Except ε α × S)

namespace Eff
variable {P K D ε S α β : Type} {m : Eff P K D ε S α} {s : S} {w : World P K} {f : β → Eff P K D ε S α}

instance : Monad (Eff P K D ε S) where
  pure a := fun s => .ret (.ok a, s)
  bind m f := fun s => m s >>= fun x =>
    match x with
    | (.ok a, t) => f a t
    | (.error e, t) => .ret (.error e, t)

def get : Eff P K D ε S S := fun s => .ret (.ok s, s)

def modify (f : S → S) : Eff P K D ε S Unit := fun s => .ret (.ok (), f s)

def throw (e : ε) : Eff P K D ε S α := fun s => .ret (.error e, s)

/-- Run a program that does not see the state. -/
def lift (p : Prog P K D α) : Eff P K D ε S α := fun s => p >>= fun a => .ret (.ok a, s)

def op (o : Op P K) : Eff P K D ε S (o.Res D) := lift (.op o)

/-- Turn an I/O error into an error of the handle. -/
def orThrow (f : IoError → ε) (r : Except IoError α) : Eff P K D ε S α :=
  match r with
  | .ok a => pure a
  | .error e => throw (f e)

/-- The outcome of a method as a value. -/
def attempt (m : Eff P K D ε S α) : Eff P K D ε S (Except ε α) :=
  fun s => m s >>= fun x => .ret (.ok x.1, x.2)

def ofExcept (r : Except ε α) : Eff P K D ε S α :=
  match r with
  | .ok a => pure a
  | .error e => throw e

def forEach : List β → (β → Eff P K D ε S Unit) → Eff P K D ε S Unit
  | [], _ => pure ()
  | b :: bs, f => do f b; forEach bs f

variable [DecidableEq P] {σ : Sem P K D} {C C' : World P K → Prop}
  {Q Q' : Except ε α → S → World P K → Prop}

variable (σ C Q) in
/-- The method ends in `Q`, and a crash inside it leaves a tree in `C`. -/
def Wp (m : Eff P K D ε S α) (s : S) (w : World P K) : Prop :=
  (m s).Wp σ C (fun x v => Q x.1 x.2 v) w

variable (σ) in
def Runs (m : Eff P K D ε S α) (s : S) (w : World P K) (r : Except ε α) (t : S)
    (v : World P K) : Prop := (m s).Runs σ w (r, t) v

theorem wp_iff (m : Eff P K D ε S α) (s : S) (w : World P K) :
    m.Wp σ C Q s w ↔
      (∀ v, (m s).Crashes σ w v → C v) ∧ ∀ r t v, m.Runs σ s w r t v → Q r t v := by
  rw [Wp, Prog.wp_iff]
  exact and_congr_right fun _ => ⟨fun h r t v run => h (r, t) v run, fun h x v run => h x.1 x.2 v run⟩

theorem Wp.mono (h : m.Wp σ C Q s w) (hc : ∀ v, C v → C' v) (hq : ∀ r t v, Q r t v → Q' r t v) :
    m.Wp σ C' Q' s w :=
  Prog.Wp.mono h hc fun x v q => hq x.1 x.2 v q

@[simp] theorem wp_throw (e : ε) (s : S) (w : World P K) :
    (throw e : Eff P K D ε S α).Wp σ C Q s w ↔ C w ∧ Q (.error e) s w := Iff.rfl

/-- What the rest of a block owes after an outcome of its first statement. -/
@[simp, reducible] def After (σ : Sem P K D) (C : World P K → Prop) (Q : Except ε α → S → World P K → Prop)
    (f : β → Eff P K D ε S α) : Except ε β → S → World P K → Prop
  | .ok b, s, w => (f b).Wp σ C Q s w
  | .error e, s, w => C w ∧ Q (.error e) s w

theorem wp_bind (m : Eff P K D ε S β) (f : β → Eff P K D ε S α) (s : S) (w : World P K) :
    (m >>= f).Wp σ C Q s w ↔ m.Wp σ C (After σ C Q f) s w := by
  change (m s >>= _).Wp σ C _ w ↔ _
  rw [Prog.wp_bind]
  constructor
  · intro h
    refine Prog.Wp.mono h (fun _ c => c) ?_
    rintro ⟨r | b, t⟩ v q <;> exact q
  · intro h
    refine Prog.Wp.mono h (fun _ c => c) ?_
    rintro ⟨r | b, t⟩ v q <;> exact q

/-- A cut in the rest of a block is one in the block. -/
theorem crashes_bind {m : Eff P K D ε S β} {t : S} {u v : World P K} {b : β} (run : m.Runs σ s w (.ok b) t u)
    (cut : (f b t).Crashes σ u v) : ((m >>= f) s).Crashes σ w v := by
  have later : ∀ p : Prog P K D (Except ε β × S), ∀ w, p.Runs σ w (.ok b, t) u → (p >>= fun x =>
      match x with
      | (.ok a, t) => f a t
      | (.error e, t) => .ret (.error e, t)).Crashes σ w v := by
    intro p
    induction p with
    | ret x =>
        rintro w ⟨rfl, rfl⟩
        exact cut
    | call op k ih =>
        rintro w ⟨r, u', step, rest⟩
        exact .inr (.inr ⟨r, u', step, ih r u' rest⟩)
  exact later (m s) w run

theorem Wp.then {m : Eff P K D ε S β} (h : m.Wp σ C (After σ C Q f) s w) :
    (m >>= f).Wp σ C Q s w := (wp_bind ..).mpr h

theorem Wp.keep (h : m.Wp σ C Q s w) :
    m.Wp σ C (fun r t v => C v ∧ Q r t v) s w := Prog.Wp.keep h

/-- A statement with its own postcondition, and the rest from there. -/
theorem Wp.seq {m : Eff P K D ε S β} {R : Except ε β → S → World P K → Prop} (h : m.Wp σ C R s w)
    (good : ∀ b t v, C v → R (.ok b) t v → (f b).Wp σ C Q t v)
    (bad : ∀ e t v, R (.error e) t v → Q (.error e) t v) : (m >>= f).Wp σ C Q s w := by
  refine (h.keep.mono (fun _ c => c) ?_).then
  rintro (e | b) t v ⟨c, r⟩
  · exact ⟨c, bad e t v r⟩
  · exact good b t v c r

theorem wp_ite {c : Prop} [Decidable c] {n : Eff P K D ε S α} (yes : c → m.Wp σ C Q s w)
    (no : ¬ c → n.Wp σ C Q s w) :
    (if c then m else n).Wp σ C Q s w := by
  split
  · exact yes ‹_›
  · exact no ‹_›

theorem wp_good {f : IoError → ε} {g : β → Eff P K D ε S α} {b : β} (h : (g b).Wp σ C Q s w) :
    (orThrow f (.ok b) >>= g).Wp σ C Q s w := h

theorem wp_bad {f : IoError → ε} {g : β → Eff P K D ε S α} {e : IoError} (here : C w) (h : Q (.error (f e)) s w) :
    (orThrow f (.error e) >>= g).Wp σ C Q s w := ⟨here, h⟩

theorem wp_see {f : S → Eff P K D ε S α} (h : (f s).Wp σ C Q s w) :
    (get >>= f).Wp σ C Q s w := h

theorem wp_set {g : S → S} {f : Unit → Eff P K D ε S α} (h : (f ()).Wp σ C Q (g s) w) :
    (modify g >>= f).Wp σ C Q s w := h

theorem wp_lift (p : Prog P K D α) (s : S) (w : World P K) :
    (lift p : Eff P K D ε S α).Wp σ C Q s w ↔
      p.Wp σ C (fun a v => Q (.ok a) s v) w := by
  change (p >>= _).Wp σ C _ w ↔ _
  rw [Prog.wp_bind]
  exact ⟨fun h => h.mono (fun _ c => c) fun _ _ q => q.2, Prog.Wp.keep⟩

/-- What an outcome of a tried method hands to the rest. -/
theorem wp_attempt {R : Except ε (Except ε α) → S → World P K → Prop} (m : Eff P K D ε S α) (s : S)
    (w : World P K) :
    (attempt m).Wp σ C R s w ↔ m.Wp σ C (fun r t v => R (.ok r) t v) s w := by
  change (m s >>= _).Wp σ C _ w ↔ _
  rw [Prog.wp_bind]
  exact ⟨fun h => h.mono (fun _ c => c) fun _ _ q => q.2, Prog.Wp.keep⟩

theorem wp_op {o : Op P K} {R : Except ε (o.Res D) → S → World P K → Prop} (s : S) (w : World P K) :
    (op o : Eff P K D ε S (o.Res D)).Wp σ C R s w ↔
      C w ∧ (∀ v, σ.Torn o w v → C v) ∧ ∀ r u, σ.Step o w r u → C u ∧ R (.ok r) s u := by
  rw [op, wp_lift]; rfl

/-- A loop whose every round keeps `I` keeps it; a failing round ends the loop. -/
theorem wp_forEach {I : S → World P K → Prop} {R : Except ε Unit → S → World P K → Prop}
    (f : β → Eff P K D ε S Unit) (done : ∀ t v, I t v → C v → R (.ok ()) t v)
    (l : List β) (round : ∀ b ∈ l, ∀ t v, I t v → (f b).Wp σ C (fun r t' v' => match r with
      | .ok () => I t' v'
      | .error e => R (.error e) t' v') t v)
    (s : S) (w : World P K) (start : I s w) (here : C w) : (forEach l f).Wp σ C R s w := by
  induction l generalizing s w with
  | nil => exact ⟨here, done s w start here⟩
  | cons b bs ih =>
      rw [forEach, wp_bind]
      refine Prog.Wp.mono (Prog.Wp.keep (round b (by simp) s w start)) (fun _ c => c) ?_
      rintro ⟨r | ⟨⟨⟩⟩, t⟩ v ⟨c, q⟩
      · exact ⟨c, q⟩
      · exact ih (fun b hb => round b (List.mem_cons_of_mem _ hb)) t v q c

section Rules
variable {p q : P} {s : S} {w : World P K} {b : Bytes}
  {R : Except ε (Except IoError Unit) → S → World P K → Prop}

theorem wp_read {R : Except ε (Except IoError Bytes) → S → World P K → Prop} (here : C w)
    (found : ∀ f, w.get p = some f → R (.ok (.ok f.bytes)) s w)
    (absent : w.get p = none → R (.ok (.error .notFound)) s w)
    (broken : σ.mayFail (.read p) w → R (.ok (.error .other)) s w) :
    (op (.read p) : Eff P K D ε S _).Wp σ C R s w := by
  refine (wp_op s w).mpr ⟨here, fun v cut => cut.elim, ?_⟩
  rintro r u (⟨rfl, rfl⟩ | ⟨may, rfl, rfl⟩)
  · cases h : u.get p with
    | none => exact ⟨here, absent h⟩
    | some f => exact ⟨here, found f h⟩
  · exact ⟨here, broken may⟩

theorem wp_present {R : Except ε Bool → S → World P K → Prop} (here : C w)
    (next : R (.ok (w.get p).isSome) s w) :
    (op (.present p) : Eff P K D ε S _).Wp σ C R s w := by
  refine (wp_op s w).mpr ⟨here, fun v cut => cut.elim, ?_⟩
  rintro r u (⟨rfl, rfl⟩ | ⟨-, bad⟩)
  · exact ⟨here, next⟩
  · exact bad.elim

theorem wp_stat {R : Except ε (Option (Nat × Nat)) → S → World P K → Prop} (here : C w)
    (next : R (.ok ((w.get p).map fun f => (f.bytes.length, f.mtime))) s w) :
    (op (.stat p) : Eff P K D ε S _).Wp σ C R s w := by
  refine (wp_op s w).mpr ⟨here, fun v cut => cut.elim, ?_⟩
  rintro r u (⟨rfl, rfl⟩ | ⟨-, bad⟩)
  · exact ⟨here, next⟩
  · exact bad.elim

theorem wp_mark {k : K} {R : Except ε Unit → S → World P K → Prop} (here : C w)
    (next : σ.holds k w → C { w with marks := k :: w.marks } ∧
      R (.ok ()) s { w with marks := k :: w.marks }) :
    (op (.mark k) : Eff P K D ε S _).Wp σ C R s w := by
  refine (wp_op s w).mpr ⟨here, fun v cut => cut.elim, ?_⟩
  rintro r u (⟨holds, rfl⟩ | ⟨-, bad⟩)
  · exact next holds
  · exact bad.elim

theorem wp_now {R : Except ε Nat → S → World P K → Prop} (here : C w)
    (next : ∀ t, R (.ok t) s w) : (op .now : Eff P K D ε S _).Wp σ C R s w := by
  refine (wp_op s w).mpr ⟨here, fun v cut => cut.elim, ?_⟩
  rintro r u (rfl | ⟨-, bad⟩)
  · exact ⟨here, next r⟩
  · exact bad.elim

theorem wp_seed {R : Except ε Nat → S → World P K → Prop} (here : C w)
    (next : ∀ t, R (.ok t) s w) : (op .seed : Eff P K D ε S _).Wp σ C R s w := by
  refine (wp_op s w).mpr ⟨here, fun v cut => cut.elim, ?_⟩
  rintro r u (rfl | ⟨-, bad⟩)
  · exact ⟨here, next r⟩
  · exact bad.elim

theorem wp_digest {R : Except ε D → S → World P K → Prop} (here : C w)
    (next : (∀ c ∈ w.named, σ.digest c = σ.digest b → c = b) →
      C { w with named := b :: w.named } ∧
        R (.ok (σ.digest b)) s { w with named := b :: w.named }) :
    (op (.digest b) : Eff P K D ε S _).Wp σ C R s w := by
  refine (wp_op s w).mpr ⟨here, fun v cut => cut.elim, ?_⟩
  rintro r u (⟨rfl, clear, rfl⟩ | ⟨-, bad⟩)
  · exact next clear
  · exact bad.elim

theorem wp_sync (here : C w) (next : R (.ok (.ok ())) s w)
    (broken : σ.mayFail (.sync p) w → R (.ok (.error .other)) s w) :
    (op (.sync p) : Eff P K D ε S _).Wp σ C R s w := by
  refine (wp_op s w).mpr ⟨here, fun v cut => cut.elim, ?_⟩
  rintro r u (⟨rfl, rfl⟩ | ⟨may, rfl, rfl⟩)
  · exact ⟨here, next⟩
  · exact ⟨here, broken may⟩

/-- A write to a path that needs no directory: it lands, or fails after a prefix. -/
theorem wp_write (flat : σ.parent p = none) (here : C w) (cut : ∀ n t, C (w.put p (b.take n) t))
    (next : ∀ t, R (.ok (.ok ())) s (w.put p b t))
    (broken : σ.mayFail (.write p b) w → ∀ v, (v = w ∨ ∃ n t, v = w.put p (b.take n) t) →
      R (.ok (.error .other)) s v) :
    (op (.write p b) : Eff P K D ε S _).Wp σ C R s w := by
  have dir : σ.DirOk w p := fun d hd => by simp [flat] at hd
  refine (wp_op s w).mpr ⟨here, ?_, ?_⟩
  · rintro v ⟨-, n, t, rfl⟩; exact cut n t
  · rintro r u ((⟨-, rfl, t, rfl⟩ | ⟨bad, -⟩) | ⟨may, rfl, rfl | ⟨-, n, t, rfl⟩⟩)
    · exact ⟨by simpa using cut b.length t, next t⟩
    · exact (bad dir).elim
    · exact ⟨here, broken may u (.inl rfl)⟩
    · exact ⟨cut n t, broken may _ (.inr ⟨n, t, rfl⟩)⟩

theorem wp_append (flat : σ.parent p = none) (here : C w) (cut : ∀ n t, C (w.put p (w.bytes p ++ b.take n) t))
    (next : ∀ t, R (.ok (.ok ())) s (w.put p (w.bytes p ++ b) t)) (broken : σ.mayFail (.append p b) w →
      ∀ v, (v = w ∨ ∃ n t, v = w.put p (w.bytes p ++ b.take n) t) →
        R (.ok (.error .other)) s v) :
    (op (.append p b) : Eff P K D ε S _).Wp σ C R s w := by
  have dir : σ.DirOk w p := fun d hd => by simp [flat] at hd
  refine (wp_op s w).mpr ⟨here, ?_, ?_⟩
  · rintro v ⟨-, n, t, rfl⟩; exact cut n t
  · rintro r u ((⟨-, rfl, t, rfl⟩ | ⟨bad, -⟩) | ⟨may, rfl, rfl | ⟨-, n, t, rfl⟩⟩)
    · exact ⟨by simpa using cut b.length t, next t⟩
    · exact (bad dir).elim
    · exact ⟨here, broken may u (.inl rfl)⟩
    · exact ⟨cut n t, broken may _ (.inr ⟨n, t, rfl⟩)⟩

theorem wp_rename (flat : σ.parent q = none) (here : C w)
    (next : ∀ f, w.get p = some f → C (w.move p q f) ∧ R (.ok (.ok ())) s (w.move p q f))
    (absent : w.get p = none → R (.ok (.error .notFound)) s w)
    (broken : σ.mayFail (.rename p q) w → R (.ok (.error .other)) s w) :
    (op (.rename p q) : Eff P K D ε S _).Wp σ C R s w := by
  have dir : σ.DirOk w q := fun d hd => by simp [flat] at hd
  refine (wp_op s w).mpr ⟨here, fun v cut => cut.elim, ?_⟩
  rintro r u (does | ⟨may, rfl, rfl⟩)
  · simp only [Sem.Does] at does
    cases found : w.get p with
    | none =>
        simp only [found] at does
        obtain ⟨rfl, rfl⟩ := does
        exact ⟨here, absent found⟩
    | some f =>
        simp only [found] at does
        obtain ⟨-, rfl, rfl⟩ | ⟨bad, -⟩ := does
        · exact next f found
        · exact (bad dir).elim
  · exact ⟨here, broken may⟩

theorem wp_remove (here : C w) (next : (w.get p).isSome → C (w.del p) ∧ R (.ok (.ok ())) s (w.del p))
    (absent : w.get p = none → R (.ok (.error .notFound)) s w)
    (broken : σ.mayFail (.remove p) w → R (.ok (.error .other)) s w) :
    (op (.remove p) : Eff P K D ε S _).Wp σ C R s w := by
  refine (wp_op s w).mpr ⟨here, fun v cut => cut.elim, ?_⟩
  rintro r u (does | ⟨may, rfl, rfl⟩)
  · simp only [Sem.Does] at does
    cases found : w.get p with
    | none =>
        simp only [found] at does
        obtain ⟨rfl, rfl⟩ := does
        exact ⟨here, absent found⟩
    | some f =>
        simp only [found] at does
        obtain ⟨rfl, rfl⟩ := does
        exact next (by simp [found])
  · exact ⟨here, broken may⟩

theorem wp_setLen {n : Nat} (here : C w) (next : ∀ f t, w.get p = some f →
      let v := w.put p (f.bytes.take n ++ List.replicate (n - f.bytes.length) 0) t
      C v ∧ R (.ok (.ok ())) s v) (absent : w.get p = none → R (.ok (.error .notFound)) s w)
    (broken : σ.mayFail (.setLen p n) w → R (.ok (.error .other)) s w) :
    (op (.setLen p n) : Eff P K D ε S _).Wp σ C R s w := by
  refine (wp_op s w).mpr ⟨here, fun v cut => cut.elim, ?_⟩
  rintro r u (does | ⟨may, rfl, rfl⟩)
  · simp only [Sem.Does] at does
    cases found : w.get p with
    | none =>
        simp only [found] at does
        obtain ⟨rfl, rfl⟩ := does
        exact ⟨here, absent found⟩
    | some f =>
        simp only [found] at does
        obtain ⟨rfl, t, rfl⟩ := does
        exact next f t found
  · exact ⟨here, broken may⟩

theorem wp_mkdir (here : C w) (old : (w.get p).isSome → R (.ok (.ok ())) s w)
    (new : w.get p = none → ∀ t, C (w.put p [] t) ∧ R (.ok (.ok ())) s (w.put p [] t))
    (broken : σ.mayFail (.mkdir p) w → R (.ok (.error .other)) s w) :
    (op (.mkdir p) : Eff P K D ε S _).Wp σ C R s w := by
  refine (wp_op s w).mpr ⟨here, fun v cut => cut.elim, ?_⟩
  rintro r u (⟨rfl, does⟩ | ⟨may, rfl, rfl⟩)
  · cases found : w.get p with
    | none =>
        simp only [found] at does
        obtain ⟨t, rfl⟩ := does
        exact new found t
    | some f =>
        simp only [found] at does
        subst does
        exact ⟨here, old (by simp [found])⟩
  · exact ⟨here, broken may⟩

theorem wp_list {d : P → Bool} {R : Except ε (Except IoError (List P)) → S → World P K → Prop}
    (here : C w)
    (next : ∀ l : List P, (∀ r, r ∈ l ↔ (w.get r).isSome ∧ d r = true) → l.Nodup →
      R (.ok (.ok l)) s w)
    (broken : σ.mayFail (.list d) w → R (.ok (.error .other)) s w) :
    (op (.list d) : Eff P K D ε S _).Wp σ C R s w := by
  refine (wp_op s w).mpr ⟨here, fun v cut => cut.elim, ?_⟩
  rintro r u (⟨rfl, l, rfl, perm⟩ | ⟨may, rfl, rfl⟩)
  · refine ⟨here, next l (fun r => ?_) (perm.nodup_iff.mpr (u.files.keys_nodup.filter _))⟩
    rw [perm.mem_iff, List.mem_filter, ← AList.mem_keys, AList.lookup_isSome.symm, World.get]
  · exact ⟨here, broken may⟩

end Rules

/-- Every operation the method can come to is in `O`, whatever the responses. -/
def All (O : Op P K → Prop) (m : Eff P K D ε S α) : Prop := ∀ s, (m s).All O

section All
variable {O : Op P K → Prop}

omit [DecidableEq P] in
theorem All.pure (a : α) : (Pure.pure a : Eff P K D ε S α).All O := fun _ => trivial

omit [DecidableEq P] in
theorem All.bind {m : Eff P K D ε S β} {f : β → Eff P K D ε S α} (hm : m.All O)
    (hf : ∀ b, (f b).All O) : (m >>= f).All O := by
  intro s
  refine Prog.All.bind (hm s) ?_
  rintro ⟨e | b, t⟩
  · trivial
  · exact hf b t

omit [DecidableEq P] in
theorem All.get : (Eff.get : Eff P K D ε S S).All O := fun _ => trivial

omit [DecidableEq P] in
theorem All.modify (f : S → S) : (Eff.modify f : Eff P K D ε S Unit).All O := fun _ => trivial

omit [DecidableEq P] in
theorem All.throw (e : ε) : (Eff.throw e : Eff P K D ε S α).All O := fun _ => trivial

omit [DecidableEq P] in
theorem All.op {o : Op P K} (h : O o) : (Eff.op o : Eff P K D ε S (o.Res D)).All O :=
  fun _ => ⟨h, fun _ => trivial⟩

omit [DecidableEq P] in
theorem All.attempt {m : Eff P K D ε S α} (h : m.All O) : (Eff.attempt m).All O :=
  fun s => Prog.All.bind (h s) fun _ => trivial

omit [DecidableEq P] in
theorem All.orThrow (f : IoError → ε) (r : Except IoError α) :
    (Eff.orThrow f r : Eff P K D ε S α).All O := by
  cases r
  · exact .throw _
  · exact .pure _

omit [DecidableEq P] in
theorem All.ofExcept (r : Except ε α) : (Eff.ofExcept r : Eff P K D ε S α).All O := by
  cases r
  · exact .throw _
  · exact .pure _

omit [DecidableEq P] in
theorem All.forEach {l : List β} {f : β → Eff P K D ε S Unit} (h : ∀ b ∈ l, (f b).All O) :
    (Eff.forEach l f).All O := by
  induction l with
  | nil => exact .pure _
  | cons b bs ih =>
      exact .bind (h b (by simp)) fun _ => ih fun c hc => h c (List.mem_cons_of_mem _ hc)

theorem All.runs {m : Eff P K D ε S α} (hm : m.All Op.Plain) (s : S) (w : World P K) :
    ∃ r t v, m.Runs σ s w r t v := by
  obtain ⟨⟨r, t⟩, v, run⟩ := Prog.All.runs (hm s) w
  exact ⟨r, t, v, run⟩

end All

/-- The method ends with a value in `Q` or an error in `B`, whatever the responses. -/
def Results (B : ε → Prop) (Q : α → Prop) (m : Eff P K D ε S α) : Prop :=
  ∀ s, (m s).Ends (fun _ => True) fun x => (∀ e, x.1 = .error e → B e) ∧ ∀ a, x.1 = .ok a → Q a

section Results
variable {B : ε → Prop} {Q : α → Prop} {R : β → Prop}

omit [DecidableEq P] in
theorem Results.pure {a : α} (h : Q a) : (Pure.pure a : Eff P K D ε S α).Results B Q := by
  refine fun s => ⟨nofun, fun b same => ?_⟩
  cases same
  exact h

omit [DecidableEq P] in
theorem Results.throw {e : ε} (h : B e) : (Eff.throw e : Eff P K D ε S α).Results B Q := by
  refine fun s => ⟨fun e' same => ?_, nofun⟩
  cases same
  exact h

omit [DecidableEq P] in
theorem Results.get : (Eff.get : Eff P K D ε S S).Results B fun _ => True := fun _ => ⟨nofun, fun _ _ => trivial⟩

omit [DecidableEq P] in
theorem Results.modify (f : S → S) : (Eff.modify f : Eff P K D ε S Unit).Results B fun _ => True :=
  fun _ => ⟨nofun, fun _ _ => trivial⟩

omit [DecidableEq P] in
theorem Results.op (o : Op P K) : (Eff.op o : Eff P K D ε S (o.Res D)).Results B fun _ => True :=
  fun _ => ⟨trivial, fun _ => ⟨nofun, fun _ _ => trivial⟩⟩

omit [DecidableEq P] in
theorem Results.bind {m : Eff P K D ε S β} {f : β → Eff P K D ε S α} (hm : m.Results B R)
    (hf : ∀ b, R b → (f b).Results B Q) : (m >>= f).Results B Q := by
  intro s
  refine (hm s).bind ?_
  rintro ⟨e | b, t⟩ ⟨thrown, given⟩
  · refine ⟨fun e' same => ?_, nofun⟩
    cases same
    exact thrown e rfl
  · exact hf b (given b rfl) t

omit [DecidableEq P] in
theorem Results.orThrow {f : IoError → ε} (h : ∀ e, B (f e)) (r : Except IoError α) :
    (Eff.orThrow f r : Eff P K D ε S α).Results B fun _ => True := by
  cases r with
  | error e => exact .throw (h e)
  | ok a => exact .pure trivial

omit [DecidableEq P] in
theorem Results.forEach {l : List β} {f : β → Eff P K D ε S Unit} (h : ∀ b ∈ l, (f b).Results B fun _ => True) :
    (Eff.forEach l f).Results B fun _ => True := by
  induction l with
  | nil => exact .pure trivial
  | cons b bs ih => exact (h b (.head _)).bind fun _ _ => ih fun c mem => h c (.tail _ mem)

end Results

end Eff
end FileProg
