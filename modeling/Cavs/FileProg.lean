import Mathlib.Data.List.AList

/-!
# Programs over a file tree

A program is a finite-branching tree of file operations. One relation says what
an operation may do to the tree, and three readings of a program share it: its
finished runs, the trees a crash can leave behind, and the weakest precondition
that covers both. Paths, digests and marks are parameters.
-/
namespace FileProg

abbrev Bytes := List UInt8

inductive IoError where
  | notFound
  | other
  deriving DecidableEq, Repr

structure File where
  bytes : Bytes
  mtime : Nat
  deriving DecidableEq, Repr

/-- The tree, the byte strings whose digest was taken so far, and the marks the
program went by, the latest first. -/
structure World (P K : Type) where
  files : AList fun _ : P => File
  named : List Bytes
  marks : List K

/-- A mark is a point of the program: it leaves the tree alone, and a run may be
restricted to what holds there. `now` and `seed` are numbers the program does
not control: the time, and what the order of a hash table hangs on. -/
inductive Op (P K : Type) where
  | read (p : P)
  | present (p : P)
  | stat (p : P)
  | write (p : P) (b : Bytes)
  | append (p : P) (b : Bytes)
  | setLen (p : P) (n : Nat)
  | sync (p : P)
  | rename (p q : P)
  | remove (p : P)
  | mkdir (p : P)
  | list (d : P → Bool)
  | now
  | seed
  | digest (b : Bytes)
  | mark (k : K)

@[reducible] def Op.Res {P K : Type} (D : Type) : Op P K → Type
  | .read _ => Except IoError Bytes
  | .present _ => Bool
  | .stat _ => Option (Nat × Nat)
  | .write .. | .append .. | .setLen .. | .sync _ | .rename .. | .remove _ | .mkdir _ =>
      Except IoError Unit
  | .list _ => Except IoError (List P)
  | .now | .seed => Nat
  | .digest _ => D
  | .mark _ => Unit

section World
variable {P K : Type} [DecidableEq P] {p : P} {w : World P K}

def World.get (w : World P K) (p : P) : Option File := w.files.lookup p

/-- The bytes of a file; a missing file reads as empty. -/
def World.bytes (w : World P K) (p : P) : Bytes := ((w.get p).map File.bytes).getD []

def World.put (w : World P K) (p : P) (b : Bytes) (t : Nat) : World P K :=
  { w with files := w.files.insert p ⟨b, t⟩ }

def World.del (w : World P K) (p : P) : World P K := { w with files := w.files.erase p }

def World.move (w : World P K) (p q : P) (f : File) : World P K :=
  { w with files := (w.files.erase p).insert q f }

def World.empty : World P K := ⟨∅, [], []⟩

@[simp] theorem get_empty (p : P) : (World.empty : World P K).get p = none := AList.lookup_empty p

@[simp] theorem get_put_self (w : World P K) (p : P) (b : Bytes) (t : Nat) :
    (w.put p b t).get p = some ⟨b, t⟩ := AList.lookup_insert _

theorem get_put_ne {q : P} (h : q ≠ p) (w : World P K) (b : Bytes) (t : Nat) :
    (w.put p b t).get q = w.get q := AList.lookup_insert_ne h

@[simp] theorem get_del_self (w : World P K) (p : P) : (w.del p).get p = none :=
  AList.lookup_erase _ _

theorem get_del_ne {q : P} (h : q ≠ p) (w : World P K) : (w.del p).get q = w.get q :=
  AList.lookup_erase_ne h

@[simp] theorem get_move_self (w : World P K) (p q : P) (f : File) :
    (w.move p q f).get q = some f := AList.lookup_insert _

theorem get_move_ne {q r : P} (hq : r ≠ q) (hp : r ≠ p) (w : World P K) (f : File) :
    (w.move p q f).get r = w.get r :=
  (AList.lookup_insert_ne hq).trans (AList.lookup_erase_ne hp)

theorem get_move_source {q : P} (h : p ≠ q) (w : World P K) (f : File) :
    (w.move p q f).get p = none :=
  (AList.lookup_insert_ne h).trans (AList.lookup_erase _ _)

/-- Lookup after one step, with the path test left to `simp`. -/
theorem get_put (w : World P K) (p q : P) (b : Bytes) (t : Nat) :
    (w.put p b t).get q = if q = p then some ⟨b, t⟩ else w.get q := by
  split
  · subst q; exact get_put_self ..
  · exact get_put_ne ‹_› ..

theorem get_del (w : World P K) (p q : P) :
    (w.del p).get q = if q = p then none else w.get q := by
  split
  · subst q; exact get_del_self ..
  · exact get_del_ne ‹_› ..

theorem get_move (w : World P K) (p q r : P) (f : File) :
    (w.move p q f).get r = if r = q then some f else if r = p then none else w.get r := by
  split
  · subst r; exact get_move_self ..
  · split
    · subst r; exact get_move_source ‹_› ..
    · exact get_move_ne ‹_› ‹_› ..

theorem bytes_of_get {f : File} (h : w.get p = some f) :
    w.bytes p = f.bytes := by simp [World.bytes, h]

theorem bytes_of_absent (h : w.get p = none) : w.bytes p = [] := by
  simp [World.bytes, h]

theorem bytes_congr {v : World P K} (h : w.get p = v.get p) : w.bytes p = v.bytes p := by
  simp only [World.bytes, h]

theorem mem_keys_iff : p ∈ w.files.keys ↔ (w.get p).isSome := by
  rw [World.get, AList.lookup_isSome, AList.mem_keys]

end World

/-- What a run is relative to: the digest function, which directory must be
there before a file can be made, which operations may fail without a reason in
the tree, and what is known to hold at the marks. -/
structure Sem (P K D : Type) where
  digest : Bytes → D
  parent : P → Option P
  mayFail : Op P K → World P K → Prop
  holds : K → World P K → Prop

section Step
variable {P K D : Type} [DecidableEq P]

def Sem.DirOk (σ : Sem P K D) (w : World P K) (p : P) : Prop :=
  ∀ d, σ.parent p = some d → (w.get d).isSome

/-- What a write leaves when it is cut short: any prefix of its bytes. -/
def Sem.Torn (σ : Sem P K D) : Op P K → World P K → World P K → Prop
  | .write p b, w, v => σ.DirOk w p ∧ ∃ n t, v = w.put p (b.take n) t
  | .append p b, w, v => σ.DirOk w p ∧ ∃ n t, v = w.put p (w.bytes p ++ b.take n) t
  | _, _, _ => False

/-- The regular outcome of an operation. A digest step keeps to runs that meet no
collision among the byte strings they name by digest. -/
def Sem.Does (σ : Sem P K D) : (op : Op P K) → World P K → op.Res D → World P K → Prop
  | .read p, w, r, v =>
      v = w ∧ r = match w.get p with
        | some f => .ok f.bytes
        | none => .error .notFound
  | .present p, w, r, v => v = w ∧ r = (w.get p).isSome
  | .stat p, w, r, v => v = w ∧ r = (w.get p).map fun f => (f.bytes.length, f.mtime)
  | .write p b, w, r, v =>
      (σ.DirOk w p ∧ r = .ok () ∧ ∃ t, v = w.put p b t) ∨
      (¬ σ.DirOk w p ∧ r = .error .notFound ∧ v = w)
  | .append p b, w, r, v =>
      (σ.DirOk w p ∧ r = .ok () ∧ ∃ t, v = w.put p (w.bytes p ++ b) t) ∨
      (¬ σ.DirOk w p ∧ r = .error .notFound ∧ v = w)
  | .setLen p n, w, r, v =>
      match w.get p with
      | some f => r = .ok () ∧ ∃ t,
          v = w.put p (f.bytes.take n ++ List.replicate (n - f.bytes.length) 0) t
      | none => r = .error .notFound ∧ v = w
  | .sync _, w, r, v => r = .ok () ∧ v = w
  | .rename p q, w, r, v =>
      match w.get p with
      | some f => (σ.DirOk w q ∧ r = .ok () ∧ v = w.move p q f) ∨
          (¬ σ.DirOk w q ∧ r = .error .notFound ∧ v = w)
      | none => r = .error .notFound ∧ v = w
  | .remove p, w, r, v =>
      match w.get p with
      | some _ => r = .ok () ∧ v = w.del p
      | none => r = .error .notFound ∧ v = w
  | .mkdir p, w, r, v =>
      r = .ok () ∧ match w.get p with
        | some _ => v = w
        | none => ∃ t, v = w.put p [] t
  | .list d, w, r, v => v = w ∧ ∃ l, r = .ok l ∧ l.Perm (w.files.keys.filter d)
  | .now, w, _, v | .seed, w, _, v => v = w
  | .digest b, w, r, v =>
      r = σ.digest b ∧ (∀ c ∈ w.named, σ.digest c = σ.digest b → c = b) ∧
      v = { w with named := b :: w.named }
  | .mark k, w, _, v => σ.holds k w ∧ v = { w with marks := k :: w.marks }

/-- A failure without a reason in the tree. It may leave a write cut short. -/
def Sem.Fails (σ : Sem P K D) : (op : Op P K) → World P K → op.Res D → World P K → Prop
  | .read _, w, r, v => r = .error .other ∧ v = w
  | .write p b, w, r, v => r = .error .other ∧ (v = w ∨ σ.Torn (.write p b) w v)
  | .append p b, w, r, v => r = .error .other ∧ (v = w ∨ σ.Torn (.append p b) w v)
  | .setLen .., w, r, v | .sync _, w, r, v | .rename .., w, r, v | .remove _, w, r, v
  | .mkdir _, w, r, v => r = .error .other ∧ v = w
  | .list _, w, r, v => r = .error .other ∧ v = w
  | _, _, _, _ => False

def Sem.Step (σ : Sem P K D) (op : Op P K) (w : World P K) (r : op.Res D) (v : World P K) : Prop :=
  σ.Does op w r v ∨ (σ.mayFail op w ∧ σ.Fails op w r v)

end Step

inductive Prog (P K D α : Type) where
  | ret (a : α)
  | call (op : Op P K) (k : op.Res D → Prog P K D α)

namespace Prog
variable {P K D α β : Type} {p : Prog P K D α} {w : World P K}

def bind : Prog P K D α → (α → Prog P K D β) → Prog P K D β
  | .ret a, f => f a
  | .call op k, f => .call op fun r => (k r).bind f

instance : Monad (Prog P K D) where
  pure := .ret
  bind := bind

def op (o : Op P K) : Prog P K D (o.Res D) := .call o .ret

@[simp] theorem pure_eq (a : α) : (pure a : Prog P K D α) = .ret a := rfl

@[simp] theorem ret_bind (a : α) (f : α → Prog P K D β) : (Prog.ret a >>= f) = f a := rfl

@[simp] theorem call_bind (o : Op P K) (k : o.Res D → Prog P K D α) (f : α → Prog P K D β) :
    (Prog.call o k >>= f) = .call o fun r => k r >>= f := rfl

variable [DecidableEq P] (σ : Sem P K D)

/-- The finished runs of a program. -/
def Runs : Prog P K D α → World P K → α → World P K → Prop
  | .ret a, w, b, v => b = a ∧ v = w
  | .call op k, w, b, v => ∃ r u, σ.Step op w r u ∧ (k r).Runs u b v

/-- The trees a crash inside the program can leave behind. -/
def Crashes : Prog P K D α → World P K → World P K → Prop
  | .ret _, w, v => v = w
  | .call op k, w, v => v = w ∨ σ.Torn op w v ∨ ∃ r u, σ.Step op w r u ∧ (k r).Crashes u v

/-- Every finished run ends in `Q`, and every crash leaves a tree in `C`. -/
def Wp (C : World P K → Prop) (Q : α → World P K → Prop) : Prog P K D α → World P K → Prop
  | .ret a, w => C w ∧ Q a w
  | .call op k, w => C w ∧ (∀ v, σ.Torn op w v → C v) ∧
      ∀ r u, σ.Step op w r u → (k r).Wp C Q u

variable {σ} {C C' : World P K → Prop} {Q Q' : α → World P K → Prop}

theorem wp_iff (p : Prog P K D α) (w : World P K) :
    p.Wp σ C Q w ↔
      (∀ v, p.Crashes σ w v → C v) ∧ ∀ a v, p.Runs σ w a v → Q a v := by
  induction p generalizing w with
  | ret a =>
      constructor
      · rintro ⟨c, q⟩
        exact ⟨fun v h => h ▸ c, fun b v h => h.1 ▸ h.2 ▸ q⟩
      · rintro ⟨c, q⟩
        exact ⟨c w rfl, q a w ⟨rfl, rfl⟩⟩
  | call op k ih =>
      constructor
      · rintro ⟨here, torn, next⟩
        refine ⟨?_, ?_⟩
        · rintro v (rfl | cut | ⟨r, u, step, rest⟩)
          · exact here
          · exact torn v cut
          · exact ((ih r u).mp (next r u step)).1 v rest
        · rintro a v ⟨r, u, step, rest⟩
          exact ((ih r u).mp (next r u step)).2 a v rest
      · rintro ⟨crash, done⟩
        refine ⟨crash w (.inl rfl), fun v cut => crash v (.inr (.inl cut)), ?_⟩
        intro r u step
        exact (ih r u).mpr ⟨fun v h => crash v (.inr (.inr ⟨r, u, step, h⟩)),
          fun a v h => done a v ⟨r, u, step, h⟩⟩

theorem Wp.here (h : p.Wp σ C Q w) : C w := by
  cases p with
  | ret a => exact h.1
  | call op k => exact h.1

theorem Wp.mono (h : p.Wp σ C Q w) (hc : ∀ v, C v → C' v) (hq : ∀ a v, Q a v → Q' a v) : p.Wp σ C' Q' w := by
  rw [wp_iff] at h ⊢
  exact ⟨fun v c => hc v (h.1 v c), fun a v r => hq a v (h.2 a v r)⟩

theorem Wp.and (h : p.Wp σ C Q w) (h' : p.Wp σ C' Q' w) :
    p.Wp σ (fun v => C v ∧ C' v) (fun a v => Q a v ∧ Q' a v) w := by
  rw [wp_iff] at h h' ⊢
  exact ⟨fun v c => ⟨h.1 v c, h'.1 v c⟩, fun a v r => ⟨h.2 a v r, h'.2 a v r⟩⟩

theorem wp_bind (p : Prog P K D β) (f : β → Prog P K D α) (w : World P K) :
    (p >>= f).Wp σ C Q w ↔ p.Wp σ C (fun b v => (f b).Wp σ C Q v) w := by
  induction p generalizing w with
  | ret b => exact ⟨fun h => ⟨h.here, h⟩, fun h => h.2⟩
  | call op k ih => simp only [call_bind, Wp, ih]

/-- A crash may come before anything is done. -/
theorem crashes_here : p.Crashes σ w w := by
  cases p with
  | ret => rfl
  | call => exact .inl rfl

theorem runs_crashes {v : World P K} {a : α} (h : p.Runs σ w a v) :
    p.Crashes σ w v := by
  induction p generalizing w with
  | ret b => exact h.2
  | call op k ih =>
      obtain ⟨r, u, step, rest⟩ := h
      exact .inr (.inr ⟨r, u, step, ih r rest⟩)

/-- A finished run is also a crash point, so its tree is in `C` too. -/
theorem Wp.keep (h : p.Wp σ C Q w) :
    p.Wp σ C (fun a v => C v ∧ Q a v) w := by
  rw [wp_iff] at h ⊢
  exact ⟨h.1, fun a v run => ⟨h.1 v (runs_crashes run), h.2 a v run⟩⟩

end Prog

section Frame
variable {P K D α β : Type} {op : Op P K} {q : P} {r : op.Res D} {O : Op P K → Prop} {p : Prog P K D α}
  {T : P → Prop}

/-- The paths an operation may change. -/
def Op.touches : Op P K → P → Prop
  | .write p _ | .append p _ | .setLen p _ | .remove p | .mkdir p => fun r => r = p
  | .rename p q => fun r => r = p ∨ r = q
  | _ => fun _ => False

variable [DecidableEq P] {σ : Sem P K D}

theorem Sem.Torn.frame {w v : World P K} (h : σ.Torn op w v) (hq : ¬ op.touches q) : v.get q = w.get q := by
  cases op <;> simp only [Sem.Torn] at h
  case write p b => obtain ⟨-, n, t, rfl⟩ := h; exact get_put_ne hq ..
  case append p b => obtain ⟨-, n, t, rfl⟩ := h; exact get_put_ne hq ..

theorem Sem.Does.frame {w v : World P K} (h : σ.Does op w r v) (hq : ¬ op.touches q) : v.get q = w.get q := by
  cases op <;> simp only [Sem.Does, Op.touches, not_or] at h hq
  case read | present | stat | list => rw [h.1]
  case sync => rw [h.2]
  case now | seed => rw [h]
  case digest => rw [h.2.2]; rfl
  case mark => rw [h.2]; rfl
  case write | append =>
    obtain ⟨-, -, t, rfl⟩ | ⟨-, -, rfl⟩ := h
    · exact get_put_ne hq ..
    · rfl
  case setLen p n =>
    cases found : w.get p <;> simp only [found] at h
    · rw [h.2]
    · obtain ⟨-, t, rfl⟩ := h; exact get_put_ne hq ..
  case rename p p' =>
    cases found : w.get p <;> simp only [found] at h
    · rw [h.2]
    · obtain ⟨-, -, rfl⟩ | ⟨-, -, rfl⟩ := h
      · exact get_move_ne hq.2 hq.1 ..
      · rfl
  case remove p =>
    cases found : w.get p <;> simp only [found] at h
    · rw [h.2]
    · rw [h.2]; exact get_del_ne hq _
  case mkdir p =>
    cases found : w.get p <;> simp only [found] at h
    · obtain ⟨-, t, rfl⟩ := h; exact get_put_ne hq ..
    · rw [h.2]

theorem Sem.Fails.frame {w v : World P K} (h : σ.Fails op w r v) (hq : ¬ op.touches q) : v.get q = w.get q := by
  cases op <;> simp only [Sem.Fails] at h
  case write | append =>
    obtain ⟨-, rfl | cut⟩ := h
    · rfl
    · exact cut.frame hq
  all_goals rw [h.2]

theorem Sem.Step.frame {w v : World P K} (h : σ.Step op w r v) (hq : ¬ op.touches q) : v.get q = w.get q :=
  h.elim (fun does => does.frame hq) fun fails => fails.2.frame hq

/-- Every operation the program can come to is in `O`, whatever the responses. -/
def Prog.All (O : Op P K → Prop) : Prog P K D α → Prop
  | .ret _ => True
  | .call op k => O op ∧ ∀ r, (k r).All O

omit [DecidableEq P] in
theorem Prog.All.bind {f : α → Prog P K D β} (hp : p.All O) (hf : ∀ a, (f a).All O) : (p >>= f).All O := by
  induction p with
  | ret a => exact hf a
  | call op k ih => exact ⟨hp.1, fun r => ih r (hp.2 r)⟩

omit [DecidableEq P] in
theorem Prog.All.mono {O' : Op P K → Prop} (hp : p.All O) (h : ∀ op, O op → O' op) : p.All O' := by
  induction p with
  | ret a => trivial
  | call op k ih => exact ⟨h op hp.1, fun r => ih r (hp.2 r)⟩

/-- Every operation the program can come to is in `O` and every end in `Q`, whatever the
responses. -/
def Prog.Ends (O : Op P K → Prop) (Q : α → Prop) : Prog P K D α → Prop
  | .ret a => Q a
  | .call op k => O op ∧ ∀ r, (k r).Ends O Q

omit [DecidableEq P] in
theorem Prog.Ends.bind {R : α → Prop} {Q : β → Prop} {f : α → Prog P K D β} (hp : p.Ends O R)
    (hf : ∀ a, R a → (f a).Ends O Q) : (p >>= f).Ends O Q := by
  induction p with
  | ret a => exact hf a hp
  | call op k ih => exact ⟨hp.1, fun r => ih r (hp.2 r)⟩

theorem Prog.Ends.mono {O : Op P K → Prop} {Q Q' : α → Prop} {p : Prog P K D α} (hp : p.Ends O Q)
    (h : ∀ a, Q a → Q' a) : p.Ends O Q' := by
  induction p with
  | ret a => exact h a hp
  | call op k ih => exact ⟨hp.1, fun r => ih r (hp.2 r)⟩

omit [DecidableEq P] in
/-- An operation with an outcome in every tree; a digest has none after a collision. -/
def Op.Plain : Op P K → Prop
  | .digest _ | .mark _ => False
  | _ => True

theorem Sem.step_exists (plain : op.Plain) (w : World P K) : ∃ r v, σ.Step op w r v := by
  suffices h : ∃ r v, σ.Does op w r v by
    obtain ⟨r, v, does⟩ := h
    exact ⟨r, v, .inl does⟩
  cases op with
  | read p => exact ⟨_, w, rfl, rfl⟩
  | present p => exact ⟨_, w, rfl, rfl⟩
  | stat p => exact ⟨_, w, rfl, rfl⟩
  | write p b | append p b =>
      by_cases dir : σ.DirOk w p
      · exact ⟨.ok (), _, .inl ⟨dir, rfl, 0, rfl⟩⟩
      · exact ⟨.error .notFound, w, .inr ⟨dir, rfl, rfl⟩⟩
  | setLen p n =>
      cases found : w.get p with
      | none => exact ⟨.error .notFound, w, by simp [Sem.Does, found]⟩
      | some f => exact ⟨.ok (), w.put p (f.bytes.take n ++ List.replicate (n - f.bytes.length) 0) 0, by
          simp only [Sem.Does, found]
          exact ⟨trivial, 0, rfl⟩⟩
  | sync p => exact ⟨.ok (), w, rfl, rfl⟩
  | rename p q =>
      cases found : w.get p with
      | none => exact ⟨.error .notFound, w, by simp [Sem.Does, found]⟩
      | some f =>
          by_cases dir : σ.DirOk w q
          · exact ⟨.ok (), w.move p q f, by simp [Sem.Does, found, dir]⟩
          · exact ⟨.error .notFound, w, by simp [Sem.Does, found, dir]⟩
  | remove p =>
      cases found : w.get p with
      | none => exact ⟨.error .notFound, w, by simp [Sem.Does, found]⟩
      | some f => exact ⟨.ok (), w.del p, by simp [Sem.Does, found]⟩
  | mkdir p =>
      cases found : w.get p with
      | none => exact ⟨.ok (), w.put p [] 0, by simp only [Sem.Does, found]; exact ⟨trivial, 0, rfl⟩⟩
      | some f => exact ⟨.ok (), w, by simp [Sem.Does, found]⟩
  | list d => exact ⟨.ok (w.files.keys.filter d), w, rfl, _, rfl, .refl _⟩
  | now => exact ⟨0, w, rfl⟩
  | seed => exact ⟨0, w, rfl⟩
  | digest b => exact plain.elim
  | mark k => exact plain.elim

/-- A program of plain operations has a run. -/
theorem Prog.All.runs (hp : p.All Op.Plain) (w : World P K) : ∃ a v, p.Runs σ w a v := by
  induction p generalizing w with
  | ret a => exact ⟨a, w, rfl, rfl⟩
  | call op k ih =>
      obtain ⟨r, u, step⟩ := Sem.step_exists hp.1 w
      obtain ⟨a, v, rest⟩ := ih r (hp.2 r) u
      exact ⟨a, v, r, u, step, rest⟩

/-- What every step of every operation in `O` carries along, a crash finds too. -/
theorem Prog.All.carry {R : World P K → World P K → Prop} (refl : ∀ w, R w w)
    (trans : ∀ {u v w}, R u v → R v w → R u w) (torn : ∀ op w v, O op → σ.Torn op w v → R w v)
    (step : ∀ op w r v, O op → σ.Step op w r v → R w v) (hp : p.All O) {w v : World P K} (h : p.Crashes σ w v) :
    R w v := by
  induction p generalizing w with
  | ret a => cases h; exact refl _
  | call op k ih =>
      obtain rfl | cut | ⟨r, u, done, rest⟩ := h
      · exact refl _
      · exact torn op w v hp.1 cut
      · exact trans (step op w r u hp.1 done) (ih r (hp.2 r) rest)

/-- The path of no operation in `O` changes. -/
theorem Prog.All.frame (hO : ∀ op, O op → ¬ op.touches q) (hp : p.All O) {w v : World P K} (h : p.Crashes σ w v) :
    v.get q = w.get q :=
  hp.carry (R := fun w v => v.get q = w.get q) (fun _ => rfl) (fun a b => b.trans a)
    (fun op _ _ ho cut => cut.frame (hO op ho)) (fun op _ _ _ ho done => done.frame (hO op ho)) h

/-- Nothing outside `T` changed, and the program went by no mark. -/
structure World.Calm (T : P → Prop) (w v : World P K) : Prop where
  get : ∀ q, ¬ T q → v.get q = w.get q
  marks : v.marks = w.marks
  named : w.named ⊆ v.named

theorem World.Calm.refl (w : World P K) : w.Calm T w :=
  ⟨fun _ _ => rfl, rfl, fun _ h => h⟩

/-- An operation that can change nothing outside `T` and is no mark. -/
def Op.Calm (T : P → Prop) (op : Op P K) : Prop :=
  (∀ q, op.touches q → T q) ∧ ∀ k, op ≠ .mark k

theorem Sem.Torn.calm {w v : World P K} (h : σ.Torn op w v) (quiet : op.Calm T) : w.Calm T v := by
  refine ⟨fun q hq => h.frame fun t => hq (quiet.1 q t), ?_, ?_⟩ <;>
    cases op <;> simp only [Sem.Torn] at h <;> obtain ⟨-, n, t, rfl⟩ := h
  · rfl
  · rfl
  · exact fun _ h => h
  · exact fun _ h => h

theorem Sem.Does.calm {w v : World P K} (h : σ.Does op w r v) (quiet : op.Calm T) : w.Calm T v := by
  have kept : v.marks = w.marks ∧ w.named ⊆ v.named := by
    cases op <;> simp only [Sem.Does] at h
    case read | present | stat | list => rw [h.1]; exact ⟨rfl, fun _ h => h⟩
    case sync => rw [h.2]; exact ⟨rfl, fun _ h => h⟩
    case now | seed => rw [h]; exact ⟨rfl, fun _ h => h⟩
    case digest => rw [h.2.2]; exact ⟨rfl, fun _ h => List.mem_cons_of_mem _ h⟩
    case mark k => exact (quiet.2 k rfl).elim
    case write | append =>
      obtain ⟨-, -, t, rfl⟩ | ⟨-, -, rfl⟩ := h <;> exact ⟨rfl, fun _ h => h⟩
    case setLen p n =>
      cases found : w.get p <;> simp only [found] at h
      · rw [h.2]; exact ⟨rfl, fun _ h => h⟩
      · obtain ⟨-, t, rfl⟩ := h; exact ⟨rfl, fun _ h => h⟩
    case rename p p' =>
      cases found : w.get p <;> simp only [found] at h
      · rw [h.2]; exact ⟨rfl, fun _ h => h⟩
      · obtain ⟨-, -, rfl⟩ | ⟨-, -, rfl⟩ := h <;> exact ⟨rfl, fun _ h => h⟩
    case remove p =>
      cases found : w.get p <;> simp only [found] at h
      · rw [h.2]; exact ⟨rfl, fun _ h => h⟩
      · rw [h.2]; exact ⟨rfl, fun _ h => h⟩
    case mkdir p =>
      cases found : w.get p <;> simp only [found] at h
      · obtain ⟨-, t, rfl⟩ := h; exact ⟨rfl, fun _ h => h⟩
      · rw [h.2]; exact ⟨rfl, fun _ h => h⟩
  exact ⟨fun q hq => h.frame fun t => hq (quiet.1 q t), kept.1, kept.2⟩

theorem Sem.Fails.calm {w v : World P K} (h : σ.Fails op w r v) (quiet : op.Calm T) : w.Calm T v := by
  cases op <;> simp only [Sem.Fails] at h
  case write | append =>
    obtain ⟨-, rfl | cut⟩ := h
    · exact World.Calm.refl _
    · exact cut.calm quiet
  all_goals rw [h.2]; exact World.Calm.refl _

theorem Sem.Step.calm {w v : World P K} (h : σ.Step op w r v) (quiet : op.Calm T) : w.Calm T v :=
  h.elim (fun does => does.calm quiet) fun fails => fails.2.calm quiet

end Frame

section Exec
variable {P K D α : Type} [DecidableEq P] [DecidableEq D] {op : Op P K} {r : op.Res D}

/-- How one operation goes in a scripted run: as it should, or failing after a
prefix of what it writes. -/
inductive Act where
  | go
  | fail (n : Option Nat)
  deriving DecidableEq, Repr

/-- What a scripted run is relative to. -/
structure Exec (P K D : Type) where
  digest : Bytes → D
  parent : P → Option P
  may : Op P K → Bool

variable (x : Exec P K D)

def Exec.dirOk (w : World P K) (p : P) : Bool :=
  match x.parent p with
  | some d => (w.get d).isSome
  | none => true

def Exec.go (w : World P K) : (op : Op P K) → Option (op.Res D × World P K)
  | .read p => some (match w.get p with
      | some f => .ok f.bytes
      | none => .error .notFound, w)
  | .present p => some ((w.get p).isSome, w)
  | .stat p => some ((w.get p).map fun f => (f.bytes.length, f.mtime), w)
  | .write p b =>
      if x.dirOk w p then some (.ok (), w.put p b 0) else some (.error .notFound, w)
  | .append p b =>
      if x.dirOk w p then some (.ok (), w.put p (w.bytes p ++ b) 0)
      else some (.error .notFound, w)
  | .setLen p n => match w.get p with
      | some f => some (.ok (),
          w.put p (f.bytes.take n ++ List.replicate (n - f.bytes.length) 0) 0)
      | none => some (.error .notFound, w)
  | .sync _ => some (.ok (), w)
  | .rename p q => match w.get p with
      | some f => if x.dirOk w q then some (.ok (), w.move p q f) else some (.error .notFound, w)
      | none => some (.error .notFound, w)
  | .remove p => match w.get p with
      | some _ => some (.ok (), w.del p)
      | none => some (.error .notFound, w)
  | .mkdir p => match w.get p with
      | some _ => some (.ok (), w)
      | none => some (.ok (), w.put p [] 0)
  | .list d => some (.ok (w.files.keys.filter d), w)
  | .now | .seed => some (0, w)
  | .digest b =>
      if w.named.all fun c => x.digest c ≠ x.digest b ∨ c = b then
        some (x.digest b, { w with named := b :: w.named })
      else none
  | .mark k => some ((), { w with marks := k :: w.marks })

def Exec.broken (w : World P K) : (op : Op P K) → Option Nat → Option (op.Res D × World P K)
  | .write p b, n =>
      some (.error .other, match n with
        | some n => if x.dirOk w p then w.put p (b.take n) 0 else w
        | none => w)
  | .append p b, n =>
      some (.error .other, match n with
        | some n => if x.dirOk w p then w.put p (w.bytes p ++ b.take n) 0 else w
        | none => w)
  | .read _, _ | .setLen .., _ | .sync _, _ | .rename .., _ | .remove _, _ | .mkdir _, _
  | .list _, _ => some (.error .other, w)
  | _, _ => none

/-- One operation of a scripted run; `none` when the script asks for what cannot happen. -/
def Exec.step (w : World P K) (op : Op P K) : Act → Option (op.Res D × World P K)
  | .go => x.go w op
  | .fail n => if x.may op then x.broken w op n else none

/-- Run a program under a script; past its end every operation goes well. -/
def Exec.run : List Act → Prog P K D α → World P K → Option (α × World P K)
  | _, .ret a, w => some (a, w)
  | script, .call op k, w =>
      match x.step w op (script.headD .go) with
      | some (r, u) => run script.tail (k r) u
      | none => none

/-- The tree after the first `n` operations of the undisturbed run. -/
def Exec.cut : Nat → Prog P K D α → World P K → Option (World P K)
  | 0, _, w => some w
  | _ + 1, .ret _, w => some w
  | n + 1, .call op k, w =>
      match x.go w op with
      | some (r, u) => cut n (k r) u
      | none => none

/-- The scripted runs of `x` are runs of `σ`. -/
structure Exec.Within (σ : Sem P K D) : Prop where
  digest : x.digest = σ.digest
  parent : x.parent = σ.parent
  may : ∀ op, x.may op → ∀ w, σ.mayFail op w
  free : ∀ k w, σ.holds k w

variable {x} {σ : Sem P K D}

omit [DecidableEq D] in
theorem Exec.Within.dirOk_iff (h : x.Within σ) (w : World P K) (p : P) :
    x.dirOk w p = true ↔ σ.DirOk w p := by
  simp only [Exec.dirOk, Sem.DirOk, ← h.parent]
  cases x.parent p <;> simp

theorem Exec.Within.go_does (h : x.Within σ) {w v : World P K} (run : x.go w op = some (r, v)) :
    σ.Does op w r v := by
  have dir := h.dirOk_iff w
  cases op <;> simp only [Exec.go] at run
  case read | present | stat => cases run; exact ⟨rfl, rfl⟩
  case write p b | append p b =>
    split at run <;> cases run
    · exact .inl ⟨(dir p).mp ‹_›, rfl, _, rfl⟩
    · exact .inr ⟨fun c => ‹¬ _› ((dir p).mpr c), rfl, rfl⟩
  case setLen p n | remove p | mkdir p =>
    cases found : w.get p <;> simp only [found, Option.some.injEq, Prod.mk.injEq] at run
    all_goals obtain ⟨rfl, rfl⟩ := run
    all_goals simp [Sem.Does, found]
  case rename p q =>
    cases found : w.get p <;> simp only [found] at run
    · cases run; simp [Sem.Does, found]
    · split at run <;> cases run
      · simp [Sem.Does, found, (dir q).mp ‹_›]
      · have missing : ¬ σ.DirOk w q := fun c => ‹¬ _› ((dir q).mpr c)
        simp [Sem.Does, found, missing]
  case sync => cases run; exact ⟨rfl, rfl⟩
  case list => cases run; exact ⟨rfl, _, rfl, List.Perm.refl _⟩
  case now | seed => cases run; rfl
  case mark k => cases run; exact ⟨h.free _ _, rfl⟩
  case digest b =>
    split at run
    · cases run
      rename_i clear
      refine ⟨congrFun h.digest b, fun c hc same => ?_, rfl⟩
      have := List.all_eq_true.mp clear c hc
      rw [← h.digest] at same
      simpa [same] using this
    · cases run

omit [DecidableEq D] in
theorem Exec.Within.broken_fails (h : x.Within σ) {n : Option Nat} {w v : World P K}
    (run : x.broken w op n = some (r, v)) : σ.Fails op w r v := by
  have dir := h.dirOk_iff w
  cases op <;> simp only [Exec.broken, Option.some.injEq, Prod.mk.injEq, reduceCtorEq] at run
  case write p b | append p b =>
    obtain ⟨rfl, rfl⟩ := run
    refine ⟨rfl, ?_⟩
    cases n with
    | none => exact .inl rfl
    | some n =>
        dsimp only
        split
        · exact .inr ⟨(dir p).mp ‹_›, n, _, rfl⟩
        · exact .inl rfl
  all_goals obtain ⟨rfl, rfl⟩ := run; exact ⟨rfl, rfl⟩

theorem Exec.Within.step (h : x.Within σ) {a : Act} {w v : World P K} (run : x.step w op a = some (r, v)) :
    σ.Step op w r v := by
  cases a with
  | go => exact .inl (h.go_does run)
  | fail n =>
      simp only [Exec.step] at run
      split at run
      · exact .inr ⟨h.may op ‹_› w, h.broken_fails run⟩
      · cases run

theorem Exec.Within.runs (h : x.Within σ) {script : List Act} {p : Prog P K D α} {w v : World P K}
    {a : α} (run : x.run script p w = some (a, v)) : p.Runs σ w a v := by
  induction p generalizing script w with
  | ret b => cases run; exact ⟨rfl, rfl⟩
  | call op k ih =>
      simp only [Exec.run] at run
      split at run
      · exact ⟨_, _, h.step ‹_›, ih _ run⟩
      · cases run

theorem Exec.Within.cut (h : x.Within σ) {n : Nat} {p : Prog P K D α} {w v : World P K}
    (run : x.cut n p w = some v) : p.Crashes σ w v := by
  induction p generalizing n w with
  | ret b => cases n <;> cases run <;> rfl
  | call op k ih =>
      cases n with
      | zero => cases run; exact .inl rfl
      | succ n =>
          simp only [Exec.cut] at run
          split at run
          · exact .inr (.inr ⟨_, _, .inl (h.go_does ‹_›), ih _ run⟩)
          · cases run

end Exec
end FileProg
