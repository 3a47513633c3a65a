import Cavs.Outcome
import Cavs.ScanPrefix

/-!
# Cursors over a body

A scanner that keeps the whole body and how far it got, written with the operations that can
end a program: a slice by a range, an array of a known width, a difference of positions. It
follows a scanner of byte strings when it ends as that one does wherever it stands in a body.
-/
namespace BodyCursor
open FileProg (Bytes)
open ByteScan

/-- A range of a body, when it lies inside. -/
def get (body : Bytes) (start stop : Nat) : Option Bytes :=
  if start ≤ stop ∧ stop ≤ body.length then some ((body.drop start).take (stop - start)) else none

theorem get_ok {body : Bytes} {at_ n : Nat} (within : at_ + n ≤ body.length) :
    get body at_ (at_ + n) = some ((body.drop at_).take n) := by
  rw [get, if_pos ⟨Nat.le_add_right at_ n, within⟩, Nat.add_sub_cancel_left]

theorem get_none {body : Bytes} {at_ n : Nat} (outside : body.length < at_ + n) :
    get body at_ (at_ + n) = none := by
  rw [get, if_neg]
  rintro ⟨-, within⟩
  omega

/-- A slice by a range, which has to lie inside. -/
def slice {ε : Type} (body : Bytes) (start stop : Nat) : Outcome ε Bytes :=
  match get body start stop with
  | some b => .ok b
  | none => .panics

theorem slice_ok {ε : Type} {body : Bytes} {start stop : Nat} (ordered : start ≤ stop) (within : stop ≤ body.length) :
    (slice body start stop : Outcome ε Bytes) = .ok ((body.drop start).take (stop - start)) := by
  rw [slice, get, if_pos ⟨ordered, within⟩]

/-- The bytes as an array, whose width they must have. -/
def array {ε : Type} (w : Nat) (b : Bytes) : Outcome ε Bytes := if b.length = w then .ok b else .panics

def BodyScan (ε S α : Type) : Type := Bytes → S → Nat → Outcome ε (α × S × Nat)

namespace BodyScan
variable {ε S α β : Type}

instance : Monad (BodyScan ε S) where
  pure a := fun _ s at_ => .ok (a, s, at_)
  bind m f := fun body s at_ => m body s at_ >>= fun x => f x.1 body x.2.1 x.2.2

theorem bind_apply (m : BodyScan ε S α) (f : α → BodyScan ε S β) (body : Bytes) (s : S) (at_ : Nat) :
    (m >>= f) body s at_ = m body s at_ >>= fun x => f x.1 body x.2.1 x.2.2 := rfl

def throw (e : ε) : BodyScan ε S α := fun _ _ _ => .error e

def modify (f : S → S) : BodyScan ε S Unit := fun _ s at_ => .ok ((), f s, at_)

def lift (m : Outcome ε α) : BodyScan ε S α := fun _ s at_ => m >>= fun a => .ok (a, s, at_)

theorem lift_ok_bind (a : α) (f : α → BodyScan ε S β) : (lift (.ok a) >>= f : BodyScan ε S β) = f a := rfl

/-- The next `n` bytes, or `e` when fewer are left. A sum that passes the largest word passes
the end of the body too. -/
def take (e : ε) (n : Nat) : BodyScan ε S Bytes := fun body s at_ =>
  match get body at_ (at_ + n) with
  | some b => .ok (b, s, at_ + n)
  | none => .error e

def remaining : BodyScan ε S Nat := fun body s at_ =>
  if at_ ≤ body.length then .ok (body.length - at_, s, at_) else .panics

def arrayOf (e : ε) (w : Nat) : BodyScan ε S Bytes := do lift (array w (← take e w))

def num (e : ε) (w : Nat) : BodyScan ε S Nat := do return ofLe (← arrayOf e w)

/-- The first of one byte. -/
def byte (e : ε) : BodyScan ε S Nat := do
  match ← take e 1 with
  | b :: _ => return b.toNat
  | [] => lift .panics

def ofOption (e : ε) : Option α → BodyScan ε S α
  | some a => pure a
  | none => throw e

def times : Nat → BodyScan ε S Unit → BodyScan ε S Unit
  | 0, _ => pure ()
  | n + 1, m => do m; times n m

def collect : Nat → BodyScan ε S α → BodyScan ε S (List α)
  | 0, _ => pure []
  | n + 1, m => do let a ← m; return a :: (← collect n m)

/-- What a cursor over `body` gives where a scanner of what is left gives `r`. -/
def Same (body : Bytes) (o : Outcome ε (α × S × Nat)) (r : Except ε (α × Cursor) × S) : Prop :=
  match r with
  | (.ok (x, c), t) => o = .ok (x, t, c.pos) ∧ c.rest = body.drop c.pos ∧ c.pos ≤ body.length
  | (.error e, _) => o = .error e

/-- From every place in every body the cursor gives what the scanner gives for the rest. -/
def Follows (g : BodyScan ε S α) (m : Scan ε S α) : Prop :=
  ∀ body s at_, at_ ≤ body.length → Same body (g body s at_) (m s ⟨at_, body.drop at_⟩)

namespace Follows
variable {g g' : BodyScan ε S α} {m m' : Scan ε S α} {f : α → BodyScan ε S β} {h : α → Scan ε S β} {e : ε}

theorem pure (x : α) : Follows (Pure.pure x : BodyScan ε S α) (Pure.pure x) := by
  intro body s at_ within
  exact ⟨rfl, rfl, within⟩

theorem throw : Follows (BodyScan.throw e : BodyScan ε S α) (Scan.throw e) := fun _ _ _ _ => rfl

/-- What is known of all that is read may be used for the rest. -/
theorem bind_known {P : α → Prop} (hg : Follows g m) (known : ∀ {s c x d t}, m s c = (.ok (x, d), t) → P x)
    (hf : ∀ x, P x → Follows (f x) (h x)) : Follows (g >>= f) (m >>= h) := by
  intro body s at_ within
  have first := hg body s at_ within
  rw [bind_apply, Scan.bind_apply]
  cases run : m s ⟨at_, body.drop at_⟩ with
  | mk r t =>
      rw [run] at first
      cases r with
      | error e =>
          have ends : g body s at_ = .error e := first
          rw [ends, Outcome.error_bind]
          rfl
      | ok x =>
          have holds := known run
          obtain ⟨a, pos, rest⟩ := x
          obtain ⟨ends, left, stays⟩ := first
          dsimp only at ends left stays ⊢
          rw [ends, Outcome.ok_bind, left]
          exact hf a holds body t pos stays

theorem bind (hg : Follows g m) (hf : ∀ x, Follows (f x) (h x)) : Follows (g >>= f) (m >>= h) :=
  hg.bind_known (P := fun _ => True) (fun _ => trivial) fun x _ => hf x

theorem modify (k : S → S) : Follows (BodyScan.modify k : BodyScan ε S Unit) (Scan.modify k) := by
  intro body s at_ within
  exact ⟨rfl, rfl, within⟩

theorem ite {c : Prop} [Decidable c] (yes : Follows g m) (no : Follows g' m') :
    Follows (if c then g else g') (if c then m else m') := by
  split
  · exact yes
  · exact no

theorem take (e : ε) (n : Nat) : Follows (BodyScan.take e n : BodyScan ε S Bytes) (Scan.take e n) := by
  intro body s at_ within
  have left : (body.drop at_).length = body.length - at_ := List.length_drop
  unfold BodyScan.take Scan.take
  by_cases enough : at_ + n ≤ body.length
  · rw [get_ok enough, if_pos (by dsimp only; omega)]
    exact ⟨rfl, List.drop_drop, enough⟩
  · rw [get_none (Nat.lt_of_not_le enough), if_neg (by dsimp only; omega)]
    exact rfl

theorem remaining : Follows (BodyScan.remaining : BodyScan ε S Nat) Scan.remaining := by
  intro body s at_ within
  unfold BodyScan.remaining Scan.remaining
  rw [if_pos within, ← List.length_drop]
  exact ⟨rfl, rfl, within⟩

/-- What was taken has the width it is made an array of. -/
theorem arrayOf (e : ε) (w : Nat) : Follows (BodyScan.arrayOf e w : BodyScan ε S Bytes) (Scan.take e w) := by
  have plain : (Scan.take e w >>= Pure.pure : Scan ε S Bytes) = Scan.take e w := by
    funext s c
    rw [Scan.bind_apply]
    rcases Scan.take e w s c with ⟨_ | ⟨b, d⟩, t⟩ <;> rfl
  rw [← plain]
  apply (take e w).bind_known fun run => (ok_of_take run).2.1
  intro b width
  rw [array, if_pos width]
  exact pure b

theorem num (e : ε) (w : Nat) : Follows (BodyScan.num e w : BodyScan ε S Nat) (Scan.num e w) :=
  (arrayOf e w).bind fun _ => pure _

theorem byte (e : ε) : Follows (BodyScan.byte e : BodyScan ε S Nat) (Scan.num e 1) := by
  apply (take e 1).bind_known fun run => (ok_of_take run).2.1
  intro b width
  obtain ⟨x, rfl⟩ := List.length_eq_one_iff.mp width
  exact pure x.toNat

theorem ofOption (e : ε) (o : Option α) : Follows (BodyScan.ofOption e o : BodyScan ε S α) (Scan.ofOption e o) := by
  cases o with
  | none => exact throw
  | some a => exact pure a

theorem times {g : BodyScan ε S Unit} {m : Scan ε S Unit} (h : Follows g m) (n : Nat) :
    Follows (BodyScan.times n g) (Scan.times n m) := by
  induction n with
  | zero => exact pure ()
  | succ n ih => exact h.bind fun _ => ih

theorem collect (h : Follows g m) (n : Nat) : Follows (BodyScan.collect n g) (Scan.collect n m) := by
  induction n with
  | zero => exact pure []
  | succ n ih => exact h.bind fun _ => ih.bind fun _ => pure _

end Follows
end BodyScan
end BodyCursor
