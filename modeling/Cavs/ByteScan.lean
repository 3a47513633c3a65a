import Cavs.FileProg
import Mathlib.Tactic.Ring

/-!
# Scanning byte strings

Little-endian numbers, and scanners that read a byte string from the left while
they change a state. The state survives an error, what was read does not. The
relation `Scans` says which bytes a scanner takes whatever follows them; its
rules compose along the scanner, so a round trip is proved piece by piece.
-/
namespace ByteScan
open FileProg (Bytes)

/-- `w` bytes of `n`, least significant first; higher bits are lost. -/
def le : Nat → Nat → Bytes
  | 0, _ => []
  | w + 1, n => UInt8.ofNat n :: le w (n / 256)

def ofLe : Bytes → Nat
  | [] => 0
  | b :: bs => b.toNat + 256 * ofLe bs

@[simp] theorem le_length (w n : Nat) : (le w n).length = w := by
  induction w generalizing n with
  | zero => rfl
  | succ w ih => simp [le, ih]

theorem ofLe_le_mod (w n : Nat) : ofLe (le w n) = n % 256 ^ w := by
  induction w generalizing n with
  | zero => simp [le, ofLe, Nat.mod_one]
  | succ w ih =>
      have low : (UInt8.ofNat n).toNat = n % 256 := by simp
      rw [le, ofLe, ih, low, pow_succ', Nat.mod_mul]

theorem ofLe_le {w n : Nat} (h : n < 256 ^ w) : ofLe (le w n) = n := by
  rw [ofLe_le_mod, Nat.mod_eq_of_lt h]

theorem ofLe_lt (b : Bytes) : ofLe b < 256 ^ b.length := by
  induction b with
  | nil => simp [ofLe]
  | cons x xs ih =>
      have := x.toNat_lt
      rw [ofLe, List.length_cons, pow_succ']
      omega

theorem length_flatMap_ge {α : Type} {f : α → Bytes} {l : List α} {n : Nat} (h : ∀ x ∈ l, n ≤ (f x).length) :
    l.length * n ≤ (l.flatMap f).length := by
  induction l with
  | nil => simp
  | cons x l ih =>
      have := ih fun y mem => h y (.tail _ mem)
      have := h x (.head _)
      rw [List.flatMap_cons, List.length_append, List.length_cons, Nat.succ_mul]
      omega

theorem length_le_flatMap {α : Type} {f : α → Bytes} {l : List α} {x : α} (mem : x ∈ l) :
    (f x).length ≤ (l.flatMap f).length := by
  obtain ⟨front, back, rfl⟩ := List.append_of_mem mem
  rw [List.flatMap_append, List.flatMap_cons, List.length_append, List.length_append]
  omega

/-- What is left to read, and how far the scan got. -/
structure Cursor where
  pos : Nat
  rest : Bytes

def Scan (ε S α : Type) : Type := S → Cursor → Except ε (α × Cursor) × S

namespace Scan
variable {ε S α β : Type}

instance : Monad (Scan ε S) where
  pure a := fun s c => (.ok (a, c), s)
  bind m f := fun s c =>
    match m s c with
    | (.ok (a, c'), t) => f a t c'
    | (.error e, t) => (.error e, t)

theorem bind_apply (m : Scan ε S α) (f : α → Scan ε S β) (s : S) (c : Cursor) :
    (m >>= f) s c = match m s c with
      | (.ok (a, c'), t) => f a t c'
      | (.error e, t) => (.error e, t) := rfl

def throw (e : ε) : Scan ε S α := fun s _ => (.error e, s)

def modify (f : S → S) : Scan ε S Unit := fun s c => (.ok ((), c), f s)

def position : Scan ε S Nat := fun s c => (.ok (c.pos, c), s)

def remaining : Scan ε S Nat := fun s c => (.ok (c.rest.length, c), s)

/-- The next `n` bytes, or `e` when fewer are left. -/
def take (e : ε) (n : Nat) : Scan ε S Bytes := fun s c =>
  if n ≤ c.rest.length then (.ok (c.rest.take n, ⟨c.pos + n, c.rest.drop n⟩), s)
  else (.error e, s)

def num (e : ε) (w : Nat) : Scan ε S Nat := do return ofLe (← take e w)

def ofOption (e : ε) : Option α → Scan ε S α
  | some a => pure a
  | none => throw e

def times : Nat → Scan ε S Unit → Scan ε S Unit
  | 0, _ => pure ()
  | n + 1, m => do m; times n m

def collect : Nat → Scan ε S α → Scan ε S (List α)
  | 0, _ => pure []
  | n + 1, m => do let a ← m; return a :: (← collect n m)

end Scan

section Rules
variable {ε S α β γ : Type} {m : Scan ε S α} {f : α → Scan ε S β}
  {s t u : S} {p n : Nat} {b c : Bytes} {x : α} {y : β} {e : ε}

/-- From state `s` at position `p`, the scanner takes exactly `b`, returns `x`
and leaves `t`, whatever follows `b`. -/
def Scans (m : Scan ε S α) (s : S) (p : Nat) (b : Bytes) (x : α) (t : S) : Prop :=
  ∀ rest, m s ⟨p, b ++ rest⟩ = (.ok (x, ⟨p + b.length, rest⟩), t)

theorem Scans.pure (x : α) : Scans (pure x : Scan ε S α) s p [] x s := fun _ => rfl

theorem Scans.bind (hm : Scans m s p b x t) (hf : Scans (f x) t (p + b.length) c y u) :
    Scans (m >>= f) s p (b ++ c) y u := by
  intro rest
  change (match m s ⟨p, (b ++ c) ++ rest⟩ with
    | (.ok (a, c'), t) => f a t c'
    | (.error e, t) => (.error e, t)) = _
  rw [List.append_assoc, hm]
  refine (hf rest).trans ?_
  rw [List.length_append, Nat.add_assoc]

/-- A last statement that reads nothing. -/
theorem Scans.bind_pure (hm : Scans m s p b x t) (hf : Scans (f x) t (p + b.length) [] y u) :
    Scans (m >>= f) s p b y u := by
  simpa using hm.bind hf

/-- A first statement that reads nothing. -/
theorem Scans.pure_bind (hm : Scans m s p [] x t) (hf : Scans (f x) t p c y u) :
    Scans (m >>= f) s p c y u := by
  simpa using hm.bind (f := f) hf

theorem Scans.modify (g : S → S) : Scans (Scan.modify g : Scan ε S Unit) s p [] () (g s) :=
  fun _ => rfl

theorem Scans.position : Scans (Scan.position : Scan ε S Nat) s p [] p s := fun _ => rfl

/-- A statement that looks at how much is left sees at least the bytes it is
about to take. -/
theorem Scans.remaining {g : Nat → Scan ε S β} (h : ∀ r, b.length ≤ r → Scans (g r) s p b y t) :
    Scans (Scan.remaining >>= g) s p b y t := by
  intro rest
  exact h (b ++ rest).length (by simp) rest

theorem Scans.take (h : b.length = n) : Scans (Scan.take e n : Scan ε S Bytes) s p b b s := by
  intro rest
  subst h
  simp [Scan.take]

theorem Scans.num (h : n < 256 ^ w) : Scans (Scan.num e w : Scan ε S Nat) s p (le w n) n s := by
  have read := Scans.take (ε := ε) (S := S) (s := s) (p := p) (e := e) (le_length w n)
  refine Scans.bind_pure read ?_
  rw [ofLe_le h]
  exact .pure n

theorem Scans.ofOption {o : Option α} (h : o = some x) :
    Scans (Scan.ofOption e o : Scan ε S α) s p [] x s := by
  subst h
  exact .pure x

theorem Scans.to (h : Scans m s p b x t) (ht : t = u) : Scans m s p b x u := ht ▸ h

/-- Each item of a list with the position its encoding starts at. -/
def places {X : Type} (enc : X → Bytes) : Nat → List X → List (Nat × X)
  | _, [] => []
  | p, x :: xs => (p, x) :: places enc (p + (enc x).length) xs

theorem places_map_snd {X : Type} (enc : X → Bytes) (p : Nat) (xs : List X) :
    (places enc p xs).map Prod.snd = xs := by
  induction xs generalizing p with
  | nil => rfl
  | cons x xs ih => simp [places, ih]

theorem Scans.times {X : Type} {m : Scan ε S Unit} (enc : X → Bytes) (xs : List X) (step : S → Nat → X → S)
    (item : ∀ x ∈ xs, ∀ s p, Scans m s p (enc x) () (step s p x)) (s : S) (p : Nat) :
    Scans (Scan.times xs.length m) s p (xs.flatMap enc) ()
      ((places enc p xs).foldl (fun s q => step s q.1 q.2) s) := by
  induction xs generalizing s p with
  | nil => exact .pure ()
  | cons x xs ih =>
      have head := item x (by simp) s p
      have tail := ih (fun z hz => item z (List.mem_cons_of_mem _ hz)) (step s p x)
        (p + (enc x).length)
      exact head.bind tail

theorem Scans.collect {X : Type} (enc : X → Bytes) (val : X → α) (xs : List X) {s : S}
    (item : ∀ x ∈ xs, ∀ p, Scans m s p (enc x) (val x) s) (p : Nat) :
    Scans (Scan.collect xs.length m) s p (xs.flatMap enc) (xs.map val) s := by
  induction xs generalizing p with
  | nil => exact .pure []
  | cons x xs ih =>
      have head := item x (by simp) p
      have tail := ih (fun z hz => item z (List.mem_cons_of_mem _ hz)) (p + (enc x).length)
      refine head.bind (tail.bind_pure ?_)
      exact .pure _

theorem foldl_places {X : Type} (enc : X → Bytes) (p : Nat) (xs : List X) (f : S → X → S) (s : S) :
    (places enc p xs).foldl (fun s q => f s q.2) s = xs.foldl f s := by
  induction xs generalizing p s with
  | nil => rfl
  | cons x xs ih => exact ih _ _

/-- Reading a whole byte string to its end. -/
theorem Scans.whole (h : Scans m s p b x t) :
    m s ⟨p, b⟩ = (.ok (x, ⟨p + b.length, []⟩), t) := by
  simpa using h []

end Rules
end ByteScan
