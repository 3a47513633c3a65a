import Cavs.Outcome
import Cavs.ScanPrefix

/-!
# Readers under audit

A reader written with the operations that can end a program, which keeps a record of what it
sets room aside for. It follows a scanner when it ends as the scanner does on every input;
the rules compose along the reader, and say for which inputs all the room is held by what
is left to read.
-/
namespace ByteAudit
open FileProg (Bytes)
open ByteScan

/-- Room for `count` items of at least `item` bytes, with `left` bytes to read them from. -/
structure Reserved where
  count : Nat
  item : Nat
  left : Nat
  deriving DecidableEq, Repr

def Reserved.Held (r : Reserved) : Prop := r.count * r.item ≤ r.left

structure Audit (ε α : Type) where
  outcome : Outcome ε α
  reserved : List Reserved

namespace Audit
variable {ε α β : Type} {m : Audit ε α} {b : Bytes}

instance : Monad (Audit ε) where
  pure a := ⟨.ok a, []⟩
  bind m f := match m.outcome with
    | .ok a => ⟨(f a).outcome, m.reserved ++ (f a).reserved⟩
    | .error e => ⟨.error e, m.reserved⟩
    | .panics => ⟨.panics, m.reserved⟩

def error (e : ε) : Audit ε α := ⟨.error e, []⟩

def panics : Audit ε α := ⟨.panics, []⟩

def ofExcept : Except ε α → Audit ε α
  | .ok a => pure a
  | .error e => error e

def mapError {δ : Type} (m : Audit ε α) (f : ε → δ) : Audit δ α :=
  ⟨match m.outcome with
    | .ok a => .ok a
    | .error e => .error (f e)
    | .panics => .panics, m.reserved⟩

/-- A slice, which has to be in range. -/
def slice (b : Bytes) (start stop : Nat) : Audit ε Bytes :=
  if start ≤ stop ∧ stop ≤ b.length then pure ((b.drop start).take (stop - start)) else panics

/-- A sum of machine words, which has to be one. -/
def add (a b : Nat) : Audit ε Nat := if a + b < 2 ^ 64 then pure (a + b) else panics

/-- A difference of machine words. -/
def sub (a b : Nat) : Audit ε Nat := if b ≤ a then pure (a - b) else panics

/-- All the room that is set aside is held. -/
def Held (m : Audit ε α) : Prop := ∀ r ∈ m.reserved, r.Held

/-- The reader comes back, and has set aside no room that is not held. -/
structure Safe (m : Audit ε α) : Prop where
  returns : m.outcome ≠ .panics
  held : m.Held

/-- The reader ends as it should, and holds what it sets aside exactly when `P`. -/
structure Follows (m : Audit ε α) (r : Except ε α) (P : Prop) : Prop where
  ends : m.outcome = Outcome.ofExcept r
  held : m.Held ↔ P

theorem bind_ok {a : α} (h : m.outcome = .ok a) (f : α → Audit ε β) :
    (m >>= f).outcome = (f a).outcome ∧ (m >>= f).reserved = m.reserved ++ (f a).reserved := by
  obtain ⟨outcome, reserved⟩ := m
  cases h
  exact ⟨rfl, rfl⟩

theorem bind_error {e : ε} (h : m.outcome = .error e) (f : α → Audit ε β) :
    (m >>= f).outcome = .error e ∧ (m >>= f).reserved = m.reserved := by
  obtain ⟨outcome, reserved⟩ := m
  cases h
  exact ⟨rfl, rfl⟩

theorem Safe.bind {f : α → Audit ε β} (hm : m.Safe) (hf : ∀ a, m.outcome = .ok a → (f a).Safe) :
    (m >>= f).Safe := by
  cases ends : m.outcome with
  | panics => exact absurd ends hm.returns
  | error e =>
      obtain ⟨outcome, reserved⟩ := bind_error ends f
      exact ⟨outcome ▸ nofun, fun r mem => hm.held r (reserved ▸ mem)⟩
  | ok a =>
      obtain ⟨outcome, reserved⟩ := bind_ok ends f
      have rest := hf a ends
      refine ⟨outcome ▸ rest.returns, fun r mem => ?_⟩
      rw [reserved] at mem
      exact (List.mem_append.mp mem).elim (hm.held r) (rest.held r)

theorem slice_ok {start stop : Nat} (ordered : start ≤ stop) (within : stop ≤ b.length) :
    (slice b start stop : Audit ε Bytes) = pure ((b.drop start).take (stop - start)) := if_pos ⟨ordered, within⟩

theorem slice_prefix {n : Nat} (within : n ≤ b.length) : (slice b 0 n : Audit ε Bytes) = pure (b.take n) :=
  slice_ok (Nat.zero_le n) within

theorem slice_suffix {n : Nat} (within : n ≤ b.length) :
    (slice b n b.length : Audit ε Bytes) = pure (b.drop n) := by
  rw [slice_ok within (Nat.le_refl _), List.take_of_length_le (by simp)]

theorem slice_panics {start stop : Nat} (outside : b.length < stop) :
    (slice b start stop : Audit ε Bytes) = panics := if_neg fun h => Nat.not_lt.mpr h.2 outside

theorem add_ok {a b : Nat} (word : a + b < 2 ^ 64) : (add a b : Audit ε Nat) = pure (a + b) := if_pos word

theorem add_panics {a b : Nat} (past : ¬a + b < 2 ^ 64) : (add a b : Audit ε Nat) = panics := if_neg past

theorem sub_ok {a b : Nat} (below : b ≤ a) : (sub a b : Audit ε Nat) = pure (a - b) := if_pos below

@[simp] theorem pure_bind (a : α) (f : α → Audit ε β) : ((pure a : Audit ε α) >>= f) = f a := rfl

namespace Follows
variable {m n : Audit ε α} {f : α → Audit ε β} {r s : Except ε α} {g : α → Except ε β} {P R : Prop} {Q : α → Prop}

theorem pure (a : α) : Follows (Pure.pure a : Audit ε α) (.ok a) True := ⟨rfl, by simp [Held, Pure.pure]⟩

theorem error (e : ε) : Follows (Audit.error e : Audit ε α) (.error e) True := ⟨rfl, by simp [Held, Audit.error]⟩

theorem ofExcept (r : Except ε α) : Follows (Audit.ofExcept r) r True := by
  cases r with
  | error e => exact error e
  | ok a => exact pure a

theorem bind (hm : m.Follows r P) (hf : ∀ a, r = .ok a → (f a).Follows (g a) (Q a)) :
    (m >>= f).Follows (r >>= g) (P ∧ ∀ a, r = .ok a → Q a) := by
  cases r with
  | error e =>
      obtain ⟨outcome, reserved⟩ := bind_error hm.ends f
      refine ⟨outcome, ?_⟩
      have held : (m >>= f).Held ↔ m.Held := by rw [Held, reserved, Held]
      rw [held, hm.held]
      simp
  | ok a =>
      obtain ⟨outcome, reserved⟩ := bind_ok hm.ends f
      have rest := hf a rfl
      refine ⟨outcome.trans rest.ends, ?_⟩
      have held : (m >>= f).Held ↔ m.Held ∧ (f a).Held := by rw [Held, reserved, List.forall_mem_append, Held, Held]
      rw [held, hm.held, rest.held]
      simp

theorem ite {c : Prop} [Decidable c] (yes : c → m.Follows r P) (no : ¬c → n.Follows s R) :
    (if c then m else n).Follows (if c then r else s) ((c → P) ∧ (¬c → R)) := by
  by_cases h : c
  · rw [if_pos h, if_pos h]
    simpa [h] using yes h
  · rw [if_neg h, if_neg h]
    simpa [h] using no h

theorem iff (hm : m.Follows r P) (same : P ↔ R) : m.Follows r R := ⟨hm.ends, hm.held.trans same⟩

theorem mapError {δ : Type} (hm : m.Follows r P) (h : ε → δ) : (m.mapError h).Follows (r.mapError h) P := by
  refine ⟨?_, hm.held⟩
  rw [Audit.mapError, hm.ends]
  cases r with
  | error e => rfl
  | ok a => rfl

theorem safe (hm : m.Follows r P) : m.Safe ↔ P := by
  constructor
  · intro safe
    exact hm.held.mp safe.held
  · intro holds
    refine ⟨?_, hm.held.mpr holds⟩
    rw [hm.ends]
    cases r with
    | error e => nofun
    | ok a => nofun

theorem safe_bind (hm : m.Follows r P) : (m >>= f).Safe ↔ P ∧ ∀ a, r = .ok a → (f a).Safe := by
  cases r with
  | error e =>
      obtain ⟨outcome, reserved⟩ := bind_error hm.ends f
      have held : (m >>= f).Held ↔ P := by rw [← hm.held, Held, reserved, Held]
      refine ⟨fun safe => ⟨held.mp safe.held, nofun⟩, fun both => ⟨?_, held.mpr both.1⟩⟩
      rw [outcome]
      nofun
  | ok a =>
      obtain ⟨outcome, reserved⟩ := bind_ok hm.ends f
      have held : (m >>= f).Held ↔ P ∧ (f a).Held := by
        rw [← hm.held, Held, reserved, List.forall_mem_append, Held, Held]
      constructor
      · intro safe
        obtain ⟨first, rest⟩ := held.mp safe.held
        refine ⟨first, fun b same => ?_⟩
        cases same
        exact ⟨outcome ▸ safe.returns, rest⟩
      · rintro ⟨first, rest⟩
        have later := rest a rfl
        exact ⟨outcome ▸ later.returns, held.mpr ⟨first, later.held⟩⟩

/-- Nothing that needs room comes of giving up. -/
theorem guard {c : Prop} [Decidable c] {e : ε} (no : ¬c → n.Follows s P) :
    (if c then Audit.error e else n).Follows (if c then .error e else s) (¬c → P) :=
  (ite (fun _ => error e) no).iff (by simp)

end Follows
end Audit

def AuditScan (ε α : Type) : Type := Cursor → Audit ε (α × Cursor)

namespace AuditScan
variable {ε α β : Type}

instance : Monad (AuditScan ε) where
  pure a := fun c => pure (a, c)
  bind m f := fun c => m c >>= fun x => f x.1 x.2

def throw (e : ε) : AuditScan ε α := fun _ => Audit.error e

def remaining : AuditScan ε Nat := fun c => pure (c.rest.length, c)

/-- The next `n` bytes, which have to be there. -/
def splitAt (n : Nat) : AuditScan ε Bytes := fun c => do
  let head ← Audit.slice c.rest 0 n
  let rest ← Audit.slice c.rest n c.rest.length
  return (head, ⟨c.pos + n, rest⟩)

/-- The next `n` bytes, or `e` when fewer are left. -/
def take (e : ε) (n : Nat) : AuditScan ε Bytes := do
  let left ← remaining
  if left < n then throw e else splitAt n

def num (e : ε) (w : Nat) : AuditScan ε Nat := do return ofLe (← take e w)

def lift (r : Except ε α) : AuditScan ε α := fun c => Audit.ofExcept r >>= fun a => pure (a, c)

def ofOption (e : ε) : Option α → AuditScan ε α
  | some a => pure a
  | none => throw e

/-- Set room aside for `count` items of at least `item` bytes. -/
def reserve (count item : Nat) : AuditScan ε Unit := fun c => ⟨.ok ((), c), [⟨count, item, c.rest.length⟩]⟩

def collect : Nat → AuditScan ε α → AuditScan ε (List α)
  | 0, _ => pure []
  | n + 1, m => do let a ← m; return a :: (← collect n m)

/-- The scanner reads `x` and leaves `d`. -/
def Reads (m : Scan ε Unit α) (c : Cursor) (x : α) (d : Cursor) : Prop := (m () c).1 = .ok (x, d)

/-- The reader follows the scanner, and at a cursor holds what it sets aside exactly when `P`. -/
def Follows (m : AuditScan ε α) (n : Scan ε Unit α) (P : Cursor → Prop) : Prop :=
  ∀ c, (m c).Follows (n () c).1 (P c)

/-- It holds what it sets aside at every cursor. -/
def Sound (m : AuditScan ε α) (n : Scan ε Unit α) : Prop := Follows m n fun _ => True

section Reads
variable {m : Scan ε Unit α} {f : α → Scan ε Unit β} {c d : Cursor} {y : β} {e : ε}

theorem reads_bind : Reads (m >>= f) c y d ↔ ∃ x c', Reads m c x c' ∧ Reads (f x) c' y d := by
  unfold Reads
  constructor
  · intro h
    obtain ⟨x, c', t, first, rest⟩ := ok_of_bind (show (m >>= f) () c = (.ok (y, d), ()) from Prod.ext h rfl)
    exact ⟨x, c', congrArg Prod.fst first, congrArg Prod.fst rest⟩
  · rintro ⟨x, c', first, rest⟩
    have run : m () c = (.ok (x, c'), ()) := Prod.ext first rfl
    rw [bind_of_ok run]
    exact rest

/-- What holds of all that is read, from one statement on. -/
theorem forall_reads_bind {Q : β → Cursor → Prop} : (∀ y d, Reads (m >>= f) c y d → Q y d) ↔
    ∀ x c', Reads m c x c' → ∀ y d, Reads (f x) c' y d → Q y d := by
  constructor
  · intro h x c' first y d rest
    exact h y d (reads_bind.mpr ⟨x, c', first, rest⟩)
  · intro h y d both
    obtain ⟨x, c', first, rest⟩ := reads_bind.mp both
    exact h x c' first y d rest

/-- The same behind a check. -/
theorem forall_reads_guard {p : Prop} [Decidable p] {Q : α → Cursor → Prop} :
    (∀ x d, Reads (if p then Scan.throw e else m) c x d → Q x d) ↔ (¬p → ∀ x d, Reads m c x d → Q x d) := by
  by_cases h : p
  · rw [if_pos h]
    exact ⟨fun _ no => absurd h no, fun _ x d impossible => nomatch impossible⟩
  · rw [if_neg h]
    exact ⟨fun all _ => all, fun all => all h⟩

end Reads

namespace Follows
variable {m m' : AuditScan ε α} {n n' : Scan ε Unit α} {f : α → AuditScan ε β} {g : α → Scan ε Unit β}
  {P P' : Cursor → Prop} {Q : α → Cursor → Prop} {e : ε}

theorem iff (h : Follows m n P) (same : ∀ c, P c ↔ P' c) : Follows m n P' := fun c => (h c).iff (same c)

theorem bind (hm : Follows m n P) (hf : ∀ x, Follows (f x) (g x) (Q x)) :
    Follows (m >>= f) (n >>= g) fun c => P c ∧ ∀ x d, Reads n c x d → Q x d := by
  intro c
  have both := (hm c).bind (f := fun x => f x.1 x.2) (g := fun x => (g x.1 () x.2).1) (Q := fun x => Q x.1 x.2)
    fun x _ => hf x.1 x.2
  have runs : ((n >>= g) () c).1 = (n () c).1 >>= fun x => (g x.1 () x.2).1 := by
    rw [Scan.bind_apply]
    obtain ⟨r, t⟩ := n () c
    cases r with
    | error e => rfl
    | ok x => rfl
  rw [runs]
  exact both.iff (and_congr Iff.rfl Prod.forall)

/-- A first statement that sets nothing aside. -/
theorem seq (hm : Sound m n) (hf : ∀ x, Follows (f x) (g x) (Q x)) :
    Follows (m >>= f) (n >>= g) fun c => ∀ x d, Reads n c x d → Q x d :=
  (hm.bind hf).iff fun _ => by simp

theorem guard {p : Prop} [Decidable p] (h : Follows m n P) :
    Follows (if p then throw e else m) (if p then Scan.throw e else n) fun c => ¬p → P c := by
  intro c
  by_cases yes : p
  · rw [if_pos yes, if_pos yes]
    exact (Audit.Follows.error e).iff (by simp [yes])
  · rw [if_neg yes, if_neg yes]
    exact (h c).iff (by simp [yes])

/-- Room is set aside ahead of what follows. -/
theorem reserve (count item : Nat) {f : Unit → AuditScan ε α} (h : Follows (f ()) n P) :
    Follows (AuditScan.reserve count item >>= f) n fun c => count * item ≤ c.rest.length ∧ P c := by
  intro c
  refine ⟨(h c).ends, ?_⟩
  have room : ((AuditScan.reserve count item >>= f) c).Held ↔ _ := List.forall_mem_cons
  exact room.trans (and_congr Iff.rfl (h c).held)

end Follows

namespace Sound
variable {m m' : AuditScan ε α} {n n' : Scan ε Unit α} {f : α → AuditScan ε β} {g : α → Scan ε Unit β} {e : ε}

theorem pure (x : α) : Sound (Pure.pure x : AuditScan ε α) (Pure.pure x) := fun c => .pure (x, c)

theorem throw : Sound (AuditScan.throw e : AuditScan ε α) (Scan.throw e) := fun _ => .error e

theorem bind (hm : Sound m n) (hf : ∀ x, Sound (f x) (g x)) : Sound (m >>= f) (n >>= g) :=
  (Follows.bind hm hf).iff fun c => by simp

theorem guard {p : Prop} [Decidable p] (h : Sound m n) :
    Sound (if p then AuditScan.throw e else m) (if p then Scan.throw e else n) :=
  (Follows.guard h).iff fun c => by simp

theorem ite {p : Prop} [Decidable p] (yes : Sound m n) (no : Sound m' n') :
    Sound (if p then m else m') (if p then n else n') := by
  split
  · exact yes
  · exact no

theorem take (e : ε) (n : Nat) : Sound (AuditScan.take e n) (Scan.take e n) := by
  intro c
  change ((if c.rest.length < n then AuditScan.throw e else splitAt n) c).Follows _ _
  unfold Scan.take
  by_cases short : c.rest.length < n
  · rw [if_pos short, if_neg (Nat.not_le.mpr short)]
    exact .error e
  · have long : n ≤ c.rest.length := Nat.not_lt.mp short
    rw [if_neg short, if_pos long]
    unfold splitAt
    rw [Audit.slice_ok (Nat.zero_le _) long, Audit.slice_ok long (Nat.le_refl _)]
    have rest : (c.rest.drop n).take (c.rest.length - n) = c.rest.drop n := List.take_of_length_le (by simp)
    simp only [Audit.pure_bind, List.drop_zero, Nat.sub_zero, rest]
    exact .pure _

theorem num (e : ε) (w : Nat) : Sound (AuditScan.num e w) (Scan.num e w) := (take e w).bind fun _ => pure _

theorem remaining : Sound (AuditScan.remaining : AuditScan ε Nat) Scan.remaining := fun _ => .pure _

theorem ofOption (e : ε) (o : Option α) : Sound (AuditScan.ofOption e o) (Scan.ofOption e o) := by
  cases o with
  | none => exact throw
  | some a => exact pure a

theorem collect (h : Sound m n) (k : Nat) : Sound (AuditScan.collect k m) (Scan.collect k n) := by
  induction k with
  | zero => exact pure []
  | succ k ih => exact h.bind fun _ => ih.bind fun _ => pure _

/-- Room that was asked for first is held. -/
theorem reserve (count item : Nat) : Sound
    (do if count * item > (← AuditScan.remaining) then AuditScan.throw e else AuditScan.reserve count item)
    (do if count * item > (← Scan.remaining) then Scan.throw e else Pure.pure ()) := by
  intro c
  change ((if count * item > c.rest.length then AuditScan.throw e else AuditScan.reserve count item) c).Follows
    ((if count * item > c.rest.length then Scan.throw e else Pure.pure ()) () c).1 True
  by_cases past : count * item > c.rest.length
  · rw [if_pos past, if_pos past]
    exact .error e
  · rw [if_neg past, if_neg past]
    refine ⟨rfl, iff_true_intro ?_⟩
    exact List.forall_mem_singleton.mpr (Nat.le_of_not_lt past)

end Sound
end AuditScan
end ByteAudit
