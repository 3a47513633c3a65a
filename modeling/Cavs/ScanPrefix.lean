import Cavs.ByteScan

/-!
# Scanners that look at what they take only

A scanner that accepts a byte string and looks at nothing behind what it takes accepts
every byte string with the same beginning in the same way, if it accepts it at all. It may
look at how much is left to give up, so it accepts one of the same length for certain.
-/
namespace ByteScan
open FileProg (Bytes)
open List (append_assoc append_nil forall_mem_cons length_append not_mem_nil take_append_drop)

variable {ε S α β : Type} {m m' : Scan ε S α} {f : α → Scan ε S β} {e : ε} {s : S} {c : Cursor} {x : α}
  {n : Nat} {t : S} {d : Cursor}

theorem bind_of_ok (h : m s c = (.ok (x, d), t)) :
    (m >>= f) s c = f x t d := by
  rw [Scan.bind_apply, h]

theorem ok_of_bind {u : S} {y : β} (h : (m >>= f) s c = (.ok (y, d), u)) :
    ∃ x c' t, m s c = (.ok (x, c'), t) ∧ f x t c' = (.ok (y, d), u) := by
  rw [Scan.bind_apply] at h
  split at h
  · exact ⟨_, _, _, ‹_›, h⟩
  · cases h

theorem ok_of_take {b : Bytes} (h : (Scan.take e n : Scan ε S Bytes) s c = (.ok (b, d), t)) :
    c.rest = b ++ d.rest ∧ b.length = n ∧ d.pos = c.pos + n ∧ t = s := by
  unfold Scan.take at h
  split at h
  · rename_i long
    cases h
    exact ⟨(take_append_drop n c.rest).symm, List.length_take_of_le long, rfl, rfl⟩
  · cases h

/-- What was read behind a check passed the check. -/
theorem ok_of_guard {c : Prop} [Decidable c] {k l : Cursor}
    (h : (if c then Scan.throw e else m) s k = (.ok (x, l), t)) : ¬ c ∧ m s k = (.ok (x, l), t) := by
  split_ifs at h with bad
  · cases h
  · exact ⟨bad, h⟩

/-- What a scanner takes of a byte string it accepts decides what it gives for every byte
string that goes on from there and is accepted, as each of the same length is. -/
def Decides (m : Scan ε S α) : Prop :=
  ∀ s p bytes x c t, m s ⟨p, bytes⟩ = (.ok (x, c), t) →
    ∃ b, bytes = b ++ c.rest ∧ c.pos = p + b.length ∧
      (∀ {rest y d u}, m s ⟨p, b ++ rest⟩ = (.ok (y, d), u) → y = x ∧ d = ⟨p + b.length, rest⟩ ∧ u = t) ∧
      ∀ rest, rest.length = c.rest.length → m s ⟨p, b ++ rest⟩ = (.ok (x, ⟨p + b.length, rest⟩), t)

namespace Decides

theorem pure (x : α) : Decides (pure x : Scan ε S α) := by
  intro s p bytes x' c t h
  cases h
  refine ⟨[], rfl, rfl, fun h => ?_, fun _ _ => rfl⟩
  cases h
  exact ⟨rfl, rfl, rfl⟩

theorem throw : Decides (Scan.throw e : Scan ε S α) := by
  intro s p bytes x c t h
  cases h

theorem bind (hm : Decides m) (hf : ∀ x, Decides (f x)) : Decides (m >>= f) := by
  intro s p bytes y c t h
  rw [Scan.bind_apply] at h
  split at h
  · rename_i a c' t' first
    obtain ⟨b, split, pos, same, accepts⟩ := hm _ _ _ _ _ _ first
    obtain ⟨b', split', pos', same', accepts'⟩ := hf a _ _ _ _ _ _ (show f a t' ⟨c'.pos, c'.rest⟩ = _ from h)
    refine ⟨b ++ b', by rw [split, split', append_assoc], ?_, fun {rest y' d u} other => ?_,
      fun rest long => ?_⟩
    · rw [pos', pos, length_append, Nat.add_assoc]
    · rw [Scan.bind_apply, append_assoc] at other
      split at other
      · rename_i first'
        obtain ⟨rfl, rfl, rfl⟩ := same first'
        rw [pos] at same' pos'
        obtain ⟨rfl, rfl, rfl⟩ := same' other
        exact ⟨rfl, by rw [length_append, Nat.add_assoc], rfl⟩
      · cases other
    · rw [Scan.bind_apply, append_assoc, accepts (b' ++ rest) (by rw [split', length_append, length_append, long])]
      rw [pos] at accepts'
      dsimp only
      rw [accepts' rest long, length_append, Nat.add_assoc]
  · cases h

theorem take {n : Nat} : Decides (Scan.take e n : Scan ε S Bytes) := by
  intro s p bytes x c t h
  unfold Scan.take at h
  split at h
  · rename_i long
    cases h
    have taken : (bytes.take n).length = n := List.length_take_of_le long
    have again : ∀ rest, Scan.take e n s ⟨p, bytes.take n ++ rest⟩ =
        (.ok (bytes.take n, ⟨p + (bytes.take n).length, rest⟩), s) := by
      intro rest
      unfold Scan.take
      rw [if_pos (by rw [length_append, taken]; exact Nat.le_add_right ..)]
      dsimp only
      rw [List.take_left' taken, List.drop_left' taken, taken]
    refine ⟨bytes.take n, (take_append_drop n bytes).symm, by rw [taken], fun {rest y d u} other => ?_,
      fun rest _ => again rest⟩
    rw [again] at other
    cases other
    exact ⟨rfl, rfl, rfl⟩
  · cases h

/-- What is left to read may be looked at to give up. -/
theorem remaining {g : Nat → Scan ε S α} (giveUp : ∀ r, g r = m ∨ ∀ s c, ∃ e t, g r s c = (.error e, t))
    (hm : Decides m) : Decides (Scan.remaining >>= g) := by
  have goesOn : ∀ {s p bytes x c t}, (Scan.remaining >>= g) s ⟨p, bytes⟩ = (.ok (x, c), t) →
      m s ⟨p, bytes⟩ = (.ok (x, c), t) := by
    intro s p bytes x c t h
    change g bytes.length s ⟨p, bytes⟩ = _ at h
    rcases giveUp bytes.length with same | fails
    · rwa [same] at h
    · obtain ⟨e, t, fail⟩ := fails s ⟨p, bytes⟩
      rw [fail] at h
      cases h
  intro s p bytes x c t h
  obtain ⟨b, split, pos, same, accepts⟩ := hm _ _ _ _ _ _ (goesOn h)
  refine ⟨b, split, pos, fun other => same (goesOn other), fun rest long => ?_⟩
  have length : (b ++ rest).length = bytes.length := by
    rw [split, length_append, length_append, long]
  rw [← accepts rest long]
  change g (b ++ rest).length s ⟨p, b ++ rest⟩ = _
  rw [length]
  rcases giveUp bytes.length with same | fails
  · rw [same]
  · obtain ⟨e, t, fail⟩ := fails s ⟨p, bytes⟩
    change g bytes.length s ⟨p, bytes⟩ = _ at h
    rw [fail] at h
    cases h

/-- Two byte strings that both are accepted give the same when they agree as far as the
scanner gets in one of them. -/
theorem agree (hm : Decides m) {s : S} {p n : Nat} {bytes bytes' : Bytes} {x y : α} {c d : Cursor} {t u : S}
    (h : m s ⟨p, bytes⟩ = (.ok (x, c), t)) (h' : m s ⟨p, bytes'⟩ = (.ok (y, d), u))
    (within : c.pos ≤ p + n) (same : bytes.take n = bytes'.take n) : x = y := by
  obtain ⟨b, split, pos, only, -⟩ := hm _ _ _ _ _ _ h
  have short : b.length ≤ n := by omega
  have front : bytes'.take b.length = b := by
    calc bytes'.take b.length = (bytes'.take n).take b.length := by rw [List.take_take, min_eq_left short]
      _ = (bytes.take n).take b.length := by rw [same]
      _ = bytes.take b.length := by rw [List.take_take, min_eq_left short]
      _ = b := by rw [split, List.take_left]
  have whole : bytes' = b ++ bytes'.drop b.length := by
    calc bytes' = bytes'.take b.length ++ bytes'.drop b.length := (take_append_drop ..).symm
      _ = b ++ bytes'.drop b.length := by rw [front]
  rw [whole] at h'
  exact (only h').1.symm

end Decides

/-- More bytes behind a byte string that is accepted are left to read. -/
def Prolongs (m : Scan ε S α) : Prop :=
  ∀ s p bytes x c t more, m s ⟨p, bytes⟩ = (.ok (x, c), t) →
    m s ⟨p, bytes ++ more⟩ = (.ok (x, ⟨c.pos, c.rest ++ more⟩), t)

namespace Prolongs

theorem pure (x : α) : Prolongs (pure x : Scan ε S α) := by
  intro s p bytes y c t more h
  cases h
  rfl

theorem throw : Prolongs (Scan.throw e : Scan ε S α) := by
  intro s p bytes x c t more h
  cases h

theorem bind (hm : Prolongs m) (hf : ∀ x, Prolongs (f x)) : Prolongs (m >>= f) := by
  intro s p bytes y d u more h
  obtain ⟨x, c, t, first, rest⟩ := ok_of_bind h
  exact (bind_of_ok (hm s p bytes x c t more first)).trans (hf x t c.pos c.rest y d u more rest)

theorem take {n : Nat} : Prolongs (Scan.take e n : Scan ε S Bytes) := by
  intro s p bytes x c t more h
  obtain ⟨split, length, pos, same⟩ := ok_of_take h
  dsimp only at split pos
  have scans := Scans.take (ε := ε) (S := S) (s := s) (p := p) (e := e) length (c.rest ++ more)
  rw [split, append_assoc, scans, pos, length, same]

end Prolongs

/-- A scanner that is put together from takes, and looks at what is left only to give up. -/
inductive Composed : {α : Type} → Scan ε S α → Prop
  | pure {α : Type} (x : α) : Composed (Pure.pure x)
  | throw {α : Type} {e : ε} : Composed (Scan.throw e : Scan ε S α)
  | bind {α β : Type} {m : Scan ε S α} {f : α → Scan ε S β} (first : Composed m) (then_ : ∀ x, Composed (f x)) :
      Composed (m >>= f)
  | take {e : ε} {n : Nat} : Composed (Scan.take e n)
  | enough {e : ε} {n : Nat} : Composed (Scan.remaining >>= fun left => if n > left then Scan.throw e else Pure.pure ())

namespace Composed

theorem ite {c : Prop} [Decidable c] (hm : Composed m) (hm' : Composed m') : Composed (if c then m else m') := by
  split
  · exact hm
  · exact hm'

theorem num {w : Nat} : Composed (Scan.num e w : Scan ε S Nat) := .bind .take fun _ => .pure _

theorem ofOption (o : Option α) : Composed (Scan.ofOption e o : Scan ε S α) := by
  cases o with
  | none => exact .throw
  | some a => exact .pure a

theorem collect (hm : Composed m) (n : Nat) : Composed (Scan.collect n m) := by
  induction n with
  | zero => exact .pure []
  | succ n ih => exact hm.bind fun _ => ih.bind fun _ => .pure _

theorem decides (hm : Composed m) : Decides m := by
  induction hm with
  | pure x => exact .pure x
  | throw => exact .throw
  | bind _ _ first rest => exact first.bind rest
  | take => exact .take
  | @enough e n =>
      refine Decides.remaining (m := Pure.pure ()) (fun r => ?_) (.pure _)
      by_cases short : n > r
      · exact .inr fun s c => ⟨e, s, by rw [if_pos short]; rfl⟩
      · exact .inl (if_neg short)

theorem prolongs (hm : Composed m) : Prolongs m := by
  induction hm with
  | pure x => exact .pure x
  | throw => exact .throw
  | bind _ _ first rest => exact first.bind rest
  | take => exact .take
  | @enough e n =>
      intro s p bytes x c t more h
      obtain ⟨fine, h⟩ := ok_of_guard (c := n > bytes.length) (m := Pure.pure ()) h
      cases h
      have enough : ¬ n > (bytes ++ more).length := by
        rw [length_append]
        omega
      exact congrFun₂ (if_neg enough) _ _

end Composed

/-- What a scanner accepts, it accepts with as many bytes or more behind what it takes. -/
theorem Decides.prolongs (hm : Decides m) (longer : Prolongs m) {p : Nat} {bytes : Bytes}
    (h : m s ⟨p, bytes⟩ = (.ok (x, c), t)) :
    ∃ b, bytes = b ++ c.rest ∧ c.pos = p + b.length ∧
      ∀ rest, c.rest.length ≤ rest.length → m s ⟨p, b ++ rest⟩ = (.ok (x, ⟨p + b.length, rest⟩), t) := by
  obtain ⟨b, split, pos, -, accepts⟩ := hm _ _ _ _ _ _ h
  refine ⟨b, split, pos, fun rest long => ?_⟩
  have again := accepts (rest.take c.rest.length) (List.length_take_of_le long)
  have more := longer _ _ _ _ _ _ (rest.drop c.rest.length) again
  rw [append_assoc, take_append_drop] at more
  exact more

/-- What a list of items was read from. -/
theorem ok_of_collect {enc : α → Bytes} {P : α → Prop}
    (item : ∀ {s c x d t}, m s c = (.ok (x, d), t) → P x ∧ c.rest = enc x ++ d.rest) {l : List α}
    (h : Scan.collect n m s c = (.ok (l, d), t)) :
    l.length = n ∧ (∀ x ∈ l, P x) ∧ c.rest = l.flatMap enc ++ d.rest := by
  induction n generalizing s c l with
  | zero =>
      cases h
      exact ⟨rfl, fun x mem => (not_mem_nil mem).elim, rfl⟩
  | succ n ih =>
      obtain ⟨x, c', s', first, rest⟩ := ok_of_bind h
      obtain ⟨l', d', t', later, last⟩ := ok_of_bind rest
      cases last
      obtain ⟨length, all, split⟩ := ih later
      obtain ⟨known, split'⟩ := item first
      refine ⟨congrArg (· + 1) length, forall_mem_cons.mpr ⟨known, all⟩, ?_⟩
      rw [split', split, List.flatMap_cons, append_assoc]

theorem le_ofLe (b : Bytes) : le b.length (ofLe b) = b := by
  induction b with
  | nil => rfl
  | cons x xs ih =>
      have small := x.toNat_lt
      have low : UInt8.ofNat (x.toNat + 256 * ofLe xs) = x := by
        rw [← UInt8.toNat_inj, UInt8.toNat_ofNat']
        omega
      have high : (x.toNat + 256 * ofLe xs) / 256 = ofLe xs := by omega
      rw [List.length_cons, ofLe, le, low, high, ih]

theorem ok_of_num {w : Nat} (h : (Scan.num e w : Scan ε S Nat) s c = (.ok (n, d), t)) :
    c.rest = le w n ++ d.rest ∧ n < 256 ^ w ∧ t = s := by
  obtain ⟨b, c', u, taken, last⟩ := ok_of_bind h
  obtain ⟨split, width, -, same⟩ := ok_of_take taken
  cases last
  refine ⟨?_, width ▸ ofLe_lt b, same⟩
  rw [split, ← width, le_ofLe]

theorem ok_of_option {o : Option α} (h : (Scan.ofOption e o : Scan ε S α) s c = (.ok (x, d), t)) :
    o = some x ∧ d = c ∧ t = s := by
  cases o with
  | none => cases h
  | some a =>
      cases h
      exact ⟨rfl, rfl, rfl⟩

/-- What a number of steps read, and the state they leave. -/
theorem ok_of_times {R : Type} {m : Scan ε S Unit} {enc : R → Bytes} {P : R → Prop} {step : S → R → S}
    (item : ∀ {s c d t}, m s c = (.ok ((), d), t) → ∃ r, P r ∧ c.rest = enc r ++ d.rest ∧ t = step s r)
    (h : Scan.times n m s c = (.ok ((), d), t)) :
    ∃ l : List R, l.length = n ∧ (∀ r ∈ l, P r) ∧ c.rest = l.flatMap enc ++ d.rest ∧ t = l.foldl step s := by
  induction n generalizing s c with
  | zero =>
      cases h
      exact ⟨[], rfl, fun r mem => (not_mem_nil mem).elim, rfl, rfl⟩
  | succ n ih =>
      obtain ⟨x, c', s', first, rest⟩ := ok_of_bind h
      obtain ⟨r, good, split, rfl⟩ := item first
      obtain ⟨l, length, all, split', final⟩ := ih rest
      refine ⟨r :: l, congrArg (· + 1) length, forall_mem_cons.mpr ⟨good, all⟩, ?_, final⟩
      rw [split, split', List.flatMap_cons, append_assoc]

/-- What holds of everything a scanner reads. -/
def Yields (m : Scan ε S α) (P : α → Prop) : Prop :=
  ∀ s c x d t, m s c = (.ok (x, d), t) → P x

namespace Yields
variable {P : α → Prop} {Q : β → Prop}

theorem bind (hm : Yields m P) (hf : ∀ x, P x → Yields (f x) Q) : Yields (m >>= f) Q := by
  intro s c y d u h
  obtain ⟨x, c', t, first, rest⟩ := ok_of_bind h
  exact hf x (hm s c x c' t first) t c' y d u rest

theorem skip (hf : ∀ x, Yields (f x) Q) : Yields (m >>= f) Q :=
  bind (P := fun _ => True) (fun _ _ _ _ _ _ => trivial) fun x _ => hf x

theorem pure {x : α} (h : P x) : Yields (pure x : Scan ε S α) P := by
  intro s c y d t run
  cases run
  exact h

theorem throw : Yields (Scan.throw e : Scan ε S α) P := by
  intro s c y d t run
  cases run

theorem ite {c : Prop} [Decidable c] (hm : Yields m P) (hm' : Yields m' P) :
    Yields (if c then m else m') P := by
  split
  · exact hm
  · exact hm'

/-- Behind a check its condition is known to fail. -/
theorem guard {c : Prop} [Decidable c] (hm : ¬ c → Yields m P) : Yields (if c then Scan.throw e else m) P := by
  intro s k y d t run
  obtain ⟨fine, run⟩ := ok_of_guard run
  exact hm fine s k y d t run

theorem take {n : Nat} : Yields (Scan.take e n : Scan ε S Bytes) fun b => b.length = n := by
  intro s c b d t run
  exact (ok_of_take run).2.1

theorem ofOption (o : Option α) : Yields (Scan.ofOption e o : Scan ε S α) fun x => o = some x := by
  intro s c x d t run
  exact (ok_of_option run).1

theorem collect (hm : Yields m P) (n : Nat) : Yields (Scan.collect n m) fun l => ∀ x ∈ l, P x := by
  induction n with
  | zero => exact pure fun x mem => (not_mem_nil mem).elim
  | succ n ih => exact hm.bind fun x hx => ih.bind fun l hl => pure (forall_mem_cons.mpr ⟨hx, hl⟩)

theorem num {w : Nat} : Yields (Scan.num e w : Scan ε S Nat) (· < 256 ^ w) := by
  intro s c n d t h
  obtain ⟨b, c', u, taken, rest⟩ := ok_of_bind h
  cases rest
  rw [← (ok_of_take taken).2.1]
  exact ofLe_lt b

end Yields

/-- A scanner that accepts goes from a state with `I` to one with `I`, and `P` holds of what
it reads. -/
def Keeps (I : S → Prop) (m : Scan ε S α) (P : α → Prop) : Prop :=
  ∀ s c x d t, I s → m s c = (.ok (x, d), t) → P x ∧ I t

namespace Keeps
variable {I : S → Prop} {P : α → Prop} {Q : β → Prop}

theorem bind (hm : Keeps I m P) (hf : ∀ x, P x → Keeps I (f x) Q) : Keeps I (m >>= f) Q := by
  intro s c y d u start h
  obtain ⟨x, c', t, first, rest⟩ := ok_of_bind h
  obtain ⟨known, kept⟩ := hm s c x c' t start first
  exact hf x known t c' y d u kept rest

theorem skip (hm : Keeps I m P) (hf : ∀ x, Keeps I (f x) Q) : Keeps I (m >>= f) Q :=
  hm.bind fun x _ => hf x

theorem mono {P' : α → Prop} (hm : Keeps I m P) (weaker : ∀ x, P x → P' x) : Keeps I m P' := by
  intro s c x d t start run
  obtain ⟨known, kept⟩ := hm s c x d t start run
  exact ⟨weaker x known, kept⟩

theorem pure {x : α} (h : P x) : Keeps I (pure x : Scan ε S α) P := by
  intro s c y d t start run
  cases run
  exact ⟨h, start⟩

theorem throw : Keeps I (Scan.throw e : Scan ε S α) P := by
  intro s c y d t start run
  cases run

theorem modify {g : S → S} (h : ∀ s, I s → I (g s)) :
    Keeps I (Scan.modify g : Scan ε S Unit) fun _ => True := by
  intro s c y d t start run
  cases run
  exact ⟨trivial, h s start⟩

theorem position : Keeps I (Scan.position : Scan ε S Nat) fun _ => True := by
  intro s c y d t start run
  cases run
  exact ⟨trivial, start⟩

theorem remaining : Keeps I (Scan.remaining : Scan ε S Nat) fun _ => True := by
  intro s c y d t start run
  cases run
  exact ⟨trivial, start⟩

theorem take {n : Nat} : Keeps I (Scan.take e n : Scan ε S Bytes) fun b => b.length = n := by
  intro s c b d t start run
  obtain ⟨-, length, -, same⟩ := ok_of_take run
  exact ⟨length, same ▸ start⟩

theorem num {w : Nat} : Keeps I (Scan.num e w : Scan ε S Nat) (· < 256 ^ w) := by
  apply take.bind
  intro b length
  apply pure
  exact length ▸ ofLe_lt b

theorem ofOption (o : Option α) : Keeps I (Scan.ofOption e o : Scan ε S α) fun x => o = some x := by
  cases o with
  | none => exact throw
  | some x => exact pure rfl

theorem collect (hm : Keeps I m P) (n : Nat) :
    Keeps I (Scan.collect n m) fun l => l.length = n ∧ ∀ x ∈ l, P x := by
  induction n with
  | zero => exact pure ⟨rfl, fun x mem => (not_mem_nil mem).elim⟩
  | succ n ih =>
      apply hm.bind
      intro x hx
      apply ih.bind
      intro l hl
      exact pure ⟨congrArg (· + 1) hl.1, forall_mem_cons.mpr ⟨hx, hl.2⟩⟩

theorem times {m : Scan ε S Unit} (hm : Keeps I m fun _ => True) (n : Nat) :
    Keeps I (Scan.times n m) fun _ => True := by
  induction n with
  | zero => exact pure trivial
  | succ n ih => exact hm.skip fun _ => ih

end Keeps

/-- Two scanners give the same where both accept. -/
def Agrees (m m' : Scan ε S α) : Prop :=
  ∀ s c x d t y d' t', m s c = (.ok (x, d), t) → m' s c = (.ok (y, d'), t') → y = x ∧ d' = d ∧ t' = t

namespace Agrees
variable {g : α → Scan ε S β} {e' : ε}

theorem refl (m : Scan ε S α) : Agrees m m := by
  intro s c x d t y d' t' h h'
  cases h.symm.trans h'
  exact ⟨rfl, rfl, rfl⟩

theorem bind (hm : Agrees m m') (hf : ∀ x, Agrees (f x) (g x)) : Agrees (m >>= f) (m' >>= g) := by
  intro s c y d u y' d' u' h h'
  obtain ⟨x, c₁, t, first, rest⟩ := ok_of_bind h
  obtain ⟨x', c₁', t', first', rest'⟩ := ok_of_bind h'
  obtain ⟨rfl, rfl, rfl⟩ := hm _ _ _ _ _ _ _ _ first first'
  exact hf _ _ _ _ _ _ _ _ _ rest rest'

/-- Two scanners that give up on different conditions. -/
theorem guard {c c' : Prop} [Decidable c] [Decidable c'] (hm : Agrees m m') :
    Agrees (if c then Scan.throw e else m) (if c' then Scan.throw e' else m') := by
  intro s k x d t y d' t' h h'
  split_ifs at h with no
  · cases h
  split_ifs at h' with no'
  · cases h'
  · exact hm s k x d t y d' t' h h'

end Agrees

/-- A scanner takes `b` and gives `x` for it exactly when `P`. -/
structure Takes (m : Scan ε S α) (s : S) (b : Bytes) (x : α) (P : Prop) : Prop where
  scans : P → ∀ p, Scans m s p b x s
  only : ∀ {p rest y c t}, m s ⟨p, b ++ rest⟩ = (.ok (y, c), t) → P ∧ y = x ∧ c = ⟨p + b.length, rest⟩ ∧ t = s

namespace Takes
variable {s : S} {b b' : Bytes} {x : α} {y : β} {P Q : Prop}

theorem of_scans (h : ∀ p, Scans m s p b x s) : Takes m s b x True := by
  constructor
  · intro _ p
    exact h p
  · intro p rest y c t run
    rw [h p rest] at run
    cases run
    exact ⟨trivial, rfl, rfl, rfl⟩

theorem congr (h : Takes m s b x P) (same : P ↔ Q) : Takes m s b x Q := by
  rwa [← propext same]

theorem bind (hm : Takes m s b x P) (hf : P → Takes (f x) s b' y Q) :
    Takes (m >>= f) s (b ++ b') y (P ∧ Q) := by
  constructor
  · rintro ⟨holds, holds'⟩ p
    exact (hm.scans holds p).bind ((hf holds).scans holds' _)
  · intro p rest z d u run
    rw [append_assoc] at run
    obtain ⟨a, c, t, first, last⟩ := ok_of_bind run
    obtain ⟨holds, rfl, rfl, rfl⟩ := hm.only first
    obtain ⟨holds', rfl, rfl, rfl⟩ := (hf holds).only last
    exact ⟨⟨holds, holds'⟩, rfl, by rw [length_append, Nat.add_assoc], rfl⟩

/-- A first statement that takes nothing. -/
theorem first (hm : Takes m s [] x P) (hf : P → Takes (f x) s b y Q) : Takes (m >>= f) s b y (P ∧ Q) :=
  bind (b := []) hm hf

/-- A last statement that takes nothing. -/
theorem last (hm : Takes m s b x P) (hf : P → Takes (f x) s [] y Q) : Takes (m >>= f) s b y (P ∧ Q) := by
  rw [← append_nil b]
  exact bind hm hf

theorem guard {c : Prop} [Decidable c] (hm : ¬ c → Takes m s b x P) :
    Takes (if c then Scan.throw e else m) s b x (¬ c ∧ P) := by
  by_cases no : c
  · rw [if_pos no]
    constructor
    · intro holds
      exact absurd no holds.1
    · intro p rest y k t run
      cases run
  · rw [if_neg no]
    exact (hm no).congr (and_iff_right no).symm

theorem require {c : Prop} [Decidable c] (hm : c → Takes m s b x P) :
    Takes (if c then m else Scan.throw e) s b x (c ∧ P) := by
  rw [← ite_not]
  exact (guard fun fine => hm (not_not.mp fine)).congr (and_congr_left' not_not)

theorem pure (x : α) : Takes (pure x : Scan ε S α) s [] x True := of_scans fun _ => .pure x

theorem collect {X : Type} (f : X → Bytes) (g : X → α) {R : X → Prop} (l : List X)
    (item : ∀ x ∈ l, Takes m s (f x) (g x) (R x)) :
    Takes (Scan.collect l.length m) s (l.flatMap f) (l.map g) (∀ x ∈ l, R x) := by
  induction l with
  | nil => exact (pure []).congr (by simp)
  | cons x l ih =>
      have tail := ih fun y mem => item y (.tail _ mem)
      refine congr (bind (item x (.head _)) fun _ => last tail fun _ => pure _) ?_
      rw [forall_mem_cons, and_true]

end Takes

/-- A scanner that is given `b` and nothing behind it takes it all and gives `x` exactly
when `P`. -/
structure Reads (m : Scan ε S α) (s : S) (b : Bytes) (x : α) (P : Prop) : Prop where
  runs : P → ∀ p, m s ⟨p, b⟩ = (.ok (x, ⟨p + b.length, []⟩), s)
  only : ∀ {p y c t}, m s ⟨p, b⟩ = (.ok (y, c), t) → P ∧ y = x

namespace Reads
variable {s : S} {b b' : Bytes} {x : α} {y : β} {P Q : Prop}

theorem congr (h : Reads m s b x P) (same : P ↔ Q) : Reads m s b x Q := by
  rwa [← propext same]

/-- What scans in front of anything scans in front of the rest. -/
theorem bind (hm : Takes m s b x P) (hf : P → Reads (f x) s b' y Q) : Reads (m >>= f) s (b ++ b') y (P ∧ Q) := by
  constructor
  · rintro ⟨holds, holds'⟩ p
    rw [bind_of_ok (hm.scans holds p b'), (hf holds).runs holds', length_append, Nat.add_assoc]
  · intro p z d u run
    obtain ⟨a, c, t, first, last⟩ := ok_of_bind run
    obtain ⟨holds, rfl, rfl, rfl⟩ := hm.only first
    obtain ⟨holds', rfl⟩ := (hf holds).only last
    exact ⟨⟨holds, holds'⟩, rfl⟩

/-- A first statement that takes nothing. -/
theorem first (hm : Takes m s [] x P) (hf : P → Reads (f x) s b y Q) : Reads (m >>= f) s b y (P ∧ Q) :=
  bind (b := []) hm hf

/-- What is left to read is the whole of it. -/
theorem remaining {g : Nat → Scan ε S α} (h : Reads (g b.length) s b x P) : Reads (Scan.remaining >>= g) s b x P :=
  ⟨h.runs, h.only⟩

theorem guard {c : Prop} [Decidable c] (hm : ¬ c → Reads m s b x P) :
    Reads (if c then Scan.throw e else m) s b x (¬ c ∧ P) := by
  by_cases no : c
  · rw [if_pos no]
    constructor
    · intro holds
      exact absurd no holds.1
    · intro p y k t run
      cases run
  · rw [if_neg no]
    exact (hm no).congr (and_iff_right no).symm

theorem of_takes (h : Takes m s b x P) : Reads m s b x P := by
  constructor
  · intro holds p
    have run := h.scans holds p []
    rwa [append_nil] at run
  · intro p y c t run
    rw [← append_nil b] at run
    obtain ⟨holds, same, -, -⟩ := h.only run
    exact ⟨holds, same⟩

theorem pure (x : α) : Reads (pure x : Scan ε S α) s [] x True := of_takes (.pure x)

/-- A last statement that takes nothing. -/
theorem last (hm : Takes m s b x P) (hf : P → Reads (f x) s [] y Q) : Reads (m >>= f) s b y (P ∧ Q) := by
  rw [← append_nil b]
  exact bind hm hf

end Reads

/-- A scanner that accepts what begins with `b` takes `b`, gives `x` for it, and `P`. -/
def Only (m : Scan ε S α) (s : S) (b : Bytes) (x : α) (P : Prop) : Prop :=
  ∀ ⦃p rest y c t⦄, m s ⟨p, b ++ rest⟩ = (.ok (y, c), t) → P ∧ y = x ∧ c = ⟨p + b.length, rest⟩ ∧ t = s

namespace Only
variable {s : S} {b b' : Bytes} {x : α} {y : β} {P Q : Prop}

theorem of_scans (h : ∀ p, Scans m s p b x s) : Only m s b x True := fun _ _ _ _ _ => (Takes.of_scans h).only

/-- What is known of the first statement may be used for the rest. -/
theorem bind (hm : Only m s b x P) (hf : P → Only (f x) s b' y Q) : Only (m >>= f) s (b ++ b') y Q := by
  intro p rest z d u run
  rw [append_assoc] at run
  obtain ⟨a, c, t, first, last⟩ := ok_of_bind run
  obtain ⟨holds, rfl, rfl, rfl⟩ := hm first
  obtain ⟨holds', rfl, rfl, rfl⟩ := hf holds last
  exact ⟨holds', rfl, by rw [length_append, Nat.add_assoc], rfl⟩

/-- A last statement that takes nothing. -/
theorem last (hm : Only m s b x P) (hf : P → Only (f x) s [] y Q) : Only (m >>= f) s b y Q := by
  rw [← append_nil b]
  exact bind hm hf

theorem pure (x : α) (h : P) : Only (pure x : Scan ε S α) s [] x P := by
  intro p rest y c t run
  cases run
  exact ⟨h, rfl, rfl, rfl⟩

theorem guard {c : Prop} [Decidable c] (hm : ¬ c → Only m s b x P) : Only (if c then Scan.throw e else m) s b x P := by
  intro p rest y k t run
  split_ifs at run with no
  · cases run
  · exact hm no run

/-- What is left to read may decide whether the scanner accepts. -/
theorem remaining {g : Nat → Scan ε S α} (h : ∀ n, Only (g n) s b x P) : Only (Scan.remaining >>= g) s b x P :=
  fun _ _ _ _ _ run => h _ run

end Only
end ByteScan
