import Mathlib.Data.List.Basic
import Mathlib.Data.List.Nodup

/-!
# Lists of things in the order they are first seen

A thing is added at the end unless the list has it. Places never change, so whoever keeps
the place of a thing can find it later.
-/
namespace FirstSeen
variable {α : Type} [DecidableEq α]

def add (l : List α) (a : α) : List α := if a ∈ l then l else l ++ [a]

def all (l : List α) (as : List α) : List α := as.foldl add l

variable {l as bs : List α} {a b : α}

@[simp] theorem all_nil : all l [] = l := rfl

@[simp] theorem all_cons : all l (a :: as) = all (add l a) as := rfl

theorem all_append : all l (as ++ bs) = all (all l as) bs := List.foldl_append

@[simp] theorem mem_add : b ∈ add l a ↔ b ∈ l ∨ b = a := by
  unfold add
  split
  · rename_i known
    constructor
    · exact .inl
    · rintro (mem | rfl)
      · exact mem
      · exact known
  · simp

theorem prefix_add (l : List α) (a : α) : l <+: add l a := by
  unfold add
  split
  · exact List.prefix_rfl
  · exact List.prefix_append l [a]

theorem add_nodup (nodup : l.Nodup) : (add l a).Nodup := by
  unfold add
  split
  · exact nodup
  · rename_i fresh
    exact nodup.append (List.nodup_singleton a) (by simpa using fresh)

@[simp] theorem mem_all : b ∈ all l as ↔ b ∈ l ∨ b ∈ as := by
  induction as generalizing l with
  | nil => simp
  | cons a as ih => rw [all_cons, ih, mem_add, List.mem_cons, or_assoc]

theorem prefix_all (l as : List α) : l <+: all l as := by
  induction as generalizing l with
  | nil => exact List.prefix_rfl
  | cons a as ih => exact (prefix_add l a).trans (ih (add l a))

omit [DecidableEq α] in
/-- A place keeps what it has when the list grows. -/
theorem getElem?_grown (grown : l <+: as) {i : Nat} (here : l[i]? = some a) : as[i]? = some a := by
  obtain ⟨more, rfl⟩ := grown
  obtain ⟨inside, -⟩ := List.getElem?_eq_some_iff.mp here
  rw [List.getElem?_append_left inside, here]

/-- Things that are all new are added as they come. -/
theorem all_fresh (nodup : (l ++ as).Nodup) : all l as = l ++ as := by
  induction as generalizing l with
  | nil => simp
  | cons a as ih =>
      have fresh : a ∉ l := by
        intro known
        exact (List.nodup_append.mp nodup).2.2 a known a List.mem_cons_self rfl
      rw [List.append_cons] at nodup
      rw [all_cons, add, if_neg fresh, ih nodup, ← List.append_cons]

end FirstSeen
