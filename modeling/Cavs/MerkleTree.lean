import Mathlib.Data.List.Basic

/-!
# Merkle trees over a list

The leaves of a list are hashed, then two neighbours at a time until one digest is left; a
digest without a neighbour goes up unchanged. Leaves and pairs may be hashed by one
function, so a digest says which leaves it is of only where no leaf is hashed like a pair.
-/
namespace Merkle

variable {α δ : Type}

inductive Tree (α : Type) where
  | leaf (a : α)
  | node (left right : Tree α)
  deriving DecidableEq, Repr

/-- What is hashed at one place of a tree. -/
abbrev Input (α δ : Type) := α ⊕ δ × δ

namespace Tree

def leaves : Tree α → List α
  | leaf a => [a]
  | node left right => left.leaves ++ right.leaves

variable (hashLeaf : α → δ) (hashPair : δ → δ → δ)

def digest : Tree α → δ
  | leaf a => hashLeaf a
  | node left right => hashPair left.digest right.digest

/-- Everything that is hashed for the digest of a tree. -/
def inputs : Tree α → List (Input α δ)
  | leaf a => [.inl a]
  | node left right =>
      .inr (left.digest hashLeaf hashPair, right.digest hashLeaf hashPair) :: (left.inputs ++ right.inputs)

end Tree

variable (hashLeaf : α → δ) (hashPair : δ → δ → δ)

def hashInput : Input α δ → δ
  | .inl a => hashLeaf a
  | .inr (left, right) => hashPair left right

/-- No input of one list has the hash of another input of the other list. -/
def Apart (xs ys : List (Input α δ)) : Prop :=
  ∀ x ∈ xs, ∀ y ∈ ys, hashInput hashLeaf hashPair x = hashInput hashLeaf hashPair y → x = y

variable {hashLeaf hashPair}

theorem Apart.sublist {xs xs' ys ys' : List (Input α δ)} (apart : Apart hashLeaf hashPair xs ys)
    (left : xs' ⊆ xs) (right : ys' ⊆ ys) : Apart hashLeaf hashPair xs' ys' :=
  fun x hx y hy => apart x (left hx) y (right hy)

theorem digest_injective {t u : Tree α}
    (apart : Apart hashLeaf hashPair (t.inputs hashLeaf hashPair) (u.inputs hashLeaf hashPair))
    (same : t.digest hashLeaf hashPair = u.digest hashLeaf hashPair) : t = u := by
  induction t generalizing u with
  | leaf a =>
      cases u with
      | leaf b =>
          have := apart (.inl a) (.head _) (.inl b) (.head _) same
          cases this
          rfl
      | node left right => exact nomatch apart (.inl a) (.head _) (.inr (_, _)) (.head _) same
  | node left right ihLeft ihRight =>
      cases u with
      | leaf b => exact nomatch apart (.inr (_, _)) (.head _) (.inl b) (.head _) same
      | node left' right' =>
          have pair := apart (.inr (_, _)) (.head _) (.inr (_, _)) (.head _) same
          simp only [Sum.inr.injEq, Prod.mk.injEq] at pair
          rw [ihLeft (apart.sublist (fun _ h => .tail _ (List.mem_append_left _ h))
              fun _ h => .tail _ (List.mem_append_left _ h)) pair.1,
            ihRight (apart.sublist (fun _ h => .tail _ (List.mem_append_right _ h))
              fun _ h => .tail _ (List.mem_append_right _ h)) pair.2]

section Levels

def pairs : List (Tree α) → List (Tree α)
  | a :: b :: rest => .node a b :: pairs rest
  | rest => rest

/-- Levels until one tree is left; there are fewer levels than leaves. -/
def levels : Nat → List (Tree α) → List (Tree α)
  | 0, level => level
  | fuel + 1, level => if level.length > 1 then levels fuel (pairs level) else level

/-- The tree over a list; an empty list has none. -/
def treeOf (l : List α) : Option (Tree α) := (levels l.length (l.map .leaf)).head?

theorem leaves_pairs (level : List (Tree α)) : (pairs level).flatMap Tree.leaves = level.flatMap Tree.leaves := by
  fun_induction pairs with
  | case1 a b rest ih => simp [Tree.leaves, ih]
  | case2 rest short => rfl

theorem leaves_levels (fuel : Nat) (level : List (Tree α)) :
    (levels fuel level).flatMap Tree.leaves = level.flatMap Tree.leaves := by
  fun_induction levels with
  | case1 level => rfl
  | case2 fuel level many ih => rw [ih, leaves_pairs]
  | case3 fuel level few => rfl

theorem pairs_length (level : List (Tree α)) : (pairs level).length = (level.length + 1) / 2 := by
  fun_induction pairs with
  | case1 a b rest ih =>
      simp only [List.length_cons, ih]
      omega
  | case2 rest short =>
      match rest, short with
      | [], _ => simp
      | [_], _ => simp
      | a :: b :: rest, short => exact absurd rfl (short a b rest)

theorem levels_length {fuel : Nat} {level : List (Tree α)} (enough : level.length ≤ fuel + 1) :
    (levels fuel level).length ≤ 1 := by
  fun_induction levels with
  | case1 level => exact enough
  | case2 fuel level many ih =>
      apply ih
      rw [pairs_length]
      omega
  | case3 fuel level few => omega

theorem leaves_treeOf (l : List α) : (treeOf l).elim [] Tree.leaves = l := by
  have short : (levels l.length (l.map Tree.leaf)).length ≤ 1 :=
    levels_length (by rw [List.length_map]; omega)
  have all := leaves_levels l.length (l.map Tree.leaf)
  rw [List.flatMap_map] at all
  simp only [Tree.leaves, List.flatMap_singleton'] at all
  rw [treeOf]
  match h : levels l.length (l.map Tree.leaf), short with
  | [], _ =>
      rw [h] at all
      exact all
  | [t], _ =>
      rw [h, List.flatMap_singleton] at all
      exact all

end Levels

end Merkle
