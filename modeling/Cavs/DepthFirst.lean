import Mathlib.Data.Finset.Card
import Mathlib.Data.Finset.Filter
import Mathlib.Data.List.Infix
import Mathlib.Logic.Relation

/-!
# Depth-first search

The recursive search over a successor function: each item once, in the order it is found,
with the path it is found on. In a finite graph there is one result; it holds what can be
reached; it has a successor on the path of some item exactly when a cycle can be reached;
and without cycles the path of an item is the first one, taking successors in order.
-/
namespace DepthFirst
open Relation (ReflTransGen TransGen)
open List (append_nil forall_mem_cons idxOf_cons_ne mem_append mem_append_left mem_cons mem_map mem_singleton
  nodup_append)

structure Found (α : Type) where
  item : α
  path : List α
  deriving DecidableEq, Repr

variable {α : Type} (succ : α → List α)

def items (l : List (Found α)) : List α := l.map Found.item

/-- Search what is to do, found on a path, with what was found before. -/
inductive Search : (path : List α) → (seen : List (Found α)) → (todo : List α) → (out : List (Found α)) → Prop
  | nil (path : List α) (seen : List (Found α)) : Search path seen [] seen
  | skip {path : List α} {seen out : List (Found α)} {x : α} {todo : List α} (old : x ∈ items seen)
      (rest : Search path seen todo out) : Search path seen (x :: todo) out
  | visit {path : List α} {seen mid out : List (Found α)} {x : α} {todo : List α} (new : x ∉ items seen)
      (below : Search (path ++ [x]) (seen ++ [⟨x, path⟩]) (succ x) mid) (rest : Search path mid todo out) :
      Search path seen (x :: todo) out

/-- An edge of the graph. -/
def Next (a b : α) : Prop := b ∈ succ a

/-- A way through the graph that starts with one of some items. -/
def Trail : List α → List α → Prop
  | _, [] => True
  | todo, x :: l => x ∈ todo ∧ Trail (succ x) l

/-- What can be reached from some items. -/
def Reaches (todo : List α) (x : α) : Prop := ∃ r ∈ todo, ReflTransGen (Next succ) r x

variable {succ} {path path' : List α} {seen mid out out' : List (Found α)} {todo l : List α} {x y z : α} {f : Found α}

section Result

@[simp] theorem items_append (l l' : List (Found α)) : items (l ++ l') = items l ++ items l' := List.map_append

@[simp] theorem items_singleton (f : Found α) : items [f] = [f.item] := rfl

theorem mem_items (mem : f ∈ out) : f.item ∈ items out := mem_map.mpr ⟨f, mem, rfl⟩

/-- What was found stays, and what is added is behind it. -/
theorem Search.extends (h : Search succ path seen todo out) : seen <+: out := by
  induction h with
  | nil path seen => exact List.prefix_refl seen
  | skip old rest ih => exact ih
  | visit new below rest ihBelow ihRest => exact (List.prefix_append _ _).trans (ihBelow.trans ihRest)

theorem Search.kept (h : Search succ path seen todo out) (mem : x ∈ items seen) : x ∈ items out := by
  obtain ⟨new, rfl⟩ := h.extends
  rw [items_append]
  exact mem_append_left _ mem

/-- Every item is found once. -/
theorem Search.nodup (h : Search succ path seen todo out) (once : (items seen).Nodup) : (items out).Nodup := by
  induction h with
  | nil path seen => exact once
  | skip old rest ih => exact ih once
  | @visit path seen mid out x todo new below rest ihBelow ihRest =>
      apply ihRest
      apply ihBelow
      rw [items_append, items_singleton]
      refine nodup_append.mpr ⟨once, List.nodup_singleton x, fun a mem b here => ?_⟩
      have this : b = x := mem_singleton.mp here
      rw [this]
      rintro rfl
      exact new mem

/-- Everything that was to do is found. -/
theorem Search.covers (h : Search succ path seen todo out) : ∀ x ∈ todo, x ∈ items out := by
  induction h with
  | nil path seen => simp
  | skip old rest ih => exact forall_mem_cons.mpr ⟨rest.kept old, ih⟩
  | visit new below rest ihBelow ihRest =>
      refine forall_mem_cons.mpr ⟨rest.kept (below.kept ?_), ihRest⟩
      rw [items_append, items_singleton]
      exact List.mem_append_right _ (mem_singleton.mpr rfl)

/-- What is found by this search has its successors found too. -/
theorem Search.closed (h : Search succ path seen todo out) :
    ∀ f ∈ out, f ∈ seen ∨ ∀ y ∈ succ f.item, y ∈ items out := by
  induction h with
  | nil path seen => exact fun f mem => .inl mem
  | skip old rest ih => exact ih
  | @visit path seen mid out x todo new below rest ihBelow ihRest =>
      intro f mem
      rcases ihRest f mem with found | done
      · rcases ihBelow f found with before | done
        · rcases mem_append.mp before with before | here
          · exact .inl before
          · rw [mem_singleton] at here
            subst here
            exact .inr fun y next => rest.kept (below.covers y next)
        · exact .inr fun y next => rest.kept (done y next)
      · exact .inr done

theorem Trail.cons (h : Trail succ todo l) : Trail succ (x :: todo) l := by
  cases l with
  | nil => trivial
  | cons a l => exact ⟨.tail _ h.1, h.2⟩

/-- What is found by this search is found on a trail from what was to do. -/
theorem Search.trail (h : Search succ path seen todo out) :
    ∀ f ∈ out, f ∈ seen ∨ ∃ q, f.path = path ++ q ∧ Trail succ todo (q ++ [f.item]) := by
  induction h with
  | nil path seen => exact fun f mem => .inl mem
  | @skip path seen out x todo old rest ih =>
      intro f mem
      rcases ih f mem with before | ⟨q, split, trail⟩
      · exact .inl before
      · exact .inr ⟨q, split, trail.cons⟩
  | @visit path seen mid out x todo new below rest ihBelow ihRest =>
      intro f mem
      rcases ihRest f mem with found | ⟨q, split, trail⟩
      · rcases ihBelow f found with before | ⟨q, split, trail⟩
        · rcases mem_append.mp before with before | here
          · exact .inl before
          · rw [mem_singleton] at here
            subst here
            exact .inr ⟨[], (append_nil path).symm, .head _, trivial⟩
        · refine .inr ⟨x :: q, ?_, .head _, trail⟩
          rw [split, List.append_assoc]
          rfl
      · exact .inr ⟨q, split, trail.cons⟩

end Result

section Reach

theorem trail_reaches (h : Trail succ todo (l ++ [x])) : Reaches succ todo x := by
  induction l generalizing todo with
  | nil => exact ⟨x, h.1, .refl⟩
  | cons a l ih =>
      obtain ⟨r, next, way⟩ := ih h.2
      exact ⟨a, h.1, .head next way⟩

/-- What stands on a trail leads to its end. -/
theorem trail_between (h : Trail succ todo (l ++ [x])) : ∀ y ∈ l, TransGen (Next succ) y x := by
  induction l generalizing todo with
  | nil => simp
  | cons a l ih =>
      refine forall_mem_cons.mpr ⟨?_, ih h.2⟩
      obtain ⟨r, next, way⟩ := trail_reaches h.2
      exact .head' next way

/-- A set that holds what is to do, and the successors of what it holds, holds what can be reached. -/
theorem Reaches.within {P : α → Prop} (h : Reaches succ todo x) (start : ∀ r ∈ todo, P r)
    (next : ∀ a b, P a → b ∈ succ a → P b) : P x := by
  obtain ⟨r, mem, way⟩ := h
  induction way with
  | refl => exact start r mem
  | tail _ step ih => exact next _ _ ih step

/-- A search from nothing finds what can be reached. -/
theorem Search.mem_iff (h : Search succ path [] todo out) : x ∈ items out ↔ Reaches succ todo x := by
  constructor
  · intro mem
    obtain ⟨f, found, rfl⟩ := mem_map.mp mem
    obtain old | ⟨q, -, trail⟩ := h.trail f found
    · cases old
    · exact trail_reaches trail
  · intro reach
    refine reach.within h.covers fun a b found next => ?_
    obtain ⟨f, mem, rfl⟩ := mem_map.mp found
    obtain old | done := h.closed f mem
    · cases old
    · exact done b next

/-- What was found and can still be reached has its successors found. -/
def Settled (succ : α → List α) (seen : List (Found α)) (todo : List α) : Prop :=
  ∀ z ∈ items seen, Reaches succ todo z → ∀ y ∈ succ z, y ∈ items seen

theorem Settled.mem (h : Settled succ seen todo) (start : ∀ r ∈ todo, r ∈ items seen) (reach : Reaches succ todo x) :
    x ∈ items seen := by
  have both : x ∈ items seen ∧ Reaches succ todo x := by
    refine reach.within (P := fun z => z ∈ items seen ∧ Reaches succ todo z) (fun r mem => ⟨start r mem, r, mem, .refl⟩) ?_
    rintro a b ⟨found, way⟩ next
    obtain ⟨r, mem, way⟩ := way
    exact ⟨h a found ⟨r, mem, way⟩ b next, r, mem, way.tail next⟩
  exact both.1

theorem Reaches.cons (h : Reaches succ todo z) : Reaches succ (x :: todo) z := by
  obtain ⟨r, mem, way⟩ := h
  exact ⟨r, .tail _ mem, way⟩

theorem Reaches.below (h : Reaches succ (succ x) z) : Reaches succ (x :: todo) z := by
  obtain ⟨r, next, way⟩ := h
  exact ⟨x, .head _, .head next way⟩

theorem Trail.tail (h : Trail succ (x :: todo) l) (away : l.head? ≠ some x) : Trail succ todo l := by
  cases l with
  | nil => trivial
  | cons a l =>
      rcases mem_cons.mp h.1 with rfl | later
      · exact absurd rfl away
      · exact ⟨later, h.2⟩

theorem Settled.mono {todo' : List α} (h : Settled succ seen todo) (sub : ∀ z, Reaches succ todo' z → Reaches succ todo z) :
    Settled succ seen todo' :=
  fun z found reach => h z found (sub z reach)

theorem Reaches.single (h : Reaches succ [x] z) : Reaches succ (x :: todo) z := by
  obtain ⟨r, mem, way⟩ := h
  cases mem_singleton.mp mem
  exact ⟨x, .head _, way⟩

theorem item_fresh {new : List (Found α)} (once : (items (seen ++ new)).Nodup) (mem : f ∈ new) : f.item ∉ items seen := by
  rw [items_append] at once
  exact fun old => (nodup_append.mp once).2.2 f.item old f.item (mem_items mem) rfl

theorem Trail.reaches_head (h : Trail succ todo (l ++ [z])) (head : (l ++ [z]).head? = some x) : Reaches succ [x] z := by
  cases l with
  | nil =>
      cases head
      exact ⟨x, .head _, .refl⟩
  | cons a l =>
      cases head
      exact (trail_reaches h.2).below

end Reach

section Total
variable [DecidableEq α]

/-- Within a finite set that is closed under successors, a search has a result. -/
theorem Search.total (U : Finset α) (closed : ∀ x ∈ U, ∀ y ∈ succ x, y ∈ U) (path : List α) (seen : List (Found α))
    (todo : List α) (inside : ∀ x ∈ todo, x ∈ U) : ∃ out, Search succ path seen todo out := by
  -- By how much of the set is not found yet; what is to do decides only while it was all found.
  generalize count : (U.filter (· ∉ items seen)).card = n
  induction n using Nat.strong_induction_on generalizing path seen todo with
  | _ n ih =>
    induction todo with
    | nil => exact ⟨seen, .nil path seen⟩
    | cons x todo ihTodo =>
        obtain ⟨here, later⟩ := forall_mem_cons.mp inside
        by_cases old : x ∈ items seen
        · obtain ⟨out, rest⟩ := ihTodo later
          exact ⟨out, .skip old rest⟩
        · have fewer : ∀ {more : List (Found α)}, (∀ y ∈ items seen, y ∈ items more) → x ∈ items more →
              (U.filter (· ∉ items more)).card < n := by
            intro more kept found
            rw [← count]
            refine Finset.card_lt_card ⟨fun y mem => ?_, fun sub => ?_⟩
            · obtain ⟨inU, unseen⟩ := Finset.mem_filter.mp mem
              exact Finset.mem_filter.mpr ⟨inU, fun before => unseen (kept y before)⟩
            · exact (Finset.mem_filter.mp (sub (Finset.mem_filter.mpr ⟨here, old⟩))).2 found
          have more : ∀ y ∈ items seen, y ∈ items (seen ++ [⟨x, path⟩]) := by
            intro y mem
            rw [items_append]
            exact mem_append_left _ mem
          have found : x ∈ items (seen ++ [⟨x, path⟩]) := by simp
          obtain ⟨mid, below⟩ := ih _ (fewer more found) (path ++ [x]) (seen ++ [⟨x, path⟩]) (succ x) (closed x here) rfl
          obtain ⟨out, rest⟩ := ih _ (fewer (fun y mem => below.kept (more y mem)) (below.kept found)) path mid todo later rfl
          exact ⟨out, .visit old below rest⟩

end Total

section Cycle

/-- A successor of the item stands on its path, or is the item. -/
def Blocked (succ : α → List α) (f : Found α) : Prop := ∃ y ∈ succ f.item, y ∈ f.path ++ [f.item]

/-- A cycle can be reached. -/
def Cyclic (succ : α → List α) (todo : List α) : Prop := ∃ x, Reaches succ todo x ∧ TransGen (Next succ) x x

theorem Search.cyclic (h : Search succ [] [] todo out) (mem : f ∈ out) (blocked : Blocked succ f) : Cyclic succ todo := by
  obtain old | ⟨q, split, trail⟩ := h.trail f mem
  · cases old
  obtain ⟨y, next, on⟩ := blocked
  rw [split, List.nil_append] at on
  refine ⟨f.item, trail_reaches trail, ?_⟩
  rcases mem_append.mp on with above | here
  · exact .head next (trail_between trail y above)
  · rw [mem_singleton] at here
    exact .single (here ▸ next)

/-- What can be reached without passing what was found before is found below. -/
theorem Search.found_below (h : Search succ (path ++ [x]) (seen ++ [⟨x, path⟩]) (succ x) mid)
    (way : ReflTransGen (fun a b => Next succ a b ∧ b ∉ items seen) x z) :
    z = x ∨ ∃ f ∈ mid, f ∉ seen ++ [⟨x, path⟩] ∧ f.item = z := by
  have fresh : ∀ {b}, b ∈ items mid → b ∉ items seen → b = x ∨ ∃ f ∈ mid, f ∉ seen ++ [⟨x, path⟩] ∧ f.item = b := by
    intro b mem unseen
    obtain ⟨f, found, rfl⟩ := mem_map.mp mem
    by_cases old : f ∈ seen ++ [⟨x, path⟩]
    · rcases mem_append.mp old with old | here
      · exact absurd (mem_items old) unseen
      · rw [mem_singleton] at here
        exact .inl (congrArg Found.item here)
    · exact .inr ⟨f, found, old, rfl⟩
  induction way with
  | refl => exact .inl rfl
  | tail _ step ih =>
      obtain ⟨next, unseen⟩ := step
      rcases ih with rfl | ⟨f, found, new, rfl⟩
      · exact fresh (h.covers _ next) unseen
      · rcases h.closed f found with old | done
        · exact absurd old new
        · exact fresh (done _ next) unseen

/-- The first item of a cycle that is found stands on the path of the one before it. -/
theorem Search.blocked (h : Search succ path seen todo out) {v : α} (loop : TransGen (Next succ) v v)
    (unseen : ∀ z, ReflTransGen (Next succ) v z → ReflTransGen (Next succ) z v → z ∉ items seen)
    (found : ∃ z, ReflTransGen (Next succ) v z ∧ ReflTransGen (Next succ) z v ∧ z ∈ items out) :
    ∃ f ∈ out, Blocked succ f := by
  classical
  induction h with
  | nil path seen =>
      obtain ⟨z, there, back, mem⟩ := found
      exact absurd mem (unseen z there back)
  | skip old rest ih => exact ih unseen found
  | @visit path seen mid out x todo new below rest ihBelow ihRest =>
      have grows := rest.extends
      have later : ∀ {f}, f ∈ mid → f ∈ out := fun mem => grows.subset mem
      by_cases on : ReflTransGen (Next succ) v x ∧ ReflTransGen (Next succ) x v
      · obtain ⟨there, back⟩ := on
        -- `x` is the first: the item `u` before it on the cycle is found below it.
        have around : TransGen (Next succ) x x := by
          have half : TransGen (Next succ) v x := loop.trans_left there
          exact TransGen.trans_right back half
        obtain ⟨u, way, last⟩ := TransGen.tail'_iff.mp around
        have inside : ReflTransGen (fun a b => Next succ a b ∧ b ∉ items seen) x u := by
          clear ihBelow ihRest
          have all : ∀ {u}, ReflTransGen (Next succ) x u → ReflTransGen (Next succ) u v →
              ReflTransGen (fun a b => Next succ a b ∧ b ∉ items seen) x u := by
            intro u way
            induction way with
            | refl => exact fun _ => .refl
            | @tail b c first step ih =>
                intro home
                have home' : ReflTransGen (Next succ) b v := .head step home
                exact (ih home').tail ⟨step, unseen c (there.trans (first.tail step)) home⟩
          exact all way (.head last back)
        rcases below.found_below inside with rfl | ⟨g, mem, fresh, rfl⟩
        · refine ⟨⟨u, path⟩, later (below.extends.subset (by simp)), u, last, by simp⟩
        · obtain old | ⟨q, split, -⟩ := below.trail g mem
          · exact absurd old fresh
          · exact ⟨g, later mem, x, last, by simp [split]⟩
      · have unseen' : ∀ z, ReflTransGen (Next succ) v z → ReflTransGen (Next succ) z v →
            z ∉ items (seen ++ [⟨x, path⟩]) := by
          intro z there back mem
          rw [items_append, items_singleton] at mem
          rcases mem_append.mp mem with old | here
          · exact unseen z there back old
          · have this : z = x := mem_singleton.mp here
            exact on ⟨this ▸ there, this ▸ back⟩
        by_cases first : ∃ z, ReflTransGen (Next succ) v z ∧ ReflTransGen (Next succ) z v ∧ z ∈ items mid
        · obtain ⟨f, mem, blocked⟩ := ihBelow unseen' first
          exact ⟨f, later mem, blocked⟩
        · exact ihRest (fun z there back mem => first ⟨z, there, back, mem⟩) found

/-- An item is found on whose path a successor stands exactly when a cycle can be reached. -/
theorem Search.blocked_iff (h : Search succ [] [] todo out) : (∃ f ∈ out, Blocked succ f) ↔ Cyclic succ todo := by
  constructor
  · rintro ⟨f, mem, blocked⟩
    exact h.cyclic mem blocked
  · rintro ⟨v, reach, loop⟩
    exact h.blocked loop (fun z _ _ mem => nomatch mem) ⟨v, .refl, .refl, h.mem_iff.mpr reach⟩

end Cycle

section First
variable [DecidableEq α]

/-- A way comes no later than another where, at the first item they differ in, it takes the earlier one. -/
def Precedes (succ : α → List α) : (todo : List α) → List α → List α → Prop
  | _, [], _ => True
  | _, _ :: _, [] => False
  | todo, a :: l, b :: l' => todo.idxOf a < todo.idxOf b ∨ a = b ∧ Precedes succ (succ a) l l'

theorem Precedes.antisymm {l l' : List α} (h : Precedes succ todo l l') (back : Precedes succ todo l' l) : l = l' := by
  induction l generalizing todo l' with
  | nil => cases l' with
    | nil => rfl
    | cons b l' => exact back.elim
  | cons a l ih => cases l' with
    | nil => exact h.elim
    | cons b l' =>
        rcases h with less | ⟨rfl, h⟩
        · rcases back with more | ⟨rfl, -⟩
          · omega
          · omega
        · rcases back with more | ⟨-, back⟩
          · omega
          · rw [ih h back]

/-- With another item in front, of which neither way makes use. -/
theorem Precedes.cons {l l' : List α} (h : Precedes succ todo l l') (away : l.head? ≠ some x) (away' : l'.head? ≠ some x) :
    Precedes succ (x :: todo) l l' := by
  match l, l' with
  | [], _ => trivial
  | _ :: _, [] => exact h.elim
  | a :: l, b :: l' =>
      have first : x ≠ a := fun same => away (congrArg some same.symm)
      have second : x ≠ b := fun same => away' (congrArg some same.symm)
      rcases h with less | same
      · left
        rw [idxOf_cons_ne _ first, idxOf_cons_ne _ second]
        omega
      · exact .inr same

/-- The first way to an item, taking successors in order. -/
def FirstTo (succ : α → List α) (todo : List α) (l : List α) (x : α) : Prop :=
  Trail succ todo (l ++ [x]) ∧ ∀ l', Trail succ todo (l' ++ [x]) → Precedes succ todo (l ++ [x]) (l' ++ [x])

theorem FirstTo.eq {l l' : List α} (h : FirstTo succ todo l x) (h' : FirstTo succ todo l' x) : l = l' :=
  List.append_cancel_right ((h.2 l' h'.1).antisymm (h'.2 l h.1))

theorem FirstTo.self : FirstTo succ (x :: todo) [] x := by
  refine ⟨⟨.head _, trivial⟩, fun l trail => ?_⟩
  cases l with
  | nil => exact .inr ⟨rfl, trivial⟩
  | cons b l =>
      by_cases same : x = b
      · exact .inr ⟨same, trivial⟩
      · left
        rw [List.idxOf_cons_self, idxOf_cons_ne _ same]
        omega

theorem FirstTo.below (h : FirstTo succ (succ x) l z) (other : z ≠ x) : FirstTo succ (x :: todo) (x :: l) z := by
  refine ⟨⟨.head _, h.1⟩, fun l' trail => ?_⟩
  cases l' with
  | nil =>
      left
      rw [List.idxOf_cons_self, idxOf_cons_ne _ (Ne.symm other)]
      omega
  | cons b l' =>
      by_cases same : x = b
      · subst same
        exact .inr ⟨rfl, h.2 l' trail.2⟩
      · left
        rw [List.idxOf_cons_self, idxOf_cons_ne _ same]
        omega

theorem FirstTo.cons (h : FirstTo succ todo l z) (away : ¬Reaches succ [x] z) : FirstTo succ (x :: todo) l z := by
  have head : ∀ {l}, Trail succ (x :: todo) (l ++ [z]) → (l ++ [z]).head? ≠ some x :=
    fun trail same => away (trail.reaches_head same)
  exact ⟨h.1.cons, fun l' trail => (h.2 l' (trail.tail (head trail))).cons (head h.1.cons) (head trail)⟩

/-- Where no cycle can be reached, an item is found on the first way to it. -/
theorem Search.first (h : Search succ path seen todo out) (acyclic : ¬Cyclic succ todo) (settled : Settled succ seen todo)
    (once : (items seen).Nodup) :
    ∃ new, out = seen ++ new ∧ ∀ f ∈ new, ∃ q, f.path = path ++ q ∧ FirstTo succ todo q f.item := by
  induction h with
  | nil path seen => exact ⟨[], (append_nil seen).symm, fun f mem => nomatch mem⟩
  | @skip path seen out x todo old rest ih =>
      obtain ⟨new, rfl, first⟩ := ih (fun ⟨z, reach, loop⟩ => acyclic ⟨z, reach.cons, loop⟩)
        (settled.mono fun z reach => reach.cons) once
      refine ⟨new, rfl, fun f mem => ?_⟩
      obtain ⟨q, split, least⟩ := first f mem
      refine ⟨q, split, least.cons fun reach => ?_⟩
      -- What `x` leads to was found before.
      have before : Settled succ seen [x] := settled.mono fun z reach => reach.single
      exact item_fresh (rest.nodup once) mem (before.mem (fun r here => mem_singleton.mp here ▸ old) reach)
  | @visit path seen mid out x todo new below rest ihBelow ihRest =>
      have once' : (items (seen ++ [⟨x, path⟩])).Nodup := by
        rw [items_append]
        refine nodup_append.mpr ⟨once, List.nodup_singleton x, fun a mem b here same => ?_⟩
        have this : b = x := mem_singleton.mp here
        exact new (this ▸ same ▸ mem)
      have settledBelow : Settled succ (seen ++ [⟨x, path⟩]) (succ x) := by
        intro z found reach y next
        rw [items_append] at found ⊢
        rcases mem_append.mp found with old | here
        · exact mem_append_left _ (settled z old reach.below y next)
        · have this : z = x := mem_singleton.mp here
          subst this
          obtain ⟨r, step, way⟩ := reach
          exact absurd ⟨z, ⟨z, .head _, .refl⟩, .head' step way⟩ acyclic
      have settledMid : Settled succ mid (x :: todo) := by
        intro z found reach y next
        obtain ⟨f, mem, rfl⟩ := mem_map.mp found
        rcases below.closed f mem with old | done
        · rcases mem_append.mp old with old | here
          · refine below.kept ?_
            rw [items_append]
            exact mem_append_left _ (settled f.item (mem_items old) reach y next)
          · cases mem_singleton.mp here
            exact below.covers y next
        · exact done y next
      obtain ⟨newBelow, rfl, firstBelow⟩ :=
        ihBelow (fun ⟨z, reach, loop⟩ => acyclic ⟨z, reach.below, loop⟩) settledBelow once'
      obtain ⟨newRest, rfl, firstRest⟩ := ihRest (fun ⟨z, reach, loop⟩ => acyclic ⟨z, reach.cons, loop⟩)
        (settledMid.mono fun z reach => reach.cons) (below.nodup once')
      refine ⟨⟨x, path⟩ :: newBelow ++ newRest, by simp, fun f mem => ?_⟩
      rcases mem_append.mp mem with mem | mem
      · rcases mem_cons.mp mem with rfl | mem
        · exact ⟨[], (append_nil path).symm, .self⟩
        · obtain ⟨q, split, least⟩ := firstBelow f mem
          refine ⟨x :: q, by rw [split, List.append_assoc]; rfl, least.below fun same => ?_⟩
          refine item_fresh (below.nodup once') mem ?_
          rw [items_append]
          exact List.mem_append_right _ (mem_singleton.mpr same)
      · obtain ⟨q, split, least⟩ := firstRest f mem
        refine ⟨q, split, least.cons fun reach => ?_⟩
        have above : Settled succ ((seen ++ [⟨x, path⟩]) ++ newBelow) [x] := settledMid.mono fun z reach => reach.single
        refine item_fresh (rest.nodup (below.nodup once')) mem (above.mem (fun r here => ?_) reach)
        cases mem_singleton.mp here
        refine below.kept ?_
        rw [items_append]
        exact List.mem_append_right _ (.head _)

end First

section Agenda
variable [DecidableEq α]

/-- The search with a stack of what is to do, each item with its path. -/
inductive Runs (succ : α → List α) : (agenda seen out : List (Found α)) → Prop
  | nil (seen : List (Found α)) : Runs succ [] seen seen
  | skip {f : Found α} {agenda seen out : List (Found α)} (old : f.item ∈ items seen) (rest : Runs succ agenda seen out) :
      Runs succ (f :: agenda) seen out
  | visit {f : Found α} {agenda seen out : List (Found α)} (new : f.item ∉ items seen)
      (rest : Runs succ (((succ f.item).filter (· ∉ items (seen ++ [f]))).map (⟨·, f.path ++ [f.item]⟩) ++ agenda)
        (seen ++ [f]) out) :
      Runs succ (f :: agenda) seen out

theorem Runs.extends {agenda : List (Found α)} (h : Runs succ agenda seen out) : seen <+: out := by
  induction h with
  | nil seen => exact List.prefix_refl seen
  | skip old rest ih => exact ih
  | visit new rest ih => exact (List.prefix_append _ _).trans ih

/-- The stack gives what the recursive search gives, when what was found already is not put on it. -/
theorem Search.runs {agenda : List (Found α)} {before : List α} (h : Search succ path seen todo mid)
    (sub : ∀ x ∈ before, x ∈ items seen) (rest : Runs succ agenda mid out) :
    Runs succ ((todo.filter (· ∉ before)).map (⟨·, path⟩) ++ agenda) seen out := by
  induction h generalizing agenda before out with
  | nil path seen => exact rest
  | @skip path seen mid x todo old _ ih =>
      by_cases on : x ∈ before
      · rw [List.filter_cons_of_neg (by simpa using on)]
        exact ih sub rest
      · rw [List.filter_cons_of_pos (by simpa using on)]
        exact .skip old (ih sub rest)
  | @visit path seen mid _ x todo new below _ ihBelow ihRest =>
      rw [List.filter_cons_of_pos (by simpa using fun on => new (sub x on))]
      refine .visit new (ihBelow (fun y mem => mem) (ihRest (fun y mem => below.kept ?_) rest))
      rw [items_append]
      exact mem_append_left _ (sub y mem)

end Agenda

end DepthFirst
