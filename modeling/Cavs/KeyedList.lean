import Mathlib.Data.List.Basic

/-!
# Lookups in lists of keys and values

A lookup finds the first entry of a key; where no key stands twice it finds the only one.
-/
namespace KeyedList

variable {K V W : Type} [BEq K] [LawfulBEq K] {l : List (K × V)} {k : K} {v : V} {e : K × V}

theorem lookup_cons_self : ((k, v) :: l).lookup k = some v := by
  simp

theorem lookup_cons_ne (h : k ≠ e.1) : (e :: l).lookup k = l.lookup k := by
  rw [List.lookup_cons, beq_eq_false_iff_ne.mpr h]

theorem mem_of_lookup (h : l.lookup k = some v) : (k, v) ∈ l := by
  induction l with
  | nil => cases h
  | cons e l ih =>
      by_cases same : k = e.1
      · subst same
        rw [lookup_cons_self (k := e.1) (v := e.2), Option.some.injEq] at h
        subst h
        exact List.mem_cons_self
      · rw [lookup_cons_ne same] at h
        exact List.mem_cons_of_mem _ (ih h)

theorem lookup_mapped (g : V → W) : (l.map fun e => (e.1, g e.2)).lookup k = (l.lookup k).map g := by
  induction l with
  | nil => rfl
  | cons e l ih =>
      rw [List.map_cons, List.lookup_cons, List.lookup_cons, ih]
      cases k == e.1 <;> rfl

theorem lookup_iff (distinct : (l.map Prod.fst).Nodup) : l.lookup k = some v ↔ (k, v) ∈ l := by
  refine ⟨mem_of_lookup, fun mem => ?_⟩
  induction l with
  | nil => cases mem
  | cons e l ih =>
      obtain ⟨new, distinct⟩ := List.nodup_cons.mp distinct
      rcases List.mem_cons.mp mem with rfl | mem
      · exact lookup_cons_self
      · rw [lookup_cons_ne fun same => new (same ▸ List.mem_map_of_mem mem), ih distinct mem]

theorem lookup_none_iff : l.lookup k = none ↔ k ∉ l.map Prod.fst := by
  induction l with
  | nil => simp
  | cons e l ih =>
      by_cases same : k = e.1
      · simp [same]
      · rw [lookup_cons_ne same, ih, List.map_cons, List.mem_cons, not_or, and_iff_right same]

end KeyedList
