import Cavs.GraceKept

/-!
# What the counts of a ledger count

Whatever is done to a handle, the count of a chunk is the number of the published assets that list
it. So no collection takes a chunk of a published asset, not even one that finds a chunk in the
open pack.
-/
namespace Cavs.Grace

section Counts
variable {chunks : Chunks} {h hex name pack : String} {hexes old : List String} {stamp : String → Nat} {info : ChunkInfo}
  {l : Ledger} {s : Handle}

/-- The count of a chunk, zero where there is no entry. -/
def countOf (chunks : Chunks) (h : String) : Nat := ((chunks h).map ChunkInfo.refcount).getD 0

theorem countOf_insert (absent : chunks hex = none) (zero : info.refcount = 0) :
    countOf (insert chunks hex info) h = countOf chunks h := by
  rw [countOf, countOf, insert]
  split
  · rename_i here
    rw [here, absent]
    exact zero
  · rfl

theorem countOf_resolve (e : PackEntry) : countOf (resolve pack chunks e) h = countOf chunks h := by
  rw [resolve]
  split
  · rw [countOf, countOf, update]
    split
    · rw [Option.map_map]
      rfl
    · rfl
  · rename_i absent
    exact countOf_insert (Option.not_isSome_iff_eq_none.mp absent) rfl

theorem countOf_foldl_resolve (entries : List PackEntry) :
    countOf (entries.foldl (resolve pack) chunks) h = countOf chunks h := by
  induction entries generalizing chunks with
  | nil => rfl
  | cons e entries ih => exact ih.trans (countOf_resolve e)

theorem countOf_decrement (once : hexes.Nodup) :
    countOf (decrement stamp hexes chunks) h = countOf chunks h - if h ∈ hexes then 1 else 0 := by
  rw [countOf, decrement_apply once, countOf]
  split
  · rw [Option.map_map]
    cases chunks h with
    | none => rfl
    | some info => rfl
  · rfl

theorem countOf_increment (once : hexes.Nodup) (all : ∀ h ∈ hexes, (chunks h).isSome = true) :
    countOf (increment hexes chunks) h = countOf chunks h + if h ∈ hexes then 1 else 0 := by
  rw [countOf, increment_apply once, countOf]
  split
  · rename_i mem
    obtain ⟨info, there⟩ := Option.isSome_iff_exists.mp (all h mem)
    rw [there]
    rfl
  · rfl

structure Ledger.Counted (l : Ledger) : Prop where
  names : (l.assets.map Prod.fst).Nodup
  lists : ∀ a ∈ l.assets, a.2.Nodup
  counts : ∀ h, countOf l.chunks h = references l.assets h

structure Handle.Counted (s : Handle) : Prop where
  ledger : s.ledger.Counted
  saved : s.saved.Counted

theorem Ledger.Counted.recount (counted : l.Counted) (same : ∀ h, countOf chunks h = countOf l.chunks h) (seen : Seen) :
    Ledger.Counted ⟨chunks, l.assets, seen⟩ :=
  ⟨counted.names, counted.lists, fun h => (same h).trans (counted.counts h)⟩

theorem Handle.counted_empty (layout : StoreLayout) : (Handle.empty layout).Counted := by
  have none_ : (Handle.empty layout).ledger.Counted := ⟨List.nodup_nil, List.forall_mem_nil _, fun _ => rfl⟩
  exact ⟨none_, none_⟩

theorem Handle.Counted.flush (counted : s.Counted) (pack : String) : (s.flush pack).Counted := by
  rw [Handle.flush]
  split
  · exact counted
  · exact ⟨counted.ledger.recount (fun _ => countOf_foldl_resolve _) _, counted.saved⟩

theorem Handle.Counted.put (counted : s.Counted) (now : Nat) (c : Handle.Incoming) (pack : String) :
    (s.put now c pack).Counted := by
  by_cases there : (s.ledger.chunks (toHex c.hash)).isSome = true
  · rw [Handle.put, if_pos there]
    exact counted
  · rw [Handle.put, if_neg there]
    have fresh : ∀ seen, Ledger.Counted ⟨insert s.ledger.chunks _ (freshInfo c.stored c.flags c.lenRaw), _, seen⟩ :=
      counted.ledger.recount fun _ => countOf_insert (Option.not_isSome_iff_eq_none.mp there) rfl
    split
    · exact ⟨fresh _, counted.saved⟩
    · dsimp only
      split
      · refine Handle.Counted.flush ?_ pack
        exact ⟨fresh _, counted.saved⟩
      · exact ⟨fresh _, counted.saved⟩

/-- An asset that is taken off takes its references along. -/
theorem Ledger.Counted.remove (counted : s.ledger.Counted) (found : chunksOf s.ledger.assets name = some old) :
    (s.remove stamp name old).ledger.Counted := by
  have once := counted.lists _ (chunksOf_some (h := "") found counted.names).1
  refine ⟨without_names counted.names, fun a mem => counted.lists a (List.mem_of_mem_filter mem), fun h => ?_⟩
  have references := (chunksOf_some (h := h) found counted.names).2
  exact (countOf_decrement once).trans (by rw [counted.counts, references, Nat.add_sub_cancel]; rfl)

/-- An asset of a new name brings one to each of its chunks. -/
theorem Ledger.Counted.list (counted : s.ledger.Counted) (new : chunksOf s.ledger.assets name = none) (once : hexes.Nodup)
    (all : ∀ h ∈ hexes, (s.ledger.chunks h).isSome = true) : (s.list name hexes).ledger.Counted := by
  refine ⟨List.nodup_cons.mpr ⟨name_not_mem_without, without_names counted.names⟩, fun a mem => ?_, fun h => ?_⟩
  · rcases List.mem_cons.mp mem with rfl | mem
    · exact once
    · exact counted.lists a (List.mem_of_mem_filter mem)
  · exact (countOf_increment once all).trans (by rw [counted.counts, Handle.list, references_cons, chunksOf_none new])

theorem Handle.Counted.publish (counted : s.Counted) : (s.publish stamp name hexes pack).Counted := by
  refine publish_keeps counted (fun _ counted => counted.flush pack) (fun s counted all => ⟨fun found => ?_, fun old found => ?_⟩)
    (fun _ _ counted => ⟨counted.ledger, counted.saved⟩) fun _ counted => ⟨counted.ledger, counted.ledger⟩
  · exact ⟨counted.ledger.list found (List.nodup_dedup hexes) all, counted.saved⟩
  · have off : (s.remove stamp name old).ledger.Counted := counted.ledger.remove found
    exact ⟨off.list chunksOf_without (List.nodup_dedup hexes) fun h mem => (decrement_isSome h _).trans (all h mem),
      counted.saved⟩

/-- A collection takes entries that count nothing. -/
theorem Ledger.Counted.gc (counted : s.ledger.Counted) (now grace : Nat) : (s.gc now grace).ledger.Counted := by
  refine counted.recount (fun h => ?_) _
  rw [countOf, countOf]
  cases there : s.ledger.chunks h with
  | none => rfl
  | some info =>
      cases dead : doomed now grace info with
      | true => simp [Option.filter, dead, (of_decide_eq_true dead).1]
      | false => simp [Option.filter, dead]

theorem Handle.Counted.step (counted : s.Counted) (now : Nat) (call : Call) : (s.step now call).Counted := by
  have seen : (s.observe now).Counted := ⟨counted.ledger.recount (fun _ => rfl) _, counted.saved⟩
  cases call with
  | put c pack => exact seen.put now c pack
  | flush pack => exact seen.flush pack
  | publish name hexes pack stamp => exact seen.publish
  | unpublish name stamp =>
      rw [Handle.step, Handle.unpublish]
      split
      · exact seen
      · rename_i found
        exact ⟨seen.ledger.remove found, seen.ledger.remove found⟩
  | beginBatch => exact ⟨seen.ledger, seen.saved⟩
  | commitBatch pack =>
      exact commitBatch_keeps seen (fun _ counted => counted.flush pack) (fun _ counted => ⟨counted.ledger, counted.saved⟩)
        fun _ counted => ⟨counted.ledger, counted.ledger⟩
  | gc grace => exact ⟨seen.ledger.gc now grace, seen.ledger.gc now grace⟩
  | reopen => exact ⟨seen.saved, seen.saved⟩

theorem run_counted (counted : s.Counted) (events : List Event) : (run s events).Counted := by
  induction events generalizing s with
  | nil => exact counted
  | cons e events ih => exact ih (counted.step e.now e.call)

/-- In every run each count is the number of assets that list the chunk, and every chunk that an
asset lists is there. -/
theorem counts_are_references (layout : StoreLayout) (events : List Event) :
    (∀ h info, (run (.empty layout) events).ledger.chunks h = some info →
      info.refcount = references (run (.empty layout) events).ledger.assets h) ∧
    ∀ a ∈ (run (.empty layout) events).ledger.assets, ∀ h ∈ a.2,
      ((run (.empty layout) events).ledger.chunks h).isSome = true := by
  have counts := (run_counted (Handle.counted_empty layout) events).ledger.counts
  refine ⟨fun h info there => ?_, fun a listed h mem => ?_⟩
  · rw [← counts, countOf, there]
    rfl
  · have positive : 0 < references (run (.empty layout) events).ledger.assets h :=
      List.countP_pos_iff.mpr ⟨a, listed, decide_eq_true mem⟩
    rw [← counts, countOf] at positive
    refine Option.isSome_iff_ne_none.mpr fun absent => ?_
    rw [absent] at positive
    cases positive

end Counts
end Cavs.Grace
