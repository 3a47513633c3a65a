import Cavs.GracePeriod

/-!
# The grace period is kept

What every call keeps of a handle, and from it what a collection may take in any run whose
collections find nothing young and nothing in the open pack.
-/
namespace Cavs.Grace
open FileProg (Bytes)

/-! ## What the ledger keeps -/
section Keeps
variable {clock now grace : Nat} {s : Handle} {l : Ledger} {h : String} {info : ChunkInfo} {pack : String}
  {chunks : Chunks}

/-- The age of an unreferenced chunk: since its last reference and its put, or none at all when it
was not referenced since it was put. -/
def Aged (seen : Seen) (h : String) (info : ChunkInfo) : Prop :=
  ∃ z, info.zeroSince = some z ∧
    (((∀ p, seen.put h = some p → p ≤ z) ∧ ∀ t, seen.referenced h = some t → t ≤ z) ∨
      z = 0 ∧ ∃ p, seen.put h = some p ∧ ∀ t, seen.referenced h = some t → t ≤ p)

structure Ledger.Kept (clock : Nat) (l : Ledger) : Prop where
  names : (l.assets.map Prod.fst).Nodup
  lists : ∀ a ∈ l.assets, a.2.Nodup
  counts : ∀ h info, l.chunks h = some info → info.refcount = references l.assets h
  absent : ∀ h, l.chunks h = none → references l.assets h = 0
  aged : ∀ h info, l.chunks h = some info → info.refcount = 0 → Aged l.seen h info
  put : ∀ h t, l.seen.put h = some t → t ≤ clock
  referenced : ∀ h t, l.seen.referenced h = some t → t ≤ clock

structure Handle.Kept (clock : Nat) (s : Handle) : Prop where
  ledger : s.ledger.Kept clock
  saved : s.saved.Kept clock
  open_ : ∀ e ∈ s.openPack.getD [], (s.ledger.chunks (toHex e.hash)).isSome = true

theorem Ledger.Kept.mono (kept : l.Kept clock) (le : clock ≤ now) : l.Kept now :=
  { kept with
    put := fun h t seen => Nat.le_trans (kept.put h t seen) le
    referenced := fun h t seen => Nat.le_trans (kept.referenced h t seen) le }

theorem Handle.kept_empty (layout : StoreLayout) : (Handle.empty layout).Kept clock := by
  have none_ : (Handle.empty layout).ledger.Kept clock :=
    { names := List.nodup_nil
      lists := by simp [Handle.empty]
      counts := by simp [Handle.empty]
      absent := fun _ _ => rfl
      aged := by simp [Handle.empty]
      put := by simp [Handle.empty]
      referenced := by simp [Handle.empty] }
  exact ⟨none_, none_, by simp [Handle.empty]⟩

theorem Handle.Kept.observe (kept : s.Kept clock) (le : clock ≤ now) : (s.observe now).Kept now := by
  have ledger := kept.ledger.mono le
  refine ⟨{ ledger with aged := fun h info there zero => ?_, referenced := fun h t seen => ?_ }, kept.saved.mono le,
    kept.open_⟩
  · have none_ : ¬ 0 < references s.ledger.assets h := by
      rw [← ledger.counts h info there, zero]
      exact Nat.lt_irrefl 0
    obtain ⟨z, stamp, age⟩ := ledger.aged h info there zero
    refine ⟨z, stamp, ?_⟩
    simp only [Handle.observe, if_neg none_]
    exact age
  · simp only [Handle.observe] at seen
    split at seen
    · exact Nat.le_of_eq (Option.some.inj seen).symm
    · exact ledger.referenced h t seen

/-- Where a chunk is put does not touch its references and its age. -/
def SameAges (c d : Chunks) : Prop :=
  ∀ h, (c h).map (fun i => (i.refcount, i.zeroSince)) = (d h).map fun i => (i.refcount, i.zeroSince)

theorem Ledger.Kept.same_ages {d : Chunks} (kept : l.Kept clock) (same : SameAges d l.chunks) :
    Ledger.Kept clock { l with chunks := d } := by
  have old : ∀ h info, d h = some info → ∃ i, l.chunks h = some i ∧ i.refcount = info.refcount ∧ i.zeroSince = info.zeroSince := by
    intro h info there
    have eq := same h
    rw [there] at eq
    obtain ⟨i, here, both⟩ := Option.map_eq_some_iff.mp eq.symm
    obtain ⟨one, two⟩ := Prod.mk.inj both
    exact ⟨i, here, one, two⟩
  refine { kept with counts := fun h info there => ?_, absent := fun h none_ => ?_, aged := fun h info there zero => ?_ }
  · obtain ⟨i, here, count, -⟩ := old h info there
    rw [← count]
    exact kept.counts h i here
  · have eq := same h
    rw [show d h = none from none_] at eq
    exact kept.absent h (Option.map_eq_none_iff.mp eq.symm)
  · obtain ⟨i, here, count, since⟩ := old h info there
    obtain ⟨z, stamp, age⟩ := kept.aged h i here (by rw [count, zero])
    exact ⟨z, by rw [← since, stamp], age⟩

theorem resolve_same_ages {e : PackEntry} (there : (chunks (toHex e.hash)).isSome = true) :
    SameAges (resolve pack chunks e) chunks := by
  intro h
  rw [resolve, if_pos there, update]
  split
  · rw [Option.map_map]
    rfl
  · rfl

theorem resolve_isSome {e : PackEntry} :
    (resolve pack chunks e (toHex e.hash)).isSome = true := by
  rw [resolve]
  split
  · rename_i there
    rw [update, if_pos rfl, Option.isSome_map]
    exact there
  · rw [insert, if_pos rfl]
    rfl

theorem SameAges.isSome {c d : Chunks} (same : SameAges c d) (h : String) : (c h).isSome = (d h).isSome := by
  have eq := congrArg Option.isSome (same h)
  rwa [Option.isSome_map, Option.isSome_map] at eq

theorem foldl_resolve_same_ages {entries : List PackEntry}
    (there : ∀ e ∈ entries, (chunks (toHex e.hash)).isSome = true) :
    SameAges (entries.foldl (resolve pack) chunks) chunks := by
  induction entries generalizing chunks with
  | nil => exact fun _ => rfl
  | cons e entries ih =>
      obtain ⟨here, rest⟩ := List.forall_mem_cons.mp there
      have one : SameAges (resolve pack chunks e) chunks := resolve_same_ages here
      intro h
      rw [List.foldl_cons, ih (fun e' mem => (one.isSome _).trans (rest e' mem)) h]
      exact one h

theorem Handle.Kept.flush (kept : s.Kept clock) (pack : String) : (s.flush pack).Kept clock := by
  rw [Handle.flush]
  cases open_ : s.openPack with
  | none => exact kept
  | some entries =>
      have there := kept.open_
      rw [open_] at there
      refine ⟨kept.ledger.same_ages (foldl_resolve_same_ages there), kept.saved, ?_⟩
      simp

theorem Handle.Kept.save (kept : s.Kept clock) : s.save.Kept clock := ⟨kept.ledger, kept.ledger, kept.open_⟩

/-- A chunk that the ledger does not have is put. -/
theorem Ledger.Kept.fresh (kept : l.Kept now) (absent : l.chunks h = none) (zero : info.refcount = 0)
    (since : info.zeroSince = some 0) :
    Ledger.Kept now ⟨insert l.chunks h info, l.assets, { l.seen with put := fun k => if k = h then some now else l.seen.put k }⟩ := by
  refine { kept with counts := fun k i there => ?_, absent := fun k none_ => ?_, aged := fun k i there count => ?_,
                     put := fun k t seen => ?_ }
  · by_cases here : k = h
    · subst here
      obtain rfl : info = i := Option.some.inj (by simpa [insert] using there)
      rw [zero, kept.absent k absent]
    · exact kept.counts k i (by simpa [insert, here] using there)
  · by_cases here : k = h
    · subst here
      simp [insert] at none_
    · exact kept.absent k (by simpa [insert, here] using none_)
  · by_cases here : k = h
    · subst here
      obtain rfl : info = i := Option.some.inj (by simpa [insert] using there)
      exact ⟨0, since, .inr ⟨rfl, now, if_pos rfl, kept.referenced k⟩⟩
    · obtain ⟨z, stamp, age⟩ := kept.aged k i (by simpa [insert, here] using there) count
      refine ⟨z, stamp, ?_⟩
      simp only [if_neg here]
      exact age
  · by_cases here : k = h
    · subst here
      exact Nat.le_of_eq (Option.some.inj (by simpa using seen)).symm
    · exact kept.put k t (by simpa [here] using seen)

theorem insert_isSome (chunks : Chunks) (k : String) :
    (insert chunks h info k).isSome = true ↔ k = h ∨ (chunks k).isSome = true := by
  by_cases here : k = h <;> simp [insert, here]

theorem Handle.Kept.put (kept : s.Kept now) (c : Handle.Incoming) (pack : String) : (s.put now c pack).Kept now := by
  by_cases there : (s.ledger.chunks (toHex c.hash)).isSome = true
  · rw [Handle.put, if_pos there]
    exact kept
  · rw [Handle.put, if_neg there]
    have fresh := @Ledger.Kept.fresh _ _ _ (freshInfo c.stored c.flags c.lenRaw) kept.ledger
      (Option.not_isSome_iff_eq_none.mp there) rfl rfl
    cases s.layout with
    | loose =>
        refine ⟨fresh, kept.saved, fun e mem => ?_⟩
        exact (insert_isSome _ _).mpr (.inr (kept.open_ e mem))
    | packfiles =>
        dsimp only
        split
        on_goal 1 => refine Handle.Kept.flush ?_ pack
        all_goals
          refine ⟨fresh, kept.saved, fun e mem => (insert_isSome _ _).mpr ?_⟩
          obtain mem | mem := List.mem_append.mp mem
          · exact .inr (kept.open_ e mem)
          · obtain rfl := List.mem_singleton.mp mem
            exact .inl rfl

variable {name : String} {hexes : List String} {stamp : String → Nat}

/-- A chunk that loses its last reference is stamped after whatever was noted of it. -/
theorem Handle.Kept.remove {old : List String} (kept : s.Kept now) (found : chunksOf s.ledger.assets name = some old)
    (later : ∀ h, now ≤ stamp h) : (s.remove stamp name old).Kept now := by
  have once : old.Nodup := kept.ledger.lists (name, old) (chunksOf_some (h := "") found kept.ledger.names).1
  have counts : ∀ h, references s.ledger.assets h = references (without s.ledger.assets name) h + if h ∈ old then 1 else 0 :=
    fun h => (chunksOf_some found kept.ledger.names).2
  have apply_ : ∀ h, decrement stamp old s.ledger.chunks h =
      if h ∈ old then (s.ledger.chunks h).map (dereferenced (stamp h)) else s.ledger.chunks h := fun _ => decrement_apply once
  refine ⟨?_, kept.saved, fun e mem => ?_⟩
  · refine { kept.ledger with names := without_names kept.ledger.names, lists := fun a mem => ?_,
                              counts := fun h info there => ?_, absent := fun h none_ => ?_, aged := fun h info there zero => ?_ }
    · exact kept.ledger.lists a (List.mem_of_mem_filter mem)
    · simp only [Handle.remove, apply_] at there
      by_cases mem : h ∈ old
      · rw [if_pos mem] at there
        obtain ⟨i, here, rfl⟩ := Option.map_eq_some_iff.mp there
        have count := kept.ledger.counts h i here
        rw [counts, if_pos mem] at count
        simp only [dereferenced, Handle.remove, count, Nat.add_sub_cancel]
      · rw [if_neg mem] at there
        have count := kept.ledger.counts h info there
        rwa [counts, if_neg mem] at count
    · have count := counts h
      simp only [Handle.remove, apply_] at none_
      have none_ : s.ledger.chunks h = none := by
        split at none_
        · exact Option.map_eq_none_iff.mp none_
        · exact none_
      rw [kept.ledger.absent h none_] at count
      simp only [Handle.remove]
      omega
    · simp only [Handle.remove, apply_] at there
      by_cases mem : h ∈ old
      · rw [if_pos mem] at there
        obtain ⟨i, here, rfl⟩ := Option.map_eq_some_iff.mp there
        refine ⟨stamp h, if_pos zero, .inl ⟨fun p put => ?_, fun t seen => ?_⟩⟩
        · exact (kept.ledger.put h p put).trans (later h)
        · exact (kept.ledger.referenced h t seen).trans (later h)
      · rw [if_neg mem] at there
        exact kept.ledger.aged h info there zero
  · simp only [Handle.remove, apply_]
    split
    · rw [Option.isSome_map]
      exact kept.open_ e mem
    · exact kept.open_ e mem

theorem Handle.Kept.list (kept : s.Kept now) (new : chunksOf s.ledger.assets name = none) (once : hexes.Nodup)
    (all : ∀ h ∈ hexes, (s.ledger.chunks h).isSome = true) : (s.list name hexes).Kept now := by
  have apply_ : ∀ h, increment hexes s.ledger.chunks h =
      if h ∈ hexes then (s.ledger.chunks h).map referenced else s.ledger.chunks h := fun _ => increment_apply once
  have same := chunksOf_none new
  refine ⟨?_, kept.saved, fun e mem => ?_⟩
  · refine { kept.ledger with names := ?_, lists := fun a mem => ?_,
                              counts := fun h info there => ?_, absent := fun h none_ => ?_, aged := fun h info there zero => ?_ }
    · exact List.nodup_cons.mpr ⟨name_not_mem_without, without_names kept.ledger.names⟩
    · obtain rfl | mem := List.mem_cons.mp mem
      · exact once
      · exact kept.ledger.lists a (List.mem_of_mem_filter mem)
    · simp only [Handle.list, references_cons, same]
      simp only [Handle.list, apply_] at there
      by_cases mem : h ∈ hexes
      · rw [if_pos mem] at there
        obtain ⟨i, here, rfl⟩ := Option.map_eq_some_iff.mp there
        rw [if_pos mem, ← kept.ledger.counts h i here]
        rfl
      · rw [if_neg mem] at there
        rw [if_neg mem]
        exact kept.ledger.counts h info there
    · simp only [Handle.list, apply_] at none_
      simp only [Handle.list, references_cons, same]
      by_cases mem : h ∈ hexes
      · rw [if_pos mem] at none_
        have there := all h mem
        rw [Option.map_eq_none_iff.mp none_] at there
        cases there
      · rw [if_neg mem] at none_
        rw [if_neg mem]
        exact kept.ledger.absent h none_
    · simp only [Handle.list, apply_] at there
      by_cases mem : h ∈ hexes
      · rw [if_pos mem] at there
        obtain ⟨i, here, rfl⟩ := Option.map_eq_some_iff.mp there
        exact absurd zero (Nat.succ_ne_zero _)
      · rw [if_neg mem] at there
        exact kept.ledger.aged h info there zero
  · simp only [Handle.list, apply_]
    split
    · rw [Option.isSome_map]
      exact kept.open_ e mem
    · exact kept.open_ e mem

theorem decrement_isSome (h : String) (chunks : Chunks) :
    (decrement stamp hexes chunks h).isSome = (chunks h).isSome := by
  induction hexes generalizing chunks with
  | nil => rfl
  | cons hex hexes ih =>
      have one : (update chunks hex (dereferenced (stamp hex)) h).isSome = (chunks h).isSome := by
        rw [update]
        split
        · exact Option.isSome_map
        · rfl
      exact (ih _).trans one

theorem increment_isSome (h : String) (chunks : Chunks) : (increment hexes chunks h).isSome = (chunks h).isSome := by
  induction hexes generalizing chunks with
  | nil => rfl
  | cons hex hexes ih =>
      have one : (update chunks hex referenced h).isSome = (chunks h).isSome := by
        rw [update]
        split
        · exact Option.isSome_map
        · rfl
      exact (ih _).trans one

/-- What lasts while the open pack is written and an asset is listed holds behind a publish. -/
theorem Handle.publish_keeps {P : Handle → Prop} {pack : String} (holds : P s) (flush : ∀ s, P s → P (s.flush pack))
    (list : ∀ s, P s → (∀ h ∈ hexes.dedup, (s.ledger.chunks h).isSome = true) →
      (chunksOf s.ledger.assets name = none → P (s.list name hexes.dedup)) ∧
        ∀ old, chunksOf s.ledger.assets name = some old → P ((s.remove stamp name old).list name hexes.dedup))
    (count : ∀ s n, P s → P { s with batch := some n }) (save : ∀ s, P s → P s.save) :
    P (s.publish stamp name hexes pack) := by
  rw [Handle.publish]
  split
  · exact holds
  have flushed : P (if s.batch.isSome = true then s else s.flush pack) := by
    split
    · exact holds
    · exact flush s holds
  generalize (if s.batch.isSome = true then s else s.flush pack) = s at flushed
  dsimp only
  split
  · exact flushed
  · rename_i all
    obtain ⟨new, known⟩ := list s flushed (by simpa [Option.isSome_iff_ne_none] using all)
    cases found : chunksOf s.ledger.assets name with
    | none =>
        dsimp only
        split
        · exact count _ _ (new found)
        · exact save _ (new found)
    | some old =>
        dsimp only
        split
        · exact count _ _ (known old found)
        · exact save _ (known old found)

theorem Handle.commitBatch_keeps {P : Handle → Prop} {pack : String} (holds : P s) (flush : ∀ s, P s → P (s.flush pack))
    (close : ∀ s, P s → P { s with batch := none }) (save : ∀ s, P s → P s.save) : P (s.commitBatch pack) := by
  rw [Handle.commitBatch]
  cases s.batch with
  | none => exact holds
  | some pending =>
      have done := close _ (flush s holds)
      dsimp only
      split
      · exact save _ done
      · exact done

theorem Handle.Kept.publish (kept : s.Kept now) (later : ∀ h, now ≤ stamp h) (pack : String) :
    (s.publish stamp name hexes pack).Kept now := by
  refine publish_keeps kept (fun _ kept => kept.flush pack) (fun s kept all => ⟨fun found => ?_, fun old found => ?_⟩)
    (fun _ _ kept => ⟨kept.ledger, kept.saved, kept.open_⟩) fun _ kept => kept.save
  · exact kept.list found (List.nodup_dedup hexes) all
  · exact (kept.remove found later).list chunksOf_without (List.nodup_dedup hexes) fun h mem =>
      (decrement_isSome h _).trans (all h mem)

theorem Handle.Kept.unpublish (kept : s.Kept now) (later : ∀ h, now ≤ stamp h) : (s.unpublish stamp name).Kept now := by
  rw [Handle.unpublish]
  cases found : chunksOf s.ledger.assets name with
  | none => exact kept
  | some old => exact (kept.remove found later).save

theorem Handle.Kept.commitBatch (kept : s.Kept now) (pack : String) : (s.commitBatch pack).Kept now :=
  commitBatch_keeps kept (fun _ kept => kept.flush pack) (fun _ kept => ⟨kept.ledger, kept.saved, kept.open_⟩)
    fun _ kept => kept.save

/-- What a collection must not find: a young chunk that was not referenced since it was put, and a
collectable chunk in the open pack. -/
def Handle.Ripe (s : Handle) (now grace : Nat) : Prop :=
  ∀ h info, s.ledger.chunks h = some info → doomed now grace info = true →
    (info.zeroSince = some 0 → ∀ t, s.ledger.seen.put h = some t → t + grace ≤ now) ∧
      ∀ e ∈ s.openPack.getD [], toHex e.hash ≠ h

theorem gc_eq_none : (s.gc now grace).ledger.chunks h = none ↔
    ∀ info, s.ledger.chunks h = some info → doomed now grace info = true := by
  simp only [Handle.gc, Handle.save, Handle.setChunks, Option.filter_eq_none_iff, Bool.not_eq_eq_eq_not, Bool.not_true,
    Bool.not_eq_false]

theorem gc_eq_some (there : (s.gc now grace).ledger.chunks h = some info) : s.ledger.chunks h = some info :=
  (Option.filter_eq_some_iff.mp there).1

theorem Handle.Kept.gc (kept : s.Kept now) (ripe : s.Ripe now grace) : (s.gc now grace).Kept now := by
  have ledger : (s.gc now grace).ledger.Kept now := by
    refine { kept.ledger with counts := fun h info there => kept.ledger.counts h info (gc_eq_some there),
                              absent := fun h none_ => ?_,
                              aged := fun h info there zero => kept.ledger.aged h info (gc_eq_some there) zero }
    cases there : s.ledger.chunks h with
    | none => exact kept.ledger.absent h there
    | some info =>
        have gone := of_decide_eq_true (gc_eq_none.mp none_ info there)
        exact (kept.ledger.counts h info there).symm.trans gone.1
  refine ⟨ledger, ledger, fun e mem => ?_⟩
  obtain ⟨info, there⟩ := Option.isSome_iff_exists.mp (kept.open_ e mem)
  refine Option.isSome_iff_ne_none.mpr fun none_ => ?_
  exact (ripe _ info there (gc_eq_none.mp none_ info there)).2 e mem rfl

theorem Handle.Kept.reopen (kept : s.Kept clock) : s.reopen.Kept clock := ⟨kept.saved, kept.saved, by simp [Handle.reopen]⟩

/-- The clock is read for each stamp of a call, after the call began. -/
def Call.StampedFrom (now : Nat) : Call → Prop
  | .publish _ _ _ stamp | .unpublish _ stamp => ∀ h, now ≤ stamp h
  | _ => True

def Call.Ripe (s : Handle) (now : Nat) : Call → Prop
  | .gc grace => (s.observe now).Ripe now grace
  | _ => True

/-- Every call keeps the invariant; a collection does when the handle is ripe for it. -/
theorem Handle.Kept.step {call : Call} (kept : s.Kept clock) (le : clock ≤ now) (stamped : call.StampedFrom now)
    (ripe : call.Ripe s now) : (s.step now call).Kept now := by
  have seen := kept.observe le
  cases call with
  | put c pack => exact seen.put c pack
  | flush pack => exact seen.flush pack
  | publish name hexes pack stamp => exact seen.publish stamped pack
  | unpublish name stamp => exact seen.unpublish stamped
  | beginBatch => exact ⟨seen.ledger, seen.saved, seen.open_⟩
  | commitBatch pack => exact seen.commitBatch pack
  | gc grace => exact seen.gc ripe
  | reopen => exact seen.reopen

/-- What a ripe collection removes is as old as it should be. -/
theorem gc_age (kept : s.Kept now) (ripe : s.Ripe now grace) (there : (s.ledger.chunks h).isSome = true)
    (gone : (s.gc now grace).ledger.chunks h = none) :
    references s.ledger.assets h = 0 ∧ (∀ t, s.ledger.seen.referenced h = some t → t + grace ≤ now) ∧
      ∀ t, s.ledger.seen.put h = some t → t + grace ≤ now := by
  obtain ⟨info, there⟩ := Option.isSome_iff_exists.mp there
  have dead := gc_eq_none.mp gone info there
  obtain ⟨zero, old⟩ := of_decide_eq_true dead
  obtain ⟨z, since, age⟩ := kept.ledger.aged h info there zero
  rw [since, Option.getD_some] at old
  have unreferenced := (kept.ledger.counts h info there).symm.trans zero
  obtain ⟨put, seen⟩ | ⟨rfl, p, put, seen⟩ := age
  · refine ⟨unreferenced, fun t eq => ?_, fun t eq => ?_⟩
    · have before := kept.ledger.referenced h t eq
      have bound := seen t eq
      omega
    · have before := kept.ledger.put h t eq
      have bound := put t eq
      omega
  · have young := (ripe h info there dead).1 since
    refine ⟨unreferenced, fun t eq => ?_, young⟩
    exact Nat.le_trans (Nat.add_le_add_right (seen t eq) grace) (young p put)

end Keeps

/-! ## What is gone -/
section Gone
variable {now grace : Nat} {s : Handle} {h : String} {stamp : String → Nat} {name : String}

/-- A chunk that is in neither ledger and will not come out of the open pack. -/
structure Handle.Gone (s : Handle) (h : String) : Prop where
  ledger : s.ledger.chunks h = none
  saved : s.saved.chunks h = none
  open_ : ∀ e ∈ s.openPack.getD [], toHex e.hash ≠ h

theorem foldl_resolve_none {pack : String} {entries : List PackEntry} {chunks : Chunks}
    (others : ∀ e ∈ entries, toHex e.hash ≠ h) : entries.foldl (resolve pack) chunks h = chunks h := by
  induction entries generalizing chunks with
  | nil => rfl
  | cons e entries ih =>
      obtain ⟨other, others⟩ := List.forall_mem_cons.mp others
      have one : resolve pack chunks e h = chunks h := by
        rw [resolve]
        split
        · exact if_neg other.symm
        · exact if_neg other.symm
      exact (ih others).trans one

theorem Handle.Gone.flush (gone : s.Gone h) (pack : String) : (s.flush pack).Gone h := by
  rw [Handle.flush]
  cases open_ : s.openPack with
  | none => exact gone
  | some entries =>
      have others := gone.open_
      rw [open_] at others
      exact ⟨(foldl_resolve_none others).trans gone.ledger, gone.saved, by simp⟩

theorem Handle.Gone.save (gone : s.Gone h) : s.save.Gone h := ⟨gone.ledger, gone.ledger, gone.open_⟩

theorem Handle.Gone.remove {old : List String} (gone : s.Gone h) :
    (s.remove stamp name old).Gone h := by
  refine ⟨Option.not_isSome_iff_eq_none.mp ?_, gone.saved, gone.open_⟩
  rw [Handle.remove, decrement_isSome, gone.ledger]
  exact Bool.false_ne_true

theorem Handle.Gone.list {hexes : List String} (gone : s.Gone h) : (s.list name hexes).Gone h := by
  refine ⟨Option.not_isSome_iff_eq_none.mp ?_, gone.saved, gone.open_⟩
  rw [Handle.list, increment_isSome, gone.ledger]
  exact Bool.false_ne_true

theorem Handle.Gone.put {c : Handle.Incoming} (gone : s.Gone h) (other : toHex c.hash ≠ h) (pack : String) :
    (s.put now c pack).Gone h := by
  rw [Handle.put]
  split
  · exact gone
  · have absent : insert s.ledger.chunks (toHex c.hash) (freshInfo c.stored c.flags c.lenRaw) h = none :=
      (if_neg other.symm).trans gone.ledger
    cases s.layout with
    | loose => exact ⟨absent, gone.saved, gone.open_⟩
    | packfiles =>
        dsimp only
        split
        on_goal 1 => refine Handle.Gone.flush ?_ pack
        all_goals
          refine ⟨absent, gone.saved, fun e mem => ?_⟩
          obtain mem | mem := List.mem_append.mp mem
          · exact gone.open_ e mem
          · obtain rfl := List.mem_singleton.mp mem
            exact other

theorem Handle.Gone.publish {pack : String} {hexes : List String} (gone : s.Gone h) :
    (s.publish stamp name hexes pack).Gone h :=
  publish_keeps (P := fun s => s.Gone h) gone (fun _ gone => gone.flush pack)
    (fun _ gone _ => ⟨fun _ => gone.list, fun _ _ => gone.remove.list⟩)
    (fun _ _ gone => ⟨gone.ledger, gone.saved, gone.open_⟩) fun _ gone => gone.save

theorem Handle.Gone.unpublish (gone : s.Gone h) :
    (s.unpublish stamp name).Gone h := by
  rw [Handle.unpublish]
  split
  · exact gone
  · exact gone.remove.save

theorem Handle.Gone.commitBatch (gone : s.Gone h) (pack : String) : (s.commitBatch pack).Gone h :=
  commitBatch_keeps (P := fun s => s.Gone h) gone (fun _ gone => gone.flush pack) (fun _ gone => ⟨gone.ledger, gone.saved, gone.open_⟩)
    fun _ gone => gone.save

theorem Handle.Gone.gc (gone : s.Gone h) : (s.gc now grace).Gone h := by
  have absent : (s.gc now grace).ledger.chunks h = none :=
    gc_eq_none.mpr fun info there => absurd there (by rw [gone.ledger]; exact (Option.some_ne_none info).symm)
  exact ⟨absent, absent, gone.open_⟩

def Call.Puts (h : String) : Call → Prop
  | .put c _ => toHex c.hash = h
  | _ => False

/-- Only a put brings a chunk back. -/
theorem Handle.Gone.step {call : Call} (gone : s.Gone h) (other : ¬ call.Puts h) : (s.step now call).Gone h := by
  have seen : (s.observe now).Gone h := ⟨gone.ledger, gone.saved, gone.open_⟩
  cases call with
  | put c pack => exact seen.put other pack
  | flush pack => exact seen.flush pack
  | publish name hexes pack stamp => exact seen.publish
  | unpublish name stamp => exact seen.unpublish
  | beginBatch => exact ⟨seen.ledger, seen.saved, seen.open_⟩
  | commitBatch pack => exact seen.commitBatch pack
  | gc grace => exact seen.gc
  | reopen => exact ⟨seen.saved, seen.saved, by simp [Handle.step, Handle.reopen]⟩

theorem gone_of_gc (ripe : s.Ripe now grace) (there : (s.ledger.chunks h).isSome = true)
    (gone : (s.gc now grace).ledger.chunks h = none) : (s.gc now grace).Gone h := by
  obtain ⟨info, there⟩ := Option.isSome_iff_exists.mp there
  exact ⟨gone, gone, (ripe h info there (gc_eq_none.mp gone info there)).2⟩

end Gone

/-! ## Runs -/
section Runs

/-- A call and the time at which it begins. -/
structure Event where
  now : Nat
  call : Call

def run (s : Handle) (events : List Event) : Handle := events.foldl (fun s e => s.step e.now e.call) s

/-- The clock does not go back. -/
def Clocked : Nat → List Event → Prop
  | _, [] => True
  | clock, e :: events => clock ≤ e.now ∧ e.call.StampedFrom e.now ∧ Clocked e.now events

/-- Every collection of the run finds a ripe handle. -/
def AllRipe : Handle → List Event → Prop
  | _, [] => True
  | s, e :: events => e.call.Ripe s e.now ∧ AllRipe (s.step e.now e.call) events

/-- A collection takes a chunk only when nothing referenced it for `grace` seconds and it was put that
long ago, and the chunk stays away until it is put again. -/
def Respects (s : Handle) (now grace : Nat) (later : List Event) : Prop :=
  ∀ h, ((s.observe now).ledger.chunks h).isSome = true → (s.step now (.gc grace)).ledger.chunks h = none →
    references s.ledger.assets h = 0 ∧
    (∀ t, (s.observe now).ledger.seen.referenced h = some t → t + grace ≤ now) ∧
    (∀ t, s.ledger.seen.put h = some t → t + grace ≤ now) ∧
    ∀ more, more <+: later → (∀ e ∈ more, ¬ e.call.Puts h) →
      (run (s.step now (.gc grace)) more).ledger.chunks h = none

def GraceKept (s : Handle) (events : List Event) : Prop :=
  ∀ before now grace later, events = before ++ ⟨now, .gc grace⟩ :: later → Respects (run s before) now grace later

variable {clock now grace : Nat} {s : Handle} {h : String} {events before later : List Event}

theorem run_kept (kept : s.Kept clock) (clocked : Clocked clock (before ++ later)) (ripe : AllRipe s (before ++ later)) :
    ∃ clock, (run s before).Kept clock ∧ Clocked clock later ∧ AllRipe (run s before) later := by
  induction before generalizing s clock with
  | nil => exact ⟨clock, kept, clocked, ripe⟩
  | cons e before ih => exact ih (kept.step clocked.1 clocked.2.1 ripe.1) clocked.2.2 ripe.2

theorem run_gone (gone : s.Gone h) (others : ∀ e ∈ events, ¬ e.call.Puts h) : (run s events).Gone h := by
  induction events generalizing s with
  | nil => exact gone
  | cons e events ih =>
      obtain ⟨other, others⟩ := List.forall_mem_cons.mp others
      exact ih (gone.step other) others

/-- In a run whose collections all find a ripe handle, every collection respects its grace period. -/
theorem gc_keeps_grace (layout : StoreLayout) (events : List Event) (clocked : Clocked 0 events)
    (ripe : AllRipe (.empty layout) events) : GraceKept (.empty layout) events := by
  intro before now grace later split_
  subst split_
  obtain ⟨clock, kept, ⟨le, -, -⟩, ⟨ripe, -⟩⟩ := run_kept (Handle.kept_empty layout) clocked ripe
  intro h there gone
  obtain ⟨unreferenced, seen, put⟩ := gc_age (kept.observe le) ripe there gone
  refine ⟨unreferenced, seen, put, fun more _ others => ?_⟩
  exact (run_gone (gone_of_gc ripe there gone) others).ledger

/-- An empty chunk of an all-zero digest, in no pack. -/
def firstChunk : Handle.Incoming := ⟨zeroHash, [], 0, 0, 0, false⟩

theorem gc_keeps_grace_aged : GraceKept (.empty .loose) [⟨10, .put firstChunk ""⟩, ⟨100, .gc 5⟩] := by
  refine gc_keeps_grace .loose _ ⟨by decide, trivial, by decide, trivial, trivial⟩ ⟨trivial, ?_, trivial⟩
  intro h info there _
  refine ⟨fun _ t put => ?_, by simp [Handle.observe, Handle.step, Handle.put, Handle.empty]⟩
  by_cases here : h = toHex firstChunk.hash
  · have eq : some 10 = some t := (if_pos here).symm.trans put
    obtain rfl := Option.some.inj eq
    decide
  · exact absurd ((if_neg here).symm.trans put) (Option.some_ne_none t).symm

theorem first_put (layout : StoreLayout) (t : Nat) :
    (run (.empty layout) [⟨t, .put firstChunk ""⟩]).ledger.chunks (toHex firstChunk.hash) = some (freshInfo [] 0 0) := by
  cases layout <;> simp [run, Handle.step, Handle.put, Handle.observe, Handle.empty, insert, firstChunk]

theorem first_collected (layout : StoreLayout) {t now grace : Nat} (old : grace ≤ now) :
    ((run (.empty layout) [⟨t, .put firstChunk ""⟩]).step now (.gc grace)).ledger.chunks (toHex firstChunk.hash) = none := by
  refine gc_eq_none.mpr fun info there => ?_
  obtain rfl := Option.some.inj ((first_put layout t).symm.trans there)
  simpa [doomed, freshInfo] using old

/-- A chunk that was just put is collected, and one that was collected comes back from the open pack. -/
theorem not_gc_keeps_grace :
    ¬ (∀ events, Clocked 0 events → GraceKept (.empty .loose) events) ∧
    ¬ (∀ events, Clocked 0 events → GraceKept (.empty .packfiles) events) := by
  constructor
  · intro all
    have kept := all [⟨100, .put firstChunk ""⟩, ⟨100, .gc 60⟩] ⟨by decide, trivial, by decide, trivial, trivial⟩
    obtain ⟨-, -, young, -⟩ := kept [_] 100 60 [] rfl (toHex firstChunk.hash)
      (Option.isSome_of_eq_some (first_put .loose 100)) (first_collected .loose (by decide))
    have put : (run (.empty .loose) [⟨100, .put firstChunk ""⟩]).ledger.seen.put (toHex firstChunk.hash) = some 100 := by
      simp [run, Handle.step, Handle.put, Handle.observe, Handle.empty]
    exact absurd (young 100 put) (by decide)
  · intro all
    have kept := all [⟨10, .put firstChunk ""⟩, ⟨100, .gc 5⟩, ⟨100, .flush "pack"⟩]
      ⟨by decide, trivial, by decide, trivial, by decide, trivial, trivial⟩
    obtain ⟨-, -, -, away⟩ := kept [_] 100 5 [⟨100, .flush "pack"⟩] rfl (toHex firstChunk.hash)
      (Option.isSome_of_eq_some (first_put .packfiles 10)) (first_collected .packfiles (by decide))
    have none_ := away _ (List.prefix_refl _) (by simp [Call.Puts])
    have back := @resolve_isSome "pack" ((run (.empty .packfiles) [⟨10, .put firstChunk ""⟩]).step 100 (.gc 5)).ledger.chunks
      ⟨firstChunk.hash, 0, 0, 0, 0⟩
    exact absurd (back.symm.trans (congrArg Option.isSome none_)) (by decide)

end Runs

end Cavs.Grace
