import Cavs.FetchExact
import Cavs.FileLike
import Mathlib.Data.List.Dedup

/-!
# A static source that answers

The published tree of an asset serves it when the chunk map has an entry for every chunk the
manifest lists and the packs hold the chunks where their entries say. Preparing a fetch from
such a tree succeeds: what the cache lacks is grouped into ranges of the packs.
-/
namespace Cavs
open FileProg (Bytes IoError Prog Op World Sem)
open FileProg.Eff (All Wp forEach get modify op orThrow throw wp_good wp_ite wp_op wp_present)

section Tree

/-- The pack has the stored form of the chunk where the entry says. -/
structure ChunkMapEntry.Serves (env : ContainerEnv) (packs : String → Bytes) (content : ChunkHash → Bytes)
    (entry : ChunkMapEntry) : Prop where
  named : entry.hash = toHex (hexHash entry.hash)
  within : entry.packOffsetAbs.toNat + entry.lenStored.toNat ≤ (packs entry.pack).length
  small : entry.packOffsetAbs.toNat + entry.lenStored.toNat < 2 ^ 64
  decodes : decodeChunk env (((packs entry.pack).drop entry.packOffsetAbs.toNat).take entry.lenStored.toNat) entry
    (hexHash entry.hash) = some (content (hexHash entry.hash))

/-- The last entry of a hash. -/
def entryOf (chunks : List ChunkMapEntry) (hex : String) : Option ChunkMapEntry :=
  chunks.reverse.find? fun c => c.hash = hex

theorem entryOf_name {chunks : List ChunkMapEntry} {hex : String} {entry : ChunkMapEntry}
    (found : entryOf chunks hex = some entry) : entry.hash = hex := by
  have same := @List.find?_some _ (fun c : ChunkMapEntry => decide (c.hash = hex)) _ _ found
  exact of_decide_eq_true same

/-- Every chunk a manifest lists is served under its name. -/
def ServesManifest (env : ContainerEnv) (packs : String → Bytes) (content : ChunkHash → Bytes) (manifest : Manifest)
    (chunks : List ChunkMapEntry) : Prop :=
  ∀ hex ∈ manifestChunkHashes manifest, ∃ entry, entryOf chunks hex = some entry ∧ entry.Serves env packs content

/-- The range is part of the pack, and has the group's chunks. -/
structure RangeGroup.Sound (packs : String → Bytes) (g : RangeGroup) : Prop where
  within : g.start + g.span ≤ (packs g.pack).length
  word : g.start + g.span < 2 ^ 64
  inside : ∀ e ∈ g.chunks, e.pack = g.pack ∧ g.start ≤ e.packOffsetAbs.toNat ∧
    e.packOffsetAbs.toNat + e.lenStored.toNat ≤ g.start + g.span

end Tree

section Plan
variable {env : ContainerEnv} {packs : String → Bytes} {content : ChunkHash → Bytes}

theorem planEntry_sound {groups : List RangeGroup} {entry : ChunkMapEntry} (serves : entry.Serves env packs content)
    (sound : ∀ g ∈ groups, g.Sound packs) (s : GroupOutcome) :
    ∃ next, planEntry groups entry s = .ret (.ok next, s) ∧ (∀ g ∈ next, g.Sound packs) ∧
      next.reverse.flatMap RangeGroup.chunks = groups.reverse.flatMap RangeGroup.chunks ++ [entry] := by
  have fresh : RangeGroup.Sound packs ⟨entry.pack, entry.packOffsetAbs.toNat, entry.lenStored.toNat,
      entry.lenStored.toNat, [entry]⟩ := by
    refine ⟨serves.within, serves.small, ?_⟩
    intro e mem
    cases List.mem_singleton.mp mem
    exact ⟨rfl, le_refl _, le_refl _⟩
  unfold planEntry
  cases groups with
  | nil => exact ⟨_, rfl, by simpa using fresh, by simp⟩
  | cons g earlier =>
      obtain ⟨here, others⟩ := List.forall_mem_cons.mp sound
      have small := serves.small
      simp only [wordAdd_eq here.word, wordAdd_eq small]
      split
      · rename_i joins
        obtain ⟨same, after, -⟩ := joins
        rw [wordSub_eq (show g.start ≤ entry.packOffsetAbs.toNat + entry.lenStored.toNat by omega)]
        refine ⟨_, rfl, List.forall_mem_cons.mpr ⟨⟨?_, ?_, ?_⟩, others⟩, by simp⟩
        · have within := serves.within
          have inside := here.within
          rw [← same] at within
          change g.start + (_ - g.start) ≤ (packs g.pack).length
          omega
        · change g.start + (_ - g.start) < 2 ^ 64
          omega
        · intro e mem
          change e.pack = g.pack ∧ g.start ≤ _ ∧ _ ≤ g.start + (_ - g.start)
          rcases List.mem_append.mp mem with old | new
          · obtain ⟨pack, low, high⟩ := here.inside e old
            exact ⟨pack, low, by omega⟩
          · cases List.mem_singleton.mp new
            exact ⟨same.symm, by omega, by omega⟩
      · exact ⟨_, rfl, List.forall_mem_cons.mpr ⟨fresh, sound⟩, by simp⟩

theorem planEntries_sound {l : List ChunkMapEntry} (serves : ∀ e ∈ l, e.Serves env packs content)
    {groups : List RangeGroup} (sound : ∀ g ∈ groups, g.Sound packs) (s : GroupOutcome) :
    ∃ planned, planEntries l groups s = .ret (.ok planned, s) ∧ (∀ g ∈ planned, g.Sound packs) ∧
      planned.flatMap RangeGroup.chunks = groups.reverse.flatMap RangeGroup.chunks ++ l := by
  induction l generalizing groups with
  | nil => exact ⟨groups.reverse, rfl, fun g mem => sound g (List.mem_reverse.mp mem), by simp⟩
  | cons entry rest ih =>
      obtain ⟨here, later⟩ := List.forall_mem_cons.mp serves
      obtain ⟨next, first, sound', chunks⟩ := planEntry_sound here sound s
      obtain ⟨planned, run, sound'', all⟩ := ih later sound'
      refine ⟨planned, ?_, sound'', by rw [all, chunks, List.append_assoc, List.singleton_append]⟩
      rw [planEntries]
      change (planEntry groups entry s >>= _) = _
      rw [first]
      exact run

/-- The groups have the missing chunks, each in a range of its pack. -/
theorem planRangeGroups_sound {missing : List ChunkMapEntry} (serves : ∀ e ∈ missing, e.Serves env packs content)
    (s : GroupOutcome) :
    ∃ groups, planRangeGroups missing s = .ret (.ok groups, s) ∧ (∀ g ∈ groups, g.Sound packs) ∧
      (groups.flatMap RangeGroup.chunks).Perm missing := by
  have sorted : (missing.insertionSort fun a b => a.before b).Perm missing := List.perm_insertionSort _ _
  obtain ⟨groups, run, sound, all⟩ := @planEntries_sound env packs content _ (fun e mem => serves e (sorted.mem_iff.mp mem)) [] (by simp) s
  exact ⟨groups, run, sound, by simpa [all] using sorted⟩

end Plan

section Missing
variable {env : ContainerEnv} {packs : String → Bytes} {content : ChunkHash → Bytes} {σ : FetchSem} {s : GroupOutcome}
  {w : FetchDisk} {chunks : List ChunkMapEntry} {order : List String}

theorem faultless_flawless : (fetchSem faultless).Flawless := ⟨fun _ _ => id, fun _ => rfl⟩

/-- The digits of a hash are single bytes. -/
theorem cacheContains_toHex (hash : ChunkHash) : cacheContains (toHex hash) = op (.present (.chunk (toHex hash))) := by
  have long : (strBytes (toHex hash)).length = 64 := by
    have long := (strBytes_hexString hash.1).1
    rwa [hash.2] at long
  have boundary : isBoundary ((strBytes (toHex hash)).drop 2) = true :=
    isBoundary_ascii fun c mem => hexString_ascii hash.1 c (List.mem_of_mem_drop mem)
  rw [cacheContains, if_neg (not_not.mpr long), if_neg (by rw [boundary]; decide)]

/-- What is missing is what the cache has no entry for, whatever is in the entries. -/
theorem missingChunks_wp
    (served : ∀ hex ∈ order, ∃ entry, entryOf chunks hex = some entry ∧ entry.Serves env packs content) :
    (missingChunks chunks order).Wp σ (fun _ => True)
      (fun r _ u => u = w ∧ ∃ missing reused, r = .ok (missing, reused) ∧
        missing.map ChunkMapEntry.hash = order.filter (fun hex => (w.get (.chunk hex)).isNone) ∧
        ∀ e ∈ missing, e.Serves env packs content) s w := by
  induction order generalizing s with
  | nil => exact ⟨trivial, rfl, [], 0, rfl, rfl, by simp⟩
  | cons hex rest ih =>
      obtain ⟨⟨entry, found, serves⟩, later⟩ := List.forall_mem_cons.mp served
      have name : entry.hash = hex := entryOf_name found
      have digits : hex = toHex (hexHash hex) := name ▸ serves.named
      rw [missingChunks, digits, cacheContains_toHex, ← digits]
      apply Wp.then
      apply wp_present trivial
      change (if (w.get (.chunk hex)).isSome = true then _ else _ : F (List ChunkMapEntry × Nat)).Wp _ _ _ _ _
      apply wp_ite
      · intro there
        refine Wp.seq (ih later) ?_ ?_
        · rintro ⟨missing, reused⟩ t u - ⟨rfl, _, _, same, names, all⟩
          cases same
          have skipped : (u.get (.chunk hex)).isNone = false := by rw [← Option.not_isSome, there]; rfl
          refine ⟨trivial, rfl, missing, reused + 1, rfl, ?_, all⟩
          rw [names, List.filter_cons, if_neg (by rw [skipped]; decide)]
        · rintro e t u ⟨-, _, _, bad, -⟩
          cases bad
      · intro absent
        have lacking : (w.get (.chunk hex)).isNone = true := by rw [← Option.not_isSome, Bool.eq_false_iff.mpr absent]; rfl
        rw [show chunks.reverse.find? (fun c => decide (c.hash = hex)) = some entry from found]
        refine Wp.seq (ih later) ?_ ?_
        · rintro ⟨missing, reused⟩ t u - ⟨rfl, _, _, same, names, all⟩
          cases same
          refine ⟨trivial, rfl, entry :: missing, reused, rfl, ?_, List.forall_mem_cons.mpr ⟨serves, all⟩⟩
          rw [List.map_cons, names, name, List.filter_cons, if_pos lacking]
        · rintro e t u ⟨-, _, _, bad, -⟩
          cases bad

/-- A directory that is made changes nothing else. -/
theorem wp_mkdir (sound : σ.Flawless) (p : FetchPath) :
    (op (.mkdir p) : F _).Wp σ (fun _ => True) (fun r t u => r = .ok (.ok ()) ∧ t = s ∧ ∀ q, q ≠ p → u.get q = w.get q) s w := by
  refine (wp_op s w).mpr ⟨trivial, fun _ _ => trivial, fun r u step => ⟨trivial, ?_, rfl, ?_⟩⟩
  · exact congrArg Except.ok (sound.does step).1
  · exact fun q other => step.frame other

theorem checkSigner_wp {manifest : Manifest} {pubkey : Option String} {t : GroupOutcome} {u : FetchDisk}
    (accepted : checkSigner env manifest pubkey = pure ()) :
    (checkSigner env manifest pubkey).Wp σ (fun _ => True) (fun r t' u' => r = .ok () ∧ t' = t ∧ u' = u) t u := by
  rw [accepted]
  exact ⟨trivial, rfl, rfl, rfl⟩

/-- What is to be downloaded: ranges of the packs with the chunks that `w` has no entry for,
each once. -/
structure ToFetch (env : ContainerEnv) (packs : String → Bytes) (content : ChunkHash → Bytes) (w : FetchDisk)
    (manifest : Manifest) (groups : List RangeGroup) : Prop where
  sound : ∀ g ∈ groups, g.Sound packs
  serves : ∀ g ∈ groups, ∀ e ∈ g.chunks, e.Serves env packs content
  once : ((groups.flatMap RangeGroup.chunks).map ChunkMapEntry.hash).Nodup
  absent : ∀ g ∈ groups, ∀ e ∈ g.chunks, w.get (.chunk e.hash) = none
  complete : ∀ hex ∈ manifestChunkHashes manifest, (w.get (.chunk hex)).isSome ∨
    ∃ g ∈ groups, ∃ e ∈ g.chunks, e.hash = hex

theorem prepare_served (sound : σ.Flawless) {call : FetchCall} {manifest : Manifest}
    (resolved : call.resolved = .ok (manifest, chunks)) (accepted : checkSigner env manifest call.pubkey = pure ())
    (served : ServesManifest env packs content manifest chunks) (listed : call.Order order) :
    (prepare env call order).Wp σ (fun _ => True)
      (fun r _ u => (∀ p, p ≠ .cacheRoot → u.get p = w.get p) ∧
        ∃ groups reused, r = .ok (manifest, groups, reused) ∧ ToFetch env packs content u manifest groups) s w := by
  have perm := listed manifest chunks resolved
  rw [prepare]
  refine Wp.seq (wp_mkdir sound .cacheRoot) ?_ ?_
  · rintro _ t u - ⟨⟨⟩, rfl, kept⟩
    apply wp_good
    rw [resolved]
    refine Wp.seq (checkSigner_wp accepted) ?_ ?_
    · rintro _ t' u' - ⟨-, rfl, rfl⟩
      have all : ∀ hex ∈ order, ∃ entry, entryOf chunks hex = some entry ∧ entry.Serves env packs content := fun hex mem =>
        served hex (List.mem_dedup.mp (perm.mem_iff.mp mem))
      refine Wp.seq (missingChunks_wp all) ?_ ?_
      · rintro ⟨missing, reused⟩ t u - ⟨rfl, _, _, same_, names, serves⟩
        cases same_
        obtain ⟨groups, planned, fits, chunks'⟩ := planRangeGroups_sound serves t
        have ran : (planRangeGroups missing).Wp σ (fun _ => True) (fun r t' u' => r = .ok groups ∧ t' = t ∧ u' = u) t u := by
          change (planRangeGroups missing t).Wp _ _ _ _
          rw [planned]
          exact ⟨trivial, rfl, rfl, rfl⟩
        refine Wp.seq ran ?_ ?_
        · rintro _ t' u' - ⟨⟨⟩, rfl, rfl⟩
          have names' : ((groups.flatMap RangeGroup.chunks).map ChunkMapEntry.hash).Perm
              (order.filter fun hex => (u'.get (.chunk hex)).isNone) := by
            simpa only [names] using chunks'.map ChunkMapEntry.hash
          have inside : ∀ g ∈ groups, ∀ e ∈ g.chunks, e ∈ missing := fun g mem e there =>
            chunks'.mem_iff.mp (List.mem_flatMap.mpr ⟨g, mem, there⟩)
          refine ⟨trivial, kept, groups, reused, rfl, fits, fun g mem e there => serves e (inside g mem e there), ?_, ?_, ?_⟩
          · exact names'.nodup_iff.mpr ((perm.nodup_iff.mpr (List.nodup_dedup _)).filter _)
          · intro g mem e there
            have named := names'.mem_iff.mp (List.mem_map_of_mem (List.mem_flatMap.mpr ⟨g, mem, there⟩))
            exact Option.isNone_iff_eq_none.mp (List.mem_filter.mp named).2
          · intro hex mem
            cases there : u'.get (.chunk hex) with
            | some f => exact .inl rfl
            | none =>
                have lacking : hex ∈ order.filter fun hex => (u'.get (.chunk hex)).isNone :=
                  List.mem_filter.mpr ⟨perm.mem_iff.mpr (List.mem_dedup.mpr mem), by rw [there]; rfl⟩
                obtain ⟨e, there, same⟩ := List.mem_map.mp (names'.mem_iff.mpr lacking)
                obtain ⟨g, inGroups, there⟩ := List.mem_flatMap.mp there
                exact .inr ⟨g, inGroups, e, there, same⟩
        · rintro e t u ⟨⟨⟩, -⟩
      · rintro e t u ⟨-, _, _, bad, -⟩
        cases bad
    · rintro e t u ⟨⟨⟩, -⟩
  · rintro e t u ⟨⟨⟩, -⟩

end Missing

end Cavs
