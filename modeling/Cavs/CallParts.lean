import Cavs.Edits

/-!
# What the calls do besides saving

The parts of the calls that leave the ledger files alone: chunks stored in packs,
packs quarantined and swept. They change chunk entries of the handle, no more.
-/
namespace Cavs
open FileProg (Bytes IoError Op)
open FileProg.Eff
open Std (ExtTreeMap ExtTreeSet)

section Quiet
variable {env : Env} {mayFail : Op Path GlobalStore → Disk → Prop}
  {holds : GlobalStore → Disk → Prop} {α β : Type} {s t : GlobalStore}

/-- The method changes nothing the ledger files say, and in memory chunk entries only.
When `sure` it ends well. -/
def Quiet (env : Env) (σ : StoreSem) (sure : Prop) (s : GlobalStore) (m : M GlobalStore α) : Prop :=
  s.seg = none → ∀ (w : Disk) (C : Disk → Prop) (Q : Except StoreError α → GlobalStore → Disk → Prop),
    (∀ v, Grows env w v → C v) →
    (∀ r t v, Grows env w v → Edits (fun _ => False) s t → (sure → ∃ a, r = .ok a) → Q r t v) →
    m.Wp σ C Q s w

variable {σ : StoreSem} {sure : Prop}

theorem Quiet.pure (a : α) : Quiet env σ sure s (Pure.pure a : M GlobalStore α) :=
  fun _ w _ _ crash next => ⟨crash w (.refl w), next _ s w (.refl w) (.refl s) fun _ => ⟨a, rfl⟩⟩

theorem Quiet.throw (e : StoreError) : Quiet env σ False s (FileProg.Eff.throw e : M GlobalStore α) :=
  fun _ w _ _ crash next => ⟨crash w (.refl w), next _ s w (.refl w) (.refl s) False.elim⟩

theorem Quiet.bind {m : M GlobalStore α} {f : α → M GlobalStore β} (hm : Quiet env σ sure s m)
    (hf : ∀ a t, t.seg = none → Quiet env σ sure t (f a)) : Quiet env σ sure s (m >>= f) := by
  intro mono w C Q crash next
  refine (hm mono w C _ crash ?_).then
  rintro (e | a) t v grows edits ok
  · exact ⟨crash v grows, next _ t v grows edits fun h => by
      obtain ⟨a, bad⟩ := ok h
      cases bad⟩
  · exact hf a t (edits.mono_ mono) (edits.mono_ mono) v C Q (fun v' g => crash v' (grows.trans g))
      fun r u v' g edits' ok' => next r u v' (grows.trans g) (edits.trans edits') ok'

theorem Quiet.see {f : GlobalStore → M GlobalStore α} (h : Quiet env σ sure s (f s)) :
    Quiet env σ sure s (FileProg.Eff.get >>= f) := h

theorem Quiet.modify {f : GlobalStore → GlobalStore} (h : s.seg = none → Edits (fun _ => False) s (f s)) :
    Quiet env σ sure s (FileProg.Eff.modify f : M GlobalStore Unit) :=
  fun mono w _ _ crash next => ⟨crash w (.refl w), next _ (f s) w (.refl w) (h mono) fun _ => ⟨(), rfl⟩⟩

theorem Quiet.op {o : Op Path GlobalStore} (quiet : o.Calm fun p => p.isKept = false) :
    Quiet env σ sure s (FileProg.Eff.op o : M GlobalStore (o.Res ChunkHash)) := by
  intro _ w C Q crash next
  have grows : ∀ {v}, w.Calm (fun p => p.isKept = false) v → Grows env w v := fun h =>
    .of_calm h fun p hp => hp
  refine (wp_op s w).mpr ⟨crash w (.refl w), fun v cut => crash v (grows (cut.calm quiet)),
    fun r v step => ?_⟩
  have g := grows (step.calm quiet)
  exact ⟨crash v g, next _ s v g (.refl s) fun _ => ⟨r, rfl⟩⟩

theorem Quiet.ite {c : Prop} [Decidable c] {m n : M GlobalStore α} (yes : c → Quiet env σ sure s m)
    (no : ¬ c → Quiet env σ sure s n) : Quiet env σ sure s (if c then m else n) := by
  split
  · exact yes ‹_›
  · exact no ‹_›

theorem Quiet.orThrow {f : IoError → StoreError} (r : Except IoError α) :
    Quiet env σ False s (FileProg.Eff.orThrow f r : M GlobalStore α) := by
  cases r
  · exact .throw _
  · exact .pure _

theorem Quiet.forEach {l : List β} {f : β → M GlobalStore Unit}
    (h : ∀ b ∈ l, ∀ t, t.seg = none → Quiet env σ sure t (f b)) :
    Quiet env σ sure s (FileProg.Eff.forEach l f) := by
  induction l generalizing s with
  | nil => exact .pure ()
  | cons b l ih =>
      intro mono
      exact (h b List.mem_cons_self s mono).bind
        (fun _ t _ => ih fun b hb => h b (List.mem_cons_of_mem _ hb)) mono

end Quiet
section Ops
variable {p q : Path}

theorem free_write {b : Bytes} (h : p.isKept = false) :
    (Op.write p b : Op Path GlobalStore).Calm fun p => p.isKept = false := ⟨fun _ e => e ▸ h, nofun⟩

theorem free_append {b : Bytes} (h : p.isKept = false) :
    (Op.append p b : Op Path GlobalStore).Calm fun p => p.isKept = false := ⟨fun _ e => e ▸ h, nofun⟩

theorem free_remove (h : p.isKept = false) :
    (Op.remove p : Op Path GlobalStore).Calm fun p => p.isKept = false := ⟨fun _ e => e ▸ h, nofun⟩

theorem free_rename (h : p.isKept = false) (h' : q.isKept = false) :
    (Op.rename p q : Op Path GlobalStore).Calm fun p => p.isKept = false :=
  ⟨fun _ e => e.elim (fun e => e ▸ h) fun e => e ▸ h', nofun⟩

theorem free_sync : (Op.sync p : Op Path GlobalStore).Calm fun p => p.isKept = false :=
  ⟨fun _ h => h.elim, nofun⟩

theorem free_read : (Op.read p : Op Path GlobalStore).Calm fun p => p.isKept = false :=
  ⟨fun _ h => h.elim, nofun⟩

theorem free_present : (Op.present p : Op Path GlobalStore).Calm fun p => p.isKept = false :=
  ⟨fun _ h => h.elim, nofun⟩

theorem free_stat : (Op.stat p : Op Path GlobalStore).Calm fun p => p.isKept = false :=
  ⟨fun _ h => h.elim, nofun⟩

theorem free_list {d : Path → Bool} : (Op.list d : Op Path GlobalStore).Calm fun p => p.isKept = false :=
  ⟨fun _ h => h.elim, nofun⟩

theorem free_digest {b : Bytes} : (Op.digest b : Op Path GlobalStore).Calm fun p => p.isKept = false :=
  ⟨fun _ h => h.elim, nofun⟩

theorem free_now : (Op.now : Op Path GlobalStore).Calm fun p => p.isKept = false :=
  ⟨fun _ h => h.elim, nofun⟩

end Ops

section Packs
variable {env : Env} {mayFail : Op Path GlobalStore → Disk → Prop}
  {holds : GlobalStore → Disk → Prop} {s : GlobalStore} {σ : StoreSem}

theorem abort_quiet {sure : Prop} (writer : PackWriter) :
    Quiet env σ sure s (writer.abort : M GlobalStore Unit) :=
  (Quiet.op (free_remove rfl)).bind fun _ _ _ => Quiet.pure _

theorem writePackIndex_quiet (pack : ChunkHash) (entries : List PackEntry) :
    Quiet env σ False s (writePackIndex env pack entries : M GlobalStore Unit) :=
  (Quiet.op (free_write rfl)).bind fun _ _ _ => (Quiet.orThrow _).bind fun _ _ _ =>
    (Quiet.op (free_rename rfl rfl)).bind fun _ _ _ => Quiet.orThrow _

theorem finish_quiet (writer : PackWriter) :
    Quiet env σ False s (writer.finish env : M GlobalStore _) :=
  (Quiet.op (free_append rfl)).bind fun _ _ _ => (Quiet.orThrow _).bind fun _ _ _ =>
  (Quiet.op free_sync).bind fun _ _ _ => (Quiet.orThrow _).bind fun _ _ _ =>
  (Quiet.op free_read).bind fun _ _ _ => (Quiet.orThrow _).bind fun _ _ _ =>
  (Quiet.op free_digest).bind fun _ _ _ => (Quiet.op (free_rename rfl rfl)).bind fun _ _ _ =>
  (Quiet.orThrow _).bind fun _ _ _ => (writePackIndex_quiet _ _).bind fun _ _ _ => Quiet.pure _

/-- Taking or replacing the open pack is no change of the ledger. -/
theorem openPack_edits {names : String → Prop} (writer : Option PackWriter) :
    Edits names s { s with openPack := writer } :=
  ⟨rfl, fun _ clean => ⟨clean, rfl⟩, fun _ _ => ⟨rfl, Iff.rfl⟩, fun keys => ⟨keys.canon, keys.dirty⟩⟩

theorem flushPacks_quiet : Quiet env σ False s (flushPacks env) := by
  refine .see ?_
  cases s.openPack with
  | none => exact .pure ()
  | some writer =>
      refine (Quiet.modify fun _ => openPack_edits _).bind fun _ t _ => Quiet.ite (fun _ => ?_) fun _ => ?_
      · exact abort_quiet writer
      · refine (finish_quiet writer).bind fun r u _ => Quiet.modify fun mono => ?_
        exact foldl_edits mono fun e _ s mono => resolveEntry_edits e mono

theorem decrement_quiet {sure : Prop} (chunks : List String) : Quiet env σ sure s (decrement chunks) :=
  Quiet.forEach fun _ _ _ _ => Quiet.bind ((Quiet.op free_now).bind fun _ _ _ => Quiet.pure _)
    fun _ _ _ => Quiet.modify fun mono => chunkUpdate_edits mono fun _ placed => placed

theorem quarantinePack_quiet (hex : String) : Quiet env σ False s (quarantinePack hex) :=
  (Quiet.op free_present).bind fun _ _ _ =>
  (Quiet.ite (fun _ => (Quiet.op (free_rename rfl rfl)).bind fun _ _ _ => Quiet.orThrow _)
    fun _ => Quiet.pure ()).bind fun _ _ _ =>
  (Quiet.op free_present).bind fun _ _ _ =>
  (Quiet.ite (fun _ => (Quiet.op (free_rename rfl rfl)).bind fun _ _ _ => Quiet.orThrow _)
    fun _ => Quiet.pure ()).bind fun _ _ _ =>
  Quiet.bind ((Quiet.op free_now).bind fun _ _ _ => Quiet.pure _) fun _ _ _ =>
  (Quiet.op (free_write rfl)).bind fun _ _ _ => Quiet.orThrow _

theorem quarantineOrphanPacks_quiet (grace : Nat) : Quiet env σ False s (quarantineOrphanPacks grace) :=
  Quiet.see <| (Quiet.op free_now).bind fun _ _ _ => (Quiet.op free_list).bind fun _ _ _ =>
  (Quiet.orThrow _).bind fun _ _ _ => Quiet.forEach fun hex _ t _ =>
  Quiet.ite (fun _ => Quiet.pure ()) fun _ => (Quiet.op free_stat).bind fun found _ _ => by
    cases found with
    | none => exact .pure ()
    | some m => exact .ite (fun _ => quarantinePack_quiet _) fun _ => .pure ()

theorem removeAll_quiet {sure : Prop} {l : List Path} (free : ∀ p ∈ l, p.isKept = false) :
    Quiet env σ sure s (removeAll l) :=
  Quiet.forEach fun p mem _ _ => (Quiet.op (free_remove (free p mem))).bind fun _ _ _ => Quiet.pure _

theorem moveIfThere_quiet {p q : Path} (hp : p.isKept = false) (hq : q.isKept = false) :
    Quiet env σ False s (moveIfThere p q) :=
  (Quiet.op free_present).bind fun _ _ _ => (Quiet.op free_present).bind fun _ _ _ =>
    Quiet.ite (fun _ => (Quiet.op (free_rename hp hq)).bind fun _ _ _ => Quiet.orThrow _)
      fun _ => .pure ()

theorem restorePackFromQuarantine_quiet (hex : String) :
    Quiet env σ False s (restorePackFromQuarantine hex) :=
  (moveIfThere_quiet rfl rfl).bind fun _ _ _ => (moveIfThere_quiet rfl rfl).bind fun _ _ _ =>
    (Quiet.op (free_remove rfl)).bind fun _ _ _ => Quiet.pure _

theorem sumOver_quiet {β : Type} {l : List β} {f : β → M GlobalStore Nat}
    (h : ∀ b t, t.seg = none → Quiet env σ False t (f b)) : Quiet env σ False s (sumOver l f) := by
  induction l generalizing s with
  | nil => exact .pure 0
  | cons b l ih =>
      intro mono
      exact (h b s mono).bind (fun _ _ _ => ih.bind fun _ _ _ => .pure _) mono

theorem sweepQuarantine_quiet (grace : Nat) : Quiet env σ False s (sweepQuarantine grace) := by
  refine Quiet.see (Quiet.bind ((Quiet.op free_now).bind fun _ _ _ => Quiet.pure _) fun now _ _ =>
    (Quiet.op free_list).bind fun _ _ _ => (Quiet.orThrow _).bind fun _ _ _ => sumOver_quiet fun hex t _ => ?_)
  refine Quiet.ite (fun _ => (restorePackFromQuarantine_quiet hex).bind fun _ _ _ => Quiet.pure _)
    fun _ => (Quiet.op free_read).bind fun stamp _ _ => ?_
  cases stamp.toOption.bind parseStamp with
  | none =>
      exact (Quiet.op (free_write rfl)).bind fun _ _ _ => (Quiet.orThrow _).bind fun _ _ _ => Quiet.pure _
  | some since =>
      refine Quiet.ite (fun _ => Quiet.pure _) fun _ => (Quiet.op free_stat).bind fun _ _ _ =>
        Quiet.bind (removeAll_quiet fun p mem => ?_) fun _ _ _ => Quiet.pure _
      simp only [List.mem_cons, List.not_mem_nil, or_false] at mem
      rcases mem with rfl | rfl | rfl <;> rfl

theorem dropChunks_quiet {sure : Prop} (l : List String) : Quiet env σ sure s (dropChunks l) := by
  induction l generalizing s with
  | nil => exact .pure _
  | cons hex rest ih =>
      rw [dropChunks]
      refine .see ?_
      have edits : s.seg = none → Edits (fun _ => False) s (s.chunkRemove hex).2 := chunkRemove_edits
      generalize s.chunkRemove hex = removed at edits
      obtain ⟨old, s'⟩ := removed
      refine (Quiet.modify edits).bind fun _ t _ => ?_
      rcases old with _ | ⟨_, _, _, _, _, _ | pack, _⟩
      · exact ih
      · exact (Quiet.op (free_remove rfl)).bind fun _ _ _ => ih.bind fun _ _ _ => Quiet.pure _
      · exact ih.bind fun _ _ _ => .pure _

end Packs
end Cavs
