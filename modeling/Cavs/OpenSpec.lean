import Cavs.SaveSpec

/-!
# What an open does

An open of files that say a ledger yields a handle tied to them, whatever a crash
left behind, and a crash inside the open changes nothing about what they say.
-/
namespace Cavs
open FileProg (Bytes File IoError Op bytes_of_absent bytes_of_get)
open FileProg.Eff
open Std (ExtTreeMap ExtTreeSet)

/-- No operation fails without a reason in the tree. -/
def never : Op Path GlobalStore → Disk → Prop := fun _ _ => False

section Leftovers
variable {env : Env} {mayFail : Op Path GlobalStore → Disk → Prop}
  {holds : GlobalStore → Disk → Prop} {S : Type} {C : Disk → Prop} {s : S} {w : Disk}
  {Q : Except StoreError Unit → S → Disk → Prop}

theorem Grows.move {p q : Path} (hp : p.isKept = false) (hq : q.isKept = false) (w : Disk)
    (f : File) : Grows env w (w.move p q f) := by
  refine .of_calm (T := fun r => r = p ∨ r = q) ⟨fun r hr => ?_, rfl, fun _ h => h⟩ fun r hr => ?_
  · rw [not_or] at hr
    exact FileProg.get_move_ne hr.2 hr.1 ..
  · rcases hr with rfl | rfl
    · exact hp
    · exact hq

theorem removeAll_wp {l : List Path} (free : ∀ p ∈ l, p.isKept = false) (crash : ∀ v, Grows env w v → C v)
    (next : ∀ v, Grows env w v → Q (.ok ()) s v) :
    (removeAll l : M S Unit).Wp (storeSem env mayFail holds) C Q s w := by
  refine wp_forEach (I := fun t v => t = s ∧ Grows env w v) _ ?_ l ?_ s w ⟨rfl, .refl w⟩
    (crash w (.refl w))
  · rintro t v ⟨rfl, grows⟩ -
    exact next v grows
  · rintro p hp t v ⟨rfl, grows⟩
    have gone := grows.trans (Grows.del (free p hp) v)
    refine (wp_remove (crash v grows) (fun _ => ?_) (fun _ => ?_) fun _ => ?_).then
    · exact ⟨crash _ gone, crash _ gone, rfl, gone⟩
    · exact ⟨crash v grows, rfl, grows⟩
    · exact ⟨crash v grows, rfl, grows⟩

variable (crash : ∀ v, Grows env w v → C v) (next : ∀ v, Grows env w v → Q (.ok ()) s v)
include crash next

theorem sweepPartPacks_wp :
    (sweepPartPacks : M S Unit).Wp (storeSem env never holds) C Q s w := by
  refine (wp_list (crash w (.refl w)) (fun l mem _ => ?_) fun may => False.elim may).then
  refine wp_good (removeAll_wp (fun p hp => ?_) crash fun v grows => ?_).then
  · have := ((mem p).mp hp).2
    cases p <;> first | rfl | cases this
  · have crash' : ∀ v', Grows env v v' → C v' := fun v' g => crash v' (grows.trans g)
    refine (wp_list (crash v grows) (fun l mem _ => ?_) fun may => False.elim may).then
    refine wp_good (removeAll_wp (fun p hp => ?_) crash' fun v' g => next v' (grows.trans g))
    have := ((mem p).mp hp).2
    cases p <;> first | rfl | cases this

theorem moveIfThere_wp {src dst : Path} (hs : src.isKept = false) (hd : dst.isKept = false)
    (flat : dst.parent = none) :
    (moveIfThere src dst : M S Unit).Wp (storeSem env never holds) C Q s w := by
  have here := crash w (.refl w)
  refine (wp_present here ((wp_present here (wp_ite (fun there => ?_) fun _ => ?_)).then)).then
  · refine (wp_rename flat here (fun f found => ?_) (fun absent => ?_) fun may => False.elim may).then
    · have moved : Grows env w (w.move src dst f) := Grows.move hs hd ..
      exact ⟨crash _ moved, crash _ moved, next _ moved⟩
    · rw [absent] at there
      cases there
  · exact ⟨here, next w (.refl w)⟩

theorem restoreQuarantinedPacks_wp {live : List String} :
    (restoreQuarantinedPacks live : M S Unit).Wp (storeSem env never holds) C Q s w := by
  refine (wp_list (crash w (.refl w)) (fun l mem _ => ?_) fun may => False.elim may).then
  refine wp_good (wp_forEach (I := fun t v => t = s ∧ Grows env w v) _ ?_ _ ?_ s w ⟨rfl, .refl w⟩
    (crash w (.refl w)))
  · rintro t v ⟨rfl, grows⟩ -
    exact next v grows
  · rintro hex - t v ⟨rfl, grows⟩
    have crash' : ∀ {v}, Grows env w v → ∀ v', Grows env v v' → C v' := fun grows v' g =>
      crash v' (grows.trans g)
    refine wp_ite (fun _ => ?_) fun _ => ⟨crash v grows, rfl, grows⟩
    refine (moveIfThere_wp (crash' grows) (fun v₁ g₁ => ?_) rfl rfl rfl).then
    have grows₁ := grows.trans g₁
    refine Wp.then (moveIfThere_wp (crash' grows₁) (fun v₂ g₂ => ?_) rfl rfl rfl)
    have grows₂ := grows₁.trans g₂
    have gone := grows₂.trans (Grows.del (p := .quarantinedSince hex) rfl v₂)
    refine (wp_remove (crash v₂ grows₂) (fun _ => ?_) (fun _ => ?_) fun _ => ?_).then
    · exact ⟨crash _ gone, crash _ gone, rfl, gone⟩
    · exact ⟨crash v₂ grows₂, rfl, grows₂⟩
    · exact ⟨crash v₂ grows₂, rfl, grows₂⟩

end Leftovers
section Load
variable {env : Env} {holds : GlobalStore → Disk → Prop} {S : Type} {C : Disk → Prop} {s : S}
  {w : Disk} {base L : Index} {good : Bytes} {index : Index} {file : JournalFile}
  {Q : Except StoreError (Index × Nat) → S → Disk → Prop} {A : Ledger}

theorem replayBytes_nil :
    replayBytes env file index [] 0 = (index, ⟨0, 0⟩) := rfl

theorem replayJournalFrom_wp {path : Path} {r : Index × JournalScan}
    {Q : Except StoreError (Index × JournalScan) → S → Disk → Prop} (here : C w)
    (value : replayBytes env file index (w.bytes path) 0 = r) (next : Q (.ok r) s w) :
    (replayJournalFrom env index path file 0 : M S _).Wp (storeSem env never holds) C Q s w := by
  refine (wp_read here (fun f found => ?_) (fun absent => ?_) fun may => False.elim may).then
  · rw [bytes_of_get found] at value
    subst value
    exact ⟨here, next⟩
  · rw [bytes_of_absent absent, replayBytes_nil] at value
    subst value
    exact ⟨here, next⟩

theorem decoded_long {bytes : Bytes} {version : Nat}
    (h : decodeIndexVersioned env bytes = .ok (index, version)) : 0 < bytes.length := by
  rw [decodeIndexVersioned] at h
  split at h
  · cases h
  · rw [indexHeaderSize] at *
    omega

/-- The ledger a load starts from: the live snapshot, still to be followed by its
journal, or everything the older snapshot and the journals give. -/
theorem loadIndex_wp {layout : Option StoreLayout} {readOnly : Bool} (stored : Stored env w base L good)
    (here : C w)
    (next : ∀ index size, 0 < size ∧ index = base ∧ (w.get .indexBin).isSome ∨ size = 0 ∧ index = L →
      Q (.ok (index, size)) s w) :
    (loadIndex env layout readOnly : M S _).Wp (storeSem env never holds) C Q s w := by
  cases stored.based with
  | @live f found reads =>
      refine Wp.seq (R := fun r t v => s = t ∧ v = w ∧ r = .ok (some (base, .live f.bytes.length))) ?_ ?_ ?_
      · refine (wp_present here (wp_ite (fun _ => ?_) fun absent => ?_)).then
        · refine (wp_read here (fun f' found' => ?_) (fun absent => ?_) fun may => False.elim may).then
          · rw [found, Option.some.injEq] at found'
            subst found'
            refine wp_good ?_
            rw [reads]
            exact ⟨here, rfl, rfl, rfl⟩
          · rw [found] at absent
            cases absent
        · rw [found] at absent
          exact absurd rfl absent
      · rintro _ t v c ⟨rfl, rfl, same⟩
        cases same
        exact ⟨here, next _ _ (.inl ⟨decoded_long reads, rfl, by rw [found]; rfl⟩)⟩
      · rintro e t v ⟨-, -, same⟩
        cases same
  | @prev f absent found reads =>
      refine Wp.seq (R := fun r t v => s = t ∧ v = w ∧ r = .ok (some (base, .prev))) ?_ ?_ ?_
      · refine (wp_present here (wp_ite (fun there => ?_) fun _ => ?_)).then
        · rw [absent] at there
          cases there
        · refine (wp_present here (wp_ite (fun _ => ?_) fun none => ?_)).then
          · refine (wp_read here (fun f' found' => ?_) (fun none => ?_) fun may => False.elim may).then
            · rw [found, Option.some.injEq] at found'
              subst found'
              refine wp_good ?_
              rw [decodeIndex_of_versioned reads]
              exact ⟨here, rfl, rfl, rfl⟩
            · rw [found] at none
              cases none
          · rw [found] at none
            exact absurd rfl none
      · rintro _ t v c ⟨rfl, rfl, same⟩
        cases same
        obtain ⟨scan, nothing⟩ : ∃ scan, replayBytes env .prev base (v.bytes .indexLogPrev) 0 =
            (base, scan) := ⟨_, Prod.ext (stored.old.replayBytes (le_refl _)) rfl⟩
        refine (replayJournalFrom_wp here nothing ?_).then
        exact (replayJournalFrom_wp here stored.log.replayBytes
          ⟨here, next _ _ (.inr ⟨rfl, rfl⟩)⟩).then
      · rintro e t v ⟨-, -, same⟩
        cases same

/-- The ledger an open comes to, and how much of the journal it stands on. A torn tail
is cut off by a writer. -/
theorem replayLive_wp {size : Nat}
    (recovers : Named env w ∧ Stored env w base L good ∧ L.Canon ∧ RecordsKept w L good A)
    (start : 0 < size ∧ index = base ∧ (w.get .indexBin).isSome ∨ size = 0 ∧ index = L) (here : C w)
    (cut : ∀ v, LogAt w v good → Stored env v base L good → RecordsKept v L good A → C v)
    (next : ∀ v length, v.marks = w.marks → Named env v → Stored env v base L good →
      RecordsKept v L good A →
      (0 < size → (v.get .indexBin).isSome ∧ v.bytes .indexLog = good ∧ length = good.length) →
      Q (.ok (L, length)) s v) :
    (replayLive env index size false : M S _).Wp (storeSem env never holds) C Q s w := by
  obtain ⟨named, stored, canon, kept⟩ := recovers
  rcases start with ⟨positive, rfl, bin⟩ | ⟨rfl, rfl⟩
  · refine wp_ite (fun _ => ?_) fun none => absurd positive none
    refine (replayJournalFrom_wp here stored.log.replayBytes ?_).then
    refine Wp.then (wp_ite (fun shorter => ?_) fun whole => ?_)
    · refine (wp_setLen here (fun f t found => ?_) (fun absent => ?_) fun may => False.elim may).then
      · obtain ⟨tail, bytes, -⟩ := stored.log.tail
        rw [bytes_of_get found] at bytes
        have trimmed : f.bytes.take good.length ++ List.replicate (good.length - f.bytes.length) 0 =
            good := by
          rw [bytes, List.take_left, List.length_append, Nat.sub_eq_zero_of_le (by omega),
            List.replicate_zero, List.append_nil]
        have at_ : LogAt w (w.put .indexLog (f.bytes.take good.length ++
            List.replicate (good.length - f.bytes.length) 0) t) good := by
          rw [trimmed]
          exact .of_put ..
        have stored' := stored.logAt at_ ⟨⟨[], by simp, rfl⟩, stored.log.replays⟩
        have kept' := kept.carries (at_.carries : Carries env w _)
        have after := cut _ at_ stored' kept'
        refine ⟨after, after, after, next _ _ at_.marks (named.logAt at_) stored' kept' fun _ =>
          ⟨?_, at_.bytes, rfl⟩⟩
        rw [at_.rest _ (by simp)]
        exact bin
      · rw [bytes_of_absent absent] at shorter
        exact absurd shorter.1 (by simp)
    · have length := stored.log.length_le
      have same : w.bytes .indexLog = good := by
        obtain ⟨tail, bytes, -⟩ := stored.log.tail
        have empty : tail = [] := by
          have := congrArg List.length bytes
          rw [List.length_append] at this
          refine List.length_eq_zero_iff.mp ?_
          by_contra more
          exact whole ⟨by dsimp only; omega, rfl⟩
        rw [bytes, empty, List.append_nil]
      exact ⟨here, here, next w _ rfl named stored kept fun _ => ⟨bin, same, rfl⟩⟩
  · refine wp_ite (fun positive => absurd positive (by simp)) fun _ => ?_
    exact ⟨here, next w _ rfl named stored kept fun positive => absurd positive (by simp)⟩

/-- The handle of a fresh open, tied to what the files say. -/
theorem handle_tied {journalBytes snapshotBytes : Nat} {snapshotId : Option (Nat × Nat)} (named : Named env w)
    (stored : Stored env w base L good) (canon : L.Canon) (kept : RecordsKept w L good A)
    (assets : ∀ name, L.assets[name]? = A.assets name)
    (journal : 0 < snapshotBytes → (w.get .indexBin).isSome ∧ w.bytes .indexLog = good ∧
      journalBytes = good.length) :
    Tied env w base L good (handle L none journalBytes snapshotBytes snapshotId false) A.published
      fun _ => False where
  stored := stored
  named := named
  mono := rfl
  writable := rfl
  canon := canon
  dirtyHex _ mem := absurd mem ExtTreeSet.not_mem_empty
  layout := rfl
  generation := le_refl _
  inStep _ := ⟨fun _ _ => rfl, fun _ _ => rfl, fun _ _ => ExtTreeMap.getElem?_empty, fun _ _ _ => rfl,
    fun _ mem => absurd mem ExtTreeSet.not_mem_empty, journal⟩
  records name chunks listed _ := by
    obtain ⟨ref, b, found, published, reads⟩ := kept name chunks ((assets name).symm.trans listed)
    exact ⟨b, published, .inr ⟨ExtTreeMap.getElem?_empty, ref, found, reads⟩⟩

theorem finishOpen_wp {t : GlobalStore} {Q : Except StoreError GlobalStore → S → Disk → Prop}
    (crash : ∀ v, Grows env w v → C v) (next : ∀ v, Grows env w v → Q (.ok t) s v) :
    (finishOpen t : M S _).Wp (storeSem env never holds) C Q s w := by
  refine Wp.then (wp_ite (fun _ => ?_) fun _ => ?_)
  · exact ⟨crash w (.refl w), crash w (.refl w), next w (.refl w)⟩
  · exact restoreQuarantinedPacks_wp crash fun v grows => ⟨crash v grows, next v grows⟩

end Load

section Open
variable {env : Env} {holds : GlobalStore → Disk → Prop} {S : Type} {C : Disk → Prop} {s : S}
  {w : Disk} {A : Ledger} {layout : Option StoreLayout} {Q : Except StoreError GlobalStore → S → Disk → Prop}

/-- What an open does once it has an index to start from. -/
theorem openRest_wp {base L index : Index} {good : Bytes} {size : Nat}
    (recovers : Named env w ∧ Stored env w base L good ∧ L.Canon ∧ RecordsKept w L good A)
    (chunks : ∀ hex, L.chunks[hex]? = A.chunks hex) (assets : ∀ name, L.assets[name]? = A.assets name)
    (start : 0 < size ∧ index = base ∧ (w.get .indexBin).isSome ∨ size = 0 ∧ index = L)
    (cut : ∀ v, Recovers env v A → C v)
    (refused : ∀ e v there, checkLayout layout L.layout there = .error e → Recovers env v A → Q (.error e) s v)
    (next : ∀ v journalBytes snapshotBytes snapshotId,
      Tied env v base L good (handle L none journalBytes snapshotBytes snapshotId false) A.published
        (fun _ => False) → RecordsKept v L good A →
      Q (.ok (handle L none journalBytes snapshotBytes snapshotId false)) s v) :
    (do
      let (index, journalBytes) ← replayLive env index size false
      let bin ← op (.present .indexBin)
      let json ← op (.present .indexJson)
      ofExcept (checkLayout layout index.layout (bin || json))
      (if false then pure () else sweepPartPacks)
      let snapshotId ← op (.stat .indexBin)
      finishOpen (handle index none journalBytes size snapshotId false) : M S GlobalStore).Wp
      (storeSem env never holds) C Q s w := by
  obtain ⟨named, stored, canon, kept⟩ := recovers
  have tells : ∀ {v}, Named env v → Stored env v base L good → RecordsKept v L good A → Recovers env v A :=
    fun named stored kept => ⟨named, base, L, good, stored, canon, kept, chunks, assets⟩
  have here : C w := cut w (tells named stored kept)
  refine (replayLive_wp ⟨named, stored, canon, kept⟩ start here
    (fun u at_ stored kept => cut u (tells (named.logAt at_) stored kept))
    fun u length marks named stored kept journal => ?_).then
  have whole : ∀ {x}, Grows env u x → C x := fun g => cut _ ((tells named stored kept).grows g)
  have c := whole (.refl u)
  refine (wp_present c (wp_present c (Wp.then ?_)).then).then
  cases asked : checkLayout layout L.layout ((u.get .indexBin).isSome || (u.get .indexJson).isSome) with
  | error e => exact ⟨c, c, refused e u _ asked (tells named stored kept)⟩
  | ok _ =>
      refine ⟨c, ?_⟩
      refine (sweepPartPacks_wp (fun x g => whole g) fun x g => ?_).then
      refine (wp_stat (whole g) ?_).then
      refine finishOpen_wp (fun y g' => whole (g.trans g')) fun y g' => ?_
      have g'' := g.trans g'
      refine next y _ _ _ (handle_tied (g''.named named) (stored.grows g'') canon
        (kept.grows g'') assets fun positive => ?_) (kept.grows g'')
      rw [g''.same _ rfl, FileProg.bytes_congr (g''.same .indexLog rfl)]
      exact journal positive

/-- An open of files that say `A` ends well, in a handle tied to them, unless it asks for
another layout, and a crash in it leaves files that say `A`. -/
theorem openWithLayout_wp (recovers : Recovers env w A) (cut : ∀ v, Recovers env v A → C v)
    (refused : ∀ e v, Recovers env v A → Q (.error e) s v)
    (next : ∀ v base L good journalBytes snapshotBytes snapshotId,
      Tied env v base L good (handle L none journalBytes snapshotBytes snapshotId false) A.published
        (fun _ => False) → (∀ hex, L.chunks[hex]? = A.chunks hex) →
      (∀ name, L.assets[name]? = A.assets name) → RecordsKept v L good A →
      Q (.ok (handle L none journalBytes snapshotBytes snapshotId false)) s v) :
    (openWithLayout env layout : M S GlobalStore).Wp (storeSem env never holds) C Q s w := by
  have stays : ∀ {v}, Grows env w v → C v := fun g => cut _ (recovers.grows g)
  have here := stays (.refl w)
  refine (wp_present here (wp_ite (fun segmented => ?_) fun _ => ?_)).then
  · obtain ⟨-, base, L, good, stored, -⟩ := recovers
    rw [stored.mono] at segmented
    cases segmented
  refine Wp.seq (R := fun r t v => s = t ∧ Grows env w v ∧ r = .ok ()) (Wp.then ?_) ?_ ?_
  · refine wp_remove here (fun _ => ?_) (fun _ => ⟨here, rfl, .refl w, rfl⟩)
      fun _ => ⟨here, rfl, .refl w, rfl⟩
    have gone : Grows env w (w.del .indexBinTmp) := Grows.del rfl w
    exact ⟨stays gone, stays gone, rfl, gone, rfl⟩
  swap
  · rintro e t v ⟨-, -, same⟩
    cases same
  rintro _ t v c ⟨rfl, grows, -⟩
  obtain ⟨named, base, L, good, stored, canon, kept, chunks, assets⟩ := recovers.grows grows
  refine (loadIndex_wp stored c fun index size start => ?_).then
  exact openRest_wp ⟨named, stored, canon, kept⟩ chunks assets start cut (fun e v _ _ tells => refused e v tells)
    fun u _ _ _ tied kept => next u base L good _ _ _ tied chunks assets kept

end Open
end Cavs
