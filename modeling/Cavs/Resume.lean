import Cavs.Committing

/-!
# Finishing an apply that was cut off

A run that starts from whatever a cut left ends like one that was never cut off: the tree of a
finished apply is the only one of its kind.
-/
namespace Cavs
open FileProg (Bytes)
open Function (update update_idem update_of_ne update_self)
open LinkFs (Comp Leads Node Step Tree below)
open OpProg (Cmd Prog)
open OpProg.Cmd (Wp attempt forEach throw)

section Ends
variable {env : ApplyEnv} {plan : OfflinePlan} {out : LinkFs.Path} {t v u : Tree} {content : PlanEntry → Bytes}
  {deleting : Bool} {torn : Prop} {e : PlanEntry} {up : Updates env plan out t content} {opts : ApplyOptions}

/-- The former paths that are removed are gone. -/
def Cleared (up : Updates env plan out t content) (deleting : Bool) (v : Tree) : Prop :=
  deleting = true → ∀ p ∈ plan.deleted, Removable out t p → v (placeOf out p) = none

/-- The tree of an apply that ended: nothing of its own is left, and every path is as it is to be. -/
structure Finished (up : Updates env plan out t content) (deleting : Bool) (v : Tree) : Prop where
  under : Underway up deleting v
  housed : Housed up v
  placed : InPlace up v
  linked : Linked up v
  cleared : Cleared up deleting v
  bare : ∀ x, Own out x → v x = none

/-- There is one such tree. -/
theorem Finished.unique (h : Finished up deleting v) (h' : Finished up deleting u) :
    v = u := by
  funext x
  by_cases own : Own out x
  · rw [h.bare x own, h'.bare x own]
  by_cases entry : ∃ e ∈ plan.newEntries, x = placeOf out e.path
  · obtain ⟨e, mem, rfl⟩ := entry
    cases kind : e.kind with
    | file => rw [h.placed e mem kind, h'.placed e mem kind]
    | directory => rw [h.housed e mem kind, h'.housed e mem kind]
    | symlink => rw [h.linked e mem kind, h'.linked e mem kind]
  by_cases former : ∃ p ∈ plan.deleted, x = placeOf out p
  · obtain ⟨p, mem, rfl⟩ := former
    by_cases removed : deleting = true ∧ Removable out t p
    · rw [h.cleared removed.1 p mem removed.2, h'.cleared removed.1 p mem removed.2]
    · rw [(h.under.outer.former p mem).resolve_right fun gone => removed gone.2,
        (h'.under.outer.former p mem).resolve_right fun gone => removed gone.2]
  have entry' : ∀ e ∈ plan.newEntries, x ≠ placeOf out e.path := fun e mem same => entry ⟨e, mem, same⟩
  have former' : ∀ p ∈ plan.deleted, x ≠ placeOf out p := fun p mem same => former ⟨p, mem, same⟩
  rw [h.under.outer.rest x own entry' former', h'.under.outer.rest x own entry' former']


theorem deletions_wp (settles : ∀ p ∈ plan.deleted, Removable out t p ∨ Kept plan out t p)
    (h : Underway up true v) (housed : Housed up v) (placed : InPlace up v) (linked : Linked up v)
    {Q : Unit → Tree → Prop}
    (done : ∀ w, Underway up true w → Housed up w → InPlace up w →
      Linked up w → Cleared up true w → Q () w) :
    Applies up true torn Q (forEach plan.deleted (removeDeleted out)) v := by
  refine Wp.mono (Wp.forEach (fun rest w => Underway up true w ∧ Housed up w ∧
    InPlace up w ∧ Linked up w ∧
    ∀ p ∈ plan.deleted, Removable out t p → p ∈ rest ∨ w (placeOf out p) = none) ?_ ?_) ?_
  · rintro p rest w mem ⟨under, housed, placed, linked, cleared⟩
    apply removeDeleted_wp under placed mem (settles p mem)
    · intro _ z under' gone same
      have entry : ∀ e ∈ plan.newEntries, z (placeOf out e.path) = w (placeOf out e.path) :=
        fun e listed => same _ (up.former_place listed mem)
      refine ⟨under', fun e listed kind => (entry e listed).trans (housed e listed kind),
        fun e listed kind => (entry e listed).trans (placed e listed kind),
        fun e listed kind => (entry e listed).trans (linked e listed kind), fun q listed removable => ?_⟩
      by_cases here : placeOf out q = placeOf out p
      · rw [here]
        exact .inr gone
      · rw [same _ here]
        refine (cleared q listed removable).imp_left fun waiting => (List.mem_cons.mp waiting).resolve_left ?_
        rintro rfl
        exact here rfl
    · intro kept
      refine ⟨under, housed, placed, linked, fun q listed removable => ?_⟩
      refine (cleared q listed removable).imp_left fun waiting => (List.mem_cons.mp waiting).resolve_left ?_
      rintro rfl
      exact up.kept_not_removable kept removable
  · exact ⟨h, housed, placed, linked, fun p mem _ => .inl mem⟩
  · rintro ⟨⟩ w ⟨under, housed, placed, linked, cleared⟩
    exact done w under housed placed linked fun _ p mem removable =>
      (cleared p mem removable).resolve_left List.not_mem_nil

/-- Some of the apply's own files went, after all files came to their places. -/
theorem Underway.thin (h : Underway up deleting v) (placed : InPlace up v) (same : ∀ x, ¬ Own out x → u x = v x)
    (own : ∀ x, Own out x → u x = v x ∨ u x = none) :
    Underway up deleting u := by
  refine ⟨h.outer.congr same, h.tools.thin own, InPlace.sourced fun e mem kind => ?_⟩
  rw [same _ (up.not_own mem), placed e mem kind]

/-- The end of an apply: its own files go. -/
theorem clear_wp (h : Underway up deleting v) (housed : Housed up v) (placed : InPlace up v)
    (linked : Linked up v) (cleared : Cleared up deleting v) (tmp : v (out ++ [journalTmp]) = none)
    (journal : ∃ b x, v (out ++ [journalFile]) = some (.file b x)) :
    Applies up deleting torn
      (fun _ u => Finished up deleting u ∨ (torn ∧ Underway up deleting u))
      (do
        let _ ← fs (.removeAll (inOut out stagingDir))
        let _ ← fs (.unlink (inOut out journalFile))
        pure ()) v := by
  have removes : ∀ u : Tree, (∀ x, u x = v x ∨ (out ++ [stagingDir] <+: x ∧ u x = none)) →
      Underway up deleting u ∧
      Underway up deleting (update u (out ++ [journalFile]) none) ∧
      ((∀ x, out ++ [stagingDir] <+: x → u x = none) →
        Finished up deleting (update u (out ++ [journalFile]) none)) ∧
      u (out ++ [journalFile]) = v (out ++ [journalFile]) := by
    intro u gone
    have outside : ∀ x, ¬ Own out x → u x = v x :=
      fun x off => (gone x).resolve_right fun both => off ⟨_, by decide, both.1⟩
    have outside' : ∀ x, ¬ Own out x → update u (out ++ [journalFile]) none x = v x := by
      intro x off
      rw [update_of_ne, outside x off]
      rintro rfl
      exact off (own_journal [])
    have under := h.thin placed outside fun x _ => (gone x).imp_right fun both => both.2
    have under' : Underway up deleting (update u (out ++ [journalFile]) none) := by
      apply h.thin placed outside'
      intro x _
      by_cases here : x = out ++ [journalFile]
      · rw [here, update_self]
        exact .inr rfl
      · rw [update_of_ne here]
        exact (gone x).imp_right fun both => both.2
    have beside : ∀ n more, n ≠ stagingDir → u (out ++ n :: more) = v (out ++ n :: more) :=
      fun n more differ => (gone _).resolve_right fun both => apart (fun same => differ same.symm) more both.1
    refine ⟨under, under', fun all => ⟨under', fun d mem kind => ?_, fun e mem kind => ?_, fun e mem kind => ?_,
      fun deletes p mem removable => ?_, ?_⟩, beside _ [] (by decide)⟩
    · rw [outside' _ (up.not_own mem), housed d mem kind]
    · rw [outside' _ (up.not_own mem), placed e mem kind]
    · rw [outside' _ (up.not_own mem), linked e mem kind]
    · rw [outside' _ (up.not_own_former mem), cleared deletes p mem removable]
    · rintro x ⟨n, listed, more, rfl⟩
      rw [List.append_assoc]
      by_cases here : out ++ ([n] ++ more) = out ++ [journalFile]
      · rw [here, update_self]
      · rw [update_of_ne here]
        simp only [ownNames, List.mem_cons, List.not_mem_nil, or_false] at listed
        rcases listed with rfl | rfl | rfl
        · exact all _ ((List.prefix_append_right_inj _).mpr ⟨more, rfl⟩)
        · refine (beside journalFile more (by decide)).trans ?_
          cases more with
          | nil => exact absurd rfl here
          | cons m more =>
              have flat := h.tools.flat _ (.inl rfl) m more
              rwa [List.append_assoc] at flat
        · refine (beside journalTmp more (by decide)).trans ?_
          cases more with
          | nil => exact tmp
          | cons m more =>
              have flat := h.tools.flat _ (.inr (.inl rfl)) m more
              rwa [List.append_assoc] at flat
  have last : ∀ u : Tree, Underway up deleting u → u (out ++ [journalFile]) = v (out ++ [journalFile]) →
      ∀ {Q : Unit → Tree → Prop}, Q () (update u (out ++ [journalFile]) none) →
      Applies up deleting torn Q (do
        let _ ← fs (.unlink (inOut out journalFile))
        pure ()) u := by
    intro u under same Q done
    obtain ⟨b, x, file⟩ := journal
    rw [inOut_eq]
    apply Wp.bind
    apply unlink_wp under (LinkFs.onNode_ok (leads_in under.outer.standing _) (fun no => by cases no) (x := none)
      (by rw [same, file]; rfl))
    exact Wp.pure done
  have found : LinkFs.locate v false (inOut out stagingDir) = .ok (out ++ [stagingDir]) :=
    LinkFs.locate_leads (leads_in h.outer.standing _) fun no => by cases no
  apply Wp.bind
  refine Wp.op h fun r u step => ?_
  rcases step with does | ⟨may, -, left⟩
  · rw [LinkFs.Does, found] at does
    obtain ⟨-, rfl⟩ := does
    have thinned : ∀ x, v.without (out ++ [stagingDir]) x = v x ∨
        (out ++ [stagingDir] <+: x ∧ v.without (out ++ [stagingDir]) x = none) := by
      intro x
      by_cases below : out ++ [stagingDir] <+: x
      · exact .inr ⟨below, if_pos below⟩
      · exact .inl (if_neg below)
    obtain ⟨under, -, finished, same⟩ := removes _ thinned
    exact last _ under same (.inl (finished fun x below => if_pos below))
  · have thinned : ∀ x, u x = v x ∨ (out ++ [stagingDir] <+: x ∧ u x = none) := by
      intro x
      rcases left x with kept | ⟨q, found', below, gone⟩
      · exact .inl kept
      · cases found.symm.trans found'
        exact .inr ⟨below, gone⟩
    obtain ⟨under, under', -, same⟩ := removes u thinned
    exact last _ under same (.inr ⟨may, under'⟩)

/-- The second part of an apply. -/
theorem finishApply_wp (law : Rereads env)
    (settles : opts.deleteRemoved = true → ∀ p ∈ plan.deleted, Removable out t p ∨ Kept plan out t p)
    (h : Underway up opts.deleteRemoved v) (housed : Housed up v) (placed : InPlace up v) {journal : ApplyJournal}
    (own : journal.planBlake3 = env.identity plan) :
    Applies up opts.deleteRemoved torn
      (fun _ u => Finished up opts.deleteRemoved u ∨
        (torn ∧ Underway up opts.deleteRemoved u))
      (finishApply env plan out opts journal) v := by
  rw [finishApply]
  apply Wp.bind
  apply makeLinks_wp h housed placed
  intro v₁ under₁ housed₁ placed₁ linked₁
  apply Wp.bind
  have go : ∀ w, Underway up opts.deleteRemoved w → Housed up w → InPlace up w →
      Linked up w → Cleared up opts.deleteRemoved w →
      Applies up opts.deleteRemoved torn
        (fun _ u => Finished up opts.deleteRemoved u ∨
          (torn ∧ Underway up opts.deleteRemoved u))
        (do
          saveJournal env out { journal with state := "committed" }
          let _ ← fs (.removeAll (inOut out stagingDir))
          let _ ← fs (.unlink (inOut out journalFile))
          pure ()) w := by
    intro w under housed placed linked cleared
    apply Wp.bind
    apply under.saves law (show ({ journal with state := "committed" } : ApplyJournal).planBlake3 = _ from own)
    intro z under' outside _ tmp saved
    apply clear_wp under' ?_ ?_ ?_ ?_ tmp saved
    · exact fun d mem kind => (outside _ (up.not_own mem)).trans (housed d mem kind)
    · exact fun e mem kind => (outside _ (up.not_own mem)).trans (placed e mem kind)
    · exact fun e mem kind => (outside _ (up.not_own mem)).trans (linked e mem kind)
    · exact fun deletes p mem removable =>
        (outside _ (up.not_own_former mem)).trans (cleared deletes p mem removable)
  cases deletes : opts.deleteRemoved with
  | false =>
      rw [deletes] at under₁ go
      rw [if_neg Bool.false_ne_true]
      apply Wp.pure
      exact go v₁ under₁ housed₁ placed₁ linked₁ fun no => by cases no
  | true =>
      rw [deletes] at under₁ go
      rw [if_pos rfl]
      apply deletions_wp (settles deletes) under₁ housed₁ placed₁ linked₁
      intro w under housed placed linked cleared
      exact go w under housed placed linked cleared

/-- The old build is where an apply starts. -/
theorem Updates.start (up : Updates env plan out t content) : Underway up deleting t := by
  refine ⟨up.outer, ⟨?_, fun id => ?_, ?_, ?_, fun p own n more => ?_⟩, .inl fun _ _ _ => rfl⟩
  · exact .inl (up.bare _ (own_staging []))
  · exact .inl (up.bare _ (own_staging _))
  · exact .inl (up.bare _ (own_journal []))
  · exact .inl (up.bare _ (own_tmp []))
  · exact up.bare _ (own_flat own n more)

variable (tells : Tells env plan out t content) (law : Rereads env) (unchecked : opts.checkOld = false)
  (settles : opts.deleteRemoved = true → ∀ p ∈ plan.deleted, Removable out t p ∨ Kept plan out t p)
include tells law unchecked settles

/-- From whatever a cut left an apply ends in the finished tree. -/
theorem applyDir_wp (h : Underway up opts.deleteRemoved v) :
    Applies up opts.deleteRemoved torn
      (fun _ u => Finished up opts.deleteRemoved u ∨
        (torn ∧ Underway up opts.deleteRemoved u))
      (applyDir env plan out out opts) v := by
  rw [applyDir]
  apply Wp.bind
  apply placeFiles_wp tells law unchecked h
  intro journal w own under housed placed
  exact finishApply_wp law settles under housed placed own

/-- Any number of runs that were cut off leaves the apply under way. -/
theorem Updates.cut (up : Updates env plan out t content)
    (cut : Relation.ReflTransGen (Prog.Reaches (Step (tears True)) (applyDir env plan out out opts)) t v) :
    Underway up opts.deleteRemoved v := by
  induction cut with
  | refl => exact up.start
  | tail _ run ih =>
      apply (applyDir_wp tells law unchecked settles ih).reaches _ run
      intro r w ended
      cases r with
      | error e => exact ended.2
      | ok _ => exact ended.elim (fun finished => finished.under) fun torn => torn.2

/-- A run that is not cut off ends in the finished tree. -/
theorem Underway.ends (h : Underway up opts.deleteRemoved v) {r : Except ApplyError Unit}
    (run : Prog.Runs (Step (tears False)) (applyDir env plan out out opts) v r u) :
    r = .ok () ∧ Finished up opts.deleteRemoved u := by
  have ended := (applyDir_wp tells law unchecked settles h).runs run
  cases r with
  | error e => exact ended.1.elim
  | ok _ => exact ⟨rfl, ended.resolve_right fun torn => torn.1⟩

end Ends

/-- However often an apply in place was cut off, and wherever: each managed path holds what
the old or what the new build has there, and the next run that is not cut off ends well and
in the tree of a run that never was. -/
theorem applyDir_resumes (env : ApplyEnv) (plan : OfflinePlan) (out : LinkFs.Path) (t v : Tree)
    (content : PlanEntry → Bytes) (opts : ApplyOptions) (updates : Updates env plan out t content)
    (tells : Tells env plan out t content) (law : Rereads env) (unchecked : opts.checkOld = false)
    (settles : opts.deleteRemoved = true → ∀ p ∈ plan.deleted, Removable out t p ∨ Kept plan out t p)
    (cut : Relation.ReflTransGen (Prog.Reaches (Step (tears True)) (applyDir env plan out out opts)) t v) :
    (∀ e ∈ plan.newEntries, e.kind = .file →
      v (placeOf out e.path) = t (placeOf out e.path) ∨ ∃ x, v (placeOf out e.path) = some (.file (content e) x)) ∧
    (∀ p ∈ plan.deleted, v (placeOf out p) = t (placeOf out p) ∨ v (placeOf out p) = none) ∧
    (∃ r w, Prog.Runs (Step (tears False)) (applyDir env plan out out opts) v r w) ∧
    ∀ r w r' w', Prog.Runs (Step (tears False)) (applyDir env plan out out opts) v r w →
      Prog.Runs (Step (tears False)) (applyDir env plan out out opts) t r' w' →
      r = .ok () ∧ r' = .ok () ∧ w = w' := by
  have under := updates.cut tells law unchecked settles cut
  refine ⟨under.outer.file, fun p mem => (under.outer.former p mem).imp_right fun gone => gone.1, ?_, ?_⟩
  · apply OpProg.Prog.runs_total
    intro o u
    obtain ⟨r, w, does⟩ := LinkFs.does_total o u
    exact ⟨r, w, .inl does⟩
  · intro r w r' w' again whole
    obtain ⟨ok, finished⟩ := under.ends tells law unchecked settles again
    obtain ⟨ok', finished'⟩ := updates.start.ends tells law unchecked settles whole
    exact ⟨ok, ok', finished.unique finished'⟩

section Sample

def oneFile : PlanEntry := ⟨0, "f", .file, 1, false, none, some zeroHash⟩

/-- A plan for a build of one file. -/
def filePlan : OfflinePlan where
  kind := .portable
  mode := .directory
  blockSize := 0
  oldLabel := ""
  oldSize := 0
  oldBlake3 := none
  newLabel := ""
  newSize := 0
  oldEntries := []
  newEntries := [oneFile]
  deleted := []
  ops := [.inlined 0 0 1 0]
  blob := [7]

def namedJournal : ApplyEnv := ⟨fun _ => zeroHash, fun _ => "", fun j => strBytes j.planBlake3,
  fun b => (utf8 b).map fun s => ⟨1, s, none, [], [], "", [], []⟩⟩

def bareRoot : Tree := fun p => if p = [] then some .dir else none

theorem bareRoot_none {p : LinkFs.Path} (h : p ≠ []) : bareRoot p = none := if_neg h

theorem filePlan_names : planNames "f" = [['f']] := by decide +kernel

theorem filePlan_updates : Updates namedJournal filePlan [] bareRoot fun _ => [7] := by
  have only : ∀ {e}, e ∈ filePlan.newEntries → e = oneFile := fun mem => List.mem_singleton.mp mem
  have names : planNames oneFile.path = [['f']] := filePlan_names
  constructor
  case directory => rfl
  case portable => rfl
  case standing =>
    intro q front
    rw [List.prefix_nil.mp front]
    rfl
  case grounded => exact fun x n there => absurd (bareRoot_none (by simp)) there
  case bare =>
    rintro x ⟨n, -, more, rfl⟩
    exact bareRoot_none (by simp)
  case safe => decide +kernel
  case ids => exact List.pairwise_singleton _ _
  case paths => exact List.pairwise_singleton _ _
  case names => decide +kernel
  case parents =>
    intro e mem front n above filled
    rw [only mem, names] at above
    exact absurd (by simpa using above.length_le) filled
  case kinds =>
    intro e mem node there
    rw [only mem, placeOf, names, bareRoot_none (by simp)] at there
    cases there
  case delivers =>
    intro e mem _
    rw [only mem]
    exact ⟨rfl, rfl, by rfl⟩
  case targets =>
    intro e mem link
    rw [only mem] at link
    cases link
  case sources => exact fun e mem => absurd mem List.not_mem_nil
  case former => exact fun p mem => absurd mem List.not_mem_nil

theorem file_cut : Prog.Reaches (Step (tears True)) (applyDir namedJournal filePlan [] [] ⟨false, false, none⟩) bareRoot
    (update bareRoot [stagingDir] (some .dir)) := by
  exact .inr ⟨_, _, .inl ⟨rfl, rfl⟩, .inr ⟨.ok (), _, .inl rfl, .inl rfl⟩⟩

/-- A run that was cut once the staging directory was made. -/
theorem applyDir_resumes_file : ∃ w,
    Prog.Runs (Step (tears False)) (applyDir namedJournal filePlan [] [] ⟨false, false, none⟩)
      (update bareRoot [stagingDir] (some .dir)) (.ok ()) w ∧
    Prog.Runs (Step (tears False)) (applyDir namedJournal filePlan [] [] ⟨false, false, none⟩) bareRoot (.ok ()) w := by
  have reread : Rereads namedJournal := fun j => by
    show ((utf8 (strBytes j.planBlake3)).map _).map ApplyJournal.planBlake3 = _
    rw [utf8_strBytes]
    rfl
  have tells : Tells namedJournal filePlan [] bareRoot fun _ => [7] := by
    intro e mem _ b x there
    rw [List.mem_singleton.mp mem, placeOf, show planNames oneFile.path = [['f']] from filePlan_names, bareRoot_none (by simp)] at there
    cases there
  have resumes := fun v => applyDir_resumes namedJournal filePlan [] bareRoot v (fun _ => [7]) ⟨false, false, none⟩ filePlan_updates
    tells reread rfl (fun no => by cases no)
  obtain ⟨-, -, ⟨r, w, again⟩, same⟩ := resumes _ (.single file_cut)
  obtain ⟨-, -, ⟨r', w', whole⟩, -⟩ := resumes _ .refl
  obtain ⟨rfl, rfl, rfl⟩ := same r w r' w' again whole
  exact ⟨w, again, whole⟩

end Sample

end Cavs
