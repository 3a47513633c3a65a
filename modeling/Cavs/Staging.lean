import Cavs.Underway

/-!
# Staging the files of a plan

Every file that is not in its place is written to a file of its own, from the old files or from
what was staged before. Until all of them are staged no old file is touched.
-/
namespace Cavs
open FileProg (Bytes)
open Function (update update_idem update_of_ne update_self)
open LinkFs (Comp Leads Name Node Tree below)
open OpProg (Cmd Prog)
open OpProg.Cmd (Wp attempt forEach throw)
open List (append_assoc append_nil mem_cons mem_cons_of_mem mem_cons_self prefix_refl)

variable {env : ApplyEnv} {plan : OfflinePlan} {out : LinkFs.Path} {t v u : Tree} {content : PlanEntry → Bytes}
  {deleting : Bool} {torn : Prop} {e : PlanEntry} {up : Updates env plan out t content}

section Journal

variable {journal : ApplyJournal}

/-- A run of an apply: whatever it leaves is under way, and it fails only where something may tear. -/
abbrev Applies (up : Updates env plan out t content) (deleting : Bool) (torn : Prop) {α : Type} (Q : α → Tree → Prop)
    (m : Apply α) (v : Tree) : Prop :=
  ApplyWp torn (Underway up deleting)
    (fun _ u => torn ∧ Underway up deleting u) Q m v


theorem Sourced.congr (h : Sourced up v) (same : ∀ x, ¬ Own out x → u x = v x)
    (staged : ∀ id, u (stagedPlace out id) = v (stagedPlace out id)) : Sourced up u := by
  rcases h with untouched | verified
  · refine .inl fun x off there => ?_
    rw [same x off, untouched x off there]
  · refine .inr fun e mem kind => ?_
    rw [Final, InStaging, same _ (up.not_own mem), staged]
    exact verified e mem kind

theorem Underway.tmp (h : Underway up deleting v) (b : Bytes) (x : Bool) :
    Underway up deleting (update v (out ++ [journalTmp]) (some (.file b x))) := by
  have off : ∀ y, ¬ out ++ [journalTmp] <+: y → update v (out ++ [journalTmp]) (some (.file b x)) y = v y := by
    intro y off
    apply update_of_ne
    rintro rfl
    exact off (prefix_refl _)
  have outside : ∀ y, ¬ Own out y → update v (out ++ [journalTmp]) (some (.file b x)) y = v y :=
    fun y out_ => off y fun front => out_ ⟨_, by decide, front⟩
  have staged : ∀ id, update v (out ++ [journalTmp]) (some (.file b x)) (stagedPlace out id) =
      v (stagedPlace out id) := fun id => off _ (apart (by decide) _)
  refine ⟨h.outer.congr outside, ⟨?_, fun id => ?_, ?_, ?_, ?_⟩, h.sourced.congr outside staged⟩
  · rw [off _ (apart (by decide) _)]
    exact h.tools.staging
  · rw [staged]
    exact h.tools.staged id
  · rw [off _ (apart (by decide) _)]
    exact h.tools.journal
  · exact .inr ⟨b, x, update_self ..⟩
  · intro p own n more
    rw [update_of_ne]
    · exact h.tools.flat p own n more
    · intro same
      have long := congrArg List.length same
      rcases own with rfl | rfl | ⟨id, rfl⟩
      · simp at long
      · simp at long
      · simp [stagedPlace] at long

/-- The tree after the journal was moved to its place. -/
theorem Underway.saved (h : Underway up deleting v) {b : Bytes} (decoded : env.decodeJournal b = some journal)
    (own : journal.planBlake3 = env.identity plan) (x : Bool) :
    Underway up deleting
      (Tree.moved (update v (out ++ [journalTmp]) (some (.file b x))) (out ++ [journalTmp]) (out ++ [journalFile])) := by
  have before := h.tmp b x
  obtain ⟨u, placed⟩ : ∃ u : Tree, u = update v (out ++ [journalTmp]) (some (.file b x)) := ⟨_, rfl⟩
  rw [← placed] at before ⊢
  have there : u (out ++ [journalTmp]) = some (.file b x) := by rw [placed, update_self]
  have outside : ∀ y, ¬ Own out y → u.moved (out ++ [journalTmp]) (out ++ [journalFile]) y = u y :=
    fun y off => moved_off (fun front => off ⟨_, by decide, front⟩) fun front => off ⟨_, by decide, front⟩
  have staging : ∀ more, u.moved (out ++ [journalTmp]) (out ++ [journalFile]) (out ++ stagingDir :: more) =
      u (out ++ stagingDir :: more) := fun more => moved_off (apart (by decide) _) (apart (by decide) _)
  have at_ : ∀ more, u.moved (out ++ [journalTmp]) (out ++ [journalFile]) (out ++ [journalFile] ++ more) =
      u (out ++ [journalTmp] ++ more) := moved_to
  have gone : ∀ more, u.moved (out ++ [journalTmp]) (out ++ [journalFile]) (out ++ [journalTmp] ++ more) = none := by
    intro more
    apply moved_from (List.prefix_append _ _)
    rw [append_assoc]
    exact apart (by decide) _
  refine ⟨before.outer.congr outside, ⟨?_, fun id => ?_, ?_, ?_, ?_⟩,
    before.sourced.congr outside fun id => staging _⟩
  · rw [staging]
    exact before.tools.staging
  · rw [stagedPlace, staging]
    exact before.tools.staged id
  · refine .inr ⟨b, x, journal, ?_, decoded, own⟩
    have here := at_ []
    rw [append_nil, append_nil, there] at here
    exact here
  · have here := gone []
    rw [append_nil] at here
    exact .inl here
  · rintro p (rfl | rfl | ⟨id, rfl⟩) n more
    · rw [at_]
      exact before.tools.flat _ (.inr (.inl rfl)) n more
    · exact gone _
    · have same := staging (stagedName id :: n :: more)
      rw [stagedPlace, append_assoc]
      refine same.trans ?_
      have flat := before.tools.flat _ (.inr (.inr ⟨id, rfl⟩)) n more
      rwa [stagedPlace, append_assoc] at flat

theorem Underway.saves (law : Rereads env) (h : Underway up deleting v)
    (own : journal.planBlake3 = env.identity plan) {Q : Unit → Tree → Prop}
    (done : ∀ w, Underway up deleting w → (∀ x, ¬ Own out x → w x = v x) →
      (∀ more, w (out ++ stagingDir :: more) = v (out ++ stagingDir :: more)) → w (out ++ [journalTmp]) = none →
      (∃ b x, w (out ++ [journalFile]) = some (.file b x)) → Q () w) :
    Applies up deleting torn Q (saveJournal env out journal) v := by
  apply saveJournal_wp h.outer.standing h.tools.tmp ?_ h (h.tmp) (fun may _ b x => ⟨may, h.tmp b x⟩) fun x => ?_
  · intro stands
    rcases h.tools.journal with none_ | ⟨b, x, j, file, -⟩
    · rw [none_] at stands
      cases stands
    · rw [file] at stands
      cases stands
  · obtain ⟨reread, decoded, same⟩ := Option.map_eq_some_iff.mp (law journal)
    apply done _ (h.saved decoded (same.trans own) x)
    · intro y off
      rw [moved_off (fun front => off ⟨_, by decide, front⟩) fun front => off ⟨_, by decide, front⟩]
      apply update_of_ne
      rintro rfl
      exact off (own_tmp [])
    · intro more
      rw [moved_off (apart (by decide) _) (apart (by decide) _)]
      apply update_of_ne
      intro same
      have other : ¬ out ++ [journalTmp] <+: out ++ stagingDir :: more := apart (by decide) more
      rw [same] at other
      exact other (prefix_refl _)
    · have gone : ∀ w : Tree, w.moved (out ++ [journalTmp]) (out ++ [journalFile]) (out ++ [journalTmp]) = none :=
        fun w => moved_from (prefix_refl _) (apart (by decide) [])
      exact gone _
    · refine ⟨env.encodeJournal journal, x, ?_⟩
      have here := moved_to (v := update v (out ++ [journalTmp]) (some (.file (env.encodeJournal journal) x)))
        (p := out ++ [journalTmp]) (q := out ++ [journalFile]) []
      rwa [append_nil, append_nil, update_self] at here

end Journal

section Stage
variable {Q : Bool → Tree → Prop} {p : LinkFs.Path} {journal : ApplyJournal}

theorem stagedPath_eq (id : UInt32) : stagedPath out id = (stagedPlace out id).map Comp.name := rfl

theorem stagedPlace_eq (id : UInt32) : stagedPlace out id = out ++ [stagingDir] ++ [stagedName id] := by
  rw [stagedPlace, append_assoc]
  rfl

theorem own_stagedPlace (id : UInt32) : Own out (stagedPlace out id) := own_staging [stagedName id]

theorem own_staged (id : UInt32) (more : LinkFs.Path) : Own out (stagedPlace out id ++ more) := (own_stagedPlace id).below

/-- Below the apply's own files everything is its own. -/
theorem own_flat (file : p = out ++ [journalFile] ∨ p = out ++ [journalTmp] ∨ ∃ id, p = stagedPlace out id)
    (n : Name) (more : LinkFs.Path) : Own out (p ++ n :: more) := by
  rcases file with rfl | rfl | ⟨id, rfl⟩
  · exact (own_journal []).below
  · exact (own_tmp []).below
  · exact own_staged id _

theorem staged_not_above (id : UInt32) : ¬ stagedPlace out id <+: out ++ [stagingDir] := by
  intro front
  have long := front.length_le
  simp [stagedPlace] at long

theorem staged_beside (id : UInt32) {n : Name} (differ : n ≠ stagingDir) (more : LinkFs.Path) :
    ¬ stagedPlace out id <+: out ++ n :: more := by
  intro front
  exact apart (fun same => differ same.symm) more ((show out ++ [stagingDir] <+: stagedPlace out id from
    (List.prefix_append_right_inj _).mpr ⟨[stagedName id], rfl⟩).trans front)

theorem staged_leads (stands : ∀ q, q <+: out → v q = some .dir) (staging : v (out ++ [stagingDir]) = some .dir)
    (id : UInt32) : Leads v (stagedPlace out id) := by
  rw [stagedPlace_eq]
  apply leads_in
  intro q front
  rcases List.prefix_concat_iff.mp front with rfl | above
  · exact staging
  · exact stands q above

theorem staged_apart {id id' : UInt32} (differ : id' ≠ id) (more : LinkFs.Path) :
    ¬ stagedPlace out id' <+: stagedPlace out id ++ more := by
  rw [stagedPlace_eq, stagedPlace_eq, append_assoc (out ++ [stagingDir]) [stagedName id] more]
  exact apart (fun same => differ (stagedName_inj same)) more


theorem Updates.join (up : Updates env plan out t content) (mem : e ∈ plan.newEntries) :
    join out e.path = (placeOf out e.path).map Comp.name :=
  join_safe (up.safe e mem) out

/-- The place of a file holds a file or nothing. -/
theorem Outer.file_or_none (h : Outer up deleting v) (mem : e ∈ plan.newEntries)
    (kind : e.kind = .file) : v (placeOf out e.path) = none ∨ ∃ b x, v (placeOf out e.path) = some (.file b x) := by
  rcases h.file e mem kind with same | ⟨x, final⟩
  · rw [same]
    cases node : t (placeOf out e.path) with
    | none => exact .inl rfl
    | some n =>
        have of_kind := up.kinds e mem n node
        rw [kind] at of_kind
        cases n with
        | file b x => exact .inr ⟨b, x, rfl⟩
        | dir => cases of_kind
        | link => cases of_kind
  · exact .inr ⟨_, x, final⟩

variable (tells : Tells env plan out t content)
include tells

omit tells in
/-- A file matches an entry when it has its content, and then only. -/
theorem matches_wp (up : Updates env plan out t content) (mem : e ∈ plan.newEntries) (kind : e.kind = .file)
    {I : Tree → Prop} {E : ApplyError → Tree → Prop} (here : I v)
    (node : (LinkFs.nodeAt v true (p.map Comp.name) = none ∧ v p = none) ∨ (Leads v p ∧ ∃ b x, v p = some (.file b x) ∧
      (b.length = (content e).length → env.hash b = env.hash (content e) → b = content e)))
    (yes : (∃ x, v p = some (.file (content e) x)) → Q true v)
    (no : (¬ ∃ x, v p = some (.file (content e) x)) → Q false v) :
    ApplyWp torn I E Q (fileMatches env (p.map Comp.name) e.size (env.hash (content e))) v := by
  rcases node with ⟨absent, none_⟩ | ⟨leads, b, x, file, same_of⟩
  · apply fileMatches_none absent here
    apply no
    rintro ⟨x, file⟩
    rw [none_] at file
    cases file
  · apply fileMatches_file leads file here
    by_cases same : b = content e
    · subst same
      rw [decide_eq_true ⟨(up.delivers e mem kind).2.1, rfl⟩]
      exact yes ⟨x, file⟩
    · rw [decide_eq_false fun both => same (same_of (both.1.trans (up.delivers e mem kind).2.1.symm) both.2)]
      apply no
      rintro ⟨y, final⟩
      rw [file] at final
      cases final
      exact same rfl

theorem matches_place (h : Underway up deleting v) (mem : e ∈ plan.newEntries) (kind : e.kind = .file)
    (yes : Final up v e → Q true v) (no : ¬ Final up v e → Q false v) :
    Applies up deleting torn Q (fileMatches env (join out e.path) e.size (env.hash (content e))) v := by
  rw [up.join mem]
  apply matches_wp up mem kind h ?_ yes no
  rcases h.outer.file_or_none mem kind with none_ | ⟨b, x, file⟩
  · exact .inl ⟨LinkFs.nodeAt_none (h.outer.direct mem none_) none_, none_⟩
  · refine .inr ⟨h.outer.leads (up.not_own mem) (by rw [file]; exact Option.some_ne_none _), b, x, file, fun _ hashed => ?_⟩
    rcases h.outer.file e mem kind with same | ⟨y, final⟩
    · exact tells e mem kind b x (same ▸ file) hashed
    · rw [file] at final
      cases final
      rfl

omit tells in
theorem matches_staged (h : Underway up deleting v) (staging : v (out ++ [stagingDir]) = some .dir)
    (mem : e ∈ plan.newEntries) (kind : e.kind = .file) (yes : InStaging up v e → Q true v)
    (no : ¬ InStaging up v e → Q false v) :
    Applies up deleting torn Q
      (fileMatches env (stagedPath out e.entryId) e.size (env.hash (content e))) v := by
  rw [stagedPath_eq]
  have leads := staged_leads h.outer.standing staging e.entryId
  apply matches_wp up mem kind h ?_ yes no
  rcases h.tools.staged e.entryId with none_ | ⟨b, x, file, begins⟩
  · refine .inl ⟨?_, none_⟩
    rw [LinkFs.nodeAt_leads leads fun _ absolute target link => ?_, none_]
    rw [none_] at link
    cases link
  · exact .inr ⟨leads, b, x, file, fun long _ => (begins e mem rfl).eq_of_length long⟩

omit tells

/-- A file that is being staged while no old file was touched. -/
theorem Underway.stage (h : Underway up deleting v) (untouched : ∀ x, ¬ Own out x → t x ≠ none → v x = t x)
    (id : UInt32) (b : Bytes) (x : Bool) (begins : ∀ e ∈ plan.newEntries, e.entryId = id → b <+: content e) :
    Underway up deleting (update v (stagedPlace out id) (some (.file b x))) := by
  have off : ∀ y, ¬ stagedPlace out id <+: y → update v (stagedPlace out id) (some (.file b x)) y = v y := by
    intro y off
    apply update_of_ne
    rintro rfl
    exact off (prefix_refl _)
  have outside : ∀ y, ¬ Own out y → update v (stagedPlace out id) (some (.file b x)) y = v y := by
    intro y out_
    apply off
    rintro ⟨more, rfl⟩
    exact out_ (own_staged id more)
  refine ⟨h.outer.congr outside, ⟨?_, fun id' => ?_, ?_, ?_, ?_⟩, .inl fun y out_ there => ?_⟩
  · rw [update_of_ne]
    · exact h.tools.staging
    · intro same
      have long := congrArg List.length same
      simp [stagedPlace] at long
  · by_cases same : id' = id
    · subst same
      exact .inr ⟨b, x, update_self .., begins⟩
    · have away : ¬ stagedPlace out id <+: stagedPlace out id' ++ [] := staged_apart (fun equal => same equal.symm) []
      rw [append_nil] at away
      rw [off _ away]
      exact h.tools.staged id'
  · rw [off _ (staged_beside id (by decide) _)]
    exact h.tools.journal
  · rw [off _ (staged_beside id (by decide) _)]
    exact h.tools.tmp
  · intro p own n more
    rw [update_of_ne]
    · exact h.tools.flat p own n more
    · intro same
      rcases own with rfl | rfl | ⟨id', rfl⟩
      · rw [append_assoc] at same
        have other : ¬ stagedPlace out id <+: out ++ journalFile :: n :: more := staged_beside id (by decide) _
        rw [← same] at other
        exact other (prefix_refl _)
      · rw [append_assoc] at same
        have other : ¬ stagedPlace out id <+: out ++ journalTmp :: n :: more := staged_beside id (by decide) _
        rw [← same] at other
        exact other (prefix_refl _)
      · have long := congrArg List.length same
        simp [stagedPlace] at long
  · rw [outside y out_, untouched y out_ there]

/-- Old files that were not touched are read as they were. -/
theorem Underway.reads {F : Bytes → Tree} {whole : Bytes} (h : ∀ c, c <+: whole → Underway up deleting (F c))
    (untouched : ∀ c x, ¬ Own out x → t x ≠ none → F c x = t x) : SourceReads plan out t F whole := by
  intro id source offset n b found read c front
  rw [oldPath] at found
  obtain ⟨e, listed, rfl⟩ := Option.map_eq_some_iff.mp found
  obtain ⟨safe, bytes, x, file⟩ := up.sources e (List.mem_of_find?_eq_some listed)
  have there : t (placeOf out e.path) ≠ none := by
    rw [file]
    exact Option.some_ne_none _
  have off : ¬ Own out (placeOf out e.path) := fun own => there (up.bare _ own)
  have same : F c (placeOf out e.path) = some (.file bytes x) := (untouched c _ off there).trans file
  have leads : Leads (F c) (placeOf out e.path) := (h c front).outer.leads off (by rw [same]; exact Option.some_ne_none _)
  rw [join_safe safe, show below out (planNames e.path) = (placeOf out e.path).map Comp.name from rfl] at read ⊢
  rw [LinkFs.readSome, LinkFs.readAll_leads (up.leads there) file] at read
  rw [LinkFs.readSome, LinkFs.readAll_leads leads same]
  exact read

variable (tells : Tells env plan out t content)
include tells

/-- An entry is left alone where it is in place, and staged whole otherwise. -/
theorem stageEntry_wp (h : Underway up deleting v) (staging : v (out ++ [stagingDir]) = some .dir)
    (mem : e ∈ plan.newEntries) (kind : e.kind = .file) {Q : Option PlanEntry → Tree → Prop}
    (noop : Final up v e → Q none v) (kept : ∀ w, Underway up deleting w →
      (∀ x, ¬ stagedPlace out e.entryId <+: x → w x = v x) → InStaging up w e → Q (some e) w) :
    Applies up deleting torn Q (stageEntry env plan out out journal e) v := by
  obtain ⟨hashed, -, writes⟩ := up.delivers e mem kind
  rw [stageEntry, hashed]
  apply Wp.bind
  apply matches_place tells h mem kind
  · intro final
    exact Wp.pure (noop final)
  intro notFinal
  apply Wp.bind
  apply matches_staged h staging mem kind
  · intro staged
    exact Wp.pure (kept v h (fun _ _ => rfl) staged)
  intro notStaged
  -- so nothing was touched yet, and the old files are there to copy from
  have untouched : ∀ x, ¬ Own out x → t x ≠ none → v x = t x := by
    rcases h.sourced with untouched | verified
    · exact untouched
    · rcases verified e mem kind with final | staged
      · exact absurd final notFinal
      · exact absurd staged notStaged
  have leads := staged_leads h.outer.standing staging e.entryId
  obtain ⟨x, created⟩ : ∃ x, LinkFs.createNode (v (stagedPlace out e.entryId)) = .ok (some (.file [] x)) := by
    rcases h.tools.staged e.entryId with none_ | ⟨b, x, file, -⟩
    · exact ⟨false, by rw [none_]; rfl⟩
    · exact ⟨x, by rw [file]; rfl⟩
  have last : true = true → ∀ absolute target, v (stagedPlace out e.entryId) ≠ some (.link absolute target) := by
    intro _ absolute target link
    rw [link] at created
    cases created
  let F : Bytes → Tree := fun b => update v (stagedPlace out e.entryId) (some (.file b x))
  have under : ∀ b, b <+: content e → Underway up deleting (F b) := by
    intro b begins
    apply h.stage untouched e.entryId b x
    intro d listed same
    rw [up.same_id listed mem same]
    exact begins
  have file : ∀ b, F b (stagedPlace out e.entryId) = some (.file b x) := fun b => update_self ..
  have away : ∀ b y, ¬ stagedPlace out e.entryId <+: y → F b y = v y := by
    intro b y off
    apply update_of_ne
    rintro rfl
    exact off (prefix_refl _)
  have outside : ∀ b y, ¬ Own out y → F b y = v y := by
    intro b y off
    apply away
    rintro ⟨more, rfl⟩
    exact off (own_staged _ more)
  have leads' : ∀ b, Leads (F b) (stagedPlace out e.entryId) := by
    intro b
    apply staged_leads
    · intro q front
      rw [outside b q (not_own_above front), h.outer.standing q front]
    · rw [away b _ (staged_not_above _), staging]
  have fills : Fills torn (Underway up deleting)
      (fun _ u => torn ∧ Underway up deleting u) (stagedPlace out e.entryId) x F (content e) :=
    ⟨leads', file, fun b c => update_idem .., under, fun may _ b begins => ⟨may, under b begins⟩⟩
  have reads : SourceReads plan out t F (content e) :=
    Underway.reads under fun c y off there => (outside c y off).trans (untouched y off there)
  rw [stagedPath_eq]
  apply Wp.bind
  apply create_wp h (LinkFs.onNode_ok leads last created)
  apply Wp.bind
  apply Wp.pure
  apply Wp.bind
  change ApplyWp _ _ _ _ _ (F [])
  apply stageOps_wp fills reads writes (prefix_refl _)
  rw [List.nil_append]
  apply Wp.bind
  apply hashFile_wp (leads' _) (file _) (under _ (prefix_refl _))
  change ApplyWp _ _ _ _ (if env.hash (content e) ≠ env.hash (content e) then _ else _) _
  rw [if_neg fun differ => differ rfl]
  exact Wp.pure (kept _ (under _ (prefix_refl _)) (fun y off => away _ y off) ⟨x, file _⟩)

/-- After staging every file is in its place or staged whole. -/
theorem stageAll_wp {l : List PlanEntry} (listed : l.Sublist plan.newEntries) (h : Underway up deleting v)
    (staging : v (out ++ [stagingDir]) = some .dir) {Q : List PlanEntry → Tree → Prop}
    (done : ∀ staged w, Underway up deleting w →
      (∀ x, (∀ e ∈ l, ¬ stagedPlace out e.entryId <+: x) → w x = v x) →
      (∀ e ∈ l, e.kind = .file → Final up w e ∨ e ∈ staged) →
      (∀ e ∈ staged, e ∈ l ∧ e.kind = .file ∧ InStaging up w e) → staged.Sublist l → Q staged w) :
    Applies up deleting torn Q (stageAll env plan out out journal l) v := by
  induction l generalizing v Q with
  | nil => exact Wp.pure (done [] v h (fun _ _ => rfl) (fun e mem => by cases mem) (fun e mem => by cases mem) (.refl _))
  | cons e rest ih =>
      have mem : e ∈ plan.newEntries := listed.subset mem_cons_self
      have others : ∀ d ∈ rest, d.entryId ≠ e.entryId :=
        fun d there same => (List.pairwise_cons.mp (up.ids.sublist listed)).1 d there same.symm
      have own : ∀ id, ¬ stagedPlace out id <+: placeOf out e.path := by
        rintro id ⟨more, same⟩
        exact up.not_own mem (same ▸ own_staged id more)
      have skip : (e.kind = .file → Final up v e) → Applies up deleting torn Q
          (do return (none : Option PlanEntry).toList ++ (← stageAll env plan out out journal rest)) v := by
        intro final
        apply Wp.bind
        apply ih ((List.sublist_cons_self _ _).trans listed) h staging
        intro staged w under away placed stagedAll sub
        apply Wp.pure
        apply done staged w under (fun x off => away x fun d there => off d (mem_cons_of_mem _ there))
        · intro d there file
          rcases mem_cons.mp there with rfl | there
          · left
            rw [Final, away _ fun d _ => own _]
            exact final file
          · exact placed d there file
        · intro d there
          obtain ⟨inside, file, whole⟩ := stagedAll d there
          exact ⟨mem_cons_of_mem _ inside, file, whole⟩
        · exact sub.cons _
      rw [stageAll]
      apply Wp.bind
      by_cases kind : e.kind = .file
      · rw [if_pos kind]
        apply stageEntry_wp tells h staging mem kind
        · exact fun final => skip fun _ => final
        · intro u under away whole
          have staging' : u (out ++ [stagingDir]) = some .dir := by rw [away _ (staged_not_above _), staging]
          apply Wp.bind
          apply ih ((List.sublist_cons_self _ _).trans listed) under staging'
          intro staged w under' away' placed stagedAll sub
          apply Wp.pure
          have same : w (stagedPlace out e.entryId) = u (stagedPlace out e.entryId) := by
            apply away'
            intro d there
            have apart_ : ¬ stagedPlace out d.entryId <+: stagedPlace out e.entryId ++ [] := staged_apart (others d there) []
            rwa [append_nil] at apart_
          apply done (e :: staged) w under'
          · intro x off
            rw [away' x fun d there => off d (mem_cons_of_mem _ there), away x (off e mem_cons_self)]
          · intro d there file
            rcases mem_cons.mp there with rfl | there
            · exact .inr mem_cons_self
            · exact (placed d there file).imp_right (mem_cons_of_mem _)
          · intro d there
            rcases mem_cons.mp there with rfl | there
            · refine ⟨mem_cons_self, kind, ?_⟩
              rw [InStaging, same]
              exact whole
            · obtain ⟨inside, file, whole⟩ := stagedAll d there
              exact ⟨mem_cons_of_mem _ inside, file, whole⟩
          · exact sub.cons_cons _
      · rw [if_neg kind]
        apply Wp.pure
        exact skip fun file => absurd file kind

end Stage

end Cavs
