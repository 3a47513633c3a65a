import Cavs.Staging

/-!
# Committing what is staged

The directories are made, the staged files are moved to their places, the links are put and the
former paths removed. From the first move on no old file is needed: each new one is in its place or
staged whole.
-/
namespace Cavs
open FileProg (Bytes)
open Function (update update_idem update_of_ne update_self)
open LinkFs (Comp Leads Name Node Tree below nodeAt_leads nodeAt_none onNode_ok)
open OpProg (Cmd Prog)
open OpProg.Cmd (Wp attempt forEach throw)
open List (append_assoc append_nil mem_cons mem_filter not_mem_nil prefix_concat_iff prefix_refl)

variable {env : ApplyEnv} {plan : OfflinePlan} {out : LinkFs.Path} {t v u : Tree} {content : PlanEntry → Bytes}
  {deleting : Bool} {torn : Prop} {e : PlanEntry} {up : Updates env plan out t content} {Q : Unit → Tree → Prop}

section Commit

/-- Every directory of the plan stands. -/
def Housed (up : Updates env plan out t content) (v : Tree) : Prop :=
  ∀ d ∈ plan.newEntries, d.kind = .directory → v (placeOf out d.path) = some .dir

/-- Entries of another kind change no directory of the plan. -/
theorem Housed.keep (housed : Housed up v) (kind : e.kind ≠ .directory)
    (other : ∀ d ∈ plan.newEntries, d ≠ e → u (placeOf out d.path) = v (placeOf out d.path)) : Housed up u :=
  fun d listed directory => (other d listed fun same => kind (same ▸ directory)).trans (housed d listed directory)

/-- Some of the apply's own files went. -/
theorem Tools.thin (h : Tools up v) (own : ∀ x, Own out x → u x = v x ∨ u x = none) :
    Tools up u := by
  refine ⟨?_, fun id => ?_, ?_, ?_, fun p file n more => ?_⟩
  · rcases own _ (own_staging []) with kept | gone
    · rw [kept]
      exact h.staging
    · exact .inl gone
  · rcases own _ (own_stagedPlace id) with kept | gone
    · rw [kept]
      exact h.staged id
    · exact .inl gone
  · rcases own _ (own_journal []) with kept | gone
    · rw [kept]
      exact h.journal
    · exact .inl gone
  · rcases own _ (own_tmp []) with kept | gone
    · rw [kept]
      exact h.tmp
    · exact .inl gone
  · rcases own _ (own_flat file n more) with kept | gone
    · rw [kept, h.flat p file n more]
    · exact gone

theorem Tools.congr (h : Tools up v) (same : ∀ x, Own out x → u x = v x) : Tools up u :=
  h.thin fun x own => .inl (same x own)


theorem Underway.made (h : Underway up deleting v) (mem : e ∈ plan.newEntries) (kind : e.kind = .directory)
    {q : LinkFs.Path} (front : q <+: placeOf out e.path) :
    Underway up deleting (made v q) := by
  have own : ∀ x, Own out x → Cavs.made v q x = v x :=
    fun x own => made_of_not fun above => up.not_own_front mem (above.trans front) own
  have staged : ∀ id, Cavs.made v q (stagedPlace out id) = v (stagedPlace out id) := fun id => own _ (own_stagedPlace id)
  refine ⟨h.outer.made mem kind front, h.tools.congr own, ?_⟩
  rcases h.sourced with untouched | verified
  · refine .inl fun x off there => ?_
    by_cases above : x <+: q
    · rw [made_above above]
      rcases up.planned mem kind (above.trans front) with higher | ⟨d, listed, kind', rfl⟩
      · exact (up.standing x higher).symm
      · exact ((up.old listed kind').resolve_left there).symm
    · rw [made_of_not above, untouched x off there]
  · refine .inr fun d listed kind' => ?_
    rw [Final, InStaging, staged, made_of_not]
    · exact verified d listed kind'
    · intro above
      rcases up.planned mem kind (above.trans front) with higher | ⟨d', listed', kind'', same⟩
      · exact not_above_place higher
      · rw [up.same_place listed' listed same, kind'] at kind''
        cases kind''

theorem makeDirectory_wp (h : Underway up deleting v) (mem : e ∈ plan.newEntries) (kind : e.kind = .directory)
    (done : Q () (made v (placeOf out e.path))) :
    Applies up deleting torn Q (makeDirectory out e) v := by
  have passable := h.outer.passable mem kind
  rw [makeDirectory, up.join mem]
  apply Wp.bind
  apply metadata_wp h
  rcases passable.clear _ (prefix_refl _) with stands | gone
  · have leads := h.outer.leads (up.not_own mem) (by rw [stands]; exact Option.some_ne_none _)
    rw [nodeAt_leads leads fun _ absolute target link => ?_, stands]
    · rw [made_eq fun q front => passable.stands stands front] at done
      exact Wp.pure done
    · rw [stands] at link
      cases link
  · rw [nodeAt_none (h.outer.direct mem gone) gone]
    exact createDirAll_wp passable (fun q front => h.made mem kind front) done

/-- The directories of the plan, one after another. -/
theorem makeDirectories_wp (h : Underway up deleting v)
    (done : ∀ w, Underway up deleting w → Housed up w → (∀ x, Own out x → w x = v x) →
      (∀ e ∈ plan.newEntries, e.kind = .file → w (placeOf out e.path) = v (placeOf out e.path)) → Q () w) :
    Applies up deleting torn Q
      (forEach (plan.newEntries.filter fun e => e.kind = .directory) (makeDirectory out)) v := by
  refine Wp.mono (Wp.forEach (fun rest w => Underway up deleting w ∧
    (∀ d ∈ plan.newEntries, d.kind = .directory → d ∈ rest ∨ w (placeOf out d.path) = some .dir) ∧
    (∀ x, Own out x → w x = v x) ∧
    ∀ e ∈ plan.newEntries, e.kind = .file → w (placeOf out e.path) = v (placeOf out e.path)) ?_ ?_) ?_
  · rintro e rest w there ⟨under, housed, own, files⟩
    obtain ⟨mem, kind⟩ := mem_filter.mp there
    replace kind := of_decide_eq_true kind
    apply makeDirectory_wp under mem kind
    refine ⟨under.made mem kind (prefix_refl _), fun d listed kind' => ?_, fun x inside => ?_, fun d listed kind' => ?_⟩
    · rcases housed d listed kind' with waiting | stands
      · rcases mem_cons.mp waiting with rfl | waiting
        · exact .inr (made_above (prefix_refl _))
        · exact .inl waiting
      · right
        by_cases above : placeOf out d.path <+: placeOf out e.path
        · exact made_above above
        · rw [made_of_not above, stands]
    · rw [made_of_not fun above => up.not_own_front mem above inside, own x inside]
    · rw [made_of_not, files d listed kind']
      intro above
      rcases up.planned mem kind above with higher | ⟨d', listed', kind'', same⟩
      · exact not_above_place higher
      · rw [up.same_place listed' listed same, kind'] at kind''
        cases kind''
  · exact ⟨h, fun d listed kind => .inl (mem_filter.mpr ⟨listed, decide_eq_true kind⟩), fun _ _ => rfl, fun _ _ _ => rfl⟩
  · rintro ⟨⟩ w ⟨under, housed, own, files⟩
    exact done w under (fun d listed kind => (housed d listed kind).resolve_left (not_mem_nil)) own files

/-- Where all directories stand, so does the way to every entry. -/
theorem Outer.way (h : Outer up deleting v) (housed : Housed up v)
    (mem : e ∈ plan.newEntries) : Leads v (placeOf out e.path) := by
  intro q n front
  rcases up.above mem front with above | ⟨d, listed, kind, rfl⟩
  · exact h.standing q above
  · exact housed d listed kind

/-- Below what is no directory there is nothing. -/
theorem Outer.leaf (h : Outer up deleting v) {y : LinkFs.Path} (notDir : v y ≠ some .dir) {n : Name}
    {more : LinkFs.Path} (off' : ¬ Own out (y ++ n :: more)) :
    v (y ++ n :: more) = none := by
  by_contra there
  exact notDir (h.leads off' there y n ⟨more, by rw [append_assoc]; rfl⟩)

theorem parent_stands (leads : Leads v (placeOf out e.path)) :
    ∀ q, q <+: (placeOf out e.path).dropLast → v q = some .dir := by
  have filled : placeOf out e.path ≠ [] := fun none_ => planNames_ne_nil _ (List.append_eq_nil_iff.mp none_).2
  rintro q ⟨rest, split⟩
  have whole := List.dropLast_append_getLast filled
  rw [← split] at whole
  cases rest with
  | nil => exact leads q _ ⟨[], by rw [append_nil, ← whole, append_nil]⟩
  | cons m rest =>
      apply leads q m
      refine ⟨rest ++ [(placeOf out e.path).getLast filled], Eq.trans ?_ whole⟩
      simp

theorem Outer.not_dir (h : Outer up deleting v) (mem : e ∈ plan.newEntries)
    (kind : e.kind = .file) : v (placeOf out e.path) ≠ some .dir := by
  intro stands
  rcases h.file_or_none mem kind with none_ | ⟨b, x, file⟩
  · rw [none_] at stands
    cases stands
  · rw [file] at stands
    cases stands

/-- Another file in its place, and the staged ones kept. -/
theorem Verified.put (up : Updates env plan out t content) (verified : Verified up v) (mem : e ∈ plan.newEntries)
    (same : ∀ x, ¬ Own out x → x ≠ placeOf out e.path → u x = v x) (final : Final up u e)
    (kept : ∀ d ∈ plan.newEntries, d ≠ e → InStaging up v d → InStaging up u d) :
    Verified up u := by
  intro d listed kind
  by_cases here : d = e
  · rw [here]
    exact .inl final
  · rw [Final, same _ (up.not_own listed) fun equal => here (up.same_place listed mem equal)]
    exact (verified d listed kind).imp_right (kept d listed here)

theorem not_below_place (up : Updates env plan out t content) (mem : e ∈ plan.newEntries)
    {x : LinkFs.Path} (own : Own out x) : ¬ placeOf out e.path <+: x := by
  rintro ⟨more, rfl⟩
  exact not_own_below (planNames_ne_nil _) (up.not_own mem) own

section Placing
variable (h : Underway up deleting v) (verified : Verified up v)
include h verified

/-- A file came to its place. -/
theorem Underway.put (mem : e ∈ plan.newEntries) (kind : e.kind = .file)
    (same : ∀ x, ¬ Own out x → x ≠ placeOf out e.path → u x = v x) (final : Final up u e)
    (leads : Leads v (placeOf out e.path)) (tools : Tools up u)
    (kept : ∀ d ∈ plan.newEntries, d ≠ e → InStaging up v d → InStaging up u d) :
    Underway up deleting u :=
  ⟨h.outer.set mem same (h.outer.not_dir mem kind) (fun _ => leads) (.inl ⟨kind, final⟩), tools,
    Or.inr (verified.put up mem same final kept)⟩

/-- The permissions of a file in its place are set. -/
theorem chmod_wp (mem : e ∈ plan.newEntries) (kind : e.kind = .file) (final : Final up v e)
    (done : ∀ w, Underway up deleting w → Verified up w →
      w (placeOf out e.path) = some (.file (content e) e.executable) → (∀ x, x ≠ placeOf out e.path → w x = v x) → Q () w) :
    Applies up deleting torn Q (setExecutable (join out e.path) e.executable) v := by
  obtain ⟨x, file⟩ := final
  have leads := h.outer.leads (up.not_own mem) (by rw [file]; exact Option.some_ne_none _)
  obtain ⟨w, set⟩ : ∃ w, w = update v (placeOf out e.path) (some (.file (content e) e.executable)) := ⟨_, rfl⟩
  have same : ∀ y, y ≠ placeOf out e.path → w y = v y := fun y other => set ▸ update_of_ne other _ _
  have own : ∀ y, Own out y → w y = v y := by
    intro y inside
    apply same
    rintro rfl
    exact up.not_own mem inside
  have here : w (placeOf out e.path) = some (.file (content e) e.executable) := set ▸ update_self ..
  have kept : ∀ d ∈ plan.newEntries, d ≠ e → InStaging up v d → InStaging up w d := by
    intro d _ _ staged
    rw [InStaging, own _ (own_stagedPlace _)]
    exact staged
  rw [up.join mem]
  apply setExecutable_file leads file h
  rw [← set]
  exact done w (h.put verified mem kind (fun y _ => same y) ⟨_, here⟩ leads (h.tools.congr own) kept)
    (verified.put up mem (fun y _ => same y) ⟨_, here⟩ kept) here same

/-- A staged file is moved to its place. -/
theorem placeFile_wp (housed : Housed up v) (mem : e ∈ plan.newEntries) (kind : e.kind = .file)
    (staging : v (out ++ [stagingDir]) = some .dir) (staged : InStaging up v e)
    (done : ∀ w, Underway up deleting w → Verified up w → Final up w e →
      w (out ++ [stagingDir]) = some .dir →
      (∀ x, ¬ Own out x → x ≠ placeOf out e.path → w x = v x) →
      (∀ d ∈ plan.newEntries, d ≠ e → InStaging up v d → InStaging up w d) → Q () w) :
    Applies up deleting torn Q (placeFile out e) v := by
  obtain ⟨x, file⟩ := staged
  have leads := h.outer.way housed mem
  have from_ : Leads v (stagedPlace out e.entryId) := staged_leads h.outer.standing staging _
  obtain ⟨w, moved⟩ : ∃ w : Tree, w = Tree.moved v (stagedPlace out e.entryId) (placeOf out e.path) := ⟨_, rfl⟩
  have own : ∀ y, Own out y → w y = v y ∨ w y = none ∧ stagedPlace out e.entryId <+: y := by
    intro y inside
    rw [moved]
    by_cases front : stagedPlace out e.entryId <+: y
    · exact .inr ⟨moved_from front (not_below_place up mem inside), front⟩
    · exact .inl (moved_off front (not_below_place up mem inside))
  have same : ∀ y, ¬ Own out y → y ≠ placeOf out e.path → w y = v y := by
    intro y off other
    rw [moved]
    by_cases below : placeOf out e.path <+: y
    · obtain ⟨more, rfl⟩ := below
      cases more with
      | nil => exact absurd (append_nil _) other
      | cons n more =>
          rw [moved_to, h.tools.flat _ (.inr (.inr ⟨_, rfl⟩)), h.outer.leaf (h.outer.not_dir mem kind) off]
    · apply moved_off _ below
      rintro ⟨more, rfl⟩
      exact off (own_staged _ _)
  have final : Final up w e := by
    refine ⟨x, ?_⟩
    have here := moved_to (v := v) (p := stagedPlace out e.entryId) (q := placeOf out e.path) []
    rwa [append_nil, append_nil, ← moved, file] at here
  have staged_ : ∀ id, id ≠ e.entryId → w (stagedPlace out id) = v (stagedPlace out id) := by
    intro id other
    have away : ¬ stagedPlace out e.entryId <+: stagedPlace out id ++ [] := staged_apart (fun equal => other equal.symm) []
    rw [append_nil] at away
    exact (own _ (own_stagedPlace id)).resolve_right fun both => away both.2
  have kept : ∀ d ∈ plan.newEntries, d ≠ e → InStaging up v d → InStaging up w d := by
    intro d listed other whole
    rw [InStaging, staged_ _ fun equal => other (up.same_id listed mem equal)]
    exact whole
  have staging' : w (out ++ [stagingDir]) = v (out ++ [stagingDir]) :=
    (own _ (own_staging [])).resolve_right fun both => staged_not_above _ both.2
  have tools : Tools up w := h.tools.thin fun y inside => (own y inside).imp_right fun both => both.1
  have under := h.put verified mem kind same final leads tools kept
  rw [placeFile, up.join mem, ← List.map_dropLast]
  apply Wp.bind
  apply createDirAll_stands (parent_stands leads) h
  rw [stagedPath_eq]
  apply Wp.bind
  apply rename_wp from_ leads (by rw [file]; exact Option.some_ne_none _) (h.outer.not_dir mem kind) h
  apply Wp.bind
  apply Wp.pure
  rw [← moved, ← up.join mem]
  apply chmod_wp under (verified.put up mem same final kept) mem kind final
  intro z under' verified' chmoded same'
  apply done z under' verified' ⟨_, chmoded⟩
  · rw [same' _ fun equal => up.not_own mem (equal ▸ own_staging []), staging', staging]
  · intro y off other
    rw [same' y other, same y off other]
  · intro d listed other whole
    rw [InStaging, same' _ fun equal => up.not_own mem (equal ▸ own_stagedPlace _)]
    exact kept d listed other whole

/-- All staged files are moved to their places. -/
theorem placeAll_wp (housed : Housed up v) (staging : v (out ++ [stagingDir]) = some .dir) {staged : List PlanEntry}
    (listed : staged.Sublist plan.newEntries) (whole : ∀ e ∈ staged, e.kind = .file ∧ InStaging up v e)
    (placed : ∀ e ∈ plan.newEntries, e.kind = .file → Final up v e ∨ e ∈ staged)
    (done : ∀ w, Underway up deleting w → Verified up w → Housed up w →
      (∀ e ∈ plan.newEntries, e.kind = .file → Final up w e) → Q () w) :
    Applies up deleting torn Q (forEach staged (placeFile out)) v := by
  refine Wp.mono (Wp.forEach (fun rest w => Underway up deleting w ∧
    Verified up w ∧ Housed up w ∧ w (out ++ [stagingDir]) = some .dir ∧
    rest.Sublist plan.newEntries ∧ (∀ e ∈ rest, e.kind = .file ∧ InStaging up w e) ∧
    ∀ e ∈ plan.newEntries, e.kind = .file → Final up w e ∨ e ∈ rest) ?_ ?_) ?_
  · rintro e rest w - ⟨under, verified, housed, staging, sub, whole, placed⟩
    have mem : e ∈ plan.newEntries := sub.subset List.mem_cons_self
    obtain ⟨kind, here⟩ := whole e List.mem_cons_self
    apply placeFile_wp under verified housed mem kind staging here
    intro z under' verified' final staging' same kept
    have other : ∀ d ∈ plan.newEntries, d ≠ e → z (placeOf out d.path) = w (placeOf out d.path) :=
      fun d listed differ => same _ (up.not_own listed) fun equal => differ (up.same_place listed mem equal)
    refine ⟨under', verified', housed.keep (by rw [kind]; decide) other, staging', (List.sublist_cons_self _ _).trans sub,
      fun d there => ?_, fun d listed kind' => ?_⟩
    · obtain ⟨kind', staged'⟩ := whole d (List.mem_cons_of_mem _ there)
      refine ⟨kind', kept d (sub.subset (List.mem_cons_of_mem _ there)) ?_ staged'⟩
      rintro rfl
      exact (List.pairwise_cons.mp (up.ids.sublist sub)).1 d there rfl
    · by_cases equal : d = e
      · rw [equal]
        exact .inl final
      · rw [Final, other d listed equal]
        exact (placed d listed kind').imp_right fun waiting => (mem_cons.mp waiting).resolve_left equal
  · exact ⟨h, verified, housed, staging, listed, whole, placed⟩
  · rintro ⟨⟩ w ⟨under, verified, housed, -, -, -, placed⟩
    exact done w under verified housed fun e mem kind => (placed e mem kind).resolve_right not_mem_nil

/-- The permissions of all files are set. -/
theorem chmodAll_wp (housed : Housed up v) (final : ∀ e ∈ plan.newEntries, e.kind = .file → Final up v e)
    (done : ∀ w, Underway up deleting w → Housed up w →
      (∀ e ∈ plan.newEntries, e.kind = .file → w (placeOf out e.path) = some (.file (content e) e.executable)) → Q () w) :
    Applies up deleting torn Q
      (forEach (plan.newEntries.filter fun e => e.kind = .file) fun e => setExecutable (join out e.path) e.executable) v := by
  refine Wp.mono (Wp.forEach (fun rest w => Underway up deleting w ∧
    Verified up w ∧ Housed up w ∧
    (∀ e ∈ plan.newEntries, e.kind = .file → Final up w e) ∧
    ∀ e ∈ plan.newEntries, e.kind = .file → e ∈ rest ∨ w (placeOf out e.path) = some (.file (content e) e.executable))
    ?_ ?_) ?_
  · rintro e rest w there ⟨under, verified, housed, final, set⟩
    obtain ⟨mem, kind⟩ := mem_filter.mp there
    replace kind := of_decide_eq_true kind
    apply chmod_wp under verified mem kind (final e mem kind)
    intro z under' verified' here same
    have other : ∀ d ∈ plan.newEntries, d ≠ e → z (placeOf out d.path) = w (placeOf out d.path) :=
      fun d listed differ => same _ fun equal => differ (up.same_place listed mem equal)
    refine ⟨under', verified', housed.keep (by rw [kind]; decide) other, fun d listed kind' => ?_, fun d listed kind' => ?_⟩
    · by_cases equal : d = e
      · exact ⟨_, equal ▸ here⟩
      · rw [Final, other d listed equal]
        exact final d listed kind'
    · by_cases equal : d = e
      · exact .inr (equal ▸ here)
      · rw [other d listed equal]
        exact (set d listed kind').imp_left fun waiting => (mem_cons.mp waiting).resolve_left equal
  · exact ⟨h, verified, housed, final, fun e mem kind => .inl (mem_filter.mpr ⟨mem, decide_eq_true kind⟩)⟩
  · rintro ⟨⟩ w ⟨under, -, housed, -, set⟩
    exact done w under housed fun e mem kind => (set e mem kind).resolve_left not_mem_nil

end Placing

theorem made_staging (h : Underway up deleting v) {x : LinkFs.Path} (other : x ≠ out ++ [stagingDir]) :
    made v (out ++ [stagingDir]) x = v x := by
  by_cases above : x <+: out ++ [stagingDir]
  · rw [made_above above, h.outer.standing x ((prefix_concat_iff.mp above).resolve_left other)]
  · exact made_of_not above

/-- The staging directory is there. -/
theorem Underway.staging (h : Underway up deleting v) :
    Underway up deleting (Cavs.made v (out ++ [stagingDir])) := by
  have outside : ∀ x, ¬ Own out x → Cavs.made v (out ++ [stagingDir]) x = v x :=
    fun x off => made_staging h fun same => off (same ▸ own_staging [])
  have staged : ∀ id, Cavs.made v (out ++ [stagingDir]) (stagedPlace out id) = v (stagedPlace out id) :=
    fun id => made_staging h (by simp [stagedPlace])
  refine ⟨h.outer.congr outside, ⟨?_, fun id => ?_, ?_, ?_, fun p own n more => ?_⟩, h.sourced.congr outside staged⟩
  · exact .inr (made_above (prefix_refl _))
  · rw [staged]
    exact h.tools.staged id
  · rw [made_staging h (by rw [ne_eq, List.append_cancel_left_eq]; decide)]
    exact h.tools.journal
  · rw [made_staging h (by rw [ne_eq, List.append_cancel_left_eq]; decide)]
    exact h.tools.tmp
  · rw [made_staging h, h.tools.flat p own n more]
    intro same
    have long := congrArg List.length same
    rcases own with rfl | rfl | ⟨id, rfl⟩
    · simp at long
    · simp at long
    · simp [stagedPlace] at long

theorem createStaging_wp (h : Underway up deleting v) (done : Q () (made v (out ++ [stagingDir]))) :
    Applies up deleting torn Q (createDirAll (inOut out stagingDir)) v := by
  rw [inOut_eq]
  apply createDirAll_wp
  · refine ⟨h.outer.standing [] List.nil_prefix, fun q front => ?_, fun q n front _ => ?_⟩
    · rcases prefix_concat_iff.mp front with rfl | above
      · exact h.tools.staging.symm
      · exact .inl (h.outer.standing q above)
    · apply h.outer.standing
      rcases prefix_concat_iff.mp front with same | above
      · rw [(List.append_singleton_inj.mp same).1]
      · exact (List.prefix_append _ _).trans above
  · intro q front
    rcases prefix_concat_iff.mp front with rfl | above
    · exact h.staging
    · rw [made_eq fun r higher => h.outer.standing r (higher.trans above)]
      exact h
  · exact done

variable (tells : Tells env plan out t content)
include tells

/-- The first part of an apply: every directory stands and every file is in its place. -/
theorem placeFiles_wp (law : Rereads env) {opts : ApplyOptions} (unchecked : opts.checkOld = false)
    (h : Underway up deleting v) {Q : ApplyJournal → Tree → Prop}
    (done : ∀ journal w, journal.planBlake3 = env.identity plan → Underway up deleting w →
      Housed up w →
      (∀ e ∈ plan.newEntries, e.kind = .file → w (placeOf out e.path) = some (.file (content e) e.executable)) →
      Q journal w) :
    Applies up deleting torn Q (placeFiles env plan out out opts) v := by
  rw [placeFiles, if_neg fun other => other up.directory, up.portable, unchecked]
  apply Wp.bind
  apply Wp.pure
  apply Wp.bind
  apply Wp.pure
  apply Wp.bind
  apply Wp.pure
  apply Wp.bind
  apply checkJournal_wp h.outer.standing h.tools.journal h
  apply Wp.bind
  apply createStaging_wp h
  have start := h.staging
  apply Wp.bind
  apply createDirAll_stands start.outer.standing start
  apply Wp.bind
  apply start.saves law rfl
  intro v₁ under₁ _ staging₁ _ _
  have stands₁ : v₁ (out ++ [stagingDir]) = some .dir := (staging₁ []).trans (made_above (prefix_refl _))
  apply Wp.bind
  apply stageAll_wp tells (.refl _) under₁ stands₁
  intro staged v₂ under₂ away placed whole sub
  have stands₂ : v₂ (out ++ [stagingDir]) = some .dir := by
    rw [away _ fun e _ => staged_not_above _, stands₁]
  apply Wp.bind
  apply under₂.saves law rfl
  intro v₃ under₃ outside₃ staging₃ _ _
  apply Wp.bind
  apply makeDirectories_wp under₃
  intro v₄ under₄ housed own₄ files₄
  apply Wp.bind
  apply under₄.saves law rfl
  intro v₅ under₅ outside₅ staging₅ _ _
  have inside : ∀ more, v₅ (out ++ stagingDir :: more) = v₂ (out ++ stagingDir :: more) := by
    intro more
    rw [staging₅, own₄ _ (own_staging _), staging₃]
  have file : ∀ e ∈ plan.newEntries, e.kind = .file → v₅ (placeOf out e.path) = v₂ (placeOf out e.path) := by
    intro e mem kind
    rw [outside₅ _ (up.not_own mem), files₄ e mem kind, outside₃ _ (up.not_own mem)]
  have placed₅ : ∀ e ∈ plan.newEntries, e.kind = .file → Final up v₅ e ∨ e ∈ staged := by
    intro e mem kind
    rw [Final, file e mem kind]
    exact placed e mem kind
  have whole₅ : ∀ e ∈ staged, e.kind = .file ∧ InStaging up v₅ e := by
    intro e mem
    obtain ⟨-, kind, here⟩ := whole e mem
    rw [InStaging, stagedPlace, inside]
    exact ⟨kind, here⟩
  have verified : Verified up v₅ :=
    fun e mem kind => (placed₅ e mem kind).imp_right fun there => (whole₅ e there).2
  have housed₅ : Housed up v₅ := fun d mem kind => (outside₅ _ (up.not_own mem)).trans (housed d mem kind)
  apply Wp.bind
  apply placeAll_wp under₅ verified housed₅ ((inside []).trans stands₂) sub whole₅ placed₅
  intro v₆ under₆ verified₆ housed₆ final
  apply Wp.bind
  apply chmodAll_wp under₆ verified₆ housed₆ final
  intro w under housed_ exact_
  exact Wp.pure (done _ w rfl under housed_ exact_)

end Commit

section Finish
variable {p : String}

/-- Every file is in its place with its permissions. -/
def InPlace (up : Updates env plan out t content) (v : Tree) : Prop :=
  ∀ e ∈ plan.newEntries, e.kind = .file → v (placeOf out e.path) = some (.file (content e) e.executable)

/-- Every link of the plan is there. -/
def Linked (up : Updates env plan out t content) (v : Tree) : Prop :=
  ∀ e ∈ plan.newEntries, e.kind = .symlink → v (placeOf out e.path) = some (linkNode e)

theorem InPlace.sourced (placed : InPlace up v) : Sourced up v :=
  Or.inr fun e mem kind => .inl ⟨_, placed e mem kind⟩

theorem Outer.link_or_none (h : Outer up deleting v) (mem : e ∈ plan.newEntries) (kind : e.kind = .symlink) :
    v (placeOf out e.path) = none ∨ ∃ absolute target, v (placeOf out e.path) = some (.link absolute target) := by
  rcases h.link e mem kind with same | none_ | link
  · rw [same]
    cases node : t (placeOf out e.path) with
    | none => exact .inl rfl
    | some n =>
        have of_kind := up.kinds e mem n node
        rw [kind] at of_kind
        cases n with
        | link absolute target => exact .inr ⟨absolute, target, rfl⟩
        | dir => cases of_kind
        | file => cases of_kind
  · exact .inl none_
  · exact .inr ⟨_, _, link⟩

section Links
variable (h : Underway up deleting v) (housed : Housed up v) (placed : InPlace up v)
include h housed placed

theorem Underway.link (mem : e ∈ plan.newEntries) (kind : e.kind = .symlink) {node : Option Node}
    (may : node = none ∨ node = some (linkNode e)) :
    Underway up deleting (update v (placeOf out e.path) node) := by
  have same : ∀ x, x ≠ placeOf out e.path → update v (placeOf out e.path) node x = v x :=
    fun x other => update_of_ne other _ _
  refine ⟨h.outer.set mem (fun x _ => same x) ?_ (fun _ => h.outer.way housed mem) (.inr ⟨kind, ?_⟩),
    h.tools.congr fun x own => ?_, InPlace.sourced fun d listed kind' => ?_⟩
  · intro stands
    rcases h.outer.link_or_none mem kind with none_ | ⟨absolute, target, link⟩
    · rw [none_] at stands
      cases stands
    · rw [link] at stands
      cases stands
  · rw [update_self]
    exact may
  · apply same
    rintro rfl
    exact up.not_own mem own
  · rw [same, placed d listed kind']
    intro equal
    rw [up.same_place listed mem equal, kind] at kind'
    cases kind'

theorem makeLink_wp (mem : e ∈ plan.newEntries) (kind : e.kind = .symlink)
    (done : Q () (update v (placeOf out e.path) (some (linkNode e)))) :
    Applies up deleting torn Q (makeLink out e) v := by
  obtain ⟨target, given, some_, clean⟩ := up.targets e mem kind
  have leads := h.outer.way housed mem
  have made : ∀ w : Tree, Leads w (placeOf out e.path) → w (placeOf out e.path) = none →
      Underway up deleting w → update w (placeOf out e.path) (some (linkNode e)) =
        update v (placeOf out e.path) (some (linkNode e)) →
      Applies up deleting torn Q (do
        createDirAll ((placeOf out e.path).map Comp.name).dropLast
        (if target = "" ∨ target.toList.contains (Char.ofNat 0) then throw (.fs .other)
        else do io (← fs (.symlink (isAbsolute target) (comps target) ((placeOf out e.path).map Comp.name))))) w := by
    intro w leads' none_ under same
    rw [← List.map_dropLast]
    apply Wp.bind
    apply createDirAll_stands (parent_stands leads') under
    rw [if_neg (not_or.mpr ⟨some_, by rw [clean]; exact Bool.false_ne_true⟩)]
    apply Wp.bind
    apply symlink_wp under (onNode_ok leads' (fun no => by cases no) (x := some (linkNode e)) ?_)
    · rw [same]
      exact Wp.pure done
    · rw [none_, linkNode, given]
      rfl
  rw [makeLink, up.join mem, given, createSymlink]
  apply Wp.bind
  apply linkMetadata_wp h
  rw [nodeAt_leads leads fun no => by cases no]
  rcases h.outer.link_or_none mem kind with none_ | ⟨absolute, old, link⟩
  · rw [none_]
    exact made v leads none_ h rfl
  · rw [link]
    apply Wp.bind
    apply unlink_wp h (onNode_ok leads (fun no => by cases no) (x := none) (by rw [link]; rfl))
    apply Wp.bind
    apply Wp.pure
    exact made _ (leads_update leads _) (update_self ..) (h.link housed placed mem kind (.inl rfl))
      (update_idem ..)

theorem makeLinks_wp (done : ∀ w, Underway up deleting w → Housed up w → InPlace up w → Linked up w → Q () w) :
    Applies up deleting torn Q
      (forEach (plan.newEntries.filter fun e => e.kind = .symlink) (makeLink out)) v := by
  refine Wp.mono (Wp.forEach (fun rest w => Underway up deleting w ∧ Housed up w ∧
    InPlace up w ∧
    ∀ e ∈ plan.newEntries, e.kind = .symlink → e ∈ rest ∨ w (placeOf out e.path) = some (linkNode e)) ?_ ?_) ?_
  · rintro e rest w there ⟨under, housed, placed, linked⟩
    obtain ⟨mem, kind⟩ := mem_filter.mp there
    replace kind := of_decide_eq_true kind
    have other : ∀ d ∈ plan.newEntries, d ≠ e →
        update w (placeOf out e.path) (some (linkNode e)) (placeOf out d.path) = w (placeOf out d.path) :=
      fun d listed differ => update_of_ne (fun equal => differ (up.same_place listed mem equal)) _ _
    apply makeLink_wp under housed placed mem kind
    refine ⟨under.link housed placed mem kind (.inr rfl), housed.keep (by rw [kind]; decide) other,
      fun d listed kind' => ?_, fun d listed kind' => ?_⟩
    · rw [other d listed, placed d listed kind']
      rintro rfl
      rw [kind] at kind'
      cases kind'
    · by_cases equal : d = e
      · rw [equal, update_self]
        exact .inr rfl
      · rw [other d listed equal]
        exact (linked d listed kind').imp_left fun waiting => (mem_cons.mp waiting).resolve_left equal
  · exact ⟨h, housed, placed, fun e mem kind => .inl (mem_filter.mpr ⟨mem, decide_eq_true kind⟩)⟩
  · rintro ⟨⟩ w ⟨under, housed, placed, linked⟩
    exact done w under housed placed fun e mem kind => (linked e mem kind).resolve_left not_mem_nil

end Links

/-- No entry of the plan lies below a former path. -/
theorem Updates.not_below_former (up : Updates env plan out t content) (mem : p ∈ plan.deleted)
    (listed : e ∈ plan.newEntries) {n : Name} {more : LinkFs.Path} : placeOf out p ++ n :: more ≠ placeOf out e.path := by
  intro same
  rcases up.above listed (q := placeOf out p) (n := n) ⟨more, by rw [append_assoc]; exact same⟩ with above | ⟨d, listed', -, equal⟩
  · exact not_above_place above
  · exact up.former_place listed' mem equal

section Former
variable (h : Outer up deleting v) (mem : p ∈ plan.deleted)
include h mem

/-- On the way to a former path there are directories, and places where they were. -/
theorem Outer.former_way {q : LinkFs.Path} {n : Name} (front : q ++ [n] <+: placeOf out p) : v q = some .dir ∨ v q = none := by
  have stood : t q = some .dir := up.leads (up.former p mem).2.1 q n front
  have off : ¬ Own out q := by
    intro own
    rw [up.bare q own] at stood
    cases stood
  by_cases entry : ∃ e ∈ plan.newEntries, q = placeOf out e.path
  · obtain ⟨e, listed, rfl⟩ := entry
    rcases h.directory e listed (up.kinds e listed _ stood).symm with same | stands
    · rw [same]
      exact .inl stood
    · exact .inl stands
  · by_cases former : ∃ d ∈ plan.deleted, q = placeOf out d
    · obtain ⟨d, listed, rfl⟩ := former
      rcases h.former d listed with same | gone
      · rw [same]
        exact .inl stood
      · exact .inr gone.1
    · rw [h.rest q off (fun e listed same => entry ⟨e, listed, same⟩) fun d listed same => former ⟨d, listed, same⟩]
      exact .inl stood

theorem Outer.former_direct (none_ : v (placeOf out p) = none) {follow : Bool} : LinkFs.Direct v follow [] (placeOf out p) :=
  direct_of_way (fun _ _ front => h.former_way mem front) none_

theorem Outer.former_empty (empty : ∀ n, t (placeOf out p ++ [n]) = none) (n : Name) :
    v (placeOf out p ++ [n]) = none := by
  rw [h.rest, empty n]
  · exact not_own_below (planNames_ne_nil p) (up.not_own_former mem)
  · exact fun e listed => up.not_below_former mem listed
  · intro q listed same
    exact (up.former q listed).2.1 (same ▸ empty n)

/-- A directory in which something stays is never removed. -/
theorem Outer.kept (kept : Kept plan out t p) :
    v (placeOf out p) = some .dir ∧ ∃ n, v (placeOf out p ++ [n]) ≠ none := by
  obtain ⟨-, n, more, there, stays⟩ := kept
  have off : ∀ more : LinkFs.Path, ¬ Own out (placeOf out p ++ more) :=
    fun more => not_own_below (planNames_ne_nil p) (up.not_own_former mem)
  have same : v (placeOf out p ++ n :: more) = t (placeOf out p ++ n :: more) :=
    h.rest _ (off _) (fun e listed => up.not_below_former mem listed) fun d listed equal => stays d listed equal.symm
  have leads := h.leads (off (n :: more)) (by rwa [same])
  refine ⟨leads _ n ⟨more, by rw [append_assoc]; rfl⟩, n, ?_⟩
  cases more with
  | nil => rwa [same]
  | cons m more =>
      rw [leads (placeOf out p ++ [n]) m ⟨more, by simp⟩]
      exact Option.some_ne_none _

end Former

theorem Updates.kept_not_removable (up : Updates env plan out t content) (kept : Kept plan out t p) : ¬ Removable out t p := by
  obtain ⟨stood, n, more, there, -⟩ := kept
  rintro (⟨b, x, file⟩ | ⟨-, empty⟩)
  · rw [stood] at file
    cases file
  · cases more with
    | nil => exact there (empty n)
    | cons m more =>
        have stands := up.leads there (placeOf out p ++ [n]) m ⟨more, by simp⟩
        rw [empty n] at stands
        cases stands

theorem Underway.drop (h : Underway up deleting v) (placed : InPlace up v) (mem : p ∈ plan.deleted)
    (leaf : v (placeOf out p) ≠ some .dir ∨ ∀ n, v (placeOf out p ++ [n]) = none)
    (may : deleting = true ∧ Removable out t p) :
    Underway up deleting (update v (placeOf out p) none) := by
  have same : ∀ x, x ≠ placeOf out p → update v (placeOf out p) none x = v x :=
    fun x other => update_of_ne other _ _
  refine ⟨h.outer.drop mem (fun x _ => same x) (update_self ..) leaf may, h.tools.congr fun x own => ?_,
    InPlace.sourced fun d listed kind => ?_⟩
  · apply same
    rintro rfl
    exact up.not_own_former mem own
  · rw [same _ (up.former_place listed mem), placed d listed kind]

/-- A former path is removed, or stays where something stays in it. -/
theorem removeDeleted_wp (h : Underway up true v) (placed : InPlace up v) (mem : p ∈ plan.deleted)
    (settles : Removable out t p ∨ Kept plan out t p)
    (gone : Removable out t p → ∀ w, Underway up true w → w (placeOf out p) = none →
      (∀ x, x ≠ placeOf out p → w x = v x) → Q () w) (stays : Kept plan out t p → Q () v) :
    Applies up true torn Q (removeDeleted out p) v := by
  rw [removeDeleted, join_safe (up.former p mem).1, show below out (planNames p) = (placeOf out p).map Comp.name from rfl]
  apply Wp.bind
  apply metadata_wp h
  rcases settles with removable | kept
  · by_cases none_ : v (placeOf out p) = none
    · rw [nodeAt_none (h.outer.former_direct mem none_) none_]
      apply Wp.bind
      apply linkMetadata_wp h
      rw [nodeAt_none (h.outer.former_direct mem none_) none_]
      exact Wp.pure (gone removable v h none_ fun _ _ => rfl)
    · have same : v (placeOf out p) = t (placeOf out p) := (h.outer.former p mem).resolve_right fun both => none_ both.1
      have leads := h.outer.leads (up.not_own_former mem) none_
      rcases removable with ⟨b, x, file⟩ | ⟨stood, empty⟩
      · have here : v (placeOf out p) = some (.file b x) := same.trans file
        rw [nodeAt_leads leads (file_last here), here]
        apply Wp.bind
        apply unlink_wp h (onNode_ok leads (fun no => by cases no) (x := none) (by rw [here]; rfl))
        apply Wp.pure
        apply gone (.inl ⟨b, x, file⟩) _ (h.drop placed mem ?_ ⟨rfl, .inl ⟨b, x, file⟩⟩) (update_self ..)
          fun x other => update_of_ne other _ _
        left
        rw [here]
        exact fun no => by cases no
      · have here : v (placeOf out p) = some .dir := same.trans stood
        have none_ := h.outer.former_empty mem empty
        rw [nodeAt_leads leads (fun _ absolute target link => by rw [here] at link; cases link), here]
        apply Wp.bind
        apply rmdir_wp h leads
        · intro _ _
          apply Wp.pure
          exact gone (.inr ⟨stood, empty⟩) _ (h.drop placed mem (.inr none_) ⟨rfl, .inr ⟨stood, empty⟩⟩)
            (update_self ..) fun x other => update_of_ne other _ _
        · exact fun full => absurd ⟨here, none_⟩ full
  · obtain ⟨here, n, there⟩ := h.outer.kept mem kept
    have leads := h.outer.leads (up.not_own_former mem) (by rw [here]; exact Option.some_ne_none _)
    rw [nodeAt_leads leads (fun _ absolute target link => by rw [here] at link; cases link), here]
    apply Wp.bind
    apply rmdir_wp h leads
    · exact fun _ none_ => absurd (none_ n) there
    · exact fun _ e => Wp.pure (stays kept)

end Finish

end Cavs
