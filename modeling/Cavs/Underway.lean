import Cavs.ApplySteps

/-!
# An apply under way

While an apply in place is under way, every managed path holds what the old build or what
the new build has there, and nothing is on the way to it but directories. What the apply keeps
for itself lies apart.
-/
namespace Cavs
open FileProg (Bytes)
open Function (update update_idem update_of_ne update_self)
open LinkFs (Comp Direct Leads Name Node Tree below)
open OpProg (Cmd Prog)
open OpProg.Cmd (Wp attempt forEach throw)

section Spec
variable (env : ApplyEnv) (plan : OfflinePlan) (out : LinkFs.Path) (t : Tree) (content : PlanEntry → Bytes)

/-- Where a path of the plan lies. -/
def placeOf (p : String) : LinkFs.Path := out ++ planNames p

/-- What the apply keeps in the output directory for itself. -/
def ownNames : List Name := [stagingDir, journalFile, journalTmp]

def Own (x : LinkFs.Path) : Prop := ∃ n ∈ ownNames, out ++ [n] <+: x

def nodeKind : Node → EntryKind
  | .file .. => .file
  | .dir => .directory
  | .link .. => .symlink

/-- The link an entry stands for. -/
def linkNode (e : PlanEntry) : Node :=
  .link (isAbsolute (e.symlinkTarget.getD "")) (comps (e.symlinkTarget.getD ""))

/-- The plan leads from the tree below `out` to the new build: its operations deliver the
content of every file, no path changes its kind, and nothing has a name the apply uses. -/
structure Updates : Prop where
  directory : plan.mode = .directory
  portable : ensurePortable plan = .ok ()
  standing : ∀ q, q <+: out → t q = some .dir
  grounded : ∀ x n, t (x ++ [n]) ≠ none → t x = some .dir
  bare : ∀ x, Own out x → t x = none
  safe : ∀ e ∈ plan.newEntries, pathIsSafe e.path = true
  ids : plan.newEntries.Pairwise fun e d => e.entryId ≠ d.entryId
  paths : plan.newEntries.Pairwise fun e d => planNames e.path ≠ planNames d.path
  names : ∀ e ∈ plan.newEntries, ∀ n ∈ ownNames, (planNames e.path).head? ≠ some n
  parents : ∀ e ∈ plan.newEntries, ∀ front n, front ++ [n] <+: planNames e.path → front ≠ [] →
    ∃ d ∈ plan.newEntries, d.kind = .directory ∧ planNames d.path = front
  kinds : ∀ e ∈ plan.newEntries, ∀ node, t (placeOf out e.path) = some node → nodeKind node = e.kind
  delivers : ∀ e ∈ plan.newEntries, e.kind = .file →
    e.blake3 = some (env.hash (content e)) ∧ (content e).length = e.size.toNat ∧
      writeEntry plan e (treeSource plan out t) = .ok (content e)
  targets : ∀ e ∈ plan.newEntries, e.kind = .symlink →
    ∃ target, e.symlinkTarget = some target ∧ target ≠ "" ∧ target.toList.contains (Char.ofNat 0) = false
  sources : ∀ e ∈ plan.oldEntries, pathIsSafe e.path = true ∧ ∃ b x, t (placeOf out e.path) = some (.file b x)
  former : ∀ p ∈ plan.deleted, pathIsSafe p = true ∧ t (placeOf out p) ≠ none ∧
    ∀ e ∈ plan.newEntries, planNames e.path ≠ planNames p

/-- A former path that the deletions remove: a file, or a directory that was empty. -/
def Removable (p : String) : Prop :=
  (∃ b x, t (placeOf out p) = some (.file b x)) ∨
    (t (placeOf out p) = some .dir ∧ ∀ n, t (placeOf out p ++ [n]) = none)

/-- A former directory in which something stays. -/
def Kept (p : String) : Prop :=
  t (placeOf out p) = some .dir ∧ ∃ n more, t (placeOf out p ++ n :: more) ≠ none ∧
    ∀ d ∈ plan.deleted, placeOf out d ≠ placeOf out p ++ n :: more

def stagedPlace (id : UInt32) : LinkFs.Path := out ++ [stagingDir, stagedName id]

/-- What an apply reads of a journal is what it has written. -/
def Rereads : Prop := ∀ j, (env.decodeJournal (env.encodeJournal j)).map ApplyJournal.planBlake3 = some j.planBlake3

/-- The hash tells the old file at a path from the new one. -/
def Tells : Prop :=
  ∀ e ∈ plan.newEntries, e.kind = .file → ∀ b x, t (placeOf out e.path) = some (.file b x) →
    env.hash b = env.hash (content e) → b = content e

variable {env plan out t content}

def Final (up : Updates env plan out t content) (v : Tree) (e : PlanEntry) : Prop :=
  ∃ x, v (placeOf out e.path) = some (.file (content e) x)

def InStaging (up : Updates env plan out t content) (v : Tree) (e : PlanEntry) : Prop :=
  ∃ x, v (stagedPlace out e.entryId) = some (.file (content e) x)

/-- Outside of the apply's own files every path holds what it held or what it is to hold. -/
structure Outer (up : Updates env plan out t content) (deleting : Bool) (v : Tree) : Prop where
  standing : ∀ q, q <+: out → v q = some .dir
  file : ∀ e ∈ plan.newEntries, e.kind = .file → v (placeOf out e.path) = t (placeOf out e.path) ∨ Final up v e
  directory : ∀ e ∈ plan.newEntries, e.kind = .directory →
    v (placeOf out e.path) = t (placeOf out e.path) ∨ v (placeOf out e.path) = some .dir
  link : ∀ e ∈ plan.newEntries, e.kind = .symlink → v (placeOf out e.path) = t (placeOf out e.path) ∨
    v (placeOf out e.path) = none ∨ v (placeOf out e.path) = some (linkNode e)
  former : ∀ p ∈ plan.deleted, v (placeOf out p) = t (placeOf out p) ∨
    (v (placeOf out p) = none ∧ deleting = true ∧ Removable out t p)
  rest : ∀ x, ¬ Own out x → (∀ e ∈ plan.newEntries, x ≠ placeOf out e.path) → (∀ p ∈ plan.deleted, x ≠ placeOf out p) →
    v x = t x
  grounded : ∀ x n, ¬ Own out (x ++ [n]) → v (x ++ [n]) ≠ none → v x = some .dir

/-- The apply's own files are of the kinds it makes; a staged file is the beginning of a new one. -/
structure Tools (up : Updates env plan out t content) (v : Tree) : Prop where
  staging : v (out ++ [stagingDir]) = none ∨ v (out ++ [stagingDir]) = some .dir
  staged : ∀ id, v (stagedPlace out id) = none ∨ ∃ b x, v (stagedPlace out id) = some (.file b x) ∧
    ∀ e ∈ plan.newEntries, e.entryId = id → b <+: content e
  journal : v (out ++ [journalFile]) = none ∨ ∃ b x journal, v (out ++ [journalFile]) = some (.file b x) ∧
    env.decodeJournal b = some journal ∧ journal.planBlake3 = env.identity plan
  tmp : v (out ++ [journalTmp]) = none ∨ ∃ b x, v (out ++ [journalTmp]) = some (.file b x)
  flat : ∀ p, p = out ++ [journalFile] ∨ p = out ++ [journalTmp] ∨ (∃ id, p = stagedPlace out id) →
    ∀ n more, v (p ++ n :: more) = none

/-- Every file is in its place or staged whole. -/
def Verified (up : Updates env plan out t content) (v : Tree) : Prop :=
  ∀ e ∈ plan.newEntries, e.kind = .file → Final up v e ∨ InStaging up v e

/-- No old file was touched, or no new file needs one any more. -/
def Sourced (up : Updates env plan out t content) (v : Tree) : Prop :=
  (∀ x, ¬ Own out x → t x ≠ none → v x = t x) ∨ Verified up v

/-- What a cut leaves. -/
structure Underway (up : Updates env plan out t content) (deleting : Bool) (v : Tree) : Prop where
  outer : Outer up deleting v
  tools : Tools up v
  sourced : Sourced up v

end Spec

section Places
variable {env : ApplyEnv} {plan : OfflinePlan} {out : LinkFs.Path} {t v u : Tree} {content : PlanEntry → Bytes}
  {deleting : Bool} {e : PlanEntry} {q : LinkFs.Path} {p : String} {d : PlanEntry}

theorem own_iff {rel : LinkFs.Path} : Own out (out ++ rel) ↔ ∃ n ∈ ownNames, rel.head? = some n := by
  constructor
  · rintro ⟨n, mem, front⟩
    refine ⟨n, mem, ?_⟩
    rw [List.prefix_append_right_inj] at front
    obtain ⟨more, rfl⟩ := front
    rfl
  · rintro ⟨n, mem, head⟩
    cases rel with
    | nil => cases head
    | cons m more =>
        cases head
        exact ⟨n, mem, (List.prefix_append_right_inj _).mpr ⟨more, rfl⟩⟩

/-- Below something that is not the apply's own nothing is. -/
theorem not_own_below {rel more : LinkFs.Path} (filled : rel ≠ []) (h : ¬ Own out (out ++ rel)) :
    ¬ Own out (out ++ rel ++ more) := by
  rw [List.append_assoc, own_iff]
  rw [own_iff] at h
  cases rel with
  | nil => exact absurd rfl filled
  | cons n rel => exact h

theorem not_own_above (front : q <+: out) : ¬ Own out q := by
  rintro ⟨n, -, own⟩
  exact not_prefix_snoc (own.trans front)

theorem Own.below {x more : LinkFs.Path} (h : Own out x) : Own out (x ++ more) := by
  obtain ⟨n, mem, front⟩ := h
  exact ⟨n, mem, front.trans (List.prefix_append _ _)⟩

theorem not_above_place : ¬ placeOf out p <+: out := by
  intro front
  have long := front.length_le
  have some_ : 0 < (planNames p).length := List.length_pos_iff.mpr (planNames_ne_nil p)
  rw [placeOf, List.length_append] at long
  omega

variable (up : Updates env plan out t content)
include up

theorem Updates.not_own_former (mem : p ∈ plan.deleted) : ¬ Own out (placeOf out p) :=
  fun own => (up.former p mem).2.1 (up.bare _ own)

variable (mem : e ∈ plan.newEntries)
include mem

theorem Updates.not_own : ¬ Own out (placeOf out e.path) := by
  rw [placeOf, own_iff]
  rintro ⟨n, own, head⟩
  exact up.names e mem n own head

theorem Updates.not_own_front (front : q <+: placeOf out e.path) : ¬ Own out q := by
  rintro ⟨n, own, above⟩
  exact up.not_own mem ⟨n, own, above.trans front⟩

/-- What lies on the way to an entry: the output directory, what is above it, and directories of the plan. -/
theorem Updates.above {n : Name} (front : q ++ [n] <+: placeOf out e.path) :
    q <+: out ∨ ∃ d ∈ plan.newEntries, d.kind = .directory ∧ placeOf out d.path = q := by
  obtain ⟨rest, split⟩ := front
  rw [placeOf, List.append_assoc] at split
  rcases List.append_eq_append_iff.mp split with ⟨more, rfl, -⟩ | ⟨more, rfl, deep⟩
  · exact .inl (List.prefix_append _ _)
  · cases more with
    | nil =>
        rw [List.append_nil]
        exact .inl (List.prefix_refl _)
    | cons m more =>
        obtain ⟨d, listed, kind, same⟩ := up.parents e mem (m :: more) n ⟨rest, by rw [List.append_assoc]; exact deep.symm⟩
          (List.cons_ne_nil _ _)
        exact .inr ⟨d, listed, kind, by rw [placeOf, same]⟩

/-- A directory of the plan and what lies on the way to it. -/
theorem Updates.planned (kind : e.kind = .directory) (front : q <+: placeOf out e.path) :
    q <+: out ∨ ∃ d ∈ plan.newEntries, d.kind = .directory ∧ placeOf out d.path = q := by
  obtain ⟨rest, split⟩ := front
  cases rest with
  | nil =>
      rw [List.append_nil] at split
      exact .inr ⟨e, mem, kind, split.symm⟩
  | cons n rest => exact up.above mem (n := n) ⟨rest, by rw [List.append_assoc]; exact split⟩

/-- An old directory that the plan lists is a directory, and so is every place with something below it. -/
theorem Updates.old (kind : e.kind = .directory) :
    t (placeOf out e.path) = none ∨ t (placeOf out e.path) = some .dir := by
  cases node : t (placeOf out e.path) with
  | none => exact .inl rfl
  | some n =>
      have same := up.kinds e mem n node
      rw [kind] at same
      cases n with
      | dir => exact .inr rfl
      | file => cases same
      | link => cases same

theorem Updates.same_place (mem' : d ∈ plan.newEntries) (same : placeOf out e.path = placeOf out d.path) :
    e = d := by
  have nodup : (plan.newEntries.map fun e => planNames e.path).Nodup := List.pairwise_map.mpr up.paths
  exact List.inj_on_of_nodup_map nodup mem mem' (List.append_cancel_left same)

theorem Updates.same_id (mem' : d ∈ plan.newEntries) (same : e.entryId = d.entryId) : e = d := by
  have nodup : (plan.newEntries.map PlanEntry.entryId).Nodup := List.pairwise_map.mpr up.ids
  exact List.inj_on_of_nodup_map nodup mem mem' same

theorem Updates.former_place (mem' : p ∈ plan.deleted) :
    placeOf out e.path ≠ placeOf out p := fun same => (up.former p mem').2.2 e mem (List.append_cancel_left same)

end Places

section Outside
variable {env : ApplyEnv} {plan : OfflinePlan} {out : LinkFs.Path} {t v u : Tree} {content : PlanEntry → Bytes}
  {deleting : Bool} {e : PlanEntry} {up : Updates env plan out t content} {x q : LinkFs.Path}

/-- What stands has its directories on the way to it. -/
theorem Outer.leads (h : Outer up deleting v) (off : ¬ Own out x) (there : v x ≠ none) :
    Leads v x := by
  intro q n front
  induction x using List.reverseRecOn with
  | nil => simp at front
  | append_singleton x m ih =>
      have above : v x = some .dir := h.grounded x m off there
      rcases List.prefix_concat_iff.mp front with same | higher
      · rw [(List.append_singleton_inj.mp same).1]
        exact above
      · exact ih (fun own => off own.below) (by rw [above]; exact Option.some_ne_none _) higher

/-- One place was given another node, and nothing hangs below it. -/
theorem Outer.grounded_set (h : Outer up deleting v) {y : LinkFs.Path}
    (leaf : v y ≠ some .dir ∨ ∀ n, v (y ++ [n]) = none) (same : ∀ x, ¬ Own out x → x ≠ y → u x = v x)
    (leads : u y ≠ none → Leads v y) (x : LinkFs.Path) (n : Name) (off : ¬ Own out (x ++ [n]))
    (there : u (x ++ [n]) ≠ none) : u x = some .dir := by
  have off' : ¬ Own out x := fun own => off own.below
  by_cases here : x ++ [n] = y
  · subst here
    rw [same x off' (by simp)]
    exact leads there x n (List.prefix_refl _)
  · rw [same _ off here] at there
    have stands := h.grounded x n off there
    by_cases below : x = y
    · subst below
      rcases leaf with file | empty
      · exact absurd stands file
      · exact absurd (empty n) there
    · rw [same x off' below, stands]

/-- With directories on the way that stand or are still to be made, no link is on it. -/
theorem direct_of_way {p : LinkFs.Path} {follow : Bool}
    (way : ∀ q n, q ++ [n] <+: p → v q = some .dir ∨ v q = none)
    (none_ : v p = none) : Direct v follow [] p := by
  intro front rest split filled follows absolute target link
  rw [List.nil_append] at link
  cases rest with
  | nil =>
      rw [List.append_nil] at split
      rw [← split, none_] at link
      cases link
  | cons n rest =>
      rcases way front n ⟨rest, by rw [split, List.append_assoc]; rfl⟩ with stands | gone
      · rw [stands] at link
        cases link
      · rw [gone] at link
        cases link


theorem Updates.outer (up : Updates env plan out t content) : Outer up deleting t :=
  ⟨up.standing, fun _ _ _ => .inl rfl, fun _ _ _ => .inl rfl, fun _ _ _ => .inl rfl, fun _ _ => .inl rfl,
    fun _ _ _ _ => rfl, fun x n _ there => up.grounded x n there⟩

theorem Updates.leads (up : Updates env plan out t content) (there : t x ≠ none) : Leads t x := by
  have outer : Outer up false t := up.outer
  exact outer.leads (fun own => there (up.bare x own)) there

theorem Outer.congr (h : Outer up deleting v) (same : ∀ x, ¬ Own out x → u x = v x) :
    Outer up deleting u := by
  constructor
  · intro q front
    rw [same q (not_own_above front), h.standing q front]
  · intro e mem kind
    rw [Final, same _ (up.not_own mem)]
    exact h.file e mem kind
  · intro e mem kind
    rw [same _ (up.not_own mem)]
    exact h.directory e mem kind
  · intro e mem kind
    rw [same _ (up.not_own mem)]
    exact h.link e mem kind
  · intro p mem
    rw [same _ (up.not_own_former mem)]
    exact h.former p mem
  · intro x off entry former
    rw [same x off, h.rest x off entry former]
  · intro x n off there
    rw [same _ off] at there
    rw [same x fun own => off own.below, h.grounded x n off there]

/-- One entry was given another node that it may have. -/
theorem Outer.set (h : Outer up deleting v) (mem : e ∈ plan.newEntries)
    (same : ∀ x, ¬ Own out x → x ≠ placeOf out e.path → u x = v x) (leaf : v (placeOf out e.path) ≠ some .dir)
    (leads : u (placeOf out e.path) ≠ none → Leads v (placeOf out e.path))
    (may : (e.kind = .file ∧ Final up u e) ∨
      (e.kind = .symlink ∧ (u (placeOf out e.path) = none ∨ u (placeOf out e.path) = some (linkNode e)))) :
    Outer up deleting u := by
  have other : ∀ d ∈ plan.newEntries, d ≠ e → u (placeOf out d.path) = v (placeOf out d.path) := by
    intro d listed differs
    exact same _ (up.not_own listed) fun equal => differs (up.same_place listed mem equal)
  constructor
  · intro q front
    rw [same q (not_own_above front) fun equal => not_above_place (equal ▸ front), h.standing q front]
  · intro d listed kind
    by_cases here : d = e
    · subst here
      rcases may with ⟨-, final⟩ | ⟨symlink, -⟩
      · exact .inr final
      · rw [kind] at symlink
        cases symlink
    · rw [Final, other d listed here]
      exact h.file d listed kind
  · intro d listed kind
    rw [other d listed]
    · exact h.directory d listed kind
    · rintro rfl
      rcases may with ⟨file, -⟩ | ⟨symlink, -⟩
      · rw [kind] at file
        cases file
      · rw [kind] at symlink
        cases symlink
  · intro d listed kind
    by_cases here : d = e
    · subst here
      rcases may with ⟨file, -⟩ | ⟨-, node⟩
      · rw [kind] at file
        cases file
      · exact .inr node
    · rw [other d listed here]
      exact h.link d listed kind
  · intro p listed
    rw [same _ (up.not_own_former listed) (up.former_place mem listed).symm]
    exact h.former p listed
  · intro x off entry former
    rw [same x off (entry e mem), h.rest x off entry former]
  · exact h.grounded_set (.inl leaf) same leads

/-- A former path went. -/
theorem Outer.drop (h : Outer up deleting v) {p : String} (mem : p ∈ plan.deleted)
    (same : ∀ x, ¬ Own out x → x ≠ placeOf out p → u x = v x) (gone : u (placeOf out p) = none)
    (leaf : v (placeOf out p) ≠ some .dir ∨ ∀ n, v (placeOf out p ++ [n]) = none)
    (may : deleting = true ∧ Removable out t p) : Outer up deleting u := by
  have other : ∀ d ∈ plan.newEntries, u (placeOf out d.path) = v (placeOf out d.path) :=
    fun d listed => same _ (up.not_own listed) (up.former_place listed mem)
  constructor
  · intro q front
    rw [same q (not_own_above front) fun equal => not_above_place (equal ▸ front), h.standing q front]
  · intro d listed kind
    rw [Final, other d listed]
    exact h.file d listed kind
  · intro d listed kind
    rw [other d listed]
    exact h.directory d listed kind
  · intro d listed kind
    rw [other d listed]
    exact h.link d listed kind
  · intro q listed
    by_cases here : placeOf out q = placeOf out p
    · rw [here, gone]
      refine .inr ⟨rfl, may.1, ?_⟩
      rw [Removable, here]
      exact may.2
    · rw [same _ (up.not_own_former listed) here]
      exact h.former q listed
  · intro x off entry former
    rw [same x off (former p mem), h.rest x off entry former]
  · exact h.grounded_set leaf same fun there => absurd gone there

variable (h : Outer up deleting v) (mem : e ∈ plan.newEntries)
include h mem

/-- On the way to an entry there are directories, and places where they are still to be made. -/
theorem Outer.on_way {n : Name} (front : q ++ [n] <+: placeOf out e.path) : v q = some .dir ∨ v q = none := by
  rcases up.above mem front with above | ⟨d, listed, kind, rfl⟩
  · exact .inl (h.standing q above)
  · rcases h.directory d listed kind with same | stands
    · rw [same]
      exact (up.old listed kind).symm
    · exact .inl stands

/-- A directory of the plan, with the way to it. -/
theorem Outer.passable (kind : e.kind = .directory) : Passable v (placeOf out e.path) := by
  refine ⟨h.standing [] List.nil_prefix, fun q front => ?_, fun q n front stands => ?_⟩
  · obtain ⟨rest, split⟩ := front
    cases rest with
    | nil =>
        rw [List.append_nil] at split
        rw [split]
        rcases h.directory e mem kind with same | stands
        · rw [same]
          exact (up.old mem kind).symm
        · exact .inl stands
    | cons n rest => exact h.on_way mem (n := n) ⟨rest, by rw [List.append_assoc]; exact split⟩
  · exact h.grounded q n (up.not_own_front mem front) (by rw [stands]; exact Option.some_ne_none _)

/-- No link is on the way to a file or at its place. -/
theorem Outer.direct (none_ : v (placeOf out e.path) = none) :
    Direct v true [] (placeOf out e.path) :=
  direct_of_way (fun _ _ front => h.on_way mem front) none_

/-- A directory is made with those above it, all of them directories of the plan. -/
theorem Outer.made (kind : e.kind = .directory) (front : q <+: placeOf out e.path) :
    Outer up deleting (made v q) := by
  have planned : ∀ x, x <+: q → x <+: out ∨ ∃ d ∈ plan.newEntries, d.kind = .directory ∧ placeOf out d.path = x :=
    fun x above => up.planned mem kind (above.trans front)
  have keep : ∀ d ∈ plan.newEntries, d.kind ≠ .directory → Cavs.made v q (placeOf out d.path) = v (placeOf out d.path) := by
    intro d listed other
    apply made_of_not
    intro above
    rcases planned _ above with higher | ⟨d', listed', kind', same⟩
    · exact not_above_place higher
    · rw [up.same_place listed' listed same] at kind'
      exact other kind'
  constructor
  · intro x above
    by_cases higher : x <+: q
    · exact made_above higher
    · rw [made_of_not higher, h.standing x above]
  · intro d listed kind'
    rw [Final, keep d listed (by rw [kind']; decide)]
    exact h.file d listed kind'
  · intro d listed kind'
    by_cases higher : placeOf out d.path <+: q
    · exact .inr (made_above higher)
    · rw [made_of_not higher]
      exact h.directory d listed kind'
  · intro d listed kind'
    rw [keep d listed (by rw [kind']; decide)]
    exact h.link d listed kind'
  · intro p listed
    rw [made_of_not]
    · exact h.former p listed
    · intro above
      rcases planned _ above with higher | ⟨d, listed', -, same⟩
      · exact not_above_place higher
      · exact up.former_place listed' listed same
  · intro x off entry former
    by_cases higher : x <+: q
    · rcases planned _ higher with above | ⟨d, listed, -, same⟩
      · rw [made_above higher, up.standing x above]
      · exact absurd same.symm (entry d listed)
    · rw [made_of_not higher]
      exact h.rest x off entry former
  · intro x n off there
    by_cases higher : x <+: q
    · exact made_above higher
    · rw [made_of_not fun above => higher ((List.prefix_append _ _).trans above)] at there
      rw [made_of_not higher, h.grounded x n off there]

end Outside

section Own
variable {out : LinkFs.Path}

theorem stagedName_inj {id id' : UInt32} (same : stagedName id = stagedName id') : id = id' := by
  have digits : Nat.toDigits 10 id.toNat = Nat.toDigits 10 id'.toNat := by
    have text := (List.cons.inj same).2
    simpa [toString, Nat.repr] using text
  have numbers := congrArg (fun d => Nat.ofDigitChars 10 d 0) digits
  rw [Nat.ofDigitChars_toDigits (by decide) (by decide), Nat.ofDigitChars_toDigits (by decide) (by decide)] at numbers
  exact UInt32.toNat_inj.mp numbers

theorem own_staging (more : LinkFs.Path) : Own out (out ++ stagingDir :: more) := own_iff.mpr ⟨_, by decide, rfl⟩

theorem own_journal (more : LinkFs.Path) : Own out (out ++ journalFile :: more) := own_iff.mpr ⟨_, by decide, rfl⟩

theorem own_tmp (more : LinkFs.Path) : Own out (out ++ journalTmp :: more) := own_iff.mpr ⟨_, by decide, rfl⟩

/-- Two names in one directory have nothing below them in common. -/
theorem apart {n m : Name} (differ : n ≠ m) (more : LinkFs.Path) : ¬ out ++ [n] <+: out ++ m :: more := by
  rw [List.prefix_append_right_inj, List.cons_prefix_cons]
  exact fun h => differ h.1

end Own

end Cavs
