import Cavs.FetchServed

/-!
# The download from a source that answers

A worker puts the chunks of its group where no other worker looks, so it does what it would
do alone: it ends well, with its chunks in the cache. When all workers are gone every group
has been taken, whatever the order of their steps.
-/
namespace Cavs
open FileProg (Bytes File IoError Prog Op World)
open FileProg.Eff (All Wp forEach get modify op orThrow throw wp_good wp_present wp_rename wp_see wp_set
  wp_write)
open Relation (ReflTransGen)

section Answers

/-- The first request for a group is answered with its range. -/
def AnswersRange (packs : String → Bytes) (g : RangeGroup) (replies : Nat → Except Unit Bytes) : Prop :=
  replies 0 = .ok (((packs g.pack).drop g.start).take g.span)

/-- The chunk is in the cache with its bytes. -/
def Lands (content : ChunkHash → Bytes) (v : FetchDisk) (hex : String) : Prop :=
  (v.get (.chunk hex)).map File.bytes = some (content (hexHash hex))

variable {env : ContainerEnv} {packs : String → Bytes} {content : ChunkHash → Bytes} {σ : FetchSem} {s : GroupOutcome}
  {w : FetchDisk} {replies : Nat → Except Unit Bytes} {g : RangeGroup}

/-- An absent chunk is written, and no other one changes. -/
theorem cachePut_lands (sound : σ.Flawless) {hash : ChunkHash} (absent : w.get (.chunk (toHex hash)) = none)
    (payload : Bytes) :
    (cachePut hash payload).Wp σ (fun _ => True)
      (fun r _ v => r = .ok () ∧ (v.get (.chunk (toHex hash))).map File.bytes = some payload ∧
        ∀ hex, hex ≠ toHex hash → v.get (.chunk hex) = w.get (.chunk hex)) s w := by
  rw [cachePut]
  apply Wp.then
  apply wp_present trivial
  change (if (w.get (.chunk (toHex hash))).isSome = true then _ else _ : F Unit).Wp _ _ _ _ _
  rw [absent, if_neg (by decide)]
  refine Wp.seq (wp_mkdir sound _) ?_ ?_
  · rintro _ t u - ⟨⟨⟩, rfl, kept⟩
    have same : ∀ hex, u.get (.chunk hex) = w.get (.chunk hex) := fun hex => kept (.chunk hex) (by simp)
    apply wp_good
    apply Wp.then
    apply wp_write (sound.flat _) trivial (fun _ _ => trivial)
    · intro time
      apply wp_good
      apply Wp.then
      apply wp_rename (sound.flat _) trivial
      · intro f found
        rw [FileProg.get_put_self] at found
        cases found
        refine ⟨trivial, trivial, rfl, by rw [FileProg.get_move_self]; rfl, fun hex other => ?_⟩
        rw [FileProg.get_move_ne (by simpa using other) (by simp), FileProg.get_put_ne (by simp), same]
      · intro gone
        rw [FileProg.get_put_self] at gone
        cases gone
      · exact fun may => absurd may (sound.sound _ _)
    · exact fun may => absurd may (sound.sound _ _)
  · rintro e t u ⟨⟨⟩, -⟩

/-- A chunk is where its entry says, also within the range of the group. -/
theorem cut_range {entry : ChunkMapEntry} (fits : g.Sound packs) (mem : entry ∈ g.chunks) :
    ((((packs g.pack).drop g.start).take g.span).drop (entry.packOffsetAbs.toNat - g.start)).take entry.lenStored.toNat =
      ((packs entry.pack).drop entry.packOffsetAbs.toNat).take entry.lenStored.toNat := by
  obtain ⟨pack, low, high⟩ := fits.inside entry mem
  have place : g.start + (entry.packOffsetAbs.toNat - g.start) = entry.packOffsetAbs.toNat := by omega
  have long : entry.lenStored.toNat ≤ g.span - (entry.packOffsetAbs.toNat - g.start) := by omega
  rw [List.drop_take, List.drop_drop, place, List.take_take, min_eq_left long, pack]

theorem fetchEntry_lands (sound : σ.Flawless) (fits : g.Sound packs) {entry : ChunkMapEntry} (mem : entry ∈ g.chunks)
    (serves : entry.Serves env packs content) (absent : w.get (.chunk entry.hash) = none) :
    (fetchEntry env replies g (((packs g.pack).drop g.start).take g.span) entry).Wp σ (fun _ => True)
      (fun r _ v => r = .ok () ∧ Lands content v entry.hash ∧
        ∀ hex, hex ≠ entry.hash → v.get (.chunk hex) = w.get (.chunk hex)) s w := by
  obtain ⟨-, low, high⟩ := fits.inside entry mem
  have long : (((packs g.pack).drop g.start).take g.span).length = g.span := by
    rw [List.length_take, List.length_drop]
    have within := fits.within
    omega
  have inside : ¬ (entry.packOffsetAbs.toNat < g.start ∨ (((packs g.pack).drop g.start).take g.span).length <
      entry.packOffsetAbs.toNat - g.start + entry.lenStored.toNat) := by
    rw [long]
    omega
  have named : fromHex entry.hash = some (hexHash entry.hash) := by
    rw [serves.named, fromHex_toHex, hexHash_toHex]
  rw [fetchEntry, named]
  dsimp only
  rw [if_neg inside, cut_range fits mem, serves.decodes]
  apply Wp.then
  refine ⟨trivial, ?_⟩
  apply wp_set
  rw [serves.named] at absent
  apply (cachePut_lands sound absent (content (hexHash entry.hash))).mono fun _ c => c
  rintro r t v ⟨rfl, landed, kept⟩
  refine ⟨rfl, ?_, fun hex other => kept hex (serves.named ▸ other)⟩
  rw [← serves.named] at landed
  exact landed

theorem fetchEntries_land (sound : σ.Flawless) (fits : g.Sound packs) {l : List ChunkMapEntry} (part : ∀ e ∈ l, e ∈ g.chunks)
    (serves : ∀ e ∈ l, e.Serves env packs content) (once : (l.map ChunkMapEntry.hash).Nodup)
    (absent : ∀ e ∈ l, w.get (.chunk e.hash) = none) :
    (forEach l (fetchEntry env replies g (((packs g.pack).drop g.start).take g.span))).Wp σ (fun _ => True)
      (fun r _ v => r = .ok () ∧ (∀ e ∈ l, Lands content v e.hash) ∧
        ∀ hex, hex ∉ l.map ChunkMapEntry.hash → v.get (.chunk hex) = w.get (.chunk hex)) s w := by
  induction l generalizing s w with
  | nil => exact ⟨trivial, rfl, by simp, fun _ _ => rfl⟩
  | cons entry rest ih =>
      obtain ⟨here, later⟩ := List.forall_mem_cons.mp part
      obtain ⟨good, serves⟩ := List.forall_mem_cons.mp serves
      obtain ⟨free, absent⟩ := List.forall_mem_cons.mp absent
      obtain ⟨fresh, once⟩ := List.nodup_cons.mp once
      rw [forEach]
      refine Wp.seq (fetchEntry_lands sound fits here good free) ?_ ?_
      · rintro ⟨⟩ t u - ⟨-, landed, kept⟩
        have apart : ∀ e ∈ rest, e.hash ≠ entry.hash := fun e mem same => fresh (same ▸ List.mem_map_of_mem mem)
        have absent' : ∀ e ∈ rest, u.get (.chunk e.hash) = none := fun e mem => (kept _ (apart e mem)).trans (absent e mem)
        apply (ih later serves once absent').mono fun _ c => c
        rintro r t' v ⟨rfl, all, kept'⟩
        refine ⟨rfl, List.forall_mem_cons.mpr ⟨?_, all⟩, fun hex other => ?_⟩
        · rw [Lands, kept' _ fresh]
          exact landed
        · rw [List.map_cons, List.mem_cons, not_or] at other
          rw [kept' hex other.2, kept hex other.1]
      · rintro e t u ⟨⟨⟩, -⟩

theorem getRangeRetrying_answered {b : Bytes} (answered : replies 0 = .ok b) {len : Nat} (long : b.length ≥ len)
    (pack : String) (offset : Nat) :
    (getRangeRetrying replies pack offset len).Wp σ (fun _ => True) (fun r _ v => r = .ok b ∧ v = w) .zero w := by
  have first : (request replies).Wp σ (fun _ => True) (fun r _ v => r = .ok (.ok b) ∧ v = w) .zero w := by
    apply wp_see
    apply wp_set
    exact ⟨trivial, congrArg Except.ok answered, rfl⟩
  unfold getRangeRetrying
  refine Wp.seq first ?_ fun e t u bad => by cases bad.1
  rintro _ t u - ⟨⟨⟩, rfl⟩
  dsimp only
  rw [if_pos long]
  exact ⟨trivial, rfl, rfl⟩

/-- A group that is answered is fetched. -/
theorem fetchGroup_lands (sound : σ.Flawless) (answers : AnswersRange packs g replies) (fits : g.Sound packs)
    (serves : ∀ e ∈ g.chunks, e.Serves env packs content) (once : (g.chunks.map ChunkMapEntry.hash).Nodup)
    (absent : ∀ e ∈ g.chunks, w.get (.chunk e.hash) = none) :
    (fetchGroup env replies g).Wp σ (fun _ => True) (fun r _ v => r = .ok () ∧ ∀ e ∈ g.chunks, Lands content v e.hash)
      .zero w := by
  have long : (((packs g.pack).drop g.start).take g.span).length = g.span := by
    rw [List.length_take, List.length_drop]
    have within := fits.within
    omega
  rw [fetchGroup]
  refine Wp.seq (getRangeRetrying_answered answers long.ge _ _) ?_ fun e t u bad => by cases bad.1
  rintro _ t u - ⟨⟨⟩, rfl⟩
  apply wp_set
  refine Wp.seq (fetchEntries_land sound fits (fun _ mem => mem) serves once absent) ?_ ?_
  · rintro ⟨⟩ t v - ⟨-, all, -⟩
    exact ⟨trivial, rfl, all⟩
  · rintro e t v ⟨⟨⟩, -⟩

end Answers

section Own
variable {env : ContainerEnv} {packs : String → Bytes} {content : ChunkHash → Bytes} {σ : FetchSem} {w v : FetchDisk}
  {replies : Nat → Except Unit Bytes} {g : RangeGroup}

/-- The files in which the chunks of a group are put. -/
def RangeGroup.Own (g : RangeGroup) : FetchPath → Prop
  | .chunk hex | .chunkTmp hex => hex ∈ g.chunks.map ChunkMapEntry.hash
  | _ => False

def FetchPath.IsCacheDir : FetchPath → Prop
  | .cacheDir _ => True
  | _ => False

/-- An operation on the group's own files, or that makes a directory of the cache. -/
def RangeGroup.Does (g : RangeGroup) (o : Op FetchPath Unit) : Prop :=
  o.Sees g.Own ∧ ∀ p, o.touches p → g.Own p ∨ p.IsCacheDir

/-- What is to come of a group that is worked on. -/
def RangeGroup.Lands (content : ChunkHash → Bytes) (g : RangeGroup) (v : FetchDisk) : Prop :=
  ∀ e ∈ g.chunks, Cavs.Lands content v e.hash

theorem puts_own {entry : ChunkMapEntry} (mem : entry ∈ g.chunks) {hash : ChunkHash} (named : entry.hash = toHex hash) :
    PutsBy g.Does hash where
  present := ⟨List.mem_map.mpr ⟨entry, mem, named⟩, fun p touched => touched.elim⟩
  mkdir front := ⟨trivial, fun p touched => .inr (touched ▸ trivial)⟩
  write payload := ⟨trivial, fun p touched => .inl (touched ▸ List.mem_map.mpr ⟨entry, mem, named⟩)⟩
  rename := by
    refine ⟨List.mem_map.mpr ⟨entry, mem, named⟩, fun p touched => .inl ?_⟩
    rcases touched with rfl | rfl
    · exact List.mem_map.mpr ⟨entry, mem, named⟩
    · exact List.mem_map.mpr ⟨entry, mem, named⟩

theorem fetchGroup_does (serves : ∀ e ∈ g.chunks, e.Serves env packs content) : (fetchGroup env replies g).All g.Does := by
  apply fetchGroup_all
  intro entry mem hash named
  have name := (serves entry mem).named
  rw [name, fromHex_toHex] at named
  cases named
  exact puts_own mem name

end Own

section Pool
variable {env : ContainerEnv} {packs : String → Bytes} {content : ChunkHash → Bytes} {σ : FetchSem} {auto : Bool}
  {groups : List RangeGroup} {w : FetchDisk} {p q : Pool} {manifest : Manifest} {g : RangeGroup} {i : Nat}
  {b : Worker} {job : Nat → Option Nat}

/-- A step in which nobody cancels, and a group that is claimed is answered. -/
def AnsweredStep (env : ContainerEnv) (packs : String → Bytes) (σ : FetchSem) (auto : Bool) (groups : List RangeGroup)
    (p q : Pool) : Prop :=
  PoolStep env σ auto groups p q ∧ q.shared.cancel = false ∧
    ∀ (i : Nat) rest, p.workers[i]? = some .waiting → q.workers[i]? = some (.working rest) →
      ∃ g replies, groups[p.shared.next]? = some g ∧ AnswersRange packs g replies ∧ rest = fetchGroup env replies g .zero

/-- What a worker is at: nothing, or a group, which it works on as if it were alone. -/
def Worker.At (content : ChunkHash → Bytes) (σ : FetchSem) (groups : List RangeGroup) (disk : FetchDisk) (k : Option Nat) :
    Worker → Prop
  | .working rest => ∃ n g, k = some n ∧ groups[n]? = some g ∧ rest.All g.Does ∧
      rest.Alone σ g.Own (fun y x => y.1 = .ok () ∧ g.Lands content x) disk
  | _ => k = none

/-- Nothing has gone wrong. -/
structure Shared.Quiet (sh : Shared) : Prop where
  failed : sh.failed = false
  panicked : sh.panicked = false
  firstError : sh.firstError = none
  cancel : sh.cancel = false

/-- Every group before the next one is in the cache or worked on by one worker, and nothing
else has changed since `w`. -/
structure Going (content : ChunkHash → Bytes) (σ : FetchSem) (groups : List RangeGroup) (w : FetchDisk)
    (job : Nat → Option Nat) (p : Pool) : Prop where
  quiet : p.shared.Quiet
  work : ∀ (i : Nat) (a : Worker), p.workers[i]? = some a → a.At content σ groups p.disk (job i)
  taken : ∀ i k, job i = some k → k < p.shared.next ∧ i < p.workers.length
  apart : ∀ i j k, job i = some k → job j = some k → i = j
  done : ∀ k g, k < p.shared.next → groups[k]? = some g → (∃ i, job i = some k) ∨ g.Lands content p.disk
  ahead : ∀ k g, p.shared.next ≤ k → groups[k]? = some g → ∀ e ∈ g.chunks, p.disk.get (.chunk e.hash) = none
  kept : ∀ path, (∀ g ∈ groups, ¬ g.Own path) → ¬ path.IsCacheDir → p.disk.get path = w.get path
  gone : Worker.gone ∈ p.workers → groups.length ≤ p.shared.next

theorem ToFetch.apart (todo : ToFetch env packs content w manifest groups) {k n : Nat} {h : RangeGroup}
    (first : groups[k]? = some g) (second : groups[n]? = some h) (differ : k ≠ n) {path : FetchPath}
    (own : g.Own path) :
    ¬ h.Own path := by
  have once := todo.once
  rw [List.map_flatMap, List.nodup_flatMap] at once
  have disjoint : ∀ {k n : Nat} {g h : RangeGroup}, groups[k]? = some g → groups[n]? = some h → k < n →
      (g.chunks.map ChunkMapEntry.hash).Disjoint (h.chunks.map ChunkMapEntry.hash) := by
    intro k n g h first second less
    obtain ⟨inside, rfl⟩ := List.getElem?_eq_some_iff.mp first
    obtain ⟨inside', rfl⟩ := List.getElem?_eq_some_iff.mp second
    exact List.pairwise_iff_getElem.mp once.2 k n inside inside' less
  have clash : ∀ hex, hex ∈ g.chunks.map ChunkMapEntry.hash → hex ∉ h.chunks.map ChunkMapEntry.hash := by
    intro hex here there
    rcases Nat.lt_or_gt_of_ne differ with less | more
    · exact disjoint first second less here there
    · exact disjoint second first more there here
  cases path with
  | chunk hex | chunkTmp hex => exact clash hex own
  | cacheRoot | cacheDir | beside | dir | out => exact own.elim

theorem ToFetch.nodup (todo : ToFetch env packs content w manifest groups) (mem : g ∈ groups) :
    (g.chunks.map ChunkMapEntry.hash).Nodup := by
  have once := todo.once
  rw [List.map_flatMap, List.nodup_flatMap] at once
  exact once.1 g mem

theorem workers_set {l : List Worker} {P : Nat → Worker → Prop} (here : P i b)
    (others : ∀ j c, j ≠ i → l[j]? = some c → P j c) : ∀ j c, (l.set i b)[j]? = some c → P j c := by
  intro j c found
  by_cases same : j = i
  · subst same
    rw [List.getElem?_set_self'] at found
    obtain ⟨a, -, rfl⟩ := Option.map_eq_some_iff.mp found
    exact here
  · rw [List.getElem?_set_ne (Ne.symm same)] at found
    exact others j c same found

/-- A worker moves on, and the files stay as they are. -/
theorem Going.turn {job' : Nat → Option Nat} (going : Going content σ groups w job p) {sh : Shared}
    (there : i < p.workers.length) (quiet : sh.Quiet) (work : b.At content σ groups p.disk (job' i))
    (others : ∀ j, j ≠ i → job' j = job j) (on : p.shared.next ≤ sh.next)
    (taken : ∀ k, job' i = some k → k < sh.next ∧ ∀ j, j ≠ i → job j ≠ some k)
    (done : ∀ k g, groups[k]? = some g → (job i = some k ∨ p.shared.next ≤ k ∧ k < sh.next) →
      job' i = some k ∨ g.Lands content p.disk) (gone : b = .gone → groups.length ≤ sh.next) :
    Going content σ groups w job' ⟨sh, p.workers.set i b, p.disk⟩ where
  quiet := quiet
  work := workers_set work fun j c differs found => by
    rw [others j differs]
    exact going.work j c found
  taken := by
    intro j k at_
    rw [List.length_set]
    by_cases same : j = i
    · subst same
      exact ⟨(taken k at_).1, there⟩
    · rw [others j same] at at_
      obtain ⟨before, inside⟩ := going.taken j k at_
      exact ⟨before.trans_le on, inside⟩
  apart := by
    intro j n k first second
    by_cases one : j = i
    · by_cases two : n = i
      · rw [one, two]
      · subst one
        rw [others n two] at second
        exact absurd second ((taken k first).2 n two)
    · rw [others j one] at first
      by_cases two : n = i
      · subst two
        exact absurd first ((taken k second).2 j one)
      · rw [others n two] at second
        exact going.apart j n k first second
  done := by
    intro k g before found
    by_cases mine : job i = some k ∨ p.shared.next ≤ k ∧ k < sh.next
    · exact (done k g found mine).imp (fun at_ => ⟨i, at_⟩) id
    · rw [not_or, not_and_or, not_le] at mine
      have earlier : k < p.shared.next := mine.2.resolve_right (not_not.mpr before)
      refine (going.done k g earlier found).imp ?_ id
      rintro ⟨j, at_⟩
      refine ⟨j, ?_⟩
      rw [others j fun same => mine.1 (same ▸ at_)]
      exact at_
  ahead k g after := going.ahead k g (on.trans after)
  kept := going.kept
  gone mem := by
    rcases List.mem_or_eq_of_mem_set mem with old | new
    · exact (going.gone old).trans on
    · exact gone new.symm

/-- A worker does something for its group. -/
theorem Going.operate (sound : σ.Flawless) (todo : ToFetch env packs content w manifest groups)
    (going : Going content σ groups w job p) {o : Op FetchPath Unit}
    {next : o.Res Unit → Prog FetchPath Unit Unit (Except Stop Unit × GroupOutcome)} {r : o.Res Unit}
    {v : FetchDisk} (here : p.workers[i]? = some (.working (.call o next))) (step : σ.Step o p.disk r v) :
    Going content σ groups w job ⟨p.shared, p.workers.set i (.working (next r)), v⟩ := by
  obtain ⟨k, g, mine, found, ops, alone⟩ := going.work i _ here
  have frame : ∀ path, ¬ g.Own path → ¬ path.IsCacheDir → v.get path = p.disk.get path := fun path own dir =>
    step.frame fun touched => (ops.1.2 path touched).elim own dir
  have others : ∀ n h, groups[n]? = some h → n ≠ k → ∀ path, h.Own path → v.get path = p.disk.get path := by
    intro n h there differs path own
    apply frame path (todo.apart there found differs own)
    cases path with
    | cacheDir => exact own.elim
    | cacheRoot | chunk | chunkTmp | beside | dir | out => exact id
  have chunks : ∀ n h, groups[n]? = some h → n ≠ k → ∀ e ∈ h.chunks, v.get (.chunk e.hash) = p.disk.get (.chunk e.hash) :=
    fun n h there differs e mem => others n h there differs _ (List.mem_map_of_mem mem)
  refine ⟨going.quiet, ?_, ?_, going.apart, ?_, ?_, ?_, ?_⟩
  · refine workers_set ⟨k, g, mine, found, ops.2 r, alone.step sound step⟩ ?_
    intro j c differs there
    have at_ := going.work j c there
    cases c with
    | working rest =>
        obtain ⟨n, h, theirs, there, ops, alone⟩ := at_
        have apart : n ≠ k := fun same => differs (going.apart j i k (same ▸ theirs) mine)
        exact ⟨n, h, theirs, there, ops, alone.stays (others n h there apart)⟩
    | looking | asking | waiting | gone => exact at_
  · simpa using going.taken
  · intro n h before there
    by_cases same : n = k
    · exact .inl ⟨i, same ▸ mine⟩
    · refine (going.done n h before there).imp id fun lands e mem => ?_
      rw [Lands, chunks n h there same e mem]
      exact lands e mem
  · intro n h after there e mem
    have same : n ≠ k := fun same => absurd (going.taken i k mine).1 (same ▸ not_lt.mpr after)
    rw [chunks n h there same e mem]
    exact going.ahead n h after there e mem
  · intro path none_ dir
    exact (frame path (none_ g (List.mem_of_getElem? found)) dir).trans (going.kept path none_ dir)
  · intro mem
    rcases List.mem_or_eq_of_mem_set mem with old | new
    · exact going.gone old
    · cases new

theorem Going.idle (going : Going content σ groups w job p) {a : Worker} (here : p.workers[i]? = some a)
    (work : b.At content σ groups p.disk (job i)) (idle : job i = none) {sh : Shared} (quiet : sh.Quiet)
    (same : sh.next = p.shared.next) (gone : b = .gone → groups.length ≤ sh.next) :
    Going content σ groups w job ⟨sh, p.workers.set i b, p.disk⟩ := by
  refine going.turn (List.getElem?_eq_some_iff.mp here).1 quiet work (fun _ _ => rfl) same.ge ?_ ?_ gone
  · intro k at_
    rw [idle] at at_
    cases at_
  · rintro k g - (at_ | ⟨after, before⟩)
    · rw [idle] at at_
      cases at_
    · omega

/-- A worker takes the next group. -/
theorem Going.claim (sound : σ.Flawless) (todo : ToFetch env packs content w manifest groups)
    (going : Going content σ groups w job p) (here : p.workers[i]? = some .waiting)
    (found : groups[p.shared.next]? = some g) {replies : Nat → Except Unit Bytes}
    (answers : AnswersRange packs g replies) :
    Going content σ groups w (Function.update job i (some p.shared.next))
      ⟨{ p.shared with next := p.shared.next + 1 }, p.workers.set i (.working (fetchGroup env replies g .zero)), p.disk⟩ := by
  have mem := List.mem_of_getElem? found
  have idle : job i = none := going.work i _ here
  have quiet := going.quiet
  refine going.turn (List.getElem?_eq_some_iff.mp here).1 ⟨quiet.failed, quiet.panicked, quiet.firstError, quiet.cancel⟩
    ?_ (fun j differs => Function.update_of_ne differs _ _) (Nat.le_succ _) ?_ ?_ (by simp)
  · rw [Function.update_self]
    have does := @fetchGroup_does env packs content replies g (todo.serves g mem)
    refine ⟨p.shared.next, g, rfl, found, does _, .start ?_ ?_⟩
    · exact (does .zero).mono fun o op => op.1
    · exact fetchGroup_lands sound answers (todo.sound g mem) (todo.serves g mem) (todo.nodup mem)
        (going.ahead _ g le_rfl found)
  · intro k at_
    rw [Function.update_self, Option.some.injEq] at at_
    subst at_
    exact ⟨Nat.lt_succ_self _, fun j _ at_ => absurd (going.taken j _ at_).1 (lt_irrefl _)⟩
  · rintro k g' - (at_ | ⟨after, before⟩)
    · rw [idle] at at_
      cases at_
    · rw [Function.update_self]
      exact .inl (congrArg some (le_antisymm after (Nat.lt_succ_iff.mp before)))

/-- A group that is done is in the cache. -/
theorem Going.finish (going : Going content σ groups w job p) {y : Except Stop Unit × GroupOutcome}
    (here : p.workers[i]? = some (.working (.ret y))) (total : GroupOutcome) :
    y.1 = .ok () ∧ Going content σ groups w (Function.update job i none)
      ⟨{ p.shared with total }, p.workers.set i .looking, p.disk⟩ := by
  obtain ⟨k, g, mine, found, -, alone⟩ := going.work i _ here
  obtain ⟨x, same, good, lands⟩ := alone.result
  have quiet := going.quiet
  have landed : g.Lands content p.disk := by
    intro e mem
    have own : g.Own (.chunk e.hash) := List.mem_map_of_mem mem
    rw [Cavs.Lands, ← same _ own]
    exact lands e mem
  refine ⟨good, going.turn (List.getElem?_eq_some_iff.mp here).1
    ⟨quiet.failed, quiet.panicked, quiet.firstError, quiet.cancel⟩ ?_ (fun j differs => Function.update_of_ne differs _ _)
    le_rfl ?_ ?_ (by simp)⟩
  · exact Function.update_self i none job
  · intro n at_
    rw [Function.update_self] at at_
    cases at_
  · rintro n h there (at_ | ⟨after, before⟩)
    · cases mine.symm.trans at_
      cases found.symm.trans there
      exact .inr landed
    · exact absurd before (not_lt.mpr after)

/-- Every answered step goes on well. -/
theorem Going.step (sound : σ.Flawless) (todo : ToFetch env packs content w manifest groups)
    (going : Going content σ groups w job p) (step : AnsweredStep env packs σ auto groups p q) :
    ∃ job', Going content σ groups w job' q := by
  obtain ⟨step, uncancelled, honest⟩ := step
  have quiet := going.quiet
  cases step with
  | cancel => cases uncancelled
  | @work i a sh v b here moves =>
      cases moves with
      | latched h | parked _ h =>
          rw [quiet.failed] at h
          cases h
      | cancelled h =>
          rw [quiet.cancel] at h
          cases h
      | going | uncancelled =>
          have idle : job i = none := going.work i _ here
          refine ⟨job, going.idle here ?_ idle quiet rfl (by simp)⟩
          exact idle
      | exhausted h =>
          have idle : job i = none := going.work i _ here
          have all : groups.length ≤ p.shared.next := List.getElem?_eq_none_iff.mp h
          refine ⟨job, going.turn (List.getElem?_eq_some_iff.mp here).1
            ⟨quiet.failed, quiet.panicked, quiet.firstError, quiet.cancel⟩ idle (fun _ _ => rfl) (Nat.le_succ _) ?_ ?_
            fun _ => all.trans (Nat.le_succ _)⟩
          · intro k at_
            rw [idle] at at_
            cases at_
          · rintro k g found (at_ | ⟨after, -⟩)
            · rw [idle] at at_
              cases at_
            · exact absurd (List.getElem?_eq_some_iff.mp found).1 (not_lt.mpr (all.trans after))
      | claim replies h =>
          obtain ⟨g, replies', found, answers, same⟩ := honest i _ here (List.getElem?_set_self (List.getElem?_eq_some_iff.mp here).1)
          rw [same]
          exact ⟨_, going.claim sound todo here found answers⟩
      | operate does => exact ⟨job, going.operate sound todo here does⟩
      | landed => exact ⟨_, (going.finish here _).2⟩
      | failed | panicked => cases (going.finish here .zero).1

theorem Going.run (sound : σ.Flawless) (todo : ToFetch env packs content w manifest groups)
    (going : Going content σ groups w job p) (steps : ReflTransGen (AnsweredStep env packs σ auto groups) p q) :
    ∃ job', Going content σ groups w job' q := by
  induction steps with
  | refl => exact ⟨job, going⟩
  | tail _ step ih =>
      obtain ⟨_, going⟩ := ih
      exact going.step sound todo step

theorem Going.start (n : Nat) (absent : ∀ g ∈ groups, ∀ e ∈ g.chunks, w.get (.chunk e.hash) = none) :
    Going content σ groups w (fun _ => none) (.start n w) where
  quiet := ⟨rfl, rfl, rfl, rfl⟩
  work i a found := by
    cases List.eq_of_mem_replicate (List.mem_of_getElem? found)
    rfl
  taken _ _ at_ := by cases at_
  apart _ _ _ at_ := by cases at_
  done k _ before := absurd before (Nat.not_lt_zero k)
  ahead _ g _ found := absent g (List.mem_of_getElem? found)
  kept _ _ _ := rfl
  gone mem := by cases List.eq_of_mem_replicate mem

/-- Where all workers are gone, and there were some, everything is in the cache. -/
theorem Going.ended (going : Going content σ groups w job p) (some_ : p.workers ≠ [])
    (gone : ∀ a ∈ p.workers, a = .gone) :
    p.result = .ok p.shared.total ∧ ∀ g ∈ groups, g.Lands content p.disk := by
  have quiet := going.quiet
  constructor
  · rw [Pool.result, quiet.panicked, if_neg (by decide), quiet.firstError]
  · intro g mem
    obtain ⟨k, inside, rfl⟩ := List.getElem_of_mem mem
    obtain ⟨a, there⟩ := List.exists_mem_of_ne_nil _ some_
    have all : groups.length ≤ p.shared.next := going.gone (gone a there ▸ there)
    rcases going.done k _ (inside.trans_le all) (List.getElem?_eq_getElem inside) with ⟨i, at_⟩ | lands
    · obtain ⟨-, there⟩ := going.taken i k at_
      have idle := going.work i _ (List.getElem?_eq_getElem there)
      rw [gone _ (List.getElem_mem there)] at idle
      cases idle.symm.trans at_
    · exact lands

end Pool

section Finished
variable {env : ContainerEnv} {packs : String → Bytes} {content : ChunkHash → Bytes} {σ : FetchSem} {auto : Bool}
  {groups : List RangeGroup} {w : FetchDisk} {p : Pool} {manifest : Manifest} {job : Nat → Option Nat} {i : Nat}

/-- A worker's step is answered if a group that it claims is. -/
theorem AnsweredStep.turn {l : List Worker} {a b : Worker} {sh sh' : Shared} {v v' : FetchDisk} (inside : i < l.length)
    (step : WorkerStep env σ auto groups sh v a sh' v' b) (uncancelled : sh'.cancel = false)
    (honest : ∀ rest, a = .waiting → b = .working rest →
      ∃ g replies, groups[sh.next]? = some g ∧ AnswersRange packs g replies ∧ rest = fetchGroup env replies g .zero) :
    AnsweredStep env packs σ auto groups ⟨sh, l.set i a, v⟩ ⟨sh', l.set i b, v'⟩ := by
  have moved : PoolStep env σ auto groups ⟨sh, l.set i a, v⟩ ⟨sh', (l.set i a).set i b, v'⟩ :=
    @PoolStep.work env σ auto groups ⟨sh, l.set i a, v⟩ i a sh' v' b (List.getElem?_set_self inside) step
  rw [List.set_set] at moved
  refine ⟨moved, uncancelled, fun j rest waiting working => ?_⟩
  by_cases same : j = i
  · subst same
    change (l.set j a)[j]? = some .waiting at waiting
    change (l.set j b)[j]? = some (.working rest) at working
    rw [List.getElem?_set_self inside] at waiting working
    exact honest rest (Option.some.inj waiting) (Option.some.inj working)
  · change (l.set i a)[j]? = some .waiting at waiting
    change (l.set i b)[j]? = some (.working rest) at working
    rw [List.getElem?_set_ne (Ne.symm same)] at waiting working
    cases waiting.symm.trans working

/-- A worker comes to the end of what it is working on. -/
theorem works_off {rest : Prog FetchPath Unit Unit (Except Stop Unit × GroupOutcome)} (plain : rest.All Op.Plain)
    {l : List Worker} {sh : Shared} {v : FetchDisk} (uncancelled : sh.cancel = false) (inside : i < l.length) :
    ∃ y v', ReflTransGen (AnsweredStep env packs σ auto groups) ⟨sh, l.set i (.working rest), v⟩
      ⟨sh, l.set i (.working (.ret y)), v'⟩ := by
  induction rest generalizing v with
  | ret y => exact ⟨y, v, .refl⟩
  | call o k ih =>
      obtain ⟨r, u, step⟩ := FileProg.Sem.step_exists (σ := σ) plain.1 v
      obtain ⟨y, v', later⟩ := @ih r (plain.2 r) u
      exact ⟨y, v', .head (.turn inside (.operate step) uncancelled (by simp)) later⟩

/-- A worker that is left alone takes what there is and goes. -/
theorem takes_all (sound : σ.Flawless) (todo : ToFetch env packs content w manifest groups) {l : List Worker} {sh : Shared}
    {v : FetchDisk} (inside : i < l.length) (going : Going content σ groups w job ⟨sh, l.set i .looking, v⟩) :
    ∃ sh' v', ReflTransGen (AnsweredStep env packs σ auto groups) ⟨sh, l.set i .looking, v⟩ ⟨sh', l.set i .gone, v'⟩ := by
  obtain ⟨left, measure⟩ : ∃ left, groups.length - sh.next = left := ⟨_, rfl⟩
  induction left using Nat.strong_induction_on generalizing sh v job with
  | _ left ih =>
      have calm : sh.cancel = false := going.quiet.cancel
      have there : ReflTransGen (AnsweredStep env packs σ auto groups) ⟨sh, l.set i .looking, v⟩ ⟨sh, l.set i .waiting, v⟩ :=
        .tail (.single (.turn inside (.going going.quiet.failed) calm (by simp)))
          (.turn inside (.uncancelled calm) calm (by simp))
      cases found : groups[sh.next]? with
      | none => exact ⟨_, v, .tail there (.turn inside (.exhausted found) calm (by simp))⟩
      | some g =>
          have answers : AnswersRange packs g fun _ => .ok (((packs g.pack).drop g.start).take g.span) := rfl
          have claims : AnsweredStep env packs σ auto groups ⟨sh, l.set i .waiting, v⟩ ⟨{ sh with next := sh.next + 1 },
              l.set i (.working (fetchGroup env (fun _ => .ok (((packs g.pack).drop g.start).take g.span)) g .zero)), v⟩ := by
            refine .turn inside (.claim _ found) calm fun rest _ same => ⟨g, _, found, answers, ?_⟩
            cases same
            rfl
          have does := @fetchGroup_does env packs content (fun _ => .ok (((packs g.pack).drop g.start).take g.span)) g
            (todo.serves g (List.mem_of_getElem? found)) .zero
          obtain ⟨y, u, works⟩ := @works_off env packs σ auto groups i _ (does.mono fun o op => op.1.plain) l
            { sh with next := sh.next + 1 } v calm inside
          have worked := (there.tail claims).trans works
          obtain ⟨_, going⟩ := going.run sound todo worked
          obtain ⟨good, -⟩ := going.finish (List.getElem?_set_self inside) .zero
          obtain ⟨r, out⟩ := y
          cases good
          have lands : AnsweredStep env packs σ auto groups
              ⟨{ sh with next := sh.next + 1 }, l.set i (.working (.ret (.ok (), out))), u⟩
              ⟨{ sh with next := sh.next + 1, total := sh.total.add out }, l.set i .looking, u⟩ :=
            .turn inside .landed calm (by simp)
          obtain ⟨_, going⟩ := going.step sound todo lands
          have less : groups.length - (sh.next + 1) < left := by
            have before := (List.getElem?_eq_some_iff.mp found).1
            omega
          obtain ⟨sh', v', later⟩ := ih _ less going rfl
          exact ⟨sh', v', (worked.tail lands).trans later⟩

/-- Some workers are gone, and the others have not begun. -/
def goneFirst (gone left : Nat) : List Worker := List.replicate gone .gone ++ List.replicate left .looking

theorem goneFirst_looking (gone left : Nat) : (goneFirst gone (left + 1)).set gone .looking = goneFirst gone (left + 1) := by
  rw [goneFirst, List.set_append_right _ _ (by simp), List.replicate_succ]
  simp

theorem goneFirst_gone (gone left : Nat) : (goneFirst gone (left + 1)).set gone .gone = goneFirst (gone + 1) left := by
  rw [goneFirst, List.set_append_right _ _ (by simp), List.replicate_succ, goneFirst, List.replicate_succ']
  simp

/-- One worker after another goes. -/
theorem all_go (sound : σ.Flawless) (todo : ToFetch env packs content w manifest groups) {gone left : Nat} {sh : Shared}
    {v : FetchDisk} (going : Going content σ groups w job ⟨sh, goneFirst gone left, v⟩) :
    ∃ q, ReflTransGen (AnsweredStep env packs σ auto groups) ⟨sh, goneFirst gone left, v⟩ q ∧
      q.workers = List.replicate (gone + left) .gone := by
  induction left generalizing gone sh v job with
  | zero => exact ⟨_, .refl, by simp [goneFirst]⟩
  | succ left ih =>
      have inside : gone < (goneFirst gone (left + 1)).length := by simp [goneFirst]
      rw [← goneFirst_looking] at going
      obtain ⟨sh', v', goes⟩ := @takes_all env packs content σ auto groups w manifest job gone sound todo _ sh v inside going
      obtain ⟨_, going⟩ := going.run sound todo goes
      rw [goneFirst_gone] at goes going
      rw [goneFirst_looking] at goes
      obtain ⟨q, more, all⟩ := ih going
      exact ⟨q, goes.trans more, by rw [all, Nat.add_right_comm, Nat.add_assoc]⟩

variable {connections : Nat} {r : Except Stop GroupOutcome} {v : FetchDisk}

/-- The finished runs of a download in which nobody cancels and the source answers. -/
def AnsweredDownload (env : ContainerEnv) (packs : String → Bytes) (σ : FetchSem) (groups : List RangeGroup)
    (connections : Nat) (w : FetchDisk) (r : Except Stop GroupOutcome) (v : FetchDisk) : Prop :=
  if groups = [] then r = .ok .zero ∧ v = w
  else ∃ p, ReflTransGen (AnsweredStep env packs σ (connections = 0) groups) (.start (workerCount groups connections) w) p ∧
    (∀ a ∈ p.workers, a = .gone) ∧ p.disk = v ∧ r = p.result

/-- They are finished runs of the download. -/
theorem AnsweredDownload.fetches (run : AnsweredDownload env packs σ groups connections w r v) :
    FetchMissingParallel env σ groups connections w r v := by
  rw [FetchMissingParallel]
  rw [AnsweredDownload] at run
  split at run
  · rename_i none_
    exact if_pos none_ ▸ run
  · rename_i some_
    obtain ⟨p, steps, ended⟩ := run
    rw [if_neg some_]
    exact ⟨p, ReflTransGen.mono (fun _ _ step => step.1) _ _ steps, ended⟩

/-- What the manifest lists and the cache lacked has landed; what it had is kept, and the
output too. -/
structure Downloaded (content : ChunkHash → Bytes) (manifest : Manifest) (w v : FetchDisk) : Prop where
  kept : ∀ hex f, w.get (.chunk hex) = some f → v.get (.chunk hex) = some f
  landed : ∀ hex ∈ manifestChunkHashes manifest, w.get (.chunk hex) = none → Lands content v hex
  out : ∀ path, path.IsOut → v.get path = w.get path

theorem workerCount_pos (some_ : groups ≠ []) : 0 < workerCount groups connections := by
  have long := List.length_pos_iff.mpr some_
  rw [workerCount]
  split
  · exact lt_min (by decide) long
  · exact lt_min (by omega) long

theorem AnsweredDownload.lands (sound : σ.Flawless) (todo : ToFetch env packs content w manifest groups)
    (run : AnsweredDownload env packs σ groups connections w r v) :
    (∃ total, r = .ok total) ∧ Downloaded content manifest w v := by
  rw [AnsweredDownload] at run
  split at run
  · rename_i none_
    obtain ⟨rfl, rfl⟩ := run
    refine ⟨⟨_, rfl⟩, fun _ _ found => found, fun hex mem absent => ?_, fun _ _ => rfl⟩
    rcases todo.complete hex mem with there | ⟨g, mem, -⟩
    · rw [absent] at there
      cases there
    · rw [none_] at mem
      cases mem
  · rename_i some_
    obtain ⟨p, steps, gone, rfl, rfl⟩ := run
    obtain ⟨_, going⟩ := (Going.start (workerCount groups connections) todo.absent).run sound todo steps
    have workers : p.workers ≠ [] := by
      have same : p.workers.length = workerCount groups connections := by
        clear going gone
        induction steps with
        | refl => exact List.length_replicate
        | tail _ step ih =>
            cases step.1 with
            | cancel => exact ih
            | work _ _ => exact List.length_set.trans ih
      exact List.ne_nil_of_length_pos (same ▸ workerCount_pos some_)
    obtain ⟨good, lands⟩ := going.ended workers gone
    refine ⟨⟨_, good⟩, fun hex f found => ?_, fun hex mem absent => ?_, fun path out => ?_⟩
    · rw [going.kept (.chunk hex) ?_ id, found]
      intro g mem own
      obtain ⟨e, there, rfl⟩ := List.mem_map.mp own
      cases found.symm.trans (todo.absent g mem e there)
    · rcases todo.complete hex mem with there | ⟨g, inGroups, e, there, rfl⟩
      · rw [absent] at there
        cases there
      · exact lands g inGroups e there
    · cases path with
      | beside | out => exact going.kept _ (fun _ _ own => own) id
      | cacheRoot | cacheDir | chunk | chunkTmp | dir => exact out.elim

/-- There is such a run. -/
theorem answeredDownload_runs (sound : σ.Flawless) (todo : ToFetch env packs content w manifest groups) :
    ∃ total v, AnsweredDownload env packs σ groups connections w (.ok total) v := by
  suffices runs : ∃ r v, AnsweredDownload env packs σ groups connections w r v by
    obtain ⟨r, v, run⟩ := runs
    obtain ⟨⟨total, rfl⟩, -⟩ := run.lands sound todo
    exact ⟨total, v, run⟩
  simp only [AnsweredDownload]
  split
  · exact ⟨_, _, rfl, rfl⟩
  · have begun : Pool.start (workerCount groups connections) w =
        ⟨⟨0, false, false, none, false, .zero⟩, goneFirst 0 (workerCount groups connections), w⟩ := rfl
    obtain ⟨q, steps, all⟩ := all_go sound todo (begun ▸ Going.start (workerCount groups connections) todo.absent)
    refine ⟨_, _, q, begun ▸ steps, fun a mem => ?_, rfl, rfl⟩
    rw [all] at mem
    exact List.eq_of_mem_replicate mem

end Finished

end Cavs
