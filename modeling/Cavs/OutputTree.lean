import Cavs.SessionRoute

/-!
# The directory that files are written to

Files are written beside their places and renamed into them, once the directories on the
way are made. A file where a directory has to be stops that, and so does a directory
where a file has to be.
-/
namespace Cavs
open FileProg (Bytes)
open LinkFs (Comp)
open List (cons_append flatMap_cons foldlM_cons foldl_append foldl_cons forall_mem_cons mem_append
  mem_singleton)
open Function (update update_apply update_of_ne update_self)
open Option (bind_eq_bind bind_eq_some_iff)

section Install
variable {W K V : Type} [DecidableEq K] (place part : W → K) (value : W → V)

/-- A file is written beside its place and moved there. -/
def installAt (files : K → Option V) (w : W) : K → Option V := fun path =>
  if path = place w then some (value w) else if path = part w then none else files path

/-- Nothing takes the place of the file or begins at it. -/
def Clears (w v : W) : Prop := place v ≠ place w ∧ part v ≠ place w

instance {w v : W} : Decidable (Clears place part w v) := inferInstanceAs (Decidable (_ ∧ _))

/-- The file is written, and what is written after it stays clear of it. -/
def Lasts (files : List W) (w : W) : Prop :=
  ∃ l v r, files = l ++ v :: r ∧ place v = place w ∧ value v = value w ∧ ∀ u ∈ r, Clears place part w u

variable {place part value} {old : K → Option V} {w : W}

theorem install_same : installAt place part value old w (place w) = some (value w) := if_pos rfl

theorem install_other {path : K} (other : place w ≠ path) (beside : part w ≠ path) :
    installAt place part value old w path = old path := by
  rw [installAt, if_neg (Ne.symm other), if_neg (Ne.symm beside)]

theorem splits_append {files l r : List W} {v : W} (split : files ++ [w] = l ++ v :: r) :
    l = files ∧ v = w ∧ r = [] ∨ ∃ r', r = r' ++ [w] ∧ files = l ++ v :: r' := by
  induction r using List.reverseRecOn with
  | nil =>
      obtain ⟨front, ends⟩ := List.append_inj' split rfl
      exact .inl ⟨front.symm, (List.singleton_inj.mp ends).symm, rfl⟩
  | append_singleton r u _ =>
      rw [← cons_append, ← List.append_assoc] at split
      obtain ⟨front, ends⟩ := List.append_inj' split rfl
      exact .inr ⟨r, by rw [List.singleton_inj.mp ends], front⟩

theorem forall_splits_append {P : List W → W → Prop} {files : List W} :
    (∀ l v r, files ++ [w] = l ++ v :: r → P l v) ↔ (∀ l v r, files = l ++ v :: r → P l v) ∧ P files w := by
  constructor
  · exact fun all => ⟨fun l v r split => all l v (r ++ [w]) (by simp [split]), all files w [] rfl⟩
  · rintro ⟨front, last⟩ l v r split
    rcases splits_append split with ⟨rfl, rfl, -⟩ | ⟨r', -, split⟩
    · exact last
    · exact front l v r' split

omit [DecidableEq K] in
theorem lasts_append {files : List W} {last : W} : Lasts place part value (files ++ [last]) w ↔
    (place last = place w ∧ value last = value w) ∨ Clears place part w last ∧ Lasts place part value files w := by
  constructor
  · rintro ⟨l, v, r, split, here, same, clear⟩
    rcases splits_append split with ⟨-, rfl, -⟩ | ⟨r', rfl, before⟩
    · exact .inl ⟨here, same⟩
    · exact .inr ⟨clear last (by simp), l, v, r', before, here, same, fun u there => clear u (by simp [there])⟩
  · rintro (⟨here, same⟩ | ⟨apart, l, v, r, rfl, here, same, clear⟩)
    · exact ⟨files, last, [], rfl, here, same, by simp⟩
    · refine ⟨l, v, r ++ [last], by simp, here, same, ?_⟩
      exact List.forall_mem_append.mpr ⟨clear, List.forall_mem_singleton.mpr apart⟩

/-- A written file is there at the end exactly when it lasts. -/
theorem installed_iff {files : List W} (mem : w ∈ files) :
    files.foldl (installAt place part value) old (place w) = some (value w) ↔ Lasts place part value files w := by
  induction files using List.reverseRecOn with
  | nil => cases mem
  | append_singleton files last ih =>
      rw [foldl_append, foldl_cons, List.foldl_nil, lasts_append]
      by_cases same : place last = place w
      · have there : installAt place part value (files.foldl (installAt place part value) old) last (place w) =
            some (value last) := same ▸ install_same
        have blocked : ¬ Clears place part w last := fun clear => clear.1 same
        rw [there, Option.some.injEq, or_iff_left fun both => blocked both.1, and_iff_right same]
      · have differs : last ≠ w := fun h => same (congrArg place h)
        by_cases beside : part last = place w
        · have gone : installAt place part value (files.foldl (installAt place part value) old) last (place w) = none := by
            rw [installAt, if_neg (Ne.symm same), if_pos beside.symm]
          have blocked : ¬ Clears place part w last := fun clear => clear.2 beside
          simp [gone, blocked, same]
        · have listed : w ∈ files := by
            rcases mem_append.mp mem with listed | here
            · exact listed
            · exact absurd (mem_singleton.mp here).symm differs
          have clear : Clears place part w last := ⟨same, beside⟩
          rw [install_other same beside, ih listed]
          simp [clear, same]

/-- Where nothing is put, what was there stays unless something is begun there. -/
theorem installs_other {files : List W} {path : K} (other : ∀ w ∈ files, place w ≠ path) :
    files.foldl (installAt place part value) old path = if ∃ w ∈ files, part w = path then none else old path := by
  induction files using List.reverseRecOn with
  | nil => simp
  | append_singleton files w ih =>
      rw [foldl_append, foldl_cons, List.foldl_nil, installAt, if_neg (Ne.symm (other w (by simp))),
        ih fun v mem => other v (by simp [mem])]
      by_cases here : path = part w
      · simp [here]
      · simp [here, Ne.symm here]

end Install

section Tree

inductive OutNode where
  | dir
  | file (b : Bytes)
  deriving DecidableEq

/-- What stands where, in a tree without links. -/
abbrev OutputTree := LinkFs.Path → Option OutNode

/-- Where a path leads. -/
def settle (p : List Comp) : LinkFs.Path := p.foldl (fun here c => match c with
  | .up => here.dropLast
  | .name n => here ++ [n]) []

/-- The directories on the way to a path, and the one it names. -/
def dirsOf (p : List Comp) : List LinkFs.Path := p.inits.map settle

namespace OutputTree

def makeDir (t : OutputTree) (d : LinkFs.Path) : Option OutputTree :=
  match t d with
  | some (.file _) => none
  | _ => some (update t d (some .dir))

def createDirAll (t : OutputTree) (p : List Comp) : Option OutputTree := (dirsOf p).foldlM makeDir t

/-- Begin a file beside its place. -/
def createPart (t : OutputTree) (path : List Comp) : Option OutputTree := do
  let t ← t.createDirAll path.dropLast
  match t (settle (partOf path)) with
  | some .dir => none
  | _ => some (update t (settle (partOf path)) (some (.file [])))

def place (w : WrittenFile) : LinkFs.Path := settle w.1

def part (w : WrittenFile) : LinkFs.Path := settle (partOf w.1)

abbrev install (t : OutputTree) (w : WrittenFile) : OutputTree := installAt place part (fun w => OutNode.file w.2) t w

/-- Rename the file into its place. -/
def finishPart (t : OutputTree) (w : WrittenFile) : Option OutputTree :=
  match t (part w) with
  | some (.file _) => if t (place w) = some .dir then none else some (t.install w)
  | _ => none

def writeFile (t : OutputTree) (w : WrittenFile) : Option OutputTree := do (← t.createPart w.1).finishPart w

/-- The combined file of a media track is open from the beginning to the end. -/
def writeMedia (t : OutputTree) (init : WrittenFile) (segments : List WrittenFile) (combined : WrittenFile) :
    Option OutputTree := do
  let t ← t.createPart init.1
  let t ← t.createPart combined.1
  let t ← t.finishPart init
  let t ← segments.foldlM writeFile t
  t.finishPart combined

/-- The files of a track, in the order of their renames. -/
def writeTrack (media : Bool) (t : OutputTree) (files : List WrittenFile) : Option OutputTree :=
  match media, files.head?, files.getLast? with
  | true, some init, some combined => t.writeMedia init files.tail.dropLast combined
  | _, _, _ => files.foldlM writeFile t

/-- The files of the tracks: a media track has two more than it has segments, any other has one. -/
def writeTracks (manifest : Manifest) : List ManifestTrack → List WrittenFile → OutputTree → Option OutputTree
  | [], _, t => some t
  | track :: rest, files, t => do
      let n := if isMedia track then (trackSegments manifest track).length + 2 else 1
      let t ← t.writeTrack (isMedia track) (files.take n)
      -- Nothing is renamed to a name that ends in a slash or in a single dot.
      if isMedia track || endsInPart track.name then writeTracks manifest rest (files.drop n) t else none

/-- The output directory, and the files that were put together from the cache. -/
def receive (t : OutputTree) (out : LinkFs.Path) (manifest : Manifest) (files : List WrittenFile) : Option OutputTree := do
  writeTracks manifest manifest.tracks files (← t.createDirAll (out.map .name))

end OutputTree

section Write
variable {t t' u : OutputTree} {w : WrittenFile} {files l : List WrittenFile} {p : LinkFs.Path}

namespace OutputTree

/-- The tree with these directories made. -/
def withDirs (ds : List LinkFs.Path) (t : OutputTree) : OutputTree := fun x => if x ∈ ds then some .dir else t x

theorem withDirs_append {ds more : List LinkFs.Path} : withDirs more (withDirs ds t) = withDirs (ds ++ more) t := by
  funext x
  by_cases known : x ∈ ds <;> by_cases new : x ∈ more <;> simp [withDirs, known, new]

theorem makeDirs_iff {ds : List LinkFs.Path} : ds.foldlM makeDir t = some t' ↔
    (∀ d ∈ ds, ∀ b, t d ≠ some (.file b)) ∧ t' = withDirs ds t := by
  induction ds generalizing t with
  | nil =>
      rw [show withDirs [] t = t from funext fun _ => if_neg List.not_mem_nil]
      simp [eq_comm]
  | cons d ds ih =>
      have first : ∀ t₁, makeDir t d = some t₁ ↔ (∀ b, t d ≠ some (.file b)) ∧ t₁ = update t d (some .dir) := by
        intro t₁
        unfold makeDir
        split
        · simp [*]
        · rename_i free
          exact ⟨fun made => ⟨free, (Option.some.inj made).symm⟩, fun made => congrArg some made.2.symm⟩
      have at_ : withDirs ds (update t d (some .dir)) = withDirs (d :: ds) t := by
        funext x
        by_cases same : x = d <;> by_cases inside : x ∈ ds <;> simp [withDirs, same, inside]
      simp only [foldlM_cons, bind_eq_bind, bind_eq_some_iff, first, ih, forall_mem_cons]
      constructor
      · rintro ⟨_, ⟨here, rfl⟩, later, rfl⟩
        refine ⟨⟨here, fun e mem b found => ?_⟩, at_⟩
        refine later e mem b ?_
        rw [update_of_ne, found]
        rintro rfl
        exact here b found
      · rintro ⟨⟨here, later⟩, rfl⟩
        refine ⟨_, ⟨here, rfl⟩, fun e mem b => ?_, at_.symm⟩
        rw [update_apply]
        split
        · simp
        · exact later e mem b

theorem createDirAll_there {c : List Comp} (there : ∀ d ∈ dirsOf c, t d = some .dir) : t.createDirAll c = some t := by
  refine makeDirs_iff.mpr ⟨fun d mem b => by simp [there d mem], funext fun x => ?_⟩
  unfold withDirs
  split
  · exact there x ‹_›
  · rfl

theorem createPart_iff {c : List Comp} : t.createPart c = some t' ↔ ∃ t₁, t.createDirAll c.dropLast = some t₁ ∧
    t₁ (settle (partOf c)) ≠ some .dir ∧ t' = update t₁ (settle (partOf c)) (some (.file [])) := by
  simp only [createPart, bind_eq_bind, bind_eq_some_iff]
  refine exists_congr fun t₁ => and_congr_right fun _ => ?_
  split
  · simp [*]
  · rename_i free
    exact ⟨fun began => ⟨free, (Option.some.inj began).symm⟩, fun began => congrArg some began.2.symm⟩

theorem createPart_taken {c : List Comp} (taken : t (settle (partOf c)) = some .dir) : t.createPart c = none := by
  refine Option.eq_none_iff_forall_ne_some.mpr fun u run => ?_
  obtain ⟨u₁, made, open_, -⟩ := createPart_iff.mp run
  obtain ⟨-, rfl⟩ := makeDirs_iff.mp made
  exact open_ (by simp [withDirs, taken])

theorem finishPart_iff : t.finishPart w = some t' ↔
    (∃ b, t (part w) = some (.file b)) ∧ t (place w) ≠ some .dir ∧ t' = t.install w := by
  unfold finishPart
  split
  · rename_i b begun
    split
    · simp [*]
    · rename_i free
      exact ⟨fun moved => ⟨⟨b, begun⟩, free, (Option.some.inj moved).symm⟩, fun moved => congrArg some moved.2.2.symm⟩
  · simp only [reduceCtorEq, false_iff]
    rintro ⟨⟨b, begun⟩, -⟩
    simp_all

/-- Directories stay, and those on the way to a file are there behind it. -/
theorem createPart_dirs {c : List Comp} (run : t.createPart c = some t') :
    (∀ x, t x = some .dir → t' x = some .dir) ∧ ∀ d ∈ dirsOf c.dropLast, t' d = some .dir := by
  obtain ⟨t₁, dirs, free, rfl⟩ := createPart_iff.mp run
  obtain ⟨-, rfl⟩ := makeDirs_iff.mp dirs
  have stays : ∀ x, withDirs (dirsOf c.dropLast) t x = some .dir →
      update (withDirs (dirsOf c.dropLast) t) (settle (partOf c)) (some (.file [])) x = some .dir := by
    intro x found
    rw [update_of_ne, found]
    rintro rfl
    exact free found
  exact ⟨fun x found => stays x (by simp [withDirs, found]), fun d mem => stays d (if_pos mem)⟩

theorem finishPart_dirs (run : t.finishPart w = some t') {x : LinkFs.Path} (found : t x = some .dir) :
    t' x = some .dir := by
  obtain ⟨⟨b, begun⟩, free, rfl⟩ := finishPart_iff.mp run
  refine (install_other ?_ ?_).trans found
  · rintro rfl
    exact free found
  · rintro rfl
    rw [begun] at found
    cases found

theorem writeFile_dirs (run : t.writeFile w = some t') :
    (∀ x, t x = some .dir → t' x = some .dir) ∧ ∀ d ∈ dirsOf w.1.dropLast, t' d = some .dir := by
  obtain ⟨t₁, began, moved⟩ := bind_eq_some_iff.mp run
  obtain ⟨stay, made⟩ := createPart_dirs began
  exact ⟨fun x found => finishPart_dirs moved (stay x found), fun d mem => finishPart_dirs moved (made d mem)⟩

theorem writeFiles_dirs (run : files.foldlM writeFile t = some t') :
    (∀ x, t x = some .dir → t' x = some .dir) ∧ ∀ w ∈ files, ∀ d ∈ dirsOf w.1.dropLast, t' d = some .dir := by
  induction files generalizing t with
  | nil =>
      cases run
      exact ⟨fun _ => id, nofun⟩
  | cons w files ih =>
      obtain ⟨t₁, wrote, later⟩ := bind_eq_some_iff.mp run
      obtain ⟨stay, made⟩ := writeFile_dirs wrote
      obtain ⟨stay', made'⟩ := ih later
      exact ⟨fun x found => stay' x (stay x found), forall_mem_cons.mpr ⟨fun d mem => stay' d (made d mem), made'⟩⟩

/-- The second tree has a file at `p`, where the first has no directory; elsewhere the two are the same. -/
structure Holds (p : LinkFs.Path) (t t' : OutputTree) : Prop where
  other : ∀ x, x ≠ p → t' x = t x
  begun : ∃ b, t' p = some (.file b)
  free : t p ≠ some .dir

/-- Both come to nothing, or to trees that are the same but for the file at `p`. -/
def Matched (p : LinkFs.Path) : Option OutputTree → Option OutputTree → Prop
  | none, none => True
  | some t, some t' => Holds p t t'
  | _, _ => False

theorem Matched.bind {o o' : Option OutputTree} {f g : OutputTree → Option OutputTree} (matched : Matched p o o')
    (more : ∀ t t', o = some t → o' = some t' → Holds p t t' → Matched p (f t) (g t')) :
    Matched p (o.bind f) (o'.bind g) := by
  cases o <;> cases o'
  · trivial
  · exact matched.elim
  · exact matched.elim
  · exact more _ _ rfl rfl matched

theorem Matched.bind_eq {o o' : Option OutputTree} {f g : OutputTree → Option OutputTree} (matched : Matched p o o')
    (more : ∀ t t', o = some t → Holds p t t' → f t = g t') : o.bind f = o'.bind g := by
  cases o <;> cases o'
  · rfl
  · exact matched.elim
  · exact matched.elim
  · exact more _ _ rfl matched

theorem Holds.finishPart (holds : Holds p t t') (apart : part w ≠ p) : Matched p (t.finishPart w) (t'.finishPart w) := by
  have place_ : t' (place w) = some .dir ↔ t (place w) = some .dir := by
    by_cases here : place w = p
    · obtain ⟨b, begun⟩ := holds.begun
      rw [here, begun]
      exact iff_of_false (by simp) holds.free
    · rw [holds.other _ here]
  unfold OutputTree.finishPart
  rw [holds.other _ apart]
  split
  · by_cases taken : t (place w) = some .dir
    · rw [if_pos taken, if_pos (place_.mpr taken)]
      trivial
    · rw [if_neg taken, if_neg (place_.not.mpr taken)]
      refine ⟨fun x other => ?_, ?_, ?_⟩
      · unfold install installAt
        rw [holds.other x other]
      · by_cases here : place w = p
        · exact ⟨w.2, here ▸ install_same⟩
        · obtain ⟨b, begun⟩ := holds.begun
          exact ⟨b, (install_other here apart).trans begun⟩
      · by_cases here : place w = p
        · rw [← here, install, install_same]
          simp
        · rw [install, install_other here apart]
          exact holds.free
  · trivial

theorem Holds.writeFile (holds : Holds p t t') (there : ∀ d ∈ dirsOf w.1.dropLast, t d = some .dir)
    (apart : part w ≠ p) : Matched p (t.writeFile w) (t'.writeFile w) := by
  have there' : ∀ d ∈ dirsOf w.1.dropLast, t' d = some .dir := by
    intro d mem
    rw [holds.other, there d mem]
    rintro rfl
    exact holds.free (there _ mem)
  unfold OutputTree.writeFile
  refine Matched.bind ?_ fun u u' _ _ holds => holds.finishPart apart
  rw [createPart, createPart, createDirAll_there there, createDirAll_there there', bind_eq_bind, Option.bind_some,
    Option.bind_some, show t' (settle (partOf w.1)) = _ from holds.other _ apart]
  split
  · trivial
  · refine ⟨fun x other => ?_, ?_, ?_⟩
    · rw [update_apply, update_apply, holds.other x other]
    · exact holds.begun.imp fun b begun => (update_of_ne (Ne.symm apart) ..).trans begun
    · exact fun taken => holds.free ((update_of_ne (Ne.symm apart) ..).symm.trans taken)

theorem Holds.writeFiles (holds : Holds p t t') (there : ∀ w ∈ files, ∀ d ∈ dirsOf w.1.dropLast, t d = some .dir)
    (apart : ∀ w ∈ files, part w ≠ p) : Matched p (files.foldlM OutputTree.writeFile t) (files.foldlM OutputTree.writeFile t') := by
  induction files generalizing t t' with
  | nil => exact holds
  | cons w files ih =>
      obtain ⟨here, there⟩ := forall_mem_cons.mp there
      obtain ⟨aside, apart⟩ := forall_mem_cons.mp apart
      rw [foldlM_cons, foldlM_cons]
      refine (holds.writeFile here aside).bind fun u u' wrote _ holds => ih holds (fun v mem d inside => ?_) apart
      exact (writeFile_dirs wrote).1 d (there v mem d inside)

/-- The file that was begun before is moved as one that is begun now. -/
theorem Holds.finish (holds : Holds (part w) t t') (there : ∀ d ∈ dirsOf w.1.dropLast, t d = some .dir) :
    t.writeFile w = t'.finishPart w := by
  obtain ⟨b, begun⟩ := holds.begun
  have began : t.createPart w.1 = some (update t (part w) (some (.file []))) :=
    createPart_iff.mpr ⟨t, createDirAll_there there, holds.free, rfl⟩
  have place_ : update t (part w) (some (.file [])) (place w) = some .dir ↔ t' (place w) = some .dir := by
    by_cases here : place w = part w
    · rw [here, update_self, begun]
      simp
    · rw [update_of_ne here, holds.other _ here]
  have same : install (update t (part w) (some (.file []))) w = t'.install w := by
    funext x
    unfold install installAt
    split
    · rfl
    · split
      · rfl
      · rename_i beside
        rw [update_of_ne beside, holds.other x beside]
  rw [OutputTree.writeFile, began, bind_eq_bind, Option.bind_some, OutputTree.finishPart, OutputTree.finishPart,
    update_self, begun]
  simp only [place_, same]

/-- The combined file is begun before the others and moved behind them, which comes to the same as
writing it last. -/
theorem writeMedia_eq {init combined : WrittenFile} (within : ∀ w ∈ files ++ [combined], dirsOf w.1.dropLast ⊆ dirsOf init.1.dropLast)
    (apart : ∀ w ∈ init :: files, part w ≠ part combined) :
    t.writeMedia init files combined = (init :: (files ++ [combined])).foldlM writeFile t := by
  rw [writeMedia, foldlM_cons, writeFile, bind_eq_bind, Option.bind_assoc]
  cases began : t.createPart init.1 with
  | none => rfl
  | some t₁ =>
      have there : ∀ w ∈ files ++ [combined], ∀ d ∈ dirsOf w.1.dropLast, t₁ d = some .dir :=
        fun w mem d inside => (createPart_dirs began).2 d (within w mem inside)
      have dirs : t₁.createDirAll combined.1.dropLast = some t₁ := createDirAll_there (there combined (by simp))
      simp only [Option.bind_some]
      by_cases taken : t₁ (part combined) = some .dir
      · rw [createPart_taken taken]
        refine (Option.bind_eq_none_iff.mpr fun u moved => ?_).symm
        rw [List.foldlM_append]
        refine Option.bind_eq_none_iff.mpr fun v wrote => ?_
        -- A directory in the way of the combined file stays there.
        rw [foldlM_cons, writeFile, createPart_taken ((writeFiles_dirs wrote).1 _ (finishPart_dirs moved taken))]
        rfl
      · have second := createPart_iff.mpr ⟨t₁, dirs, taken, rfl⟩
        have holds : Holds (part combined) t₁ (update t₁ (part combined) (some (.file []))) :=
          ⟨fun x other => update_of_ne other .., ⟨[], update_self ..⟩, taken⟩
        rw [second, Option.bind_some]
        refine ((holds.finishPart (apart init (by simp))).bind_eq fun u u' moved holds => ?_).symm
        have kept : ∀ w ∈ files ++ [combined], ∀ d ∈ dirsOf w.1.dropLast, u d = some .dir :=
          fun w mem d inside => finishPart_dirs moved (there w mem d inside)
        rw [List.foldlM_append]
        refine (holds.writeFiles (fun w mem => kept w (by simp [mem])) fun w mem => apart w (by simp [mem])).bind_eq
          fun v v' wrote holds => ?_
        refine (Option.bind_fun_some _).trans ?_
        exact holds.finish fun d inside => (writeFiles_dirs wrote).1 d (kept combined (by simp) d inside)

section Room
variable {out : LinkFs.Path} {old : OutputTree} {r : List WrittenFile}

/-- The directories that are made for these files. -/
def neededDirs (out : LinkFs.Path) (files : List WrittenFile) : List LinkFs.Path :=
  dirsOf (out.map .name) ++ files.flatMap fun w => dirsOf w.1.dropLast

/-- What is there once these files are written. -/
def after (out : LinkFs.Path) (old : OutputTree) (files : List WrittenFile) : OutputTree :=
  withDirs (neededDirs out files) (files.foldl install old)

/-- A file can be written behind others: no file is left where a directory is to be made, and it is
begun where no directory is. -/
structure Admits (out : LinkFs.Path) (old : OutputTree) (l : List WrittenFile) (w : WrittenFile) : Prop where
  dirs : ∀ d ∈ dirsOf w.1.dropLast, d ∉ neededDirs out l → ∀ b, old d = some (.file b) → ∃ v ∈ l, part v = d
  part : part w ∉ neededDirs out (l ++ [w]) ∧ old (part w) ≠ some .dir

/-- No file has its place where a directory is or is needed. -/
def Placeable (out : LinkFs.Path) (old : OutputTree) (files : List WrittenFile) : Prop :=
  ∀ w ∈ files, place w ∉ neededDirs out files ∧ old (place w) ≠ some .dir

theorem neededDirs_append : neededDirs out (l ++ [w]) = neededDirs out l ++ dirsOf w.1.dropLast := by
  simp [neededDirs]

theorem after_nil : after out old [] = withDirs (dirsOf (out.map .name)) old := by
  simp [after, neededDirs]

theorem neededDirs_front : neededDirs out l ⊆ neededDirs out (l ++ r) := by
  rw [neededDirs, neededDirs, List.flatMap_append, ← List.append_assoc]
  exact List.subset_append_left ..

theorem Placeable.front (placeable : Placeable out old (l ++ r)) : Placeable out old l := fun w mem =>
  (placeable w (List.mem_append_left _ mem)).imp_left fun outside inside => outside (neededDirs_front inside)

theorem installs_dir (placeable : ∀ w ∈ l, old (place w) ≠ some .dir) (parts : ∀ w ∈ l, old (part w) ≠ some .dir)
    {x : LinkFs.Path} : l.foldl install old x = some .dir ↔ old x = some .dir := by
  induction l using List.reverseRecOn with
  | nil => rfl
  | append_singleton l w ih =>
      have before := ih (fun v mem => placeable v (by simp [mem])) fun v mem => parts v (by simp [mem])
      rw [foldl_append, foldl_cons, List.foldl_nil, install, installAt]
      split
      · rename_i here
        simpa [here] using placeable w (by simp)
      · split
        · rename_i here
          simpa [here] using parts w (by simp)
        · exact before

/-- The directories a file needs can be made behind others. -/
theorem after_clear (placeable : Placeable out old (l ++ [w])) :
    (∀ d ∈ dirsOf w.1.dropLast, ∀ b, after out old l d ≠ some (.file b)) ↔
      ∀ d ∈ dirsOf w.1.dropLast, d ∉ neededDirs out l → ∀ b, old d = some (.file b) → ∃ v ∈ l, part v = d := by
  refine forall₂_congr fun d mem => ?_
  unfold after withDirs
  split
  · simp [*]
  · rename_i new
    have other : ∀ v ∈ l, place v ≠ d := by
      rintro v inside rfl
      exact (placeable v (by simp [inside])).1 (by rw [neededDirs_append]; exact List.mem_append_right _ mem)
    simp only [new, not_false_iff, true_implies]
    rw [installs_other other]
    split <;> simp [*]

/-- A file that is begun behind others and moved is installed. -/
theorem install_begun {t : OutputTree} {ds : List LinkFs.Path} (outside : place w ∉ ds) (aside : part w ∉ ds) :
    install (update (withDirs ds t) (part w) (some (.file []))) w = withDirs ds (t.install w) := by
  funext x
  by_cases here : x = place w
  · rw [here, withDirs, if_neg outside, install, install, install_same, install_same]
  · by_cases beside : x = part w
    · rw [beside, withDirs, if_neg aside, install, install, installAt, installAt, if_neg (beside ▸ here), if_pos rfl,
        if_neg (beside ▸ here), if_pos rfl]
    · rw [withDirs, install, install, install_other (Ne.symm here) (Ne.symm beside),
        install_other (Ne.symm here) (Ne.symm beside), update_of_ne beside, withDirs]

/-- A file is written behind others exactly where it is admitted. -/
theorem writeFile_after (placeable : Placeable out old (l ++ [w])) (parts : ∀ v ∈ l, old (part v) ≠ some .dir) :
    (after out old l).writeFile w = some t ↔ Admits out old l w ∧ t = after out old (l ++ [w]) := by
  have dir : ∀ {x}, l.foldl install old x = some .dir ↔ old x = some .dir :=
    installs_dir (fun v mem => (placeable v (by simp [mem])).2) parts
  have free : ∀ {x}, withDirs (neededDirs out (l ++ [w])) (l.foldl install old) x ≠ some .dir ↔
      x ∉ neededDirs out (l ++ [w]) ∧ old x ≠ some .dir := by
    intro x
    by_cases inside : x ∈ neededDirs out (l ++ [w]) <;> simp [withDirs, inside, dir]
  have made : withDirs (dirsOf w.1.dropLast) (after out old l) =
      withDirs (neededDirs out (l ++ [w])) (l.foldl install old) := by
    rw [after, withDirs_append, neededDirs_append]
  have written : after out old (l ++ [w]) = withDirs (neededDirs out (l ++ [w])) ((l.foldl install old).install w) := by
    rw [after, foldl_append, foldl_cons, List.foldl_nil]
  obtain ⟨outside, vacant⟩ := placeable w (by simp)
  rw [written]
  constructor
  · intro run
    obtain ⟨t₁, began, finished⟩ := bind_eq_some_iff.mp run
    obtain ⟨t₀, make, open_, rfl⟩ := createPart_iff.mp began
    obtain ⟨clear, same⟩ := makeDirs_iff.mp make
    obtain rfl := same.trans made
    obtain ⟨-, -, rfl⟩ := finishPart_iff.mp finished
    have aside := free.mp open_
    exact ⟨⟨(after_clear placeable).mp clear, aside⟩, install_begun outside aside.1⟩
  · rintro ⟨admits, rfl⟩
    have began := createPart_iff.mpr ⟨_, makeDirs_iff.mpr ⟨(after_clear placeable).mpr admits.dirs, made.symm⟩,
      free.mpr admits.part, rfl⟩
    refine bind_eq_some_iff.mpr ⟨_, began, finishPart_iff.mpr ⟨⟨[], update_self ..⟩, ?_,
      (install_begun outside admits.part.1).symm⟩⟩
    by_cases here : place w = part w
    · rw [here]
      exact (update_self ..).trans_ne (by simp)
    · exact (update_of_ne here ..).trans_ne (free.mpr ⟨outside, vacant⟩)

/-- Files are written one behind the other exactly where each is admitted behind those before it. -/
theorem writeFiles_after (placeable : Placeable out old files) :
    files.foldlM writeFile (after out old []) = some t ↔
      (∀ l w r, files = l ++ w :: r → Admits out old l w) ∧ t = after out old files := by
  induction files using List.reverseRecOn generalizing t with
  | nil => simp [eq_comm]
  | append_singleton files w ih =>
      have parts : (∀ l v r, files = l ++ v :: r → Admits out old l v) → ∀ v ∈ files, old (part v) ≠ some .dir := by
        intro admits v mem
        obtain ⟨l, r, split⟩ := List.append_of_mem mem
        exact (admits l v r split).part.2
      rw [forall_splits_append, List.foldlM_append, bind_eq_bind, bind_eq_some_iff]
      simp only [foldlM_cons, List.foldlM_nil, bind_pure, ih placeable.front]
      constructor
      · rintro ⟨_, ⟨front, rfl⟩, wrote⟩
        obtain ⟨last, rfl⟩ := (writeFile_after placeable (parts front)).mp wrote
        exact ⟨⟨front, last⟩, rfl⟩
      · rintro ⟨⟨front, last⟩, rfl⟩
        exact ⟨_, ⟨front, rfl⟩, (writeFile_after placeable (parts front)).mpr ⟨last, rfl⟩⟩

/-- There is room for the files: no file has its place where a directory is or is needed, and each
is admitted behind those before it. -/
structure Roomy (out : LinkFs.Path) (files : List WrittenFile) (old : OutputTree) : Prop where
  root : ∀ d ∈ dirsOf (out.map .name), ∀ b, old d ≠ some (.file b)
  placeable : Placeable out old files
  admits : ∀ l w r, files = l ++ w :: r → Admits out old l w

end Room

section Tracks
variable {manifest : Manifest} {filesOf : ManifestTrack → List WrittenFile} {tracks : List ManifestTrack} {out : LinkFs.Path}
  {old : OutputTree}

/-- As many files of a track as are written for one of its kind; those of a media track need no
directory that the first does not need, and none begins where the last does. -/
structure Shaped (manifest : Manifest) (filesOf : ManifestTrack → List WrittenFile) : Prop where
  other : ∀ track, isMedia track = false → ∃ file, filesOf track = [file]
  media : ∀ track, isMedia track = true → ∃ init segments combined, filesOf track = init :: (segments ++ [combined]) ∧
    segments.length = (trackSegments manifest track).length ∧
    (∀ w ∈ segments ++ [combined], dirsOf w.1.dropLast ⊆ dirsOf init.1.dropLast) ∧
    ∀ w ∈ init :: segments, part w ≠ part combined

/-- The tracks are written file by file, and their names have to do. -/
theorem writeTracks_iff (shaped : Shaped manifest filesOf) :
    writeTracks manifest tracks (tracks.flatMap filesOf) t = some t' ↔
      (∀ track ∈ tracks, isMedia track = false → endsInPart track.name = true) ∧
        (tracks.flatMap filesOf).foldlM writeFile t = some t' := by
  induction tracks generalizing t with
  | nil => simp [writeTracks]
  | cons track rest ih =>
      have long : (filesOf track).length = if isMedia track then (trackSegments manifest track).length + 2 else 1 := by
        cases kind : isMedia track with
        | false =>
            obtain ⟨file, is⟩ := shaped.other track kind
            rw [is]
            rfl
        | true =>
            obtain ⟨init, segments, combined, is, same, -⟩ := shaped.media track kind
            simp [is, same]
      have wrote : t.writeTrack (isMedia track) (filesOf track) = (filesOf track).foldlM writeFile t := by
        cases kind : isMedia track with
        | false => rfl
        | true =>
            obtain ⟨init, segments, combined, is, -, within, apart⟩ := shaped.media track kind
            rw [is, ← writeMedia_eq within apart]
            simp [writeTrack, List.getLast?_cons]
      have name : (isMedia track || endsInPart track.name) = true ↔ (isMedia track = false → endsInPart track.name = true) := by
        cases isMedia track <;> simp
      rw [writeTracks, flatMap_cons, ← long, List.take_left, List.drop_left, wrote, List.foldlM_append, forall_mem_cons,
        ← name]
      simp only [bind_eq_bind, bind_eq_some_iff]
      split
      · rename_i ends
        simp only [ih, ends, true_and]
        exact ⟨fun ⟨u, wrote, names, later⟩ => ⟨names, u, wrote, later⟩,
          fun ⟨names, u, wrote, later⟩ => ⟨u, wrote, names, later⟩⟩
      · rename_i ends
        simp [ends]

/-- All files come to lie in their places exactly when there is room for them, the names are names
of files and nothing that is written later takes a place away. -/
theorem receive_iff (shaped : Shaped manifest filesOf) :
    (∃ t, old.receive out manifest (manifest.tracks.flatMap filesOf) = some t ∧
      ∀ w ∈ manifest.tracks.flatMap filesOf, t (place w) = some (.file w.2)) ↔
      (∀ track ∈ manifest.tracks, isMedia track = false → endsInPart track.name = true) ∧
        Roomy out (manifest.tracks.flatMap filesOf) old ∧
        ∀ w ∈ manifest.tracks.flatMap filesOf,
          Lasts place part (fun w => OutNode.file w.2) (manifest.tracks.flatMap filesOf) w := by
  have root : ∀ t, old.createDirAll (out.map .name) = some t ↔
      (∀ d ∈ dirsOf (out.map .name), ∀ b, old d ≠ some (.file b)) ∧ t = after out old [] := by
    intro t
    rw [createDirAll, makeDirs_iff, after_nil]
  simp only [receive, bind_eq_bind, bind_eq_some_iff, root, writeTracks_iff shaped]
  generalize manifest.tracks.flatMap filesOf = files
  have last : Placeable out old files → ∀ w ∈ files,
      (after out old files (place w) = some (.file w.2) ↔ Lasts place part (fun w => OutNode.file w.2) files w) := by
    intro placeable w mem
    rw [after, withDirs, if_neg (placeable w mem).1]
    exact installed_iff mem
  constructor
  · rintro ⟨t, ⟨_, ⟨clear, rfl⟩, names, run⟩, there⟩
    obtain ⟨stay, made⟩ := writeFiles_dirs run
    have placeable : Placeable out old files := by
      intro w mem
      have taken : t (place w) ≠ some .dir := by simp [there w mem]
      refine ⟨fun inside => taken ?_, fun found => taken (stay _ ?_)⟩
      · rcases mem_append.mp inside with inside | inside
        · exact stay _ (if_pos (by simpa [neededDirs] using inside))
        · obtain ⟨v, mem, inside⟩ := List.mem_flatMap.mp inside
          exact made v mem _ inside
      · rw [after, withDirs, List.foldl_nil, found, ite_self]
    obtain ⟨admits, rfl⟩ := (writeFiles_after placeable).mp run
    exact ⟨names, ⟨clear, placeable, admits⟩, fun w mem => (last placeable w mem).mp (there w mem)⟩
  · rintro ⟨names, ⟨clear, placeable, admits⟩, lasts⟩
    exact ⟨_, ⟨_, ⟨clear, rfl⟩, names, (writeFiles_after placeable).mpr ⟨admits, rfl⟩⟩, fun w mem =>
      (last placeable w mem).mpr (lasts w mem)⟩

end Tracks

end OutputTree
end Write
end Tree

end Cavs
