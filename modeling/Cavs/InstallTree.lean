import Cavs.Compare
import Cavs.Fetch

/-!
# A packed directory and its install

A directory is packed into one track for each file and meta entries for the rest. An install
into an empty directory stages the files, moves them into place, makes the links and removes
what it staged.
-/
namespace Cavs.Install
open FileProg (Bytes)
open List (append_cancel_left cons_ne_nil forall_mem_cons mem_append mem_cons mem_map mem_singleton
  prefix_append)
open Option (bind_eq_some_iff)

section Pack

/-- What the container of a directory says: its meta entries, and the bytes of each track. -/
structure PackedDir where
  meta_ : List (String × String)
  tracks : List (String × Bytes)
  deriving DecidableEq, Repr

inductive PackDirError where
  | unsafePath (rel : String)
  | noFiles
  deriving DecidableEq, Repr

variable (sha256 : Bytes → ChunkHash) (packer label : String) (ignores : String → Bool → Bool)

def fileMeta (rel : String) (content : Bytes) (executable : Bool) : List (String × String) :=
  [("sha256:" ++ rel, toHex (sha256 content)), ("profile:" ++ rel, label)] ++
    if executable then [("exec:" ++ rel, "1")] else []

/-- One entry of the tree. The rules of the tree and the caller may leave it out. -/
def packEntry (p : PackedDir) (x : RelPath × DiskNode) : Except PackDirError PackedDir :=
  let rel := x.1.spelled
  if !pathIsSafe rel then .error (.unsafePath rel)
  else if ignores rel (x.2 = .directory) then .ok p
  else match x.2 with
    | .symlink target => .ok { p with meta_ := p.meta_ ++ [("symlink:" ++ rel, String.ofList (lossy target))] }
    | .directory => .ok { p with meta_ := p.meta_ ++ [("dir:" ++ rel, "1")] }
    | .file content executable =>
        .ok ⟨p.meta_ ++ fileMeta sha256 label rel content executable, p.tracks ++ [(rel, content)]⟩

def packEntries : PackedDir → List (RelPath × DiskNode) → Except PackDirError PackedDir
  | p, [] => .ok p
  | p, x :: rest => do packEntries (← packEntry sha256 label ignores p x) rest

def packDir (t : DiskTree) : Except PackDirError PackedDir := do
  let p ← packEntries sha256 label ignores ⟨[("packer", packer), ("payload", "directory")], []⟩ t.listing
  if p.tracks = [] then .error .noFiles else return p

end Pack

/-- The entries under a prefix, without the prefix. -/
def stripped (front : String) (meta_ : List (String × String)) : List (String × String) :=
  meta_.filterMap fun p => (front.toList.isPrefixOf? p.1.toList).map fun rest => (String.ofList rest, p.2)

/-- A path text as the file system takes it apart. -/
def parse (name : String) : RelPath := (strBytes name).splitOn 47

section Nodes

/-- What lies at each path of the output directory. -/
abbrev Nodes := RelPath → Option DiskNode

def Nodes.set (t : Nodes) (p : RelPath) (node : DiskNode) : Nodes := fun q => if q = p then some node else t q

def Nodes.del (t : Nodes) (p : RelPath) : Nodes := fun q => if q = p then none else t q

/-- `create_dir_all`; nothing but directories lies above what an install makes. -/
def mkdirs : RelPath → List OsName → Nodes → Option Nodes
  | _, [], t => some t
  | here, c :: rest, t =>
      match t (here ++ [c]) with
      | none => mkdirs (here ++ [c]) rest (t.set (here ++ [c]) .directory)
      | some .directory => mkdirs (here ++ [c]) rest t
      | some _ => none

/-- A file or link is put at a path, over a file or link that is there. -/
def place (t : Nodes) (p : RelPath) (node : DiskNode) : Option Nodes := do
  let t ← mkdirs [] p.dropLast t
  if t p = some .directory then none else return t.set p node

def rename (t : Nodes) (source target : RelPath) : Option Nodes := do
  let t ← mkdirs [] target.dropLast t
  let node ← t source
  if t target = some .directory then none else return (t.del source).set target node

end Nodes

section Commit
variable (journal : Bytes)

def stagingRoot : RelPath := [strBytes ".cavs-staging"]

def journalPath : RelPath := stagingRoot ++ [strBytes "apply-journal.json"]

def stage : List (String × Bytes) → Nodes → Option Nodes
  | [], t => some t
  | (name, content) :: rest, t => do stage rest (← place t (stagingRoot ++ parse name) (.file content false))

/-- A journal that cannot be written is passed over. -/
def writeJournal (t : Nodes) : Nodes :=
  if t journalPath = some .directory then t else t.set journalPath (.file journal false)

/-- The meta entries under a prefix; a path that could lead out is passed. -/
def metaPaths (meta_ : List (String × String)) (front : String) : List (String × String) :=
  (stripped front meta_).filter fun p => !unsafeName p.1

def makeDirs : List (String × String) → Nodes → Option Nodes
  | [], t => some t
  | (dir, _) :: rest, t => do makeDirs rest (← mkdirs [] (parse dir) t)

def moveStaged : List (String × Bytes) → Nodes → Option Nodes
  | [], t => some t
  | (name, _) :: rest, t => do moveStaged rest (← rename t (stagingRoot ++ parse name) (parse name))

def markExecutable : List (String × String) → Nodes → Nodes
  | [], t => t
  | (path, _) :: rest, t =>
      markExecutable rest <| match t (parse path) with
        | some (.file content _) => t.set (parse path) (.file content true)
        | _ => t

def makeLinks : List (String × String) → Nodes → Option Nodes
  | [], t => some t
  | (path, target) :: rest, t => do makeLinks rest (← place t (parse path) (.symlink (strBytes target)))

/-- The renames and what goes with them. An empty directory has nothing to prune. -/
def commitDirectory (c : PackedDir) (t : Nodes) : Option Nodes := do
  let t ← makeDirs (metaPaths c.meta_ "dir:") (writeJournal journal t)
  let t ← moveStaged c.tracks t
  let t ← makeLinks (metaPaths c.meta_ "symlink:") (markExecutable (metaPaths c.meta_ "exec:") t)
  return fun p => if stagingRoot.isPrefixOf p then none else t p

/-- A fresh install of a container, or none when it fails. -/
def install (c : PackedDir) : Option Nodes := do
  if c.tracks.any fun track => unsafeName track.1 then none
  else commitDirectory journal c (← stage c.tracks fun _ => none)

end Commit

/-! ## What a step does to the other paths -/
section Spared
variable {t t' t'' : Nodes} {p q here : RelPath} {node : DiskNode} {l : List OsName}

/-- A path is as it was, or a directory was made there. -/
def Spared (t t' : Nodes) (q : RelPath) : Prop := t' q = t q ∨ t q = none ∧ t' q = some .directory

theorem Spared.trans (first : Spared t t' q) (second : Spared t' t'' q) : Spared t t'' q := by
  obtain same | ⟨absent, made⟩ := first
  · rwa [Spared, ← same]
  · obtain same | ⟨absent', -⟩ := second
    · exact .inr ⟨absent, same.trans made⟩
    · rw [made] at absent'
      cases absent'

theorem Spared.keeps (spared : Spared t t' q) (there : t q = some node) : t' q = some node := by
  obtain same | ⟨absent, -⟩ := spared
  · exact same.trans there
  · rw [there] at absent
    cases absent

/-- There is nothing at the path, or a directory. -/
def Bare (t : Nodes) (q : RelPath) : Prop := t q = none ∨ t q = some .directory

theorem Spared.bare (spared : Spared t t' q) (bare : Bare t q) : Bare t' q := by
  obtain same | ⟨-, made⟩ := spared
  · rwa [Bare, same]
  · exact .inr made

theorem set_spared (other : q ≠ p) : Spared t (t.set p node) q := .inl (if_neg other)

theorem mkdirs_spared (made : mkdirs here l t = some t') : Spared t t' q := by
  induction l generalizing here t with
  | nil =>
      cases made
      exact .inl rfl
  | cons c rest ih =>
      rw [mkdirs] at made
      cases there : t (here ++ [c]) with
      | none =>
          rw [there] at made
          refine Spared.trans ?_ (ih made)
          by_cases same : q = here ++ [c]
          · subst same
            exact .inr ⟨there, if_pos rfl⟩
          · exact set_spared same
      | some node =>
          rw [there] at made
          cases node with
          | directory => exact ih made
          | file content executable => cases made
          | symlink target => cases made

theorem place_spec (done : place t p node = some t') : t' p = some node ∧ ∀ q, q ≠ p → Spared t t' q := by
  obtain ⟨made, ran, rest⟩ := bind_eq_some_iff.mp done
  split at rest
  · cases rest
  · cases rest
    exact ⟨if_pos rfl, fun q other => (mkdirs_spared ran).trans (set_spared other)⟩

theorem rename_spec {source target : RelPath} (done : rename t source target = some t') (there : t source = some node) :
    t' target = some node ∧ ∀ q, q ≠ source → q ≠ target → Spared t t' q := by
  obtain ⟨made, ran, rest⟩ := bind_eq_some_iff.mp done
  obtain ⟨node', found, rest⟩ := bind_eq_some_iff.mp rest
  obtain rfl := Option.some.inj (((mkdirs_spared ran).keeps there).symm.trans found)
  split at rest
  · cases rest
  · cases rest
    refine ⟨if_pos rfl, fun q s d => (mkdirs_spared ran).trans (.inl ?_)⟩
    exact (if_neg d).trans (if_neg s)

/-- Where a rename leaves other paths, whatever it moves. -/
theorem rename_spared {source target : RelPath} (done : rename t source target = some t') (s : q ≠ source) (d : q ≠ target) :
    Spared t t' q := by
  obtain ⟨made, ran, rest⟩ := bind_eq_some_iff.mp done
  obtain ⟨node', -, rest⟩ := bind_eq_some_iff.mp rest
  split at rest
  · cases rest
  · cases rest
    exact (mkdirs_spared ran).trans (.inl ((if_neg d).trans (if_neg s)))

end Spared

/-! ## What an install leaves -/
section Result
variable {journal : Bytes} {c : PackedDir} {t t' : Nodes} {q : RelPath} {tracks : List (String × Bytes)}
  {entries : List (String × String)}

theorem stage_spec (done : stage tracks t = some t') (once : (tracks.map fun x => parse x.1).Nodup) :
    (∀ x ∈ tracks, t' (stagingRoot ++ parse x.1) = some (.file x.2 false)) ∧
      ∀ q, (∀ x ∈ tracks, q ≠ stagingRoot ++ parse x.1) → Spared t t' q := by
  induction tracks generalizing t with
  | nil =>
      cases done
      exact ⟨nofun, fun _ _ => .inl rfl⟩
  | cons x rest ih =>
      obtain ⟨first, placed, later⟩ := bind_eq_some_iff.mp done
      obtain ⟨new, once⟩ := List.nodup_cons.mp once
      obtain ⟨here, others⟩ := place_spec placed
      obtain ⟨staged, spared⟩ := ih later once
      refine ⟨fun y mem => ?_, fun q clear => ?_⟩
      · obtain rfl | mem := mem_cons.mp mem
        · refine (spared _ fun z mem same => new ?_).keeps here
          exact mem_map.mpr ⟨z, mem, (append_cancel_left same).symm⟩
        · exact staged y mem
      · obtain ⟨head, tail⟩ := forall_mem_cons.mp clear
        exact (others q head).trans (spared q tail)

theorem makeDirs_spared (done : makeDirs entries t = some t') : Spared t t' q := by
  induction entries generalizing t with
  | nil =>
      cases done
      exact .inl rfl
  | cons x rest ih =>
      obtain ⟨first, made, later⟩ := bind_eq_some_iff.mp done
      exact (mkdirs_spared made).trans (ih later)

theorem moveStaged_spared (done : moveStaged tracks t = some t') (outside : ¬ stagingRoot <+: q)
    (clear : ∀ x ∈ tracks, q ≠ parse x.1) : Spared t t' q := by
  induction tracks generalizing t with
  | nil =>
      cases done
      exact .inl rfl
  | cons x rest ih =>
      obtain ⟨first, moved, later⟩ := bind_eq_some_iff.mp done
      obtain ⟨head, tail⟩ := forall_mem_cons.mp clear
      refine (rename_spared moved (fun same => outside ?_) head).trans (ih later tail)
      exact same ▸ prefix_append ..

/-- What was staged gets to its place, when no file lies where files are staged. -/
theorem moveStaged_spec {content : String × Bytes → Bytes} (done : moveStaged tracks t = some t')
    (once : (tracks.map fun x => parse x.1).Nodup) (outside : ∀ x ∈ tracks, ¬ stagingRoot <+: parse x.1)
    (staged : ∀ x ∈ tracks, t (stagingRoot ++ parse x.1) = some (.file (content x) false)) :
    ∀ x ∈ tracks, t' (parse x.1) = some (.file (content x) false) := by
  induction tracks generalizing t with
  | nil => exact nofun
  | cons x rest ih =>
      obtain ⟨first, moved, later⟩ := bind_eq_some_iff.mp done
      obtain ⟨new, once⟩ := List.nodup_cons.mp once
      obtain ⟨head, tail⟩ := forall_mem_cons.mp outside
      obtain ⟨here, others⟩ := rename_spec moved (staged x (.head _))
      intro y mem
      obtain rfl | mem := mem_cons.mp mem
      · refine (moveStaged_spared later head fun z mem same => new ?_).keeps here
        exact mem_map.mpr ⟨z, mem, same.symm⟩
      · refine ih later once tail (fun z mem => (others _ (fun same => new ?_) fun same => head ?_).keeps (staged z (.tail _ mem))) y mem
        · exact mem_map.mpr ⟨z, mem, append_cancel_left same⟩
        · exact same ▸ prefix_append ..

theorem markExecutable_file {content : Bytes} {executable : Bool} (there : t q = some (.file content executable)) :
    ∃ e, markExecutable entries t q = some (.file content e) := by
  induction entries generalizing t executable with
  | nil => exact ⟨executable, there⟩
  | cons x rest ih =>
      rw [markExecutable]
      by_cases here : q = parse x.1
      · subst here
        rw [there]
        exact ih (if_pos rfl)
      · split
        · exact ih ((if_neg here).trans there)
        · exact ih there

theorem markExecutable_bare (bare : Bare t q) : Bare (markExecutable entries t) q := by
  induction entries generalizing t with
  | nil => exact bare
  | cons x rest ih =>
      rw [markExecutable]
      split
      · rename_i content executable there
        refine ih ?_
        by_cases here : q = parse x.1
        · subst here
          rw [Bare, there] at bare
          obtain absent | made := bare
          · cases absent
          · cases made
        · exact (set_spared here).bare bare
      · exact ih bare

theorem makeLinks_spared (done : makeLinks entries t = some t') (clear : ∀ x ∈ entries, q ≠ parse x.1) : Spared t t' q := by
  induction entries generalizing t with
  | nil =>
      cases done
      exact .inl rfl
  | cons x rest ih =>
      obtain ⟨first, placed, later⟩ := bind_eq_some_iff.mp done
      obtain ⟨head, tail⟩ := forall_mem_cons.mp clear
      exact ((place_spec placed).2 q head).trans (ih later tail)

theorem makeLinks_link (done : makeLinks entries t = some t')
    (link : (∃ x ∈ entries, parse x.1 = q) ∨ ∃ target, t q = some (.symlink target)) :
    ∃ target, t' q = some (.symlink target) := by
  induction entries generalizing t with
  | nil =>
      cases done
      obtain ⟨x, mem, -⟩ | link := link
      · cases mem
      · exact link
  | cons y rest ih =>
      obtain ⟨first, placed, later⟩ := bind_eq_some_iff.mp done
      obtain ⟨here, others⟩ := place_spec placed
      by_cases head : q = parse y.1
      · exact ih later (.inr ⟨strBytes y.2, head ▸ here⟩)
      · obtain ⟨x, mem, same⟩ | ⟨target, there⟩ := link
        · obtain rfl | mem := mem_cons.mp mem
          · exact absurd same.symm head
          · exact ih later (.inl ⟨x, mem, same⟩)
        · exact ih later (.inr ⟨target, (others q head).keeps there⟩)

/-- What is in place of a staged file once the journal is written. -/
def stagedBytes (journal : Bytes) (x : String × Bytes) : Bytes :=
  if parse x.1 = [strBytes "apply-journal.json"] then journal else x.2

theorem writeJournal_spared (outside : q ≠ journalPath) : Spared t (writeJournal journal t) q := by
  rw [writeJournal]
  split
  · exact .inl rfl
  · exact set_spared outside

theorem writeJournal_staged {x : String × Bytes} (staged : t (stagingRoot ++ parse x.1) = some (.file x.2 false)) :
    writeJournal journal t (stagingRoot ++ parse x.1) = some (.file (stagedBytes journal x) false) := by
  by_cases here : parse x.1 = [strBytes "apply-journal.json"]
  · rw [stagedBytes, if_pos here, writeJournal, here]
    rw [here] at staged
    rw [if_neg (by rw [journalPath, staged]; exact nofun)]
    exact if_pos rfl
  · rw [stagedBytes, if_neg here]
    exact (writeJournal_spared fun same => here (append_cancel_left same)).keeps staged

/-- The steps of an install that succeeds. -/
structure Steps (journal : Bytes) (c : PackedDir) (t : Nodes) : Prop where
  safe : ∀ x ∈ c.tracks, unsafeName x.1 = false
  ran : ∃ staged made moved linked,
    stage c.tracks (fun _ => none) = some staged ∧
    makeDirs (metaPaths c.meta_ "dir:") (writeJournal journal staged) = some made ∧
    moveStaged c.tracks made = some moved ∧
    makeLinks (metaPaths c.meta_ "symlink:") (markExecutable (metaPaths c.meta_ "exec:") moved) = some linked ∧
    t = fun p => if stagingRoot.isPrefixOf p then none else linked p

theorem install_steps (done : install journal c = some t) : Steps journal c t := by
  rw [install] at done
  split at done
  · cases done
  · rename_i safe
    obtain ⟨staged, one, done⟩ := bind_eq_some_iff.mp done
    obtain ⟨made, two, done⟩ := bind_eq_some_iff.mp done
    obtain ⟨moved, three, done⟩ := bind_eq_some_iff.mp done
    obtain ⟨linked, four, done⟩ := bind_eq_some_iff.mp done
    refine ⟨fun x mem => ?_, staged, made, moved, linked, one, two, three, four, (Option.some.inj done).symm⟩
    exact Bool.eq_false_iff.mpr fun unsafe_ => safe (List.any_eq_true.mpr ⟨x, mem, unsafe_⟩)

theorem isPrefixOf_iff {p : RelPath} : stagingRoot.isPrefixOf p = true ↔ stagingRoot <+: p := List.isPrefixOf_iff_prefix

theorem install_staging (done : install journal c = some t) (inside : stagingRoot <+: q) : t q = none := by
  obtain ⟨-, staged, made, moved, linked, -, -, -, -, rfl⟩ := install_steps done
  exact if_pos (isPrefixOf_iff.mpr inside)

/-- Each track is in place, if none lies where the files are staged and no link takes its place. -/
theorem install_file (done : install journal c = some t) (once : (c.tracks.map fun x => parse x.1).Nodup)
    (outside : ∀ x ∈ c.tracks, ¬ stagingRoot <+: parse x.1)
    (apart : ∀ x ∈ c.tracks, ∀ y ∈ metaPaths c.meta_ "symlink:", parse x.1 ≠ parse y.1) {x : String × Bytes}
    (mem : x ∈ c.tracks) : ∃ e, t (parse x.1) = some (.file (stagedBytes journal x) e) := by
  obtain ⟨-, staged, made, moved, linked, one, two, three, four, rfl⟩ := install_steps done
  have placed := (stage_spec one once).1
  have kept : ∀ x ∈ c.tracks, made (stagingRoot ++ parse x.1) = some (.file (stagedBytes journal x) false) :=
    fun x mem => (makeDirs_spared two).keeps (writeJournal_staged (placed x mem))
  obtain ⟨e, there⟩ := @markExecutable_file _ _ (metaPaths c.meta_ "exec:") _ _ (moveStaged_spec three once outside kept x mem)
  refine ⟨e, ?_⟩
  dsimp only
  rw [if_neg fun inside => outside x mem (isPrefixOf_iff.mp inside)]
  exact (makeLinks_spared four (apart x mem)).keeps there

/-- Nothing but directories lies at other paths. -/
theorem install_bare (done : install journal c = some t) (once : (c.tracks.map fun x => parse x.1).Nodup)
    (file : ∀ x ∈ c.tracks, q ≠ parse x.1) (link : ∀ y ∈ metaPaths c.meta_ "symlink:", q ≠ parse y.1) : Bare t q := by
  by_cases inside : stagingRoot <+: q
  · exact .inl (install_staging done inside)
  · obtain ⟨-, staged, made, moved, linked, one, two, three, four, rfl⟩ := install_steps done
    have clear : ∀ p, q ≠ stagingRoot ++ p := fun p same => inside (same ▸ prefix_append ..)
    have bare : Bare moved q := by
      refine (moveStaged_spared three inside file).bare ((makeDirs_spared two).bare ?_)
      refine (writeJournal_spared (clear _)).bare (((stage_spec one once).2 q fun x _ => clear _).bare (.inl rfl))
    have last := (makeLinks_spared four link).bare (markExecutable_bare bare)
    rw [Bare] at last ⊢
    rwa [if_neg fun here => inside (isPrefixOf_iff.mp here)]

theorem install_link (done : install journal c = some t) (outside : ¬ stagingRoot <+: q)
    (link : ∃ y ∈ metaPaths c.meta_ "symlink:", parse y.1 = q) : ∃ target, t q = some (.symlink target) := by
  obtain ⟨-, staged, made, moved, linked, -, -, -, four, rfl⟩ := install_steps done
  dsimp only
  rw [if_neg fun here => outside (isPrefixOf_iff.mp here)]
  exact makeLinks_link four (.inl link)

end Result

/-! ## What a container says of its tree -/
section Said
variable {sha256 : Bytes → ChunkHash} {packer label : String} {ignores : String → Bool → Bool} {t : DiskTree}
  {c : PackedDir} {p : RelPath}

/-- What lies at a path of a tree; a link is not followed. -/
def nodeAt (t : DiskTree) (p : RelPath) : Option DiskNode := (t.listing.find? fun x => decide (x.1 = p)).map Prod.snd

theorem nodeAt_eq_some {node : DiskNode} : nodeAt t p = some node ↔ (p, node) ∈ t.listing := by
  constructor
  · intro found
    obtain ⟨⟨q, node'⟩, here, rfl⟩ := Option.map_eq_some_iff.mp found
    have same : q = p := by simpa using List.find?_some here
    exact same ▸ List.mem_of_find?_eq_some here
  · intro mem
    cases found : t.listing.find? fun x => decide (x.1 = p) with
    | none => exact absurd (decide_eq_true rfl) (List.find?_eq_none.mp found (p, node) mem)
    | some x =>
        have same : x.1 = p := by simpa using List.find?_some found
        have one := List.inj_on_of_nodup_map t.listing_nodup (List.mem_of_find?_eq_some found) mem same
        rw [nodeAt, found, one]
        rfl

variable (sha256 label ignores) in
/-- The meta entries that one entry of a tree gets. -/
def metaOf (x : RelPath × DiskNode) : List (String × String) :=
  if ignores x.1.spelled (x.2 = .directory) then []
  else match x.2 with
    | .symlink target => [("symlink:" ++ x.1.spelled, String.ofList (lossy target))]
    | .directory => [("dir:" ++ x.1.spelled, "1")]
    | .file content executable => fileMeta sha256 label x.1.spelled content executable

variable (ignores) in
def trackOf (x : RelPath × DiskNode) : List (String × Bytes) :=
  if ignores x.1.spelled (x.2 = .directory) then []
  else match x.2 with
    | .file content _ => [(x.1.spelled, content)]
    | _ => []

theorem packEntry_ok {d d' : PackedDir} {x : RelPath × DiskNode} (done : packEntry sha256 label ignores d x = .ok d') :
    d' = ⟨d.meta_ ++ metaOf sha256 label ignores x, d.tracks ++ trackOf ignores x⟩ := by
  obtain ⟨q, node⟩ := x
  rw [packEntry] at done
  dsimp only at done
  split at done
  · cases done
  · split at done
    · rename_i ignored
      cases done
      simp [metaOf, trackOf, ignored]
    · rename_i kept
      have said : metaOf sha256 label ignores (q, node) = _ := if_neg kept
      have track : trackOf ignores (q, node) = _ := if_neg kept
      rw [said, track]
      cases node <;> cases done <;> simp only [List.append_nil]

theorem packEntries_ok {d d' : PackedDir} {l : List (RelPath × DiskNode)} (done : packEntries sha256 label ignores d l = .ok d') :
    d' = ⟨d.meta_ ++ l.flatMap (metaOf sha256 label ignores), d.tracks ++ l.flatMap (trackOf ignores)⟩ := by
  induction l generalizing d with
  | nil =>
      cases done
      simp
  | cons x rest ih =>
      cases first : packEntry sha256 label ignores d x with
      | error e =>
          rw [packEntries, first] at done
          cases done
      | ok middle =>
          rw [packEntries, first] at done
          rw [ih done, packEntry_ok first]
          simp

theorem packDir_ok (done : packDir sha256 packer label ignores t = .ok c) :
    c.meta_ = [("packer", packer), ("payload", "directory")] ++ t.listing.flatMap (metaOf sha256 label ignores) ∧
      c.tracks = t.listing.flatMap (trackOf ignores) ∧ c.tracks ≠ [] := by
  cases entries : packEntries sha256 label ignores ⟨[("packer", packer), ("payload", "directory")], []⟩ t.listing with
  | error e =>
      rw [packDir, entries] at done
      cases done
  | ok middle =>
      rw [packDir, entries] at done
      change (if middle.tracks = [] then Except.error PackDirError.noFiles else .ok middle) = .ok c at done
      split at done
      · cases done
      · rename_i some_
        cases done
        have said := packEntries_ok entries
        refine ⟨by rw [said], by rw [said]; rfl, some_⟩

theorem mem_stripped {front n v : String} {l : List (String × String)} :
    (n, v) ∈ stripped front l ↔ (front ++ n, v) ∈ l := by
  constructor
  · intro mem
    obtain ⟨⟨k, w⟩, listed, cut⟩ := List.mem_filterMap.mp mem
    obtain ⟨rest, found, same⟩ := Option.map_eq_some_iff.mp cut
    obtain ⟨rfl, rfl⟩ := Prod.mk.inj same
    have whole := List.isPrefixOf?_eq_some_iff_append_eq.mp found
    rwa [show front ++ String.ofList rest = k by rw [← String.toList_inj, String.toList_append, String.toList_ofList, whole]]
  · intro mem
    refine List.mem_filterMap.mpr ⟨(front ++ n, v), mem, ?_⟩
    rw [String.toList_append, List.isPrefixOf?_eq_some_iff_append_eq.mpr rfl, Option.map_some, String.ofList_toList]

/-- Two prefixes that differ never make the same key. -/
theorem prefix_apart {front other n rel : String} (apart : front.toList.isPrefixOf? (other.toList ++ rel.toList) = none) :
    front ++ n ≠ other ++ rel := by
  intro same
  rw [← String.toList_append, ← same, String.toList_append, List.isPrefixOf?_eq_some_iff_append_eq.mpr rfl] at apart
  cases apart

theorem mem_meta (done : packDir sha256 packer label ignores t = .ok c) {front n v : String}
    (packer_ : front ++ n ≠ "packer") (payload : front ++ n ≠ "payload") :
    (n, v) ∈ stripped front c.meta_ ↔ ∃ x ∈ t.listing, (front ++ n, v) ∈ metaOf sha256 label ignores x := by
  rw [mem_stripped, (packDir_ok done).1, mem_append, List.mem_flatMap]
  refine or_iff_right fun mem => ?_
  obtain same | mem := mem_cons.mp mem
  · exact packer_ (Prod.mk.inj same).1
  · exact payload (Prod.mk.inj (mem_singleton.mp mem)).1

/-- The digests are those of the files that are not left out. -/
theorem mem_digests (done : packDir sha256 packer label ignores t = .ok c) {n v : String} :
    (n, v) ∈ stripped "sha256:" c.meta_ ↔ ∃ p content e, (p, .file content e) ∈ t.listing ∧
      ignores p.spelled false = false ∧ n = p.spelled ∧ v = toHex (sha256 content) := by
  rw [mem_meta done (@prefix_apart _ "packer" _ "" rfl) (@prefix_apart _ "payload" _ "" rfl)]
  constructor
  · rintro ⟨⟨p, node⟩, listed, mem⟩
    rw [metaOf] at mem
    split at mem
    · cases mem
    · rename_i kept
      cases node with
      | directory | symlink _ => exact absurd (Prod.mk.inj (mem_singleton.mp mem)).1 (prefix_apart rfl)
      | file content e =>
          obtain mem | mem := mem_append.mp mem
          · obtain same | mem := mem_cons.mp mem
            · obtain ⟨key, value⟩ := Prod.mk.inj same
              exact ⟨p, content, e, listed, by simpa using kept, (String.append_right_inj _).mp key, value⟩
            · exact absurd (Prod.mk.inj (mem_singleton.mp mem)).1 (prefix_apart rfl)
          · split at mem
            · exact absurd (Prod.mk.inj (mem_singleton.mp mem)).1 (prefix_apart rfl)
            · cases mem
  · rintro ⟨p, content, e, listed, kept, rfl, rfl⟩
    refine ⟨(p, .file content e), listed, ?_⟩
    rw [metaOf, if_neg (by simp [kept])]
    exact List.mem_append_left _ (.head _)

theorem mem_links (done : packDir sha256 packer label ignores t = .ok c) {n v : String} :
    (n, v) ∈ stripped "symlink:" c.meta_ ↔ ∃ p target, (p, .symlink target) ∈ t.listing ∧
      ignores p.spelled false = false ∧ n = p.spelled ∧ v = String.ofList (lossy target) := by
  rw [mem_meta done (@prefix_apart _ "packer" _ "" rfl) (@prefix_apart _ "payload" _ "" rfl)]
  constructor
  · rintro ⟨⟨p, node⟩, listed, mem⟩
    rw [metaOf] at mem
    split at mem
    · cases mem
    · rename_i kept
      cases node with
      | directory => exact absurd (Prod.mk.inj (mem_singleton.mp mem)).1 (prefix_apart rfl)
      | symlink target =>
          obtain ⟨key, value⟩ := Prod.mk.inj (mem_singleton.mp mem)
          exact ⟨p, target, listed, by simpa using kept, (String.append_right_inj _).mp key, value⟩
      | file content e =>
          obtain mem | mem := mem_append.mp mem
          · obtain same | mem := mem_cons.mp mem
            · exact absurd (Prod.mk.inj same).1 (prefix_apart rfl)
            · exact absurd (Prod.mk.inj (mem_singleton.mp mem)).1 (prefix_apart rfl)
          · split at mem
            · exact absurd (Prod.mk.inj (mem_singleton.mp mem)).1 (prefix_apart rfl)
            · cases mem
  · rintro ⟨p, target, listed, kept, rfl, rfl⟩
    refine ⟨(p, .symlink target), listed, ?_⟩
    rw [metaOf, if_neg (by simp [kept])]
    exact .head _

theorem mem_tracks (done : packDir sha256 packer label ignores t = .ok c) {n : String} {content : Bytes} :
    (n, content) ∈ c.tracks ↔ ∃ p e, (p, .file content e) ∈ t.listing ∧ ignores p.spelled false = false ∧ n = p.spelled := by
  rw [(packDir_ok done).2.1, List.mem_flatMap]
  constructor
  · rintro ⟨⟨p, node⟩, listed, mem⟩
    rw [trackOf] at mem
    split at mem
    · cases mem
    · rename_i kept
      cases node with
      | directory => cases mem
      | symlink target => cases mem
      | file content' e =>
          obtain ⟨rfl, rfl⟩ := Prod.mk.inj (mem_singleton.mp mem)
          exact ⟨p, e, listed, by simpa using kept, rfl⟩
  · rintro ⟨p, e, listed, kept, rfl⟩
    refine ⟨(p, .file content e), listed, ?_⟩
    rw [trackOf, if_neg (by simp [kept])]
    exact .head _

end Said

/-! ## Paths that are text -/
section Text
variable {p q : RelPath} {t : DiskTree} {d : Dir} {top : RelPath} {node : DiskNode}

/-- A path that is text without a backslash, and so is spelled as it is. -/
def Text (p : RelPath) : Prop := ∃ s : String, p.bytes = strBytes s ∧ '\\' ∉ s.toList

theorem spelled_text {s : String} (same : p.bytes = strBytes s) (clear : '\\' ∉ s.toList) : p.spelled = s := by
  have plain : s.toList.map (fun c => if c = '\\' then '/' else c) = s.toList.map id :=
    List.map_congr_left fun c mem => if_neg fun slash : c = '\\' => clear (slash ▸ mem)
  rw [RelPath.spelled, same, lossy_strBytes, plain, List.map_id, String.ofList_toList]

/-- The names of a tree have no slash in them, and no path of it is the root. -/
theorem entries_valid (sound : d.Sound) (mem : (p, node) ∈ d.entries top) : ∃ rest, p = top ++ rest ∧ rest ≠ [] ∧
    ∀ c ∈ rest, ValidName c := by
  induction d generalizing top with
  | done => cases mem
  | file name _ _ rest ih | symlink name _ rest ih =>
      obtain here | below := mem_cons.mp mem
      · cases here
        exact ⟨[name], rfl, cons_ne_nil _ _, fun c mem => mem_singleton.mp mem ▸ sound.1⟩
      · exact ih sound.2.2.2 below
  | dir name inner rest ihInner ih =>
      obtain here | below := mem_cons.mp mem
      · cases here
        exact ⟨[name], rfl, cons_ne_nil _ _, fun c mem => mem_singleton.mp mem ▸ sound.1⟩
      · obtain inside | beside := mem_append.mp below
        · obtain ⟨more, rfl, -, valid⟩ := ihInner sound.2.2.1 inside
          refine ⟨name :: more, List.append_assoc .., cons_ne_nil _ _, fun c mem => ?_⟩
          obtain rfl | mem := mem_cons.mp mem
          · exact sound.1
          · exact valid c mem
        · exact ih sound.2.2.2 beside

theorem listed_valid (mem : (p, node) ∈ t.listing) : p ≠ [] ∧ ∀ c ∈ p, ValidName c := by
  obtain ⟨rest, rfl, some_, valid⟩ := entries_valid t.sound (DiskTree.mem_listing.mp mem)
  exact ⟨some_, valid⟩

/-- What is spelled as it is can be taken apart again. -/
theorem parse_spelled (text : Text p) (mem : (p, node) ∈ t.listing) : parse p.spelled = p := by
  obtain ⟨s, same, clear⟩ := text
  obtain ⟨some_, valid⟩ := listed_valid mem
  rw [spelled_text same clear, parse, ← same]
  exact List.splitOn_intercalate 47 (fun c mem => (valid c mem).2.1) some_

theorem spelled_inj {t' : DiskTree} {node' : DiskNode} (text : Text p) (text' : Text q) (mem : (p, node) ∈ t.listing)
    (mem' : (q, node') ∈ t'.listing) (same : p.spelled = q.spelled) : p = q := by
  rw [← parse_spelled text mem, same, parse_spelled text' mem']

end Text

end Cavs.Install
