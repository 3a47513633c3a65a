import Cavs.VerifyManifest

/-!
# What a verified directory holds

When a check against the manifest of a packed tree succeeds, and when that means that the
directory has the files of the tree and nothing else.
-/
namespace Cavs.Install
open FileProg (Bytes)

/-! ## Paths of a directory -/
section Paths
variable {d : DiskTree} {beyond : List OsName → Option Bytes} {p : RelPath} {node : DiskNode}

/-- What lies above an entry is a directory. -/
theorem entries_parent {t : Dir} {top front back : RelPath} (mem : (top ++ (front ++ back), node) ∈ t.entries top)
    (some_ : front ≠ []) (below : back ≠ []) : (top ++ front, .directory) ∈ t.entries top := by
  have short : ∀ name, front ++ back ≠ [name] := by
    intro name same
    have := congrArg List.length same
    have := List.length_pos_of_ne_nil some_
    have := List.length_pos_of_ne_nil below
    rw [List.length_append, List.length_singleton] at *
    omega
  induction t generalizing top front with
  | done => cases mem
  | file name _ _ rest ih | symlink name _ rest ih =>
      obtain here | mem := List.mem_cons.mp mem
      · exact absurd (List.append_cancel_left (Prod.mk.inj here).1) (short name)
      · exact .tail _ (ih mem some_ short)
  | dir name inner rest ihInner ih =>
      obtain here | mem := List.mem_cons.mp mem
      · exact absurd (List.append_cancel_left (Prod.mk.inj here).1) (short name)
      · obtain inside | beside := List.mem_append.mp mem
        · obtain ⟨other, -, more, shape⟩ := entries_below inside
          rw [List.append_assoc, List.singleton_append] at shape
          have shape := List.append_cancel_left shape
          cases front with
          | nil => exact absurd rfl some_
          | cons first front =>
              obtain ⟨rfl, shape⟩ := List.cons.inj shape
              cases front with
              | nil => exact .head _
              | cons second front =>
                  refine .tail _ (List.mem_append_left _ ?_)
                  have deeper : (top ++ [first] ++ (second :: front ++ back), node) ∈ inner.entries (top ++ [first]) := by
                    rwa [List.append_assoc]
                  have made := ihInner deeper (List.cons_ne_nil _ _) ?_
                  · rwa [List.append_assoc] at made
                  · intro name same
                    have := congrArg List.length same
                    have := List.length_pos_of_ne_nil below
                    rw [List.length_append, List.length_cons, List.length_singleton] at *
                    omega
        · exact .tail _ (List.mem_append_right _ (ih beside some_ short))

/-- A path whose parents are directories leads to what is there, unless that is a link. -/
theorem steps_at {t : Nodes} {jump : RelPath → List OsName → Option Bytes} {here rest : RelPath}
    (valid : ∀ c ∈ rest, ValidName c) (some_ : rest ≠ [])
    (parents : ∀ front back, rest = front ++ back → front ≠ [] → back ≠ [] → t (here ++ front) = some .directory)
    (plain : ∀ target, t (here ++ rest) ≠ some (.symlink target)) :
    steps t beyond jump here rest = match t (here ++ rest) with
      | some (.file content _) => some content
      | _ => none := by
  induction rest generalizing here with
  | nil => exact absurd rfl some_
  | cons c rest ih =>
      obtain ⟨first, later⟩ := List.forall_mem_cons.mp valid
      obtain ⟨filled, -, -, dot, dots⟩ := first
      rw [steps, if_neg (not_or.mpr ⟨filled, dot⟩), if_neg dots]
      cases rest with
      | nil =>
          cases node : t (here ++ [c]) with
          | none => rfl
          | some node' =>
              cases node' with
              | file content executable => rfl
              | directory => rfl
              | symlink target => exact absurd node (plain target)
      | cons next rest =>
          rw [parents [c] (next :: rest) rfl (List.cons_ne_nil _ _) (List.cons_ne_nil _ _)]
          have assoc : here ++ c :: next :: rest = here ++ [c] ++ next :: rest := by rw [List.append_assoc]; rfl
          rw [assoc] at plain ⊢
          refine ih later (List.cons_ne_nil _ _) (fun front back split some_ below => ?_) plain
          rw [List.append_assoc]
          exact parents (c :: front) back (by rw [split]; rfl) (List.cons_ne_nil _ _) below

/-- A path leads to a file that is there, or through a link. -/
theorem steps_link {t : Nodes} {jump : RelPath → List OsName → Option Bytes} {here rest : RelPath} {content : Bytes}
    (valid : ∀ c ∈ rest, ValidName c) (found : steps t beyond jump here rest = some content) :
    (∃ e, t (here ++ rest) = some (.file content e)) ∨
      ∃ front target, front <+: rest ∧ t (here ++ front) = some (.symlink target) := by
  induction rest generalizing here with
  | nil => cases found
  | cons c rest ih =>
      obtain ⟨⟨filled, -, -, dot, dots⟩, later⟩ := List.forall_mem_cons.mp valid
      rw [steps, if_neg (not_or.mpr ⟨filled, dot⟩), if_neg dots] at found
      cases node : t (here ++ [c]) with
      | none =>
          rw [node] at found
          cases found
      | some node' =>
          rw [node] at found
          cases node' with
          | file content' e =>
              dsimp only at found
              split at found
              · rename_i last
                cases found
                exact .inl ⟨e, last ▸ node⟩
              · cases found
          | symlink target => exact .inr ⟨[c], target, ⟨rest, rfl⟩, node⟩
          | directory =>
              rcases ih later found with ⟨e, there⟩ | ⟨front, target, ⟨back, rfl⟩, there⟩
              · exact .inl ⟨e, by rwa [List.append_assoc] at there⟩
              · exact .inr ⟨c :: front, target, ⟨back, rfl⟩, by rwa [List.append_assoc] at there⟩

theorem leads_link {content : Bytes} (valid : ∀ c ∈ p, ValidName c) (found : leads d beyond p = some content) :
    (∃ e, nodeAt d p = some (.file content e)) ∨ ∃ front target, front <+: p ∧ nodeAt d front = some (.symlink target) :=
  @steps_link _ _ _ [] _ _ valid found

theorem leads_at (there : nodeAt d p = some node) (plain : ∀ target, node ≠ .symlink target) :
    leads d beyond p = match some node with
      | some (.file content _) => some content
      | _ => none := by
  have mem := nodeAt_eq_some.mp there
  obtain ⟨some_, valid⟩ := listed_valid mem
  have at_ := @steps_at beyond (nodeAt d) (reach (nodeAt d) beyond 39) [] p valid some_ (fun front back split filled below => ?_)
    (fun target same => plain target (Option.some.inj (there.symm.trans same)))
  · rw [List.nil_append, there] at at_
    exact at_
  · refine nodeAt_eq_some.mpr (DiskTree.mem_listing.mpr ?_)
    rw [split] at mem
    exact entries_parent (DiskTree.mem_listing.mp mem) filled below

theorem leads_file {content : Bytes} {e : Bool} (there : nodeAt d p = some (.file content e)) :
    leads d beyond p = some content := leads_at there nofun

theorem leads_directory (there : nodeAt d p = some .directory) : leads d beyond p = none := leads_at there nofun

/-- A path leads nowhere when its first name is not there. -/
theorem leads_absent {c : OsName} {rest : RelPath} (valid : ValidName c) (absent : nodeAt d [c] = none) :
    leads d beyond (c :: rest) = none := by
  obtain ⟨filled, -, -, dot, dots⟩ := valid
  rw [leads, reach, steps, if_neg (not_or.mpr ⟨filled, dot⟩), if_neg dots, List.nil_append, absent]

end Paths

/-! ## What the check finds -/
section Exact
variable {sha256 : Bytes → ChunkHash} {packer label : String} {ignores : String → Bool → Bool} {journal : Bytes}
  {beyond : List OsName → Option Bytes} {t d : DiskTree} {c : PackedDir} {p : RelPath} {node : DiskNode}

/-- The directory is what a fresh install of the container leaves. -/
def Installed (journal : Bytes) (c : PackedDir) (d : DiskTree) : Prop :=
  ∃ nodes, install journal c = some nodes ∧ ∀ p, nodeAt d p = nodes p

/-- A file of the tree is not there with its bytes, or there is a file or link where the tree has nothing. -/
def Differs (t d : DiskTree) : Prop :=
  (∃ p content e, nodeAt t p = some (.file content e) ∧ ∀ e', nodeAt d p ≠ some (.file content e')) ∨
    ∃ p node, nodeAt d p = some node ∧ node ≠ .directory ∧ nodeAt t p = none

/-- The check of a directory against the manifest of a packed tree is exact on files. -/
def VerifiesExactly (sha256 : Bytes → ChunkHash) (beyond : List OsName → Option Bytes) (journal : Bytes) (c : PackedDir)
    (t d : DiskTree) : Prop :=
  (Installed journal c d → verifyInstall sha256 d beyond c.meta_ false = true) ∧
    (Differs t d → verifyInstall sha256 d beyond c.meta_ false = false)

/-- The names of the files and links are text without a backslash. -/
def Portable (t : DiskTree) : Prop := ∀ x ∈ t.listing, x.2 ≠ .directory → Text x.1

/-- A file of the tree that no rule leaves out. -/
def Kept (ignores : String → Bool → Bool) (t : DiskTree) (p : RelPath) (content : Bytes) : Prop :=
  (∃ e, nodeAt t p = some (.file content e)) ∧ ignores p.spelled false = false

/-- Every packed file of the tree is reached, through links or not. -/
def Delivers (ignores : String → Bool → Bool) (beyond : List OsName → Option Bytes) (t d : DiskTree) : Prop :=
  ∀ p content, Kept ignores t p content → leads d beyond p = some content

/-- No path that is not spelled like a packed file of the tree leads to a file. -/
def Clean (ignores : String → Bool → Bool) (beyond : List OsName → Option Bytes) (t d : DiskTree) : Prop :=
  ∀ p node, nodeAt d p = some node → leads d beyond p ≠ none → ∃ q content, Kept ignores t q content ∧ q.spelled = p.spelled

/-- No other bytes that the directory leads to have the digest of a file of the tree. -/
def Apart (sha256 : Bytes → ChunkHash) (beyond : List OsName → Option Bytes) (t d : DiskTree) : Prop :=
  ∀ p content e, nodeAt t p = some (.file content e) → ∀ name content', leadsName d beyond name = some content' →
    sha256 content' = sha256 content → content' = content

theorem spelled_relative (text : Text p) (mem : (p, node) ∈ t.listing) : p.spelled.toList.head? ≠ some '/' := by
  intro slash
  obtain ⟨rest, shape⟩ := List.head?_eq_some_iff.mp slash
  have bytes : strBytes p.spelled = 47 :: rest.flatMap String.utf8EncodeChar := by
    rw [← String.ofList_toList (s := p.spelled), shape, strBytes_ofList, List.flatMap_cons]
    rfl
  have parsed := parse_spelled text mem
  rw [parse, bytes, List.splitOn_cons_eq_if_modifyHead, if_pos (by decide)] at parsed
  exact ((listed_valid mem).2 [] (parsed ▸ .head _)).1 rfl

theorem leadsName_spelled (text : Text p) (mem : (p, node) ∈ t.listing) : leadsName d beyond p.spelled = leads d beyond p := by
  rw [leadsName, if_neg (spelled_relative text mem), parse_spelled text mem]

theorem Kept.listed {content : Bytes} (kept : Kept ignores t p content) (portable : Portable t) :
    (∃ e, (p, .file content e) ∈ t.listing) ∧ Text p := by
  obtain ⟨⟨e, there⟩, -⟩ := kept
  have mem := nodeAt_eq_some.mp there
  exact ⟨⟨e, mem⟩, portable _ mem nofun⟩

theorem mem_digests_kept (packed : packDir sha256 packer label ignores t = .ok c) {n v : String} :
    (n, v) ∈ stripped "sha256:" c.meta_ ↔ ∃ p content, Kept ignores t p content ∧ n = p.spelled ∧ v = toHex (sha256 content) := by
  rw [mem_digests packed]
  constructor
  · rintro ⟨p, content, e, mem, kept, same⟩
    exact ⟨p, content, ⟨⟨e, nodeAt_eq_some.mpr mem⟩, kept⟩, same⟩
  · rintro ⟨p, content, ⟨⟨e, there⟩, kept⟩, same⟩
    exact ⟨p, content, e, nodeAt_eq_some.mp there, kept, same⟩

/-- The check succeeds when the files are reached and nothing else leads to a file. -/
theorem verifyInstall_packed (packed : packDir sha256 packer label ignores t = .ok c) (portable : Portable t)
    (apart : Apart sha256 beyond t d) :
    verifyInstall sha256 d beyond c.meta_ false = true ↔ Delivers ignores beyond t d ∧ Clean ignores beyond t d := by
  rw [verifyInstall_iff]
  constructor
  · rintro ⟨-, files, extra⟩
    refine ⟨fun p content kept => ?_, fun p node there leads_ => ?_⟩
    · obtain ⟨⟨e, mem⟩, text⟩ := kept.listed portable
      obtain ⟨content', found, same⟩ := files _ ((mem_digests_kept packed).mpr ⟨p, content, kept, rfl, rfl⟩)
      have equal := apart p content e (nodeAt_eq_some.mpr mem) _ content' found ((eqIgnoreAsciiCase_toHex _ _).mp same)
      rwa [leadsName_spelled text mem, equal] at found
    · obtain ⟨v, known⟩ := extra (p, node) (nodeAt_eq_some.mp there) leads_
      obtain ⟨q, content, kept, same, -⟩ := (mem_digests_kept packed).mp known
      exact ⟨q, content, kept, same.symm⟩
  · rintro ⟨delivers, clean⟩
    refine ⟨fun none_ => ?_, fun ⟨name, digest⟩ known => ?_, fun ⟨p, node⟩ mem leads_ => ?_⟩
    · obtain ⟨⟨name, content⟩, track⟩ := List.exists_mem_of_ne_nil _ (packDir_ok packed).2.2
      obtain ⟨p, e, mem, kept, rfl⟩ := (mem_tracks packed).mp track
      have known := (mem_digests packed).mpr ⟨p, content, e, mem, kept, rfl, rfl⟩
      rw [none_] at known
      cases known
    · obtain ⟨p, content, kept, rfl, rfl⟩ := (mem_digests_kept packed).mp known
      obtain ⟨⟨e, mem⟩, text⟩ := kept.listed portable
      refine ⟨content, ?_, (eqIgnoreAsciiCase_toHex _ _).mpr rfl⟩
      rw [leadsName_spelled text mem]
      exact delivers p content kept
    · obtain ⟨q, content, kept, same⟩ := clean p node (nodeAt_eq_some.mpr mem) leads_
      exact ⟨_, (mem_digests_kept packed).mpr ⟨q, content, kept, same.symm, rfl⟩⟩

/-! ## The install of a packed tree -/

theorem tracks_once (packed : packDir sha256 packer label ignores t = .ok c) (portable : Portable t) :
    (c.tracks.map fun x => parse x.1).Nodup := by
  have sub : ∀ l : List (RelPath × DiskNode), (∀ x ∈ l, x ∈ t.listing) →
      ((l.flatMap (trackOf ignores)).map fun x => parse x.1).Sublist (l.map Prod.fst) := by
    intro l inside
    induction l with
    | nil => exact .slnil
    | cons x rest ih =>
        obtain ⟨here, later⟩ := List.forall_mem_cons.mp inside
        rw [List.flatMap_cons, List.map_append, List.map_cons]
        obtain ⟨p, node⟩ := x
        have one : ((trackOf ignores (p, node)).map fun x => parse x.1).Sublist [p] := by
          rw [trackOf]
          split
          · exact List.nil_sublist _
          · cases node with
            | file content e =>
                have parsed : parse p.spelled = p := parse_spelled (portable _ here fun bad => by cases bad) here
                simp only [List.map_cons, List.map_nil, parsed, List.Sublist.refl]
            | symlink target => exact List.nil_sublist _
            | directory => exact List.nil_sublist _
        exact one.append (ih later)
  rw [(packDir_ok packed).2.1]
  exact (sub _ fun _ mem => mem).nodup t.listing_nodup

/-- A file of an installed directory is a packed file of the tree. -/
theorem installed_file (packed : packDir sha256 packer label ignores t = .ok c) (portable : Portable t)
    (installed : Installed journal c d) {content : Bytes} {e : Bool} (there : nodeAt d p = some (.file content e)) :
    ∃ content', Kept ignores t p content' := by
  obtain ⟨nodes, done, same⟩ := installed
  rw [same] at there
  by_cases track : ∃ x ∈ c.tracks, p = parse x.1
  · obtain ⟨⟨name, bytes⟩, mem, rfl⟩ := track
    obtain ⟨q, e', listed, kept, rfl⟩ := (mem_tracks packed).mp mem
    rw [parse_spelled (portable _ listed nofun) listed]
    exact ⟨bytes, ⟨e', nodeAt_eq_some.mpr listed⟩, kept⟩
  · exfalso
    have outside : ¬ stagingRoot <+: p := by
      intro inside
      rw [install_staging done inside] at there
      cases there
    by_cases link : ∃ y ∈ metaPaths c.meta_ "symlink:", parse y.1 = p
    · obtain ⟨target, other⟩ := install_link done outside link
      rw [other] at there
      cases there
    · obtain absent | made := install_bare done (tracks_once packed portable) (fun x mem same => track ⟨x, mem, same⟩)
        fun y mem same => link ⟨y, mem, same.symm⟩
      · rw [absent] at there
        cases there
      · rw [made] at there
        cases there

/-- A link of an installed directory is at a path whose name is text. -/
theorem installed_link (packed : packDir sha256 packer label ignores t = .ok c) (portable : Portable t)
    (installed : Installed journal c d) {target : Bytes} (there : nodeAt d p = some (.symlink target)) :
    ∃ node, (p, node) ∈ t.listing ∧ Text p := by
  obtain ⟨nodes, done, same⟩ := installed
  rw [same] at there
  by_cases track : ∃ x ∈ c.tracks, p = parse x.1
  · obtain ⟨⟨name, bytes⟩, mem, rfl⟩ := track
    obtain ⟨q, e', listed, -, rfl⟩ := (mem_tracks packed).mp mem
    have text : Text q := portable _ listed nofun
    have parsed : parse q.spelled = q := parse_spelled text listed
    exact ⟨_, parsed.symm ▸ listed, parsed.symm ▸ text⟩
  · by_cases link : ∃ y ∈ metaPaths c.meta_ "symlink:", parse y.1 = p
    · obtain ⟨⟨name, value⟩, mem, rfl⟩ := link
      obtain ⟨q, target', listed, -, rfl, -⟩ := (mem_links packed).mp (List.mem_filter.mp mem).1
      have text : Text q := portable _ listed nofun
      have parsed : parse q.spelled = q := parse_spelled text listed
      exact ⟨_, parsed.symm ▸ listed, parsed.symm ▸ text⟩
    · exfalso
      obtain absent | made := install_bare done (tracks_once packed portable) (fun x mem same => track ⟨x, mem, same⟩)
        fun y mem same => link ⟨y, mem, same.symm⟩
      · rw [absent] at there
        cases there
      · rw [made] at there
        cases there

/-- Every packed file of the tree is installed, when none lies where an install stages its files. Only
the journal takes the place of what it is named like. -/
theorem installed_content (packed : packDir sha256 packer label ignores t = .ok c) (portable : Portable t)
    (installed : Installed journal c d) (outside : ∀ p content, Kept ignores t p content → ¬ stagingRoot <+: p)
    {content : Bytes} (packedFile : Kept ignores t p content) :
    ∃ e', nodeAt d p = some (.file (if p = [strBytes "apply-journal.json"] then journal else content) e') := by
  obtain ⟨nodes, done, same⟩ := installed
  have place : ∀ {x : String × Bytes}, x ∈ c.tracks → ∃ q e, (q, DiskNode.file x.2 e) ∈ t.listing ∧
      ignores q.spelled false = false ∧ parse x.1 = q := by
    rintro ⟨name, bytes⟩ mem
    obtain ⟨q, e', listed, kept, rfl⟩ := (mem_tracks packed).mp mem
    exact ⟨q, e', listed, kept, parse_spelled (portable _ listed nofun) listed⟩
  have clear : ∀ x ∈ c.tracks, ¬ stagingRoot <+: parse x.1 := by
    intro x mem
    obtain ⟨q, e', listed, kept, rfl⟩ := place mem
    exact outside _ _ ⟨⟨e', nodeAt_eq_some.mpr listed⟩, kept⟩
  have apart : ∀ x ∈ c.tracks, ∀ y ∈ metaPaths c.meta_ "symlink:", parse x.1 ≠ parse y.1 := by
    rintro x mem ⟨name, value⟩ link equal
    obtain ⟨q, e', listed, -, at_⟩ := place mem
    obtain ⟨q', target, listed', -, rfl, -⟩ := (mem_links packed).mp (List.mem_filter.mp link).1
    rw [at_, parse_spelled (portable _ listed' nofun) listed'] at equal
    subst equal
    have one := (nodeAt_eq_some.mpr listed).symm.trans (nodeAt_eq_some.mpr listed')
    cases one
  obtain ⟨⟨e, mem⟩, text⟩ := packedFile.listed portable
  have kept := packedFile.2
  have parsed : parse p.spelled = p := parse_spelled text mem
  obtain ⟨e', found⟩ := install_file done (tracks_once packed portable) clear apart ((mem_tracks packed).mpr ⟨p, e, mem, kept, rfl⟩)
  rw [parsed, stagedBytes, parsed, ← same] at found
  exact ⟨e', found⟩

/-- No link of a directory leads to a file, and the tree has no packed file that an install takes for
one of its own. -/
structure Undisturbed (ignores : String → Bool → Bool) (journal : Bytes) (beyond : List OsName → Option Bytes)
    (t d : DiskTree) : Prop where
  links : ∀ p target, nodeAt d p = some (.symlink target) → leads d beyond p = none
  staging : ∀ p content, Kept ignores t p content → ¬ stagingRoot <+: p
  journal : ∀ content, Kept ignores t [strBytes "apply-journal.json"] content → journal = content

/-- No packed file of the tree is got through a link, files that were left out are there, and what is
at a path that the tree has not is no link to nowhere, nor spelled like a file of the tree. -/
structure Unlinked (ignores : String → Bool → Bool) (beyond : List OsName → Option Bytes) (t d : DiskTree) : Prop where
  files : ∀ p content, Kept ignores t p content → ∀ front target, front <+: p →
    nodeAt d front = some (.symlink target) → leads d beyond p ≠ some content
  left : ∀ p content e, nodeAt t p = some (.file content e) → ignores p.spelled false = true →
    ∃ content' e', nodeAt d p = some (.file content' e')
  strays : ∀ p target, nodeAt d p = some (.symlink target) → nodeAt t p = none → leads d beyond p ≠ none
  names : ∀ p node, nodeAt d p = some node → node ≠ .directory → nodeAt t p = none →
    ∀ q content, Kept ignores t q content → q.spelled ≠ p.spelled

/-- An installed directory passes when nothing disturbed the install. -/
theorem Undisturbed.passes (packed : packDir sha256 packer label ignores t = .ok c) (portable : Portable t)
    (installed : Installed journal c d) (clear : Undisturbed ignores journal beyond t d) :
    Delivers ignores beyond t d ∧ Clean ignores beyond t d := by
  refine ⟨fun p content kept => ?_, fun p node there leads_ => ?_⟩
  · obtain ⟨e', found⟩ := installed_content packed portable installed clear.staging kept
    split at found
    · rename_i here
      subst here
      exact clear.journal content kept ▸ leads_file found
    · exact leads_file found
  · cases node with
    | directory => exact absurd (leads_directory there) leads_
    | symlink target => exact absurd (clear.links p target there) leads_
    | file content e =>
        obtain ⟨content', kept⟩ := installed_file packed portable installed there
        exact ⟨p, content', kept, rfl⟩

/-- One that passes was not disturbed. -/
theorem Undisturbed.of_passes (packed : packDir sha256 packer label ignores t = .ok c) (portable : Portable t)
    (installed : Installed journal c d) (delivers : Delivers ignores beyond t d) (clean : Clean ignores beyond t d) :
    Undisturbed ignores journal beyond t d := by
  have outside : ∀ p content, Kept ignores t p content → ¬ stagingRoot <+: p := by
    rintro p content kept ⟨rest, rfl⟩
    obtain ⟨nodes, done, same⟩ := installed
    obtain ⟨⟨e, mem⟩, -⟩ := kept.listed portable
    have absent : nodeAt d stagingRoot = none := (same _).trans (install_staging done (List.prefix_refl _))
    have valid := (listed_valid mem).2 (strBytes ".cavs-staging") (.head _)
    exact absurd ((delivers _ content kept).symm.trans (leads_absent valid absent)) (Option.some_ne_none content)
  refine ⟨fun p target link => ?_, outside, fun content kept => ?_⟩
  · by_contra some_
    obtain ⟨q, content, kept, same⟩ := clean p _ link some_
    obtain ⟨node, mem, text⟩ := installed_link packed portable installed link
    obtain ⟨⟨e, mem'⟩, text'⟩ := kept.listed portable
    obtain rfl := spelled_inj text' text mem' mem same
    obtain ⟨e', found⟩ := installed_content packed portable installed outside kept
    rw [link] at found
    cases found
  · obtain ⟨e', found⟩ := installed_content packed portable installed outside kept
    rw [if_pos rfl] at found
    exact Option.some.inj ((leads_file found).symm.trans (delivers _ content kept))

/-- A directory that passes holds the tree exactly when nothing in it is linked. -/
theorem not_differs_iff (portable : Portable t) (delivers : Delivers ignores beyond t d) (clean : Clean ignores beyond t d) :
    ¬ Differs t d ↔ Unlinked ignores beyond t d := by
  constructor
  · intro same
    obtain ⟨files, strays⟩ := not_or.mp same
    have there : ∀ p content e, nodeAt t p = some (.file content e) → ∃ e', nodeAt d p = some (.file content e') := by
      intro p content e file
      by_contra missing
      exact files ⟨p, content, e, file, fun e' found => missing ⟨e', found⟩⟩
    have known : ∀ p node, nodeAt d p = some node → node ≠ .directory → nodeAt t p ≠ none :=
      fun p node found real none_ => strays ⟨p, node, found, real, none_⟩
    refine ⟨fun p content ⟨⟨e, file⟩, _⟩ front target ⟨back, split_⟩ link => ?_, fun p content e file _ => ?_,
      fun p target link none_ => absurd none_ (known p _ link nofun), fun p node found real none_ => absurd none_ (known p node found real)⟩
    · -- Above a file there are directories only.
      obtain ⟨e', found⟩ := there p content e file
      subst split_
      exfalso
      by_cases last : back = []
      · rw [last, List.append_nil, link] at found
        cases found
      · have mem := nodeAt_eq_some.mp link
        have above := @entries_parent _ _ [] front back
          (DiskTree.mem_listing.mp (nodeAt_eq_some.mp found)) (listed_valid mem).1 last
        have dir := nodeAt_eq_some.mpr (DiskTree.mem_listing.mpr above)
        rw [List.nil_append, link] at dir
        cases dir
    · obtain ⟨e', found⟩ := there p content e file
      exact ⟨content, e', found⟩
  · rintro ⟨files, left, strays, names⟩ (⟨p, content, e, file, missing⟩ | ⟨p, node, found, real, none_⟩)
    · cases rule : ignores p.spelled false with
      | false =>
          have kept : Kept ignores t p content := ⟨⟨e, file⟩, rule⟩
          have valid := (listed_valid (nodeAt_eq_some.mp file)).2
          rcases leads_link valid (delivers p content kept) with ⟨e', there⟩ | ⟨front, target, inside, link⟩
          · exact missing e' there
          · exact files p content kept front target inside link (delivers p content kept)
      | true =>
          -- A file that was left out is one too many.
          obtain ⟨content', e', there⟩ := left p content e file rule
          obtain ⟨q, _, kept, same⟩ := clean p _ there (by rw [leads_file there]; exact Option.some_ne_none _)
          have mem := nodeAt_eq_some.mp file
          obtain ⟨⟨_, mem'⟩, text⟩ := kept.listed portable
          obtain rfl := spelled_inj text (portable _ mem nofun) mem' mem same
          exact absurd (kept.2.symm.trans rule) Bool.false_ne_true
    · have reached : leads d beyond p ≠ none := by
        cases node with
        | directory => exact absurd rfl real
        | symlink target => exact strays p target found none_
        | file content e =>
            rw [leads_file found]
            exact Option.some_ne_none _
      obtain ⟨q, content, kept, same⟩ := clean p node found reached
      exact names p node found real none_ q content kept same

end Exact

/-! ## Links that the check follows -/
section Links

/-- A digest that tells one content from all others. -/
def hashSeven (b : Bytes) : ChunkHash := if b = [7] then ⟨List.replicate 32 1, rfl⟩ else zeroHash

theorem hashSeven_apart {b : Bytes} (same : hashSeven b = hashSeven [7]) : b = [7] := by
  by_contra other
  rw [hashSeven, hashSeven, if_neg other, if_pos rfl] at same
  exact absurd same (by decide)

/-- One file. -/
theorem fileTree_sound : (Dir.file (strBytes "a") [7] false .done).Sound := by decide

def fileTree : DiskTree := ⟨.file (strBytes "a") [7] false .done, fileTree_sound⟩

def filePacked : PackedDir :=
  ⟨[("packer", "p"), ("payload", "directory"), ("sha256:a", toHex (hashSeven [7])), ("profile:a", "fast")], [("a", [7])]⟩

/-- The file and a link to it. -/
def linkTree : DiskTree := ⟨.file (strBytes "a") [7] false (.symlink (strBytes "l") (strBytes "a") .done), by decide⟩

def linkPacked : PackedDir := ⟨filePacked.meta_ ++ [("symlink:l", "a")], [("a", [7])]⟩

/-- A link out of the directory in the place of the file. -/
def linkedTree : DiskTree := ⟨.symlink (strBytes "a") (strBytes "/x") .done, by decide⟩

def always (_ : String) (_ : Bool) : Bool := false

theorem fileTree_listing : fileTree.listing = [([strBytes "a"], .file [7] false)] := by decide

theorem linkTree_listing :
    linkTree.listing = [([strBytes "a"], .file [7] false), ([strBytes "l"], .symlink (strBytes "a"))] := by decide

theorem install_linkPacked (journal : Bytes) : Installed journal linkPacked linkTree := by
  have safe : unsafeName "a" = false := by decide
  have a : parse "a" = [strBytes "a"] := by decide
  have l : parse "l" = [strBytes "l"] := by decide
  have dirs : metaPaths linkPacked.meta_ "dir:" = [] := by decide
  have exec : metaPaths linkPacked.meta_ "exec:" = [] := by decide
  have links : metaPaths linkPacked.meta_ "symlink:" = [("l", "a")] := by decide
  have apart : strBytes "apply-journal.json" ≠ strBytes "a" ∧ strBytes ".cavs-staging" ≠ strBytes "a" ∧
    strBytes ".cavs-staging" ≠ strBytes "l" ∧ strBytes "l" ≠ strBytes "a" := by decide
  obtain ⟨one, two, three, four⟩ := apart
  have tracks : linkPacked.tracks = [("a", [7])] := rfl
  have at_ : ∀ p, nodeAt linkTree p = if p = [strBytes "a"] then some (.file [7] false)
      else if p = [strBytes "l"] then some (.symlink (strBytes "a")) else none := by
    intro p
    rw [nodeAt, linkTree_listing]
    by_cases here : p = [strBytes "a"]
    · simp [here]
    · by_cases link : p = [strBytes "l"]
      · subst link
        simp [four, Ne.symm four]
      · simp [here, link, Ne.symm here, Ne.symm link]
  simp only [Installed, at_, install, commitDirectory, dirs, exec, links, tracks]
  generalize linkPacked = c at *
  generalize name : strBytes "a" = A at *
  generalize strBytes "l" = L at *
  simp [safe, stage, place, mkdirs, Nodes.set, a, l, writeJournal, makeDirs, moveStaged, rename, markExecutable, makeLinks,
    stagingRoot, journalPath, one, one.symm, two.symm, name]
  simp only [Nodes.set, Nodes.del, List.cons.injEq, four, three.symm, and_true, and_false, if_false, reduceCtorEq, Option.bind_some]
  refine ⟨_, rfl, fun p => ?_⟩
  by_cases inside : [strBytes ".cavs-staging"] <+: p
  · obtain ⟨rest, rfl⟩ := inside
    simp [two, three]
  · have outside : ∀ rest, p ≠ strBytes ".cavs-staging" :: rest := fun rest same => inside ⟨rest, same.symm⟩
    by_cases here : p = [A]
    · subst here
      simp [inside, Ne.symm four]
    · by_cases link : p = [L]
      · subst link
        simp [inside, four]
      · simp [inside, here, link, outside]

theorem fileTree_apart (beyond : List OsName → Option Bytes) (d : DiskTree) : Apart hashSeven beyond fileTree d := by
  intro p content e there name content' _ same
  have mem := nodeAt_eq_some.mp there
  rw [fileTree_listing] at mem
  obtain rfl : content = [7] := by simp at mem; exact mem.2.1
  exact hashSeven_apart same

theorem fileTree_portable : Portable fileTree := by
  have text : Text [strBytes "a"] := ⟨"a", by decide, by decide⟩
  intro x mem _
  rw [fileTree_listing] at mem
  exact List.mem_singleton.mp mem ▸ text

/-- The file and another one. -/
def pairTree : DiskTree := ⟨.file (strBytes "a") [7] false (.file (strBytes "b") [7] false .done), by decide⟩

theorem pairTree_listing :
    pairTree.listing = [([strBytes "a"], .file [7] false), ([strBytes "b"], .file [7] false)] := by decide

/-- A directory of files is checked exactly against the one file. -/
theorem fileTree_checked {d : DiskTree} (plain : ∀ x ∈ d.listing, x.1 = [strBytes "a"] ∨ x.1 = [strBytes "b"])
    (unlinked : ∀ x ∈ d.listing, ∃ content e, x.2 = .file content e) :
    (Installed [] filePacked d → Undisturbed always [] (fun _ => none) fileTree d) ∧
      Unlinked always (fun _ => none) fileTree d := by
  have linkless : ∀ p target, nodeAt d p ≠ some (.symlink target) := by
    intro p target link
    obtain ⟨content, e, other⟩ := unlinked _ (nodeAt_eq_some.mp link)
    cases other
  have one : ∀ p content, Kept always fileTree p content → p = [strBytes "a"] := by
    rintro p content ⟨⟨e, file⟩, -⟩
    have mem := nodeAt_eq_some.mp file
    rw [fileTree_listing] at mem
    exact (Prod.mk.inj (List.mem_singleton.mp mem)).1
  have apart : strBytes ".cavs-staging" ≠ strBytes "a" ∧ strBytes "apply-journal.json" ≠ strBytes "a" ∧
      RelPath.spelled [strBytes "a"] ≠ RelPath.spelled [strBytes "b"] := by decide
  refine ⟨fun _ => ⟨fun p target link => absurd link (linkless p target), fun p content kept inside => ?_, fun content kept => ?_⟩,
    fun p content kept front target _ link => absurd link (linkless front target), nofun,
    fun p target link => absurd link (linkless p target), fun p node found _ none_ q content kept same => ?_⟩
  · rw [one p content kept] at inside
    exact apart.1 (List.cons_prefix_cons.mp inside).1
  · exact absurd (List.cons.inj (one _ content kept)).1 apart.2.1
  · rw [one q content kept] at same
    rcases plain _ (nodeAt_eq_some.mp found) with here | here
    · obtain ⟨e, file⟩ := kept.1
      rw [show p = q from here.trans (one q content kept).symm, file] at none_
      cases none_
    · exact apart.2.2 (here ▸ same)

end Links

end Cavs.Install
