import Cavs.InstallTree

/-!
# Verifying an install against a manifest

The digests of the manifest say which files there should be; every other file of the directory
is extra. Both looks at the directory follow the links that are there.
-/
namespace Cavs.Install
open FileProg (Bytes)

section Reach
variable (t : Nodes) (beyond : List OsName → Option Bytes)

/-- Go on from a directory. What a link leads to is left to `jump`, and what lies outside of the
tree to `beyond`. -/
def steps (jump : RelPath → List OsName → Option Bytes) : RelPath → List OsName → Option Bytes
  | _, [] => none
  | here, c :: rest =>
      if c = [] ∨ c = [46] then steps jump here rest
      else if c = [46, 46] then if here = [] then beyond (c :: rest) else steps jump here.dropLast rest
      else match t (here ++ [c]) with
        | none => none
        | some (.file content _) => if rest = [] then some content else none
        | some .directory => steps jump (here ++ [c]) rest
        | some (.symlink target) =>
            if target.head? = some 47 then beyond (target.splitOn 47 ++ rest)
            else jump here (target.splitOn 47 ++ rest)

/-- Through at most so many links. -/
def reach : (links : Nat) → RelPath → List OsName → Option Bytes
  | 0 => steps t beyond fun _ _ => none
  | links + 1 => steps t beyond (reach links)

end Reach

section Verify
variable (sha256 : Bytes → ChunkHash) (d : DiskTree) (beyond : List OsName → Option Bytes)

/-- The bytes of the regular file that a path of the directory leads to. -/
def leads (p : RelPath) : Option Bytes := reach (nodeAt d) beyond 40 [] p

/-- A name joined to the directory; an absolute one stands for itself. -/
def leadsName (name : String) : Option Bytes :=
  if name.toList.head? = some '/' then beyond (parse name) else leads d beyond (parse name)

def checkFile (r : Compare.VerifyReport) (x : String × String) : Compare.VerifyReport :=
  match leadsName d beyond x.1 with
  | none => { r with missing := r.missing ++ [x.1] }
  | some content =>
      let r := { r with filesChecked := r.filesChecked + 1, bytesChecked := r.bytesChecked + content.length }
      if eqIgnoreAsciiCase (toHex (sha256 content)) x.2 then r else { r with modified := r.modified ++ [x.1] }

def checkExtra (digests : List (String × String)) (r : Compare.VerifyReport) (x : RelPath × DiskNode) : Compare.VerifyReport :=
  if (leads d beyond x.1).isSome && !(digests.map Prod.fst).contains x.1.spelled then
    { r with extra := r.extra ++ [x.1.spelled] }
  else r

/-- There is no report when the manifest has no digests. -/
def verifyAgainstManifest (meta_ : List (String × String)) : Option Compare.VerifyReport :=
  let digests := stripped "sha256:" meta_
  if digests = [] then none
  else some (d.listing.foldl (checkExtra d beyond digests) (digests.foldl (checkFile sha256 d beyond) ⟨0, 0, [], [], []⟩))

/-- Whether the command succeeds. -/
def verifyInstall (meta_ : List (String × String)) (allowExtra : Bool) : Bool :=
  match verifyAgainstManifest sha256 d beyond meta_ with
  | none => false
  | some r => (if allowExtra then { r with extra := [] } else r).ok

end Verify

section Accepts
variable {sha256 : Bytes → ChunkHash} {d : DiskTree} {beyond : List OsName → Option Bytes} {r : Compare.VerifyReport}
  {digests : List (String × String)}

theorem ok_iff : r.ok = true ↔ r.modified = [] ∧ r.missing = [] ∧ r.extra = [] := by
  rw [Compare.VerifyReport.ok, Bool.and_eq_true, Bool.and_eq_true, List.isEmpty_iff, List.isEmpty_iff, List.isEmpty_iff, and_assoc]

theorem checkFile_ok {x : String × String} : (checkFile sha256 d beyond r x).ok = true ↔
    r.ok = true ∧ ∃ content, leadsName d beyond x.1 = some content ∧ eqIgnoreAsciiCase (toHex (sha256 content)) x.2 = true := by
  rw [checkFile]
  cases leadsName d beyond x.1 with
  | none => simp [ok_iff]
  | some content =>
      cases same : eqIgnoreAsciiCase (toHex (sha256 content)) x.2 <;> simp [ok_iff, same]

theorem checkFiles_ok :
    (digests.foldl (checkFile sha256 d beyond) r).ok = true ↔
      r.ok = true ∧ ∀ x ∈ digests, ∃ content, leadsName d beyond x.1 = some content ∧
        eqIgnoreAsciiCase (toHex (sha256 content)) x.2 = true := by
  induction digests generalizing r with
  | nil => simp
  | cons x rest ih => rw [List.foldl_cons, ih, checkFile_ok, List.forall_mem_cons, and_assoc]

theorem checkExtra_ok {x : RelPath × DiskNode} :
    (checkExtra d beyond digests r x).ok = true ↔
      r.ok = true ∧ (leads d beyond x.1 ≠ none → ∃ v, (x.1.spelled, v) ∈ digests) := by
  rw [checkExtra]
  cases leads d beyond x.1 with
  | none => simp
  | some content =>
      by_cases known : ∃ v, (x.1.spelled, v) ∈ digests
      · simp [known]
      · simp [known, ok_iff]

theorem checkExtras_ok {l : List (RelPath × DiskNode)} :
    (l.foldl (checkExtra d beyond digests) r).ok = true ↔
      r.ok = true ∧ ∀ x ∈ l, leads d beyond x.1 ≠ none → ∃ v, (x.1.spelled, v) ∈ digests := by
  induction l generalizing r with
  | nil => simp
  | cons x rest ih => rw [List.foldl_cons, ih, checkExtra_ok, List.forall_mem_cons, and_assoc]

/-- When the check without extra files succeeds. -/
theorem verifyInstall_iff {meta_ : List (String × String)} : verifyInstall sha256 d beyond meta_ false = true ↔
    stripped "sha256:" meta_ ≠ [] ∧
      (∀ x ∈ stripped "sha256:" meta_, ∃ content, leadsName d beyond x.1 = some content ∧
        eqIgnoreAsciiCase (toHex (sha256 content)) x.2 = true) ∧
      ∀ x ∈ d.listing, leads d beyond x.1 ≠ none → ∃ v, (x.1.spelled, v) ∈ stripped "sha256:" meta_ := by
  rw [verifyInstall, verifyAgainstManifest]
  by_cases none_ : stripped "sha256:" meta_ = []
  · simp [none_]
  · simp only [if_neg none_, Bool.false_eq_true, if_false, checkExtras_ok, checkFiles_ok, and_assoc]
    exact ⟨fun ⟨_, files, extra⟩ => ⟨none_, files, extra⟩, fun ⟨_, files, extra⟩ => ⟨rfl, files, extra⟩⟩

end Accepts

end Cavs.Install
