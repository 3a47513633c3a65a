import Cavs.Hash
import Mathlib.Data.List.Sort

/-!
# Directory trees and their walk

A tree as the file system holds it: names and link targets are byte strings, and a
directory lists what is in it in some order. Every tool that looks at a tree walks it with
a stack and sorts the paths it found.
-/
namespace Cavs
open FileProg (Bytes)
open List (append_assoc flatMap_cons map_append map_cons mem_append mem_cons mem_map nodup_cons sum_append
  sum_cons)

abbrev OsName := Bytes

/-- A path below the root of a tree; the root itself is the empty path. -/
abbrev RelPath := List OsName

/-- What the file system tells of one path. -/
inductive DiskNode where
  | file (content : Bytes) (executable : Bool)
  | symlink (target : Bytes)
  | directory
  deriving DecidableEq, Repr

def DiskNode.content : DiskNode → Bytes
  | .file content _ => content
  | _ => []

/-- What is in a directory, in the order it is read. -/
inductive Dir where
  | done
  | file (name : OsName) (content : Bytes) (executable : Bool) (rest : Dir)
  | symlink (name : OsName) (target : Bytes) (rest : Dir)
  | dir (name : OsName) (inner rest : Dir)
  deriving DecidableEq, Repr

def ValidName (name : OsName) : Prop :=
  name ≠ [] ∧ 47 ∉ name ∧ 0 ∉ name ∧ name ≠ [46] ∧ name ≠ [46, 46]

instance (name : OsName) : Decidable (ValidName name) := by
  unfold ValidName
  infer_instance

namespace Dir

def names : Dir → List OsName
  | done => []
  | file name _ _ rest => name :: rest.names
  | symlink name _ rest => name :: rest.names
  | dir name _ rest => name :: rest.names

/-- What a file system guarantees of a directory. -/
def Sound : Dir → Prop
  | done => True
  | file name content _ rest =>
      ValidName name ∧ name ∉ rest.names ∧ content.length < 2 ^ 64 ∧ rest.Sound
  | symlink name target rest => ValidName name ∧ name ∉ rest.names ∧ target ≠ [] ∧ rest.Sound
  | dir name inner rest => ValidName name ∧ name ∉ rest.names ∧ inner.Sound ∧ rest.Sound

instance decidableSound : (d : Dir) → Decidable d.Sound
  | done => inferInstanceAs (Decidable True)
  | file _ _ _ rest =>
      have := rest.decidableSound
      inferInstanceAs (Decidable (_ ∧ _ ∧ _ ∧ _))
  | symlink _ _ rest =>
      have := rest.decidableSound
      inferInstanceAs (Decidable (_ ∧ _ ∧ _ ∧ _))
  | dir _ inner rest =>
      have := inner.decidableSound
      have := rest.decidableSound
      inferInstanceAs (Decidable (_ ∧ _ ∧ _ ∧ _))

/-- Everything below `top`, without an order that a caller could rely on. -/
def entries (top : RelPath) : Dir → List (RelPath × DiskNode)
  | done => []
  | file name content executable rest => (top ++ [name], .file content executable) :: rest.entries top
  | symlink name target rest => (top ++ [name], .symlink target) :: rest.entries top
  | dir name inner rest =>
      (top ++ [name], .directory) :: (inner.entries (top ++ [name]) ++ rest.entries top)

/-- How many directories there are below, this one counted. -/
def dirs : Dir → Nat
  | done => 1
  | file _ _ _ rest => rest.dirs
  | symlink _ _ rest => rest.dirs
  | dir _ inner rest => inner.dirs + rest.dirs

/-- `read_dir`, each child with its metadata and with what it holds. -/
def children : Dir → List (OsName × DiskNode × Dir)
  | done => []
  | file name content executable rest => (name, .file content executable, done) :: rest.children
  | symlink name target rest => (name, .symlink target, done) :: rest.children
  | dir name inner rest => (name, .directory, inner) :: rest.children

end Dir

/-- The order of paths, component by component. -/
def RelPath.le (a b : RelPath) : Bool := (compare a b).isLE

section Walk

abbrev WalkStack := List (RelPath × Dir)

def subdirs (top : RelPath) (children : List (OsName × DiskNode × Dir)) : WalkStack :=
  children.filterMap fun c => if c.2.1 = .directory then some (top ++ [c.1], c.2.2) else none

/-- The last directory pushed is walked first; a directory is walked once. -/
def walkDirs : (fuel : Nat) → WalkStack → List (RelPath × DiskNode)
  | 0, _ => []
  | _, [] => []
  | fuel + 1, (top, dir) :: stack =>
      let children := dir.children.insertionSort fun a b => RelPath.le [a.1] [b.1]
      children.map (fun c => (top ++ [c.1], c.2.1)) ++ walkDirs fuel ((subdirs top children).reverse ++ stack)

def walkSorted (root : Dir) : List (RelPath × DiskNode) :=
  (walkDirs root.dirs [([], root)]).insertionSort fun a b => RelPath.le a.1 b.1

end Walk

section Sorted

variable {top : RelPath} {d : Dir}

theorem RelPath.le_total (a b : RelPath) : RelPath.le a b ∨ RelPath.le b a := by
  have swap : compare b a = (compare a b).swap := Std.OrientedCmp.eq_swap
  unfold RelPath.le
  rw [swap]
  cases compare a b <;> simp

theorem RelPath.le_trans {a b c : RelPath} (ab : RelPath.le a b) (bc : RelPath.le b c) : RelPath.le a c :=
  Std.TransCmp.isLE_trans ab bc

theorem RelPath.le_antisymm {a b : RelPath} (ab : RelPath.le a b) (ba : RelPath.le b a) : a = b :=
  Std.LawfulEqCmp.eq_of_compare (Std.OrientedCmp.isLE_antisymm ab ba)

theorem entries_children (top : RelPath) (d : Dir) :
    (d.entries top).Perm (d.children.map (fun c => (top ++ [c.1], c.2.1)) ++
      (subdirs top d.children).flatMap fun s => s.2.entries s.1) := by
  induction d with
  | done => exact .refl _
  | file name content executable rest ih => exact ih.cons _
  | symlink name target rest ih => exact ih.cons _
  | dir name inner rest ihInner ih =>
      have pushed : subdirs top (Dir.dir name inner rest).children =
          (top ++ [name], inner) :: subdirs top rest.children := rfl
      rw [pushed, flatMap_cons]
      exact ((ih.append_left _).trans (List.perm_append_comm_assoc ..)).cons _

theorem dirs_pos (d : Dir) : 0 < d.dirs := by
  induction d with
  | done => exact Nat.one_pos
  | file name content executable rest ih => exact ih
  | symlink name target rest ih => exact ih
  | dir name inner rest _ ih => exact Nat.add_pos_right _ ih

theorem dirs_children (top : RelPath) (d : Dir) :
    d.dirs = 1 + ((subdirs top d.children).map fun s => s.2.dirs).sum := by
  induction d with
  | done => rfl
  | file name content executable rest ih => exact ih
  | symlink name target rest ih => exact ih
  | dir name inner rest _ ih =>
      have pushed : subdirs top (Dir.dir name inner rest).children =
          (top ++ [name], inner) :: subdirs top rest.children := rfl
      rw [pushed, map_cons, sum_cons, Dir.dirs, ih]
      dsimp only
      omega

/-- What a walk finds is what there is below the directories on its stack. -/
theorem walkDirs_perm {fuel : Nat} {stack : WalkStack} (enough : (stack.map fun s => s.2.dirs).sum ≤ fuel) :
    (walkDirs fuel stack).Perm (stack.flatMap fun s => s.2.entries s.1) := by
  induction fuel generalizing stack with
  | zero =>
      cases stack with
      | nil => exact .refl _
      | cons s stack =>
          have := dirs_pos s.2
          rw [map_cons, sum_cons] at enough
          omega
  | succ fuel ih =>
      match stack, enough with
      | [], _ => exact .refl _
      | (top, dir) :: stack, enough =>
          have sorted : (dir.children.insertionSort fun a b => RelPath.le [a.1] [b.1]).Perm dir.children :=
            List.perm_insertionSort _ _
          have pushed := (List.reverse_perm _).trans
            (sorted.filterMap fun c => if c.2.1 = .directory then some (top ++ [c.1], c.2.2) else none)
          have room := ((pushed.append_right stack).map fun s : RelPath × Dir => s.2.dirs).sum_nat
          rw [map_cons, sum_cons, dirs_children top dir] at enough
          rw [map_append, map_append, sum_append, sum_append] at room
          rw [walkDirs, flatMap_cons]
          refine ((sorted.map _).append (ih ?_)).trans ?_
          · rw [map_append, sum_append]
            exact (Nat.le_of_eq room).trans (by unfold subdirs at enough; omega)
          · rw [List.flatMap_append, ← append_assoc]
            refine List.Perm.append_right _ ?_
            exact (((pushed.flatMap_right _).append_left _)).trans (entries_children top dir).symm

theorem walkSorted_perm (root : Dir) : (walkSorted root).Perm (root.entries []) := by
  have walked : (walkDirs root.dirs [([], root)]).Perm ([([], root)].flatMap fun s : RelPath × Dir => s.2.entries s.1) :=
    walkDirs_perm (by simp)
  rw [List.flatMap_singleton] at walked
  exact (List.perm_insertionSort _ _).trans walked

theorem walkSorted_sorted (root : Dir) : (walkSorted root).Pairwise fun a b => RelPath.le a.1 b.1 := by
  have : Std.Total fun a b : RelPath × DiskNode => (RelPath.le a.1 b.1 : Prop) := ⟨fun a b => RelPath.le_total a.1 b.1⟩
  have : IsTrans (RelPath × DiskNode) fun a b => (RelPath.le a.1 b.1 : Prop) := ⟨fun _ _ _ => RelPath.le_trans⟩
  exact List.pairwise_insertionSort _ _

theorem entries_below {p : RelPath} {node : DiskNode} (mem : (p, node) ∈ d.entries top) :
    ∃ name ∈ d.names, ∃ rest, p = top ++ name :: rest := by
  induction d generalizing top with
  | done => cases mem
  | file name _ _ rest ih | symlink name _ rest ih =>
      rcases mem_cons.mp mem with here | below
      · cases here
        exact ⟨name, .head _, [], rfl⟩
      · obtain ⟨other, among, more, rfl⟩ := ih below
        exact ⟨other, .tail _ among, more, rfl⟩
  | dir name inner rest ihInner ih =>
      rcases mem_cons.mp mem with here | below
      · cases here
        exact ⟨name, .head _, [], rfl⟩
      rcases mem_append.mp below with inside | beside
      · obtain ⟨other, -, more, rfl⟩ := ihInner inside
        exact ⟨name, .head _, other :: more, by rw [append_assoc]; rfl⟩
      · obtain ⟨other, among, more, rfl⟩ := ih beside
        exact ⟨other, .tail _ among, more, rfl⟩

/-- A name that is not taken again stands over nothing else. -/
theorem entries_apart {name : OsName} (fresh : name ∉ d.names) (below : RelPath) :
    top ++ name :: below ∉ (d.entries top).map Prod.fst := by
  intro mem
  obtain ⟨⟨p, node⟩, there, same⟩ := mem_map.mp mem
  obtain ⟨other, among, rest, shape⟩ := entries_below there
  have := List.append_cancel_left (same.symm.trans shape)
  cases this
  exact fresh among

theorem Dir.Sound.nodup (sound : d.Sound) (top : RelPath) : ((d.entries top).map Prod.fst).Nodup := by
  induction d generalizing top with
  | done => exact List.nodup_nil
  | file name content executable rest ih | symlink name target rest ih =>
      exact nodup_cons.mpr ⟨entries_apart sound.2.1 [], ih sound.2.2.2 top⟩
  | dir name inner rest ihInner ih =>
      obtain ⟨-, fresh, soundInner, soundRest⟩ := sound
      rw [Dir.entries, map_cons, map_append, nodup_cons, List.nodup_append, mem_append]
      refine ⟨?_, ihInner soundInner _, ih soundRest top, fun p inside q beside same => ?_⟩
      · rintro (inside | beside)
        · obtain ⟨⟨p, node⟩, there, same⟩ := mem_map.mp inside
          obtain ⟨other, -, more, shape⟩ := entries_below there
          have := congrArg List.length (same.symm.trans shape)
          simp at this
        · exact entries_apart fresh [] beside
      · obtain ⟨⟨p', node⟩, there, rfl⟩ := mem_map.mp inside
        obtain ⟨other, -, more, shape⟩ := entries_below there
        rw [← same, show p' = top ++ name :: other :: more by rw [shape, append_assoc]; rfl] at beside
        exact entries_apart fresh _ beside

theorem Dir.Sound.each (sound : d.Sound) {x : RelPath × DiskNode} (mem : x ∈ d.entries top) :
    x.2.content.length < 2 ^ 64 ∧ ∀ target, x.2 = .symlink target → target ≠ [] := by
  induction d generalizing top with
  | done => cases mem
  | file name content executable rest ih =>
      rcases mem_cons.mp mem with rfl | mem
      · exact ⟨sound.2.2.1, nofun⟩
      · exact ih sound.2.2.2 mem
  | symlink name target rest ih =>
      rcases mem_cons.mp mem with rfl | mem
      · exact ⟨Nat.two_pow_pos 64, fun _ same => DiskNode.symlink.inj same ▸ sound.2.2.1⟩
      · exact ih sound.2.2.2 mem
  | dir name inner rest ihInner ih =>
      rcases mem_cons.mp mem with rfl | mem
      · exact ⟨Nat.two_pow_pos 64, nofun⟩
      rcases mem_append.mp mem with mem | mem
      · exact ihInner sound.2.2.1 mem
      · exact ih sound.2.2.2 mem

end Sorted

/-- A tree as it can stand on a disk. -/
structure DiskTree where
  root : Dir
  sound : root.Sound

namespace DiskTree

/-- Every path of the tree with what is there, sorted. -/
def listing (t : DiskTree) : List (RelPath × DiskNode) := walkSorted t.root

theorem listing_sorted (t : DiskTree) : t.listing.Pairwise fun a b => RelPath.le a.1 b.1 := walkSorted_sorted t.root

theorem mem_listing {t : DiskTree} {x : RelPath × DiskNode} : x ∈ t.listing ↔ x ∈ t.root.entries [] :=
  (walkSorted_perm t.root).mem_iff

theorem listing_nodup (t : DiskTree) : (t.listing.map Prod.fst).Nodup :=
  ((walkSorted_perm t.root).map Prod.fst).nodup_iff.mpr (t.sound.nodup [])


end DiskTree

section Names

/-- The ranges that the bytes after a leading byte lie in. -/
def followers (lead : UInt8) : List (UInt8 × UInt8) :=
  let tail := (0x80, 0xBF)
  if 0xC2 ≤ lead ∧ lead ≤ 0xDF then [tail]
  else if lead = 0xE0 then [(0xA0, 0xBF), tail]
  else if lead = 0xED then [(0x80, 0x9F), tail]
  else if 0xE1 ≤ lead ∧ lead ≤ 0xEF then [tail, tail]
  else if lead = 0xF0 then [(0x90, 0xBF), tail, tail]
  else if 0xF1 ≤ lead ∧ lead ≤ 0xF3 then [tail, tail, tail]
  else if lead = 0xF4 then [(0x80, 0x8F), tail, tail]
  else []

def followed : List (UInt8 × UInt8) → Bytes → Nat
  | (low, high) :: ranges, b :: rest => if low ≤ b ∧ b ≤ high then followed ranges rest + 1 else 0
  | _, _ => 0

/-- The bytes that one replacement character stands for. -/
def malformed : Bytes → Nat
  | [] => 0
  | lead :: rest => followed (followers lead) rest + 1

/-- A character takes a byte at least. -/
def lossyFrom : (fuel : Nat) → Bytes → List Char
  | 0, _ => []
  | _, [] => []
  | fuel + 1, b :: rest =>
      match (b :: rest).toByteArray.utf8DecodeChar? 0 with
      | some c => c :: lossyFrom fuel ((b :: rest).drop c.utf8Size)
      | none => Char.ofNat 0xFFFD :: lossyFrom fuel ((b :: rest).drop (malformed (b :: rest)))

/-- `to_string_lossy` -/
def lossy (b : Bytes) : List Char := lossyFrom b.length b

def RelPath.bytes (p : RelPath) : Bytes := [47].intercalate p

/-- What is valid in front is kept as it is. -/
theorem lossyFrom_append {fuel : Nat} (cs : List Char) {rest : Bytes}
    (enough : (cs.flatMap String.utf8EncodeChar ++ rest).length ≤ fuel) :
    ∃ left, rest.length ≤ left ∧ lossyFrom fuel (cs.flatMap String.utf8EncodeChar ++ rest) = cs ++ lossyFrom left rest := by
  induction cs generalizing fuel with
  | nil => exact ⟨fuel, enough, rfl⟩
  | cons c cs ih =>
      have length := String.length_utf8EncodeChar c
      have size := c.utf8Size_pos
      rw [flatMap_cons, append_assoc] at enough ⊢
      have decoded : (String.utf8EncodeChar c ++ (cs.flatMap String.utf8EncodeChar ++ rest)).toByteArray.utf8DecodeChar? 0 =
          some c := by
        rw [List.toByteArray_append]
        exact ByteArray.utf8DecodeChar?_utf8EncodeChar_append
      rw [List.length_append] at enough
      match fuel, h : String.utf8EncodeChar c ++ (cs.flatMap String.utf8EncodeChar ++ rest), enough with
      | fuel, [], _ =>
          have := congrArg List.length h
          rw [List.length_append, List.length_nil] at this
          omega
      | 0, _, enough => omega
      | fuel + 1, b :: tail, enough =>
          rw [h] at decoded
          rw [lossyFrom, decoded]
          dsimp only
          rw [← h, List.drop_left' length]
          have below : (cs.flatMap String.utf8EncodeChar ++ rest).length ≤ fuel := by omega
          obtain ⟨left, room, kept⟩ := ih below
          exact ⟨left, room, congrArg (c :: ·) kept⟩

theorem lossy_strBytes (s : String) : lossy (strBytes s) = s.toList := by
  have encoded : strBytes s = s.toList.flatMap String.utf8EncodeChar := by
    rw [← strBytes_ofList, String.ofList_toList]
  obtain ⟨left, -, kept⟩ := @lossyFrom_append (strBytes s).length s.toList [] (by rw [List.append_nil, encoded])
  rw [List.append_nil, ← encoded] at kept
  rw [lossy, kept]
  cases left <;> simp [lossyFrom]

/-- A path as the tools spell it: with forward slashes. -/
def RelPath.spelled (p : RelPath) : String :=
  String.ofList ((lossy p.bytes).map fun c => if c = '\\' then '/' else c)

theorem lossy_ne_nil {b : Bytes} (some : b ≠ []) : lossy b ≠ [] := by
  cases b with
  | nil => exact absurd rfl some
  | cons x rest =>
      rw [lossy, List.length_cons, lossyFrom]
      split <;> nofun

theorem RelPath.bytes_cons (name : OsName) (rest : RelPath) : ∃ tail, RelPath.bytes (name :: rest) = name ++ tail := by
  cases rest with
  | nil => exact ⟨[], by simp [RelPath.bytes]⟩
  | cons next rest => exact ⟨_, by simp [RelPath.bytes, List.intercalate_cons_cons]; rfl⟩

/-- A path is spelled like its first name in front, where that is text. -/
theorem RelPath.spelled_cons (s : String) (rest : RelPath) : ∃ tail,
    (RelPath.spelled (strBytes s :: rest)).toList = s.toList.map (fun c => if c = '\\' then '/' else c) ++ tail := by
  obtain ⟨tail, bytes⟩ := RelPath.bytes_cons (strBytes s) rest
  have encoded : strBytes s = s.toList.flatMap String.utf8EncodeChar := by
    rw [← strBytes_ofList, String.ofList_toList]
  obtain ⟨left, -, kept⟩ :=
    lossyFrom_append s.toList (Nat.le_refl (s.toList.flatMap String.utf8EncodeChar ++ tail).length)
  refine ⟨(lossyFrom left tail).map fun c => if c = '\\' then '/' else c, ?_⟩
  rw [RelPath.spelled, String.toList_ofList, bytes, encoded, lossy, kept, map_append]

end Names

end Cavs
