import Cavs.DirTree
import Cavs.ScanPrefix
import Mathlib.Data.List.DropRight

/-!
# The directory of a Godot pack

A pack names its files in front, each with where its bytes lie. The reader takes whatever
numbers it finds; a resource counts as touched when its bytes meet a changed window.
-/
namespace Cavs.GodotPck
open FileProg (Bytes)
open ByteScan
open Scan (num take throw collect)
open List (flatMap_cons length_append length_cons length_nil length_replicate map_cons map_replicate mem_cons
  mem_map mem_singleton sum_cons)

section Model

structure Entry where
  path : String
  offset : Nat
  size : Nat
  deriving DecidableEq, Repr

structure Directory where
  version : String
  entries : List Entry
  deriving DecidableEq, Repr

inductive PckError where
  | truncated
  | noMagic
  | encrypted
  | unknownFormat (format : Nat)
  | entryCount
  | pathLength
  deriving DecidableEq, Repr

abbrev Reader (α : Type) := Scan PckError Unit α

def magic : Nat := 0x43504447

def maxEntries : Nat := 1000000

def maxPath : Nat := 64 * 1024

/-- What the sum of two 64-bit numbers is in 64 bits. -/
def add64 (a b : Nat) : Nat := (a + b) % 2 ^ 64

/-- The reserved words follow in both formats, the base of all offsets stands in the second. -/
def readBase : Nat → Reader Nat
  | 1 => do
      let _ ← take .truncated 64
      return 0
  | 2 => do
      let flags ← num .truncated 4
      if flags % 2 = 1 then throw .encrypted
      else do
        let base ← num .truncated 8
        let _ ← take .truncated 64
        return base
  | format => throw (.unknownFormat format)

structure Header where
  version : String
  format : Nat
  base : Nat
  count : Nat

def versionText (major minor patch format : Nat) : String :=
  toString major ++ "." ++ toString minor ++ "." ++ toString patch ++ " (pack format " ++ toString format ++ ")"

def readHeader : Reader Header := do
  let found ← num .truncated 4
  if found ≠ magic then throw .noMagic
  else do
    let format ← num .truncated 4
    let major ← num .truncated 4
    let minor ← num .truncated 4
    let patch ← num .truncated 4
    let base ← readBase format
    let count ← num .truncated 4
    return ⟨versionText major minor patch format, format, base, count⟩

def trimNul (text : List Char) : String := String.ofList (text.rdropWhile fun c => c = Char.ofNat 0)

/-- The second format counts offsets from the base. -/
def readEntry (format base : Nat) : Reader Entry := do
  let pathLen ← num .truncated 4
  if maxPath < pathLen then throw .pathLength
  else do
    let raw ← take .truncated pathLen
    let offset ← num .truncated 8
    let size ← num .truncated 8
    let _ ← take .truncated 16
    if format = 2 then do
      let _ ← num .truncated 4
      return ⟨trimNul (lossy raw), add64 offset base, size⟩
    else return ⟨trimNul (lossy raw), offset, size⟩

def readDirectory : Reader Directory := do
  let header ← readHeader
  if maxEntries < header.count then throw .entryCount
  else do
    let entries ← collect header.count (readEntry header.format header.base)
    return ⟨header.version, entries⟩

def parse (data : Bytes) : Except PckError Directory := (readDirectory () ⟨0, data⟩).1.map Prod.fst

def zeros (n : Nat) : Bytes := List.replicate n 0

def headerBytes (format count : Nat) : Bytes :=
  le 4 magic ++ (le 4 format ++ (le 4 4 ++ (le 4 2 ++ (le 4 0 ++
    ((if format = 2 then le 4 0 ++ (le 8 0 ++ zeros 64) else zeros 64) ++ le 4 count)))))

def entryBytes (format : Nat) (e : Entry) : Bytes :=
  le 4 (strBytes e.path).length ++ (strBytes e.path ++ (le 8 e.offset ++ (le 8 e.size ++
    (zeros 16 ++ if format = 2 then le 4 0 else []))))

/-- The bytes of the files lie one behind the other. -/
def layout : Nat → List (String × Bytes) → List Entry
  | _, [] => []
  | offset, f :: rest => ⟨f.1, offset, f.2.length⟩ :: layout (offset + f.2.length) rest

def dirSize (format : Nat) (files : List (String × Bytes)) : Nat :=
  (files.map fun f => 4 + (strBytes f.1).length + 8 + 8 + 16 + if format = 2 then 4 else 0).sum

/-- A well-formed pack of the given files. -/
def synth (format : Nat) (files : List (String × Bytes)) : Bytes :=
  let front := headerBytes format files.length
  front ++ (layout (front.length + dirSize format files) files).flatMap (entryBytes format) ++ files.flatMap Prod.snd

/-- The windows a heat map counts are given by their first and their number. -/
def touchEntry (start stop : Nat) (touched : List String) (e : Entry) : List String :=
  if e.offset < stop ∧ start < add64 e.offset e.size ∧ e.path ∉ touched then touched ++ [e.path] else touched

def touchWindow (windowSize : Nat) (entries : List Entry) (touched : List String) (w : Nat × Nat) : List String :=
  let start := w.1 * windowSize % 2 ^ 64
  let stop := add64 w.1 w.2 * windowSize % 2 ^ 64
  entries.foldl (touchEntry start stop) touched

def touchedResources (windowSize : Nat) (ranges : List (Nat × Nat)) (dir : Directory) : List String :=
  ranges.foldl (touchWindow windowSize dir.entries) []

/-- The report lists fifty at most. -/
def changedResources (windowSize : Nat) (ranges : List (Nat × Nat)) (dir : Directory) : List String :=
  (touchedResources windowSize ranges dir).take 50

end Model

section Spec

/-- The entry names the bytes in the pack. -/
def Slices (pack : Bytes) (e : Entry) (bytes : Bytes) : Prop :=
  e.offset + e.size ≤ pack.length ∧ (pack.drop e.offset).take e.size = bytes

/-- Reading the pack of the files gives them back. -/
def RoundTrips (format : Nat) (files : List (String × Bytes)) : Prop :=
  ∃ dir, parse (synth format files) = .ok dir ∧
    List.Forall₂ (fun f e => e.path = f.1 ∧ Slices (synth format files) e f.2) files dir.entries

/-- The resource has a byte in the window. -/
def Meets (windowSize : Nat) (e : Entry) (w : Nat × Nat) : Prop :=
  ∃ x, e.offset ≤ x ∧ x < e.offset + e.size ∧ w.1 * windowSize ≤ x ∧ x < (w.1 + w.2) * windowSize

/-- A path is in the list when a resource of that path meets a window. -/
def Lists (windowSize : Nat) (ranges : List (Nat × Nat)) (dir : Directory) (list : List String) (path : String) : Prop :=
  path ∈ list ↔ ∃ e ∈ dir.entries, e.path = path ∧ ∃ w ∈ ranges, Meets windowSize e w

/-- The windows are not empty and end within 64 bits. -/
def InRange (windowSize : Nat) (ranges : List (Nat × Nat)) : Prop :=
  ∀ w ∈ ranges, 0 < w.2 ∧ w.1 + w.2 < 2 ^ 64 ∧ (w.1 + w.2) * windowSize < 2 ^ 64

/-- So are the resources of a path. -/
def Filled (dir : Directory) (path : String) : Prop :=
  ∀ e ∈ dir.entries, e.path = path → 0 < e.size ∧ e.offset + e.size < 2 ^ 64

/-- A path that a pack can name. -/
def Nameable (path : String) : Prop :=
  (strBytes path).length ≤ maxPath ∧ path.toList.getLast? ≠ some (Char.ofNat 0)

end Spec

section Read
variable {format : Nat} {e : Entry} {p : Nat} {count : Nat}

theorem trimNul_of {path : String} (clean : path.toList.getLast? ≠ some (Char.ofNat 0)) :
    trimNul path.toList = path := by
  have kept : path.toList.rdropWhile (fun c => c = Char.ofNat 0) = path.toList := by
    rw [List.rdropWhile_eq_self_iff]
    intro filled nul
    exact clean (by rw [List.getLast?_eq_some_getLast filled, of_decide_eq_true nul])
  rw [trimNul, kept, String.ofList_toList]

theorem readEntry_scans (known : format = 1 ∨ format = 2) (name : Nameable e.path) (offset : e.offset < 2 ^ 64)
    (size : e.size < 2 ^ 64) : Scans (readEntry format 0) () p (entryBytes format e) e () := by
  have short : (strBytes e.path).length < 256 ^ 4 := by
    have := name.1
    rw [maxPath] at this
    omega
  have text : trimNul (lossy (strBytes e.path)) = e.path := by rw [lossy_strBytes, trimNul_of name.2]
  refine (Scans.num short).bind ?_
  rw [if_neg (Nat.not_lt.mpr name.1)]
  refine (Scans.take rfl).bind ((Scans.num offset).bind ((Scans.num size).bind ?_))
  refine (Scans.take (length_replicate ..)).bind ?_
  rw [text]
  rcases known with rfl | rfl
  · exact .pure e
  · rw [if_pos rfl, if_pos rfl, add64, Nat.add_zero, Nat.mod_eq_of_lt offset]
    exact (Scans.num (by decide)).bind_pure (Scans.pure e)

theorem readBase_scans (known : format = 1 ∨ format = 2) :
    Scans (readBase format) () p (if format = 2 then le 4 0 ++ (le 8 0 ++ zeros 64) else zeros 64) 0 () := by
  rcases known with rfl | rfl
  · exact (Scans.take (length_replicate ..)).bind_pure (Scans.pure 0)
  · refine (Scans.num (by decide)).bind ?_
    refine (Scans.num (by decide)).bind ?_
    exact (Scans.take (length_replicate ..)).bind_pure (Scans.pure 0)

theorem readHeader_scans (known : format = 1 ∨ format = 2) (few : count < 2 ^ 32) :
    Scans readHeader () p (headerBytes format count) ⟨versionText 4 2 0 format, format, 0, count⟩ () := by
  have small : format < 256 ^ 4 := by rcases known with rfl | rfl <;> decide
  refine (Scans.num (by decide)).bind ?_
  rw [if_neg (not_not.mpr rfl)]
  refine (Scans.num small).bind ((Scans.num (by decide)).bind ((Scans.num (by decide)).bind ?_))
  refine (Scans.num (by decide)).bind ((readBase_scans known).bind ?_)
  exact (Scans.num few).bind_pure (Scans.pure _)

/-- A directory that was written reads back, whatever follows it. -/
theorem parse_written (known : format = 1 ∨ format = 2) {entries : List Entry} (few : entries.length ≤ maxEntries)
    (sound : ∀ e ∈ entries, Nameable e.path ∧ e.offset < 2 ^ 64 ∧ e.size < 2 ^ 64) (rest : Bytes) :
    parse (headerBytes format entries.length ++ entries.flatMap (entryBytes format) ++ rest) =
      .ok ⟨versionText 4 2 0 format, entries⟩ := by
  have count : entries.length < 2 ^ 32 := by
    rw [maxEntries] at few
    omega
  have whole : Scans readDirectory () 0 (headerBytes format entries.length ++ entries.flatMap (entryBytes format))
      ⟨versionText 4 2 0 format, entries⟩ () := by
    refine (readHeader_scans known count).bind ?_
    rw [if_neg (Nat.not_lt.mpr few)]
    have each := Scans.collect (m := readEntry format 0) (entryBytes format) id entries
      fun e mem p => readEntry_scans known (sound e mem).1 (sound e mem).2.1 (sound e mem).2.2
    rw [List.map_id] at each
    exact (each _).bind_pure (.pure _)
  rw [parse, whole rest]
  rfl

/-- More entries than a million are refused. -/
theorem parse_crowded (known : format = 1 ∨ format = 2) (many : maxEntries < count) (few : count < 2 ^ 32)
    (rest : Bytes) : parse (headerBytes format count ++ rest) = .error .entryCount := by
  have refused : readDirectory () ⟨0, headerBytes format count ++ rest⟩ = (.error .entryCount, ()) := by
    rw [readDirectory, bind_of_ok (readHeader_scans known few rest), if_pos many]
    rfl
  rw [parse, refused]
  rfl

/-- What is read of any byte string: not too many entries, all of their numbers in 64 bits. -/
theorem parse_bounded {data : Bytes} {dir : Directory} (read : parse data = .ok dir) :
    ∀ e ∈ dir.entries, e.offset < 2 ^ 64 ∧ e.size < 2 ^ 64 := by
  have entry : ∀ format base, Yields (readEntry format base) fun e => e.offset < 2 ^ 64 ∧ e.size < 2 ^ 64 := by
    intro format base
    refine .skip fun _ => .guard fun _ => .skip fun _ => ?_
    refine Yields.num.bind fun offset low => Yields.num.bind fun size small => Yields.skip fun _ => ?_
    exact Yields.ite (Yields.skip fun _ => Yields.pure ⟨Nat.mod_lt _ (by decide), small⟩) (Yields.pure ⟨low, small⟩)
  have whole : Yields readDirectory fun dir => ∀ e ∈ dir.entries, e.offset < 2 ^ 64 ∧ e.size < 2 ^ 64 := by
    refine .skip fun header => .guard fun _ => ?_
    exact (Yields.collect (entry _ _) _).bind fun entries each => Yields.pure each
  rw [parse] at read
  cases run : readDirectory () ⟨0, data⟩ with
  | mk result state =>
    rw [run] at read
    cases result with
    | error e => cases read
    | ok found =>
      obtain rfl : found.1 = dir := Except.ok.inj read
      exact whole _ _ _ _ _ run

end Read

section Synth
variable {format : Nat} {files : List (String × Bytes)}

theorem entryBytes_length (format : Nat) (e : Entry) :
    (entryBytes format e).length = 4 + (strBytes e.path).length + 8 + 8 + 16 + if format = 2 then 4 else 0 := by
  simp only [entryBytes, zeros, length_append, le_length, length_replicate]
  split <;> simp only [le_length, length_nil] <;> omega

theorem layout_length (format offset : Nat) (files : List (String × Bytes)) :
    ((layout offset files).flatMap (entryBytes format)).length = dirSize format files := by
  induction files generalizing offset with
  | nil => rfl
  | cons f rest hyp =>
    rw [layout, flatMap_cons, length_append, hyp, entryBytes_length, dirSize, dirSize, map_cons,
      sum_cons]

/-- Every file lies where its entry says. -/
theorem layout_slices (front : Bytes) (files : List (String × Bytes)) :
    List.Forall₂ (fun f e => e.path = f.1 ∧ Slices (front ++ files.flatMap Prod.snd) e f.2) files
      (layout front.length files) := by
  induction files generalizing front with
  | nil => exact .nil
  | cons f rest hyp =>
    have later := hyp (front ++ f.2)
    rw [length_append, List.append_assoc, ← flatMap_cons] at later
    refine .cons ⟨rfl, ?_, ?_⟩ later
    · rw [length_append, flatMap_cons, length_append]
      dsimp only
      omega
    · rw [List.drop_left, flatMap_cons, List.take_left]

theorem layout_mem {offset : Nat} {e : Entry} (mem : e ∈ layout offset files) :
    (∃ f ∈ files, e.path = f.1) ∧ e.offset + e.size ≤ offset + (files.flatMap Prod.snd).length := by
  induction files generalizing offset with
  | nil => cases mem
  | cons f rest hyp =>
    rw [flatMap_cons, length_append]
    cases mem with
    | head => exact ⟨⟨f, List.mem_cons_self, rfl⟩, by dsimp only; omega⟩
    | tail _ mem =>
      obtain ⟨⟨g, listed, named⟩, within⟩ := hyp mem
      exact ⟨⟨g, List.mem_cons_of_mem _ listed, named⟩, by omega⟩

theorem layout_count (offset : Nat) (files : List (String × Bytes)) : (layout offset files).length = files.length := by
  induction files generalizing offset with
  | nil => rfl
  | cons f rest hyp => rw [layout, length_cons, length_cons, hyp]

theorem headerBytes_length (format count : Nat) :
    (headerBytes format count).length = if format = 2 then 100 else 88 := by
  simp only [headerBytes, zeros, length_append, le_length]
  split <;> simp only [length_append, le_length, length_replicate]

theorem synth_length (format : Nat) (files : List (String × Bytes)) : (synth format files).length =
    (headerBytes format files.length).length + dirSize format files + (files.flatMap Prod.snd).length := by
  rw [synth, length_append, length_append, layout_length]

/-- The pack of some files reads back, as long as it is not too long for any memory. -/
theorem synth_roundTrips (known : format = 1 ∨ format = 2) (few : files.length ≤ maxEntries)
    (names : ∀ f ∈ files, Nameable f.1) (fits : (synth format files).length < 2 ^ 64) :
    RoundTrips format files := by
  generalize start : (headerBytes format files.length).length + dirSize format files = offset at *
  have pack : synth format files = headerBytes format files.length ++
      (layout offset files).flatMap (entryBytes format) ++ files.flatMap Prod.snd := by rw [← start]; rfl
  have front : (headerBytes format files.length ++ (layout offset files).flatMap (entryBytes format)).length = offset := by
    rw [length_append, layout_length, start]
  rw [pack, length_append, front] at fits
  have sound : ∀ e ∈ layout offset files, Nameable e.path ∧ e.offset < 2 ^ 64 ∧ e.size < 2 ^ 64 := by
    intro e mem
    obtain ⟨⟨f, listed, named⟩, within⟩ := layout_mem mem
    exact ⟨named ▸ names f listed, by omega, by omega⟩
  refine ⟨⟨versionText 4 2 0 format, layout offset files⟩, ?_, ?_⟩
  · rw [pack]
    have read := parse_written known (by rw [layout_count]; exact few) sound (files.flatMap Prod.snd)
    rwa [layout_count] at read
  · have slices := layout_slices (headerBytes format files.length ++ (layout offset files).flatMap (entryBytes format)) files
    rwa [front, ← pack] at slices

end Synth

section Mapping

variable {touched : List String} {path : String} {ranges : List (Nat × Nat)} {e : Entry} {entries : List Entry}

theorem mem_touchEntry {start stop : Nat} :
    path ∈ touchEntry start stop touched e ↔
      path ∈ touched ∨ (e.path = path ∧ e.offset < stop ∧ start < add64 e.offset e.size) := by
  rw [touchEntry]
  split
  case isTrue fresh =>
    rw [List.mem_append, mem_singleton]
    constructor
    · rintro (mem | rfl)
      · exact .inl mem
      · exact .inr ⟨rfl, fresh.1, fresh.2.1⟩
    · rintro (mem | ⟨rfl, -⟩)
      · exact .inl mem
      · exact .inr rfl
  case isFalse known =>
    constructor
    · exact .inl
    · rintro (mem | ⟨rfl, low, high⟩)
      · exact mem
      · by_contra missing
        exact known ⟨low, high, missing⟩

theorem mem_touchEntries {start stop : Nat} :
    path ∈ entries.foldl (touchEntry start stop) touched ↔
      path ∈ touched ∨ ∃ e ∈ entries, e.path = path ∧ e.offset < stop ∧ start < add64 e.offset e.size := by
  induction entries generalizing touched with
  | nil => simp
  | cons e rest hyp =>
    rw [List.foldl_cons, hyp, mem_touchEntry, or_assoc]
    simp

theorem touchEntries_nodup {start stop : Nat} (apart : touched.Nodup) :
    (entries.foldl (touchEntry start stop) touched).Nodup := by
  induction entries generalizing touched with
  | nil => exact apart
  | cons e rest hyp =>
    apply hyp
    rw [touchEntry]
    split
    case isTrue fresh =>
      rw [← List.concat_eq_append]
      exact apart.concat fresh.2.2
    case isFalse => exact apart

variable {windowSize : Nat} {dir : Directory}

theorem mem_touchWindows :
    path ∈ ranges.foldl (touchWindow windowSize dir.entries) touched ↔
      path ∈ touched ∨ ∃ w ∈ ranges, ∃ e ∈ dir.entries, e.path = path ∧
        e.offset < add64 w.1 w.2 * windowSize % 2 ^ 64 ∧ w.1 * windowSize % 2 ^ 64 < add64 e.offset e.size := by
  induction ranges generalizing touched with
  | nil => simp
  | cons w rest hyp =>
    rw [List.foldl_cons, hyp, touchWindow, mem_touchEntries, or_assoc]
    simp

theorem touchWindows_nodup (apart : touched.Nodup) :
    (ranges.foldl (touchWindow windowSize dir.entries) touched).Nodup := by
  induction ranges generalizing touched with
  | nil => exact apart
  | cons w rest hyp => exact hyp (touchEntries_nodup apart)

/-- Two filled ranges share a byte when each begins before the other ends. -/
theorem meets_iff {w : Nat × Nat} (filled : 0 < e.size) (wide : w.1 * windowSize < (w.1 + w.2) * windowSize) :
    Meets windowSize e w ↔ e.offset < (w.1 + w.2) * windowSize ∧ w.1 * windowSize < e.offset + e.size := by
  rw [Meets]
  constructor
  · rintro ⟨x, low, high, after, before⟩
    exact ⟨low.trans_lt before, after.trans_lt high⟩
  · rintro ⟨early, late⟩
    exact ⟨max e.offset (w.1 * windowSize), by omega, by omega, by omega, by omega⟩

/-- Where no sum leaves 64 bits, a path of filled resources is touched when one of them is. -/
theorem touched_lists (range : InRange windowSize ranges) (window : 0 < windowSize) (filled : Filled dir path) :
    Lists windowSize ranges dir (touchedResources windowSize ranges dir) path := by
  have each : ∀ w ∈ ranges, ∀ e ∈ dir.entries, e.path = path →
      (Meets windowSize e w ↔
        e.offset < add64 w.1 w.2 * windowSize % 2 ^ 64 ∧ w.1 * windowSize % 2 ^ 64 < add64 e.offset e.size) := by
    intro w listed e mem named
    obtain ⟨wide, sum, product⟩ := range w listed
    obtain ⟨some_, ends⟩ := filled e mem named
    have grows : w.1 * windowSize < (w.1 + w.2) * windowSize :=
      Nat.mul_lt_mul_of_pos_right (Nat.lt_add_of_pos_right wide) window
    rw [meets_iff some_ grows, add64, add64, Nat.mod_eq_of_lt sum, Nat.mod_eq_of_lt product,
      Nat.mod_eq_of_lt (grows.trans product), Nat.mod_eq_of_lt ends]
  rw [Lists, touchedResources, mem_touchWindows]
  constructor
  · rintro (mem | ⟨w, listed, e, mem, named, meets⟩)
    · cases mem
    · exact ⟨e, mem, named, w, listed, (each w listed e mem named).mpr meets⟩
  · rintro ⟨e, mem, named, w, listed, meets⟩
    exact .inr ⟨w, listed, e, mem, named, (each w listed e mem named).mp meets⟩

end Mapping

section Settled

variable {n : Nat}

/-- Packs of up to a million files read back; any byte string gives a directory of 64-bit
numbers or an error; and the first fifty of the resources that meet a window are listed. -/
theorem godot_pck_exact :
    (∀ (format : Nat) (files : List (String × Bytes)), format = 1 ∨ format = 2 → files.length ≤ maxEntries →
      (∀ f ∈ files, Nameable f.1) → (synth format files).length < 2 ^ 64 → RoundTrips format files) ∧
    ∀ data : Bytes, (∃ e, parse data = .error e) ∨ ∃ dir, parse data = .ok dir ∧
      (∀ e ∈ dir.entries, e.offset < 2 ^ 64 ∧ e.size < 2 ^ 64) ∧
      ∀ (windowSize : Nat) (ranges : List (Nat × Nat)), InRange windowSize ranges → 0 < windowSize →
        changedResources windowSize ranges dir = (touchedResources windowSize ranges dir).take 50 ∧
        (touchedResources windowSize ranges dir).Nodup ∧
        ∀ path, Filled dir path → Lists windowSize ranges dir (touchedResources windowSize ranges dir) path := by
  constructor
  · intro format files known few names fits
    exact synth_roundTrips known few names fits
  · intro data
    cases read : parse data with
    | error e => exact .inl ⟨e, rfl⟩
    | ok dir =>
      refine .inr ⟨dir, rfl, parse_bounded read, ?_⟩
      intro windowSize ranges range window
      exact ⟨rfl, touchWindows_nodup .nil, fun path filled => touched_lists range window filled⟩

theorem nameable_replicate (short : n ≤ 1000) : Nameable (String.ofList (List.replicate n 'a')) := by
  constructor
  · have each : (String.utf8EncodeChar 'a').length = 1 := by decide
    rw [strBytes_ofList, List.length_flatMap, map_replicate, List.sum_replicate_nat, each, maxPath]
    omega
  · rw [String.toList_ofList]
    intro nul
    exact absurd (List.eq_of_mem_replicate (List.mem_of_getLast? nul)) (by decide)

theorem Slices.filled {pack bytes : Bytes} {e : Entry} (slices : Slices pack e bytes) (small : pack.length < 2 ^ 64)
    (some_ : bytes ≠ []) : 0 < e.size ∧ e.offset + e.size < 2 ^ 64 := by
  refine ⟨Nat.pos_of_ne_zero fun empty => some_ ?_, slices.1.trans_lt small⟩
  rw [← slices.2, empty, List.take_zero]

def sampleFiles : List (String × Bytes) := [("aaa", [1, 2, 3]), ("aa", [4, 5]), ("a", [])]

/-- Three resources, the last of them empty, read back and mapped onto the first window. -/
theorem godot_pck_exact_files :
    RoundTrips 2 sampleFiles ∧ ∃ dir, parse (synth 2 sampleFiles) = .ok dir ∧
      ∀ path, path ∈ ["aaa", "aa"] → Lists 65536 [(0, 1)] dir (touchedResources 65536 [(0, 1)] dir) path := by
  have name : ∀ f ∈ sampleFiles, Nameable f.1 := by
    intro f mem
    simp only [sampleFiles, mem_cons, List.not_mem_nil, or_false] at mem
    rcases mem with rfl | rfl | rfl
    · exact nameable_replicate (n := 3) (by decide)
    · exact nameable_replicate (n := 2) (by decide)
    · exact nameable_replicate (n := 1) (by decide)
  have fits : (synth 2 sampleFiles).length < 2 ^ 64 := by
    have first := (name ("aaa", [1, 2, 3]) (by decide)).1
    have second := (name ("aa", [4, 5]) (by decide)).1
    have third := (name ("a", []) (by decide)).1
    rw [synth_length]
    simp only [sampleFiles, headerBytes_length, dirSize, maxPath, map_cons, List.map_nil, sum_cons, List.sum_nil,
      flatMap_cons, List.flatMap_nil, length_append, length_cons, length_nil, if_true] at first second third ⊢
    omega
  have trip := godot_pck_exact.1 2 sampleFiles (.inr rfl) (by decide) name fits
  refine ⟨trip, ?_⟩
  obtain ⟨dir, read, slices⟩ := trip
  have filled : ∀ path, path ∈ ["aaa", "aa"] → Filled dir path := by
    intro path known
    unfold Filled
    generalize dir.entries = entries at slices
    obtain _ | ⟨first, _ | ⟨second, _ | ⟨third, _ | _⟩⟩⟩ := slices
    intro e mem named
    rcases mem_cons.mp mem with rfl | mem
    · exact first.2.filled fits (by decide)
    · rcases mem_cons.mp mem with rfl | mem
      · exact second.2.filled fits (by decide)
      · obtain rfl := mem_singleton.mp mem
        rw [← named, third.1] at known
        exact absurd known (by decide)
  rcases godot_pck_exact.2 (synth 2 sampleFiles) with ⟨e, refused⟩ | ⟨found, again, -, maps⟩
  · rw [read] at refused
    cases refused
  · obtain rfl : dir = found := Except.ok.inj (read.symm.trans again)
    have range : InRange 65536 [(0, 1)] := by
      intro w mem
      obtain rfl := mem_singleton.mp mem
      decide
    exact ⟨dir, read, fun path known => (maps 65536 [(0, 1)] range (by decide)).2.2 path (filled path known)⟩

theorem empty_fits (few : n < 2 ^ 32) :
    (synth 1 (List.replicate n (("", []) : String × Bytes))).length < 2 ^ 64 := by
  have short : (strBytes "").length = 0 := by decide
  rw [synth_length, headerBytes_length, dirSize, map_replicate, List.sum_replicate_nat, List.length_flatMap,
    map_replicate, List.sum_replicate_nat]
  have second : ¬ (1 : Nat) = 2 := by decide
  simp only [short, length_nil, if_neg second]
  omega

theorem empty_crowd (many : maxEntries < n) (few : n < 2 ^ 32) :
    ¬ RoundTrips 1 (List.replicate n (("", []) : String × Bytes)) := by
  rintro ⟨dir, read, -⟩
  rw [synth, length_replicate, List.append_assoc, parse_crowded (.inl rfl) many few] at read
  cases read

/-- A million and one files, fifty-one resources in one window, and an entry whose end lies
past 64 bits. -/
theorem not_godot_pck_exact :
    (¬ ∀ files, (∀ f ∈ files, Nameable f.1) → (synth 1 files).length < 2 ^ 64 → RoundTrips 1 files) ∧
    (¬ ∀ data dir windowSize ranges, parse data = .ok dir →
      ∀ e ∈ dir.entries, Lists windowSize ranges dir (changedResources windowSize ranges dir) e.path) ∧
    ¬ ∀ data dir, parse data = .ok dir → ∀ e ∈ dir.entries, e.offset + e.size < 2 ^ 64 := by
  refine ⟨?_, ?_, ?_⟩
  · intro trips
    obtain ⟨n, many⟩ : ∃ n, n = maxEntries + 1 := ⟨_, rfl⟩
    rw [maxEntries] at many
    refine empty_crowd (n := n) (by rw [maxEntries]; omega) (by omega) (trips _ ?_ (empty_fits (by omega)))
    intro f mem
    rw [List.eq_of_mem_replicate mem]
    exact nameable_replicate (n := 0) (by decide)
  · intro lists
    generalize made : (List.range 51).map (fun i => Entry.mk (String.ofList (List.replicate i 'a')) 0 1) = entries
    have count : entries.length = 51 := by rw [← made, List.length_map, List.length_range]
    have shape : ∀ e ∈ entries, e.offset = 0 ∧ e.size = 1 ∧ Nameable e.path := by
      intro e mem
      rw [← made] at mem
      obtain ⟨i, low, rfl⟩ := mem_map.mp mem
      have := List.mem_range.mp low
      exact ⟨rfl, rfl, nameable_replicate (by omega)⟩
    have apart : (entries.map Entry.path).Nodup := by
      rw [← made, List.map_map]
      refine List.nodup_range.map ?_
      intro i j same
      have lists := congrArg (fun s => s.toList.length) same
      simpa [String.toList_ofList] using lists
    have read := @parse_written 1 (.inl rfl) entries (by rw [count]; decide)
      (fun e mem => ⟨(shape e mem).2.2, by rw [(shape e mem).1]; decide, by rw [(shape e mem).2.1]; decide⟩) []
    have listed : entries.map Entry.path ⊆ changedResources 65536 [(0, 1)] ⟨versionText 4 2 0 1, entries⟩ := by
      intro path mem
      obtain ⟨e, there, rfl⟩ := mem_map.mp mem
      refine (lists _ _ 65536 [(0, 1)] read e there).mpr ⟨e, there, rfl, (0, 1), mem_singleton.mpr rfl, 0, ?_⟩
      rw [(shape e there).1, (shape e there).2.1]
      decide
    have few := apart.length_le_of_subset listed
    rw [List.length_map, count, changedResources, List.length_take] at few
    omega
  · intro range
    have read := @parse_written 1 (.inl rfl) [⟨"aaa", 2 ^ 64 - 1, 2⟩] (by decide)
      (fun e mem => by
        obtain rfl := mem_singleton.mp mem
        exact ⟨nameable_replicate (n := 3) (by decide), by decide, by decide⟩) []
    exact absurd (range _ _ read _ List.mem_cons_self) (by decide)

end Settled

end Cavs.GodotPck
