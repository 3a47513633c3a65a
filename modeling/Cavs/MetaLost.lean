import Cavs.MetaFresh

/-!
# Losing the meta index

The index is a file beside the packs. When it cannot be read, the next export makes it anew from
the packs, in the order of their file times; a pack that is exported again keeps its file and its
time.
-/
namespace Cavs.MetaLost
open FileProg (Bytes)
open List (append_assoc filterMap_append map_cons mem_append mem_append_left mem_cons mem_filter mem_map
  mem_reverse mem_singleton)

section Model

/-- A pack on disk, by what it says. -/
structure PackAt where
  file : MetaPackFile
  time : Nat
  deriving DecidableEq

structure MetaDir where
  index : Option Bytes
  packs : List PackAt

/-- One call, the time of a file it makes, and the order in which it finds the packs. -/
structure ExportCall where
  view : StoreView
  names : List String
  now : Nat
  arrange : List PackAt → List PackAt
  perm : ∀ l, (arrange l).Perm l

def ExportCall.published (call : ExportCall) : StoreView × List String := (call.view, call.names)

variable (c : MetaCodec)

def MetaDir.sorted (dir : MetaDir) (call : ExportCall) : List PackAt :=
  (call.arrange dir.packs).insertionSort fun a b => a.time ≤ b.time

def MetaDir.tree (dir : MetaDir) (call : ExportCall) : MetaTree where
  index := dir.index
  packs := (dir.sorted call).map fun p => (packId c p.file, packBytes c p.file)
  manifests _ := none
  chunkMaps _ := none

/-- A pack whose file exists is not written. -/
def MetaDir.exports (dir : MetaDir) (call : ExportCall) : MetaDir where
  index := (exportMetaPack c call.view call.names (dir.tree c call)).2.index
  packs :=
    match exportedFile call.published with
    | none => dir.packs
    | some f =>
        if ((dir.tree c call).packs.lookup (packId c f)).isSome then dir.packs else dir.packs ++ [⟨f, call.now⟩]

/-- There is no index that could be read. -/
def Lost (index : Option Bytes) : Prop := index = none ∨ ∃ bytes e, index = some bytes ∧ c.indexFromJson bytes = .error e

inductive Event where
  | exports (call : ExportCall)
  | lose (index : Option Bytes) (lost : Lost c index)

variable {c}

def Event.apply (dir : MetaDir) : Event c → MetaDir
  | .exports call => dir.exports c call
  | .lose index _ => { dir with index }

def run (events : List (Event c)) : MetaDir := events.foldl Event.apply ⟨none, []⟩

def Event.published : Event c → Option (StoreView × List String)
  | .exports call => some call.published
  | .lose .. => none

/-- The packs that the exports made, in the order of the calls. -/
def ledger (events : List (Event c)) : List MetaPackFile := ledgerOf (events.filterMap Event.published)

end Model

section Spec
variable (c : MetaCodec)

/-- The index leads from every object to the newest pack of the ledger that lists it. -/
def Maps (dir : MetaDir) (ledger : List MetaPackFile) : Prop :=
  ∃ bytes file, dir.index = some bytes ∧ c.indexFromJson bytes = .ok file ∧ file.version = 1 ∧
    ∀ oid, (indexMap file.packs)[oid]? = (newest ledger oid).map (packId c)

/-- `a` stands before `b`. -/
def Before {α : Type} (l : List α) (a b : α) : Prop := ∃ front back, l = front ++ b :: back ∧ a ∈ front

/-- A lost index comes back: of the packs that list an object which the export leaves out, the
one that was exported last can be read, and its file comes last among those that can. -/
def Recoverable (dir : MetaDir) (call : ExportCall) (ledger : List MetaPackFile) : Prop :=
  Lost c dir.index → ∀ oid, oid ∉ call.names → ∀ g, newest ledger oid = some g → g.Fits c ∧
    ∀ f ∈ ledger, oid ∈ f.oids → f.Fits c → f ≠ g → Before ((dir.sorted call).map PackAt.file) f g

variable {c}

/-- Every export of the history that makes a pack finds the index there or can make it anew. -/
def EachRecoverable (events : List (Event c)) : Prop :=
  ∀ front call back, events = front ++ .exports call :: back → exportedFile call.published ≠ none →
    Recoverable c (run front) call (ledger front)

end Spec

section Order
variable {α β : Type} {l : List α} {a b : α} {p : α → Bool}

theorem before_filter (pa : p a = true) (pb : p b = true) :
    Before (l.filter p) a b ↔ Before l a b := by
  constructor
  · rintro ⟨front, back, split, mem⟩
    obtain ⟨front', rest, rfl, rfl, later⟩ := List.filter_eq_append_iff.mp split
    obtain ⟨skipped, back', rfl, -, -, rfl⟩ := List.filter_eq_cons_iff.mp later
    exact ⟨front' ++ skipped, back', by rw [append_assoc], mem_append_left _ (List.mem_of_mem_filter mem)⟩
  · rintro ⟨front, back, rfl, mem⟩
    refine ⟨front.filter p, back.filter p, ?_, mem_filter.mpr ⟨mem, pa⟩⟩
    rw [List.filter_append, List.filter_cons_of_pos pb]

/-- The last of a list that has a property. -/
theorem find_reverse_iff (once : l.Nodup) :
    l.reverse.find? p = some b ↔ b ∈ l ∧ p b = true ∧ ∀ a ∈ l, p a = true → a ≠ b → Before l a b := by
  constructor
  · intro found
    obtain ⟨good, front, back, split, before⟩ := List.find?_eq_some_iff_append.mp found
    have whole : l = back.reverse ++ b :: front.reverse := by
      rw [← List.reverse_reverse l, split, List.reverse_append, List.reverse_cons, append_assoc]
      rfl
    refine ⟨whole ▸ List.mem_append_right _ (.head _), good, fun a mem holds other => ⟨_, _, whole, ?_⟩⟩
    rw [whole] at mem
    rcases mem_append.mp mem with early | late
    · exact early
    · have after := (mem_cons.mp late).resolve_left other
      have none_ := before a (mem_reverse.mp after)
      rw [holds] at none_
      cases none_
  · rintro ⟨mem, good, others⟩
    obtain ⟨front, back, rfl⟩ := List.append_of_mem mem
    refine List.find?_eq_some_iff_append.mpr ⟨good, back.reverse, front.reverse, by simp, fun a mem' => ?_⟩
    have late := mem_reverse.mp mem'
    obtain ⟨-, once', apart⟩ := List.nodup_append.mp once
    obtain ⟨new, -⟩ := List.nodup_cons.mp once'
    have other : a ≠ b := fun same => new (same ▸ late)
    rw [Bool.not_eq_true', ← Bool.not_eq_true]
    intro holds
    obtain ⟨front', back', split, early⟩ := others a (List.mem_append_right _ (.tail _ late)) holds other
    have clear : b ∉ front := fun inside => apart b inside b (.head _) rfl
    obtain ⟨rfl, -, -⟩ := (List.append_cons_inj_of_notMem clear new).mp split
    exact apart a early a (.tail _ late) rfl

end Order

section Index
variable {c : MetaCodec} {dir : MetaDir} {call : ExportCall} {l : List MetaPackFile} {f : MetaPackFile}

instance (f : MetaPackFile) : Decidable (f.Fits c) := inferInstanceAs (Decidable (_ ≤ _))

/-- The packs that can be read, in the order of their file times. -/
def MetaDir.readable (c : MetaCodec) (dir : MetaDir) (call : ExportCall) : List MetaPackFile :=
  ((dir.sorted call).map PackAt.file).filter fun f => f.Fits c

theorem mem_sorted {p : PackAt} : p ∈ dir.sorted call ↔ p ∈ dir.packs := by
  rw [MetaDir.sorted, List.mem_insertionSort, (call.perm _).mem_iff]

/-- The index in the order of `l`, with the pack of the export last. -/
theorem newest_touch (oid : String) :
    newest (l.filter (fun g => g ≠ f) ++ [f]) oid = if oid ∈ f.oids then some f else newest l oid := by
  rw [newest_append]
  split
  case isTrue => rfl
  case isFalse other =>
    rw [newest, newest, ← List.filter_reverse, List.find?_filter]
    congr 1
    funext g
    by_cases same : g = f
    · simp [same, other]
    · simp [same]

theorem rebuildEntry_eq (f : MetaPackFile) :
    rebuildEntry c (packId c f, packBytes c f) = if f.Fits c then some (indexEntry c f) else none := by
  rw [rebuildEntry, packBytes]
  by_cases fits : f.Fits c
  · rw [c.decompress_compress 9 _ _ fits, if_pos fits]
    dsimp only
    rw [c.packFromJson_packJson]
    rfl
  · rw [if_neg fits]
    obtain ⟨e, refused⟩ := c.decompress_long 9 _ _ (Nat.lt_of_not_le fits)
    rw [refused]

theorem rebuilt_eq : (dir.tree c call).packs.filterMap (rebuildEntry c) = (dir.readable c call).map (indexEntry c) := by
  rw [MetaDir.tree, MetaDir.readable]
  dsimp only
  rw [List.filterMap_map]
  induction dir.sorted call with
  | nil => rfl
  | cons p rest hyp =>
    rw [List.filterMap_cons, Function.comp_apply, rebuildEntry_eq, map_cons, List.filter_cons]
    by_cases fits : p.file.Fits c
    · simp only [fits, if_true, decide_true, hyp, map_cons]
    · simp only [fits, if_false, decide_false, hyp, Bool.false_eq_true]

/-- What the export starts from: the index, or the packs when the index is lost. -/
structure StartsFrom (c : MetaCodec) (dir : MetaDir) (call : ExportCall) (l : List MetaPackFile) : Prop where
  lost : Lost c dir.index → l = dir.readable c call
  there : ¬ Lost c dir.index → ∃ g, dir.index = some (c.indexJson ⟨1, g, l.map (indexEntry c)⟩)

theorem readOrRebuild_lost {tree : MetaTree} (lost : Lost c tree.index) :
    readOrRebuildMetaIndex c tree = tree.packs.filterMap (rebuildEntry c) := by
  rw [readOrRebuildMetaIndex]
  rcases lost with none_ | ⟨bytes, e, there, refused⟩
  · rw [none_]
  · rw [there]
    dsimp only
    rw [refused]

theorem entries_filter (clear : ∀ g ∈ l, packId c g = packId c f → g = f) :
    (l.map (indexEntry c)).filter (fun p => p.id ≠ packId c f) = (l.filter fun g => g ≠ f).map (indexEntry c) := by
  rw [List.filter_map]
  congr 1
  refine List.filter_congr fun g mem => ?_
  have same : packId c g = packId c f ↔ g = f := ⟨clear g mem, fun equal => equal ▸ rfl⟩
  simp only [Function.comp_apply, indexEntry, ne_eq, decide_not, same]

/-- What is kept of the old index; the pack of the export is not among it. -/
theorem kept_entries (start : StartsFrom c dir call l) (clear : ∀ g ∈ l, packId c g = packId c f → g = f)
    {packs : List (String × Bytes)}
    (grown : packs = (dir.tree c call).packs ∨ packs = (dir.tree c call).packs ++ [(packId c f, packBytes c f)]) :
    (readOrRebuildMetaIndex c { dir.tree c call with packs }).filter (fun p => p.id ≠ packId c f) =
      (l.filter fun g => g ≠ f).map (indexEntry c) := by
  rw [← entries_filter clear]
  by_cases lost : Lost c dir.index
  · rw [@readOrRebuild_lost c { dir.tree c call with packs } lost, start.lost lost, ← rebuilt_eq]
    rcases grown with rfl | rfl
    · rfl
    · have own : (([(packId c f, packBytes c f)].filterMap (rebuildEntry c)).filter fun p => p.id ≠ packId c f) = [] := by
        rw [List.filterMap_cons, rebuildEntry_eq]
        by_cases fits : f.Fits c <;> simp [fits, indexEntry]
      rw [filterMap_append, List.filter_append, own, List.append_nil]
  · obtain ⟨g, there⟩ := start.there lost
    rw [readOrRebuildMetaIndex, show (dir.tree c call).index = _ from there]
    dsimp only
    rw [c.indexFromJson_indexJson]
    rfl

/-- The packs in the sight of an export, its own at last. -/
def MetaDir.inSight (c : MetaCodec) (dir : MetaDir) (call : ExportCall) (f : MetaPackFile) : List (String × Bytes) :=
  if ((dir.tree c call).packs.lookup (packId c f)).isSome then (dir.tree c call).packs
  else (dir.tree c call).packs ++ [(packId c f, packBytes c f)]

theorem exports_of_made (made : exportedFile call.published = some f) : call.names = f.oids ∧
    ∃ n, (dir.exports c call).index = some (c.indexJson ⟨1, n,
      (readOrRebuildMetaIndex c { dir.tree c call with packs := dir.inSight c call f }).filter
        (fun p => p.id ≠ packId c f) ++ [indexEntry c f]⟩) := by
  rw [exportedFile] at made
  split at made
  case isTrue => cases made
  case isFalse some_ =>
    cases ran : exportObjects call.view call.names with
    | error e =>
      rw [ExportCall.published, ran] at made
      cases made
    | ok objects =>
      rw [ExportCall.published, ran] at made
      obtain rfl : (⟨1, objects⟩ : MetaPackFile) = f := Option.some.inj made
      have names : call.names = MetaPackFile.oids ⟨1, objects⟩ := (exportObjects_oids ran).symm
      have index : (dir.exports c call).index = (exportMetaPack c call.view call.names (dir.tree c call)).2.index := rfl
      rw [exportMetaPack, if_neg (show ¬ call.names = [] from some_), ran] at index
      refine ⟨names, ?_⟩
      rw [indexEntry, ← names]
      exact ⟨_, index⟩

/-- The index after an export that makes a pack. -/
theorem exports_index (made : exportedFile call.published = some f) (start : StartsFrom c dir call l)
    (clear : ∀ g ∈ l, packId c g = packId c f → g = f) :
    ∃ n, (dir.exports c call).index = some (c.indexJson ⟨1, n, (l.filter (fun g => g ≠ f) ++ [f]).map (indexEntry c)⟩) := by
  obtain ⟨-, n, index⟩ := @exports_of_made c dir call f made
  rw [kept_entries start clear (by rw [MetaDir.inSight]; split; exacts [.inl rfl, .inr rfl])] at index
  exact ⟨n, by rw [index, List.map_append]; rfl⟩

end Index

section Run
variable {c : MetaCodec} {dir : MetaDir} {call : ExportCall} {L : List MetaPackFile} {f : MetaPackFile}

/-- What the exports leave: a file for each pack, and an index that is lost or leads to the
newest packs. -/
structure Kept (c : MetaCodec) (dir : MetaDir) (L : List MetaPackFile) : Prop where
  files : ∀ f, f ∈ dir.packs.map PackAt.file ↔ f ∈ L
  once : (dir.packs.map PackAt.file).Nodup
  index : Lost c dir.index ∨ ∃ l g, dir.index = some (c.indexJson ⟨1, g, l.map (indexEntry c)⟩) ∧
    (∀ f ∈ l, f ∈ L) ∧ ∀ oid, newest l oid = newest L oid

theorem readable_iff (kept : Kept c dir L) : f ∈ dir.readable c call ↔ f ∈ L ∧ f.Fits c := by
  rw [MetaDir.readable, mem_filter, ← kept.files, mem_map, mem_map, decide_eq_true_iff]
  simp only [mem_sorted]

theorem sorted_once (kept : Kept c dir L) : ((dir.sorted call).map PackAt.file).Nodup :=
  (((List.perm_insertionSort ..).trans (call.perm _)).map PackAt.file).nodup_iff.mpr kept.once

theorem newest_eq_some_iff {l : List MetaPackFile} (once : l.Nodup) {oid : String} {g : MetaPackFile} :
    newest l oid = some g ↔ g ∈ l ∧ oid ∈ g.oids ∧ ∀ f ∈ l, oid ∈ f.oids → f ≠ g → Before l f g := by
  rw [newest, find_reverse_iff once]
  simp only [decide_eq_true_eq]

/-- The packs that can be read lead to the newest ones exactly when the export is recoverable. -/
theorem recoverable_iff (kept : Kept c dir L) (lost : Lost c dir.index) :
    Recoverable c dir call L ↔ ∀ oid, oid ∉ call.names → newest (dir.readable c call) oid = newest L oid := by
  have once : (dir.readable c call).Nodup := (sorted_once kept).filter _
  have before : ∀ {f g : MetaPackFile}, f.Fits c → g.Fits c →
      (Before (dir.readable c call) f g ↔ Before ((dir.sorted call).map PackAt.file) f g) :=
    fun ff gf => before_filter (decide_eq_true ff) (decide_eq_true gf)
  constructor
  · intro recoverable oid other
    cases found : newest L oid with
    | none =>
      rw [newest, List.find?_eq_none]
      intro f mem
      have absent := List.find?_eq_none.mp found f
      rw [mem_reverse] at mem absent
      exact absent ((readable_iff kept).mp mem).1
    | some g =>
      obtain ⟨fits, others⟩ := recoverable lost oid other g found
      obtain ⟨mem, listed⟩ := newest_mem found
      refine (newest_eq_some_iff once).mpr ⟨(readable_iff kept).mpr ⟨mem, fits⟩, listed, ?_⟩
      intro f mem' listed' differs
      obtain ⟨there, fits'⟩ := (readable_iff kept).mp mem'
      exact (before fits' fits).mpr (others f there listed' fits' differs)
  · intro agree _ oid other g found
    obtain ⟨mem, listed, others⟩ := (newest_eq_some_iff once).mp ((agree oid other).trans found)
    obtain ⟨-, fits⟩ := (readable_iff kept).mp mem
    refine ⟨fits, ?_⟩
    intro f there listed' fits' differs
    exact (before fits' fits).mp (others f ((readable_iff kept).mpr ⟨there, fits'⟩) listed' differs)

variable {f : MetaPackFile}

/-- The list from which an export of the pack goes on. -/
theorem Kept.starts (kept : Kept c dir L) : ∃ l, StartsFrom c dir call l ∧ (∀ g ∈ l, g ∈ L) ∧
    (Recoverable c dir call L ↔ ∀ oid, oid ∉ call.names → newest l oid = newest L oid) := by
  by_cases lost : Lost c dir.index
  · refine ⟨dir.readable c call, ⟨fun _ => rfl, fun there => absurd lost there⟩, ?_, recoverable_iff kept lost⟩
    exact fun g mem => ((readable_iff kept).mp mem).1
  · obtain ⟨l, g, index, inside, same⟩ := kept.index.resolve_left lost
    refine ⟨l, ⟨fun other => absurd other lost, fun _ => ⟨g, index⟩⟩, inside, ?_⟩
    exact ⟨fun _ oid _ => same oid, fun _ other => absurd other lost⟩

theorem ledgerAfter_made (made : exportedFile call.published = some f) :
    ledgerAfter L call.published = L.filter (fun g => g ≠ f) ++ [f] := by
  rw [ledgerAfter, made]

/-- A pack is written when no export made it before. -/
theorem Kept.exported (kept : Kept c dir L) (made : exportedFile call.published = some f)
    (clear : ∀ g ∈ L, packId c g = packId c f → g = f) :
    (dir.exports c call).packs = dir.packs ∧ f ∈ L ∨
      (dir.exports c call).packs = dir.packs ++ [⟨f, call.now⟩] ∧ f ∉ L := by
  have names : ((dir.tree c call).packs.lookup (packId c f)).isSome ↔ f ∈ L := by
    rw [List.lookup_isSome_iff, ← kept.files]
    simp only [MetaDir.tree, mem_map, beq_iff_eq]
    constructor
    · rintro ⟨-, ⟨p, mem, rfl⟩, same⟩
      have there := mem_sorted.mp mem
      exact ⟨p, there, clear p.file ((kept.files _).mp (List.mem_map_of_mem there)) same.symm⟩
    · rintro ⟨p, mem, rfl⟩
      exact ⟨_, ⟨p, mem_sorted.mpr mem, rfl⟩, rfl⟩
  rw [MetaDir.exports, made]
  dsimp only
  split
  case isTrue there => exact .inl ⟨rfl, names.mp there⟩
  case isFalse absent => exact .inr ⟨rfl, fun mem => absent (names.mpr mem)⟩

/-- What the index leads to after an export that makes a pack. -/
theorem Kept.indexed (kept : Kept c dir L) (made : exportedFile call.published = some f)
    (clear : ∀ g ∈ L, packId c g = packId c f → g = f) :
    ∃ l n, (dir.exports c call).index = some (c.indexJson ⟨1, n, l.map (indexEntry c)⟩) ∧
      (∀ g ∈ l, g ∈ ledgerAfter L call.published) ∧
      (Recoverable c dir call L ↔ ∀ oid, newest l oid = newest (ledgerAfter L call.published) oid) := by
  obtain ⟨l, starts, inside, recovers⟩ := @Kept.starts c dir call L kept
  obtain ⟨n, index⟩ := exports_index made starts fun g mem => clear g (inside g mem)
  refine ⟨_, n, index, ?_, ?_⟩
  · intro g mem
    rw [mem_ledgerAfter]
    rcases mem_append.mp mem with old | new
    · exact .inl (inside g (mem_filter.mp old).1)
    · rw [mem_singleton.mp new]
      exact .inr made
  · rw [recovers, ledgerAfter_made made, (@exports_of_made c dir call f made).1]
    refine forall_congr' fun oid => ?_
    rw [newest_touch, newest_touch]
    by_cases listed : oid ∈ f.oids <;> simp [listed]

theorem exports_none (none_ : exportedFile call.published = none) : dir.exports c call = dir := by
  have index : (exportMetaPack c call.view call.names (dir.tree c call)).2.index = dir.index := by
    rw [exportedFile] at none_
    rw [exportMetaPack]
    split at none_
    case isTrue empty =>
      rw [if_pos (show call.names = [] from empty)]
      rfl
    case isFalse filled =>
      rw [if_neg (show ¬ call.names = [] from filled)]
      cases ran : exportObjects call.view call.names with
      | error e => rfl
      | ok objects =>
        rw [ExportCall.published, ran] at none_
        cases none_
  rw [MetaDir.exports, none_, index]

theorem Kept.exports (kept : Kept c dir L) (recoverable : exportedFile call.published ≠ none → Recoverable c dir call L)
    (clear : ∀ g ∈ L, ∀ f, exportedFile call.published = some f → packId c g = packId c f → g = f) :
    Kept c (dir.exports c call) (ledgerAfter L call.published) := by
  cases made : exportedFile call.published with
  | none =>
    rw [exports_none made, ledgerAfter, made]
    exact kept
  | some f =>
    have clear' : ∀ g ∈ L, packId c g = packId c f → g = f := fun g mem => clear g mem f made
    obtain ⟨l, n, index, inside, recovers⟩ := kept.indexed made clear'
    have same := recovers.mp (recoverable (by rw [made]; exact Option.some_ne_none f))
    have files : (∀ g, g ∈ (dir.exports c call).packs.map PackAt.file ↔ g ∈ L ∨ g = f) ∧
        ((dir.exports c call).packs.map PackAt.file).Nodup := by
      rcases kept.exported made clear' with ⟨old, mem⟩ | ⟨new, fresh⟩
      · rw [old]
        refine ⟨fun g => (kept.files g).trans ⟨.inl, ?_⟩, kept.once⟩
        rintro (there | rfl)
        · exact there
        · exact mem
      · rw [new, List.map_append]
        refine ⟨fun g => ?_, List.nodup_append.mpr ⟨kept.once, List.nodup_singleton _, ?_⟩⟩
        · rw [mem_append, kept.files, List.map_singleton, mem_singleton]
        · intro g mem g' mem' same'
          rw [List.map_singleton, mem_singleton] at mem'
          rw [kept.files, same', mem'] at mem
          exact fresh mem
    refine ⟨fun g => ?_, files.2, .inr ⟨l, n, index, inside, same⟩⟩
    rw [files.1, mem_ledgerAfter, made, Option.some.injEq, eq_comm (a := f)]

theorem ledgerOf_append (calls : List (StoreView × List String)) (call : StoreView × List String) :
    ledgerOf (calls ++ [call]) = ledgerAfter (ledgerOf calls) call := by
  rw [ledgerOf, ledgerOf, List.foldl_append]
  rfl

theorem mem_ledgerOf {calls : List (StoreView × List String)} :
    f ∈ ledgerOf calls ↔ f ∈ calls.filterMap exportedFile := by
  induction calls using List.reverseRecOn with
  | nil => simp [ledgerOf]
  | append_singleton calls call hyp =>
    rw [ledgerOf_append, mem_ledgerAfter, hyp, filterMap_append, mem_append]
    simp

theorem clear_of (calls : List (StoreView × List String)) (call : StoreView × List String)
    (clear : NoCollision c (calls ++ [call])) :
    ∀ g ∈ ledgerOf calls, ∀ f, exportedFile call = some f → packId c g = packId c f → g = f := by
  intro g mem f made same
  apply packBytes_injective
  refine clear g ?_ f ?_ (toHex_injective same)
  · rw [filterMap_append]
    exact mem_append_left _ (mem_ledgerOf.mp mem)
  · rw [filterMap_append]
    exact List.mem_append_right _ (List.mem_filterMap.mpr ⟨call, mem_singleton.mpr rfl, made⟩)

theorem noCollision_front {calls more : List (StoreView × List String)} (clear : NoCollision c (calls ++ more)) :
    NoCollision c calls := by
  intro f mem g mem'
  refine clear f ?_ g ?_
  · rw [filterMap_append]
    exact mem_append_left _ mem
  · rw [filterMap_append]
    exact mem_append_left _ mem'

theorem ledger_exports (events : List (Event c)) (call : ExportCall) :
    ledger (events ++ [Event.exports call]) = ledgerAfter (ledger events) call.published := by
  rw [ledger, filterMap_append]
  exact ledgerOf_append _ _

theorem run_append (events : List (Event c)) (event : Event c) : run (events ++ [event]) = event.apply (run events) := by
  rw [run, List.foldl_append]
  rfl

/-- Histories whose exports are all recoverable keep the tree. -/
theorem kept_run (events : List (Event c)) (clear : NoCollision c (events.filterMap Event.published))
    (each : EachRecoverable events) : Kept c (run events) (ledger events) := by
  induction events using List.reverseRecOn with
  | nil => exact ⟨fun f => by simp [run, ledger, ledgerOf], List.nodup_nil, .inl (.inl rfl)⟩
  | append_singleton events event hyp =>
    rw [filterMap_append] at clear
    have earlier : EachRecoverable events := by
      intro front call back split
      exact each front call (back ++ [event]) (by rw [split, append_assoc]; rfl)
    have kept := hyp (noCollision_front clear) earlier
    cases event with
    | lose index lost =>
      have same : ledger (events ++ [.lose index lost]) = ledger events := by
        rw [ledger, filterMap_append]
        exact congrArg ledgerOf (List.append_nil _)
      rw [run_append, same]
      exact ⟨kept.files, kept.once, .inl lost⟩
    | exports call =>
      rw [run_append, ledger_exports]
      exact kept.exports (each events call [] rfl) (clear_of _ _ clear)

end Run

section Settled
variable {c : MetaCodec} {dir : MetaDir} {L : List MetaPackFile} {call : ExportCall}

theorem maps_iff {l : List MetaPackFile} {n : Nat}
    (index : dir.index = some (c.indexJson ⟨1, n, l.map (indexEntry c)⟩)) (inside : ∀ g ∈ l, g ∈ L)
    (injective : ∀ g ∈ L, ∀ h ∈ L, packId c g = packId c h → g = h) :
    Maps c dir L ↔ ∀ oid, newest l oid = newest L oid := by
  have leads : ∀ oid, (indexMap (l.map (indexEntry c)))[oid]? = (newest l oid).map (packId c) :=
    fun oid => indexMap_newest (packId c) l oid
  constructor
  · rintro ⟨bytes, file, there, read, -, maps⟩ oid
    obtain rfl := Option.some.inj (there.symm.trans index)
    rw [c.indexFromJson_indexJson] at read
    obtain rfl := Except.ok.inj read
    have same := (leads oid).symm.trans (maps oid)
    cases found : newest l oid with
    | none =>
      rw [found] at same
      exact (Option.map_eq_none_iff.mp same.symm).symm
    | some g =>
      rw [found] at same
      obtain ⟨h, newer, ids⟩ := Option.map_eq_some_iff.mp same.symm
      rw [newer, injective h (newest_mem newer).1 g (inside g (newest_mem found).1) ids]
  · intro same
    exact ⟨_, _, index, c.indexFromJson_indexJson _, rfl, fun oid => (leads oid).trans (by rw [same])⟩

theorem Kept.maps_iff {f : MetaPackFile} (kept : Kept c dir L) (made : exportedFile call.published = some f)
    (clear : ∀ g ∈ L, packId c g = packId c f → g = f)
    (injective : ∀ g ∈ ledgerAfter L call.published, ∀ h ∈ ledgerAfter L call.published,
      packId c g = packId c h → g = h) :
    Maps c (dir.exports c call) (ledgerAfter L call.published) ↔ Recoverable c dir call L := by
  obtain ⟨l, n, index, inside, recovers⟩ := kept.indexed made clear
  rw [recovers]
  exact MetaLost.maps_iff index inside injective

/-- A call that makes no pack leaves the index as it is. -/
theorem Kept.maps_of_none (kept : Kept c dir L) (none_ : exportedFile call.published = none)
    (injective : ∀ g ∈ L, ∀ h ∈ L, packId c g = packId c h → g = h) :
    Maps c (dir.exports c call) (ledgerAfter L call.published) ↔ ¬ Lost c dir.index := by
  rw [exports_none none_, ledgerAfter, none_]
  constructor
  · rintro ⟨bytes, file, there, read, -, -⟩ (gone | ⟨bytes', e, there', refused⟩)
    · rw [gone] at there
      cases there
    · rw [Option.some.inj (there'.symm.trans there), read] at refused
      cases refused
  · intro present
    obtain ⟨l, n, index, inside, same⟩ := kept.index.resolve_left present
    exact (MetaLost.maps_iff index inside injective).mpr same

/-- In a history whose exports are all recoverable, an export leaves the right index exactly when it
is recoverable as well; one that makes no pack needs the index to be there. -/
theorem index_recovers (events : List (Event c)) (call : ExportCall)
    (clear : NoCollision c ((events ++ [Event.exports call]).filterMap Event.published))
    (each : EachRecoverable events) :
    Maps c (run (events ++ [Event.exports call])) (ledger (events ++ [Event.exports call])) ↔
      if exportedFile call.published = none then ¬ Lost c (run events).index
      else Recoverable c (run events) call (ledger events) := by
  have injective : ∀ g ∈ ledger (events ++ [Event.exports call]), ∀ h ∈ ledger (events ++ [Event.exports call]),
      packId c g = packId c h → g = h := by
    intro g mem h mem' same
    exact packBytes_injective (clear g (mem_ledgerOf.mp mem) h (mem_ledgerOf.mp mem') (toHex_injective same))
  rw [filterMap_append] at clear
  have distinct := clear_of _ _ clear
  have kept := kept_run events (noCollision_front clear) each
  rw [ledger_exports] at injective ⊢
  rw [run_append]
  split
  case isTrue none_ =>
    refine kept.maps_of_none none_ fun g mem h mem' => injective g ?_ h ?_
    · exact mem_ledgerAfter.mpr (.inl mem)
    · exact mem_ledgerAfter.mpr (.inl mem')
  case isFalse some_ =>
    obtain ⟨f, made⟩ := Option.ne_none_iff_exists'.mp some_
    exact kept.maps_iff made (fun g mem => distinct g mem f made) injective

end Settled

/-! A pack that is exported again after a newer one keeps its file time. -/
section Sample

variable {c : MetaCodec} {call : ExportCall} {f : MetaPackFile}

def packA : MetaPackFile := samplePack "first" ["a"]

def packA' : MetaPackFile := samplePack "second" ["a"]

def packB : MetaPackFile := samplePack "first" ["b"]

noncomputable def shortJson (file : MetaPackFile) : Bytes :=
  if file = packA then [1] else if file = packA' then [2] else if file = packB then [3] else 0 :: unary file

noncomputable def ofShortJson : Bytes → Except String MetaPackFile
  | 0 :: rest => ofUnary MetaPackFile rest
  | 1 :: _ => .ok packA
  | 2 :: _ => .ok packA'
  | _ => .ok packB

theorem ofShortJson_shortJson (file : MetaPackFile) : ofShortJson (shortJson file) = .ok file := by
  rw [shortJson]
  split
  case isTrue same => rw [same]; rfl
  case isFalse =>
    split
    case isTrue same => rw [same]; rfl
    case isFalse =>
      split
      case isTrue same => rw [same]; rfl
      case isFalse => exact ofUnary_unary file

noncomputable def shortMeta : MetaCodec :=
  { countingMeta with
    hashChunk := numberHash
    packJson := shortJson
    packFromJson := ofShortJson
    packFromJson_packJson := ofShortJson_shortJson }

theorem packBytes_short : packBytes shortMeta packA = [1] ∧ packBytes shortMeta packA' = [2] ∧
    packBytes shortMeta packB = [3] := by
  have second : packA' ≠ packA := by decide
  have third : packB ≠ packA := by decide
  have third' : packB ≠ packA' := by decide
  have json : ∀ f, packBytes shortMeta f = shortJson f := fun _ => rfl
  simp only [json, shortJson, if_true, if_neg second, if_neg third, if_neg third', and_self]

theorem noCollision_short {calls : List (StoreView × List String)}
    (known : ∀ f ∈ calls.filterMap exportedFile, f = packA ∨ f = packA' ∨ f = packB) : NoCollision shortMeta calls := by
  obtain ⟨a, a', b⟩ := packBytes_short
  have ab : numberHash [1] ≠ numberHash [2] ∧ numberHash [1] ≠ numberHash [3] ∧ numberHash [2] ≠ numberHash [3] := by decide
  intro f mem g mem' same
  change numberHash _ = numberHash _ at same
  rcases known f mem with rfl | rfl | rfl <;> rcases known g mem' with rfl | rfl | rfl <;>
    simp only [a, a', b, ab.1, ab.2.1, ab.2.2, ab.1.symm, ab.2.1.symm, ab.2.2.symm] at same ⊢

def callAt (pack name : String) (now : Nat) : ExportCall := ⟨packedIn pack, [name], now, id, fun l => .refl l⟩

theorem not_lost_made {dir : MetaDir} (made : exportedFile call.published = some f) :
    ¬ Lost c (dir.exports c call).index := by
  obtain ⟨-, n, index⟩ := @exports_of_made c dir call f made
  rw [index]
  rintro (none_ | ⟨bytes, e, there, refused⟩)
  · cases none_
  · obtain rfl := Option.some.inj there
    rw [c.indexFromJson_indexJson] at refused
    cases refused

theorem fits_packA : packA.Fits shortMeta := by
  change (packBytes shortMeta packA).length ≤ maxMetaPackBytes
  rw [packBytes_short.1]
  decide

theorem fits_packA' : packA'.Fits shortMeta := by
  change (packBytes shortMeta packA').length ≤ maxMetaPackBytes
  rw [packBytes_short.2.1]
  decide

theorem each_nil : EachRecoverable ([] : List (Event c)) := by
  intro front call back split
  cases front <;> cases split

theorem EachRecoverable.append {events : List (Event c)} {event : Event c} (each : EachRecoverable events)
    (last : ∀ call, event = .exports call → Recoverable c (run events) call (ledger events)) :
    EachRecoverable (events ++ [event]) := by
  intro front call back split made
  induction back using List.reverseRecOn with
  | nil =>
    obtain ⟨rfl, same⟩ := List.append_inj' split rfl
    exact last call (List.cons.inj same).1
  | append_singleton back other _ =>
    rw [← List.cons_append, ← append_assoc] at split
    exact each front call back (List.append_inj' split rfl).1 made

/-- One export, after which the index is lost. -/
def lostOnce (c : MetaCodec) : List (Event c) := [.exports (callAt "first" "a" 1), .lose none (.inl rfl)]

theorem each_lostOnce : EachRecoverable (lostOnce c) := by
  have one : EachRecoverable ([] ++ [Event.exports (c := c) (callAt "first" "a" 1)]) := by
    refine each_nil.append ?_
    intro call same lost oid other g found
    cases found
  exact one.append fun call same => nomatch same

theorem index_recovers_short :
    Maps shortMeta (run (lostOnce shortMeta ++ [Event.exports (callAt "first" "b" 2)]))
      (ledger (lostOnce shortMeta ++ [Event.exports (callAt "first" "b" 2)])) := by
  have clear : NoCollision shortMeta
      ((lostOnce shortMeta ++ [Event.exports (callAt "first" "b" 2)]).filterMap Event.published) := by
    refine noCollision_short fun f mem => ?_
    rcases mem_cons.mp mem with rfl | mem
    · exact .inl rfl
    · exact .inr (.inr (mem_singleton.mp mem))
  have made : exportedFile (callAt "first" "b" 2).published = some packB := rfl
  apply (index_recovers _ _ clear each_lostOnce).mpr
  rw [made, if_neg (Option.some_ne_none packB)]
  have one : ledger (lostOnce shortMeta) = [packA] := rfl
  intro lost oid other g found
  obtain ⟨mem, -⟩ := newest_mem found
  rw [one, mem_singleton] at mem
  refine ⟨mem ▸ fits_packA, ?_⟩
  intro f mem' listed fits differs
  rw [one, mem_singleton] at mem'
  exact absurd (mem'.trans mem.symm) differs

/-- The pack of the first export is exported again after a newer one. -/
def again : List (Event shortMeta) :=
  [] ++ [.exports (callAt "first" "a" 1)] ++ [.exports (callAt "second" "a" 2)] ++ [.exports (callAt "first" "a" 3)]

def againLost : List (Event shortMeta) := again ++ [.lose none (.inl rfl)]

theorem noCollision_again :
    NoCollision shortMeta ((againLost ++ [Event.exports (callAt "first" "b" 4)]).filterMap Event.published) := by
  have made : ((againLost ++ [Event.exports (callAt "first" "b" 4)]).filterMap Event.published).filterMap exportedFile =
      [packA, packA', packA, packB] := rfl
  apply noCollision_short
  rw [made]
  decide

theorem packs_exports {events : List (Event shortMeta)}
    (clear : NoCollision shortMeta ((events ++ [Event.exports call]).filterMap Event.published))
    (each : EachRecoverable events) (made : exportedFile call.published = some f) :
    (run (events ++ [Event.exports call])).packs =
      if f ∈ ledger events then (run events).packs else (run events).packs ++ [⟨f, call.now⟩] := by
  rw [filterMap_append] at clear
  have kept := kept_run events (noCollision_front clear) each
  rw [run_append]
  rcases kept.exported made fun g mem => clear_of _ _ clear g mem f made with ⟨same, old⟩ | ⟨grown, new⟩
  · exact same.trans (if_pos old).symm
  · exact grown.trans (if_neg new).symm

/-- The older pack is not written again, so its file stands before the newer one. -/
theorem again_packs : EachRecoverable again ∧ (run again).packs = [⟨packA, 1⟩, ⟨packA', 2⟩] := by
  have first : exportedFile (callAt "first" "a" 1).published = some packA := rfl
  have second : exportedFile (callAt "second" "a" 2).published = some packA' := rfl
  have one : EachRecoverable ([] ++ [Event.exports (c := shortMeta) (callAt "first" "a" 1)]) := by
    refine each_nil.append ?_
    intro call same lost oid other g found
    cases found
  have two : EachRecoverable (_ ++ [Event.exports (callAt "second" "a" 2)]) :=
    one.append fun call _ lost => absurd lost (not_lost_made first)
  have three : EachRecoverable (_ ++ [Event.exports (callAt "first" "a" 3)]) :=
    two.append fun call _ lost => absurd lost (not_lost_made second)
  refine ⟨three, ?_⟩
  have clear := noCollision_again
  rw [againLost, filterMap_append, filterMap_append] at clear
  have clear₃ := noCollision_front (noCollision_front clear)
  have clear₂ := clear₃
  rw [again, filterMap_append] at clear₂
  have clear₁ := noCollision_front clear₂
  rw [filterMap_append] at clear₁
  rw [again, packs_exports clear₃ two first, if_pos (by decide),
    packs_exports (noCollision_front clear₂) one second, if_neg (by decide),
    packs_exports (noCollision_front clear₁) each_nil first, if_neg (by decide)]
  rfl

theorem not_index_recovers : ¬ ∀ (c : MetaCodec) (events : List (Event c)) (call : ExportCall),
    NoCollision c ((events ++ [Event.exports call]).filterMap Event.published) → exportedFile call.published ≠ none →
      Maps c (run (events ++ [Event.exports call])) (ledger (events ++ [Event.exports call])) := by
  intro recovers
  have made : exportedFile (callAt "first" "b" 4).published = some packB := rfl
  have maps := recovers shortMeta againLost _ noCollision_again (made ▸ Option.some_ne_none packB)
  obtain ⟨each, packs⟩ := again_packs
  have clear := noCollision_again
  rw [filterMap_append] at clear
  have kept := kept_run againLost (noCollision_front clear) (each.append fun call same => nomatch same)
  rw [ledger_exports, run_append] at maps
  have distinct := clear_of _ _ clear
  have injective : ∀ g ∈ ledger (againLost ++ [Event.exports (callAt "first" "b" 4)]),
      ∀ h ∈ ledger (againLost ++ [Event.exports (callAt "first" "b" 4)]), packId shortMeta g = packId shortMeta h → g = h := by
    intro g mem h mem' same
    exact packBytes_injective (noCollision_again g (mem_ledgerOf.mp mem) h (mem_ledgerOf.mp mem') (toHex_injective same))
  rw [ledger_exports] at injective
  have recoverable := (kept.maps_iff made (fun g mem => distinct g mem packB made) injective).mp maps
  have newer := (recoverable (.inl rfl) "a" (by decide) packA (by decide)).2 packA' (by decide) (by decide) fits_packA' (by decide)
  have order : ((run againLost).sorted (callAt "first" "b" 4)).map PackAt.file = [packA, packA'] := by
    have same : (run againLost).packs = (run again).packs := by rw [againLost, run_append]; rfl
    rw [MetaDir.sorted, same, packs]
    rfl
  rw [order] at newer
  obtain ⟨front, back, split, early⟩ := newer
  have differ : packA ≠ packA' := by decide
  cases front with
  | nil => cases early
  | cons g rest =>
    cases rest with
    | nil => exact differ (List.cons.inj (List.cons.inj split).2).1.symm
    | cons h rest =>
      have short := congrArg List.length split
      simp at short

end Sample

end Cavs.MetaLost
