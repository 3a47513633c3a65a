import Mathlib.Data.List.Dedup
import Cavs.Publish

/-!
# The grace period of a collection

The ledger of a handle, the entries of its open pack, and the ledger that was saved last, which is
what the handle shows when it is opened again. Beside them stands what the age of a chunk should
be: when it was put, and the last call before which a published asset referenced it.
-/
namespace Cavs.Grace
open FileProg (Bytes)
open FileProg.Eff (op)
open Std (ExtTreeMap)

abbrev Chunks := String → Option ChunkInfo

abbrev Assets := List (String × List String)

/-- When each chunk was put, and the last call before which an asset referenced it. -/
structure Seen where
  put : String → Option Nat
  referenced : String → Option Nat

structure Ledger where
  chunks : Chunks
  assets : Assets
  seen : Seen

structure Handle where
  ledger : Ledger
  saved : Ledger
  layout : StoreLayout
  openPack : Option (List PackEntry)
  /-- How many records the open batch holds back. -/
  batch : Option Nat

section Table

def update (chunks : Chunks) (hex : String) (f : ChunkInfo → ChunkInfo) : Chunks :=
  fun h => if h = hex then (chunks h).map f else chunks h

def insert (chunks : Chunks) (hex : String) (info : ChunkInfo) : Chunks :=
  fun h => if h = hex then some info else chunks h

/-- The ledger entry of a sealed chunk, made anew when there is none. -/
def resolve (pack : String) (chunks : Chunks) (e : PackEntry) : Chunks :=
  if (chunks (toHex e.hash)).isSome then update chunks (toHex e.hash) (placeAt pack e.offset)
  else insert chunks (toHex e.hash) ⟨e.rawLen, e.storedLen, e.flags, 0, some 0, some pack, some e.offset⟩

/-- Drop one reference to each chunk; the clock is read for each. -/
def decrement (stamp : String → Nat) (hexes : List String) (chunks : Chunks) : Chunks :=
  hexes.foldl (fun c hex => update c hex (dereferenced (stamp hex))) chunks

def increment (hexes : List String) (chunks : Chunks) : Chunks :=
  hexes.foldl (fun c hex => update c hex referenced) chunks

/-- How many assets reference a chunk. -/
def references (assets : Assets) (hex : String) : Nat := assets.countP fun a => decide (hex ∈ a.2)

def chunksOf (assets : Assets) (name : String) : Option (List String) :=
  (assets.find? fun a => decide (a.1 = name)).map Prod.snd

def without (assets : Assets) (name : String) : Assets := assets.filter fun a => decide (a.1 ≠ name)

end Table

namespace Handle

def empty (layout : StoreLayout) : Handle :=
  let none_ : Ledger := ⟨fun _ => none, [], fun _ => none, fun _ => none⟩
  ⟨none_, none_, layout, none, none⟩

def setChunks (s : Handle) (chunks : Chunks) : Handle := { s with ledger := { s.ledger with chunks } }

def save (s : Handle) : Handle := { s with saved := s.ledger }

def flush (s : Handle) (pack : String) : Handle :=
  match s.openPack with
  | none => s
  | some entries => { s.setChunks (entries.foldl (resolve pack) s.ledger.chunks) with openPack := none }

/-- What is new about a chunk that is put, and whether its pack is full with it. -/
structure Incoming where
  hash : ChunkHash
  stored : Bytes
  flags : UInt32
  lenRaw : UInt32
  offset : Nat
  full : Bool

def put (s : Handle) (now : Nat) (c : Incoming) (pack : String) : Handle :=
  let hex := toHex c.hash
  if (s.ledger.chunks hex).isSome then s
  else
    let seen : Seen := { s.ledger.seen with put := fun h => if h = hex then some now else s.ledger.seen.put h }
    let chunks := insert s.ledger.chunks hex (freshInfo c.stored c.flags c.lenRaw)
    let entry : PackEntry := ⟨c.hash, c.offset, UInt32.ofNat c.stored.length, c.lenRaw, c.flags⟩
    match s.layout with
    | .loose => { s with ledger := ⟨chunks, s.ledger.assets, seen⟩ }
    | .packfiles =>
        let s : Handle :=
          { s with ledger := ⟨chunks, s.ledger.assets, seen⟩, openPack := some (s.openPack.getD [] ++ [entry]) }
        if c.full then s.flush pack else s

/-- Take an asset off the table, with its references. -/
def remove (s : Handle) (stamp : String → Nat) (name : String) (old : List String) : Handle :=
  { s with
    ledger := { s.ledger with
      chunks := decrement stamp old s.ledger.chunks
      assets := without s.ledger.assets name } }

def list (s : Handle) (name : String) (hexes : List String) : Handle :=
  { s with
    ledger := { s.ledger with
      chunks := increment hexes s.ledger.chunks
      assets := (name, hexes) :: without s.ledger.assets name } }

def publish (s : Handle) (stamp : String → Nat) (name : String) (hexes : List String) (pack : String) : Handle :=
  if badName name then s
  else
    let s := if s.batch.isSome then s else s.flush pack
    let distinct := hexes.dedup
    if distinct.any fun hex => (s.ledger.chunks hex).isNone then s
    else
      let s := match chunksOf s.ledger.assets name with
        | some old => s.remove stamp name old
        | none => s
      let s := s.list name distinct
      match s.batch with
      | some pending => { s with batch := some (pending + 1) }
      | none => s.save

def unpublish (s : Handle) (stamp : String → Nat) (name : String) : Handle :=
  match chunksOf s.ledger.assets name with
  | none => s
  | some old => (s.remove stamp name old).save

def beginBatch (s : Handle) : Handle := { s with batch := some (s.batch.getD 0) }

def commitBatch (s : Handle) (pack : String) : Handle :=
  match s.batch with
  | none => s
  | some pending =>
      let done := { s.flush pack with batch := none }
      if 0 < pending ∨ s.openPack.isSome = true then done.save else done

def gc (s : Handle) (now grace : Nat) : Handle :=
  (s.setChunks fun hex => (s.ledger.chunks hex).filter fun info => !doomed now grace info).save

def reopen (s : Handle) : Handle := { s with ledger := s.saved, openPack := none, batch := none }

end Handle

/-- A call on a handle; a call that may close a pack has the name of it. -/
inductive Call where
  | put (c : Handle.Incoming) (pack : String)
  | flush (pack : String)
  | publish (name : String) (hexes : List String) (pack : String) (stamp : String → Nat)
  | unpublish (name : String) (stamp : String → Nat)
  | beginBatch
  | commitBatch (pack : String)
  | gc (grace : Nat)
  | reopen

/-- What a chunk's age is counted from is noted before every call. -/
def Handle.observe (s : Handle) (now : Nat) : Handle :=
  { s with
    ledger := { s.ledger with
      seen := { s.ledger.seen with
        referenced := fun h => if 0 < references s.ledger.assets h then some now else s.ledger.seen.referenced h } } }

def Handle.step (s : Handle) (now : Nat) : Call → Handle
  | .put c pack => (s.observe now).put now c pack
  | .flush pack => (s.observe now).flush pack
  | .publish name hexes pack stamp => (s.observe now).publish stamp name hexes pack
  | .unpublish name stamp => (s.observe now).unpublish stamp name
  | .beginBatch => (s.observe now).beginBatch
  | .commitBatch pack => (s.observe now).commitBatch pack
  | .gc grace => (s.observe now).gc now grace
  | .reopen => (s.observe now).reopen

/-! ## The table -/
section Table
variable {chunks : Chunks} {assets : Assets} {hex h name : String} {hexes : List String} {stamp : String → Nat}

theorem foldl_update {f : String → ChunkInfo → ChunkInfo} (once : hexes.Nodup) :
    hexes.foldl (fun c hex => update c hex (f hex)) chunks h =
      if h ∈ hexes then (chunks h).map (f h) else chunks h := by
  induction hexes generalizing chunks with
  | nil => rfl
  | cons hex hexes ih =>
      obtain ⟨new, once⟩ := List.nodup_cons.mp once
      rw [List.foldl_cons, ih once, update]
      by_cases here : h = hex
      · subst here
        rw [if_neg new, if_pos rfl, if_pos (.head _)]
      · rw [if_neg here]
        simp only [List.mem_cons, here, false_or]

theorem decrement_apply (once : hexes.Nodup) :
    decrement stamp hexes chunks h = if h ∈ hexes then (chunks h).map (dereferenced (stamp h)) else chunks h :=
  foldl_update once

theorem increment_apply (once : hexes.Nodup) :
    increment hexes chunks h = if h ∈ hexes then (chunks h).map referenced else chunks h :=
  foldl_update once

theorem references_cons : references ((name, hexes) :: assets) h = references assets h + if h ∈ hexes then 1 else 0 := by
  rw [references, List.countP_cons]
  simp only [decide_eq_true_eq]
  rfl

theorem chunksOf_none (missing : chunksOf assets name = none) : without assets name = assets := by
  refine List.filter_eq_self.mpr fun a mem => ?_
  have differs := List.find?_eq_none.mp (Option.map_eq_none_iff.mp missing) a mem
  simpa using differs

theorem chunksOf_some {old : List String} (found : chunksOf assets name = some old)
    (names : (assets.map Prod.fst).Nodup) : (name, old) ∈ assets ∧
      references assets h = references (without assets name) h + if h ∈ old then 1 else 0 := by
  induction assets with
  | nil => exact absurd found (Option.some_ne_none _).symm
  | cons a assets ih =>
      obtain ⟨first, list⟩ := a
      obtain ⟨new, names⟩ := List.nodup_cons.mp names
      rw [chunksOf, List.find?_cons] at found
      by_cases here : first = name
      · subst here
        rw [decide_eq_true rfl] at found
        obtain rfl := Option.some.inj found
        have missing : chunksOf assets first = none := by
          refine Option.map_eq_none_iff.mpr (List.find?_eq_none.mpr fun b mem same => new ?_)
          exact List.mem_map.mpr ⟨b, mem, of_decide_eq_true same⟩
        have rest : without ((first, list) :: assets) first = assets := by
          rw [without, List.filter_cons_of_neg (by simp)]
          exact chunksOf_none missing
        exact ⟨.head _, by rw [rest]; exact references_cons⟩
      · rw [decide_eq_false here] at found
        obtain ⟨mem, counts⟩ := ih found names
        have rest : without ((first, list) :: assets) name = (first, list) :: without assets name :=
          List.filter_cons_of_pos (by simpa using here)
        refine ⟨.tail _ mem, ?_⟩
        rw [rest, references_cons, references_cons, counts]
        omega

theorem without_names (names : (assets.map Prod.fst).Nodup) : ((without assets name).map Prod.fst).Nodup :=
  names.sublist (List.Sublist.map _ List.filter_sublist)

theorem name_not_mem_without : name ∉ (without assets name).map Prod.fst := by
  intro mem
  obtain ⟨a, inside, same⟩ := List.mem_map.mp mem
  exact of_decide_eq_true (List.mem_filter.mp inside).2 same

theorem chunksOf_without : chunksOf (without assets name) name = none := by
  refine Option.map_eq_none_iff.mpr (List.find?_eq_none.mpr fun a mem same => ?_)
  exact of_decide_eq_true (List.mem_filter.mp mem).2 (of_decide_eq_true same)

end Table

/-! ## The table of the store's handle -/
section Store
variable {g : GlobalStore} {chunks : Chunks} {hex pack : String} {info : ChunkInfo}

/-- A handle whose ledger is one file has these chunks. -/
structure Shows (g : GlobalStore) (chunks : Chunks) : Prop where
  mono : g.seg = none
  get : ∀ h, g.index.chunks[h]? = chunks h

theorem Shows.chunkContains (shows : Shows g chunks) : g.chunkContains hex = (chunks hex).isSome := by
  rw [GlobalStore.chunkContains, shows.mono, ← shows.get, ExtTreeMap.isSome_getElem?_eq_contains]

theorem Shows.chunkInsert (shows : Shows g chunks) : Shows (g.chunkInsert hex info) (insert chunks hex info) := by
  rw [GlobalStore.chunkInsert, shows.mono]
  refine ⟨rfl, fun h => ?_⟩
  rw [getElem?_insert_eq, shows.get]
  rfl

theorem Shows.chunkUpdate (shows : Shows g chunks) (f : ChunkInfo → ChunkInfo) :
    Shows (g.chunkUpdate hex f) (update chunks hex f) := by
  rw [GlobalStore.chunkUpdate, shows.mono]
  dsimp only
  split
  · rename_i info found
    refine ⟨rfl, fun h => ?_⟩
    rw [getElem?_insert_eq, shows.get, update]
    split
    · rename_i here
      rw [here, ← shows.get, found]
      rfl
    · rfl
  · rename_i found
    refine ⟨shows.mono, fun h => ?_⟩
    rw [shows.get, update]
    split
    · rename_i here
      rw [here, ← shows.get, found]
      rfl
    · rfl

theorem Shows.chunkRemove (shows : Shows g chunks) :
    Shows (g.chunkRemove hex).2 fun h => if h = hex then none else chunks h := by
  rw [GlobalStore.chunkRemove, shows.mono]
  dsimp only
  split
  · refine ⟨rfl, fun h => ?_⟩
    rw [getElem?_erase_eq, shows.get]
  · rename_i found
    refine ⟨shows.mono, fun h => ?_⟩
    dsimp only
    split
    · rename_i here
      rw [here, found]
    · exact shows.get h

theorem Shows.resolveEntry (shows : Shows g chunks) (e : PackEntry) :
    Shows (resolveEntry pack g e) (resolve pack chunks e) := by
  rw [Cavs.resolveEntry, resolve, shows.chunkContains]
  split
  · exact shows.chunkUpdate _
  · exact shows.chunkInsert

/-- What a flush does to the handle once its pack is sealed. -/
theorem Shows.flush (shows : Shows g chunks) (entries : List PackEntry) :
    Shows (entries.foldl (Cavs.resolveEntry pack) g) (entries.foldl (resolve pack) chunks) := by
  induction entries generalizing g chunks with
  | nil => exact shows
  | cons e entries ih => exact ih (shows.resolveEntry e)

theorem Shows.increment (shows : Shows g chunks) (hexes : List String) :
    Shows (hexes.foldl (fun g hex => g.chunkUpdate hex referenced) g) (increment hexes chunks) := by
  induction hexes generalizing g chunks with
  | nil => exact shows
  | cons hex hexes ih => exact ih (shows.chunkUpdate referenced)

theorem decrement_congr {stamp stamp' : String → Nat} {hexes : List String} (same : ∀ h ∈ hexes, stamp h = stamp' h) :
    decrement stamp hexes chunks = decrement stamp' hexes chunks := by
  induction hexes generalizing chunks with
  | nil => rfl
  | cons hex hexes ih =>
      obtain ⟨here, same⟩ := List.forall_mem_cons.mp same
      simp only [decrement, List.foldl_cons, here]
      exact ih same

theorem Shows.decrement (shows : Shows g chunks) {hexes : List String} (once : hexes.Nodup) :
    (Cavs.decrement hexes g).Ends (fun _ => True) fun x => ∃ stamp, Shows x.2 (decrement stamp hexes chunks) := by
  induction hexes generalizing g chunks with
  | nil => exact ⟨fun _ => 0, shows⟩
  | cons hex hexes ih =>
      obtain ⟨new, once⟩ := List.nodup_cons.mp once
      refine ⟨trivial, fun now => ?_⟩
      refine (ih (shows.chunkUpdate (dereferenced (now / 10 ^ 9))) once).mono fun x ⟨stamp, shown⟩ => ?_
      refine ⟨fun h => if h = hex then now / 10 ^ 9 else stamp h, ?_⟩
      rw [Grace.decrement, List.foldl_cons, if_pos rfl]
      rwa [decrement_congr fun h mem => (if_neg fun here : h = hex => new (here ▸ mem)).symm] at shown

/-- What a collection drops, of the table and of the handle. -/
theorem Shows.gone (shows : Shows g chunks) {now grace : Nat} {h : String} :
    h ∈ (g.chunksIter.filter fun e => doomed now grace e.2).map Prod.fst ↔
      ∃ info, chunks h = some info ∧ doomed now grace info = true := by
  rw [GlobalStore.chunksIter, shows.mono]
  constructor
  · intro mem
    obtain ⟨⟨k, info⟩, inside, rfl⟩ := List.mem_map.mp mem
    obtain ⟨listed, dead⟩ := List.mem_filter.mp inside
    exact ⟨info, (shows.get k).symm.trans (ExtTreeMap.mem_toList_iff_getElem?_eq_some.mp listed), dead⟩
  · rintro ⟨info, there, dead⟩
    have listed := ExtTreeMap.mem_toList_iff_getElem?_eq_some.mpr ((shows.get h).trans there)
    exact List.mem_map.mpr ⟨(h, info), List.mem_filter.mpr ⟨listed, dead⟩, rfl⟩

theorem Shows.dropChunks (shows : Shows g chunks) (gone : List String) :
    (Cavs.dropChunks gone g).Ends (fun _ => True) fun x => Shows x.2 fun h => if h ∈ gone then none else chunks h := by
  induction gone generalizing g chunks with
  | nil => exact ⟨shows.mono, fun h => by simp [shows.get]⟩
  | cons hex rest ih =>
      have all : (fun h => if h ∈ rest then none else if h = hex then none else chunks h) =
          fun h => if h ∈ hex :: rest then none else chunks h := by
        funext h
        by_cases here : h = hex <;> simp [here]
      have shown := ih (@Shows.chunkRemove _ _ hex shows)
      rw [all] at shown
      have dropped : ∀ (f : List String × Nat → List String × Nat),
          ((do return f (← Cavs.dropChunks rest) : M GlobalStore (List String × Nat)) (g.chunkRemove hex).2).Ends
            (fun _ => True) fun x => Shows x.2 fun h => if h ∈ hex :: rest then none else chunks h := by
        intro f
        refine shown.bind ?_
        rintro ⟨e | r, k⟩ kept
        · exact kept
        · exact kept
      rcases removed : g.chunkRemove hex with ⟨_ | info, t⟩
      · rw [dropChunks_absent removed]
        rwa [removed] at shown
      rw [removed] at dropped
      cases packed : info.pack with
      | some pack =>
          rw [dropChunks_packed removed packed]
          exact dropped fun r => (pack :: r.1, r.2)
      | none =>
          rw [dropChunks_loose removed packed]
          exact ⟨trivial, fun _ => dropped fun r => (r.1, info.lenStored.toNat + r.2)⟩

/-- The collection of the store drops what the collection of the ledger drops. -/
theorem Shows.collection {s : Handle} (shows : Shows g s.ledger.chunks) (now grace : Nat) :
    (Cavs.dropChunks ((g.chunksIter.filter fun e => doomed now grace e.2).map Prod.fst) g).Ends (fun _ => True) fun x =>
      Shows x.2 (s.gc now grace).ledger.chunks := by
  have same : (fun h => if h ∈ (g.chunksIter.filter fun e => doomed now grace e.2).map Prod.fst then none
      else s.ledger.chunks h) = (s.gc now grace).ledger.chunks := by
    funext h
    simp only [shows.gone]
    cases there : s.ledger.chunks h with
    | none => simp [Handle.gc, Handle.save, Handle.setChunks, there]
    | some info =>
        cases dead : doomed now grace info <;>
          simp [Handle.gc, Handle.save, Handle.setChunks, there, dead, Option.filter]
  exact same ▸ shows.dropChunks _

end Store

end Cavs.Grace
