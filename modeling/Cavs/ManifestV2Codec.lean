import Cavs.FirstSeen
import Cavs.ManifestV2

/-!
# The binary manifest is read back

Each piece of a section is undone by its reader, whatever follows it.
-/
namespace Cavs.ManifestV2
open FileProg (Bytes)
open ByteScan
open Std (ExtTreeMap)
open FirstSeen (all_append all_cons getElem?_grown mem_add mem_all)
open List (length_append length_cons map_append map_cons map_id mem_append mem_cons mem_cons_of_mem
  mem_cons_self mem_map)

section Pieces
variable {α : Type} {p : Nat} {b : Bytes} {s : String}

theorem readVaruint_scans {n : Nat} (small : n < 2 ^ 64) : Scans readVaruint () p (writeVaruint n) n () :=
  Leb.read_scans small

theorem writeVaruint_pos (n : Nat) : 1 ≤ (writeVaruint n).length := Leb.bytes_length_pos 9 n

theorem takeNum_scans {w n : Nat} (small : n < 256 ^ w) : Scans (takeNum w) () p (le w n) n () :=
  Scans.num small

theorem takeHash_scans (h : ChunkHash) : Scans takeHash () p h.1 h () :=
  (Scans.take h.2).bind_pure (Scans.ofOption (hashOf_val h))

theorem takeVaru32_scans (what : String) (x : UInt32) :
    Scans (takeVaru32 what) () p (writeVaruint x.toNat) x () := by
  have small : x.toNat < 2 ^ 32 := x.toNat_lt
  refine (readVaruint_scans (by omega)).bind_pure ?_
  rw [if_pos small, UInt32.ofNat_toNat]
  exact .pure x

theorem takeVaru64_scans (x : UInt64) : Scans takeVaru64 () p (writeVaruint x.toNat) x () := by
  refine (readVaruint_scans x.toNat_lt).bind_pure ?_
  rw [UInt64.ofNat_toNat]
  exact .pure x

theorem putStr_ok (put : putStr s = .ok b) :
    (strBytes s).length ≤ maxStringLen ∧ b = writeVaruint (strBytes s).length ++ strBytes s := by
  simp only [putStr] at put
  split at put
  · cases put
  · cases put
    exact ⟨by omega, rfl⟩

theorem putStr_scans (put : putStr s = .ok b) : Scans takeStr () p b s () := by
  obtain ⟨short, rfl⟩ := putStr_ok put
  have limit : maxStringLen < 2 ^ 64 := by decide
  refine (readVaruint_scans (by omega)).bind ?_
  rw [if_neg (by omega)]
  exact (Scans.take rfl).bind_pure (Scans.ofOption (utf8_strBytes s))

theorem putStr_pos (put : putStr s = .ok b) : 1 ≤ b.length := by
  obtain ⟨-, rfl⟩ := putStr_ok put
  have := writeVaruint_pos (strBytes s).length
  rw [length_append]
  omega

theorem putOptStr_scans {s : Option String} (put : putOptStr s = .ok b) : Scans takeOptStr () p b s () := by
  cases s with
  | none =>
      cases put
      exact .bind_pure (takeNum_scans (w := 1) (n := 0) (by decide)) (.pure none)
  | some s =>
      obtain ⟨text, written, same⟩ := ok_of_bindE put
      cases same
      exact .bind (takeNum_scans (w := 1) (n := 1) (by decide)) ((putStr_scans written).bind_pure (.pure _))

variable {put : α → Except ManifestError Bytes} {row : ManifestScan α} {l : List α} {least : Nat}

theorem putEach_length (each : ∀ x ∈ l, ∀ b, put x = .ok b → least ≤ b.length) (all : putEach put l = .ok b) :
    l.length * least ≤ b.length := by
  induction l generalizing b with
  | nil => simp
  | cons x l ih =>
      obtain ⟨front, head, all⟩ := ok_of_bindE all
      obtain ⟨back, tail, same⟩ := ok_of_bindE all
      cases same
      have := each x mem_cons_self front head
      have := ih (fun y mem => each y (mem_cons_of_mem _ mem)) tail
      rw [length_append, length_cons, Nat.succ_mul]
      omega

theorem putEach_scans (all : putEach put l = .ok b)
    (item : ∀ x ∈ l, ∀ c, put x = .ok c → c.length ≤ b.length → ∀ p, Scans row () p c x ()) :
    Scans (Scan.collect l.length row) () p b l () := by
  induction l generalizing b p with
  | nil =>
      cases all
      exact .pure []
  | cons x l ih =>
      obtain ⟨front, head, all⟩ := ok_of_bindE all
      obtain ⟨back, tail, same⟩ := ok_of_bindE all
      cases same
      simp only [length_append] at item
      refine (item x mem_cons_self front head (by omega) p).bind ?_
      refine (ih tail fun y mem c written short => ?_).bind_pure (.pure _)
      exact item y (mem_cons_of_mem _ mem) c written (by omega)

/-- A list behind its length is read back, if its items take the room that the reader
asks of them. -/
theorem putMany_scans (all : putMany put l = .ok b) (short : b.length < 2 ^ 64) (some : 1 ≤ least)
    (room : ∀ x ∈ l, ∀ c, put x = .ok c → least ≤ c.length)
    (item : ∀ x ∈ l, ∀ c, put x = .ok c → c.length < 2 ^ 64 → ∀ p, Scans row () p c x ()) (what : String) :
    Scans (takeMany least what row) () p b l () := by
  obtain ⟨body, each, same⟩ := ok_of_bindE all
  cases same
  rw [length_append] at short
  have enough := putEach_length room each
  have count : l.length < 2 ^ 64 := by
    have := Nat.le_mul_of_pos_right l.length some
    omega
  refine (readVaruint_scans count).bind (.remaining fun left long => ?_)
  have fits : l.length ≤ left / least := by
    rw [Nat.le_div_iff_mul_le some]
    omega
  rw [if_neg (by omega)]
  refine putEach_scans each fun x mem c written inside => ?_
  exact item x mem c written (by omega)

theorem consume_ok {m : ManifestScan α} {x : α} {what : String} (scans : Scans m () 0 b x ()) :
    consume what m b = .ok x := by
  rw [consume, scans.whole]
  rfl

end Pieces

section AssetInfo
variable {b : Bytes} {pair : String × String}

theorem putMeta_scans (put : putMeta pair = .ok b) (p : Nat) :
    Scans takeMeta () p b pair () := by
  obtain ⟨key, first, put⟩ := ok_of_bindE put
  obtain ⟨value, second, same⟩ := ok_of_bindE put
  cases same
  exact (putStr_scans first).bind ((putStr_scans second).bind_pure (.pure _))

theorem putMeta_room (put : putMeta pair = .ok b) : 2 ≤ b.length := by
  obtain ⟨key, first, put⟩ := ok_of_bindE put
  obtain ⟨value, second, same⟩ := ok_of_bindE put
  cases same
  have := putStr_pos first
  have := putStr_pos second
  rw [length_append]
  omega

/-- What the asset section says of a manifest. -/
def assetPart (manifest : Manifest) : Manifest :=
  { manifest with tracks := [], segments := [], dict := [], chunkTable := [] }

theorem decodeAssetInfo_encode {manifest : Manifest} (encoded : encodeAssetInfo manifest = .ok b)
    (short : b.length < 2 ^ 64) : decodeAssetInfo b = .ok (assetPart manifest) := by
  obtain ⟨asset, hasset, encoded⟩ := ok_of_bindE encoded
  obtain ⟨uuid, huuid, encoded⟩ := ok_of_bindE encoded
  obtain ⟨root, hroot, encoded⟩ := ok_of_bindE encoded
  obtain ⟨signature, hsignature, encoded⟩ := ok_of_bindE encoded
  obtain ⟨signer, hsigner, encoded⟩ := ok_of_bindE encoded
  obtain ⟨pairs, hpairs, same⟩ := ok_of_bindE encoded
  cases same
  simp only [length_append] at short
  apply consume_ok
  refine (putStr_scans hasset).bind ((putStr_scans huuid).bind ((putStr_scans hroot).bind ?_))
  refine (putOptStr_scans hsignature).bind ((putOptStr_scans hsigner).bind ?_)
  refine (putMany_scans hpairs (by omega) (by decide) ?_ ?_ "meta count").bind_pure (.pure _)
  · exact fun pair _ c put => putMeta_room put
  · exact fun pair _ c put _ p => putMeta_scans put p

end AssetInfo

section Dictionary
variable {dict dict' : Dictionary} {hash : ChunkHash} {hex : String} {len : Option UInt32}

/-- Every hash is found at its place. -/
structure Dictionary.Indexed (dict : Dictionary) : Prop where
  lens_length : dict.lens.length = dict.hashes.length
  at_index : ∀ h index, dict.indexOf.lookup h = some index → dict.hashes[index.toNat]? = some h
  has_index : ∀ h ∈ dict.hashes, ∃ index, dict.indexOf.lookup h = some index
  nodup : dict.hashes.Nodup

theorem Dictionary.indexed_empty : Dictionary.empty.Indexed where
  lens_length := rfl
  at_index _ _ found := by cases found
  has_index _ mem := by cases mem
  nodup := List.nodup_nil

theorem Dictionary.place_length (dict : Dictionary) (hash : ChunkHash) :
    dict.hashes.length ≤ (dict.place hash).2.hashes.length := by
  unfold Dictionary.place
  split <;> simp

/-- A place is given to a new hash only; it is the hash's own, and the places before keep
what they had. -/
theorem Dictionary.Indexed.place (good : dict.Indexed) (few : (dict.place hash).2.hashes.length ≤ 2 ^ 32) :
    (dict.place hash).2.Indexed ∧ (dict.place hash).2.hashes = FirstSeen.add dict.hashes hash ∧
      (dict.place hash).2.hashes[(dict.place hash).1.toNat]? = some hash ∧ dict.lens <+: (dict.place hash).2.lens := by
  unfold Dictionary.place at few ⊢
  cases found : dict.indexOf.lookup hash with
  | some index =>
      have there := good.at_index hash index found
      refine ⟨good, ?_, there, List.prefix_rfl⟩
      rw [FirstSeen.add, if_pos (List.mem_of_getElem? there)]
  | none =>
      have fresh : hash ∉ dict.hashes := by
        intro known
        obtain ⟨index, other⟩ := good.has_index hash known
        rw [found] at other
        cases other
      simp only [found, length_append, List.length_singleton] at few
      have index : (UInt32.ofNat dict.hashes.length).toNat = dict.hashes.length := by
        rw [UInt32.toNat_ofNat']
        omega
      have there : (dict.hashes ++ [hash])[(UInt32.ofNat dict.hashes.length).toNat]? = some hash := by
        rw [index, List.getElem?_concat_length]
      refine ⟨⟨?_, ?_, ?_, ?_⟩, ?_, there, List.prefix_append _ _⟩
      · simp [good.lens_length]
      · intro h i known
        by_cases same : h = hash
        · subst same
          rw [List.lookup_cons_self, Option.some.injEq] at known
          rw [← known]
          exact there
        · rw [List.lookup_cons, beq_eq_false_iff_ne.mpr same] at known
          exact getElem?_grown (List.prefix_append _ _) (good.at_index h i known)
      · intro h mem
        by_cases same : h = hash
        · exact ⟨UInt32.ofNat dict.hashes.length, by rw [same, List.lookup_cons_self]⟩
        · rw [List.lookup_cons, beq_eq_false_iff_ne.mpr same]
          refine good.has_index h ?_
          simpa [same] using mem
      · have nodup := FirstSeen.add_nodup (a := hash) good.nodup
        rwa [FirstSeen.add, if_neg fresh] at nodup
      · rw [FirstSeen.add, if_neg fresh]

theorem Dictionary.intern_ok (ok : dict.intern hex len = .ok dict') :
    ∃ hash, fromHex hex = some hash ∧ dict'.hashes = (dict.place hash).2.hashes ∧
      dict'.indexOf = (dict.place hash).2.indexOf ∧ dict'.chunkTableCount = (dict.place hash).2.chunkTableCount ∧
      dict'.lens = match len with
        | some n => (dict.place hash).2.lens.set (dict.place hash).1.toNat n
        | none => (dict.place hash).2.lens := by
  unfold Dictionary.intern at ok
  cases named : fromHex hex with
  | none =>
      rw [named] at ok
      cases ok
  | some hash =>
      rw [named] at ok
      refine ⟨hash, rfl, ?_⟩
      cases len <;> cases ok <;> exact ⟨rfl, rfl, rfl, rfl⟩

theorem Dictionary.place_count (dict : Dictionary) (hash : ChunkHash) :
    (dict.place hash).2.chunkTableCount = dict.chunkTableCount := by
  unfold Dictionary.place
  split <;> rfl

variable {lenOf : ChunkHash → UInt32} {known : List ChunkHash}

/-- The hashes of `known` have their lengths in the dictionary. -/
def Dictionary.Carries (dict : Dictionary) (lenOf : ChunkHash → UInt32) (known : List ChunkHash) : Prop :=
  ∀ h ∈ known, ∀ i : Nat, dict.hashes[i]? = some h → dict.lens[i]? = some (lenOf h)

/-- The hash of an interned item, if it comes with a length. -/
def sizedHash (item : String × Option UInt32) : Option ChunkHash := item.2.bind fun _ => fromHex item.1

/-- One item: the dictionary stays indexed, has the item's hash, and its length from then on. -/
theorem Dictionary.Indexed.intern (good : dict.Indexed) (ok : dict.intern hex len = .ok dict')
    (few : dict'.hashes.length ≤ 2 ^ 32) (known_lt : ∀ h ∈ known, h ∈ dict.hashes)
    (lens : ∀ n ∈ len, ∀ h ∈ fromHex hex, n = lenOf h) (carries : dict.Carries lenOf known) :
    ∃ hash, fromHex hex = some hash ∧ dict'.Indexed ∧ dict'.hashes = FirstSeen.add dict.hashes hash ∧
      dict'.chunkTableCount = dict.chunkTableCount ∧
      dict'.Carries lenOf (known ++ (sizedHash (hex, len)).toList) := by
  obtain ⟨hash, named, hashes, indexOf, count, hlens⟩ := intern_ok ok
  rw [hashes] at few
  obtain ⟨placed, grown, there, kept⟩ := good.place few
  have width : dict'.lens.length = (dict.place hash).2.lens.length := by
    rw [hlens]
    cases len <;> simp
  have good' : dict'.Indexed := by
    refine ⟨?_, ?_, ?_, ?_⟩
    · rw [width, hashes, placed.lens_length]
    · rw [indexOf, hashes]
      exact placed.at_index
    · rw [indexOf, hashes]
      exact placed.has_index
    · rw [hashes]
      exact placed.nodup
  refine ⟨hash, named, good', hashes.trans grown, count.trans (place_count dict hash), ?_⟩
  have unique : ∀ i, dict'.hashes[i]? = some hash → i = (dict.place hash).1.toNat := by
    intro i here
    rw [← hashes] at there
    obtain ⟨inside, -⟩ := List.getElem?_eq_some_iff.mp here
    exact (List.getElem?_inj inside good'.nodup).mp (here.trans there.symm)
  have before : ∀ h ∈ known, ∀ i : Nat, dict'.hashes[i]? = some h →
      (dict.place hash).2.lens[i]? = some (lenOf h) := by
    intro h mem i here
    obtain ⟨j, old⟩ := List.mem_iff_getElem?.mp (known_lt h mem)
    have same : dict'.hashes[j]? = some h := by
      rw [hashes, grown]
      exact getElem?_grown (FirstSeen.prefix_add dict.hashes hash) old
    obtain ⟨inside', -⟩ := List.getElem?_eq_some_iff.mp same
    have place : j = i := (List.getElem?_inj inside' good'.nodup).mp (same.trans here.symm)
    subst place
    exact getElem?_grown kept (carries h mem j old)
  intro h mem i here
  cases len with
  | none =>
      rw [hlens]
      refine before h ?_ i here
      simpa [sizedHash] using mem
  | some n =>
      have size : n = lenOf hash := lens n rfl hash named
      rw [hlens]
      by_cases same : h = hash
      · subst same
        rw [unique i here, List.getElem?_set_self, size]
        rw [← unique i here, placed.lens_length, ← hashes]
        exact (List.getElem?_eq_some_iff.mp here).1
      · have apart : (dict.place hash).1.toNat ≠ i := by
          intro eq
          rw [← eq, hashes, there] at here
          exact same (Option.some.inj here).symm
        rw [List.getElem?_set_ne apart]
        refine before h ?_ i here
        simpa [sizedHash, named, same] using mem

variable {items : List (String × Option UInt32)}

theorem Dictionary.internAll_width (ok : dict.internAll items = .ok dict') (same : dict.lens.length = dict.hashes.length) :
    dict'.lens.length = dict'.hashes.length := by
  induction items generalizing dict with
  | nil =>
      cases ok
      exact same
  | cons item items ih =>
      obtain ⟨next, first, later⟩ := ok_of_bindE ok
      obtain ⟨hash, -, hashes, -, -, lens⟩ := intern_ok first
      have placed : (dict.place hash).2.lens.length = (dict.place hash).2.hashes.length := by
        unfold Dictionary.place
        split <;> simp [same]
      refine ih later ?_
      rw [lens, hashes]
      split <;> simp [placed]

theorem Dictionary.internAll_length (ok : dict.internAll items = .ok dict') :
    dict.hashes.length ≤ dict'.hashes.length := by
  induction items generalizing dict with
  | nil =>
      cases ok
      exact le_rfl
  | cons item items ih =>
      obtain ⟨next, first, later⟩ := ok_of_bindE ok
      obtain ⟨hash, -, hashes, -⟩ := intern_ok first
      have := ih later
      have := dict.place_length hash
      rw [← hashes] at this
      omega

/-- All items: the dictionary's hashes are those it had and the items', as they are first seen. -/
theorem Dictionary.Indexed.internAll (good : dict.Indexed) (ok : dict.internAll items = .ok dict')
    (few : dict'.hashes.length ≤ 2 ^ 32) (known_lt : ∀ h ∈ known, h ∈ dict.hashes)
    (lens : ∀ item ∈ items, ∀ n ∈ item.2, ∀ h ∈ fromHex item.1, n = lenOf h)
    (carries : dict.Carries lenOf known) :
    dict'.Indexed ∧ dict'.hashes = FirstSeen.all dict.hashes (items.filterMap fun item => fromHex item.1) ∧
      dict'.chunkTableCount = dict.chunkTableCount ∧
      dict'.Carries lenOf (known ++ items.filterMap sizedHash) := by
  induction items generalizing dict known with
  | nil =>
      cases ok
      exact ⟨good, rfl, rfl, by simpa using carries⟩
  | cons item items ih =>
      obtain ⟨hex, len⟩ := item
      obtain ⟨next, first, later⟩ := ok_of_bindE ok
      have := internAll_length later
      obtain ⟨hash, named, good', hashes, count, carries'⟩ :=
        good.intern first (by omega) known_lt (lens (hex, len) mem_cons_self) carries
      have sized : ∀ h ∈ known ++ (sizedHash (hex, len)).toList, h ∈ next.hashes := by
        intro h mem
        rw [hashes, mem_add]
        rcases mem_append.mp mem with old | new
        · exact .inl (known_lt h old)
        · obtain ⟨n, -, read⟩ := Option.bind_eq_some_iff.mp (Option.mem_toList.mp new)
          exact .inr (Option.some.inj (read.symm.trans named))
      obtain ⟨good'', hashes', count', carries''⟩ := ih good' later sized
        (fun item mem => lens item (mem_cons_of_mem _ mem)) carries'
      refine ⟨good'', ?_, count'.trans count, ?_⟩
      · rw [hashes', hashes, List.filterMap_cons]
        simp only [named, all_cons]
      · cases sized' : sizedHash (hex, len) with
        | none =>
          rw [sized', Option.toList_none, List.append_nil] at carries''
          rw [List.filterMap_cons_none sized']
          exact carries''
        | some h =>
          rw [sized', Option.toList_some, List.append_assoc, List.singleton_append] at carries''
          rw [List.filterMap_cons_some sized']
          exact carries''

end Dictionary

section Build
variable {manifest : Manifest} {dict : Dictionary} {c : ChunkRef}

/-- The references of a manifest. -/
def manifestRefs (manifest : Manifest) : List ChunkRef :=
  manifest.tracks.flatMap ManifestTrack.initChunks ++ manifest.segments.flatMap ManifestSegment.chunks

/-- Every hash a manifest names: its chunk table, its references and its pins. -/
def manifestHexes (manifest : Manifest) : List String :=
  manifest.chunkTable ++ ((manifestRefs manifest).map ChunkRef.hash ++ manifest.dict)

/-- What the manifests of the runtime satisfy: hashes in lower-case hex, a chunk table
without repeats, and one length for each hash. -/
structure Regular (manifest : Manifest) : Prop where
  hex : ∀ s ∈ manifestHexes manifest, IsHex s
  table : manifest.chunkTable.Nodup
  lens : ∀ c ∈ manifestRefs manifest, ∀ c' ∈ manifestRefs manifest, c.hash = c'.hash → c.len = c'.len

theorem fromHex_isHex {s : String} (hex : IsHex s) : fromHex s = some (hexHash s) := by
  obtain ⟨h, rfl⟩ := hex
  rw [fromHex_toHex, hexHash_toHex]

theorem hexHash_inj {s t : String} (hex : IsHex s) (hex' : IsHex t) (same : hexHash s = hexHash t) : s = t := by
  rw [← toHex_hexHash hex, same, toHex_hexHash hex']

/-- The length that goes with a hash. -/
def lenIn (refs : List ChunkRef) (h : ChunkHash) : UInt32 :=
  ((refs.find? fun c => hexHash c.hash = h).map ChunkRef.len).getD 0

theorem Regular.refs (regular : Regular manifest) (mem : c ∈ manifestRefs manifest) : IsHex c.hash := by
  refine regular.hex c.hash ?_
  simp only [manifestHexes, mem_append, mem_map]
  exact .inr (.inl ⟨c, mem, rfl⟩)

theorem Regular.lenIn (regular : Regular manifest) (mem : c ∈ manifestRefs manifest) :
    lenIn (manifestRefs manifest) (hexHash c.hash) = c.len := by
  cases found : (manifestRefs manifest).find? fun c' => hexHash c'.hash = hexHash c.hash with
  | none =>
      have absent := List.find?_eq_none.mp found c mem
      simp at absent
  | some c' =>
      have same := List.find?_some found
      have mem' := List.mem_of_find?_eq_some found
      rw [ManifestV2.lenIn, found]
      refine regular.lens c' mem' c mem ?_
      exact hexHash_inj (regular.refs mem') (regular.refs mem) (by simpa using same)

theorem interned_map {α : Type} {l : List α} {item : α → String × Option UInt32}
    (hex : ∀ x ∈ l, IsHex (item x).1) :
    (l.map item).filterMap (fun x => fromHex x.1) = l.map fun x => hexHash (item x).1 := by
  induction l with
  | nil => rfl
  | cons x l ih =>
      have tail := ih fun y mem => hex y (mem_cons_of_mem _ mem)
      simp only [map_cons, List.filterMap_cons, fromHex_isHex (hex x mem_cons_self), tail]

theorem sizedHash_unsized (l : List String) : (l.map unsized).filterMap sizedHash = [] := by
  simp [List.filterMap_map, sizedHash, unsized, Function.comp_def]

theorem sizedHash_sized {refs : List ChunkRef} (hex : ∀ c ∈ refs, IsHex c.hash) :
    (refs.map sized).filterMap sizedHash = refs.map fun c => hexHash c.hash := by
  have named := @interned_map ChunkRef refs sized hex
  simp only [List.filterMap_map] at named ⊢
  exact named

/-- The hashes of a built dictionary are the chunk table and then what else the manifest
names, and every reference's length is there. -/
theorem Dictionary.build_parts (built : Dictionary.build manifest = .ok dict) (few : dict.hashes.length ≤ 2 ^ 32)
    (regular : Regular manifest) : dict.Indexed ∧ dict.chunkTableCount = manifest.chunkTable.length ∧
      dict.hashes = FirstSeen.all (manifest.chunkTable.map hexHash)
        (((manifestRefs manifest).map fun c => hexHash c.hash) ++ manifest.dict.map hexHash) ∧
      dict.Carries (lenIn (manifestRefs manifest)) ((manifestRefs manifest).map fun c => hexHash c.hash) := by
  obtain ⟨table, htable, built⟩ := ok_of_bindE built
  obtain ⟨inits, hinits, built⟩ := ok_of_bindE built
  obtain ⟨chunks, hchunks, hpins⟩ := ok_of_bindE built
  have below := internAll_length hpins
  have below' := internAll_length hchunks
  have below'' := internAll_length hinits
  dsimp only at below''
  have hexTable : ∀ s ∈ manifest.chunkTable, IsHex s := fun s mem => regular.hex s (by simp [manifestHexes, mem])
  have hexPins : ∀ s ∈ manifest.dict, IsHex s := fun s mem => regular.hex s (by simp [manifestHexes, mem])
  have hexInits : ∀ c ∈ manifest.tracks.flatMap ManifestTrack.initChunks, IsHex c.hash :=
    fun c mem => regular.refs (List.mem_append_left _ mem)
  have hexChunks : ∀ c ∈ manifest.segments.flatMap ManifestSegment.chunks, IsHex c.hash :=
    fun c mem => regular.refs (List.mem_append_right _ mem)
  have lenOf : ∀ refs ⊆ manifestRefs manifest, ∀ item ∈ refs.map sized, ∀ n ∈ item.2, ∀ h ∈ fromHex item.1,
      n = lenIn (manifestRefs manifest) h := by
    intro refs sub item mem n size h named
    obtain ⟨c, inside, rfl⟩ := mem_map.mp mem
    rw [sized, fromHex_isHex (regular.refs (sub inside)), Option.mem_some_iff] at named
    rw [← named, regular.lenIn (sub inside)]
    exact (Option.mem_some_iff.mp size).symm
  have none_sized : ∀ l : List String, ∀ item ∈ l.map unsized, ∀ n ∈ item.2, ∀ h ∈ fromHex item.1,
      n = lenIn (manifestRefs manifest) h := by
    intro l item mem n size
    obtain ⟨s, -, rfl⟩ := mem_map.mp mem
    cases size
  rw [← List.map_flatMap] at hinits hchunks
  -- The table, then the references with their lengths, then the pins.
  have none_known : Dictionary.empty.Carries (lenIn (manifestRefs manifest)) [] := fun h mem => by cases mem
  obtain ⟨good, hashes, -, -⟩ := indexed_empty.internAll htable (by omega) (fun h mem => by cases mem)
    (none_sized manifest.chunkTable) none_known
  rw [interned_map hexTable] at hashes
  have nodup : (manifest.chunkTable.map hexHash).Nodup :=
    List.Nodup.map_on (fun s mem t mem' same => hexHash_inj (hexTable s mem) (hexTable t mem') same) regular.table
  have start : table.hashes = manifest.chunkTable.map hexHash := by
    rw [hashes]
    exact FirstSeen.all_fresh (l := []) nodup
  have carries : ({ table with chunkTableCount := table.hashes.length } : Dictionary).Carries
      (lenIn (manifestRefs manifest)) [] := fun h mem => by cases mem
  have good' : ({ table with chunkTableCount := table.hashes.length } : Dictionary).Indexed :=
    ⟨good.lens_length, good.at_index, good.has_index, good.nodup⟩
  obtain ⟨goodA, hashesA, countA, carriesA⟩ := good'.internAll hinits (by omega) (fun h mem => by cases mem)
    (lenOf _ (List.subset_append_left _ _)) carries
  rw [interned_map hexInits] at hashesA
  rw [sizedHash_sized hexInits, List.nil_append] at carriesA
  obtain ⟨goodB, hashesB, countB, carriesB⟩ := goodA.internAll hchunks (by omega)
    (fun h mem => by rw [hashesA, mem_all]; exact .inr mem)
    (lenOf _ (List.subset_append_right _ _)) carriesA
  rw [interned_map hexChunks] at hashesB
  rw [sizedHash_sized hexChunks, ← map_append] at carriesB
  obtain ⟨goodC, hashesC, countC, carriesC⟩ := goodB.internAll hpins few
    (fun h mem => by
      rw [hashesB, hashesA, mem_all, mem_all]
      simp only [map_append, mem_append] at mem
      tauto)
    (none_sized manifest.dict) carriesB
  rw [interned_map hexPins] at hashesC
  rw [sizedHash_unsized, List.append_nil] at carriesC
  refine ⟨goodC, ?_, ?_, carriesC⟩
  · rw [countC, countB, countA]
    simp [start]
  · rw [hashesC, hashesB, hashesA, manifestRefs, map_append, all_append, all_append]
    simp only [start]
    rfl

theorem Dictionary.build_width (built : Dictionary.build manifest = .ok dict) : dict.lens.length = dict.hashes.length := by
  obtain ⟨table, htable, built⟩ := ok_of_bindE built
  obtain ⟨inits, hinits, built⟩ := ok_of_bindE built
  obtain ⟨chunks, hchunks, hpins⟩ := ok_of_bindE built
  have first := internAll_width htable rfl
  exact internAll_width hpins (internAll_width hchunks (internAll_width hinits first))

/-- What the dictionary of a regular manifest is. -/
structure Dictionary.Of (dict : Dictionary) (manifest : Manifest) : Prop where
  indexed : dict.Indexed
  table : (dict.hashes.map toHex).take dict.chunkTableCount = manifest.chunkTable
  count : dict.chunkTableCount ≤ dict.hashes.length
  names : ∀ s, s ∈ dict.hashes.map toHex ↔ s ∈ manifestHexes manifest
  lens : ∀ c ∈ manifestRefs manifest, ∀ i : Nat, dict.hashes[i]? = some (hexHash c.hash) → dict.lens[i]? = some c.len

theorem map_toHex_hexHash {l : List String} (hex : ∀ s ∈ l, IsHex s) : (l.map hexHash).map toHex = l := by
  induction l with
  | nil => rfl
  | cons s l ih =>
      rw [map_cons, map_cons, toHex_hexHash (hex s mem_cons_self),
        ih fun t mem => hex t (mem_cons_of_mem _ mem)]

theorem Dictionary.build_of (built : Dictionary.build manifest = .ok dict) (few : dict.hashes.length ≤ 2 ^ 32)
    (regular : Regular manifest) : dict.Of manifest := by
  obtain ⟨indexed, count, hashes, carries⟩ := build_parts built few regular
  have hexTable : ∀ s ∈ manifest.chunkTable, IsHex s := fun s mem => regular.hex s (by simp [manifestHexes, mem])
  have grown := FirstSeen.prefix_all (manifest.chunkTable.map hexHash)
    (((manifestRefs manifest).map fun c => hexHash c.hash) ++ manifest.dict.map hexHash)
  rw [← hashes] at grown
  have members : ∀ h, h ∈ dict.hashes ↔ h ∈ (manifestHexes manifest).map hexHash := by
    intro h
    simp only [hashes, mem_all, manifestHexes, map_append, List.map_map, mem_append,
      Function.comp_def]
  refine ⟨indexed, ?_, ?_, ?_, ?_⟩
  · obtain ⟨more, eq⟩ := grown
    rw [← eq, count, map_append, map_toHex_hexHash hexTable, List.take_left]
  · have := grown.length_le
    rwa [List.length_map, ← count] at this
  · intro s
    rw [← map_toHex_hexHash regular.hex, mem_map, mem_map]
    simp only [members]
  · intro c mem i here
    rw [carries (hexHash c.hash) (List.mem_map_of_mem mem) i here, regular.lenIn mem]

end Build

section Sections
variable {manifest : Manifest} {dict : Dictionary} {b : Bytes} {p : Nat} {s : String} {track : ManifestTrack}
  {segment : ManifestSegment}

/-- The names and the lengths a decoder has of a dictionary. -/
def Dictionary.names (dict : Dictionary) : List String := dict.hashes.map toHex

theorem takeDictRow_scans (row : ChunkHash × UInt32) (p : Nat) : Scans takeDictRow () p (dictionaryRow row) row () :=
  (takeHash_scans row.1).bind ((takeVaru32_scans "chunk length" row.2).bind_pure (.pure _))

theorem dictionaryRow_room (row : ChunkHash × UInt32) : 33 ≤ (dictionaryRow row).length := by
  have := writeVaruint_pos row.2.toNat
  rw [dictionaryRow, length_append, row.1.2]
  omega

theorem encodeDictionary_room (same : dict.lens.length = dict.hashes.length) :
    dict.hashes.length * 33 ≤ (encodeDictionary dict).length := by
  have room := length_flatMap_ge (l := dict.hashes.zip dict.lens) fun row _ => dictionaryRow_room row
  rw [List.length_zip, same, Nat.min_self] at room
  simp only [encodeDictionary, length_append]
  omega

theorem decodeDictionary_encode (of : dict.Of manifest) (short : (encodeDictionary dict).length < 2 ^ 64) :
    decodeDictionary (encodeDictionary dict) = .ok (dict.hashes.zip dict.lens, dict.chunkTableCount) := by
  have width : (dict.hashes.zip dict.lens).length = dict.hashes.length := by
    rw [List.length_zip, of.indexed.lens_length, Nat.min_self]
  have room := length_flatMap_ge (l := dict.hashes.zip dict.lens) fun row _ => dictionaryRow_room row
  rw [width] at room
  simp only [encodeDictionary, length_append] at short
  have few : dict.hashes.length < 2 ^ 64 := by omega
  have count := of.count
  apply consume_ok
  refine (readVaruint_scans few).bind ((readVaruint_scans (by omega)).bind ?_)
  rw [if_neg (by omega)]
  refine .remaining fun left long => ?_
  have fits : dict.hashes.length ≤ left / 33 := by
    rw [Nat.le_div_iff_mul_le (by decide)]
    omega
  rw [if_neg (by omega)]
  have rows := Scans.collect (s := ()) dictionaryRow id (dict.hashes.zip dict.lens) fun row _ p => takeDictRow_scans row p
  rw [map_id, width] at rows
  exact (rows _).bind_pure (.pure _)

theorem Dictionary.index_ok {index : UInt32} (ok : dict.index s = .ok index) :
    ∃ h, fromHex s = some h ∧ dict.indexOf.lookup h = some index := by
  unfold Dictionary.index at ok
  cases named : fromHex s with
  | none =>
      rw [named] at ok
      cases ok
  | some h =>
      rw [named] at ok
      refine ⟨h, rfl, ?_⟩
      cases found : dict.indexOf.lookup h with
      | none =>
          simp only [found] at ok
          cases ok
      | some i =>
          simp only [found] at ok
          cases ok
          rfl

/-- An index stands for the hash at its place. -/
theorem putIndex_ok (of : dict.Of manifest) (hex : IsHex s) (put : putIndex dict s = .ok b) :
    ∃ index : UInt32, b = writeVaruint index.toNat ∧ dict.hashes[index.toNat]? = some (hexHash s) ∧
      dict.names[index.toNat]? = some s := by
  obtain ⟨index, found, same⟩ := ok_of_bindE put
  cases same
  obtain ⟨h, named, place⟩ := Dictionary.index_ok found
  rw [fromHex_isHex hex, Option.some.injEq] at named
  subst named
  have here := of.indexed.at_index _ index place
  refine ⟨index, rfl, here, ?_⟩
  rw [Dictionary.names, List.getElem?_map, here, Option.map_some, toHex_hexHash hex]

theorem takeHex_scans (of : dict.Of manifest) (hex : IsHex s) (put : putIndex dict s = .ok b) (p : Nat) :
    Scans (takeHex dict.names) () p b s () := by
  obtain ⟨index, rfl, -, name⟩ := putIndex_ok of hex put
  have := index.toNat_lt
  exact (readVaruint_scans (by omega)).bind_pure (.ofOption name)

theorem putIndex_pos (put : putIndex dict s = .ok b) : 1 ≤ b.length := by
  obtain ⟨index, -, same⟩ := ok_of_bindE put
  cases same
  exact writeVaruint_pos _

theorem takeRef_scans (of : dict.Of manifest) (regular : Regular manifest) {c : ChunkRef} (mem : c ∈ manifestRefs manifest)
    (put : putIndex dict c.hash = .ok b) (p : Nat) : Scans (takeRef dict.names dict.lens) () p b c () := by
  obtain ⟨index, rfl, place, name⟩ := putIndex_ok of (regular.refs mem) put
  have := index.toNat_lt
  have len := of.lens c mem index.toNat place
  refine (readVaruint_scans (by omega)).bind_pure (.pure_bind (.ofOption name) ?_)
  rw [List.getD_eq_getElem?_getD, len]
  exact .pure c

theorem takeRefs_scans (of : dict.Of manifest) (regular : Regular manifest) {refs : List ChunkRef}
    (sub : refs ⊆ manifestRefs manifest) (put : putMany (fun c => putIndex dict c.hash) refs = .ok b)
    (short : b.length < 2 ^ 64) (p : Nat) : Scans (takeRefs dict.names dict.lens) () p b refs () :=
  putMany_scans put short le_rfl (fun _ _ _ written => putIndex_pos written)
    (fun _ mem _ written _ p => takeRef_scans of regular (sub mem) written p) "chunk ref count"

theorem takeTrack_scans (of : dict.Of manifest) (regular : Regular manifest) (mem : track ∈ manifest.tracks)
    (put : putTrack dict track = .ok b) (short : b.length < 2 ^ 64) (p : Nat) :
    Scans (takeTrack dict.names dict.lens) () p b track () := by
  obtain ⟨kind, hkind, put⟩ := ok_of_bindE put
  obtain ⟨codec, hcodec, put⟩ := ok_of_bindE put
  obtain ⟨name, hname, put⟩ := ok_of_bindE put
  obtain ⟨inits, hinits, same⟩ := ok_of_bindE put
  cases same
  simp only [length_append] at short
  have sub : track.initChunks ⊆ manifestRefs manifest := by
    intro c inside
    exact List.mem_append_left _ (List.mem_flatMap.mpr ⟨track, mem, inside⟩)
  refine (takeVaru32_scans "track id" track.trackId).bind ((putStr_scans hkind).bind ((putStr_scans hcodec).bind ?_))
  refine (putStr_scans hname).bind ((takeVaru32_scans "timescale" track.timescale).bind ?_)
  exact (takeRefs_scans of regular sub hinits (by omega) _).bind_pure (.pure _)

theorem putTrack_room (put : putTrack dict track = .ok b) : 4 ≤ b.length := by
  obtain ⟨kind, hkind, put⟩ := ok_of_bindE put
  obtain ⟨codec, hcodec, put⟩ := ok_of_bindE put
  obtain ⟨name, hname, put⟩ := ok_of_bindE put
  obtain ⟨inits, -, same⟩ := ok_of_bindE put
  cases same
  have := putStr_pos hkind
  have := putStr_pos hcodec
  have := putStr_pos hname
  have := writeVaruint_pos track.trackId.toNat
  simp only [length_append]
  omega

theorem takeFlag_scans (flag : Bool) (p : Nat) : Scans takeFlag () p [if flag then 1 else 0] flag () := by
  cases flag with
  | false => exact .bind_pure (takeNum_scans (w := 1) (n := 0) (by decide)) (.pure false)
  | true => exact .bind_pure (takeNum_scans (w := 1) (n := 1) (by decide)) (.pure true)

theorem takeSegment_scans (of : dict.Of manifest) (regular : Regular manifest)
    (mem : segment ∈ manifest.segments) (put : putSegment dict segment = .ok b) (short : b.length < 2 ^ 64)
    (p : Nat) :
    Scans (takeSegment dict.names dict.lens) () p b segment () := by
  obtain ⟨chunks, hchunks, same⟩ := ok_of_bindE put
  cases same
  simp only [length_append] at short
  have sub : segment.chunks ⊆ manifestRefs manifest := by
    intro c inside
    exact List.mem_append_right _ (List.mem_flatMap.mpr ⟨segment, mem, inside⟩)
  refine (takeVaru64_scans segment.segmentId).bind ((takeVaru32_scans "track id" segment.trackId).bind ?_)
  refine (takeVaru64_scans segment.ptsStart).bind ((takeVaru32_scans "duration" segment.duration).bind ?_)
  refine (takeFlag_scans segment.randomAccess _).bind ?_
  exact (takeRefs_scans of regular sub hchunks (by omega) _).bind_pure (.pure _)

theorem putSegment_room (put : putSegment dict segment = .ok b) : 4 ≤ b.length := by
  obtain ⟨chunks, -, same⟩ := ok_of_bindE put
  cases same
  have := writeVaruint_pos segment.segmentId.toNat
  have := writeVaruint_pos segment.trackId.toNat
  have := writeVaruint_pos segment.ptsStart.toNat
  have := writeVaruint_pos segment.duration.toNat
  simp only [length_append]
  omega

theorem decodeChunkPlan_encode (of : dict.Of manifest) (regular : Regular manifest)
    (encoded : encodeChunkPlan dict manifest = .ok b) (short : b.length < 2 ^ 64) :
    decodeChunkPlan dict.names dict.lens b = .ok (manifest.tracks, manifest.segments, manifest.dict) := by
  obtain ⟨tracks, htracks, encoded⟩ := ok_of_bindE encoded
  obtain ⟨segments, hsegments, encoded⟩ := ok_of_bindE encoded
  obtain ⟨pins, hpins, same⟩ := ok_of_bindE encoded
  cases same
  simp only [length_append] at short
  have hex : ∀ s ∈ manifest.dict, IsHex s := fun s mem => regular.hex s (by simp [manifestHexes, mem])
  apply consume_ok
  refine (putMany_scans htracks (by omega) (by decide) ?_ ?_ "track count").bind
    ((putMany_scans hsegments (by omega) (by decide) ?_ ?_ "segment count").bind
      ((putMany_scans hpins (by omega) le_rfl ?_ ?_ "dict pin count").bind_pure (.pure _)))
  · exact fun track _ c put => putTrack_room put
  · exact fun track mem c put short p => takeTrack_scans of regular mem put short p
  · exact fun segment _ c put => putSegment_room put
  · exact fun segment mem c put short p => takeSegment_scans of regular mem put short p
  · exact fun s _ c put => putIndex_pos put
  · exact fun s mem c put _ p => takeHex_scans of (hex s mem) put p

end Sections

section Locations
variable {manifest : Manifest} {dict : Dictionary} {locations : ChunkLocations} {packs : List ChunkHash}
  {names : List String} {hs : List ChunkHash} {start : Nat}

/-- The locations of the hashes `hs`, put into `found`. -/
def gather (locations : ChunkLocations) (found : ChunkLocations) : List ChunkHash → ChunkLocations
  | [] => found
  | h :: hs =>
      match locations[toHex h]? with
      | some loc => gather locations (found.insert (toHex h) loc) hs
      | none => gather locations found hs

theorem gather_get (found : ChunkLocations) (hs : List ChunkHash) (s : String) :
    (gather locations found hs)[s]? = if s ∈ hs.map toHex ∧ locations[s]?.isSome then locations[s]? else found[s]? := by
  induction hs generalizing found with
  | nil => simp [gather]
  | cons h hs ih =>
      unfold gather
      cases known : locations[toHex h]? with
      | none =>
          rw [ih found]
          by_cases same : s = toHex h
          · subst same
            simp [known]
          · simp only [map_cons, mem_cons, same, false_or]
      | some loc =>
          rw [ih (found.insert (toHex h) loc), getElem?_insert_eq]
          by_cases same : s = toHex h
          · subst same
            simp [known]
          · simp only [map_cons, mem_cons, same, false_or, if_false]

theorem takeLocation_scans {e : UInt32 × ChunkLocation} {s : String} (named : names[e.1.toNat]? = some s)
    (pack : e.2.packId ∈ packs) (few : packs.length < 2 ^ 64) (p : Nat) :
    Scans (takeLocation names packs) () p (locationRow packs e) (s, e.2) () := by
  have index := e.1.toNat_lt
  have ord : packs.idxOf e.2.packId < packs.length := List.idxOf_lt_length_of_mem pack
  have there : packs[packs.idxOf e.2.packId]? = some e.2.packId := by
    rw [List.getElem?_eq_getElem ord, List.getElem_idxOf]
  refine .bind ((readVaruint_scans (by omega)).bind_pure (.ofOption named)) ?_
  refine (readVaruint_scans (by omega)).bind (.pure_bind (.ofOption there) ?_)
  exact (takeVaru64_scans e.2.offset).bind ((takeVaru32_scans "stored length" e.2.storedLen).bind_pure (.pure _))

theorem locationRow_room (packs : List ChunkHash) (e : UInt32 × ChunkLocation) : 4 ≤ (locationRow packs e).length := by
  have := writeVaruint_pos e.1.toNat
  have := writeVaruint_pos (packs.idxOf e.2.packId)
  have := writeVaruint_pos e.2.offset.toNat
  have := writeVaruint_pos e.2.storedLen.toNat
  simp only [locationRow, length_append]
  omega

/-- The rows of the hashes from a place on gather their locations. -/
theorem takeLocations_scans {found : ChunkLocations}
    (here : ∀ j h, hs[j]? = some h → names[start + j]? = some (toHex h)) (few : start + hs.length ≤ 2 ^ 32)
    (nodup : hs.Nodup) (fresh : ∀ h ∈ hs, toHex h ∉ found)
    (inPacks : ∀ e ∈ locatedFrom locations start hs, e.2.packId ∈ packs) (fewPacks : packs.length < 2 ^ 64)
    (p : Nat) :
    Scans (takeLocations names packs (locatedFrom locations start hs).length found) () p
      ((locatedFrom locations start hs).flatMap (locationRow packs)) (gather locations found hs) () := by
  induction hs generalizing start found p with
  | nil => exact .pure found
  | cons h hs ih =>
      rw [length_cons] at few
      have next : ∀ j g, hs[j]? = some g → names[start + 1 + j]? = some (toHex g) := by
        intro j g there
        have := here (j + 1) g there
        rwa [show start + 1 + j = start + (j + 1) by omega]
      have apart := (List.nodup_cons.mp nodup).1
      have rest := (List.nodup_cons.mp nodup).2
      cases known : locations[toHex h]? with
      | none =>
          simp only [locatedFrom, gather, known] at inPacks ⊢
          exact ih next (by omega) rest (fun g mem => fresh g (mem_cons_of_mem _ mem)) inPacks p
      | some loc =>
          simp only [locatedFrom, gather, known] at inPacks ⊢
          have index : (UInt32.ofNat start).toNat = start := by
            rw [UInt32.toNat_ofNat']
            omega
          have named : names[(UInt32.ofNat start).toNat]? = some (toHex h) := by
            rw [index]
            exact here 0 h rfl
          rw [List.flatMap_cons, length_cons]
          refine (takeLocation_scans (e := (UInt32.ofNat start, loc)) named (inPacks _ mem_cons_self) fewPacks p).bind ?_
          dsimp only
          rw [if_neg (fresh h mem_cons_self)]
          refine ih next (by omega) rest ?_ (fun e mem => inPacks e (mem_cons_of_mem _ mem)) _
          intro g mem
          have other : toHex g ≠ toHex h := by
            intro same
            exact apart (toHex_injective same ▸ mem)
          simp only [ExtTreeMap.mem_insert, not_or]
          refine ⟨?_, fresh g (mem_cons_of_mem _ mem)⟩
          simpa using other.symm

theorem gather_none (found : ChunkLocations) (none : locatedFrom locations start hs = []) :
    gather locations found hs = found := by
  induction hs generalizing start with
  | nil => rfl
  | cons h hs ih =>
      cases known : locations[toHex h]? with
      | none =>
          simp only [locatedFrom, gather, known] at none ⊢
          exact ih none
      | some loc =>
          simp only [locatedFrom, known] at none
          cases none

theorem packsOf_eq (entries : List (UInt32 × ChunkLocation)) :
    packsOf entries = FirstSeen.all [] (entries.map fun e => e.2.packId) := by
  rw [packsOf, FirstSeen.all, List.foldl_map]
  congr
  funext packs e
  unfold FirstSeen.add
  congr

theorem decodeLocations_encode (of : dict.Of manifest) (few : dict.hashes.length ≤ 2 ^ 32) {b : Bytes}
    (encoded : encodeLocations dict locations = some b) (short : b.length < 2 ^ 64) :
    decodeLocations dict.names b = .ok (gather locations ∅ dict.hashes) := by
  simp only [encodeLocations] at encoded
  split at encoded
  · cases encoded
  · cases encoded
    set entries := locatedFrom locations 0 dict.hashes with hentries
    simp only [length_append] at short
    have packRoom := length_flatMap_ge (f := fun pack : ChunkHash => pack.1) (l := packsOf entries) (n := 32) fun pack _ => pack.2.ge
    have rowRoom := length_flatMap_ge (l := entries) fun e _ => locationRow_room (packsOf entries) e
    have inPacks : ∀ e ∈ entries, e.2.packId ∈ packsOf entries := by
      intro e mem
      rw [packsOf_eq, mem_all]
      exact .inr (List.mem_map_of_mem mem)
    apply consume_ok
    have count : (packsOf entries).length < 2 ^ 64 := by omega
    have packRows : Scans (takeMany 32 "pack count" takeHash) () 0
        (writeVaruint (packsOf entries).length ++ (packsOf entries).flatMap fun pack => pack.1) (packsOf entries) () := by
      refine (readVaruint_scans count).bind (.remaining fun left long => ?_)
      have fits : (packsOf entries).length ≤ left / 32 := by
        rw [Nat.le_div_iff_mul_le (by decide)]
        omega
      rw [if_neg (by omega)]
      have rows := Scans.collect (s := ()) (fun pack : ChunkHash => pack.1) id (packsOf entries) fun pack _ p => takeHash_scans pack
      rw [map_id] at rows
      exact rows _
    rw [← List.append_assoc]
    refine packRows.bind ((readVaruint_scans (by omega)).bind (.remaining fun left long => ?_))
    have fits : entries.length ≤ left / 4 := by
      rw [Nat.le_div_iff_mul_le (by decide)]
      omega
    rw [if_neg (by omega)]
    refine takeLocations_scans ?_ (by omega) of.indexed.nodup (fun _ _ => by simp) inPacks count _
    intro j h there
    rw [Nat.zero_add, Dictionary.names, List.getElem?_map, there]
    rfl

end Locations

end Cavs.ManifestV2
