import Cavs.Types

/-!
# Ledger entries as bytes

What the journal and the snapshot have in common: texts with a length before
them, hashes, the table of pack ids and the record of one chunk. The journal
writes the number of a pack in two bytes, the snapshot in four.
-/
namespace Cavs
open FileProg (Bytes)
open ByteScan

def corrupt (what : String) : StoreError := .indexCorrupt what

def truncated : StoreError := corrupt "truncated"

/-- The value that stands for a missing number of eight bytes. -/
def u64Max : Nat := 2 ^ 64 - 1

def textBytes (s : String) : Bytes := le 2 (strBytes s).length ++ strBytes s

def hashOf (b : Bytes) : Option ChunkHash := if h : b.length = 32 then some ⟨b, h⟩ else none

section Readers
variable {S : Type}

def readNum (w : Nat) : Scan StoreError S Nat := Scan.num truncated w

def readU32 : Scan StoreError S UInt32 := do return UInt32.ofNat (← readNum 4)

/-- Go on only when `c` holds. -/
def check (c : Bool) (e : StoreError) : Scan StoreError S Unit := if c then pure () else Scan.throw e

def readText (what : String) : Scan StoreError S String := do
  let len ← readNum 2
  let bytes ← Scan.take truncated len
  Scan.ofOption (corrupt what) (utf8 bytes)

def readHash : Scan StoreError S ChunkHash := do
  let bytes ← Scan.take truncated 32
  Scan.ofOption truncated (hashOf bytes)

/-- A list of hashes, with its count checked against what is left to read. -/
def readHexes (what : String) : Scan StoreError S (List String) := do
  let n ← readNum 4
  let left ← Scan.remaining
  check (n ≤ left / 32) (corrupt what)
  Scan.collect n (do return toHex (← readHash))

end Readers

def hexesBytes (chunks : List String) : Bytes :=
  le 4 chunks.length ++ chunks.flatMap fun hex => (hexHash hex).1

/-- Pack ids in the order they are first met. -/
def packTable (infos : List ChunkInfo) : List String :=
  infos.foldl (fun packs info => match info.pack with
    | some p => if p ∈ packs then packs else packs ++ [p]
    | none => packs) []

def packOrdinal (w : Nat) (packs : List String) : Option String → Nat
  | some p => packs.idxOf p
  | none => 256 ^ w - 1

def chunkRecord (w : Nat) (packs : List String) (entry : String × ChunkInfo) : Bytes :=
  (hexHash entry.1).1 ++ (le 4 entry.2.lenRaw.toNat ++ (le 4 entry.2.lenStored.toNat ++
  (le 4 entry.2.flags.toNat ++ (le 8 entry.2.refcount ++
  (le 8 (entry.2.zeroSince.getD u64Max) ++ (le w (packOrdinal w packs entry.2.pack) ++
  le 8 (entry.2.packOffset.getD 0)))))))

def readChunkRecord (w : Nat) (packs : List String) {S : Type} :
    Scan StoreError S (String × ChunkInfo) := do
  let hash ← readHash
  let lenRaw ← readU32
  let lenStored ← readU32
  let flags ← readU32
  let refcount ← readNum 8
  let since ← readNum 8
  let ord ← readNum w
  let offset ← readNum 8
  let pack ← (if ord = 256 ^ w - 1 then pure none else do
    return some (← Scan.ofOption (corrupt "pack ordinal out of range") packs[ord]?))
  return (toHex hash, {
    lenRaw, lenStored, flags, refcount
    zeroSince := if since = u64Max then none else some since
    pack
    packOffset := if pack.isSome then some offset else none })

/-- The numbers of an entry fit the widths they are written in, and no number is
one that stands for a missing value. -/
structure ChunkInfo.Fits (info : ChunkInfo) : Prop where
  refcount : info.refcount < 2 ^ 64
  zeroSince : ∀ z, info.zeroSince = some z → z < u64Max
  packOffset : ∀ o, info.packOffset = some o → o < 2 ^ 64
  pack : ∀ p, info.pack = some p → (strBytes p).length < 2 ^ 16

/-- An entry has an offset exactly when it has a pack. -/
def ChunkInfo.Placed (info : ChunkInfo) : Prop := info.pack.isSome = info.packOffset.isSome

section RoundTrips
variable {S : Type} {s : S} {p : Nat}

theorem hashOf_val (h : ChunkHash) : hashOf h.1 = some h := by
  rw [hashOf, dif_pos h.2]

theorem readText_scans {t what : String} (short : (strBytes t).length < 2 ^ 16) :
    Scans (readText what) s p (textBytes t) t s := by
  refine (Scans.num (by omega)).bind ((Scans.take rfl).bind_pure ?_)
  exact Scans.ofOption (utf8_strBytes t)

theorem readHash_scans (h : ChunkHash) : Scans (readHash : Scan StoreError S ChunkHash) s p h.1 h s :=
  (Scans.take h.2).bind_pure (Scans.ofOption (hashOf_val h))

theorem readU32_scans (n : UInt32) :
    Scans (readU32 : Scan StoreError S UInt32) s p (le 4 n.toNat) n s := by
  refine (Scans.num (by have := n.toNat_lt; omega)).bind_pure ?_
  rw [UInt32.ofNat_toNat]
  exact Scans.pure n

theorem check_scans {c : Bool} {e : StoreError} (h : c = true) :
    Scans (check c e : Scan StoreError S Unit) s p [] () s := by
  rw [check, if_pos h]
  exact .pure ()

theorem flatMap_length_const {α : Type} {f : α → Bytes} {n : Nat} (l : List α)
    (h : ∀ a ∈ l, (f a).length = n) : (l.flatMap f).length = l.length * n := by
  induction l with
  | nil => simp
  | cons a as ih =>
      rw [List.flatMap_cons, List.length_append, h a (by simp), ih fun b hb => h b (by simp [hb]),
        List.length_cons, Nat.succ_mul, Nat.add_comm]

theorem readHexes_scans {chunks : List String} {what : String} (hex : ∀ c ∈ chunks, IsHex c)
    (few : chunks.length < 2 ^ 32) :
    Scans (readHexes what : Scan StoreError S _) s p (hexesBytes chunks) chunks s := by
  have size := flatMap_length_const chunks (f := fun hex => (hexHash hex).1) (n := 32)
    fun c _ => (hexHash c).2
  refine (Scans.num (by omega)).bind (Scans.remaining fun r enough => ?_)
  refine (check_scans ?_).pure_bind ?_
  · rw [size] at enough
    exact decide_eq_true (by omega)
  · have items : ∀ c ∈ chunks, ∀ p, Scans (do return toHex (← readHash)) s p (hexHash c).1
        (toHex (hexHash c)) s := fun c _ p => (readHash_scans _).bind_pure (.pure _)
    have read := Scans.collect _ _ _ items (p + (le 4 chunks.length).length)
    rwa [List.map_congr_left fun c hc => toHex_hexHash (hex c hc), List.map_id'] at read

theorem mem_packTable {infos : List ChunkInfo} {q : String} :
    q ∈ packTable infos ↔ ∃ info ∈ infos, info.pack = some q := by
  have general : ∀ acc : List String, q ∈ infos.foldl (fun packs info => match info.pack with
      | some p => if p ∈ packs then packs else packs ++ [p]
      | none => packs) acc ↔ q ∈ acc ∨ ∃ info ∈ infos, info.pack = some q := by
    induction infos with
    | nil => simp
    | cons info infos ih =>
        intro acc
        rw [List.foldl_cons, ih]
        cases found : info.pack with
        | none => simp [found]
        | some r =>
            by_cases known : r ∈ acc
            · simp only [known, if_true, List.mem_cons, exists_eq_or_imp, found, Option.some.injEq]
              constructor
              · rintro (h | h)
                · exact .inl h
                · exact .inr (.inr h)
              · rintro (h | rfl | h)
                · exact .inl h
                · exact .inl known
                · exact .inr h
            · simp only [known, if_false, List.mem_append, List.mem_cons, List.not_mem_nil, or_false,
                exists_eq_or_imp, found, Option.some.injEq, or_assoc, @eq_comm _ r q]
  simpa [packTable] using general []

theorem packTable_nodup (infos : List ChunkInfo) : (packTable infos).Nodup := by
  have general : ∀ acc : List String, acc.Nodup → (infos.foldl (fun packs info => match info.pack with
      | some p => if p ∈ packs then packs else packs ++ [p]
      | none => packs) acc).Nodup := by
    induction infos with
    | nil => exact fun acc distinct => distinct
    | cons info infos ih =>
        intro acc distinct
        rw [List.foldl_cons]
        apply ih
        split
        · rename_i p _
          by_cases known : p ∈ acc
          · rw [if_pos known]
            exact distinct
          · rw [if_neg known]
            exact (List.nodup_append_comm.mp (List.nodup_cons.mpr ⟨known, distinct⟩ : ([p] ++ acc).Nodup))
        · exact distinct
  exact general [] List.nodup_nil

/-- A chunk's record reads back as the chunk, when its pack is in the table. -/
theorem readChunkRecord_scans {w : Nat} {packs : List String} {hex : String} {info : ChunkInfo}
    (isHex : IsHex hex) (fits : info.Fits) (placed : info.Placed)
    (known : ∀ q, info.pack = some q → q ∈ packs) (few : packs.length < 256 ^ w) :
    Scans (readChunkRecord w packs : Scan StoreError S _) s p (chunkRecord w packs (hex, info))
      (hex, info) s := by
  have zero : info.zeroSince.getD u64Max < 256 ^ 8 := by
    cases h : info.zeroSince with
    | none => decide
    | some z => have := fits.zeroSince z h; simp only [u64Max, Option.getD_some] at *; omega
  have offset : info.packOffset.getD 0 < 256 ^ 8 := by
    cases h : info.packOffset with
    | none => decide
    | some o => have := fits.packOffset o h; simp only [Option.getD_some]; omega
  have ordinal : packOrdinal w packs info.pack < 256 ^ w := by
    cases h : info.pack with
    | none => exact Nat.sub_lt (Nat.pow_pos (by decide)) Nat.one_pos
    | some q => exact (List.idxOf_lt_length_of_mem (known q h)).trans few
  have refcount : info.refcount < 256 ^ 8 := by have := fits.refcount; omega
  refine (readHash_scans _).bind ((readU32_scans _).bind ((readU32_scans _).bind
    ((readU32_scans _).bind ((Scans.num refcount).bind ((Scans.num zero).bind
    ((Scans.num ordinal).bind ((Scans.num offset).bind_pure ?_)))))))
  have zeroBack : (if info.zeroSince.getD u64Max = u64Max then none
      else some (info.zeroSince.getD u64Max)) = info.zeroSince := by
    cases h : info.zeroSince with
    | none => rfl
    | some z => rw [Option.getD_some, if_neg (fits.zeroSince z h).ne]
  have offsetBack : (if info.pack.isSome then some (info.packOffset.getD 0) else none) =
      info.packOffset := by
    rw [placed]
    cases info.packOffset <;> rfl
  refine .pure_bind (x := info.pack) (t := s) ?_ ?_
  · cases h : info.pack with
    | none => rw [packOrdinal, if_pos rfl]; exact .pure none
    | some q =>
        have below : packs.idxOf q < packs.length := List.idxOf_lt_length_of_mem (known q h)
        rw [packOrdinal, if_neg (by omega)]
        refine (Scans.ofOption (x := q) ?_).bind_pure (Scans.pure _)
        rw [List.getElem?_eq_getElem below, List.getElem_idxOf]
  · rw [zeroBack, offsetBack, toHex_hexHash isHex]
    exact .pure _

end RoundTrips
end Cavs
