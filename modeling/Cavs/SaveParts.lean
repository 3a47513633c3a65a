import Cavs.Ledger

/-!
# The parts of a save

The pieces of a save one after another: the record pack, the moved records, the
journal append and the snapshot rewrite. Each is told by the trees a crash can
leave in it and by what a finished run leaves on disk and in the handle.
-/
namespace Cavs
open FileProg (Bytes IoError Op bytes_of_get get_put_ne get_put_self)
open FileProg.Eff
open Std (ExtTreeMap ExtTreeSet)

/-- What runs of a store are relative to: its hash, its directories, what may fail
in them and what is known where a save begins. -/
def storeSem (env : Env) (mayFail : Op Path GlobalStore → Disk → Prop)
    (holds : GlobalStore → Disk → Prop) : StoreSem := ⟨env.hashChunk, Path.parent, mayFail, holds⟩

/-- The operations that write a record pack. -/
def writesPack : Op Path GlobalStore → Prop
  | .write (.recordPackTmp _) _ | .sync (.recordPackTmp _) | .rename (.recordPackTmp _) _ => True
  | _ => False

section Spans
variable {pack : ChunkHash}

theorem recordSpans_keys (pos : Nat) (l : List (String × Bytes)) :
    (recordSpans pack pos l).map Prod.fst = l.map Prod.fst := by
  induction l generalizing pos with
  | nil => rfl
  | cons e l ih => simp [recordSpans, ih]

theorem recordSpans_append (pos : Nat) (l l' : List (String × Bytes)) :
    recordSpans pack pos (l ++ l') =
      recordSpans pack pos l ++ recordSpans pack (pos + (l.flatMap Prod.snd).length) l' := by
  induction l generalizing pos with
  | nil => simp [recordSpans]
  | cons e l ih => simp [recordSpans, ih, Nat.add_assoc]

/-- Each record of a pack is read back from the place its span gives. -/
theorem recordSpans_reads {front rest whole : Bytes} {l : List (String × Bytes)}
    (split : whole = front ++ (l.flatMap Prod.snd ++ rest)) (small : whole.length < 2 ^ 32)
    {e : String × Bytes} (mem : e ∈ l) : ∃ offset len,
      (e.1, .pack pack offset len) ∈ recordSpans pack front.length l ∧
      sliceExact whole offset len = .ok e.2 := by
  induction l generalizing front with
  | nil => cases mem
  | cons x l ih =>
      obtain ⟨name, json⟩ := x
      have size : whole.length = front.length + (json.length + (l.flatMap Prod.snd ++ rest).length) := by
        rw [split]; simp
      cases mem with
      | head =>
          refine ⟨_, _, List.mem_cons_self, ?_⟩
          rw [Nat.mod_eq_of_lt (by omega), Nat.mod_eq_of_lt (by omega), split, List.flatMap_cons,
            List.append_assoc]
          exact sliceExact_middle ..
      | tail _ mem =>
          obtain ⟨offset, len, listed, slice⟩ := @ih (front ++ json) (by rw [split]; simp) mem
          rw [List.length_append] at listed
          exact ⟨offset, len, List.mem_cons_of_mem _ listed, slice⟩

/-- A fold of inserts with distinct keys, one key at a time. -/
theorem foldl_insert_lookup {V : Type} (l : List (String × V)) (distinct : (l.map Prod.fst).Nodup)
    (m : ExtTreeMap String V) (k : String) :
    (∀ v, (k, v) ∈ l → (l.foldl (fun m e => m.insert e.1 e.2) m)[k]? = some v) ∧
      (k ∉ l.map Prod.fst → (l.foldl (fun m e => m.insert e.1 e.2) m)[k]? = m[k]?) := by
  obtain ⟨set, left⟩ := foldl_keyed (fun (t : ExtTreeMap String V) (k : String) => t[k]?)
    Prod.fst (fun m e => m.insert e.1 e.2) (fun e _ => some e.2)
    (fun t e k => getElem?_insert_eq t e.1 k e.2) l distinct m k
  exact ⟨fun v mem => set (k, v) mem rfl, left⟩

theorem foldl_insert_from {V : Type} {l : List (String × V)} {m : ExtTreeMap String V} {k : String} {v : V}
    (h : (l.foldl (fun m e => m.insert e.1 e.2) m)[k]? = some v) : (k, v) ∈ l ∨ m[k]? = some v := by
  induction l generalizing m with
  | nil => exact .inr h
  | cons e l ih =>
      rcases ih h with mem | found
      · exact .inl (List.mem_cons_of_mem _ mem)
      · rw [getElem?_insert_eq] at found
        split at found
        · rename_i same
          subst same
          cases found
          exact .inl List.mem_cons_self
        · exact .inr found

theorem recordSpans_small {pos : Nat} {l : List (String × Bytes)} {e : String × RecordRef}
    (h : e ∈ recordSpans pack pos l) :
    ∃ offset len, e.2 = .pack pack offset len ∧ offset < 2 ^ 32 ∧ len < 2 ^ 32 := by
  induction l generalizing pos with
  | nil => cases h
  | cons x l ih =>
      cases h with
      | head => exact ⟨_, _, rfl, Nat.mod_lt _ (by decide), Nat.mod_lt _ (by decide)⟩
      | tail _ mem => exact ih mem

theorem foldl_erase_lookup {V : Type} (l : List String) (m : ExtTreeMap String V) (k : String) :
    (l.foldl (fun m n => m.erase n) m)[k]? = if k ∈ l then none else m[k]? := by
  induction l generalizing m with
  | nil => simp
  | cons n l ih =>
      rw [List.foldl_cons, ih, getElem?_erase_eq]
      by_cases same : k = n <;> simp [same]

end Spans

section Inline

variable {b : Bytes} {w : Disk}

/-- What the files of `w` give for a record. -/
def readBack (w : Disk) (ref : RecordRef) : Option Bytes :=
  (w.get ref.path).bind fun f => (sliceExact f.bytes ref.offset ref.len).toOption

def isInline : RecordRef → Bool
  | .journal .. => true
  | .pack .. => false

def inlineLen (ref : RecordRef) : Nat := if isInline ref then ref.len else 0

def inlineFound (w : Disk) (l : List (String × RecordRef)) : List (String × Bytes) :=
  l.filterMap fun e => if isInline e.2 then (readBack w e.2).map fun b => (e.1, b) else none

def inlineLost (w : Disk) (l : List (String × RecordRef)) : List String :=
  l.filterMap fun e => if isInline e.2 ∧ readBack w e.2 = none then some e.1 else none

/-- The bytes of the records a save may have to move or to stage. -/
def stagedBytes (s : GlobalStore) : Nat :=
  (s.index.records.toList.map fun e => inlineLen e.2).sum + pendingBytes s

theorem sliceExact_length {file : Bytes} {offset len : Nat} (h : sliceExact file offset len = .ok b) :
    b.length = len := by
  simp only [sliceExact] at h
  split at h
  · cases h; assumption
  · cases h

theorem readBack_length {ref : RecordRef} (h : readBack w ref = some b) :
    b.length = ref.len := by
  obtain ⟨f, found, slice⟩ := Option.bind_eq_some_iff.mp h
  cases cut : sliceExact f.bytes ref.offset ref.len with
  | ok b' =>
      rw [cut] at slice
      cases slice
      exact sliceExact_length cut
  | error e => rw [cut] at slice; cases slice

theorem inlineFound_length (w : Disk) (l : List (String × RecordRef)) :
    ((inlineFound w l).flatMap Prod.snd).length ≤ (l.map fun e => inlineLen e.2).sum := by
  induction l with
  | nil => simp [inlineFound]
  | cons e l ih =>
      rw [inlineFound, List.filterMap_cons, List.map_cons, List.sum_cons]
      cases inline : isInline e.2 with
      | false => simp only [Bool.false_eq_true, if_false]; exact ih.trans (Nat.le_add_left ..)
      | true =>
          cases found : readBack w e.2 with
          | none => simp only [if_true, Option.map_none]; exact ih.trans (Nat.le_add_left ..)
          | some b =>
              have := readBack_length found
              simp only [if_true, Option.map_some, List.flatMap_cons, List.length_append, inlineLen,
                inline, this]
              exact Nat.add_le_add_left ih _

theorem flatMap_snd_length (l : List (String × Bytes)) :
    (l.flatMap Prod.snd).length = (l.map fun r => r.2.length).sum := by
  rw [List.length_flatMap]

theorem mem_inlineFound {l : List (String × RecordRef)} {name : String} {ref : RecordRef}
    (mem : (name, ref) ∈ l) (inline : isInline ref = true) (found : readBack w ref = some b) :
    (name, b) ∈ inlineFound w l := by
  refine List.mem_filterMap.mpr ⟨_, mem, ?_⟩
  simp [inline, found]

theorem inlineFound_keys {l : List (String × RecordRef)} (distinct : (l.map Prod.fst).Nodup) :
    ((inlineFound w l).map Prod.fst).Nodup := by
  refine List.Nodup.sublist ?_ distinct
  induction l with
  | nil => simp [inlineFound]
  | cons e l ih =>
      rw [List.map_cons, List.nodup_cons] at distinct
      have rest := ih distinct.2
      rw [inlineFound, List.filterMap_cons]
      cases inline : isInline e.2 with
      | false => exact rest.cons _
      | true =>
          cases found : readBack w e.2 with
          | none => exact rest.cons _
          | some b => exact rest.cons_cons _

end Inline

variable {env : Env} {mayFail : Op Path GlobalStore → Disk → Prop}
  {holds : GlobalStore → Disk → Prop} {C : Disk → Prop} {w : Disk}

section Pieces

theorem wp_nowEpoch {S : Type} {s : S} {Q : Except StoreError Nat → S → Disk → Prop} (here : C w)
    (next : ∀ t, Q (.ok t) s w) : (nowEpoch : M S Nat).Wp (storeSem env mayFail holds) C Q s w :=
  (wp_now here fun _ => ⟨here, next _⟩).then

theorem writeRecordPack_wp {S : Type} {records : List (String × Bytes)} {s : S}
    {Q : Except StoreError (List (String × RecordRef)) → S → Disk → Prop} (named : Named env w)
    (crash : ∀ v, Grows env w v → C v)
    (next : ∀ pack v f, pack = env.hashChunk (records.flatMap Prod.snd) → Grows env w v →
      v.get (.recordPack pack) = some f → f.bytes = records.flatMap Prod.snd →
      Q (.ok (recordSpans pack 0 records)) s v)
    (broken : ∀ e v, Grows env w v → (∃ o u, mayFail o u ∧ writesPack o ∧ u.marks = w.marks) →
      Q (.error e) s v) :
    (writeRecordPack records : M S _).Wp (storeSem env mayFail holds) C Q s w := by
  refine (wp_digest (crash w (.refl w)) fun clear => ?_).then
  set bytes := records.flatMap Prod.snd with hbytes
  set pack := env.hashChunk bytes with hpack
  set w₁ : Disk := { w with named := bytes :: w.named }
  have g₁ : Grows env w w₁ := by
    refine ⟨fun _ _ => rfl, fun _ _ h => h, rfl, fun _ p f hf => ?_⟩
    obtain ⟨mem, hash⟩ := named p f hf
    exact ⟨List.mem_cons_of_mem _ mem, hash⟩
  refine ⟨crash _ g₁, (wp_present (crash _ g₁) (wp_ite (fun there => ?_) fun absent => ?_).then).then⟩
  · obtain ⟨f, found⟩ := Option.isSome_iff_exists.mp there
    refine ⟨crash _ g₁, crash _ g₁, next pack w₁ f hpack g₁ found ?_⟩
    obtain ⟨mem, hash⟩ := named pack f found
    exact clear f.bytes mem hash
  · have staged : ∀ b t, Grows env w (w₁.put (.recordPackTmp pack) b t) :=
      fun b t => g₁.trans (Grows.put rfl ..)
    refine (wp_write rfl (crash _ g₁) (fun n t => crash _ (staged ..)) (fun t => ?_)
      fun may v hv => ?_).then
    · set w₂ := w₁.put (.recordPackTmp pack) bytes t
      have g₂ : Grows env w w₂ := staged bytes t
      refine wp_good (wp_sync (crash _ g₂) ?_ fun may => ?_).then
      · refine wp_good (wp_rename rfl (crash _ g₂) (fun f found => ?_) (fun missing => ?_)
          fun may => ?_).then
        · have whole : f = ⟨bytes, t⟩ :=
            Option.some.inj (found.symm.trans (get_put_self ..))
          have fresh : w₂.get (.recordPack pack) = none := by
            rw [get_put_ne (by simp)]
            exact Option.not_isSome_iff_eq_none.mp absent
          have g₃ : Grows env w (w₂.move (.recordPackTmp pack) (.recordPack pack) f) :=
            g₂.trans (Grows.move_pack fresh (whole ▸ List.mem_cons_self) (by rw [whole]))
          exact ⟨crash _ g₃, crash _ g₃, crash _ g₃,
            next pack _ f hpack g₃ (FileProg.get_move_self ..) (by rw [whole])⟩
        · exact absurd (missing.symm.trans (get_put_self ..)) (by simp)
        · exact ⟨crash _ g₂, crash _ g₂, broken _ _ g₂ ⟨_, w₂, may, trivial, rfl⟩⟩
      · exact wp_bad (crash _ g₂) ⟨crash _ g₂, broken _ _ g₂ ⟨_, w₂, may, trivial, rfl⟩⟩
    · have g₂ : Grows env w v := by
        rcases hv with rfl | ⟨n, t, rfl⟩
        · exact g₁
        · exact staged ..
      exact wp_bad (crash _ g₂) ⟨crash _ g₂, broken _ _ g₂ ⟨_, w₁, may, trivial, rfl⟩⟩

theorem readRecordAt_wp {S : Type} {name : String} {ref : RecordRef} {s : S}
    {Q : Except StoreError Bytes → S → Disk → Prop} (here : C w) (sound : ¬ mayFail (.read ref.path) w)
    (next : ∀ r, r.toOption = readBack w ref → Q r s w) :
    (readRecordAt name ref : M S _).Wp (storeSem env mayFail holds) C Q s w := by
  refine (wp_read here (fun f found => ?_) (fun absent => ?_) fun may => absurd may sound).then
  · refine wp_good ?_
    have value : (sliceExact f.bytes ref.offset ref.len).toOption = readBack w ref := by
      simp [readBack, found]
    cases cut : sliceExact f.bytes ref.offset ref.len with
    | ok b => exact ⟨here, next _ (cut ▸ value)⟩
    | error e => exact ⟨here, next _ (cut ▸ value)⟩
  · exact wp_bad here (next _ (by simp [readBack, absent, Except.toOption]))

/-- Reading the inline records finds those that are there and names the others. -/
theorem stageInline_wp {S : Type} {l : List (String × RecordRef)} {s : S}
    {Q : Except StoreError (List (String × Bytes) × List String) → S → Disk → Prop} (here : C w)
    (sound : ∀ e ∈ l, isInline e.2 = true → ¬ mayFail (.read e.2.path) w)
    (next : Q (.ok (inlineFound w l, inlineLost w l)) s w) :
    (stageInline l : M S _).Wp (storeSem env mayFail holds) C Q s w := by
  induction l generalizing Q with
  | nil => exact ⟨here, next⟩
  | cons e l ih =>
      have later := fun {Q} => ih (Q := Q) fun e he => sound e (List.mem_cons_of_mem _ he)
      obtain ⟨name, ref⟩ := e
      cases ref with
      | pack pack offset len => exact later next
      | journal file offset len =>
          have clear := sound _ List.mem_cons_self rfl
          refine Wp.then ((wp_attempt ..).mpr (readRecordAt_wp here clear fun r same => ?_))
          refine Wp.then (later ?_)
          cases r with
          | ok b =>
              have found : some b = readBack w (.journal file offset len) := same
              refine ⟨here, ?_⟩
              simpa [inlineFound, inlineLost, isInline, ← found] using next
          | error e =>
              have lost : none = readBack w (.journal file offset len) := same
              refine ⟨here, ?_⟩
              simpa [inlineFound, inlineLost, isInline, ← lost] using next

end Pieces

section Moves
variable {v : Disk} {good : Bytes} {s : GlobalStore} {records : ExtTreeMap String RecordRef} {name : String}
  {ref : RecordRef}

/-- What reads as a record reads back from the files. -/
theorem RefReads.readBack {b : Bytes} {file : JournalFile} {S L : Index} (h : RefReads w good ref b)
    (log : Logged env file (w.bytes .indexLog) good S L) :
    readBack w ref = some b := by
  match ref, h with
  | .pack pack offset len, ⟨f, found, slice⟩ =>
      simp only [Cavs.readBack, RecordRef.path, found, RecordRef.offset, RecordRef.len]
      simp [slice, Except.toOption]
  | .journal .live offset len, ⟨there, slice⟩ =>
      obtain ⟨f, found⟩ := Option.isSome_iff_exists.mp there
      obtain ⟨tail, whole, -⟩ := log.tail
      rw [bytes_of_get found] at whole
      simp only [Cavs.readBack, RecordRef.path, journalPath, found, RecordRef.offset, RecordRef.len]
      simp [whole, sliceExact_append slice, Except.toOption]

/-- The record of an asset is in a record pack and reads as `b`. -/
def InPack (v : Disk) (records : ExtTreeMap String RecordRef) (name : String) (b : Bytes) : Prop :=
  ∃ pack offset len f, records[name]? = some (.pack pack offset len) ∧
    v.get (.recordPack pack) = some f ∧ sliceExact f.bytes offset len = .ok b

/-- Only the staged records moved, all of them into packs. -/
structure Packed (v : Disk) (s t : GlobalStore) : Prop where
  same : t = { s with
    pendingRecords := ∅, index := { s.index with records := t.index.records } }
  staged : ∀ (name : String) (b : Bytes), s.pendingRecords[name]? = some b →
    InPack v t.index.records name b
  kept : ∀ (name : String) pack offset len, s.pendingRecords[name]? = none →
    s.index.records[name]? = some (.pack pack offset len) →
    t.index.records[name]? = some (.pack pack offset len)
  small : ∀ (name : String) pack offset len, t.index.records[name]? = some (.pack pack offset len) →
    s.index.records[name]? = some (.pack pack offset len) ∨ offset < 2 ^ 32 ∧ len < 2 ^ 32

theorem pendingKeys_nodup (s : GlobalStore) : (s.pendingRecords.toList.map Prod.fst).Nodup :=
  toList_keys_nodup _

/-- The places of records after `found` and the staged ones went into one pack. -/
theorem insertRecords_spans {found : List (String × Bytes)} {pack : ChunkHash} {f : FileProg.File}
    (distinct : (found.map Prod.fst).Nodup) (there : v.get (.recordPack pack) = some f)
    (whole : f.bytes = (found ++ s.pendingRecords.toList).flatMap Prod.snd) (small : f.bytes.length < 2 ^ 32)
    (name : String) :
    let r : ExtTreeMap String RecordRef :=
      (recordSpans pack 0 (found ++ s.pendingRecords.toList)).foldl
        (fun records r => records.insert r.1 r.2) records
    (∀ b, s.pendingRecords[name]? = some b → InPack v r name b) ∧
    (∀ b, s.pendingRecords[name]? = none → (name, b) ∈ found → InPack v r name b) ∧
    (s.pendingRecords[name]? = none → name ∉ found.map Prod.fst → r[name]? = records[name]?) ∧
    (∀ pack' offset len, r[name]? = some (.pack pack' offset len) →
      records[name]? = some (RecordRef.pack pack' offset len) ∨ offset < 2 ^ 32 ∧ len < 2 ^ 32) := by
  intro r
  have keyless : s.pendingRecords[name]? = none → name ∉ s.pendingRecords.toList.map Prod.fst := by
    rintro none listed
    obtain ⟨e, mem, rfl⟩ := List.mem_map.mp listed
    rw [mem_toList_iff.mp mem] at none
    cases none
  have small' : ∀ pack' offset len, r[name]? = some (.pack pack' offset len) →
      records[name]? = some (.pack pack' offset len) ∨ offset < 2 ^ 32 ∧ len < 2 ^ 32 := by
    intro pack' offset len there
    rcases foldl_insert_from there with mem | old
    · obtain ⟨_, _, same, bounds⟩ := recordSpans_small mem
      cases same
      exact .inr bounds
    · exact .inl old
  have split : r = (recordSpans pack (found.flatMap Prod.snd).length s.pendingRecords.toList).foldl
      (fun records r => records.insert r.1 r.2)
      ((recordSpans pack 0 found).foldl (fun records r => records.insert r.1 r.2) records) := by
    rw [← List.foldl_append, ← Nat.zero_add (found.flatMap Prod.snd).length, ← recordSpans_append]
  obtain ⟨late, early⟩ := foldl_insert_lookup
    (recordSpans pack (found.flatMap Prod.snd).length s.pendingRecords.toList)
    (by rw [recordSpans_keys]; exact pendingKeys_nodup s)
    ((recordSpans pack 0 found).foldl (fun records r => records.insert r.1 r.2) records) name
  obtain ⟨hit, miss⟩ := foldl_insert_lookup (recordSpans pack 0 found)
    (by rw [recordSpans_keys]; exact distinct) records name
  rw [recordSpans_keys] at early miss
  rw [List.flatMap_append] at whole
  suffices h : (∀ b, s.pendingRecords[name]? = some b → InPack v r name b) ∧
      (∀ b, s.pendingRecords[name]? = none → (name, b) ∈ found → InPack v r name b) ∧
      (s.pendingRecords[name]? = none → name ∉ found.map Prod.fst → r[name]? = records[name]?) from
    ⟨h.1, h.2.1, h.2.2, small'⟩
  rw [split]
  refine ⟨fun b staged => ?_, fun b none mem => ?_, fun none absent => ?_⟩
  · obtain ⟨offset, len, listed, slice⟩ := @recordSpans_reads pack
      (found.flatMap Prod.snd) [] _ _ (by rw [whole, List.append_nil]) small _
      (mem_toList_iff (e := (name, b)).mpr staged)
    exact ⟨pack, offset, len, f, late _ listed, there, slice⟩
  · obtain ⟨offset, len, listed, slice⟩ := @recordSpans_reads pack [] _ _ _
      (by rw [whole, List.nil_append]) small _ mem
    exact ⟨pack, offset, len, f, (early (keyless none)).trans (hit _ listed), there, slice⟩
  · exact (early (keyless none)).trans (miss absent)

theorem pendingBytes_empty (h : s.pendingRecords = ∅) : pendingBytes s = 0 := by
  rw [pendingBytes, h, List.map_eq_nil_iff.mpr]
  · rfl
  · exact ExtTreeMap.toList_eq_nil_iff.mpr rfl

theorem pendingBytes_eq (s : GlobalStore) :
    (s.pendingRecords.toList.flatMap Prod.snd).length = pendingBytes s := flatMap_snd_length _

/-- The handle after a large publish was given a pack of its own. -/
def packedAway (env : Env) (s : GlobalStore) : GlobalStore :=
  if pendingBytes s > inlineRecordsMax then
    insertRecords (recordSpans (env.hashChunk (s.pendingRecords.toList.flatMap Prod.snd)) 0
      s.pendingRecords.toList) { s with pendingRecords := ∅ }
  else s

/-- A large publish is in a pack of its own afterwards, a small one is still staged. -/
theorem packLargeRecords_wp {Q : Except StoreError Unit → GlobalStore → Disk → Prop} (named : Named env w)
    (small : stagedBytes s < 2 ^ 32) (crash : ∀ v, Grows env w v → C v)
    (next : ∀ v, Grows env w v → (inlineRecordsMax < pendingBytes s → Packed v s (packedAway env s) ∧
      ∀ name : String, s.pendingRecords[name]? = none →
        (packedAway env s).index.records[name]? = s.index.records[name]?) →
      Q (.ok ()) (packedAway env s) v) (broken : ∀ e v, Grows env w v → s.pendingRecords ≠ ∅ →
      (∃ o u, mayFail o u ∧ writesPack o ∧ u.marks = w.marks) →
      Q (.error e) { s with pendingRecords := ∅ } v) :
    (packLargeRecords : M GlobalStore Unit).Wp (storeSem env mayFail holds) C Q s w := by
  have here := crash w (.refl w)
  refine wp_ite (fun large => ?_) fun small => ⟨here, ?_⟩
  · refine (writeRecordPack_wp named crash (fun pack v f hash grows there whole => ?_)
      fun e v grows why => ⟨crash v grows, broken e v grows (fun empty => ?_) why⟩).then
    · have size : f.bytes.length < 2 ^ 32 := by
        rw [whole, pendingBytes_eq]
        exact lt_of_le_of_lt (Nat.le_add_left ..) small
      have away : packedAway env s = insertRecords (recordSpans pack 0 s.pendingRecords.toList)
          { s with pendingRecords := ∅ } := by rw [packedAway, if_pos large, hash]
      have spans := @insertRecords_spans v s s.index.records [] _ _ (by simp) there whole size
      have rest : ∀ name, s.pendingRecords[name]? = none → _ := fun name none =>
        (spans name).2.2.1 none (by simp)
      refine ⟨crash v grows, away ▸ next v grows fun _ => ?_⟩
      rw [away]
      exact ⟨⟨rfl, fun name b staged => (spans name).1 b staged,
        fun name p o l none found => (rest name none).trans found, fun name => (spans name).2.2.2⟩, rest⟩
    · rw [pendingBytes_empty empty] at large
      exact absurd large (Nat.not_lt_zero _)
  · have stays : packedAway env s = s := if_neg small
    exact stays ▸ next w (.refl w) fun large => absurd large small

theorem mem_inlineLost :
    name ∈ inlineLost w records.toList ↔
      ∃ ref, records[name]? = some ref ∧ isInline ref = true ∧ readBack w ref = none := by
  simp only [inlineLost, List.mem_filterMap]
  constructor
  · rintro ⟨⟨name', ref⟩, mem, picked⟩
    split at picked
    · rename_i lost
      cases picked
      exact ⟨ref, mem_toList_iff.mp mem, lost⟩
    · cases picked
  · rintro ⟨ref, found, lost⟩
    exact ⟨(name, ref), mem_toList_iff.mpr found, if_pos lost⟩

theorem mem_inlineFound_keys (h : name ∈ (inlineFound w records.toList).map Prod.fst) :
    ∃ ref, records[name]? = some ref ∧ isInline ref = true := by
  obtain ⟨e, mem, rfl⟩ := List.mem_map.mp h
  obtain ⟨⟨name, ref⟩, listed, picked⟩ := List.mem_filterMap.mp mem
  split at picked
  · rename_i inline
    obtain ⟨b, -, rfl⟩ := Option.map_eq_some_iff.mp picked
    exact ⟨ref, mem_toList_iff.mp listed, inline⟩
  · cases picked

/-- What the move drops first: the staged records are taken, and inline records that
cannot be read are forgotten. -/
def cleared (w : Disk) (s : GlobalStore) : GlobalStore :=
  { eraseRecords (inlineLost w s.index.records.toList) s with pendingRecords := ∅ }

theorem cleared_records (s : GlobalStore) (found : s.index.records[name]? = some ref)
    (good : isInline ref = true → (readBack w ref).isSome) :
    (cleared w s).index.records[name]? = some ref := by
  have kept : name ∉ inlineLost w s.index.records.toList := by
    intro lost
    obtain ⟨ref', found', inline, none⟩ := mem_inlineLost.mp lost
    rw [found] at found'
    cases found'
    have := good inline
    rw [none] at this
    cases this
  simp only [cleared, eraseRecords, foldl_erase_lookup, if_neg kept, found]

theorem cleared_from (found : (cleared w s).index.records[name]? = some ref) :
    s.index.records[name]? = some ref := by
  simp only [cleared, eraseRecords, foldl_erase_lookup] at found
  split at found
  · cases found
  · exact found

/-- Before a snapshot every record that can be read goes into a pack. -/
theorem moveRecordsIntoAPack_wp {Q : Except StoreError Unit → GlobalStore → Disk → Prop} (named : Named env w)
    (small : stagedBytes s < 2 ^ 32) (crash : ∀ v, Grows env w v → C v)
    (sound : ∀ file, ¬ mayFail (.read (journalPath file)) w) (next : ∀ t v, Grows env w v → Packed v s t →
      (∀ (name : String) ref b, s.pendingRecords[name]? = none → s.index.records[name]? = some ref →
        isInline ref = true → readBack w ref = some b → InPack v t.index.records name b) →
      Q (.ok ()) t v) (broken : ∀ e v, Grows env w v → (∃ o u, mayFail o u ∧ writesPack o ∧ u.marks = w.marks) →
      Q (.error e) (cleared w s) v) :
    (moveRecordsIntoAPack : M GlobalStore Unit).Wp (storeSem env mayFail holds) C Q s w := by
  have here := crash w (.refl w)
  have calm : ∀ e ∈ s.index.records.toList, isInline e.2 = true → ¬ mayFail (.read e.2.path) w := by
    rintro ⟨name, ref⟩ - inline
    cases ref with
    | pack => cases inline
    | journal file => exact sound file
  refine wp_see (stageInline_wp here calm (wp_set (wp_set ?_))).then
  refine wp_ite (fun nothing => ?_) fun _ => ?_
  · obtain ⟨noInline, noStaged⟩ := List.append_eq_nil_iff.mp nothing
    have unstaged : ∀ name : String, s.pendingRecords[name]? = none := by
      intro name
      cases staged : s.pendingRecords[name]? with
      | none => rfl
      | some b =>
          have mem := (mem_toList_iff (e := (name, b))).mpr staged
          rw [noStaged] at mem
          cases mem
    refine ⟨here, next (cleared w s) w (.refl w) ⟨rfl, fun name b staged => ?_,
      fun name pack offset len _ found => cleared_records s found (by simp [isInline]),
      fun name pack offset len found => .inl (cleared_from found)⟩
      fun name ref b _ found inline back => ?_⟩
    · rw [unstaged] at staged
      cases staged
    · have mem := mem_inlineFound (mem_toList_iff (e := (name, ref)).mpr found) inline back
      rw [noInline] at mem
      cases mem
  · refine (writeRecordPack_wp named crash (fun pack v f hash grows there whole => ?_)
      fun e v grows why => ⟨crash v grows, broken e v grows why⟩).then
    have size : f.bytes.length < 2 ^ 32 := by
      have found := inlineFound_length w s.index.records.toList
      rw [whole, List.flatMap_append, List.length_append, pendingBytes_eq]
      rw [stagedBytes] at small
      omega
    have spans := @insertRecords_spans v s (cleared w s).index.records
      (inlineFound w s.index.records.toList) _ _
      (inlineFound_keys (toList_keys_nodup _)) there whole size
    refine ⟨crash v grows, next _ v grows ⟨rfl, fun name => (spans name).1, ?_, ?_⟩ ?_⟩
    · intro name pack' offset len unstaged found
      refine ((spans name).2.2.1 unstaged fun mem => ?_).trans
        (cleared_records s found (by simp [isInline]))
      obtain ⟨ref, found', inline⟩ := mem_inlineFound_keys mem
      rw [found] at found'
      cases found'
      cases inline
    · intro name pack' offset len found
      exact ((spans name).2.2.2 _ _ _ found).imp_left cleared_from
    · intro name ref b unstaged found inline back
      exact (spans name).2.1 b unstaged
        (mem_inlineFound (mem_toList_iff (e := (name, ref)).mpr found) inline back)

end Moves
section Append
variable {u v : Disk} {good record : Bytes}

/-- Only the live journal changed, and it reads `b`. -/
structure LogAt (w v : Disk) (b : Bytes) : Prop where
  log : ∃ t, v.get .indexLog = some ⟨b, t⟩
  rest : ∀ p, p ≠ .indexLog → v.get p = w.get p
  marks : v.marks = w.marks
  named : v.named = w.named

theorem LogAt.of_put (w : Disk) (b : Bytes) (t : Nat) : LogAt w (w.put .indexLog b t) b :=
  ⟨⟨t, get_put_self ..⟩, fun _ hp => get_put_ne hp .., rfl, rfl⟩

theorem LogAt.put {b : Bytes} (h : LogAt w v b) (b' : Bytes) (t : Nat) :
    LogAt w (v.put .indexLog b' t) b' :=
  ⟨⟨t, get_put_self ..⟩, fun p hp => (get_put_ne hp ..).trans (h.rest p hp),
    h.marks, h.named⟩

theorem LogAt.bytes {b : Bytes} (h : LogAt w v b) : v.bytes .indexLog = b := by
  obtain ⟨t, found⟩ := h.log
  exact bytes_of_get found

/-- An append that fails leaves what stood before it, as long as the cut itself goes well. -/
theorem appendJournal_wp {s : GlobalStore} {Q : Except StoreError Unit → GlobalStore → Disk → Prop}
    (start : w.bytes .indexLog = good) (length : s.journalBytes = good.length)
    (cuts : ∀ n u, ¬ mayFail (.setLen .indexLog n) u) (here : C w)
    (torn : ∀ n v, LogAt w v (good ++ record.take n) → C v)
    (next : ∀ v, LogAt w v (good ++ record) → Q (.ok ()) s v) (broken : ∀ e v, v = w ∨ LogAt w v good →
      (∃ o u, mayFail o u ∧ (∃ b, o = .append .indexLog b) ∨ mayFail o u ∧ o = .sync .indexLog) →
      Q (.error e) s v) :
    (appendJournal record).Wp (storeSem env mayFail holds) C Q s w := by
  have whole : ∀ v, LogAt w v (good ++ record) → C v := fun v h =>
    torn record.length v (by rwa [List.take_length])
  have opened : ∀ v, LogAt w v good → C v := fun v h => torn 0 v (by simpa using h)
  have cutBack : ∀ e v n, LogAt w v (good ++ record.take n) →
      (∃ o u, mayFail o u ∧ (∃ b, o = .append .indexLog b) ∨ mayFail o u ∧ o = .sync .indexLog) →
      (do
        let _ ← op (.setLen .indexLog s.journalBytes)
        throw (.io e) : M GlobalStore Unit).Wp (storeSem env mayFail holds) C Q s v := by
    intro e v n at_ why
    refine (wp_setLen (torn n v at_) (fun f t found => ?_) (fun missing => ?_)
      fun may => (cuts _ _ may).elim).then
    · have cut : LogAt w (v.put .indexLog (f.bytes.take s.journalBytes ++
          List.replicate (s.journalBytes - f.bytes.length) 0) t) good := by
        have read := at_.bytes
        rw [bytes_of_get found] at read
        have trimmed : f.bytes.take s.journalBytes ++
            List.replicate (s.journalBytes - f.bytes.length) 0 = good := by
          rw [read, length, List.take_left, List.length_append, Nat.sub_eq_zero_of_le (by omega),
            List.replicate_zero, List.append_nil]
        rw [trimmed]
        exact at_.put good t
      exact ⟨opened _ cut, opened _ cut, broken _ _ (.inr cut) why⟩
    · obtain ⟨t, there⟩ := at_.log
      rw [there] at missing
      cases missing
  refine wp_see (wp_append rfl here (fun n t => ?_) (fun t => wp_good ?_) fun may v hv => ?_).then
  · rw [start, List.take_nil, List.append_nil]
    exact opened _ (.of_put ..)
  · rw [start, List.append_nil]
    have first : LogAt w (w.put .indexLog good t) good := .of_put ..
    refine (wp_append rfl (opened _ first) (fun n t => ?_) (fun t => ?_) fun may v hv => ?_).then
    · rw [first.bytes]
      exact torn n _ (first.put ..)
    · rw [first.bytes]
      have written := first.put (good ++ record) t
      refine (wp_sync (whole _ written) ⟨whole _ written, next _ written⟩ fun may => ?_).then
      exact cutBack _ _ record.length (by rwa [List.take_length]) ⟨_, _, .inr ⟨may, rfl⟩⟩
    · have at_ : ∃ n, LogAt w v (good ++ record.take n) := by
        rcases hv with rfl | ⟨n, t, rfl⟩
        · exact ⟨0, by simpa using first⟩
        · rw [first.bytes]
          exact ⟨n, first.put ..⟩
      obtain ⟨n, at_⟩ := at_
      refine Wp.then ⟨torn n v at_, ?_⟩
      exact cutBack _ _ n at_ ⟨_, _, .inl ⟨may, _, rfl⟩⟩
  · have at_ : v = w ∨ LogAt w v good := by
      rcases hv with rfl | ⟨n, t, rfl⟩
      · exact .inl rfl
      · rw [start, List.take_nil, List.append_nil]
        exact .inr (.of_put ..)
    refine wp_bad ?_ (broken _ _ at_ ⟨_, _, .inl ⟨may, _, rfl⟩⟩)
    rcases at_ with rfl | at_
    · exact here
    · exact opened _ at_

end Append
end Cavs
