import Cavs.FileExec
import Cavs.ShelfCalls
import Cavs.SnapshotCodec

/-!
# The life of a monolithic store

A directory with no ledger gets one, is opened again and again, and has calls made on its
handles, any of which may be cut off. All along it stands for a shelf, and a read of an asset
gives the record the shelf has.
-/
namespace Cavs
open FileProg (Bytes IoError Op get_empty get_put_ne)
open FileProg.Eff
open FileProg.Prog (crashes_here execMarked_marks execMarked_runs)
open Std (ExtTreeMap ExtTreeSet)

section Opens
variable {env : Env} {w v : Disk} {S L : Index} {good : Bytes} {A : Ledger} {t : Shelf} {s : GlobalStore}
  {f : String → Option AssetRecord} {layout : Option StoreLayout}

/-- A directory that no store was made in, or whose making was cut off. -/
structure Blank (env : Env) (w : Disk) : Prop where
  bare : ∀ p : Path, p.isLedger = true → w.get p = none
  json : w.get .indexJson = none
  named : Named env w

/-- What a directory without a handle is: the next open finds these assets. -/
def AtRest (env : Env) (w : Disk) (f : String → Option AssetRecord) : Prop :=
  OnDisk env w f ∨ Blank env w ∧ f = Shelf.empty.saved

/-- Only the snapshot in the making is other. -/
theorem Blank.other (h : Blank env w) (same : ∀ p : Path, p ≠ .indexBinTmp → v.get p = w.get p)
    (named : v.named = w.named) : Blank env v where
  bare p ledger := (same p (by rintro rfl; cases ledger)).trans (h.bare p ledger)
  json := (same _ (by simp)).trans h.json
  named pack file there := by
    rw [same _ (by simp)] at there
    rw [named]
    exact h.named pack file there

theorem Blank.del (h : Blank env w) : Blank env (w.del .indexBinTmp) :=
  h.other (fun _ other => FileProg.get_del_ne other w) rfl

theorem Blank.put (h : Blank env w) (b : Bytes) (time : Nat) : Blank env (w.put .indexBinTmp b time) :=
  h.other (fun _ other => get_put_ne other w b time) rfl

/-- A handle of an open that found the ledger `A`. -/
theorem Tied.onLedger {journalBytes snapshotBytes : Nat} {snapshotId : Option (Nat × Nat)}
    (tied : Tied env w S L good (handle L none journalBytes snapshotBytes snapshotId false) A.published fun _ => False)
    (kept : RecordsKept w L good A) (chunks : ∀ hex, L.chunks[hex]? = A.chunks hex)
    (assets : ∀ name, L.assets[name]? = A.assets name) (lists : A.Lists env f) :
    OnLedger env w (handle L none journalBytes snapshotBytes snapshotId false) ⟨f, none⟩ where
  ready := by
    refine ⟨A, Ready.of_empty rfl ⟨S, L, good, lists.published ▸ tied, ?_⟩, lists⟩
    exact ⟨⟨tied.canon, kept, chunks, assets, rfl⟩, fun _ _ => rfl⟩
  batch := rfl
  has name := (congrArg Option.isSome (assets name)).trans (lists.assets name)

theorem empty_fits {layout : StoreLayout} : (Index.empty layout).Fits where
  packs := by
    have none : (Index.empty layout).packs = [] := rfl
    simp [none]
  chunks := by simp [Index.empty]
  assets := by simp [Index.empty]
  chunk hex info found := by simp [Index.empty] at found
  asset name chunks found := by simp [Index.empty] at found
  record name pack offset len found := by simp [Index.empty] at found
  generation := by simp [Index.empty]

theorem empty_canon {layout : StoreLayout} : (Index.empty layout).Canon where
  chunk hex info found := by simp [Index.empty] at found
  asset name chunks found := by simp [Index.empty] at found

/-- The first load writes a snapshot of the empty ledger. -/
theorem loadIndex_fresh {C : Disk → Prop} {Q : Except StoreError (Index × Nat) → Unit → Disk → Prop}
    (blank : Blank env w) (crash : ∀ v, Blank env v → C v)
    (next : ∀ now time, let index := Index.empty (layout.getD .loose)
      let v := (w.put .indexBinTmp (encodeIndex env index now) time).move .indexBinTmp .indexBin
        ⟨encodeIndex env index now, time⟩
      C v ∧ Q (.ok (index, (encodeIndex env index now).length)) () v) :
    (loadIndex env layout false : M Unit (Index × Nat)).Wp (fitting env) C Q () w := by
  have here := crash w blank
  have absent : ∀ p : Path, p.isLedger = true → ¬ (w.get p).isSome := fun p ledger => by simp [blank.bare p ledger]
  have nothing : (loadLedger env : M Unit (Option (Index × LedgerSource))).Wp (fitting env) C
      (fun r _ v => v = w ∧ r = .ok none) () w := by
    refine (wp_present here (wp_ite (fun there => absurd there (absent _ rfl)) fun _ => ?_)).then
    refine (wp_present here (wp_ite (fun there => absurd there (absent _ rfl)) fun _ => ?_)).then
    refine (wp_present here (wp_ite (fun there => ?_) fun _ => ?_)).then
    · rw [blank.json] at there
      cases there
    · exact ⟨here, rfl, rfl⟩
  refine nothing.seq (fun found _ v _ => ?_) fun e _ v => ?_
  swap
  · rintro ⟨-, bad⟩
    cases bad
  rintro ⟨rfl, same⟩
  cases same
  have strays : (removeStrayJournals : M Unit Unit).Wp (fitting env) C (fun r _ u => u = v ∧ r = .ok ()) () v := by
    refine (wp_remove here (fun there => absurd there (absent _ rfl)) (fun _ => ?_) fun _ => ?_).then
    all_goals exact (wp_remove here (fun there => absurd there (absent _ rfl)) (fun _ => ⟨here, rfl, rfl⟩)
      fun _ => ⟨here, rfl, rfl⟩).then
  refine strays.seq (fun _ _ u _ => ?_) fun e _ u => ?_
  swap
  · rintro ⟨-, bad⟩
    cases bad
  rintro ⟨rfl, -⟩
  refine (wp_nowEpoch here fun now => ?_).then
  refine (wp_write rfl here (fun n time => crash _ (blank.put _ time)) (fun time => ?_) fun may => False.elim may).then
  have tmp := crash _ (blank.put (encodeIndex env (Index.empty (layout.getD .loose)) now) time)
  refine wp_good (wp_rename rfl tmp (fun file found => ?_) (fun absent => ?_) fun may => False.elim may).then
  · rw [FileProg.get_put_self, Option.some.injEq] at found
    subst found
    obtain ⟨after, last⟩ := next now time
    exact ⟨after, after, last⟩
  · rw [FileProg.get_put_self] at absent
    cases absent

/-- The first snapshot of a store, in the directory it was written to. -/
theorem Blank.stored (blank : Blank env w) (layout : StoreLayout) (now time : Nat) :
    let index := Index.empty layout
    let v := (w.put .indexBinTmp (encodeIndex env index now) time).move .indexBinTmp .indexBin
      ⟨encodeIndex env index now, time⟩
    Named env v ∧ Stored env v index index [] ∧ 0 < (encodeIndex env index now).length ∧ (v.get .indexBin).isSome := by
  intro index v
  have reads : decodeIndexVersioned env (encodeIndex env index now) = .ok (index, 2) :=
    decodeIndexVersioned_encodeIndex empty_fits empty_canon now
  have bin : v.get .indexBin = some ⟨encodeIndex env index now, time⟩ := FileProg.get_move_self ..
  have other : ∀ p : Path, p ≠ .indexBin → p ≠ .indexBinTmp → v.get p = w.get p := fun p notBin notTmp => by
    rw [FileProg.get_move_ne notBin notTmp, get_put_ne notTmp]
  have gone : ∀ p : Path, p.isLedger = true → p ≠ .indexBin → v.get p = none := fun p ledger notBin =>
    (other p notBin (by rintro rfl; cases ledger)).trans (blank.bare p ledger)
  refine ⟨fun pack file there => ?_, ⟨gone _ rfl (by simp), .live bin reads, ?_, ?_⟩, decoded_long reads, ?_⟩
  · rw [other _ (by simp) (by simp)] at there
    exact blank.named pack file there
  · rw [FileProg.bytes_of_absent (gone _ rfl (by simp))]
    exact Logged.empty
  · rw [FileProg.bytes_of_absent (gone _ rfl (by simp))]
    exact Skipped.nil
  · rw [bin]
    rfl

theorem checkLayout_fresh (there : Bool) :
    checkLayout layout (Index.empty (layout.getD .loose)).layout there = .ok () := by
  cases layout with
  | none => rfl
  | some layout => simp [checkLayout, Index.empty]

/-- The first open makes a store with nothing in it. -/
theorem Blank.opens (blank : Blank env w) :
    (openWithLayout env layout : M Unit GlobalStore).Wp (fitting env) (fun v => AtRest env v Shelf.empty.saved)
      (fun r _ v => ∃ s, r = .ok s ∧ OnLedger env v s .empty) () w := by
  have crash : ∀ v, Blank env v → AtRest env v Shelf.empty.saved := fun v blank => .inr ⟨blank, rfl⟩
  have here := crash w blank
  refine (wp_present here (wp_ite (fun there => ?_) fun _ => ?_)).then
  · rw [blank.bare .segCurrent rfl] at there
    cases there
  refine Wp.seq (R := fun r _ v => Blank env v ∧ r = .ok ()) (Wp.then ?_) ?_ ?_
  · exact wp_remove here (fun _ => ⟨crash _ blank.del, crash _ blank.del, blank.del, rfl⟩)
      (fun _ => ⟨here, blank, rfl⟩) fun _ => ⟨here, blank, rfl⟩
  swap
  · rintro e _ v ⟨-, bad⟩
    cases bad
  rintro _ _ u _ ⟨blank, -⟩
  refine Wp.then (loadIndex_fresh blank crash fun now time => ?_)
  obtain ⟨named, stored, long, bin⟩ := blank.stored (layout.getD .loose) now time
  intro index v
  have lists : (index.ledger (Shelf.bytes env Shelf.empty.saved)).Lists env Shelf.empty.saved := ⟨rfl, fun name => by
    have none_ : index.assets[name]? = none := ExtTreeMap.getElem?_empty
    exact congrArg Option.isSome none_⟩
  have kept : RecordsKept v index [] (index.ledger (Shelf.bytes env Shelf.empty.saved)) := fun name chunks listed => by
    have none_ : index.assets[name]? = none := ExtTreeMap.getElem?_empty
    have listed : index.assets[name]? = some chunks := listed
    rw [none_] at listed
    cases listed
  have recovers : Recovers env v (index.ledger (Shelf.bytes env Shelf.empty.saved)) :=
    ⟨named, index, index, [], stored, empty_canon, kept, fun _ => rfl, fun _ => rfl⟩
  refine ⟨.inl ⟨_, recovers, lists⟩, openRest_wp ⟨named, stored, empty_canon, kept⟩ (fun _ => rfl) (fun _ => rfl)
    (.inl ⟨long, rfl, bin⟩) (fun v recovers => .inl ⟨_, recovers, lists⟩) (fun e v there bad _ => ?_)
    fun v _ _ _ tied kept => ⟨_, rfl, tied.onLedger kept (fun _ => rfl) (fun _ => rfl) lists⟩⟩
  rw [checkLayout_fresh] at bad
  cases bad

/-- A later open finds what was saved, unless it asks for another layout. -/
theorem OnDisk.opens (h : OnDisk env w f) :
    (openWithLayout env layout : M Unit GlobalStore).Wp (fitting env) (fun v => AtRest env v f)
      (fun r _ v => match r with
        | .ok s => OnLedger env v s ⟨f, none⟩
        | .error _ => AtRest env v f) () w := by
  obtain ⟨A, recovers, lists⟩ := h
  exact openWithLayout_wp recovers (fun v recovers => .inl ⟨A, recovers, lists⟩)
    (fun e v recovers => .inl ⟨A, recovers, lists⟩)
    fun v base L good _ _ _ tied chunks assets kept => tied.onLedger kept chunks assets lists

theorem AtRest.opens (h : AtRest env w f) :
    (openWithLayout env layout : M Unit GlobalStore).Wp (fitting env) (fun v => AtRest env v f)
      (fun r _ v => match r with
        | .ok s => OnLedger env v s ⟨f, none⟩
        | .error _ => AtRest env v f) () w := by
  rcases h with onDisk | ⟨blank, rfl⟩
  · exact onDisk.opens
  · refine blank.opens.mono (fun _ => id) ?_
    rintro _ _ v ⟨s, rfl, on⟩
    exact on

end Opens

section Reads
variable {env : Env} {w : Disk} {s : GlobalStore} {t : Shelf} {name : String} {record : AssetRecord}

/-- A read of an asset that is not held back gives the record of the shelf. -/
theorem OnLedger.reads (h : OnLedger env w s t) (free : ∀ r ∈ t.held, r.name ≠ name) (listed : t.now name = some record) :
    (assetRecordBytes name).Wp (fitting env) (fun _ => True) (fun r _ _ => r = .ok (env.recordJson record)) s w := by
  refine wp_see ?_
  have has := h.has name
  rw [listed] at has
  obtain ⟨chunks, found⟩ := Option.isSome_iff_exists.mp has
  obtain ⟨A, ⟨⟨S, L, good, tied, -⟩, -⟩, -⟩ := h.ready
  have unqueued : ¬ Queued s name := by
    rintro ⟨r, mem, same⟩
    refine free r ?_ same
    rwa [queue, h.batch] at mem
  have bytes : Shelf.bytes env t.now name = some (env.recordJson record) := by
    rw [Shelf.bytes, listed]
    rfl
  obtain ⟨b, published, staged | ⟨unstaged, ref, placed, reads⟩⟩ := tied.records name chunks found unqueued
  · rw [bytes, Option.some.injEq] at published
    rw [staged, published]
    exact ⟨trivial, rfl⟩
  · rw [bytes, Option.some.injEq] at published
    rw [unstaged, placed]
    refine readRecordAt_wp trivial (fun may => may) fun r same => ?_
    rw [reads.readBack tied.stored.log, ← published] at same
    cases r with
    | error e => cases same
    | ok b => rw [Option.some.inj same]

end Reads

section Life
variable {env : Env} {w v : Disk} {s : GlobalStore} {t : Shelf} {call : Call} {k k' : Option GlobalStore}
  {e : Event} {events : List Event}

/-- Nothing is collected while a batch holds records back, nor a listed asset taken off. -/
def Call.Mindful (s : GlobalStore) : Call → Prop
  | .unpublish name => (s.index.assets[name]?).isSome → queue s = []
  | .gc _ => queue s = []
  | _ => True

theorem OnLedger.runs (h : OnLedger env w s t) (mindful : call.Mindful s) :
    (call.run env).Wp (fitting env) (CutIn env t call) (fun r s' v => OnLedger env v s' (t.after call r)) s w := by
  have queue : queue s = t.held := by rw [Cavs.queue, h.batch, Shelf.held]
  have here : CutIn env t call w := .inl h.onDisk
  cases call with
  | putChunk hash stored flags lenRaw =>
      exact (h.part (putChunk_quiet hash stored flags lenRaw)).seq (fun _ _ _ c h => ⟨c, h⟩) fun _ _ _ h => h
  | flushPacks => exact h.part flushPacks_quiet
  | publish record => exact h.publish record
  | unpublish name =>
      refine (h.unpublish fun listed => queue ▸ mindful ((h.has name).trans listed)).seq (fun _ _ _ c h => ?_)
        fun e _ _ h => h (.error e)
      exact ⟨c, h (.ok ())⟩
  | gc grace => exact (h.gc (queue ▸ mindful) grace).seq (fun _ _ _ c h => ⟨c, h⟩) fun _ _ _ h => h
  | beginBatch => exact ⟨here, h.begin⟩
  | commitBatch => exact h.commit
  | setPreferredPackSize bytes => exact ⟨here, h.settings _ s.journalBudget⟩
  | setJournalBudget bytes => exact ⟨here, h.settings s.preferredPackSize _⟩

/-- What happens to a directory and the handle its writer has, where nothing fails and what
is saved fits its format. -/
inductive Happens (env : Env) : Event → Disk → Option GlobalStore → Disk → Option GlobalStore → Prop
  | opened {layout : Option StoreLayout} {w v : Disk} {s : GlobalStore} :
      (openWithLayout env layout).Runs (fitting env) () w (.ok s) () v →
      Happens env (.opened layout (.ok ())) w none v (some s)
  | refused {layout : Option StoreLayout} {w v : Disk} {e : StoreError} :
      (openWithLayout env layout).Runs (fitting env) () w (.error e) () v →
      Happens env (.opened layout (.error e)) w none v none
  | cutOpen {layout : Option StoreLayout} {w v : Disk} :
      ((openWithLayout env layout : M Unit GlobalStore) ()).Crashes (fitting env) w v →
      Happens env .cutOpen w none v none
  | called {call : Call} {w v : Disk} {s s' : GlobalStore} {r : Except StoreError Unit} : call.Mindful s →
      (call.run env).Runs (fitting env) s w r s' v → Happens env (.called call r) w (some s) v (some s')
  | cut {call : Call} {w v : Disk} {s : GlobalStore} : call.Mindful s →
      (call.run env s).Crashes (fitting env) w v → Happens env (.cut call) w (some s) v none
  | closed {w : Disk} {s : GlobalStore} : Happens env .closed w (some s) w none

inductive History (env : Env) : List Event → Disk → Option GlobalStore → Disk → Option GlobalStore → Prop
  | nil {w : Disk} {k : Option GlobalStore} : History env [] w k w k
  | cons {e : Event} {events : List Event} {w u v : Disk} {k l m : Option GlobalStore} :
      Happens env e w k u l → History env events u l v m → History env (e :: events) w k v m

/-- The directory, with its handle if there is one, stands for the shelf. -/
def StandsFor (env : Env) (w : Disk) : Option GlobalStore → Shelf → Prop
  | some s, t => OnLedger env w s t
  | none, t => t.batch = none ∧ AtRest env w t.saved

theorem OnLedger.atRest (h : OnLedger env w s t) : AtRest env w t.saved := .inl h.onDisk

/-- What happens is a move of the shelf. -/
theorem Happens.moves (happens : Happens env e w k v k') (stands : StandsFor env w k t) :
    ∃ t', Shelf.Moves e t t' ∧ StandsFor env v k' t' := by
  cases happens with
  | opened run =>
      refine ⟨t.reopen, .opened, ?_⟩
      exact ((wp_iff ..).mp stands.2.opens).2 _ _ _ run
  | refused run =>
      refine ⟨t.reopen, .opened, rfl, ?_⟩
      exact ((wp_iff ..).mp stands.2.opens).2 _ _ _ run
  | cutOpen crash => exact ⟨t.reopen, .cutOpen, rfl, ((wp_iff ..).mp stands.2.opens).1 _ crash⟩
  | called mindful run => exact ⟨_, .called, ((wp_iff ..).mp (OnLedger.runs stands mindful)).2 _ _ _ run⟩
  | cut mindful crash =>
      rcases ((wp_iff ..).mp (OnLedger.runs stands mindful)).1 _ crash with before | after
      · exact ⟨_, .undone, rfl, .inl before⟩
      · exact ⟨_, .done, rfl, .inl after⟩
  | closed =>
      have rest : AtRest env w t.saved := OnLedger.atRest stands
      exact ⟨t.reopen, .closed, rfl, rest⟩

theorem History.moved (history : History env events w k v k') (stands : StandsFor env w k t) :
    ∃ t', Shelf.Moved events t t' ∧ StandsFor env v k' t' := by
  induction history generalizing t with
  | nil => exact ⟨t, .nil, stands⟩
  | cons happens _ ih =>
      obtain ⟨u, move, stands⟩ := happens.moves stands
      obtain ⟨t', moved, stands⟩ := ih stands
      exact ⟨t', .cons move moved, stands⟩

theorem Blank.stands (blank : Blank env w) : StandsFor env w none .empty := ⟨rfl, .inr ⟨blank, rfl⟩⟩

/-- Whatever happened to a directory since before its store was made, its handle lists the assets
of a shelf that the same events move to, and an asset that is not held back reads back as the
record the shelf has. -/
theorem store_keeps_shelf (blank : Blank env w) (history : History env events w none v (some s)) :
    ∃ t, Shelf.Moved events .empty t ∧ (∀ name, (s.index.assets[name]?).isSome = (t.now name).isSome) ∧
      ∀ name record, t.now name = some record → (∀ r ∈ t.held, r.name ≠ name) →
        ∀ r u x, (assetRecordBytes name).Runs (fitting env) s v r u x → r = .ok (env.recordJson record) := by
  obtain ⟨t, moved, on⟩ := history.moved blank.stands
  refine ⟨t, moved, OnLedger.has on, fun name record listed free r u x run => ?_⟩
  exact ((wp_iff ..).mp (OnLedger.reads on free listed)).2 r u x run

/-- A record published outside a batch reads back ever after, across crashes and reopenings,
until something is done to an asset of its name. -/
theorem published_survives {before after : List Event} {v' : Disk} {s' : GlobalStore} {record : AssetRecord}
    (blank : Blank env w) (first : History env before w none v (some s)) (unbatched : s.batch = none)
    (history : History env (.called (.publish record) (.ok ()) :: after) v (some s) v' (some s'))
    (spares : ∀ e ∈ after, e.Spares record.name) :
    ∀ r u x, (assetRecordBytes record.name).Runs (fitting env) s' v' r u x → r = .ok (env.recordJson record) := by
  obtain ⟨t, -, on⟩ := first.moved blank.stands
  have batch : t.batch = none := (OnLedger.batch on).symm.trans unbatched
  obtain ⟨t', moved, on'⟩ := history.moved on
  cases moved with
  | cons move rest =>
      cases move with
      | called =>
          have safe : (t.after (.publish record) (.ok ())).Safe record.name record := by
            rw [Shelf.after, batch]
            exact ⟨if_pos rfl, List.forall_mem_nil _⟩
          have kept := rest.safe spares safe
          intro r u x run
          exact ((wp_iff ..).mp (OnLedger.reads on' kept.free kept.now)).2 r u x run

/-- The handle lists the assets of `f`, and a read of any of them gives its record there. -/
def Offers (env : Env) (w : Disk) (s : GlobalStore) (f : String → Option AssetRecord) : Prop :=
  (∀ name, (s.index.assets[name]?).isSome = (f name).isSome) ∧
  ∀ name record, f name = some record →
    ∀ r u x, (assetRecordBytes name).Runs (fitting env) s w r u x → r = .ok (env.recordJson record)

theorem OnLedger.offers {f : String → Option AssetRecord} (h : OnLedger env w s ⟨f, none⟩) : Offers env w s f :=
  ⟨h.has, fun _ _ listed => ((wp_iff ..).mp (h.reads (List.forall_mem_nil _) listed)).2⟩

/-- A writer cut off in a batch, or in its commit, leaves none of the batch or, in a commit, all of it. -/
theorem batch_all_or_none {before : List Event} {calls : List (Call × Except StoreError Unit)} {last : Call}
    {u : Disk} (blank : Blank env w) (first : History env before w none v (some s)) (unbatched : s.batch = none)
    (batched : ∀ c ∈ calls, c.1.Batched) (inside : last.Batched ∨ last = .commitBatch)
    (batch : History env (.called .beginBatch (.ok ()) :: (calls.map (fun c => .called c.1 c.2) ++ [.cut last]))
      v (some s) u none) :
    ∃ f g, Offers env v s f ∧
      (g = f ∨ last = .commitBatch ∧ g = (publishedIn calls).foldl (fun f record => Shelf.put record f) f) ∧
      ∀ layout s' v', (openWithLayout env layout).Runs (fitting env) () u (.ok s') () v' → Offers env v' s' g := by
  obtain ⟨⟨f, held⟩, -, on⟩ := first.moved blank.stands
  obtain rfl : held = none := (OnLedger.batch on).symm.trans unbatched
  obtain ⟨t, moved, -, rest⟩ := batch.moved on
  refine ⟨f, t.saved, OnLedger.offers on, ?_, fun layout s' v' run => ?_⟩
  · cases moved with
    | cons move moved =>
        cases move with
        | called =>
            have cut : Shelf.Moved [.cut last] ⟨f, some (publishedIn calls)⟩ t := Shelf.Moved.batched moved batched
            cases cut with
            | cons move stays =>
                cases stays
                cases move with
                | undone => exact .inl rfl
                | done =>
                    rcases inside with inside | rfl
                    · left
                      cases last with
                      | putChunk | flushPacks | gc | beginBatch | setPreferredPackSize | setJournalBudget
                      | publish => rfl
                      | unpublish | commitBatch => exact inside.elim
                    · exact .inr ⟨rfl, rfl⟩
  · exact OnLedger.offers (((wp_iff ..).mp rest.opens).2 _ _ _ run)

/-! ## A life on a small disk -/

def loneRecord : AssetRecord := ⟨"a", "", [], [], [], [], "", none, none, []⟩

/-- The operation needs no directory. -/
def rootless : Op Path GlobalStore → Bool
  | .write p _ | .append p _ | .setLen p _ | .remove p | .mkdir p => p.parent.isNone
  | .rename p q => p.parent.isNone && q.parent.isNone
  | _ => true

theorem rootless_parent (o : Op Path GlobalStore) (good : rootless o = true) (p : Path) (touched : o.touches p) :
    p.parent = none := by
  cases o with
  | write q | append q | setLen q | remove q | mkdir q => exact touched ▸ Option.isNone_iff_eq_none.mp good
  | rename q r =>
      obtain ⟨first, second⟩ := Bool.and_eq_true_iff.mp good
      rcases touched with rfl | rfl
      · exact Option.isNone_iff_eq_none.mp first
      · exact Option.isNone_iff_eq_none.mp second
  | _ => exact touched.elim

def ended {α S : Type} : Option ((Except StoreError α × S) × Disk) → Option (α × S × Disk)
  | some ((.ok a, s), w) => some (a, s, w)
  | _ => none

theorem ended_eq {α S : Type} {x : Option ((Except StoreError α × S) × Disk)} {a : α} {s : S} {w : Disk}
    (h : ended x = some (a, s, w)) : x = some ((.ok a, s), w) := by
  rcases x with _ | ⟨⟨e | b, t⟩, v⟩
  · cases h
  · cases h
  · cases h
    rfl

noncomputable def firstOpen : Option (GlobalStore × Unit × Disk) :=
  ended (((openWithLayout countingEnv none : M Unit GlobalStore) ()).execMarked rootless FileProg.World.empty)

/-- The first publish, on the handle of the first open or what a setter makes of it. -/
noncomputable def publishOn (f : GlobalStore → GlobalStore) : Option (Unit × GlobalStore × Disk) :=
  firstOpen.bind fun x => ended ((publishAsset countingEnv loneRecord (f x.1)).execMarked rootless x.2.2)

/-- The open after it, and a read of the asset on the handle it gives. -/
noncomputable def reopened : Option (GlobalStore × Unit × Disk) :=
  (publishOn id).bind fun x => ended (((openWithLayout countingEnv none : M Unit GlobalStore) ()).execMarked rootless x.2.2)

noncomputable def readAgain : Option (Bytes × GlobalStore × Disk) :=
  reopened.bind fun x => ended ((assetRecordBytes "a" x.1).execMarked rootless x.2.2)

/-- What is computed of a handle whose save is to fit. -/
noncomputable def fitsLone (k : GlobalStore) : Bool :=
  let t := staging countingEnv k
  k.seg.isNone && decide (k.index.generation = 0) && decide (stagedBytes k < 2 ^ 32) &&
  decide (0 < k.snapshotBytes ∧ k.journalBytes + (nextRecord countingEnv t).length ≤ k.currentJournalBudget) &&
  t.delta.upserts.isEmpty && t.delta.removals.isEmpty && decide (t.delta.assetPuts = [("a", [])]) &&
  t.delta.assetDels.isEmpty && decide (t.pendingRecords["a"]? = some (strBytes "a")) &&
  decide (t.index.records["a"]? = none) && decide ((t.delta.body t.index t.pendingRecords).length < 2 ^ 32)

/-- The handle with a batch begun. -/
def begun (s : GlobalStore) : GlobalStore := { s with batch := some (s.batch.getD []) }

theorem readAgain_marks : readAgain.any (fun x => x.2.2.marks.all fitsLone) = true := by decide +kernel

set_option maxRecDepth 4000 in
theorem batchPublish_marks : (publishOn begun).any (fun x => x.2.2.marks.all fitsLone) = true := by decide

theorem fits_of_fitsLone {k : GlobalStore} (h : fitsLone k = true) : Fits countingEnv k := by
  simp only [fitsLone, Bool.and_eq_true, decide_eq_true_eq, List.isEmpty_iff, Option.isNone_iff_eq_none] at h
  obtain ⟨⟨⟨⟨⟨⟨⟨⟨⟨⟨mono, generation⟩, small⟩, appends_⟩, upserts⟩, removals⟩, puts⟩, dels⟩, staged⟩, unplaced⟩, body⟩ := h
  refine ⟨fun _ => ⟨by omega, small, fun _ => ?_, fun no => absurd appends_ no, fun no => absurd appends_ no⟩,
    fun seg => absurd mono seg⟩
  have packs : (staging countingEnv k).delta.packs = [] := by
    rw [Delta.packs, upserts]
    rfl
  constructor
  · rw [packs]
    decide
  · rw [upserts]
    decide
  · rw [removals]
    decide
  · rw [puts]
    decide
  · rw [dels]
    decide
  · rw [upserts]
    exact List.forall_mem_nil _
  · rw [puts]
    decide
  · rw [dels]
    exact List.forall_mem_nil _
  · rw [puts]
    decide
  · intro put mem bytes found
    rw [puts, List.mem_singleton] at mem
    subst mem
    rw [staged, Option.some.injEq] at found
    subst found
    decide
  · intro put mem pack offset len found
    rw [puts, List.mem_singleton] at mem
    subst mem
    rw [unplaced] at found
    cases found
  · exact body

theorem blank_empty : Blank countingEnv FileProg.World.empty where
  bare p _ := get_empty p
  json := get_empty _
  named pack file there := by
    rw [get_empty] at there
    cases there

/-- A first open, and a publish that goes well. -/
theorem lone_publish {f : GlobalStore → GlobalStore} {s' : GlobalStore} {v' : Disk}
    (found : publishOn f = some ((), s', v')) (known : ∀ k ∈ v'.marks, fitsLone k = true) :
    ∃ (s : GlobalStore) (v : Disk), s.batch = none ∧
      History countingEnv [.opened none (.ok ())] FileProg.World.empty none v (some s) ∧
      (publishAsset countingEnv loneRecord).Runs (fitting countingEnv) (f s) v (.ok ()) s' v' := by
  have fits : ∀ k ∈ v'.marks, ∀ u, (fitting countingEnv).holds k u := fun k mem _ => fits_of_fitsLone (known k mem)
  obtain ⟨⟨s, _, v⟩, opened, published⟩ := Option.bind_eq_some_iff.mp found
  have ran := ended_eq opened
  have ran' := ended_eq published
  have opens : (openWithLayout countingEnv none).Runs (fitting countingEnv) () FileProg.World.empty (.ok s) () v :=
    execMarked_runs rootless_parent
      (fun k mem => fits k (execMarked_marks ran' k mem)) ran
  have stands := ((wp_iff ..).mp (@Blank.opens countingEnv _ none blank_empty)).2 _ _ _ opens
  obtain ⟨_, same, on⟩ := stands
  cases same
  exact ⟨s, v, on.batch, .cons (.opened opens) .nil, execMarked_runs rootless_parent fits ran'⟩

/-- A publish that its writer outlives by one cut call, and the open after it. -/
def briefly : List Event :=
  [.called (.publish loneRecord) (.ok ()), .cut .flushPacks, .opened none (.ok ())]

/-- What such a writer leaves is read. -/
theorem lone_read : ∃ (s s' u : GlobalStore) (v v' x : Disk) (b : Bytes), s.batch = none ∧
    History countingEnv [.opened none (.ok ())] FileProg.World.empty none v (some s) ∧
    History countingEnv briefly v (some s) v' (some s') ∧
    (assetRecordBytes "a").Runs (fitting countingEnv) s' v' (.ok b) u x := by
  obtain ⟨⟨b, u, x⟩, found, known⟩ := (Option.any_eq_true ..).mp readAgain_marks
  have fits := List.all_eq_true.mp known
  obtain ⟨⟨s', _, v'⟩, again, reads⟩ := Option.bind_eq_some_iff.mp found
  have reads := ended_eq reads
  obtain ⟨⟨_, t, w⟩, publishes, opens⟩ := Option.bind_eq_some_iff.mp again
  have opens := ended_eq opens
  -- What is saved on the way is known at the end.
  have fits' : ∀ k ∈ v'.marks, fitsLone k = true := fun k mem => fits k (execMarked_marks reads k mem)
  obtain ⟨s, v, unbatched, first, runs⟩ := lone_publish publishes fun k mem =>
    fits' k (execMarked_marks opens k mem)
  have cut : (Call.flushPacks.run countingEnv t).Crashes (fitting countingEnv) w w := crashes_here
  have reopens : (openWithLayout countingEnv none).Runs (fitting countingEnv) () w (.ok s') () v' :=
    execMarked_runs rootless_parent (fun k mem _ => fits_of_fitsLone (fits' k mem)) opens
  exact ⟨s, s', u, v, v', x, b, unbatched, first,
    .cons (.called trivial runs) (.cons (.cut trivial cut) (.cons (.opened reopens) .nil)),
    execMarked_runs rootless_parent (fun k mem _ => fits_of_fitsLone (fits k mem)) reads⟩

theorem History.append {before : List Event} {u : Disk} {l : Option GlobalStore}
    (first : History env before w k u l) (rest : History env events u l v k') :
    History env (before ++ events) w k v k' := by
  induction first with
  | nil => exact rest
  | cons happens _ ih => exact .cons happens (ih rest)

theorem store_keeps_shelf_lone : ∃ (s u : GlobalStore) (v x : Disk) (t : Shelf),
    Shelf.Moved (.opened none (.ok ()) :: briefly) .empty t ∧
      (∀ name, (s.index.assets[name]?).isSome = (t.now name).isSome) ∧ t.now "a" = some loneRecord ∧
      (assetRecordBytes "a").Runs (fitting countingEnv) s v (.ok (strBytes "a")) u x := by
  obtain ⟨_, s, u, _, v, x, b, -, first, second, reads⟩ := lone_read
  obtain ⟨t, moved, lists, gives⟩ := store_keeps_shelf blank_empty (first.append second)
  -- The cut call does nothing to the shelf, so it holds the one record.
  have shelf : t = ⟨Shelf.put loneRecord fun _ => none, none⟩ := by
    rcases moved with _ | ⟨⟨⟩, _ | ⟨⟨⟩, _ | ⟨_ | _, _ | ⟨⟨⟩, ⟨⟩⟩⟩⟩⟩ <;> rfl
  have listed : t.now "a" = some loneRecord := shelf ▸ rfl
  have same := gives "a" loneRecord listed (shelf ▸ List.forall_mem_nil _) _ _ _ reads
  exact ⟨s, u, v, x, t, moved, lists, listed, same ▸ reads⟩

theorem published_survives_lone : ∃ (s u : GlobalStore) (v x : Disk),
    (assetRecordBytes "a").Runs (fitting countingEnv) s v (.ok (strBytes "a")) u x := by
  obtain ⟨s, s', u, v, v', x, b, unbatched, first, second, reads⟩ := lone_read
  have spares : ∀ e ∈ [Event.cut .flushPacks, .opened none (.ok ())], e.Spares loneRecord.name := by
    simp [Event.Spares, Call.Spares]
  have same := published_survives blank_empty first unbatched second spares _ _ _ reads
  exact ⟨s', u, v', x, same ▸ reads⟩

theorem batch_all_or_none_lone : ∃ (s : GlobalStore) (v u : Disk) (f g : String → Option AssetRecord),
    Offers countingEnv v s f ∧ (g = f ∨ g = Shelf.put loneRecord f) ∧
      ∀ layout s' v', (openWithLayout countingEnv layout).Runs (fitting countingEnv) () u (.ok s') () v' →
        Offers countingEnv v' s' g := by
  obtain ⟨⟨_, s', v'⟩, found, known⟩ := (Option.any_eq_true ..).mp batchPublish_marks
  obtain ⟨s, v, unbatched, first, runs⟩ := lone_publish found (List.all_eq_true.mp known)
  have begins : (Call.beginBatch.run countingEnv).Runs (fitting countingEnv) s v (.ok ()) (begun s) v := ⟨rfl, rfl⟩
  have cut : (Call.commitBatch.run countingEnv s').Crashes (fitting countingEnv) v' v' := crashes_here
  have batch : History countingEnv [.called .beginBatch (.ok ()), .called (.publish loneRecord) (.ok ()),
      .cut .commitBatch] v (some s) v' none :=
    .cons (.called trivial begins) (.cons (.called trivial runs) (.cons (.cut trivial cut) .nil))
  have inside : ∀ c ∈ [(Call.publish loneRecord, Except.ok (ε := StoreError) ())], c.1.Batched :=
    fun c mem => List.mem_singleton.mp mem ▸ trivial
  obtain ⟨f, g, offers, none_or_all, after⟩ := batch_all_or_none blank_empty first unbatched inside (.inr rfl) batch
  exact ⟨s, v, v', f, g, offers, none_or_all.imp_right And.right, after⟩

end Life
end Cavs
