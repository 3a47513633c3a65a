import Cavs.Collect
import Mathlib.Data.List.Induction

/-!
# A collection beside a writer

The steps of one collection and of one transaction in any order. A transaction puts its
objects, flushes them and publishes a root. What a collection deletes in between is never
one of the objects, if none of them was found lying there as garbage.
-/
namespace Cavs
open FileProg (Bytes File get_del_ne get_put_ne get_put_self)
open Relation (ReflTransGen)

abbrev Object := ObjectKind × Bytes

/-- Where a collection stands: which roots it read, what it marked so far, which ids it
still has to look at. -/
inductive Collector where
  | idle
  | marking (frozen : List ObjectId) (st : WalkState) (reachable : List ObjectId)
  | marked (frozen reachable : List ObjectId)
  | aged (frozen reachable : List ObjectId) (cutoff : Int)
  | examining (frozen reachable : List ObjectId) (cutoff : Int) (todo candidates : List ObjectId)
  | sweeping (cutoff : Int) (todo : List ObjectId)
  | removing (cutoff : Int) (id : ObjectId) (todo : List ObjectId)
  | finished

/-- Where a transaction stands: what is still to be put, and how far one put got. -/
inductive Writer where
  | putting (todo : List Object)
  | writing (object : Object) (todo : List Object)
  | placing (object : Object) (tmp : Nat) (todo : List Object)
  | flushed
  | finished

/-- The objects a transaction still has to put. -/
def Writer.todo : Writer → List Object
  | .putting todo => todo
  | .writing p todo => p :: todo
  | .placing p _ todo => p :: todo
  | .flushed => []
  | .finished => []

structure Race where
  disk : ObjDisk
  roots : List ObjectId
  now : Nat
  collector : Collector
  writer : Writer

section Steps
variable (hash : Bytes → ChunkHash) (limits : DecodeLimits) (o : GcOptions)

def nameOf (p : Object) : ObjectId := .compute hash p.1 p.2

def markVisit (v : Visit) (reachable : List ObjectId) : List ObjectId :=
  if v.node.isSome then reachable ++ [v.id] else reachable

/-- One step of a collection: one look at the roots, at the clock or at a file. Reading the
roots, a lookup, the listing and a removal may fail, which ends it; a listing taken while
files come may leave some out. -/
inductive CollectStep (roots : List ObjectId) (now : Nat) : ObjDisk → Collector → ObjDisk → Collector → Prop
  | freeze {w} : CollectStep roots now w .idle w (.marking roots (.start roots) [])
  | mark {w frozen st reachable v st'} (h : st.next (lookup limits w) o.walk = .ok (some v, st')) :
      CollectStep roots now w (.marking frozen st reachable) w (.marking frozen st' (markVisit v reachable))
  | marksEnd {w frozen st reachable st'} (h : st.next (lookup limits w) o.walk = .ok (none, st')) :
      CollectStep roots now w (.marking frozen st reachable) w (.marked frozen reachable)
  | age {w frozen reachable} :
      CollectStep roots now w (.marked frozen reachable) w (.aged frozen reachable (cutoffAt now o.grace))
  | list {w frozen reachable cutoff listed} (h : listed ⊆ listObjects w) :
      CollectStep roots now w (.aged frozen reachable cutoff) w (.examining frozen reachable cutoff listed [])
  | examine {w frozen reachable cutoff id todo candidates} :
      CollectStep roots now w (.examining frozen reachable cutoff (id :: todo) candidates) w
        (.examining frozen reachable cutoff todo
          (if spared o w reachable cutoff id then candidates else candidates ++ [id]))
  | nothing {w frozen reachable cutoff} :
      CollectStep roots now w (.examining frozen reachable cutoff [] []) w .finished
  | moved {w frozen reachable cutoff candidates} (h : roots ≠ frozen) :
      CollectStep roots now w (.examining frozen reachable cutoff [] candidates) w .finished
  | confirm {w frozen reachable cutoff candidates} (h : roots = frozen) :
      CollectStep roots now w (.examining frozen reachable cutoff [] candidates) w (.sweeping cutoff candidates)
  | young {w cutoff id todo} (h : writtenSince w id cutoff = true) :
      CollectStep roots now w (.sweeping cutoff (id :: todo)) w (.sweeping cutoff todo)
  | old {w cutoff id todo} (h : writtenSince w id cutoff = false) :
      CollectStep roots now w (.sweeping cutoff (id :: todo)) w (.removing cutoff id todo)
  | remove {w cutoff id todo} :
      CollectStep roots now w (.removing cutoff id todo) (if o.dryRun then w else w.del (.loose id))
        (.sweeping cutoff todo)
  | swept {w cutoff} : CollectStep roots now w (.sweeping cutoff []) w .finished
  | fail {w c} : CollectStep roots now w c w .finished

/-- One step of a transaction before it publishes. An object whose file is there is put by
finding it; any other is written to a temporary file that is renamed into place. -/
inductive WriteStep (now : Nat) : ObjDisk → Writer → ObjDisk → Writer → Prop
  | found {w p todo} (h : Present w (nameOf hash p)) :
      WriteStep now w (.putting (p :: todo)) w (.putting todo)
  | absent {w p todo} (h : ¬ Present w (nameOf hash p)) :
      WriteStep now w (.putting (p :: todo)) w (.writing p todo)
  | write {w p todo n} :
      WriteStep now w (.writing p todo) (w.put (.tmp (nameOf hash p) n) (looseBytes p.1 p.2) now)
        (.placing p n todo)
  | rename {w p todo n f} (h : w.get (.tmp (nameOf hash p) n) = some f) :
      WriteStep now w (.placing p n todo)
        (w.move (.tmp (nameOf hash p) n) (.loose (nameOf hash p)) f) (.putting todo)
  | flush {w} : WriteStep now w (.putting []) w .flushed

/-- The objects of a transaction laid beside what a store holds. -/
def deposit (w : ObjDisk) (objects : List Object) : ObjDisk :=
  objects.foldl (fun w p =>
    if Present w (nameOf hash p) then w else w.put (.loose (nameOf hash p)) (looseBytes p.1 p.2) 0) w

end Steps

/-- What a race is about: a collection of a store with these roots, and a transaction that
puts these objects and publishes the roots `after`, all in the grace period from `began`. -/
structure Setting where
  hash : Bytes → ChunkHash
  limits : DecodeLimits
  gc : GcOptions
  disk : ObjDisk
  roots : List ObjectId
  objects : List Object
  after : List ObjectId
  began : Nat

namespace Setting
variable (S : Setting)

abbrev name (p : Object) : ObjectId := nameOf S.hash p

/-- The store with the objects of the transaction in it. -/
abbrev filled (objects : List Object) : ObjDisk := deposit S.hash S.disk objects

/-- Every object of the transaction belongs to the closure it publishes. -/
def Closes : Prop :=
  ∀ p ∈ S.objects, Reachable (lookup S.limits (S.filled S.objects)) S.after (S.name p)

def start (now : Nat) : Race := ⟨S.disk, S.roots, now, .idle, .putting S.objects⟩

end Setting

/-- One step of either, or of the clock. -/
inductive Race.Step (S : Setting) : Race → Race → Prop
  | time {r : Race} (d : Nat) : Step S r { r with now := r.now + d }
  | collects {r : Race} {w c} (h : CollectStep S.limits S.gc r.roots r.now r.disk r.collector w c) :
      Step S r { r with disk := w, collector := c }
  | writes {r : Race} {w t} (within : S.began ≤ r.now ∧ r.now < S.began + S.gc.grace)
      (h : WriteStep S.hash r.now r.disk r.writer w t) : Step S r { r with disk := w, writer := t }
  | publishes {r : Race} (within : S.began ≤ r.now ∧ r.now < S.began + S.gc.grace)
      (h : r.writer = .flushed) : Step S r { r with roots := S.after, writer := .finished }

/-- When a step of the transaction is safe: a file it finds in place of an object is no
garbage yet, and what it publishes is new. -/
def Race.Fit (S : Setting) (r : Race) : Prop :=
  match r.writer with
  | .putting (p :: _) => ∀ f, r.disk.get (.loose (S.name p)) = some f →
      Reachable (lookup S.limits S.disk) S.roots (S.name p) ∨ S.name p ∈ S.gc.leases ∨ S.began ≤ f.mtime
  | .flushed => S.after ≠ r.roots
  | _ => True

/-- Any number of steps, those of the transaction safe: they alone move the writer. -/
abbrev Race.FitRun (S : Setting) : Race → Race → Prop :=
  ReflTransGen fun r r' => (r'.writer ≠ r.writer → r.Fit S) ∧ Race.Step S r r'

section Files
variable {limits : DecodeLimits} {v w u : ObjDisk} {hash : Bytes → ChunkHash} {l : List Object} {p : Object}
  {id : ObjectId}

/-- The object files of two disks hold the same bytes. -/
def Alike (v w : ObjDisk) : Prop :=
  ∀ id, (v.get (.loose id)).map File.bytes = (w.get (.loose id)).map File.bytes

theorem Alike.present (h : Alike v w) : Present v id ↔ Present w id := by
  have := congrArg Option.isSome (h id)
  rw [Option.isSome_map, Option.isSome_map] at this
  rw [Present, Present, this]

theorem lookup_eq : lookup limits w id = match (w.get (.loose id)).map File.bytes with
    | some raw => (looseNode limits id raw).map some
    | none => .ok none := by
  unfold lookup
  cases w.get (.loose id) <;> rfl

/-- The object files of `w` are in `v`. -/
def Holds (v w : ObjDisk) : Prop :=
  ∀ id, Present w id → (v.get (.loose id)).map File.bytes = (w.get (.loose id)).map File.bytes

theorem Alike.holds (h : Alike v w) (in_ : Holds w u) : Holds v u :=
  fun id there => (h id).trans (in_ id there)

theorem Holds.present (h : Holds v w) (there : Present w id) : Present v id := by
  have := congrArg Option.isSome (h id there)
  rw [Option.isSome_map, Option.isSome_map] at this
  exact this.trans there

theorem Holds.lookup (h : Holds v w) {node : ObjectNode} (found : lookup limits w id = .ok (some node)) :
    lookup limits v id = .ok (some node) := by
  have there : Present w id := by
    rw [Present, Option.isSome_iff_ne_none]
    intro none
    rw [Cavs.lookup, none] at found
    cases found
  rw [← found, lookup_eq, lookup_eq, h id there]

theorem deposit_snoc : deposit hash w (l ++ [p]) =
    if Present (deposit hash w l) (nameOf hash p) then deposit hash w l
    else (deposit hash w l).put (.loose (nameOf hash p)) (looseBytes p.1 p.2) 0 := by
  rw [deposit, List.foldl_append]
  rfl

theorem deposit_get (there : Present w id) : (deposit hash w l).get (.loose id) = w.get (.loose id) := by
  induction l using List.reverseRecOn with
  | nil => rfl
  | append_singleton l p ih =>
      rw [deposit_snoc]
      split
      · exact ih
      · rename_i absent
        rw [get_put_ne, ih]
        rintro same
        cases same
        refine absent ?_
        rw [Present, ih]
        exact there

theorem deposit_holds : Holds (deposit hash w l) w := fun _ there => by rw [deposit_get there]

theorem deposit_present (mem : p ∈ l) : Present (deposit hash w l) (nameOf hash p) := by
  induction l using List.reverseRecOn with
  | nil => cases mem
  | append_singleton l q ih =>
      rw [deposit_snoc]
      rcases List.mem_append.mp mem with mem | mem
      · split
        · exact ih mem
        · rename_i absent
          rw [Present, get_put_ne]
          · exact ih mem
          · intro same
            rw [ObjPath.loose.injEq] at same
            exact absent (same ▸ ih mem)
      · cases List.mem_singleton.mp mem
        split
        · assumption
        · simp [Present]

end Files

section Marks
variable {limits : DecodeLimits} {b w : ObjDisk} {roots reachable : List ObjectId} {st st' : WalkState} {v : Visit}

/-- What a collection marked so far of the graph of `b`, while files are added to it. -/
structure Marks (limits : DecodeLimits) (b : ObjDisk) (roots : List ObjectId) (st : WalkState)
    (reachable : List ObjectId) : Prop where
  start : ∀ r ∈ roots, r ∈ st.visited ∨ r ∈ ids st.pending
  closed : ∀ x ∈ st.visited, ∀ y, Edge (lookup limits b) x y → y ∈ st.visited ∨ y ∈ ids st.pending
  found : ∀ x ∈ st.visited, Present b x → x ∈ reachable

def Covers (limits : DecodeLimits) (b : ObjDisk) (roots reachable : List ObjectId) : Prop :=
  ∀ x, Reachable (lookup limits b) roots x → Present b x → x ∈ reachable

theorem Marks.init : Marks limits b roots (.start roots) [] where
  start r mem := (@Walked.init (lookup limits b) _ fun _ => False).start r mem
  closed _ mem := (List.not_mem_nil mem).elim
  found _ mem := (List.not_mem_nil mem).elim

/-- A look at a disk that holds the files of `b` sees the graph of `b`. -/
theorem Marks.visits (h : Marks limits b roots st reachable) (holds : Holds w b)
    (step : Visits (lookup limits w) st v st') : Marks limits b roots st' (markVisit v reachable) := by
  obtain ⟨pushed, rest, split, -, sub, all, deps⟩ := step.stack
  refine ⟨fun r mem => ?_, fun x mem y e => ?_, fun x mem there => ?_⟩
  · rw [split]
    exact step.owed all (h.start r mem)
  · rw [split]
    rw [step.visited] at mem
    cases mem with
    | head =>
        obtain ⟨n, found, dep⟩ := e
        by_cases seen : y ∈ v.id :: st.visited
        · exact .inl (step.visited ▸ seen)
        · refine .inr ?_
          rw [ids, List.map_append, List.mem_append]
          refine .inl ?_
          change y ∈ ids pushed
          have node : v.node = some n := Except.ok.inj (step.node.symm.trans (holds.lookup found))
          rw [deps, node]
          exact List.mem_filter.mpr ⟨dep, decide_eq_true seen⟩
    | tail _ mem => exact step.owed all (h.closed x mem y e)
  · rw [step.visited] at mem
    rw [markVisit]
    cases mem with
    | head =>
        obtain ⟨f, file⟩ := Option.isSome_iff_exists.mp (holds.present there)
        have looked := step.node
        rw [lookup, file] at looked
        have isSome : v.node.isSome := by
          cases node : looseNode limits v.id f.bytes with
          | error e => simp [node, Except.map] at looked
          | ok n => simp [node, Except.map] at looked; rw [← looked]; rfl
        rw [if_pos isSome]
        exact List.mem_append_right _ (List.mem_singleton_self _)
    | tail _ mem =>
        split
        · exact List.mem_append_left _ (h.found x mem there)
        · exact h.found x mem there

theorem Marks.covers (h : Marks limits b roots st reachable) (done : ∀ x ∈ ids st.pending, x ∈ st.visited) :
    Covers limits b roots reachable := by
  rintro x ⟨r, mem, path⟩ there
  refine h.found x ?_ there
  clear there
  induction path with
  | refl => exact (h.start r mem).elim id (done r)
  | tail _ e ih => exact (h.closed _ ih _ e).elim (fun h => h) (done _)

end Marks

section Invariant
variable {S : Setting} {fin fin' : Prop} {done : List Object} {disk v w : ObjDisk} {c : Collector}
  {frozen : List ObjectId} {b : ObjDisk} {cutoff : Int} {todo : List ObjectId} {p : Object} {id : ObjectId}
  {now : Nat}

/-- What the objects of a transaction are kept by until it is finished. -/
def Setting.Shields (S : Setting) (id : ObjectId) (f : File) : Prop :=
  (Reachable (lookup S.limits S.disk) S.roots id ∧ Present S.disk id) ∨ id ∈ S.gc.leases ∨ S.began ≤ f.mtime

/-- Which graph a collection with these roots marks: that of the start, or the one that the
finished transaction left. -/
def Setting.View (S : Setting) (fin : Prop) (frozen : List ObjectId) (b : ObjDisk) : Prop :=
  frozen = S.roots ∧ b = S.disk ∨ fin ∧ frozen = S.after ∧ b = S.filled S.objects

/-- Why the ids on a list may go: they are old and nothing shields them, or the transaction
is finished and they are none of its objects. -/
def Setting.Spares (S : Setting) (fin : Prop) (cutoff : Int) (todo : List ObjectId) : Prop :=
  (cutoff < S.began ∧ ∀ x ∈ todo, ¬ (Reachable (lookup S.limits S.disk) S.roots x ∧ Present S.disk x) ∧
    x ∉ S.gc.leases) ∨
  fin ∧ ∀ x ∈ todo, ∀ p ∈ S.objects, S.name p ≠ x

/-- What a collection knows at each of its steps, when `done` was put; `fin` says whether the
transaction is finished. -/
def Setting.Stands (S : Setting) (fin : Prop) (done : List Object) (disk : ObjDisk) : Collector → Prop
  | .idle => Alike disk (S.filled done)
  | .marking frozen st reachable => Alike disk (S.filled done) ∧
      ∃ b, S.View fin frozen b ∧ Marks S.limits b frozen st reachable
  | .marked frozen reachable => Alike disk (S.filled done) ∧
      ∃ b, S.View fin frozen b ∧ Covers S.limits b frozen reachable
  | .aged frozen reachable cutoff => Alike disk (S.filled done) ∧ (cutoff < S.began ∨ fin) ∧
      ∃ b, S.View fin frozen b ∧ Covers S.limits b frozen reachable
  | .examining frozen reachable cutoff _ candidates => Alike disk (S.filled done) ∧ (cutoff < S.began ∨ fin) ∧
      (∃ b, S.View fin frozen b ∧ Covers S.limits b frozen reachable) ∧
      ∀ x ∈ candidates, x ∉ reachable ∧ x ∉ S.gc.leases
  | .sweeping cutoff todo => S.Spares fin cutoff todo
  | .removing cutoff id todo => S.Spares fin cutoff (id :: todo) ∧
      ∃ f, disk.get (.loose id) = some f ∧ (f.mtime : Int) ≤ cutoff
  | .finished => True

theorem Setting.View.mono (h : S.View fin frozen b) (grows : fin → fin') : S.View fin' frozen b :=
  h.imp_right fun h => ⟨grows h.1, h.2⟩

theorem Setting.Spares.mono (h : S.Spares fin cutoff todo) (grows : fin → fin') : S.Spares fin' cutoff todo :=
  h.imp_right fun h => ⟨grows h.1, h.2⟩

theorem Setting.Spares.tail (h : S.Spares fin cutoff (id :: todo)) : S.Spares fin cutoff todo :=
  h.imp (fun h => ⟨h.1, fun x mem => h.2 x (.tail _ mem)⟩) fun h => ⟨h.1, fun x mem => h.2 x (.tail _ mem)⟩

/-- A collection goes on knowing what it knew when the transaction ends or puts an object:
no file it looked at changes. -/
theorem Setting.Stands.next {done' : List Object} (h : S.Stands fin done disk c) (grows : fin → fin')
    (alike : Alike disk (S.filled done) → Alike v (S.filled done'))
    (stays : ∀ id f, disk.get (.loose id) = some f → v.get (.loose id) = some f) : S.Stands fin' done' v c := by
  have view : ∀ {P : ObjDisk → Prop} {frozen}, (∃ b, S.View fin frozen b ∧ P b) → ∃ b, S.View fin' frozen b ∧ P b :=
    fun ⟨b, view, p⟩ => ⟨b, view.mono grows, p⟩
  cases c with
  | idle => exact alike h
  | marking frozen st reachable => exact ⟨alike h.1, view h.2⟩
  | marked frozen reachable => exact ⟨alike h.1, view h.2⟩
  | aged frozen reachable cutoff => exact ⟨alike h.1, h.2.1.imp_right grows, view h.2.2⟩
  | examining frozen reachable cutoff todo candidates =>
      exact ⟨alike h.1, h.2.1.imp_right grows, view h.2.2.1, h.2.2.2⟩
  | sweeping cutoff todo => exact h.mono grows
  | removing cutoff id todo =>
      obtain ⟨spares, f, file, old⟩ := h
      exact ⟨spares.mono grows, f, stays id f file, old⟩
  | finished => trivial

/-- What a transaction knows at each of its steps: the object it writes is not there. -/
def Setting.Writes (S : Setting) (disk : ObjDisk) (roots : List ObjectId) : Writer → Prop
  | .putting _ | .flushed => roots = S.roots
  | .writing p _ => roots = S.roots ∧ ¬ Present disk (S.name p)
  | .placing p n _ => roots = S.roots ∧ ¬ Present disk (S.name p) ∧
      ∃ t, disk.get (.tmp (S.name p) n) = some ⟨looseBytes p.1 p.2, t⟩ ∧ S.began ≤ t
  | .finished => roots = S.after ∧ S.after ≠ S.roots

/-- The race is going well after `done` was put. -/
structure Race.Live (S : Setting) (done : List Object) (r : Race) : Prop where
  rest : S.objects = done ++ r.writer.todo
  kept : ∀ p ∈ done, ∃ f, r.disk.get (.loose (S.name p)) = some f ∧ S.Shields (S.name p) f
  files : ∀ id f, r.disk.get (.loose id) = some f → S.disk.get (.loose id) = some f ∨ S.began ≤ f.mtime
  writer : S.Writes r.disk r.roots r.writer
  collector : S.Stands (r.writer = .finished) done r.disk r.collector

/-- The transaction has run out of time. -/
def Race.Late (S : Setting) (r : Race) : Prop := r.writer ≠ .finished ∧ S.began + S.gc.grace ≤ r.now

theorem cutoffAt_lt {grace began : Nat} (past : 0 < began) (h : now < began + grace) :
    cutoffAt now grace < began := by
  unfold cutoffAt
  split <;> omega

/-- A removal takes none of the objects that were put. -/
theorem Setting.Spares.removes {f g : File} (h : S.Spares fin cutoff (id :: todo))
    (file : disk.get (.loose id) = some f) (old : (f.mtime : Int) ≤ cutoff) (mem : p ∈ S.objects)
    (found : disk.get (.loose (S.name p)) = some g) (shields : S.Shields (S.name p) g) : S.name p ≠ id := by
  rintro rfl
  rcases h with ⟨early, none⟩ | ⟨-, other⟩
  · obtain ⟨unreached, unleased⟩ := none _ (.head _)
    rcases shields with reached | leased | young
    · exact unreached reached
    · exact unleased leased
    · rw [file, Option.some.injEq] at found
      subst found
      omega
  · exact other _ (.head _) p mem rfl

variable {r r' : Race}

/-- The race goes well from the start. -/
theorem Race.live_start (now : Nat) : (S.start now).Live S [] where
  rest := rfl
  kept _ mem := (List.not_mem_nil mem).elim
  files _ _ found := .inl found
  writer := rfl
  collector _ := rfl

/-- What a collection does to a race that goes well and has time left. -/
theorem Race.Live.collects (h : r.Live S done) (open_ : S.gc.walk.kinds.isUnrestricted = true)
    (closes : S.Closes) (past : 0 < S.began) (early : ¬ r.Late S) {w c}
    (step : CollectStep S.limits S.gc r.roots r.now r.disk r.collector w c) :
    ({ r with disk := w, collector := c } : Race).Live S done := by
  obtain ⟨disk, roots, now, collector, writer⟩ := r
  obtain ⟨rest, kept, files, writes, stands⟩ := h
  dsimp only at *
  -- A step that leaves the files alone only has to say what the collection knows next.
  have quiet : w = disk → S.Stands (writer = .finished) done disk c →
      (⟨w, roots, now, c, writer⟩ : Race).Live S done := by
    rintro rfl stands
    exact ⟨rest, kept, files, writes, stands⟩
  have view : ∀ {frozen b}, S.View (writer = .finished) frozen b → Alike disk (S.filled done) → Holds disk b := by
    rintro frozen b (⟨-, rfl⟩ | ⟨rfl, -, rfl⟩) alike
    · exact alike.holds deposit_holds
    · have all : S.objects = done := by simpa [Writer.todo] using rest
      exact all ▸ alike.holds fun _ _ => rfl
  cases step with
  | freeze =>
      refine quiet rfl ⟨stands, ?_⟩
      cases writer with
      | finished => exact ⟨_, .inr ⟨rfl, writes.1, rfl⟩, Marks.init⟩
      | putting | flushed => exact ⟨_, .inl ⟨writes, rfl⟩, Marks.init⟩
      | writing | placing => exact ⟨_, .inl ⟨writes.1, rfl⟩, Marks.init⟩
  | mark next =>
      obtain ⟨alike, b, seen, marks⟩ := stands
      exact quiet rfl ⟨alike, b, seen, marks.visits (view seen alike) (nextVisit_some open_ next)⟩
  | marksEnd next =>
      obtain ⟨alike, b, seen, marks⟩ := stands
      exact quiet rfl ⟨alike, b, seen, marks.covers (nextVisit_none open_ next).1⟩
  | age =>
      obtain ⟨alike, b, seen, covers⟩ := stands
      refine quiet rfl ⟨alike, ?_, b, seen, covers⟩
      by_cases fin : writer = .finished
      · exact .inr fin
      · refine .inl (cutoffAt_lt past ?_)
        by_contra late
        exact early ⟨fin, Nat.le_of_not_lt late⟩
  | list => exact quiet rfl ⟨stands.1, stands.2.1, stands.2.2, fun x mem => (List.not_mem_nil mem).elim⟩
  | @examine frozen reachable cutoff id todo candidates =>
      obtain ⟨alike, fresh, seen, sorted⟩ := stands
      refine quiet rfl ⟨alike, fresh, seen, fun x mem => ?_⟩
      split at mem
      · exact sorted x mem
      · rename_i spare
        rcases List.mem_append.mp mem with mem | mem
        · exact sorted x mem
        · cases List.mem_singleton.mp mem
          simp only [spared, Bool.not_eq_true, Bool.or_eq_false_iff, decide_eq_false_iff_not] at spare
          exact spare.1
  | nothing => exact quiet rfl trivial
  | moved => exact quiet rfl trivial
  | @confirm frozen reachable cutoff candidates same =>
      obtain ⟨alike, fresh, ⟨b, seen, covers⟩, sorted⟩ := stands
      refine quiet rfl ?_
      subst same
      by_cases fin : writer = .finished
      · -- The roots are what the transaction published: its objects were marked.
        subst fin
        obtain ⟨now', moved⟩ := writes
        rcases seen with ⟨old, -⟩ | ⟨-, -, rfl⟩
        · exact absurd (now'.symm.trans old) moved
        · refine .inr ⟨rfl, fun x mem p put same => (sorted x mem).1 (covers x ?_ ?_)⟩
          · rw [← same, now']
            exact closes p put
          · rw [← same]
            exact deposit_present put
      · rcases seen with ⟨old, rfl⟩ | ⟨ends, -⟩
        · refine .inl ⟨fresh.resolve_right fin, fun x mem => ⟨fun reached => ?_, (sorted x mem).2⟩⟩
          exact (sorted x mem).1 (covers x (old ▸ reached.1) reached.2)
        · exact absurd ends fin
  | young => exact quiet rfl stands.tail
  | @old cutoff id todo stale =>
      refine quiet rfl ⟨stands, ?_⟩
      unfold writtenSince at stale
      split at stale
      · rename_i f file
        exact ⟨f, file, by simpa using stale⟩
      · cases stale
  | @remove cutoff id todo =>
      obtain ⟨spares, f, file, old⟩ := stands
      split
      · exact ⟨rest, kept, files, writes, spares.tail⟩
      refine ⟨rest, fun p mem => ?_, fun x g found => ?_, ?_, spares.tail⟩
      · obtain ⟨g, found, shields⟩ := kept p mem
        have put : p ∈ S.objects := by
          rw [rest]
          exact List.mem_append_left _ mem
        have other := spares.removes file old put found shields
        exact ⟨g, by rw [get_del_ne (by simpa using other)]; exact found, shields⟩
      · by_cases same : x = id
        · subst same
          rw [FileProg.get_del_self] at found
          cases found
        · exact files x g (by rwa [get_del_ne (by simpa using same)] at found)
      · have absent : ∀ {q}, ¬ Present disk q → ¬ Present (disk.del (.loose id)) q := by
          intro q none
          by_cases same : q = id
          · subst same
            simp [Present]
          · rw [Present, get_del_ne (by simpa using same)]
            exact none
        cases writer with
        | putting | flushed | finished => exact writes
        | writing => exact ⟨writes.1, absent writes.2⟩
        | placing p n todo =>
            obtain ⟨same, none, t, tmp, began⟩ := writes
            exact ⟨same, absent none, t, by rw [get_del_ne (by simp)]; exact tmp, began⟩
  | swept => exact quiet rfl trivial
  | fail => exact quiet rfl trivial

/-- What a safe step of the transaction does to a race that goes well. -/
theorem Race.Live.writes (h : r.Live S done) (fit : r.Fit S) (began : S.began ≤ r.now) {w t}
    (step : WriteStep S.hash r.now r.disk r.writer w t) :
    ∃ done', ({ r with disk := w, writer := t } : Race).Live S done' := by
  obtain ⟨disk, roots, now, collector, writer⟩ := r
  obtain ⟨rest, kept, files, writes, stands⟩ := h
  dsimp only [Race.Fit] at *
  cases step with
  | @found p todo there =>
      obtain ⟨f, file⟩ := Option.isSome_iff_exists.mp there
      have shields : S.Shields (S.name p) f := by
        rcases files _ f file with old | young
        · refine (fit f file).imp_left fun reached => ⟨reached, ?_⟩
          rw [Present, old]
          rfl
        · exact .inr (.inr young)
      refine ⟨done ++ [p], by rw [rest]; simp [Writer.todo], fun q mem => ?_, files, writes, ?_⟩
      · rcases List.mem_append.mp mem with mem | mem
        · exact kept q mem
        · cases List.mem_singleton.mp mem
          exact ⟨f, file, shields⟩
      · refine stands.next (fun fin => by cases fin) (fun alike => ?_) fun _ _ file => file
        rw [Setting.filled, deposit_snoc, if_pos (alike.present.mp there)]
        exact alike
  | @absent p todo none =>
      exact ⟨done, rest, kept, files, ⟨writes, none⟩,
        stands.next (fun fin => by cases fin) (fun alike => alike) fun _ _ file => file⟩
  | @write p todo n =>
      have same : ∀ id, (disk.put (.tmp (nameOf S.hash p) n) (looseBytes p.1 p.2) now).get (.loose id) =
          disk.get (.loose id) := fun id => get_put_ne (by simp) ..
      refine ⟨done, rest, fun q mem => ?_, fun id f file => files id f ((same id).symm.trans file),
        ⟨writes.1, ?_, now, get_put_self .., began⟩, ?_⟩
      · obtain ⟨f, file, shields⟩ := kept q mem
        exact ⟨f, (same _).trans file, shields⟩
      · rw [Present, same]
        exact writes.2
      · refine stands.next (fun fin => by cases fin) (fun alike id => ?_) fun id f file => (same id).trans file
        rw [same]
        exact alike id
  | @rename p todo n f file =>
      obtain ⟨old, none, time, tmp, young⟩ := writes
      cases file.symm.trans tmp
      have absent : disk.get (.loose (nameOf S.hash p)) = Option.none := by simpa [Present] using none
      generalize hv : disk.move (.tmp (nameOf S.hash p) n) (.loose (nameOf S.hash p))
        ⟨looseBytes p.1 p.2, time⟩ = v
      have here : v.get (.loose (nameOf S.hash p)) = some ⟨looseBytes p.1 p.2, time⟩ := by
        rw [← hv]
        exact FileProg.get_move_self ..
      have other : ∀ {id}, id ≠ nameOf S.hash p → v.get (.loose id) = disk.get (.loose id) := fun ne => by
        rw [← hv]
        exact FileProg.get_move_ne (by simpa using ne) (by simp) ..
      have stays : ∀ id f, disk.get (.loose id) = some f → v.get (.loose id) = some f := by
        intro id f found
        refine (other ?_).trans found
        rintro rfl
        rw [absent] at found
        cases found
      refine ⟨done ++ [p], by rw [rest]; simp [Writer.todo], fun q mem => ?_, fun id g found => ?_, old, ?_⟩
      · rcases List.mem_append.mp mem with mem | mem
        · obtain ⟨g, found, shields⟩ := kept q mem
          exact ⟨g, stays _ g found, shields⟩
        · cases List.mem_singleton.mp mem
          exact ⟨_, here, .inr (.inr young)⟩
      · by_cases same : id = nameOf S.hash p
        · subst same
          rw [here, Option.some.injEq] at found
          subst found
          exact .inr young
        · exact files id g ((other same).symm.trans found)
      · refine stands.next (fun fin => by cases fin) (fun alike id => ?_) stays
        have new : ¬ Present (S.filled done) (nameOf S.hash p) := fun there => none (alike.present.mpr there)
        rw [Setting.filled, deposit_snoc, if_neg new]
        by_cases same : id = nameOf S.hash p
        · subst same
          rw [here, get_put_self]
          rfl
        · rw [other same, get_put_ne (by simpa using same)]
          exact alike id
  | flush =>
      exact ⟨done, rest, kept, files, writes,
        stands.next (fun fin => by cases fin) (fun alike => alike) fun _ _ file => file⟩

theorem Race.Live.publishes (h : r.Live S done) (fit : r.Fit S) (flushed : r.writer = .flushed) :
    ({ r with roots := S.after, writer := .finished } : Race).Live S done := by
  obtain ⟨disk, roots, now, collector, writer⟩ := r
  obtain ⟨rest, kept, files, writes, stands⟩ := h
  dsimp only at flushed
  subst flushed
  exact ⟨rest, kept, files, ⟨rfl, writes ▸ fit⟩,
    stands.next (fun fin => by cases fin) (fun alike => alike) fun _ _ file => file⟩

theorem Race.FitRun.collects {r₀ : Race} {w c} (run : Race.FitRun S r₀ r)
    (step : CollectStep S.limits S.gc r.roots r.now r.disk r.collector w c) :
    Race.FitRun S r₀ { r with disk := w, collector := c } :=
  .tail run ⟨fun other => absurd rfl other, .collects step⟩

theorem WriteStep.moves {hash : Bytes → ChunkHash} {w v : ObjDisk} {t u : Writer}
    (step : WriteStep hash now w t v u) : u ≠ t := by
  cases step with
  | found => simp
  | absent | write | rename | flush => exact fun same => by cases same

/-- A race goes well until the transaction is late. -/
theorem Race.step_live (open_ : S.gc.walk.kinds.isUnrestricted = true) (closes : S.Closes) (past : 0 < S.began)
    (h : r.Late S ∨ ∃ done, r.Live S done) (fit : r'.writer ≠ r.writer → r.Fit S) (step : Race.Step S r r') :
    r'.Late S ∨ ∃ done, r'.Live S done := by
  by_cases late : r.Late S
  · -- Nothing but the collection and the clock moves any more.
    refine .inl ?_
    obtain ⟨unfinished, out⟩ := late
    cases step with
    | time d => exact ⟨unfinished, Nat.le_add_right_of_le out⟩
    | collects => exact ⟨unfinished, out⟩
    | writes within | publishes within => exact absurd within.2 (Nat.not_lt_of_le out)
  · obtain ⟨done, live⟩ := h.resolve_left late
    refine .inr ?_
    cases step with
    | time d => exact ⟨done, live.rest, live.kept, live.files, live.writer, live.collector⟩
    | collects step => exact ⟨done, live.collects open_ closes past late step⟩
    | writes within step => exact live.writes (fit step.moves) within.1 step
    | publishes within flushed =>
        refine ⟨done, live.publishes (fit fun same => ?_) flushed⟩
        rw [flushed] at same
        cases same

theorem Race.run_live (open_ : S.gc.walk.kinds.isUnrestricted = true) (closes : S.Closes) (past : 0 < S.began)
    (run : Race.FitRun S (S.start now) r) : r.Late S ∨ ∃ done, r.Live S done := by
  induction run with
  | refl => exact .inr ⟨[], Race.live_start now⟩
  | tail _ step ih => exact Race.step_live open_ closes past ih step.1 step.2

/-- Where no step of the transaction finds garbage in place of one of its objects, no
collection takes any of them: when both are finished all that was put is there. -/
theorem collect_beside_writer (open_ : S.gc.walk.kinds.isUnrestricted = true) (closes : S.Closes)
    (past : 0 < S.began) {now : Nat} (run : Race.FitRun S (S.start now) r)
    (writer : r.writer = .finished) : ∀ p ∈ S.objects, Present r.disk (S.name p) := by
  rcases Race.run_live open_ closes past run with late | ⟨done, live⟩
  · exact absurd writer late.1
  · intro p mem
    have rest := live.rest
    rw [writer, Writer.todo, List.append_nil] at rest
    obtain ⟨f, file, -⟩ := live.kept p (rest ▸ mem)
    rw [Present, file]
    rfl

theorem CollectStep.candidate {limits : DecodeLimits} {o : GcOptions}
    {roots reachable todo candidates : List ObjectId} (h : spared o w reachable cutoff id = false) :
    CollectStep limits o roots now
      w (.examining frozen reachable cutoff (id :: todo) candidates)
      w (.examining frozen reachable cutoff todo (candidates ++ [id])) := by
  have step := @CollectStep.examine limits o roots now w frozen reachable cutoff id todo candidates
  rwa [h] at step

/-- A transaction of one chunk on a store that holds `files`. -/
def leafDeal (files : ObjDisk) : Setting :=
  ⟨lengthHash, .default, leasing [], files, [], [(.chunk, leafBytes)], [leaf], 100⟩

/-- A chunk put while a collection marks is kept. -/
theorem collect_beside_writer_leaf : ∃ r : Race, Race.FitRun (leafDeal .empty) ((leafDeal .empty).start 100) r ∧
    r.collector = .finished ∧ Present r.disk leaf := by
  have root : leaf ∈ (leafDeal .empty).after := List.mem_singleton_self _
  let S := leafDeal .empty
  have absent : ∀ f, S.disk.get (.loose leaf) = some f →
      Reachable (lookup S.limits S.disk) S.roots leaf ∨ leaf ∈ S.gc.leases ∨ S.began ≤ f.mtime := by
    intro f file
    rw [show S.disk = .empty from rfl, FileProg.get_empty] at file
    cases file
  have run : Race.FitRun S (S.start 100) (S.start 100) := .refl
  have run := run.collects .freeze
  have run := run.tail ⟨fun _ => absent, .writes (by decide) (.absent (by decide +kernel))⟩
  have run := run.tail ⟨fun _ => trivial, .writes (by decide) (.write (n := 0))⟩
  have run : Race.FitRun S (S.start 100) _ := run.tail ⟨fun _ => trivial, .writes (by decide) (.rename rfl)⟩
  have run := run.collects (.marksEnd rfl)
  have run := run.collects .age
  have run := run.collects (@CollectStep.list _ _ _ _ _ _ _ _ [leaf] (by decide +kernel))
  have run := run.collects .examine
  have run := run.collects .nothing
  have run := run.tail ⟨fun _ => trivial, .writes (by decide) .flush⟩
  have run := run.tail ⟨fun _ => List.cons_ne_nil _ _, .publishes (by decide) rfl⟩
  refine ⟨_, run, rfl, collect_beside_writer rfl ?_ (by decide) run rfl (.chunk, leafBytes) (.head _)⟩
  intro p mem
  cases List.mem_singleton.mp mem
  exact ⟨leaf, root, .refl⟩

/-- An old chunk that a transaction finds in place goes when the collection has it on its
list already, whenever its root is published. -/
theorem race_loses_old_object : ¬ ∀ (S : Setting) (now : Nat) (r : Race),
    S.gc.walk.kinds.isUnrestricted = true → S.Closes → 0 < S.began → S.after ≠ S.roots →
    ReflTransGen (Race.Step S) (S.start now) r → r.collector = .finished → r.writer = .finished →
    ∀ p ∈ S.objects, Present r.disk (S.name p) := by
  intro h
  let S := leafDeal (FileProg.World.empty.put (.loose leaf) (looseBytes .chunk leafBytes) 0)
  have run : ReflTransGen (Race.Step S) (S.start 100) (S.start 100) := .refl
  have run := run.tail (.collects .freeze)
  have run := run.tail (.collects (.marksEnd rfl))
  have run := run.tail (.collects .age)
  have run := run.tail (.collects (@CollectStep.list _ _ _ _ _ _ _ _ [leaf] (by decide +kernel)))
  have run := run.tail (.collects (.candidate (by decide +kernel)))
  have run := run.tail (.collects (.confirm rfl))
  have run := run.tail (.collects (.old (by decide +kernel)))
  have run := run.tail (.writes (by decide) (.found (by decide +kernel)))
  have run := run.tail (.collects .remove)
  have run := run.tail (.writes (by decide) .flush)
  have run := run.tail (.publishes (by decide) rfl)
  have run := run.tail (.collects .swept)
  have there := h S 100 _ rfl ?_ (by decide) (List.cons_ne_nil _ _) run rfl rfl (.chunk, leafBytes) (.head _)
  · revert there
    decide +kernel
  · intro p mem
    cases List.mem_singleton.mp mem
    exact ⟨leaf, List.mem_singleton_self _, .refl⟩

end Invariant

section Alone
variable {hash : Bytes → ChunkHash} {limits : DecodeLimits} {o : GcOptions} {roots : List ObjectId} {now : Nat}
  {w v : ObjDisk} {frozen reachable todo : List ObjectId} {cutoff : Int}

/-- The steps of a collection that nothing comes between. -/
abbrev CollectSteps (limits : DecodeLimits) (o : GcOptions) (roots : List ObjectId) (now : Nat) :
    ObjDisk × Collector → ObjDisk × Collector → Prop :=
  ReflTransGen fun a b => CollectStep limits o roots now a.1 a.2 b.1 b.2

theorem CollectStep.then {c d : Collector} {e : ObjDisk × Collector}
    (h : CollectStep limits o roots now w c v d) (rest : CollectSteps limits o roots now (v, d) e) :
    CollectSteps limits o roots now (w, c) e := .head h rest

theorem markVisit_presentIds (v : Visit) (vs : List Visit) :
    markVisit v reachable ++ presentIds vs = reachable ++ presentIds (v :: vs) := by
  unfold markVisit presentIds
  cases there : v.node.isSome <;> simp [there]

theorem mark_steps {fuel : Nat} {st : WalkState} {visits : List Visit}
    (h : walkFrom (lookup limits w) o.walk fuel st = some (.ok visits)) :
    CollectSteps limits o roots now (w, .marking frozen st reachable)
      (w, .marked frozen (reachable ++ presentIds visits)) := by
  induction fuel generalizing st visits reachable with
  | zero => cases h
  | succ fuel ih =>
      rw [walkFrom] at h
      split at h
      · cases h
      · rename_i ended
        cases h
        rw [presentIds, List.filter_nil, List.map_nil, List.append_nil]
        exact .single (.marksEnd ended)
      · rename_i v st' visited
        cases rest : walkFrom (lookup limits w) o.walk fuel st' with
        | none => rw [rest] at h; cases h
        | some r =>
            cases r with
            | error e => rw [rest] at h; cases h
            | ok vs =>
                rw [rest] at h
                cases h
                refine (CollectStep.mark visited).then ?_
                rw [← markVisit_presentIds]
                exact ih rest

theorem examine_steps {candidates : List ObjectId} : CollectSteps limits o roots now
    (w, .examining frozen reachable cutoff todo candidates)
    (w, .examining frozen reachable cutoff [] (candidates ++ todo.filter fun id => !spared o w reachable cutoff id)) := by
  induction todo generalizing candidates with
  | nil => simpa using ReflTransGen.refl
  | cons id todo ih =>
      refine CollectStep.examine.then ?_
      split
      · rename_i spare
        rw [List.filter_cons_of_neg (by simp [spare])]
        exact ih
      · rename_i spare
        have steps := @ih (candidates ++ [id])
        rw [List.append_assoc] at steps
        rw [List.filter_cons_of_pos (by simpa using spare)]
        exact steps

theorem sweep_steps {report : GcReport} : CollectSteps limits o roots now (w, .sweeping cutoff todo)
    ((todo.foldl (sweepOne hash o cutoff) (report, w)).2, .finished) := by
  induction todo generalizing w report with
  | nil => exact .single .swept
  | cons id todo ih =>
      rw [List.foldl_cons, sweepOne]
      split
      · rename_i young
        exact (CollectStep.young young).then ih
      · rename_i old
        exact (CollectStep.old (by simpa using old)).then (CollectStep.remove.then ih)

/-- A collection with nothing beside it goes by these steps: by the roots it read first up to
its second look at them, and from there by what it read then. -/
theorem collect_steps {fuel : Nat} {report : GcReport} {readRoots : Fin 2 → Except ObjectError (List ObjectId)}
    (h : collect hash limits o fuel now readRoots w = some (.ok (report, v))) :
    ∃ frozen later reachable candidates, readRoots 0 = .ok frozen ∧
      (candidates = [] ∧ later = frozen ∨ readRoots 1 = .ok later) ∧
      CollectSteps limits o frozen now (w, .idle)
        (w, .examining frozen reachable (cutoffAt now o.grace) [] candidates) ∧
      CollectSteps limits o later now (w, .examining frozen reachable (cutoffAt now o.grace) [] candidates)
        (v, .finished) := by
  rw [collect] at h
  split at h
  · cases h
  rename_i frozen first
  split at h
  · cases h
  · cases h
  rename_i visits walked
  have looks : CollectSteps limits o frozen now (w, .idle) (w, .examining frozen (presentIds visits)
      (cutoffAt now o.grace) [] ((listObjects w).filter fun id =>
        !spared o w (presentIds visits) (cutoffAt now o.grace) id)) := by
    refine CollectStep.freeze.then ((mark_steps walked).trans ?_)
    refine CollectStep.age.then ((CollectStep.list (List.Subset.refl _)).then ?_)
    rw [List.nil_append]
    exact examine_steps
  dsimp only at h
  split at h
  · rename_i nothing
    rw [nothing] at looks
    cases h
    exact ⟨frozen, frozen, _, [], first, .inl ⟨rfl, rfl⟩, looks, .single .nothing⟩
  split at h
  · cases h
  rename_i later second
  refine ⟨frozen, later, _, _, first, .inr second, looks, ?_⟩
  split at h
  · rename_i moved
    cases h
    exact .single (.moved moved)
  · rename_i same
    refine (CollectStep.confirm (Decidable.not_not.mp same)).then ?_
    have ends := congrArg Prod.snd (Except.ok.inj (Option.some.inj h))
    dsimp only at ends
    rw [← ends]
    exact sweep_steps

/-- A chunk goes, step by step, when only the tree that needs it is leased. -/
theorem collect_steps_leaf : ∃ mid v, CollectSteps .default (leasing [page]) [] 100 (pageStore, .idle) mid ∧
    CollectSteps .default (leasing [page]) [] 100 mid (v, .finished) ∧ ¬ Present v leaf := by
  obtain ⟨r, run, gone⟩ := collect_leased
  obtain ⟨frozen, later, reachable, candidates, first, second, looks, sweeps⟩ := collect_steps run
  cases first
  refine ⟨_, r.2, looks, ?_, gone⟩
  rcases second with ⟨-, rfl⟩ | second
  · exact sweeps
  · cases second
    exact sweeps

end Alone
end Cavs
