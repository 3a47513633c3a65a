import Cavs.Ready
import Mathlib.Data.List.Induction

/-!
# The assets of a store

What a store is to its callers: under each name the record published last, with those of an
open batch held back until it is committed. A writer may be cut off at any point; the call it
was in is then done or not, and what was held back is lost.
-/
namespace Cavs
open FileProg (Bytes)

/-- The records published and saved, and those an open batch holds back. -/
structure Shelf where
  saved : String → Option AssetRecord
  batch : Option (List AssetRecord)

namespace Shelf
variable {t : Shelf} {name : String}

def put (record : AssetRecord) (f : String → Option AssetRecord) : String → Option AssetRecord :=
  fun name => if name = record.name then some record else f name

def take (name : String) (f : String → Option AssetRecord) : String → Option AssetRecord :=
  fun name' => if name' = name then none else f name'

def held (t : Shelf) : List AssetRecord := t.batch.getD []

/-- What is published, whether saved or held back. -/
def now (t : Shelf) : String → Option AssetRecord := t.held.foldl (fun f record => put record f) t.saved

/-- What a call is for, given how it ended. -/
def after (t : Shelf) : Call → Except StoreError Unit → Shelf
  | .publish record, .ok () => match t.batch with
    | some held => { t with batch := some (held ++ [record]) }
    | none => { t with saved := put record t.saved }
  | .unpublish name, _ => {
      saved := take name t.saved
      batch := t.batch.map fun held => held.filter fun record => record.name ≠ name }
  | .beginBatch, _ => { t with batch := some t.held }
  | .commitBatch, _ => ⟨t.now, none⟩
  | _, _ => t

def empty : Shelf := ⟨fun _ => none, none⟩

/-- What the next handle finds once this one is gone. -/
def reopen (t : Shelf) : Shelf := { t with batch := none }

theorem now_of_held (h : t.held = []) : t.now = t.saved := by
  rw [now, h]
  rfl

/-- The bytes the records were written as. -/
def bytes (env : Env) (f : String → Option AssetRecord) : String → Option Bytes :=
  fun name => (f name).map env.recordJson

variable {env : Env} {f : String → Option AssetRecord}

theorem bytes_put (record : AssetRecord) : bytes env (put record f) = publishing env (bytes env f) record := by
  funext name
  by_cases same : name = record.name
  · simp [bytes, put, publishing, same]
  · simp [bytes, put, publishing, same]

theorem bytes_foldl (l : List AssetRecord) :
    bytes env (l.foldl (fun f record => put record f) f) = l.foldl (publishing env) (bytes env f) := by
  induction l generalizing f with
  | nil => rfl
  | cons record l ih => rw [List.foldl_cons, ih, bytes_put, List.foldl_cons]

/-- What is held back counts once. -/
theorem bytes_held (t : Shelf) : t.held.foldl (publishing env) (bytes env t.now) = bytes env t.now := by
  funext name
  rw [now, bytes_foldl]
  by_cases mem : ∃ record ∈ t.held, record.name = name
  · obtain ⟨b, all⟩ := @foldl_publishing_queued env t.held name mem
    rw [all, all]
  · rw [foldl_publishing_other mem]

theorem now_other (other : ¬ ∃ record ∈ t.held, record.name = name) : t.now name = t.saved name := by
  rw [now]
  generalize t.held = l at other
  generalize t.saved = f
  induction l generalizing f with
  | nil => rfl
  | cons record l ih =>
      rw [List.foldl_cons, ih fun ⟨r, mem, same⟩ => other ⟨r, .tail _ mem, same⟩, put,
        if_neg fun same => other ⟨record, List.mem_cons_self, same.symm⟩]

theorem now_held {record : AssetRecord} (mem : record ∈ t.held) : (t.now record.name).isSome := by
  rw [now]
  generalize t.held = l at mem
  generalize t.saved = f
  induction l using List.reverseRecOn with
  | nil => cases mem
  | append_singleton l r ih =>
      rw [List.foldl_append, List.foldl_cons, List.foldl_nil, put]
      split
      · rfl
      · rename_i other
        exact ih ((List.mem_append.mp mem).resolve_right fun last => other (List.mem_singleton.mp last ▸ rfl))

variable {r : Except StoreError Unit}

theorem after_unpublish_absent (absent : t.now name = none) : t.after (.unpublish name) r = t := by
  have other : ∀ record ∈ t.held, record.name ≠ name := by
    rintro record mem rfl
    have listed := now_held mem
    rw [absent] at listed
    cases listed
  have unsaved : t.saved name = none :=
    (now_other fun ⟨record, mem, same⟩ => other record mem same).symm.trans absent
  have saved : take name t.saved = t.saved := by
    funext name'
    rw [take]
    split
    · rename_i same
      rw [same, unsaved]
    · rfl
  obtain ⟨saved_, batch⟩ := t
  cases batch with
  | none => exact congrArg (Shelf.mk · none) saved
  | some held =>
      have kept : (held.filter fun record => record.name ≠ name) = held := by
        refine List.filter_eq_self.mpr fun record mem => ?_
        exact decide_eq_true (other record mem)
      rw [after, saved, Option.map_some, kept]

theorem after_unpublish (empty : t.held = []) :
    t.after (.unpublish name) r = ⟨take name t.saved, t.batch⟩ := by
  obtain ⟨saved, batch⟩ := t
  cases batch with
  | none => rfl
  | some held =>
      have none_ : held = [] := empty
      subst none_
      rfl

end Shelf

/-- What happens to a directory with a store in it: a writer opens it, makes calls on its
handle, lets go of it, or is cut off in an open or a call. -/
inductive Event where
  | opened (layout : Option StoreLayout) (r : Except StoreError Unit)
  | called (call : Call) (r : Except StoreError Unit)
  | cutOpen
  | cut (call : Call)
  | closed

namespace Shelf

/-- What an event does to the shelf. -/
inductive Moves : Event → Shelf → Shelf → Prop
  | opened {t : Shelf} {layout : Option StoreLayout} {r : Except StoreError Unit} : Moves (.opened layout r) t t.reopen
  | called {t : Shelf} {call : Call} {r : Except StoreError Unit} : Moves (.called call r) t (t.after call r)
  | cutOpen {t : Shelf} : Moves .cutOpen t t.reopen
  | undone {t : Shelf} {call : Call} : Moves (.cut call) t t.reopen
  | done {t : Shelf} {call : Call} : Moves (.cut call) t (t.after call (.ok ())).reopen
  | closed {t : Shelf} : Moves .closed t t.reopen

inductive Moved : List Event → Shelf → Shelf → Prop
  | nil {t : Shelf} : Moved [] t t
  | cons {t u v : Shelf} {e : Event} {events : List Event} : Moves e t u → Moved events u v → Moved (e :: events) t v

end Shelf

/-- The call has nothing to do with the asset. -/
def Call.Spares (name : String) : Call → Prop
  | .publish record => record.name ≠ name
  | .unpublish other => other ≠ name
  | _ => True

def Event.Spares (name : String) : Event → Prop
  | .called call _ | .cut call => call.Spares name
  | _ => True

namespace Shelf
variable {t u : Shelf} {name : String} {record : AssetRecord} {e : Event} {events : List Event}

/-- The record is saved, and none of its name is held back. -/
structure Safe (t : Shelf) (name : String) (record : AssetRecord) : Prop where
  saved : t.saved name = some record
  free : ∀ r ∈ t.held, r.name ≠ name

theorem Safe.now (h : t.Safe name record) : t.now name = some record :=
  (now_other fun ⟨r, mem, same⟩ => h.free r mem same).trans h.saved

theorem Safe.reopen (h : t.Safe name record) : t.reopen.Safe name record := ⟨h.saved, List.forall_mem_nil _⟩

theorem Safe.after {call : Call} {r : Except StoreError Unit} (h : t.Safe name record)
    (spares : call.Spares name) : (t.after call r).Safe name record := by
  cases call with
  | putChunk | flushPacks | gc | setPreferredPackSize | setJournalBudget => exact h
  | beginBatch => exact ⟨h.saved, h.free⟩
  | commitBatch => exact ⟨h.now, List.forall_mem_nil _⟩
  | unpublish other =>
      refine ⟨?_, fun r mem => ?_⟩
      · exact (if_neg fun same => spares same.symm).trans h.saved
      · cases open_ : t.batch with
        | none =>
            rw [held, Shelf.after, open_] at mem
            exact absurd mem List.not_mem_nil
        | some l =>
            rw [held, Shelf.after, open_] at mem
            refine h.free r ?_
            rw [held, open_]
            exact (List.mem_filter.mp mem).1
  | publish other =>
      cases r with
      | error e => exact h
      | ok _ =>
          cases open_ : t.batch with
          | none =>
              rw [Shelf.after, open_]
              exact ⟨(if_neg fun same => spares same.symm).trans h.saved, List.forall_mem_nil _⟩
          | some l =>
              rw [Shelf.after, open_]
              refine ⟨h.saved, fun r mem => ?_⟩
              change r ∈ l ++ [other] at mem
              rcases List.mem_append.mp mem with mem | mem
              · refine h.free r ?_
                rw [held, open_]
                exact mem
              · rw [List.mem_singleton.mp mem]
                exact spares

/-- What is saved stays, whatever else happens. -/
theorem Moves.safe (move : Moves e t u) (spares : e.Spares name) (h : t.Safe name record) : u.Safe name record := by
  cases move with
  | opened | cutOpen | undone | closed => exact h.reopen
  | called => exact h.after spares
  | done => exact (h.after (r := .ok ()) spares).reopen

theorem Moved.safe (moved : Moved events t u) (spares : ∀ e ∈ events, e.Spares name) (h : t.Safe name record) :
    u.Safe name record := by
  induction moved with
  | nil => exact h
  | cons move _ ih =>
      obtain ⟨first, rest⟩ := List.forall_mem_cons.mp spares
      exact ih rest (move.safe first h)

end Shelf

/-- The call neither takes an asset off nor commits a batch. -/
def Call.Batched : Call → Prop
  | .unpublish _ | .commitBatch => False
  | _ => True

/-- The records that the calls published. -/
def publishedIn (calls : List (Call × Except StoreError Unit)) : List AssetRecord :=
  calls.filterMap fun
    | (.publish record, .ok ()) => some record
    | _ => none

namespace Shelf
variable {f : String → Option AssetRecord} {held : List AssetRecord} {events : List Event} {u : Shelf}
  {calls : List (Call × Except StoreError Unit)}

/-- In a batch the calls only add to what is held back. -/
theorem Moved.batched (moved : Moved (calls.map (fun c => Event.called c.1 c.2) ++ events) ⟨f, some held⟩ u)
    (batched : ∀ c ∈ calls, c.1.Batched) : Moved events ⟨f, some (held ++ publishedIn calls)⟩ u := by
  induction calls generalizing held with
  | nil => exact (List.append_nil held).symm ▸ moved
  | cons c calls ih =>
      obtain ⟨first, rest⟩ := List.forall_mem_cons.mp batched
      obtain ⟨call, r⟩ := c
      cases moved with
      | cons move moved =>
          cases move with
          | called =>
              cases call with
              | putChunk | flushPacks | gc | beginBatch | setPreferredPackSize | setJournalBudget => exact ih moved rest
              | unpublish | commitBatch => exact first.elim
              | publish record =>
                  cases r with
                  | error e => exact ih moved rest
                  | ok _ =>
                      have added := ih moved rest
                      rwa [List.append_assoc] at added

end Shelf
end Cavs
