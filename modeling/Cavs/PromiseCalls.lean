import Cavs.PromiseLog
import Mathlib.Data.List.Induction

/-!
# The calls on a promise log

What stands in the file, and what is read from it; what every call leaves behind, also one that
failed or that a crash cut short. A call appends its lines wherever the file ends.
-/
namespace Cavs.Promises
open FileProg (Bytes Eff IoError Sem World bytes_of_get)
open FileProg.Eff (op orThrow wp_append wp_ite wp_read wp_rename wp_seed wp_sync wp_write)
open Std (ExtTreeMap)

section File

/-- The bytes of a text. -/
def fileOf (l : List Char) : Bytes := strBytes (.ofList l)

theorem fileOf_append (a b : List Char) : fileOf (a ++ b) = fileOf a ++ fileOf b := by
  simp only [fileOf, strBytes_ofList, List.flatMap_append]

/-- What a file is read as; bytes that are no text are not read. -/
def readLog (bytes : Bytes) : Option PromiseLog := (utf8 bytes).map fun s => .parse s.toList

theorem readLog_fileOf (l : List Char) : readLog (fileOf l) = some (.parse l) := by
  rw [readLog, fileOf, utf8_strBytes, Option.map_some, String.toList_ofList]

/-- The file as its live entries alone. -/
def rewritten (log : PromiseLog) : Bytes := fileOf (log.entries.toList.flatMap fun e => Promises.line e.1 e.2)

def wordsText (words : List Word) : List Char := words.flatMap fun w => w.chars ++ ['\n']

variable {words : List Word} {tail : List Char}

theorem textLines_words (usable : ∀ w ∈ words, w.Usable) (clear : '\n' ∉ tail) :
    textLines (wordsText words ++ tail) = words.map Word.chars ++ if tail = [] then [] else [tail] := by
  rw [textLines]
  induction words with
  | nil => exact linesFrom_last clear
  | cons w words ih =>
      obtain ⟨first, others⟩ := List.forall_mem_cons.mp usable
      have broken : wordsText (w :: words) ++ tail = w.chars ++ '\n' :: (wordsText words ++ tail) := by
        simp [wordsText]
      have kept : stripReturn ([] ++ w.chars) = w.chars := by
        rw [List.nil_append, stripReturn, if_neg]
        exact fun last => Word.chars_clear first (c := '\r') (by decide) (by decide) (by decide) (List.mem_of_getLast? last)
      rw [broken, linesFrom_break (Word.chars_clear first (by decide) (by decide) (by decide)), kept, ih others]
      rfl

/-- What stands behind the last line break: a part of a line without a space, or a line but for its break. -/
inductive Tail : List Char → List Word → Prop
  | cut {tail : List Char} (space : ' ' ∉ tail) (line : '\n' ∉ tail) : Tail tail []
  | whole {w : Word} (usable : w.Usable) : Tail w.chars [w]

theorem Tail.clear {extra : List Word} (h : Tail tail extra) : '\n' ∉ tail := by
  cases h with
  | cut space line => exact line
  | whole usable => exact Word.chars_clear usable (by decide) (by decide) (by decide)

theorem Word.chars_ne_nil (w : Word) : w.chars ≠ [] := by
  intro empty
  have length := congrArg List.length empty
  simp [Word.chars] at length

/-- Lines that say some words are read as what they say. -/
theorem parse_words {extra : List Word} (usable : ∀ w ∈ words, w.Usable) (h : Tail tail extra) :
    (PromiseLog.parse (wordsText words ++ tail)).entries = promisedBy (words ++ extra) := by
  have folded : ∀ (words : List Word) (log : PromiseLog), (∀ w ∈ words, w.Usable) →
      ((words.map Word.chars).foldl PromiseLog.addLine log).entries = words.foldl tell log.entries := by
    intro words
    induction words with
    | nil => exact fun log _ => rfl
    | cons w words ih =>
        intro log usable
        obtain ⟨first, others⟩ := List.forall_mem_cons.mp usable
        rw [List.map_cons, List.foldl_cons, addLine_word first, ih _ others]
        rfl
  rw [PromiseLog.parse, textLines_words usable h.clear, List.foldl_append, promisedBy, List.foldl_append]
  have base := folded words .empty usable
  cases h with
  | cut space line =>
      rw [List.foldl_nil]
      by_cases empty : tail = []
      · rw [if_pos empty]
        exact base
      · rw [if_neg empty, List.foldl_cons, List.foldl_nil, addLine_blank space]
        exact base
  | @whole w good =>
      rw [if_neg (Word.chars_ne_nil w), List.foldl_cons, List.foldl_nil, addLine_word good]
      exact congrArg (tell · w) base

/-- Who promised something was named by some word. -/
theorem promisedBy_some {id : ObjectId} {remote : String} (h : (promisedBy words)[id]? = some remote) :
    (id, some remote) ∈ words := by
  induction words using List.reverseRecOn with
  | nil => simp [promisedBy] at h
  | append_singleton words w ih =>
      rw [promisedBy, List.foldl_append, List.foldl_cons, List.foldl_nil] at h
      obtain ⟨other, said⟩ := w
      cases said with
      | none =>
          simp only [tell, ExtTreeMap.getElem?_erase] at h
          split at h
          · cases h
          · exact List.mem_append_left _ (ih h)
      | some name =>
          simp only [tell, ExtTreeMap.getElem?_insert] at h
          split at h
          next same =>
            cases h
            rw [Std.LawfulEqOrd.eq_of_compare same]
            exact List.mem_append_right _ (.head _)
          next => exact List.mem_append_left _ (ih h)

theorem promisedBy_toList (m : ExtTreeMap ObjectId String) : promisedBy (m.toList.map fun e => (e.1, some e.2)) = m := by
  rw [promisedBy, List.foldl_map]
  change m.toList.foldl (fun acc e => acc.insert e.1 e.2) ∅ = m
  rw [← ExtTreeMap.ofList_eq_foldl]
  refine ExtTreeMap.ext_getElem? fun id => ?_
  cases found : m[id]? with
  | some remote =>
      exact ExtTreeMap.getElem?_ofList_of_mem Std.ReflCmp.compare_self ExtTreeMap.distinct_keys_toList
        (ExtTreeMap.mem_toList_iff_getElem?_eq_some.mpr found)
  | none =>
      refine ExtTreeMap.getElem?_ofList_of_contains_eq_false (Bool.eq_false_iff.mpr fun listed => ?_)
      obtain ⟨e, mem, rfl⟩ := List.mem_map.mp (List.contains_iff_mem.mp listed)
      rw [ExtTreeMap.mem_toList_iff_getElem?_eq_some, found] at mem
      cases mem

end File

/-- The calls on a log. -/
inductive PromiseCall where
  | promise (remote : String) (ids : List ObjectId)
  | fulfilled (ids : List ObjectId)
  | compactIfWorthwhile
  | compact
  deriving DecidableEq, Repr

namespace PromiseCall

def run : PromiseCall → PromiseM Unit
  | promise remote ids => Promises.promise remote ids
  | fulfilled ids => Promises.fulfilled ids
  | compactIfWorthwhile => do let _ ← Promises.compactIfWorthwhile
  | compact => Promises.compact

/-- What a call says. -/
def words : PromiseCall → List Word
  | promise remote ids => ids.map fun id => (id, some remote)
  | fulfilled ids => ids.map fun id => (id, none)
  | _ => []

/-- What a call appends: nothing for a remote that a log cannot name. -/
def buffer : PromiseCall → List Char
  | promise remote ids => if Promises.unusable remote then [] else ids.flatMap fun id => Promises.line id remote
  | fulfilled ids => ids.flatMap fun id => Promises.line id forgotten
  | _ => []

end PromiseCall

/-- The file rewritten from what is read of it. -/
def compacted (bytes : Bytes) : Option Bytes := (readLog bytes).map rewritten

/-- The file a finished call leaves; a call with a remote that a log cannot name does not finish. -/
def LeavesWhole (c : PromiseCall) (b b' : Bytes) : Prop :=
  (∀ w ∈ c.words, w.Usable) ∧ (b' = b ++ fileOf c.buffer ∨ compacted (b ++ fileOf c.buffer) = some b')

/-- The file that any call leaves, also one that failed or was cut short. -/
def Leaves (c : PromiseCall) (b b' : Bytes) : Prop :=
  (∃ n, b' = b ++ (fileOf c.buffer).take n) ∨ compacted (b ++ fileOf c.buffer) = some b'

section Calls
variable {σ : Sem PromisePath Empty Unit} {C : World PromisePath Empty → Prop} {w v : World PromisePath Empty} {b : Bytes}
  {Q : Except ObjectError Unit → Unit → PromiseDisk → Prop}

abbrev PromiseDisk := World PromisePath Empty

theorem log_put_tmp (w : PromiseDisk) (n : Nat) (b : Bytes) (t : Nat) : (w.put (.tmp n) b t).bytes .log = w.bytes .log := by
  have apart : PromisePath.log ≠ .tmp n := nofun
  exact FileProg.bytes_congr (FileProg.get_put_ne apart w b t)

theorem bytes_put (w : PromiseDisk) (p : PromisePath) (b : Bytes) (t : Nat) : (w.put p b t).bytes p = b :=
  bytes_of_get (FileProg.get_put_self w p b t)

theorem read_wp {Q : Except ObjectError PromiseLog → Unit → PromiseDisk → Prop} (here : C w)
    (found : ∀ log, readLog (w.bytes .log) = some log → Q (.ok log) () w)
    (broken : ∀ e, σ.mayFail (.read .log) w ∨ readLog (w.bytes .log) = none → Q (.error e) () w) :
    Promises.read.Wp σ C Q () w := by
  refine (wp_read here (fun f there => ?_) (fun absent => ?_) fun may => ⟨here, broken _ (.inl may)⟩).then
  · have same : w.bytes .log = f.bytes := bytes_of_get there
    rw [same] at found broken
    change Eff.Wp σ C Q _ () w
    dsimp only
    cases text : utf8 f.bytes with
    | none => exact ⟨here, broken _ (.inr (by rw [readLog, text, Option.map_none]))⟩
    | some s => exact ⟨here, found _ (by rw [readLog, text, Option.map_some])⟩
  · refine ⟨here, found _ ?_⟩
    rw [FileProg.bytes_of_absent absent]
    exact readLog_fileOf []

theorem append_wp (flat : ∀ p, σ.parent p = none) (buffer : List Char)
    (part : ∀ n v, v.bytes .log = w.bytes .log ++ (fileOf buffer).take n → C v ∧ ∀ e, Q (.error e) () v)
    (whole : ∀ v, v.bytes .log = w.bytes .log ++ fileOf buffer → Q (.ok ()) () v) :
    (Promises.append buffer).Wp σ C Q () w := by
  have opened : ∀ t, (w.put .log (w.bytes .log ++ []) t).bytes .log = w.bytes .log := fun t => by
    rw [bytes_put, List.append_nil]
  have same : ∀ v : PromiseDisk, v.bytes .log = w.bytes .log → C v ∧ ∀ e, Q (.error e) () v := fun v at_ =>
    part 0 v (by rw [at_, List.take_zero, List.append_nil])
  have cut : ∀ n t, (w.put .log (w.bytes .log ++ ([] : Bytes).take n) t).bytes .log = w.bytes .log := fun n t => by
    rw [List.take_nil]
    exact opened t
  refine (wp_append (flat _) (same w rfl).1 (fun n t => (same _ (cut n t)).1) (fun t => ?_) fun _ v left => ?_).then
  · have from_ := opened t
    generalize w.put .log (w.bytes .log ++ []) t = w₁ at from_
    refine (wp_append (flat _) (same w₁ from_).1 (fun n t => ?_) (fun t => ?_) fun _ v left => ?_).then
    · exact (part n _ (by rw [bytes_put, from_]; rfl)).1
    · have full : (w₁.put .log (w₁.bytes .log ++ strBytes (.ofList buffer)) t).bytes .log = w.bytes .log ++ fileOf buffer := by
        rw [bytes_put, from_]
        rfl
      have after := part (fileOf buffer).length _ (by rw [full, List.take_length])
      refine (wp_sync after.1 ⟨after.1, whole _ full⟩ fun _ => ?_).then
      exact ⟨after.1, after.2 _⟩
    · rcases left with rfl | ⟨n, t, rfl⟩
      · exact ⟨(same _ from_).1, (same _ from_).2 _⟩
      · have at_ := part n _ (show (w₁.put .log (w₁.bytes .log ++ (strBytes (.ofList buffer)).take n) t).bytes .log = _ by
          rw [bytes_put, from_]; rfl)
        exact ⟨at_.1, at_.2 _⟩
  · rcases left with rfl | ⟨n, t, rfl⟩
    · exact ⟨(same _ rfl).1, (same _ rfl).2 _⟩
    · exact ⟨(same _ (cut n t)).1, (same _ (cut n t)).2 _⟩

/-- The lines of a rewrite go into the temporary file, and the log stays. -/
theorem lines_wp (flat : ∀ p, σ.parent p = none) (n : Nat) (here : ∀ v : PromiseDisk, v.bytes .log = b → C v)
    (broken : ∀ e v, v.bytes .log = b → Q (.error e) () v) (entries : List (ObjectId × String))
    (text : List Char)
    (done : ∀ v, v.bytes .log = b → v.bytes (.tmp n) = fileOf (text ++ entries.flatMap fun e => Promises.line e.1 e.2) →
      Q (.ok ()) () v) (w : PromiseDisk) (at_ : w.bytes .log = b) (there : w.bytes (.tmp n) = fileOf text) :
    (Eff.forEach entries fun entry => do
      orThrow (.io "rewrite the promise log")
        (← op (.append (.tmp n) (strBytes (.ofList (Promises.line entry.1 entry.2)))))).Wp σ C Q () w := by
  induction entries generalizing text w with
  | nil => exact ⟨here w at_, done w at_ (by rw [there]; simp)⟩
  | cons e entries ih =>
      have kept : ∀ b' t, (w.put (.tmp n) b' t).bytes .log = b := fun b' t => (log_put_tmp w n b' t).trans at_
      refine Eff.Wp.then ((wp_append (flat _) (here w at_) (fun n' t => here _ (kept _ t)) (fun t => ?_)
        fun _ v left => ?_).then)
      · refine ⟨here _ (kept _ t), ih (text ++ Promises.line e.1 e.2) (fun v log tmp => done v log ?_) _ (kept _ t) ?_⟩
        · rw [tmp, List.flatMap_cons, List.append_assoc]
        · rw [bytes_put, there, fileOf_append]
          rfl
      · have log : v.bytes .log = b := by
          rcases left with rfl | ⟨n', t, rfl⟩
          · exact at_
          · exact kept _ t
        exact ⟨here v log, here v log, broken _ v log⟩

theorem rewrite_wp (flat : ∀ p, σ.parent p = none) (log : PromiseLog) (at_ : w.bytes .log = b)
    (here : ∀ v : PromiseDisk, v.bytes .log = b ∨ v.bytes .log = rewritten log → C v)
    (broken : ∀ e v, v.bytes .log = b → Q (.error e) () v)
    (done : ∀ v, v.bytes .log = rewritten log → Q (.ok ()) () v) : (Promises.rewrite log).Wp σ C Q () w := by
  refine (wp_seed (here w (.inl at_)) fun n => ?_).then
  have kept : ∀ b' t, (w.put (.tmp n) b' t).bytes .log = b := fun b' t => (log_put_tmp w n b' t).trans at_
  refine (wp_write (flat _) (here w (.inl at_)) (fun n' t => here _ (.inl (kept _ t))) (fun t => ?_)
    fun _ v left => ?_).then
  · refine (lines_wp (b := b) flat n (fun v log => here v (.inl log)) (fun e v log => ?_) log.entries.toList [] (fun v same made => ?_)
      _ (kept [] t) (bytes_put w (.tmp n) [] t)).then
    · exact ⟨here v (.inl log), broken e v log⟩
    · refine (wp_sync (here v (.inl same)) ?_ fun _ => ⟨here v (.inl same), broken _ v same⟩).then
      refine wp_rename (flat _) (here v (.inl same)) (fun f found => ?_) (fun _ => ⟨here v (.inl same), broken _ v same⟩)
        (fun _ => ⟨here v (.inl same), broken _ v same⟩) |>.then
      have moved : (v.move (.tmp n) .log f).bytes .log = rewritten log := by
        rw [bytes_of_get (FileProg.get_move_self ..), ← bytes_of_get found, made]
        rfl
      exact ⟨here _ (.inr moved), here _ (.inr moved), done _ moved⟩
  · have same : v.bytes .log = b := by
      rcases left with rfl | ⟨n', t, rfl⟩
      · exact at_
      · exact kept _ t
    exact ⟨here v (.inl same), broken _ v same⟩

/-- What compaction leaves: the file as it was, or rewritten. -/
def Compacts (b b' : Bytes) : Prop := b' = b ∨ compacted b = some b'

theorem compacts_rewrite_wp (flat : ∀ p, σ.parent p = none) (at_ : w.bytes .log = b) {log : PromiseLog}
    (found : readLog b = some log) (here : ∀ v : PromiseDisk, Compacts b (v.bytes .log) → C v)
    (ends : ∀ r v, Compacts b (v.bytes .log) → Q r () v) : (Promises.rewrite log).Wp σ C Q () w := by
  have new : ∀ v : PromiseDisk, v.bytes .log = rewritten log → Compacts b (v.bytes .log) := by
    intro v made
    right
    rw [compacted, found, Option.map_some, made]
  exact rewrite_wp flat log at_ (fun v log => here v (log.imp id (fun made => by rw [compacted, found, Option.map_some, made])))
    (fun e v log => ends _ v (.inl log)) fun v made => ends _ v (new v made)

theorem compact_wp (flat : ∀ p, σ.parent p = none) (at_ : w.bytes .log = b)
    (here : ∀ v : PromiseDisk, Compacts b (v.bytes .log) → C v)
    (ends : ∀ r v, Compacts b (v.bytes .log) → Q r () v) : Promises.compact.Wp σ C Q () w := by
  have here_ := here w (.inl at_)
  refine (read_wp here_ (fun log found => ?_) fun e _ => ⟨here_, ends _ w (.inl at_)⟩).then
  rw [at_] at found
  exact compacts_rewrite_wp flat at_ found here ends

theorem compactIfWorthwhile_wp (flat : ∀ p, σ.parent p = none) (at_ : w.bytes .log = b)
    (here : ∀ v : PromiseDisk, Compacts b (v.bytes .log) → C v) {Q : Except ObjectError Bool → Unit → PromiseDisk → Prop}
    (ends : ∀ r v, Compacts b (v.bytes .log) → Q r () v) : Promises.compactIfWorthwhile.Wp σ C Q () w := by
  have here_ := here w (.inl at_)
  refine (read_wp here_ (fun log found => ?_) fun e _ => ⟨here_, ends _ w (.inl at_)⟩).then
  rw [at_] at found
  refine wp_ite (fun _ => ⟨here_, ends _ w (.inl at_)⟩) fun _ => ?_
  refine (compacts_rewrite_wp flat at_ found here fun r v log => ?_).then
  cases r with
  | error e => exact ⟨here v log, ends _ v log⟩
  | ok _ => exact ⟨here v log, ends _ v log⟩

/-- What any call leaves in the file, whatever stood there. -/
theorem run_wp (flat : ∀ p, σ.parent p = none) (c : PromiseCall) (w : PromiseDisk) :
    c.run.Wp σ (fun v => Leaves c (w.bytes .log) (v.bytes .log))
      (fun r _ v => Leaves c (w.bytes .log) (v.bytes .log) ∧ (r = .ok () → LeavesWhole c (w.bytes .log) (v.bytes .log))) () w := by
  have still : Leaves c (w.bytes .log) (w.bytes .log) := .inl ⟨0, by rw [List.take_zero, List.append_nil]⟩
  have later : c.buffer = [] → c.words = [] → ∀ v : PromiseDisk, Compacts (w.bytes .log) (v.bytes .log) →
      Leaves c (w.bytes .log) (v.bytes .log) ∧ LeavesWhole c (w.bytes .log) (v.bytes .log) := by
    intro empty silent v left
    have usable : ∀ w ∈ c.words, w.Usable := by
      rw [silent]
      exact List.forall_mem_nil _
    have nothing : w.bytes .log ++ fileOf c.buffer = w.bytes .log := by
      rw [empty]
      exact List.append_nil _
    rcases left with same | made
    · exact ⟨same ▸ still, usable, .inl (nothing.symm ▸ same)⟩
    · exact ⟨.inr (nothing.symm ▸ made), usable, .inr (nothing.symm ▸ made)⟩
  cases c with
  | compact =>
      exact compact_wp flat rfl (fun v left => (later rfl rfl v left).1) fun r v left => ⟨(later rfl rfl v left).1, fun _ => (later rfl rfl v left).2⟩
  | compactIfWorthwhile =>
      refine (compactIfWorthwhile_wp flat rfl (fun v left => (later rfl rfl v left).1) fun r v left => ?_).then
      cases r with
      | error e => exact ⟨(later rfl rfl v left).1, (later rfl rfl v left).1, fun bad => by cases bad⟩
      | ok _ => exact ⟨(later rfl rfl v left).1, (later rfl rfl v left).1, fun _ => (later rfl rfl v left).2⟩
  | promise remote ids =>
      change (Promises.promise remote ids).Wp σ _ _ () w
      rw [Promises.promise]
      refine wp_ite (fun empty => ⟨still, still, fun _ => ⟨?_, .inl ?_⟩⟩) fun _ =>
        wp_ite (fun _ => ⟨still, still, fun bad => by cases bad⟩) fun good => ?_
      · rw [PromiseCall.words, empty]
        exact List.forall_mem_nil _
      · rw [PromiseCall.buffer, empty]
        split <;> exact (List.append_nil _).symm
      · have usable : Promises.unusable remote = false := by simpa using good
        have same : (PromiseCall.promise remote ids).buffer = ids.flatMap fun id => Promises.line id remote := by
          rw [PromiseCall.buffer, usable]
          rfl
        refine append_wp flat _ (fun n v log => ?_) fun v log => ?_
        · have left : Leaves (.promise remote ids) (w.bytes .log) (v.bytes .log) := .inl ⟨n, by rw [log, same]⟩
          exact ⟨left, fun e => ⟨left, fun bad => by cases bad⟩⟩
        · have whole : v.bytes .log = w.bytes .log ++ fileOf (PromiseCall.promise remote ids).buffer := by rw [log, same]
          refine ⟨.inl ⟨_, by rw [whole, List.take_length]⟩, fun _ => ⟨fun x mem => ?_, .inl whole⟩⟩
          obtain ⟨id, -, rfl⟩ := List.mem_map.mp mem
          intro name named
          cases named
          exact usable
  | fulfilled ids =>
      change (Promises.fulfilled ids).Wp σ _ _ () w
      rw [Promises.fulfilled]
      have usable : ∀ w ∈ (PromiseCall.fulfilled ids).words, w.Usable := by
        intro x mem
        obtain ⟨id, -, rfl⟩ := List.mem_map.mp mem
        exact fun _ bad => by cases bad
      refine wp_ite (fun empty => ⟨still, still, fun _ => ⟨usable, .inl ?_⟩⟩) fun _ => ?_
      · rw [PromiseCall.buffer, empty]
        exact (List.append_nil _).symm
      · refine (append_wp flat _ (fun n v log => ?_) fun v log => ?_).then
        · have left : Leaves (.fulfilled ids) (w.bytes .log) (v.bytes .log) := .inl ⟨n, log⟩
          exact ⟨left, fun e => ⟨left, left, fun bad => by cases bad⟩⟩
        · have after : ∀ u : PromiseDisk, Compacts (w.bytes .log ++ fileOf (PromiseCall.fulfilled ids).buffer) (u.bytes .log) →
              Leaves (.fulfilled ids) (w.bytes .log) (u.bytes .log) ∧ LeavesWhole (.fulfilled ids) (w.bytes .log) (u.bytes .log) := by
            rintro u (same | made)
            · exact ⟨.inl ⟨_, by rw [same, List.take_length]⟩, usable, .inl same⟩
            · exact ⟨.inr made, usable, .inr made⟩
          refine (compactIfWorthwhile_wp flat log (fun u left => (after u left).1) fun r u left => ?_).then
          cases r with
          | error e => exact ⟨(after u left).1, (after u left).1, fun bad => by cases bad⟩
          | ok _ => exact ⟨(after u left).1, (after u left).1, fun _ => (after u left).2⟩

end Calls
end Cavs.Promises
