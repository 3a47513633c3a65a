import Cavs.PromiseCalls
import Mathlib.Data.List.TakeWhile

/-!
# What a promise log keeps

Runs of calls with crashes and failures in them. As long as every call that appends finds the log
at the start of a line, and none leaves a line that says something else than was meant, what is
read is what was said: all of every call that finished, and of another the words in front.
-/
namespace Cavs.Promises
open FileProg (Bytes Eff File IoError Sem World bytes_of_absent get_empty)
open FileProg.Eff (Ends wp_iff)
open Std (ExtTreeMap)
open List (append_assoc append_nil flatMap_cons length_append length_cons mem_map not_mem_nil prefix_refl
  take_nil)

section Cut
variable {a b l : List Char} {words : List Word} {w : Word}

/-- What stands behind the last line break. -/
def lastLine (l : List Char) : List Char := (l.reverse.takeWhile (· ≠ '\n')).reverse

theorem lastLine_append (clear : '\n' ∉ b) (ends : a = [] ∨ a.getLast? = some '\n') : lastLine (a ++ b) = b := by
  have all : b.reverse.takeWhile (· ≠ '\n') = b.reverse := List.takeWhile_eq_self_iff.mpr fun c mem => by
    simpa using fun same : c = '\n' => clear (same ▸ List.mem_reverse.mp mem)
  rcases ends with rfl | last
  · rw [List.nil_append, lastLine, all, List.reverse_reverse]
  · obtain ⟨front, rfl⟩ := List.getLast?_eq_some_iff.mp last
    rw [lastLine, List.reverse_append, List.takeWhile_append, all, if_pos rfl]
    simp

theorem wordsText_ends (words : List Word) : wordsText words = [] ∨ (wordsText words).getLast? = some '\n' := by
  cases words using List.reverseRecOn with
  | nil => exact .inl rfl
  | append_singleton words w =>
      right
      simp [wordsText]

/-- A text whose bytes stand in front of those of another stands in front of it. -/
theorem fileOf_prefix {rest : Bytes} (h : fileOf a ++ rest = fileOf l) : ∃ more, l = a ++ more ∧ rest = fileOf more := by
  induction a generalizing l with
  | nil => exact ⟨l, rfl, h⟩
  | cons c a ih =>
      have first : ∀ (d : Char) (tail : Bytes), (String.utf8EncodeChar d ++ tail).toByteArray.utf8DecodeChar? 0 = some d := by
        intro d tail
        rw [List.toByteArray_append]
        exact ByteArray.utf8DecodeChar?_utf8EncodeChar_append
      simp only [fileOf, strBytes_ofList, flatMap_cons, append_assoc] at h
      cases l with
      | nil =>
          have length := congrArg List.length h
          have size := c.utf8Size_pos
          simp only [length_append, String.length_utf8EncodeChar, List.flatMap_nil, List.length_nil] at length
          omega
      | cons d l =>
          rw [flatMap_cons] at h
          have same : c = d := by
            have left := first c (a.flatMap String.utf8EncodeChar ++ rest)
            rw [h, first d] at left
            exact (Option.some.inj left).symm
          subst same
          have later := List.append_cancel_left h
          obtain ⟨more, rfl, rest_⟩ := ih (l := l) (by simpa only [fileOf, strBytes_ofList] using later)
          exact ⟨more, rfl, rest_⟩

/-- A part of some lines: whole ones in front, and a part of the next. -/
theorem wordsText_prefix (h : l <+: wordsText words) :
    ∃ front rest part, words = front ++ rest ∧ l = wordsText front ++ part ∧
      (part = [] ∨ ∃ w more, rest = w :: more ∧ part <+: w.chars) := by
  induction words generalizing l with
  | nil => exact ⟨[], [], [], rfl, List.prefix_nil.mp h, .inl rfl⟩
  | cons w words ih =>
      have text : wordsText (w :: words) = w.chars ++ ('\n' :: wordsText words) := by simp [wordsText]
      rw [text] at h
      rcases List.prefix_or_prefix_of_prefix h (List.prefix_append w.chars _) with short | ⟨more, rfl⟩
      · exact ⟨[], w :: words, l, rfl, rfl, .inr ⟨w, words, rfl, short⟩⟩
      · have after := (List.prefix_append_right_inj _).mp h
        cases more with
        | nil => exact ⟨[], w :: words, w.chars, rfl, append_nil _, .inr ⟨w, words, rfl, prefix_refl _⟩⟩
        | cons c more =>
            obtain ⟨rfl, behind⟩ := List.cons_prefix_cons.mp after
            obtain ⟨front, rest, part, rfl, rfl, next⟩ := ih behind
            exact ⟨w :: front, rest, part, rfl, by simp [wordsText], next⟩

end Cut

section Written
variable {b b' : Bytes} {words : List Word} {c : PromiseCall}

/-- A file that says some words: whole lines, and behind them what is no word or is one. -/
def Written (b : Bytes) (words : List Word) : Prop := ∃ full tail extra, (∀ w ∈ full, w.Usable) ∧ Tail tail extra ∧
  b = fileOf (wordsText full ++ tail) ∧ promisedBy (full ++ extra) = promisedBy words

theorem Written.read (h : Written b words) : ∃ log, readLog b = some log ∧ log.entries = promisedBy words := by
  obtain ⟨full, tail, extra, usable, end_, rfl, same⟩ := h
  exact ⟨_, readLog_fileOf _, (parse_words usable end_).trans same⟩

/-- A compacted file says what it said before. -/
theorem Written.compacted (h : Written b words) (made : Promises.compacted b = some b') : Written b' words := by
  obtain ⟨log, found, entries⟩ := h.read
  obtain ⟨full, tail, extra, usable, end_, rfl, same⟩ := h
  rw [Promises.compacted, found, Option.map_some, Option.some.injEq] at made
  have kept : promisedBy (log.entries.toList.map fun e => (e.1, some e.2)) = promisedBy words :=
    (promisedBy_toList _).trans entries
  refine ⟨log.entries.toList.map fun e => (e.1, some e.2), [], [], fun w mem => ?_, .cut not_mem_nil not_mem_nil, ?_, ?_⟩
  · obtain ⟨e, listed, rfl⟩ := mem_map.mp mem
    rintro remote named
    cases named
    have there := Std.ExtTreeMap.mem_toList_iff_getElem?_eq_some.mp listed
    rw [entries, ← same] at there
    rcases List.mem_append.mp (promisedBy_some there) with line | last
    · exact usable _ line _ rfl
    · cases end_ with
      | cut space line => cases last
      | whole good =>
          cases List.mem_singleton.mp last
          exact good _ rfl
  · rw [← made, rewritten, append_nil, wordsText, List.flatMap_map]
    congr 1
    exact List.flatMap_congr fun e _ => by simp [Promises.line, Word.chars]
  · rw [append_nil]
    exact kept

theorem Written.same (h : Written b words) (left : Compacts b b') :
    (readLog b').map PromiseLog.entries = (readLog b).map PromiseLog.entries := by
  rcases left with rfl | made
  · rfl
  · obtain ⟨log, found, entries⟩ := h.read
    obtain ⟨log', found', entries'⟩ := (h.compacted made).read
    rw [found, found', Option.map_some, Option.map_some, entries, entries']

/-- The log is empty or ends with a line break. -/
def AtBreak (b : Bytes) : Prop := ∃ s, utf8 b = some s ∧ lastLine s.toList = []

/-- What stands behind the last line break holds no space, or is one of the call's lines but for its break. -/
def FairTail (c : PromiseCall) (b : Bytes) : Prop :=
  ∃ s, utf8 b = some s ∧ (' ' ∉ lastLine s.toList ∨ ∃ w ∈ c.words, lastLine s.toList = w.chars)

theorem utf8_fileOf (l : List Char) : utf8 (fileOf l) = some (.ofList l) := utf8_strBytes _

theorem Written.whole_lines (h : Written b words) (at_ : AtBreak b) :
    ∃ full, (∀ w ∈ full, w.Usable) ∧ b = fileOf (wordsText full) ∧ promisedBy full = promisedBy words := by
  obtain ⟨full, tail, extra, usable, end_, rfl, same⟩ := h
  obtain ⟨s, text, last⟩ := at_
  rw [utf8_fileOf, Option.some.injEq] at text
  subst text
  rw [String.toList_ofList, lastLine_append end_.clear (wordsText_ends full)] at last
  subst last
  generalize empty : ([] : List Char) = tail at end_
  cases end_ with
  | cut space line =>
      subst empty
      exact ⟨full, usable, by rw [append_nil], by rwa [append_nil] at same⟩
  | @whole w good => exact absurd empty.symm (Word.chars_ne_nil w)

theorem buffer_words (usable : ∀ w ∈ c.words, w.Usable) : c.buffer = wordsText c.words := by
  have lines : ∀ (ids : List ObjectId) (remote : Option String),
      ids.flatMap (fun id => Promises.line id (remote.getD forgotten)) = wordsText (ids.map fun id => (id, remote)) := by
    intro ids remote
    rw [wordsText, List.flatMap_map]
    exact List.flatMap_congr fun e _ => by simp [Promises.line, Word.chars]
  cases c with
  | promise remote ids =>
      cases ids with
      | nil => simp [PromiseCall.buffer, PromiseCall.words, wordsText]
      | cons id ids =>
          have good := usable (id, some remote) (.head _) remote rfl
          rw [PromiseCall.buffer, good]
          exact lines (id :: ids) (some remote)
  | fulfilled ids => exact lines ids none
  | compactIfWorthwhile => rfl
  | compact => rfl

theorem buffer_usable (some_ : c.buffer ≠ []) : ∀ w ∈ c.words, w.Usable := by
  cases c with
  | promise remote ids =>
      intro w mem name named
      obtain ⟨id, -, rfl⟩ := mem_map.mp mem
      cases named
      by_contra bad
      rw [PromiseCall.buffer, if_pos (by simpa using bad)] at some_
      exact some_ rfl
  | fulfilled ids =>
      intro w mem
      obtain ⟨id, -, rfl⟩ := mem_map.mp mem
      exact fun _ bad => by cases bad
  | compactIfWorthwhile => exact absurd rfl some_
  | compact => exact absurd rfl some_

theorem toHex_length (h : ChunkHash) : (toHex h).toList.length = 64 := by
  have pairs : ∀ l : Bytes, (l.flatMap hexPair).length = 2 * l.length := by
    intro l
    induction l with
    | nil => rfl
    | cons b l ih =>
        rw [flatMap_cons, length_append, ih, length_cons, hexPair, length_cons, length_cons]
        simp
        omega
  rw [toHex, String.toList_ofList, pairs, h.2]

/-- Two words of one call are the same when the line of one stands in front of that of the other. -/
theorem word_eq {w x : Word} (first : w ∈ c.words) (second : x ∈ c.words) (front : w.chars <+: x.chars) : w = x := by
  have said : w.2 = x.2 := by
    cases c with
    | promise remote ids | fulfilled ids =>
        obtain ⟨i, -, rfl⟩ := mem_map.mp first
        obtain ⟨j, -, rfl⟩ := mem_map.mp second
        rfl
    | compactIfWorthwhile | compact => cases first
  have chars : w.chars = x.chars := by
    refine front.eq_of_length ?_
    simp only [Word.chars, length_append, length_cons, toHex_length, said]
  have hex := (List.append_inj chars (by rw [toHex_length, toHex_length])).1
  have digest := toHex_injective (String.toList_inj.mp hex)
  obtain ⟨⟨⟨⟩, g⟩, r⟩ := w
  obtain ⟨⟨⟨⟩, h⟩, q⟩ := x
  cases said
  cases digest
  rfl

theorem promisedBy_append (words more : List Word) : promisedBy (words ++ more) = more.foldl tell (promisedBy words) := by
  rw [promisedBy, List.foldl_append]
  rfl

theorem wordsText_append (words more : List Word) : wordsText (words ++ more) = wordsText words ++ wordsText more :=
  List.flatMap_append

/-- What a call leaves says what was said before and the words in front of its own. -/
theorem Written.step {ok : Bool} (h : Written b words) (left : Leaves c b b') (done : ok = true → LeavesWhole c b b')
    (mind : c.buffer ≠ [] → AtBreak b ∧ (ok = false → FairTail c b')) :
    ∃ part, part <+: c.words ∧ (ok = true → part = c.words) ∧ Written b' (words ++ part) := by
  by_cases silent : c.buffer = []
  · have kept : Written b' words := by
      have same : b ++ fileOf c.buffer = b := by
        rw [silent]
        exact append_nil b
      rcases left with ⟨n, rfl⟩ | made
      · rw [silent, show fileOf [] = [] from rfl, take_nil, append_nil]
        exact h
      · exact h.compacted (same ▸ made)
    refine ⟨[], List.nil_prefix, fun good => ?_, by rwa [append_nil]⟩
    have text := buffer_words (done good).1
    rw [silent] at text
    cases given : c.words with
    | nil => rfl
    | cons w more =>
        rw [given] at text
        simp [wordsText] at text
  · obtain ⟨at_, fair⟩ := mind silent
    obtain ⟨full, usable, rfl, same⟩ := h.whole_lines at_
    have good := buffer_usable silent
    have text := buffer_words good
    -- The call whole, and what it leaves compacted.
    have whole : Written (fileOf (wordsText full) ++ fileOf c.buffer) (words ++ c.words) := by
      refine ⟨full ++ c.words, [], [], List.forall_mem_append.mpr ⟨usable, good⟩, .cut not_mem_nil not_mem_nil, ?_, ?_⟩
      · rw [append_nil, wordsText_append, fileOf_append, text]
      · rw [append_nil, promisedBy_append, promisedBy_append, same]
    cases ok with
    | true =>
        refine ⟨c.words, prefix_refl _, fun _ => rfl, ?_⟩
        rcases (done rfl).2 with rfl | made
        · exact whole
        · exact whole.compacted made
    | false =>
        rcases left with ⟨n, rfl⟩ | made
        · obtain ⟨s, decoded, line⟩ := fair rfl
          have bytes : fileOf (wordsText full) ++ (fileOf c.buffer).take n = fileOf s.toList := by
            have plain : fileOf s.toList = strBytes s := by rw [fileOf, String.ofList_toList]
            rw [plain, strBytes_utf8 decoded]
          obtain ⟨more, split, taken⟩ := fileOf_prefix bytes
          have front : more <+: wordsText c.words := by
            have rejoined : fileOf more ++ (fileOf c.buffer).drop n = fileOf (wordsText c.words) := by
              rw [← taken, List.take_append_drop, text]
            obtain ⟨rest, whole_, -⟩ := fileOf_prefix rejoined
            exact ⟨rest, whole_.symm⟩
          obtain ⟨said, rest, part, given, rfl, next⟩ := wordsText_prefix front
          have clear : '\n' ∉ part := by
            rcases next with rfl | ⟨x, others, rfl, inside⟩
            · exact not_mem_nil
            · have usable_ := good x (given ▸ List.mem_append_right _ (.head _))
              exact fun mem => Word.chars_clear usable_ (by decide) (by decide) (by decide) (inside.subset mem)
          have last : lastLine s.toList = part := by
            rw [split, ← append_assoc, ← wordsText_append]
            exact lastLine_append clear (wordsText_ends _)
          have saids : ∀ w ∈ full ++ said, w.Usable :=
            List.forall_mem_append.mpr ⟨usable, fun w mem => good w (given ▸ List.mem_append_left _ mem)⟩
          have file : fileOf (wordsText full) ++ (fileOf c.buffer).take n = fileOf (wordsText (full ++ said) ++ part) := by
            rw [bytes, split, wordsText_append, append_assoc]
          rw [last] at line
          rcases line with space | ⟨w, own, ends⟩
          · refine ⟨said, given ▸ List.prefix_append _ _, fun bad => absurd bad Bool.false_ne_true, full ++ said, part, [], saids, .cut space clear, file, ?_⟩
            rw [append_nil, promisedBy_append, promisedBy_append, same]
          · subst ends
            rcases next with empty | ⟨x, others, rfl, inside⟩
            · exact absurd empty (Word.chars_ne_nil w)
            · have third : x ∈ c.words := given ▸ List.mem_append_right _ (.head _)
              cases word_eq own third inside
              refine ⟨said ++ [w], ?_, fun bad => absurd bad Bool.false_ne_true, full ++ said, w.chars, [w], saids, .whole (good w own), file, ?_⟩
              · rw [given]
                exact ⟨others, by simp⟩
              · rw [append_assoc, promisedBy_append, promisedBy_append, same]
        · exact ⟨c.words, prefix_refl _, fun bad => absurd bad Bool.false_ne_true, whole.compacted made⟩

end Written

section Run
variable {σ : Sem PromisePath Empty Unit} {w v : PromiseDisk}

/-- The states a store's log can be in: calls one after the other, each with whether it returned
without an error. A crash leaves any state that its call could be cut short in. -/
inductive PromiseRun (σ : Sem PromisePath Empty Unit) : List (PromiseCall × Bool) → PromiseDisk → Prop
  | fresh {w : PromiseDisk} (absent : w.get .log = none) : PromiseRun σ [] w
  | done {history : List (PromiseCall × Bool)} {w v : PromiseDisk} (before : PromiseRun σ history w) (c : PromiseCall)
      (run : c.run.Runs σ () w (.ok ()) () v) : PromiseRun σ (history ++ [(c, true)]) v
  | failed {history : List (PromiseCall × Bool)} {w v : PromiseDisk} {e : ObjectError} (before : PromiseRun σ history w)
      (c : PromiseCall) (run : c.run.Runs σ () w (.error e) () v) : PromiseRun σ (history ++ [(c, false)]) v
  | crashed {history : List (PromiseCall × Bool)} {w v : PromiseDisk} (before : PromiseRun σ history w) (c : PromiseCall)
      (cut : (c.run ()).Crashes σ w v) : PromiseRun σ (history ++ [(c, false)]) v

/-- A call that appends finds the log at the start of a line, and leaves a fair last line if it does not return. -/
def Mindful (c : PromiseCall) (ok : Bool) (w v : PromiseDisk) : Prop :=
  c.buffer ≠ [] → AtBreak (w.bytes .log) ∧ (ok = false → FairTail c (v.bytes .log))

/-- Runs in which every call is mindful. -/
inductive MindfulRun (σ : Sem PromisePath Empty Unit) : List (PromiseCall × Bool) → PromiseDisk → Prop
  | fresh {w : PromiseDisk} (absent : w.get .log = none) : MindfulRun σ [] w
  | done {history : List (PromiseCall × Bool)} {w v : PromiseDisk} (before : MindfulRun σ history w) (c : PromiseCall)
      (run : c.run.Runs σ () w (.ok ()) () v) (mind : Mindful c true w v) : MindfulRun σ (history ++ [(c, true)]) v
  | failed {history : List (PromiseCall × Bool)} {w v : PromiseDisk} {e : ObjectError} (before : MindfulRun σ history w)
      (c : PromiseCall) (run : c.run.Runs σ () w (.error e) () v) (mind : Mindful c false w v) :
      MindfulRun σ (history ++ [(c, false)]) v
  | crashed {history : List (PromiseCall × Bool)} {w v : PromiseDisk} (before : MindfulRun σ history w) (c : PromiseCall)
      (cut : (c.run ()).Crashes σ w v) (mind : Mindful c false w v) : MindfulRun σ (history ++ [(c, false)]) v

/-- What the calls of a history contributed: all their words where they returned, words in front elsewhere. -/
def Contributes (history : List (PromiseCall × Bool)) (parts : List (List Word)) : Prop :=
  List.Forall₂ (fun call part => part <+: call.1.words ∧ (call.2 = true → part = call.1.words)) history parts

/-- The log is a map of what was said: it is read so, and compaction does not change what is read. -/
structure Kept (σ : Sem PromisePath Empty Unit) (history : List (PromiseCall × Bool)) (w : PromiseDisk) : Prop where
  read : ∃ parts, Contributes history parts ∧ ∀ r v, Promises.read.Runs σ () w r () v →
    (∃ log, r = .ok log ∧ log.entries = promisedBy parts.flatten) ∨ σ.mayFail (.read .log) w
  compacts : ∀ c v, c = .compact ∨ c = .compactIfWorthwhile → (PromiseCall.run c ()).Crashes σ w v →
    (readLog (v.bytes .log)).map PromiseLog.entries = (readLog (w.bytes .log)).map PromiseLog.entries

theorem run_leaves (flat : ∀ p, σ.parent p = none) {c : PromiseCall} (cut : (c.run ()).Crashes σ w v) :
    Leaves c (w.bytes .log) (v.bytes .log) :=
  ((wp_iff _ _ _).mp (run_wp flat c w)).1 v cut

theorem run_whole (flat : ∀ p, σ.parent p = none) {c : PromiseCall} (run : c.run.Runs σ () w (.ok ()) () v) :
    LeavesWhole c (w.bytes .log) (v.bytes .log) :=
  (((wp_iff _ _ _).mp (run_wp flat c w)).2 _ _ v run).2 rfl

theorem MindfulRun.written (flat : ∀ p, σ.parent p = none) {history : List (PromiseCall × Bool)} (run : MindfulRun σ history w) :
    ∃ parts, Contributes history parts ∧ Written (w.bytes .log) parts.flatten := by
  have next : ∀ {history : List (PromiseCall × Bool)} {w v : PromiseDisk} {c : PromiseCall} {ok : Bool},
      (∃ parts, Contributes history parts ∧ Written (w.bytes .log) parts.flatten) →
      Leaves c (w.bytes .log) (v.bytes .log) → (ok = true → LeavesWhole c (w.bytes .log) (v.bytes .log)) → Mindful c ok w v →
      ∃ parts, Contributes (history ++ [(c, ok)]) parts ∧ Written (v.bytes .log) parts.flatten := by
    rintro history w v c ok ⟨parts, contributes, written⟩ left done mind
    obtain ⟨part, front, all, after⟩ := written.step left done mind
    refine ⟨parts ++ [part], List.rel_append contributes (.cons ⟨front, all⟩ .nil), ?_⟩
    rw [List.flatten_append, List.flatten_singleton]
    exact after
  induction run with
  | @fresh w absent =>
      refine ⟨[], .nil, [], [], [], nofun, .cut nofun nofun, ?_, rfl⟩
      rw [bytes_of_absent absent]
      rfl
  | done before c run mind ih =>
      exact next ih (run_leaves flat (FileProg.Prog.runs_crashes run)) (fun _ => run_whole flat run) mind
  | failed before c run mind ih => exact next ih (run_leaves flat (FileProg.Prog.runs_crashes run)) nofun mind
  | crashed before c cut mind ih => exact next ih (run_leaves flat cut) nofun mind

theorem compacts_of_leaves {c : PromiseCall} {b b' : Bytes} (silent : c.buffer = []) (left : Leaves c b b') : Compacts b b' := by
  rw [Leaves, silent, show fileOf [] = [] from rfl, append_nil] at left
  rcases left with ⟨n, same⟩ | made
  · exact .inl (by rw [same, take_nil, append_nil])
  · exact .inr made

/-- A mindful log is a durable map. -/
theorem promise_log_kept (flat : ∀ p, σ.parent p = none) {history : List (PromiseCall × Bool)} (run : MindfulRun σ history w) :
    Kept σ history w := by
  obtain ⟨parts, contributes, written⟩ := run.written flat
  constructor
  case read =>
      refine ⟨parts, contributes, fun r v ends => ?_⟩
      obtain ⟨log, found, entries⟩ := written.read
      have spec : Promises.read.Wp σ (fun _ => True) (fun r _ _ =>
          (∃ log, r = .ok log ∧ log.entries = promisedBy parts.flatten) ∨ σ.mayFail (.read .log) w) () w := by
        refine read_wp trivial (fun log' same => .inl ⟨log', rfl, ?_⟩) fun e why => .inr (why.resolve_right fun none_ => ?_)
        · rw [found, Option.some.injEq] at same
          rw [← same, entries]
        · rw [found] at none_
          cases none_
      exact ((wp_iff _ _ _).mp spec).2 r () v ends
  case compacts =>
      rintro c v (rfl | rfl) cut
      · exact written.same (compacts_of_leaves rfl (run_leaves flat cut))
      · exact written.same (compacts_of_leaves rfl (run_leaves flat cut))

end Run

section Torn

/-- A disk on which nothing fails. -/
def quietDisk : Sem PromisePath Empty Unit := ⟨fun _ => (), fun _ => none, fun _ _ => False, fun _ _ => True⟩

def quietExec : FileProg.Exec PromisePath Empty Unit := ⟨fun _ => (), fun _ => none, fun _ => false⟩

theorem quietExec_within : quietExec.Within quietDisk := ⟨rfl, rfl, fun _ h => Bool.noConfusion h, fun _ _ => trivial⟩

def wordOf (n : UInt8) : PromiseCall := .promise "origin" [sameBytes n]

/-- The log with some bytes more behind it. -/
def extended (w : PromiseDisk) (b : Bytes) : PromiseDisk :=
  (w.put .log (w.bytes .log ++ []) 0).put .log ((w.put .log (w.bytes .log ++ []) 0).bytes .log ++ b) 0

theorem extended_bytes (w : PromiseDisk) (b : Bytes) : (extended w b).bytes .log = w.bytes .log ++ b := by
  rw [extended, bytes_put, bytes_put, append_nil]

theorem wordOf_runs (n : UInt8) (w : PromiseDisk) :
    (wordOf n).run.Runs quietDisk () w (.ok ()) () (extended w (fileOf (wordOf n).buffer)) := by
  refine Ends.runs (fun _ => rfl) ?_
  have good : Promises.unusable "origin" = false := by decide
  change (Promises.promise "origin" [sameBytes n]).Ends () w _ () _
  rw [Promises.promise, if_neg (List.cons_ne_nil _ _), good]
  have same : (wordOf n).buffer = [sameBytes n].flatMap fun id => Promises.line id "origin" := by
    rw [wordOf, PromiseCall.buffer, good]
    rfl
  rw [same]
  rfl

theorem wordOf_torn (n : UInt8) (k : Nat) (w : PromiseDisk) :
    ((wordOf n).run ()).Crashes quietDisk w (extended w ((fileOf (wordOf n).buffer).take k)) := by
  have good : Promises.unusable "origin" = false := by decide
  have same : (wordOf n).buffer = [sameBytes n].flatMap fun id => Promises.line id "origin" := by
    rw [wordOf, PromiseCall.buffer, good]
    rfl
  change (Promises.promise "origin" [sameBytes n] ()).Crashes quietDisk w _
  rw [Promises.promise, if_neg (List.cons_ne_nil _ _), good, same]
  exact .inr (.inr ⟨.ok (), _, .inl (.inl ⟨(by rintro _ ⟨⟩), rfl, 0, rfl⟩), .inr (.inl ⟨(by rintro _ ⟨⟩), k, 0, rfl⟩)⟩)

/-- A promise, one that is torn in its id, and a compaction. -/
theorem promise_log_kept_compacted : ∃ w : PromiseDisk,
    MindfulRun quietDisk [(wordOf 1, true), (wordOf 2, false), (.compact, true)] w ∧
      Kept quietDisk [(wordOf 1, true), (wordOf 2, false), (.compact, true)] w := by
  obtain ⟨said, once⟩ : ∃ w, w = extended .empty (fileOf (wordOf 1).buffer) := ⟨_, rfl⟩
  have empty : (World.empty : PromiseDisk).bytes .log = fileOf [] := bytes_of_absent (get_empty _)
  have first : MindfulRun quietDisk [(wordOf 1, true)] said :=
    .done (.fresh (get_empty _)) (wordOf 1) (once ▸ wordOf_runs 1 _) fun _ =>
      ⟨⟨_, (congrArg utf8 empty).trans (utf8_fileOf _), rfl⟩, nofun⟩
  have line : said.bytes .log = fileOf (wordOf 1).buffer := by rw [once, extended_bytes, empty]; rfl
  have torn : (extended said ((fileOf (wordOf 2).buffer).take 10)).bytes .log =
      fileOf ((wordOf 1).buffer ++ (wordOf 2).buffer.take 10) := by
    rw [extended_bytes, line]
    decide +kernel
  have second : MindfulRun quietDisk [(wordOf 1, true), (wordOf 2, false)] _ :=
    .crashed first (wordOf 2) (wordOf_torn 2 10 _) fun _ =>
      ⟨⟨_, (congrArg utf8 line).trans (utf8_fileOf _), by decide +kernel⟩,
        fun _ => ⟨_, (congrArg utf8 torn).trans (utf8_fileOf _), .inl (by decide +kernel)⟩⟩
  subst once
  have compacts : (quietExec.run [] (PromiseCall.compact.run ()) (extended (extended .empty (fileOf (wordOf 1).buffer))
      ((fileOf (wordOf 2).buffer).take 10))).map (fun x => x.1.1) = some (.ok ()) := by decide +kernel
  obtain ⟨⟨⟨r, t⟩, v⟩, run, rfl⟩ := Option.map_eq_some_iff.mp compacts
  have third := second.done .compact (quietExec_within.runs run) fun some_ => absurd rfl some_
  exact ⟨v, third, promise_log_kept (fun _ => rfl) third⟩

theorem read_ends {w : PromiseDisk} {f : File} {l : List Char} (there : w.get .log = some f) (bytes : w.bytes .log = fileOf l) :
    Promises.read.Runs quietDisk () w (.ok (.parse l)) () w := by
  refine Ends.runs (fun _ => rfl) (Ends.bind (Ends.read there) ?_)
  have text : f.bytes = fileOf l := (FileProg.bytes_of_get there).symm.trans bytes
  rw [text]
  dsimp only
  rw [utf8_fileOf]
  change Eff.Ends (pure (PromiseLog.parse (String.ofList l).toList)) () w _ () w
  rw [String.toList_ofList]
  rfl

/-- A promise that is torn in its id takes the next one, which was acknowledged, with it. -/
theorem promise_log_loses : ∃ w : PromiseDisk, PromiseRun quietDisk [(wordOf 1, false), (wordOf 2, true)] w ∧
    ¬Kept quietDisk [(wordOf 1, false), (wordOf 2, true)] w := by
  have fresh : PromiseRun quietDisk [] (World.empty : PromiseDisk) := .fresh (get_empty _)
  have torn : PromiseRun quietDisk [(wordOf 1, false)] _ := .crashed fresh (wordOf 1) (wordOf_torn 1 10 _)
  have both : PromiseRun quietDisk [(wordOf 1, false), (wordOf 2, true)] _ := .done torn (wordOf 2) (wordOf_runs 2 _)
  refine ⟨_, both, fun kept => ?_⟩
  obtain ⟨parts, contributes, reads⟩ := kept.read
  have text : (fileOf (wordOf 1).buffer).take 10 ++ fileOf (wordOf 2).buffer =
      fileOf ((wordOf 1).buffer.take 10 ++ (wordOf 2).buffer) := by decide +kernel
  -- The second line is read as a part of the first.
  have unread : (PromiseLog.parse ((wordOf 1).buffer.take 10 ++ (wordOf 2).buffer)).entries[sameBytes 2]? = none := by
    decide +kernel
  have said := reads _ _ (read_ends (l := (wordOf 1).buffer.take 10 ++ (wordOf 2).buffer) (FileProg.get_put_self ..) (by
    rw [extended_bytes, extended_bytes, bytes_of_absent (get_empty _), List.nil_append]
    exact text))
  obtain ⟨log, same, entries⟩ := said.resolve_right fun bad => by cases bad
  cases same
  cases contributes with
  | @cons _ first _ parts _ contributes =>
      cases contributes with
      | @cons _ second _ parts whole contributes =>
          cases contributes
          have all : second = [(sameBytes 2, some "origin")] := whole.2 rfl
          have last : [first, second].flatten = first ++ [(sameBytes 2, some "origin")] := by simp [all]
          rw [entries, last, promisedBy_append] at unread
          simp [tell] at unread

end Torn
end Cavs.Promises
