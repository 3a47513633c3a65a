import Cavs.ObjectId
import Cavs.SegIndex
import Cavs.FileExec

/-!
# The promise log

Which remote has an object that is not here: a file of lines that is only appended to, the last
word for an id counting, and rewritten when most of its lines are dead. What a line is, is
decided by its first space.
-/
namespace Cavs
open FileProg (Bytes IoError Eff World Sem)
open FileProg.Eff (op orThrow)
open Std (ExtTreeMap TransOrd LawfulEqOrd TransCmp)

instance : Ord ObjectId := ⟨compareOn fun id : ObjectId => id.digest.1⟩

instance : TransOrd ObjectId := inferInstanceAs (TransCmp (compareOn fun id : ObjectId => id.digest.1))

instance : LawfulEqOrd ObjectId where
  eq_of_compare {a b} h := by
    have same : a.digest.1 = b.digest.1 := LawfulEqOrd.eq_of_compare h
    obtain ⟨⟨⟩, a⟩ := a
    obtain ⟨⟨⟩, b⟩ := b
    cases Subtype.ext same
    rfl

section Load

/-- A line that ended with a line break loses a carriage return before it. -/
def stripReturn (l : List Char) : List Char := if l.getLast? = some '\r' then l.dropLast else l

/-- `str::lines`, behind the start of a line. -/
def linesFrom (line : List Char) : List Char → List (List Char)
  | [] => if line = [] then [] else [line]
  | c :: rest => if c = '\n' then stripReturn line :: linesFrom [] rest else linesFrom (line ++ [c]) rest

def textLines (l : List Char) : List (List Char) := linesFrom [] l

/-- `split_once(' ')` -/
def splitSpace : List Char → Option (List Char × List Char)
  | [] => none
  | c :: rest => if c = ' ' then some ([], rest) else (splitSpace rest).map fun parts => (c :: parts.1, parts.2)

def ObjectId.parseHex (s : String) : Option ObjectId := (fromHex s).map .fromBlake3

/-- Written in place of a remote to record that a promise was kept. -/
def forgotten : String := "-"

def compactRatio : Nat := 4

/-- Which remote promised what, and the number of lines that say so. -/
structure PromiseLog where
  entries : ExtTreeMap ObjectId String
  lines : Nat

def PromiseLog.empty : PromiseLog := ⟨∅, 0⟩

def PromiseLog.addLine (log : PromiseLog) (line : List Char) : PromiseLog :=
  let log := { log with lines := log.lines + 1 }
  match splitSpace line with
  | none => log
  | some (id, remote) => match ObjectId.parseHex (.ofList id) with
    | none => log
    | some id =>
        if .ofList remote = forgotten then { log with entries := log.entries.erase id }
        else { log with entries := log.entries.insert id (.ofList remote) }

def PromiseLog.parse (raw : List Char) : PromiseLog := (textLines raw).foldl .addLine .empty

end Load

/-- The log, and the files it is rewritten in. -/
inductive PromisePath where
  | log
  | tmp (suffix : Nat)
  deriving DecidableEq, Repr

abbrev PromiseM (α : Type) := Eff PromisePath Empty Unit ObjectError Unit α

namespace Promises

def line (id : ObjectId) (remote : String) : List Char := (toHex id.digest).toList ++ ' ' :: (remote.toList ++ ['\n'])

def read : PromiseM PromiseLog := do
  match ← op (.read .log) with
  | .error .notFound => return .empty
  | .error e => Eff.throw (.io "read the promise log" e)
  | .ok raw => match utf8 raw with
    | none => Eff.throw (.io "read the promise log" .other)
    | some s => return .parse s.toList

/-- The log is opened, and made if it is not there; then the lines go behind its end. -/
def append (buffer : List Char) : PromiseM Unit := do
  orThrow (.io "open the promise log") (← op (.append .log []))
  orThrow (.io "write the promise log") (← op (.append .log (strBytes (.ofList buffer))))
  orThrow (.io "sync the promise log") (← op (.sync .log))

/-- A remote that a log cannot name. -/
def unusable (remote : String) : Bool := remote.toList.any isWhite || remote == forgotten || remote == ""

def promise (remote : String) (ids : List ObjectId) : PromiseM Unit :=
  if ids = [] then pure ()
  else if unusable remote then Eff.throw (.corrupt ("'" ++ remote ++ "' is not a usable remote name in a promise log"))
  else append (ids.flatMap fun id => line id remote)

def rewrite (log : PromiseLog) : PromiseM Unit := do
  let temporary := PromisePath.tmp (← op .seed)
  orThrow (.io "rewrite the promise log") (← op (.write temporary []))
  Eff.forEach log.entries.toList fun entry => do
    orThrow (.io "rewrite the promise log") (← op (.append temporary (strBytes (.ofList (line entry.1 entry.2)))))
  orThrow (.io "sync the promise log") (← op (.sync temporary))
  orThrow (.io "publish the promise log") (← op (.rename temporary .log))

def compactIfWorthwhile : PromiseM Bool := do
  let log ← read
  if log.lines ≤ compactRatio * max log.entries.size 1 then return false
  else
    rewrite log
    return true

def fulfilled (ids : List ObjectId) : PromiseM Unit :=
  if ids = [] then pure ()
  else do
    append (ids.flatMap fun id => line id forgotten)
    let _ ← compactIfWorthwhile

def compact : PromiseM Unit := do
  let log ← read
  rewrite log

end Promises

section Words

/-- What a line says: who has an object, or that it is here. -/
abbrev Word := ObjectId × Option String

/-- The characters of a line, without its line break. -/
def Word.chars (w : Word) : List Char := (toHex w.1.digest).toList ++ ' ' :: (w.2.getD forgotten).toList

def Word.Usable (w : Word) : Prop := ∀ remote, w.2 = some remote → Promises.unusable remote = false

/-- What is promised after one more word. -/
def tell (promised : ExtTreeMap ObjectId String) (w : Word) : ExtTreeMap ObjectId String := match w.2 with
  | some remote => promised.insert w.1 remote
  | none => promised.erase w.1

/-- The last word for an id counts. -/
def promisedBy (words : List Word) : ExtTreeMap ObjectId String := words.foldl tell ∅

end Words

section Text
variable {a b rest line : List Char} {w : Word}

theorem linesFrom_break (clear : '\n' ∉ a) :
    linesFrom line (a ++ '\n' :: rest) = stripReturn (line ++ a) :: linesFrom [] rest := by
  induction a generalizing line with
  | nil => simp [linesFrom]
  | cons c a ih =>
      obtain ⟨first, others⟩ := not_or.mp (List.mem_cons.not.mp clear)
      rw [List.cons_append, linesFrom, if_neg (Ne.symm first), ih others, List.append_assoc]
      rfl

theorem linesFrom_last (clear : '\n' ∉ a) : linesFrom line a = if line ++ a = [] then [] else [line ++ a] := by
  induction a generalizing line with
  | nil => simp [linesFrom]
  | cons c a ih =>
      obtain ⟨first, others⟩ := not_or.mp (List.mem_cons.not.mp clear)
      rw [linesFrom, if_neg (Ne.symm first), ih others, List.append_assoc]
      simp

theorem splitSpace_append (clear : ' ' ∉ a) : splitSpace (a ++ ' ' :: b) = some (a, b) := by
  induction a with
  | nil => rfl
  | cons c a ih =>
      obtain ⟨first, others⟩ := not_or.mp (List.mem_cons.not.mp clear)
      rw [List.cons_append, splitSpace, if_neg (Ne.symm first), ih others]
      rfl

theorem splitSpace_none (clear : ' ' ∉ a) : splitSpace a = none := by
  induction a with
  | nil => rfl
  | cons c a ih =>
      obtain ⟨first, others⟩ := not_or.mp (List.mem_cons.not.mp clear)
      rw [splitSpace, if_neg (Ne.symm first), ih others]
      rfl

theorem mem_toHex {h : ChunkHash} {c : Char} (mem : c ∈ (toHex h).toList) : c ∈ hexDigits := by
  rw [toHex, String.toList_ofList] at mem
  obtain ⟨b, -, pair⟩ := List.mem_flatMap.mp mem
  exact hexPair_mem pair

theorem toHex_clear (h : ChunkHash) {c : Char} (other : c ∉ hexDigits) : c ∉ (toHex h).toList :=
  fun mem => other (mem_toHex mem)

/-- A name without white space. -/
theorem Word.Usable.clear (usable : w.Usable) {c : Char} (white : isWhite c = true) : c ∉ (w.2.getD forgotten).toList := by
  intro mem
  cases named : w.2 with
  | none =>
      rw [named] at mem
      have dash : c = '-' := by simpa [forgotten] using mem
      subst dash
      cases white
  | some remote =>
      rw [named] at mem
      have good := usable remote named
      rw [Promises.unusable, Bool.or_eq_false_iff, Bool.or_eq_false_iff, List.any_eq_false] at good
      exact good.1.1 c mem white

theorem Word.chars_clear (usable : w.Usable) {c : Char} (white : isWhite c = true) (other : c ∉ hexDigits) (blank : c ≠ ' ') :
    c ∉ w.chars := by
  intro mem
  rcases List.mem_append.mp mem with hex | rest
  · exact toHex_clear _ other hex
  · rcases List.mem_cons.mp rest with same | name
    · exact blank same
    · exact usable.clear white name

theorem addLine_word (usable : w.Usable) (log : PromiseLog) :
    log.addLine w.chars = ⟨tell log.entries w, log.lines + 1⟩ := by
  obtain ⟨⟨⟨⟩, h⟩, said⟩ := w
  have parsed : ObjectId.parseHex (.ofList (toHex h).toList) = some ⟨.blake3, h⟩ := by
    rw [ObjectId.parseHex, String.ofList_toList, fromHex_toHex]
    rfl
  rw [PromiseLog.addLine, Word.chars, splitSpace_append (toHex_clear h (by decide))]
  dsimp only
  rw [parsed]
  dsimp only
  rw [String.ofList_toList]
  cases said with
  | none => exact if_pos rfl
  | some remote =>
      have good := usable remote rfl
      rw [Promises.unusable, Bool.or_eq_false_iff, Bool.or_eq_false_iff] at good
      exact if_neg (beq_eq_false_iff_ne.mp good.1.2)

theorem addLine_blank (clear : ' ' ∉ a) (log : PromiseLog) : log.addLine a = ⟨log.entries, log.lines + 1⟩ := by
  rw [PromiseLog.addLine, splitSpace_none clear]

end Text
end Cavs
