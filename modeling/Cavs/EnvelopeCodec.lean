import Cavs.Bundle
import Mathlib.Data.List.Destutter

/-!
# The one byte form of an object

An envelope is made with its dependencies in order, each once. It is written in one way,
reads back as it was within the limits, and nothing else than what is written is read.
-/
namespace Cavs
open FileProg (Bytes)
open ByteScan

section Order

theorem idLt_iff {a b : ObjectId} : idLt a b = true ↔ compare a.digest.1 b.digest.1 = .lt := decide_eq_true_iff

theorem idLt_trans {a b c : ObjectId} (ab : idLt a b = true) (bc : idLt b c = true) : idLt a c = true :=
  idLt_iff.mpr (Std.TransCmp.lt_trans (idLt_iff.mp ab) (idLt_iff.mp bc))

theorem idLt_irrefl (a : ObjectId) : ¬ idLt a a = true := by
  rw [idLt_iff, Std.ReflOrd.compare_self]
  nofun

theorem idLe_iff {a b : ObjectId} : idLe a b = true ↔ idLt a b = true ∨ a = b := by
  rw [idLe, Bool.not_eq_true', ← Bool.not_eq_true, idLt_iff, idLt_iff,
    @Std.OrientedCmp.eq_swap _ compare _ b.digest.1]
  cases order : compare a.digest.1 b.digest.1 with
  | lt => simp
  | gt =>
      have differ : a ≠ b := by
        rintro rfl
        rw [Std.ReflOrd.compare_self] at order
        cases order
      simp [differ]
  | eq =>
      obtain ⟨⟨⟩, digest⟩ := a
      obtain ⟨⟨⟩, digest'⟩ := b
      have same : digest = digest' := Subtype.ext (Std.LawfulEqCmp.eq_of_compare order)
      simp [same]

instance : Std.Total fun a b : ObjectId => (idLe a b : Prop) where
  total a b := by
    rw [idLe, idLe, Bool.not_eq_true', Bool.not_eq_true', ← Bool.not_eq_true, ← Bool.not_eq_true, ← not_and_or]
    rintro ⟨ba, ab⟩
    exact idLt_irrefl a (idLt_trans ab ba)

instance : IsTrans ObjectId fun a b => (idLe a b : Prop) where
  trans a b c ab bc := by
    rcases idLe_iff.mp ab with ab | rfl
    · rcases idLe_iff.mp bc with bc | rfl
      · exact idLe_iff.mpr (.inl (idLt_trans ab bc))
      · exact idLe_iff.mpr (.inl ab)
    · exact bc

/-- Ids in strictly ascending order. -/
abbrev IdsAscend (l : List ObjectId) : Prop := l.Pairwise fun a b => idLt a b = true

/-- There is one such list of given members. -/
theorem IdsAscend.ext {l l' : List ObjectId} (h : IdsAscend l) (h' : IdsAscend l') (same : ∀ d, d ∈ l ↔ d ∈ l') :
    l = l' := by
  have nodup : ∀ {l : List ObjectId}, IdsAscend l → l.Nodup := fun h =>
    h.imp fun {a b} lt => by
      rintro rfl
      exact idLt_irrefl a lt
  have perm := (List.perm_ext_iff_of_nodup (nodup h) (nodup h')).mpr same
  refine perm.eq_of_pairwise (fun a b _ _ ab ba => ?_) h h'
  exact absurd (idLt_trans ab ba) (idLt_irrefl a)

end Order

section New

/-- An envelope of a class, with its dependencies brought into order. -/
def ObjectEnvelope.new (kind : ObjectKind) (dependencies : List ObjectId) (body : Bytes) :
    Except ObjectError ObjectEnvelope :=
  let dependencies := (dependencies.insertionSort fun a b => idLe a b).destutter (· ≠ ·)
  if kind.isPayload ∧ dependencies ≠ [] then .error .payloadWithDependencies
  else .ok ⟨1, kind, dependencies, body⟩

/-- The bytes an object is named by and stored as. -/
def ObjectEnvelope.canonicalBytes (e : ObjectEnvelope) : Bytes :=
  if e.kind.isPayload then e.body
  else le 2 e.formatVersion ++ (le 4 e.kind.tag ++ (writeVaruint e.dependencies.length ++
    (e.dependencies.flatMap writeId ++ (writeVaruint e.body.length ++ e.body))))

variable {kind : ObjectKind} {deps deps' : List ObjectId} {body : Bytes} {e : ObjectEnvelope}

theorem mem_destutter {α : Type} [DecidableEq α] {l : List α} {x : α} : x ∈ l.destutter (· ≠ ·) ↔ x ∈ l := by
  have behind : ∀ (l : List α) (a : α), x ∈ l.destutter' (· ≠ ·) a ↔ x ∈ a :: l := by
    intro l
    induction l with
    | nil => exact fun _ => Iff.rfl
    | cons b l ih =>
        intro a
        by_cases same : a = b
        · subst same
          rw [List.destutter'_cons_neg _ (not_not.mpr rfl), ih]
          simp
        · rw [List.destutter'_cons_pos _ same, List.mem_cons, ih, ← List.mem_cons]
  cases l with
  | nil => rfl
  | cons a l => rw [List.destutter_cons', behind]

/-- Sorted and with neighbours that differ: strictly ascending. -/
theorem ascending_canonical (deps : List ObjectId) :
    IdsAscend ((deps.insertionSort fun a b => idLe a b).destutter (· ≠ ·)) := by
  have sorted := (List.pairwise_insertionSort (fun a b => (idLe a b : Prop)) deps).sublist
    (List.destutter_sublist (· ≠ ·) _)
  have apart := List.isChain_destutter (· ≠ ·) (deps.insertionSort fun a b => idLe a b)
  have : Trans (fun a b => idLt a b = true) (fun a b => idLt a b = true) (fun a b => idLt a b = true) := ⟨idLt_trans⟩
  refine List.isChain_iff_pairwise.mp (List.isChain_iff_getElem.mpr fun i next => ?_)
  exact (idLe_iff.mp (List.isChain_iff_getElem.mp sorted.isChain i next)).resolve_right
    (List.isChain_iff_getElem.mp apart i next)

theorem mem_canonical {d : ObjectId} : d ∈ (deps.insertionSort fun a b => idLe a b).destutter (· ≠ ·) ↔ d ∈ deps := by
  rw [mem_destutter, List.mem_insertionSort]

theorem canonical_congr (same : ∀ d, d ∈ deps ↔ d ∈ deps') :
    (deps.insertionSort fun a b => idLe a b).destutter (· ≠ ·) =
      (deps'.insertionSort fun a b => idLe a b).destutter (· ≠ ·) := by
  refine (ascending_canonical deps).ext (ascending_canonical deps') fun d => ?_
  rw [mem_canonical, mem_canonical, same]

/-- The dependencies of an envelope that was made are those that were given. -/
theorem ObjectEnvelope.new_ok (h : ObjectEnvelope.new kind deps body = .ok e) :
    e.formatVersion = 1 ∧ e.kind = kind ∧ e.body = body ∧ IdsAscend e.dependencies ∧
      (∀ d, d ∈ e.dependencies ↔ d ∈ deps) ∧ (kind.isPayload = true → e.dependencies = []) := by
  rw [ObjectEnvelope.new] at h
  split_ifs at h with bad
  cases h
  refine ⟨rfl, rfl, rfl, ascending_canonical deps, fun d => mem_canonical, fun payload => ?_⟩
  by_contra some
  exact bad ⟨payload, some⟩

theorem ObjectEnvelope.new_self (version : e.formatVersion = 1) (ascending : IdsAscend e.dependencies)
    (payload : e.kind.isPayload = true → e.dependencies = []) :
    ObjectEnvelope.new e.kind e.dependencies e.body = .ok e := by
  have own : (e.dependencies.insertionSort fun a b => idLe a b).destutter (· ≠ ·) = e.dependencies :=
    (ascending_canonical _).ext ascending fun d => mem_canonical
  rw [ObjectEnvelope.new, own, if_neg fun bad => bad.2 (payload bad.1), ← version]

end New

section Read
variable {kind : ObjectKind} {limits : DecodeLimits} {e : ObjectEnvelope} {bytes : Bytes}
  {previous : Option ObjectId} {id : ObjectId} {l : List ObjectId} {t : Unit}

/-- What is behind an id that was read ascends from there. -/
def AscendsFrom (previous : Option ObjectId) (l : List ObjectId) : Prop :=
  IdsAscend l ∧ ∀ p ∈ previous, ∀ d ∈ l, idLt p d = true

theorem ascendsFrom_cons :
    AscendsFrom previous (id :: l) ↔ (∀ p ∈ previous, idLt p id = true) ∧ AscendsFrom (some id) l := by
  constructor
  · rintro ⟨ascending, behind⟩
    obtain ⟨first, rest⟩ := List.pairwise_cons.mp ascending
    exact ⟨fun p mem => behind p mem id (.head _), rest, fun p mem d => by cases mem; exact first d⟩
  · rintro ⟨ahead, rest, first⟩
    have first' := first id rfl
    refine ⟨List.pairwise_cons.mpr ⟨first', rest⟩, fun p mem d there => ?_⟩
    rcases List.mem_cons.mp there with rfl | there
    · exact ahead p mem
    · exact idLt_trans (ahead p mem) (first' d there)

theorem readDependencies_takes (l : List ObjectId) (previous : Option ObjectId) :
    Takes (readDependencies l.length previous) () (l.flatMap writeId) l (AscendsFrom previous l) := by
  induction l generalizing previous with
  | nil => exact (Takes.pure []).congr (iff_of_true trivial ⟨.nil, fun _ _ _ mem => (List.not_mem_nil mem).elim⟩)
  | cons id l ih =>
      rw [ascendsFrom_cons, List.flatMap_cons]
      refine (Takes.bind (Takes.of_scans fun _ => readIdAs_scans id) fun _ => Takes.require fun _ =>
        (Takes.last (ih (some id)) fun _ => Takes.pure (id :: l)).congr (iff_of_eq (and_true _))).congr ?_
      cases previous <;> simp

/-- An envelope that keeps the ceilings. -/
structure ObjectEnvelope.Within (limits : DecodeLimits) (e : ObjectEnvelope) : Prop where
  encoded : e.canonicalBytes.length ≤ limits.maxLenFor e.kind
  dependencies : e.kind.isPayload = false → e.dependencies.length ≤ limits.maxDependencies
  body : e.kind.isPayload = false → e.body.length ≤ limits.maxBodyLen

/-- What is read from the bytes of an envelope is that envelope, when its dependencies
ascend and the ceilings are kept. -/
theorem readEnvelope_reads (known : e.kind.Known) (version : e.formatVersion = 1) (ascending : IdsAscend e.dependencies)
    (few : e.dependencies.length < 2 ^ 64) (short : e.body.length < 2 ^ 64) :
    Reads (readEnvelope e.kind limits) ()
      (le 2 e.formatVersion ++ (le 4 e.kind.tag ++ (writeVaruint e.dependencies.length ++
        (e.dependencies.flatMap writeId ++ (writeVaruint e.body.length ++ e.body))))) e
      (e.dependencies.length ≤ limits.maxDependencies ∧ e.body.length ≤ limits.maxBodyLen) := by
  have room : e.dependencies.length * 33 ≤
      (e.dependencies.flatMap writeId ++ (writeVaruint e.body.length ++ e.body)).length := by
    rw [List.length_append]
    exact (length_flatMap_ge fun id _ => (writeId_length id).ge).trans (Nat.le_add_right _ _)
  have whole : Reads (Scan.take ObjectError.trailingBytes e.body.length >>= fun body =>
      pure (⟨e.formatVersion, e.kind, e.dependencies, body⟩ : ObjectEnvelope)) () e.body e True :=
    (Reads.last (.of_scans fun _ => .take rfl) fun _ => Reads.pure e).congr (iff_of_eq (and_true _))
  have number : e.formatVersion < 256 ^ 2 := by
    rw [version]
    decide
  refine Reads.congr
    (Reads.bind (.of_scans fun _ => .num number) fun _ => Reads.guard fun _ =>
      Reads.bind (.of_scans fun _ => .num (ObjectKind.tag_lt e.kind)) fun _ =>
      Reads.first (.of_scans fun _ => .ofOption known) fun _ => Reads.guard fun _ =>
      Reads.bind (.of_scans fun _ => readVaruint_scans few) fun _ => Reads.guard fun _ =>
      Reads.remaining <| Reads.guard fun _ => Reads.bind (readDependencies_takes _ none) fun _ =>
      Reads.bind (.of_scans fun _ => readVaruint_scans short) fun _ => Reads.guard fun _ =>
      Reads.remaining <| Reads.guard fun _ => whole) ?_
  have ordered : AscendsFrom none e.dependencies := ⟨ascending, nofun⟩
  simp only [version, ordered, ne_eq, not_true_eq_false, not_false_eq_true, true_and, and_true, Nat.not_lt, room]

/-- Within the ceilings, an envelope is decoded from its bytes. -/
theorem decode_canonicalBytes (known : e.kind.Known) (version : e.formatVersion = 1) (ascending : IdsAscend e.dependencies)
    (payload : e.kind.isPayload = true → e.dependencies = []) (word : limits.maxEncodedLen < 2 ^ 64)
    (within : e.Within limits) : decodeEnvelope e.kind e.canonicalBytes limits = .ok e := by
  rw [decodeEnvelope, if_neg (Nat.not_lt.mpr within.encoded)]
  by_cases chunk : e.kind.isPayload = true
  · rw [if_pos chunk, ObjectEnvelope.canonicalBytes, if_pos chunk, ← version, ← payload chunk]
  · have structural := Bool.not_eq_true _ ▸ chunk
    have encoded := within.encoded
    rw [ObjectEnvelope.canonicalBytes, if_neg chunk, DecodeLimits.maxLenFor, if_neg chunk] at encoded
    have long : e.dependencies.length * 33 ≤ (e.dependencies.flatMap writeId).length :=
      length_flatMap_ge fun id _ => (writeId_length id).ge
    simp only [List.length_append] at encoded
    rw [if_neg chunk, ObjectEnvelope.canonicalBytes, if_neg chunk,
      (readEnvelope_reads known version ascending (by omega) (by omega)).runs
        ⟨within.dependencies structural, within.body structural⟩ 0]
    rfl

theorem readIdAs_ok {algorithm digest : String} {c d : Cursor}
    (run : readIdAs algorithm digest () c = (.ok (id, d), t)) : c.rest = writeId id ++ d.rest := by
  obtain ⟨code, c₁, ⟨⟩, taken, run₁⟩ := ok_of_bind run
  obtain ⟨start, single, -, -⟩ := ok_of_take taken
  obtain ⟨byte, rfl⟩ := List.length_eq_one_iff.mp single
  obtain ⟨algorithm, c₂, ⟨⟩, known, run₂⟩ := ok_of_bind run₁
  obtain ⟨known, rfl, -⟩ := ok_of_option known
  obtain ⟨h, c₃, ⟨⟩, run₃, last⟩ := ok_of_bind run₂
  cases last
  obtain ⟨bytes, c₄, ⟨⟩, taken', run₄⟩ := ok_of_bind run₃
  obtain ⟨start', long, -, -⟩ := ok_of_take taken'
  rw [dif_pos long] at run₄
  cases run₄
  have one : byte = 1 := by
    by_contra other
    rw [List.headD_cons, HashAlgorithm.fromCode, if_neg other] at known
    cases known
  cases algorithm
  rw [start, start', one]
  rfl

theorem readDependencies_ok {count : Nat} {c d : Cursor}
    (run : readDependencies count previous () c = (.ok (l, d), t)) :
    l.length = count ∧ AscendsFrom previous l ∧ c.rest = l.flatMap writeId ++ d.rest := by
  induction count generalizing previous c l with
  | zero =>
      cases run
      exact ⟨rfl, ⟨.nil, fun _ _ _ mem => nomatch mem⟩, rfl⟩
  | succ count ih =>
      obtain ⟨id, c₁, ⟨⟩, read, run⟩ := ok_of_bind run
      have start := readIdAs_ok read
      dsimp only at run
      rw [← ite_not] at run
      obtain ⟨ahead, run⟩ := ok_of_guard run
      obtain ⟨rest, c₂, ⟨⟩, later, last⟩ := ok_of_bind run
      cases last
      obtain ⟨length, ascends, split⟩ := ih later
      have ahead' : ∀ p ∈ previous, idLt p id = true := by
        intro p mem
        cases mem
        exact not_not.mp ahead
      refine ⟨congrArg (· + 1) length, ascendsFrom_cons.mpr ⟨ahead', ascends⟩, ?_⟩
      rw [start, split, List.flatMap_cons, List.append_assoc]

/-- What is read is the bytes of an envelope in order. -/
theorem readEnvelope_ok {c d : Cursor} (structural : kind.isPayload = false)
    (run : readEnvelope kind limits () c = (.ok (e, d), t)) :
    e.canonicalBytes = c.rest ∧ e.kind = kind ∧ e.formatVersion = 1 ∧ IdsAscend e.dependencies := by
  obtain ⟨version, c₁, ⟨⟩, read, run₁⟩ := ok_of_bind run
  obtain ⟨start₁, -, -⟩ := ok_of_num read
  obtain ⟨one, run₂⟩ := ok_of_guard run₁
  obtain ⟨tag, c₂, ⟨⟩, read, run₃⟩ := ok_of_bind run₂
  obtain ⟨start₂, small, -⟩ := ok_of_num read
  obtain ⟨found, c₃, ⟨⟩, tagged, run₄⟩ := ok_of_bind run₃
  obtain ⟨known, rfl, -⟩ := ok_of_option tagged
  obtain ⟨own, run₅⟩ := ok_of_guard run₄
  obtain ⟨count, c₄, ⟨⟩, read, run₆⟩ := ok_of_bind run₅
  obtain ⟨-, start₃⟩ := readVaruint_ok read
  obtain ⟨-, run₇⟩ := ok_of_guard run₆
  obtain ⟨left, c₅, ⟨⟩, looked, run₈⟩ := ok_of_bind run₇
  cases looked
  obtain ⟨-, run₉⟩ := ok_of_guard run₈
  obtain ⟨dependencies, c₆, ⟨⟩, read, run₁₀⟩ := ok_of_bind run₉
  obtain ⟨number, ⟨ascending, -⟩, start₄⟩ := readDependencies_ok read
  obtain ⟨length, c₇, ⟨⟩, read, run₁₁⟩ := ok_of_bind run₁₀
  obtain ⟨-, start₅⟩ := readVaruint_ok read
  obtain ⟨-, run₁₂⟩ := ok_of_guard run₁₁
  obtain ⟨left', c₈, ⟨⟩, looked, run₁₃⟩ := ok_of_bind run₁₂
  cases looked
  obtain ⟨whole, run₁₄⟩ := ok_of_guard run₁₃
  obtain ⟨body, c₉, ⟨⟩, taken, last⟩ := ok_of_bind run₁₄
  cases last
  obtain ⟨start₆, long, -, -⟩ := ok_of_take taken
  obtain rfl := not_not.mp own
  obtain rfl := not_not.mp one
  have spent : d.rest = [] := by
    have all := not_not.mp whole
    rw [start₆, List.length_append] at all
    exact List.eq_nil_of_length_eq_zero (by omega)
  rw [spent, List.append_nil] at start₆
  refine ⟨?_, rfl, rfl, ascending⟩
  rw [ObjectEnvelope.canonicalBytes, if_neg (by rw [structural]; decide)]
  dsimp only
  rw [ObjectKind.tag_of_fromTag small known, number, long, ← start₆, ← start₅, ← start₄, ← start₃, ← start₂, ← start₁]

/-- What is decoded is the bytes of an envelope that could have been made. -/
theorem canonicalBytes_decode (h : decodeEnvelope kind bytes limits = .ok e) :
    e.canonicalBytes = bytes ∧ e.kind = kind ∧ e.formatVersion = 1 ∧ IdsAscend e.dependencies ∧
      (kind.isPayload = true → e.dependencies = []) := by
  rw [decodeEnvelope] at h
  split_ifs at h with large payload
  · cases h
    exact ⟨if_pos payload, rfl, rfl, .nil, fun _ => rfl⟩
  · cases read : readEnvelope kind limits () ⟨0, bytes⟩ with
    | mk result t =>
        rw [read] at h
        cases result with
        | error error => cases h
        | ok found =>
            cases h
            obtain ⟨same, own, version, ascending⟩ := readEnvelope_ok (Bool.not_eq_true _ ▸ payload) read
            exact ⟨same, own, version, ascending, fun chunk => absurd chunk payload⟩

end Read

/-- Every object has one byte form: it is read back from the bytes it is written as, these
depend on which dependencies it has and not on how they were listed, and bytes that are
accepted are those of the envelope they are decoded to. -/
theorem envelope_canonical (kind : ObjectKind) (known : kind.Known) (limits : DecodeLimits)
    (word : limits.maxEncodedLen < 2 ^ 64) :
    (∀ deps body e, ObjectEnvelope.new kind deps body = .ok e → e.Within limits →
        decodeEnvelope kind e.canonicalBytes limits = .ok e) ∧
      (∀ deps deps' body, (∀ d, d ∈ deps ↔ d ∈ deps') →
        (ObjectEnvelope.new kind deps body).map ObjectEnvelope.canonicalBytes =
          (ObjectEnvelope.new kind deps' body).map ObjectEnvelope.canonicalBytes) ∧
      ∀ bytes e, decodeEnvelope kind bytes limits = .ok e →
        e.canonicalBytes = bytes ∧ ObjectEnvelope.new kind e.dependencies e.body = .ok e := by
  refine ⟨fun deps body e made within => ?_, fun deps deps' body same => ?_, fun bytes e decoded => ?_⟩
  · obtain ⟨version, rfl, -, ascending, -, payload⟩ := ObjectEnvelope.new_ok made
    exact decode_canonicalBytes known version ascending payload word within
  · rw [ObjectEnvelope.new, ObjectEnvelope.new, canonical_congr same]
  · obtain ⟨same, rfl, version, ascending, payload⟩ := canonicalBytes_decode decoded
    exact ⟨same, ObjectEnvelope.new_self version ascending payload⟩

/-- A tree with two dependencies that were listed in the other order. -/
theorem envelope_canonical_tree :
    decodeEnvelope .tree (⟨1, .tree, [sameBytes 1, sameBytes 2], [7]⟩ : ObjectEnvelope).canonicalBytes .default =
      .ok ⟨1, .tree, [sameBytes 1, sameBytes 2], [7]⟩ := by
  refine (envelope_canonical .tree (by decide) .default (by decide)).1 [sameBytes 2, sameBytes 1, sameBytes 2] [7] _ ?_ ?_
  · decide +kernel
  · exact ⟨by decide +kernel, fun _ => by decide +kernel, fun _ => by decide +kernel⟩

end Cavs
