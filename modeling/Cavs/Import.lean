import Cavs.Bundle
import Cavs.ObjectIdentity

/-!
# An import that does not get through

An import puts the objects of a verified bundle in the order of its table. It stops early
where the store has a smaller ceiling than the reader, where an operation fails or where
the machine does; what it leaves then goes by the order of the table.
-/
namespace Cavs
open FileProg (Bytes IoError Op)
open FileProg.Eff
open ByteScan
open List (append_nil find?_some mem_append mem_append_left mem_singleton nil_append not_mem_nil)

section Read
variable {zstd : Zstd} {limits : BundleLimits} {hash : Bytes → ChunkHash} {raw : Bytes}

/-- A kind that was read is one that a tag stands for. -/
theorem readKind_known (what : String) : Yields (readKind what) ObjectKind.Known :=
  Yields.num.bind fun tag small _ c kind d _ h => by
    cases found : ObjectKind.fromTag tag with
    | none => rw [found] at h; cases h
    | some k =>
        rw [found] at h
        cases h
        exact ObjectKind.known_of_fromTag small found

theorem readRow_known : Yields readRow fun row => row.kind.Known :=
  (readKind_known _).bind fun _ known => .skip fun _ => .skip fun _ => .skip fun _ => .pure known

theorem readHeader_known : Yields (readHeader limits) fun h => ∀ row ∈ h.table, row.kind.Known :=
  .skip fun _ => .ite .throw <| .skip fun _ => .ite .throw <| .skip fun _ => .skip fun _ => .skip fun _ =>
    .skip fun _ => .skip fun _ => .skip fun _ => .skip fun _ => .skip fun _ => .skip fun _ => .skip fun _ =>
    .skip fun _ => .skip fun _ => .skip fun _ => .skip fun _ => (readRow_known.collect _).bind fun _ known =>
    .skip fun _ => .skip fun _ => .ite .throw (.ite .throw (.pure known))

theorem readContent_known : Yields (readContent zstd limits) fun c => ∀ row ∈ c.table, row.kind.Known :=
  readHeader_known.bind fun _ known => .skip fun _ => .skip fun _ => .pure known

theorem openBytes_known {a : OpenBundle} (h : openBytes zstd limits hash raw = .ok a) :
    ∀ row ∈ a.content.table, row.kind.Known := by
  unfold openBytes at h
  split_ifs at h
  split at h
  · cases h
  rename_i content c read
  split at h
  · cases h
  cases h
  exact readContent_known _ _ _ _ _ (Prod.ext read rfl)

def Row.filed (payload : Bytes) (row : Row) : Filed := ⟨row.id, row.kind, sliceOf payload row⟩

/-- What verification says of a table: every row names its slice of the payload, and the
objects found are those of the rows, one for each id. -/
theorem verifyRows_ok {payload : Bytes} {rows : List Row} {contents all : List Filed}
    (h : verifyRows hash payload rows contents = .ok all) (once : (contents.map Filed.id).Nodup) :
    (∀ row ∈ rows, row.offset + row.length ≤ payload.length ∧
      ObjectId.compute hash row.kind (sliceOf payload row) = row.id) ∧
      (∀ f, f ∈ all ↔ f ∈ contents ∨ ∃ row ∈ rows, row.filed payload = f) ∧ (all.map Filed.id).Nodup := by
  induction rows generalizing contents with
  | nil =>
      cases h
      exact ⟨fun row mem => (not_mem_nil mem).elim, by simp, once⟩
  | cons row rows ih =>
      unfold verifyRows at h
      split_ifs at h with large past
      dsimp only at h
      split_ifs at h with named
      have here : row.offset + row.length ≤ payload.length ∧
          ObjectId.compute hash row.kind (sliceOf payload row) = row.id :=
        ⟨Nat.le_of_not_lt past, not_not.mp named⟩
      split at h
      · rename_i f found
        split_ifs at h with differ
        obtain ⟨rest, mem, nodup⟩ := ih h once
        have same : row.filed payload = f := by
          have id : f.id = row.id := by simpa using find?_some found
          obtain ⟨fid, kind, bytes⟩ := f
          simp only [not_or, not_not] at differ id
          rw [Row.filed, ← id, ← differ.1, ← differ.2]
        refine ⟨List.forall_mem_cons.mpr ⟨here, rest⟩, fun g => ?_, nodup⟩
        rw [mem g, List.exists_mem_cons_iff]
        constructor
        · exact .imp_right Or.inr
        · rintro (old | rfl | new)
          · exact .inl old
          · exact .inl (same ▸ List.mem_of_find?_eq_some found)
          · exact .inr new
      · rename_i new
        have fresh : row.id ∉ contents.map Filed.id := by
          intro mem
          obtain ⟨f, mem, same⟩ := List.mem_map.mp mem
          exact absurd (decide_eq_true same) (by simpa using List.find?_eq_none.mp new f mem)
        have once' : ((contents ++ [row.filed payload]).map Filed.id).Nodup := by
          rw [List.map_append]
          exact List.nodup_append.mpr ⟨once, List.nodup_singleton _, fun a ha b hb => by
            rw [List.map_singleton, mem_singleton] at hb
            rintro rfl
            exact fresh ((show a = row.id from hb) ▸ ha)⟩
        obtain ⟨rest, mem, nodup⟩ := ih h once'
        refine ⟨List.forall_mem_cons.mpr ⟨here, rest⟩, fun g => ?_, nodup⟩
        have mem := mem g
        change g ∈ all ↔ g ∈ contents ++ [row.filed payload] ∨ _ at mem
        rw [mem, mem_append, mem_singleton, List.exists_mem_cons_iff, or_assoc, eq_comm (a := g)]

end Read

section Rows
variable {hash : Bytes → ChunkHash} {own : DecodeLimits} {payload : Bytes} {w v : ObjDisk} {l : List Row}
  {cur : Option Row} {row : Row} {all rest : List Row} {kind : ObjectKind} {bytes : Bytes} {t : Nat}
  {limits : DecodeLimits}

/-- The store takes an object of this size. -/
def Row.Fits (own : DecodeLimits) (payload : Bytes) (row : Row) : Prop :=
  (sliceOf payload row).length ≤ own.maxLenFor row.kind

/-- What an object names as its dependencies, under any limits that let it be read. -/
def Declares (kind : ObjectKind) (bytes : Bytes) (y : ObjectId) : Prop :=
  ∃ limits envelope, decodeEnvelope kind bytes limits = .ok envelope ∧ y ∈ envelope.dependencies

/-- No object is there without what it depends on. -/
def DependencyClosed (w : ObjDisk) : Prop := ∀ limits x y, Edge (lookup limits w) x y → Present w y

/-- A store between two puts, or in one: all of `l` is there, perhaps `cur`, and nothing
else is new. -/
structure Between (own : DecodeLimits) (payload : Bytes) (w v : ObjDisk) (l : List Row) (cur : Option Row) :
    Prop where
  files : ∀ id, v.get (.loose id) = w.get (.loose id) ∨ w.get (.loose id) = none ∧
    ∃ row ∈ l ++ cur.toList, row.id = id ∧ ∃ t, v.get (.loose id) = some ⟨looseBytes row.kind (sliceOf payload row), t⟩
  done : ∀ row ∈ l, Present v row.id
  fits : ∀ row ∈ l ++ cur.toList, Present w row.id ∨ row.Fits own payload

/-- Either every object that a store lacks fits it, or the first of them does not. -/
def FitsOrNothing (own : DecodeLimits) (payload : Bytes) (w : ObjDisk) (all : List Row) : Prop :=
  ∀ row, all.find? (fun r => ¬ Present w r.id) = some row → row.Fits own payload →
    ∀ r ∈ all, ¬ Present w r.id → r.Fits own payload

/-- What an object that is put depends on is there before or does not come later in the table. -/
def Ordered (own : DecodeLimits) (payload : Bytes) (w : ObjDisk) (all : List Row) : Prop :=
  ∀ l row rest, all = l ++ row :: rest → (∀ r ∈ l, Present w r.id ∨ r.Fits own payload) →
    ¬ Present w row.id → row.Fits own payload →
    ∀ y, Declares row.kind (sliceOf payload row) y → Present w y ∨ ∃ r ∈ l ++ [row], r.id = y

theorem Between.start : Between own payload w w [] none :=
  ⟨fun _ => .inl rfl, fun _ mem => (not_mem_nil mem).elim, fun _ mem => (not_mem_nil mem).elim⟩

theorem Between.present (h : Between own payload w v l cur) {id : ObjectId} (there : Present w id) :
    Present v id := by
  rcases h.files id with same | ⟨none, -⟩
  · rw [Present, same]
    exact there
  · rw [Present, none] at there
    cases there

/-- A row whose object is there counts as put. -/
theorem Between.found (h : Between own payload w v l none) (there : Present v row.id)
    (same : ∀ r ∈ l, r.id = row.id → r.filed payload = row.filed payload) :
    Between own payload w v (l ++ [row]) none := by
  refine ⟨fun id => ?_, fun r mem => ?_, fun r mem => ?_⟩
  · refine (h.files id).imp_right fun ⟨gone, r, mem, rest⟩ => ⟨gone, r, ?_, rest⟩
    rw [Option.toList_none, append_nil] at mem ⊢
    exact mem_append_left _ mem
  · rcases mem_append.mp mem with mem | mem
    · exact h.done r mem
    · cases mem_singleton.mp mem
      exact there
  · rw [Option.toList_none, append_nil] at mem
    rcases mem_append.mp mem with mem | mem
    · exact h.fits r (mem_append_left _ mem)
    · cases mem_singleton.mp mem
      rcases h.files row.id with old | ⟨none, r, mem, named, -⟩
      · refine .inl ?_
        rwa [Present, ← old]
      · rw [Option.toList_none, append_nil] at mem
        have one := same r mem named
        rw [Row.filed, Row.filed, Filed.mk.injEq] at one
        rcases h.fits r (mem_append_left _ mem) with old | fits
        · exact .inl (named ▸ old)
        · refine .inr ?_
          rwa [Row.Fits, ← one.2.1, ← one.2.2]

/-- A put in progress. -/
theorem Between.put (h : Between own payload w v l none) {v' : ObjDisk} (absent : ¬ Present v row.id)
    (fits : row.Fits own payload)
    (put : PutFrom row.id (looseBytes row.kind (sliceOf payload row)) v v') :
    Between own payload w v' l (some row) := by
  have gone : w.get (.loose row.id) = none := by
    rw [← Option.not_isSome_iff_eq_none]
    exact fun there => absent (h.present there)
  refine ⟨fun id => ?_, fun r mem => ?_, fun r mem => ?_⟩
  · by_cases same : id = row.id
    · subst same
      rcases put.2 with old | ⟨-, t, new⟩
      · refine .inl ?_
        rw [old, gone]
        simpa [Present] using absent
      · exact .inr ⟨gone, row, by simp, rfl, t, new⟩
    · rw [put.1 id same]
      rcases h.files id with old | ⟨none, r, mem, rest⟩
      · exact .inl old
      · rw [Option.toList_none, append_nil] at mem
        exact .inr ⟨none, r, mem_append_left _ mem, rest⟩
  · have there := h.done r mem
    rw [Present, put.1 r.id fun same => absent (same ▸ there)]
    exact there
  · rcases mem_append.mp mem with mem | mem
    · exact h.fits r (mem_append_left _ mem)
    · cases mem_singleton.mp mem
      exact .inr fits

/-- The file of a row that was put. -/
theorem Between.landed (h : Between own payload w v l none) (one : ∀ r ∈ l, r.id = row.id → r.filed payload = row.filed payload)
    (mem : row ∈ l) (absent : w.get (.loose row.id) = none) :
    ∃ t, v.get (.loose row.id) = some ⟨looseBytes row.kind (sliceOf payload row), t⟩ := by
  rcases h.files row.id with same | ⟨-, r, mem', named, t, file⟩
  · have there := h.done row mem
    rw [Present, same, absent] at there
    cases there
  · rw [Option.toList_none, append_nil] at mem'
    have one := one r mem' named
    rw [Row.filed, Row.filed, Filed.mk.injEq] at one
    rw [one.2.1, one.2.2] at file
    exact ⟨t, file⟩

/-- A put that ended well. -/
theorem Between.placed (h : Between own payload w v l (some row)) (there : Present v row.id) :
    Between own payload w v (l ++ [row]) none := by
  refine ⟨fun id => ?_, fun r mem => ?_, fun r mem => h.fits r (by simpa using mem)⟩
  · exact (h.files id).imp_right fun ⟨gone, r, mem, rest⟩ => ⟨gone, r, by simpa using mem, rest⟩
  · rcases mem_append.mp mem with mem | mem
    · exact h.done r mem
    · cases mem_singleton.mp mem
      exact there

theorem declares_of_edge {x y : ObjectId} (known : kind.Known)
    (file : v.get (.loose x) = some ⟨looseBytes kind bytes, t⟩) (e : Edge (lookup limits v) x y) :
    Declares kind bytes y := by
  obtain ⟨node, found, dep⟩ := e
  rw [lookup, file] at found
  dsimp only at found
  rw [looseNode_parsed limits (parseLoose_looseBytes known)] at found
  unfold looseNode.decodeEnvelopeOf at found
  split_ifs at found with payload
  · cases found
    cases dep
  · cases decoded : decodeEnvelope kind bytes limits with
    | error e => rw [decoded] at found; cases found
    | ok envelope =>
        rw [decoded] at found
        cases found
        exact ⟨limits, envelope, decoded, dep⟩

theorem decodeEnvelope_payload {e : ObjectEnvelope} (payload : kind.isPayload = true)
    (h : decodeEnvelope kind bytes limits = .ok e) : e.dependencies = [] := by
  unfold decodeEnvelope at h
  split_ifs at h
  cases h
  rfl

theorem edge_of_declares {x y : ObjectId} (known : kind.Known)
    (file : v.get (.loose x) = some ⟨looseBytes kind bytes, t⟩) (declares : Declares kind bytes y) :
    ∃ limits, Edge (lookup limits v) x y := by
  obtain ⟨limits, e, decoded, dep⟩ := declares
  have body : ¬ kind.isPayload = true := by
    intro payload
    rw [decodeEnvelope_payload payload decoded] at dep
    cases dep
  have found : lookup limits v x = .ok (some ⟨x, kind, UInt64.ofNat bytes.length, e.dependencies⟩) := by
    rw [lookup, file]
    dsimp only
    rw [looseNode_parsed limits (parseLoose_looseBytes known), looseNode.decodeEnvelopeOf, if_neg body, decoded]
    rfl
  exact ⟨limits, _, found, dep⟩

/-- The rows before the last one in progress are done. -/
theorem mem_of_split {l₁ l₂ : List Row} (split : l ++ cur.toList = l₁ ++ row :: l₂) : l₁ ⊆ l := by
  have length := congrArg List.length split
  have short : cur.toList.length ≤ 1 := by cases cur <;> simp
  simp only [List.length_append, List.length_cons] at length
  have front : l₁ <+: l ++ cur.toList := ⟨row :: l₂, split.symm⟩
  exact (List.prefix_of_prefix_length_le front (List.prefix_append _ _) (by omega)).subset

/-- In a table in order no object comes without what it depends on. -/
theorem Between.closed (h : Between own payload w v l cur) (closed : DependencyClosed w)
    (ordered : Ordered own payload w all) (split : all = l ++ cur.toList ++ rest)
    (known : ∀ row ∈ all, row.kind.Known) : DependencyClosed v := by
  intro limits x y e
  rcases h.files x with same | ⟨none, row, mem, rfl, t, file⟩
  · refine h.present (closed limits x y ?_)
    obtain ⟨node, found, dep⟩ := e
    refine ⟨node, ?_, dep⟩
    rw [← found, lookup, lookup, same]
  · have there : row ∈ all := by
      rw [split]
      exact mem_append_left _ mem
    have declares := declares_of_edge (known row there) file e
    obtain ⟨l₁, l₂, parts⟩ := List.append_of_mem mem
    have absent : ¬ Present w row.id := by simp [Present, none]
    have before : ∀ r ∈ l₁, Present w r.id ∨ r.Fits own payload := fun r mem =>
      h.fits r (parts ▸ mem_append_left _ mem)
    have whole : all = l₁ ++ row :: (l₂ ++ rest) := by
      rw [split, parts]
      simp
    rcases ordered l₁ row _ whole before absent ((h.fits row mem).resolve_left absent) y declares with
      old | ⟨r, mem, rfl⟩
    · exact h.present old
    rcases mem_append.mp mem with mem | mem
    · exact h.done r (mem_of_split parts mem)
    · cases mem_singleton.mp mem
      rw [Present, file]
      rfl

/-- Where the first object that a store lacks decides for all, a row that does not fit is
come to with nothing put. -/
theorem Between.untouched (h : Between own payload w v l none) (fits : FitsOrNothing own payload w all)
    (split : all = l ++ row :: rest) (absent : ¬ Present w row.id) (large : ¬ row.Fits own payload) (id : ObjectId) :
    v.get (.loose id) = w.get (.loose id) := by
  refine (h.files id).resolve_right ?_
  rintro ⟨none, r, mem, rfl, -⟩
  rw [Option.toList_none, append_nil] at mem
  have lacks : (all.find? fun r => ¬ Present w r.id).isSome := by
    rw [List.find?_isSome]
    exact ⟨row, by rw [split]; simp, by simpa using absent⟩
  obtain ⟨first, found⟩ := Option.isSome_iff_exists.mp lacks
  have inside : first ∈ l := by
    have missing : ∃ r ∈ l, decide (¬ Present w r.id) = true := ⟨r, mem, by simp [Present, none]⟩
    rw [split, List.find?_append] at found
    cases here : l.find? fun r => ¬ Present w r.id with
    | none =>
        obtain ⟨r, mem, gone⟩ := missing
        exact absurd gone (List.find?_eq_none.mp here r mem)
    | some f =>
        rw [here, Option.some_or, Option.some.injEq] at found
        exact found ▸ List.mem_of_find?_eq_some here
  have gone : ¬ Present w first.id := by simpa using find?_some found
  have small := (h.fits first (mem_append_left _ inside)).resolve_left gone
  exact large (fits first found small row (by rw [split]; simp) absent)

end Rows

section Run
variable {zstd : Zstd} {limits : BundleLimits} {hash : Bytes → ChunkHash} {own : DecodeLimits}
  {durability : Durability} {payload raw : Bytes} {mayFail : Op ObjPath Unit → ObjDisk → Prop} {s : Nat}
  {w v : ObjDisk} {all l l₁ rows : List Row} {report : ImportReport} {C : ObjDisk → Prop} {a : OpenBundle}
  {kind : ObjectKind} {bytes : Bytes} {Q : Except ObjectError ImportReport → Nat → ObjDisk → Prop}

theorem putObject_large {Q : Except ObjectError ObjectId → Nat → ObjDisk → Prop} (here : C w)
    (large : bytes.length > own.maxLenFor kind)
    (next : Q (.error (.tooLarge "object" bytes.length (own.maxLenFor kind))) s w) :
    (putObject hash own durability kind bytes).Wp (objSem mayFail) C Q s w := by
  rw [putObject, if_pos large]
  exact (wp_throw ..).mpr ⟨here, next⟩

/-- What a table has to be like to be put: its rows name their slices, and one id is one
object. -/
structure Checked (hash : Bytes → ChunkHash) (payload : Bytes) (all : List Row) : Prop where
  named : ∀ row ∈ all, ObjectId.compute hash row.kind (sliceOf payload row) = row.id
  one : ∀ r ∈ all, ∀ r' ∈ all, r.id = r'.id → r.filed payload = r'.filed payload

/-- How putting a table ends: with all of it, with a failed operation, or at an object that
does not fit. -/
def PutEnds (mayFail : Op ObjPath Unit → ObjDisk → Prop) (own : DecodeLimits) (payload : Bytes) (w : ObjDisk)
    (missing : List ObjectId) (rest : List Row) (cur : Option Row) : Except ObjectError ImportReport → Prop
  | .ok report => rest = [] ∧ cur = none ∧ report.missingPrerequisites = missing
  | .error e => ((∃ o u, mayFail o u) ∧ ∃ what io, e = .io what io) ∨
      (∀ what io, e ≠ .io what io) ∧ cur = none ∧ ∃ row rest', rest = row :: rest' ∧ ¬ Present w row.id ∧ ¬ row.Fits own payload

/-- Putting a table goes from row to row. -/
theorem putRows_wp (checked : Checked hash payload all)
    (crash : ∀ l cur rest v, all = l ++ cur.toList ++ rest → Between own payload w v l cur → C v)
    (next : ∀ r t v l cur rest, all = l ++ cur.toList ++ rest → Between own payload w v l cur →
      PutEnds mayFail own payload w report.missingPrerequisites rest cur r → Q r t v) (split : all = l ++ rows)
    (h : Between own payload w v l none) :
    (putRows hash own durability payload rows report).Wp (objSem mayFail) C Q s v := by
  induction rows generalizing l v s report with
  | nil =>
      have whole : all = l ++ (none : Option Row).toList ++ [] := by simpa using split
      exact ⟨crash l none [] v whole h, next _ _ _ l none [] whole h ⟨rfl, rfl, rfl⟩⟩
  | cons row rows ih =>
      have whole : all = l ++ (none : Option Row).toList ++ (row :: rows) := by simpa using split
      have during : all = l ++ (some row).toList ++ rows := by simpa using split
      have after : all = (l ++ [row]) ++ rows := by simpa using split
      have inside : row ∈ all := by rw [split]; simp
      have here := crash l none _ v whole h
      refine (wp_present here (wp_ite (fun there => ?_) fun absent => ?_)).then
      · exact ih next after (h.found there fun r mem => checked.one r (by rw [split]; simp [mem]) row inside)
      · by_cases fits : row.Fits own payload
        · refine Wp.seq (R := fun r _ v' => Between own payload w v' l (some row) ∧
            (∀ id, r = .ok id → id = row.id ∧ (v'.get (.loose id)).isSome) ∧
            ∀ e, r = .error e → (∃ o u, mayFail o u) ∧ ∃ what io, e = .io what io) ?_ ?_ ?_
          · refine putObject_wp (fun v' put => ?_) fun r t v' put ok bad => ⟨?_, fun id done => ?_, fun e fail => ?_⟩
            · rw [checked.named row inside] at put
              exact crash l (some row) _ v' during (h.put absent fits put)
            · rw [checked.named row inside] at put
              exact h.put absent fits put
            · rw [← checked.named row inside]
              exact ok id done
            · exact (bad e fail).elim (fun large => absurd fits (Nat.not_le_of_gt large.1)) And.right
          · rintro id t v' - ⟨between, ok, -⟩
            obtain ⟨rfl, there⟩ := ok id rfl
            exact ih next after (between.placed there)
          · rintro e t v' ⟨between, -, bad⟩
            exact next _ _ _ l (some row) _ during between (.inl (bad e rfl))
        · refine Wp.then (putObject_large here (Nat.lt_of_not_le fits) ⟨here, ?_⟩)
          refine next _ _ _ l none _ whole h (.inr ⟨fun what io => by simp, rfl, row, rows, rfl, ?_, fits⟩)
          exact fun there => absent (h.present there)

theorem missingOf_wp {ids : List ObjectId} {Q : Except ObjectError (List ObjectId) → Nat → ObjDisk → Prop}
    (here : C w) (next : Q (.ok (ids.filter fun id => ¬ Present w id)) s w) :
    (missingOf ids).Wp (objSem mayFail) C Q s w := by
  induction ids generalizing Q with
  | nil => exact ⟨here, next⟩
  | cons id ids ih =>
      refine (wp_present here ?_).then
      refine Wp.then (ih ⟨here, ?_⟩)
      change Q (.ok (if Present w id then _ else _)) s w
      by_cases there : Present w id
      · rw [List.filter_cons_of_neg (by simpa using there)] at next
        rwa [if_pos there]
      · rw [List.filter_cons_of_pos (by simpa using there)] at next
        rwa [if_neg there]

theorem verifyOpen_checked {content : Content} {verification : BundleVerification}
    (h : verifyOpen hash limits content = .ok verification) : Checked hash content.payload content.table := by
  unfold verifyOpen at h
  cases found : verifyRows hash content.payload content.table [] with
  | error e => rw [found] at h; cases h
  | ok contents =>
      obtain ⟨named, mem, once⟩ := verifyRows_ok found List.nodup_nil
      refine ⟨fun row inside => (named row inside).2, fun r hr r' hr' same => ?_⟩
      have inside : ∀ {r}, r ∈ content.table → r.filed content.payload ∈ contents := fun hr =>
        (mem _).mpr (.inr ⟨_, hr, rfl⟩)
      exact List.inj_on_of_nodup_map once (inside hr) (inside hr') same

/-- The bundle is read and verified, and names nothing that it neither has nor asks for. -/
def Admitted (zstd : Zstd) (limits : BundleLimits) (hash : Bytes → ChunkHash) (raw : Bytes) (a : OpenBundle) : Prop :=
  openBytes zstd limits hash raw = .ok a ∧
    ∃ verification, verifyOpen hash limits a.content = .ok verification ∧ verification.dangling = []

theorem Admitted.checked (admitted : Admitted zstd limits hash raw a) :
    Checked hash a.content.payload a.content.table := by
  obtain ⟨-, verification, verified, -⟩ := admitted
  exact verifyOpen_checked verified

/-- An import leaves the store alone up to the moment it puts the first row of a table that
was read and verified. -/
theorem importBundle_wp (here : C w) (refused : ∀ e, Q (.error e) s w)
    (puts : ∀ a, Admitted zstd limits hash raw a → ∀ report, (putRows hash own durability a.content.payload a.content.table report).Wp (objSem mayFail) C Q s w) :
    (importBundle hash zstd limits own durability raw).Wp (objSem mayFail) C Q s w := by
  unfold importBundle
  cases opened : openBytes zstd limits hash raw with
  | error e => exact ⟨here, refused e⟩
  | ok a =>
      change ((ofExcept (verifyOpen hash limits a.content) >>= _) : ObjM ImportReport).Wp _ _ _ _ _
      cases verified : verifyOpen hash limits a.content with
      | error e => exact ⟨here, refused e⟩
      | ok verification =>
          refine wp_ite (m := FileProg.Eff.throw _) (fun _ => (wp_throw ..).mpr ⟨here, refused _⟩) fun whole => ?_
          exact Wp.then (missingOf_wp here (puts a ⟨opened, verification, verified, not_not.mp whole⟩ _))

/-- What an import comes to when nothing is wrong with the bundle. -/
theorem Admitted.import_eq (admitted : Admitted zstd limits hash raw a) :
    importBundle hash zstd limits own durability raw = (missingOf a.content.prerequisites >>= fun missing =>
      putRows hash own durability a.content.payload a.content.table ⟨0, 0, 0, missing, a.content.refs⟩) := by
  obtain ⟨opened, verification, verified, whole⟩ := admitted
  unfold importBundle
  rw [opened]
  change ((ofExcept (verifyOpen hash limits a.content) >>= _) : ObjM ImportReport) = _
  rw [verified]
  exact if_neg (not_not.mpr whole)

/-- Where no operation fails, an import goes through, or comes to an object that does not fit. -/
theorem Admitted.ends (admitted : Admitted zstd limits hash raw a) :
    (importBundle hash zstd limits own durability raw).Wp (objSem fun _ _ => False) (fun _ => True)
      (fun r _ v => ∃ l rest, a.content.table = l ++ rest ∧ Between own a.content.payload w v l none ∧
        match r with
        | .ok report => rest = [] ∧ report.missingPrerequisites = a.content.prerequisites.filter fun id => ¬ Present w id
        | .error e => (∀ what io, e ≠ .io what io) ∧
            ∃ row rest', rest = row :: rest' ∧ ¬ Present w row.id ∧ ¬ row.Fits own a.content.payload) s w := by
  rw [admitted.import_eq]
  refine Wp.then (missingOf_wp trivial ?_)
  refine putRows_wp admitted.checked (fun _ _ _ _ _ _ => trivial)
    (fun r t v l cur rest split between ends => ?_) (nil_append _).symm Between.start
  cases r with
  | ok report =>
      obtain ⟨rfl, rfl, missing⟩ := ends
      exact ⟨l, [], by simpa using split, between, rfl, missing⟩
  | error e =>
      rcases ends with ⟨⟨o, u, never⟩, -⟩ | ⟨other, rfl, row, rest', rfl, absent, large⟩
      · exact never.elim
      · exact ⟨l, row :: rest', by simpa using split, between, other, row, rest', rfl, absent, large⟩

/-- Where no operation fails, an import of a bundle without dangling references puts every
object, if each that is not there fits. -/
theorem importBundle_lands (admitted : Admitted zstd limits hash raw a)
    (fits : ∀ row ∈ a.content.table, Present w row.id ∨ row.Fits own a.content.payload) :
    (importBundle hash zstd limits own durability raw).Wp (objSem fun _ _ => False) (fun _ => True)
      (fun r _ v => (∃ report, r = .ok report ∧
        report.missingPrerequisites = a.content.prerequisites.filter fun id => ¬ Present w id) ∧
        Between own a.content.payload w v a.content.table none) s w := by
  refine admitted.ends.mono (fun _ _ => trivial) fun r t v => ?_
  rintro ⟨l, rest, split, between, ends⟩
  cases r with
  | ok report =>
      obtain ⟨rfl, missing⟩ := ends
      rw [append_nil] at split
      exact ⟨⟨report, rfl, missing⟩, split ▸ between⟩
  | error e =>
      obtain ⟨-, row, rest', rfl, absent, large⟩ := ends
      exact absurd ((fits row (by rw [split]; simp)).resolve_left absent) large

theorem putObject_plain : (putObject hash own durability kind bytes).All Op.Plain := by
  unfold putObject
  split
  · exact .throw _
  refine .bind (.op trivial) fun known => ?_
  split
  · exact .pure _
  refine .bind .get fun writer => .bind (.modify _) fun _ => .bind (.op trivial) fun _ => .bind (.orThrow _ _) fun _ =>
    .bind ?_ fun _ => .bind (.op trivial) fun r => ?_
  · split
    · exact .bind (.op trivial) fun _ => .orThrow _ _
    · exact .pure _
  · split
    · exact .pure _
    · refine .bind (.op trivial) fun _ => .bind (.op trivial) fun there => ?_
      split
      · exact .pure _
      · exact .throw _

theorem missingOf_plain (ids : List ObjectId) : (missingOf ids).All Op.Plain := by
  induction ids with
  | nil => exact .pure _
  | cons id ids ih => exact .bind (.op trivial) fun _ => .bind ih fun _ => .pure _

/-- An import has an end in every store. -/
theorem importBundle_plain : (importBundle hash zstd limits own durability raw).All Op.Plain := by
  have puts : ∀ payload rows report, (putRows hash own durability payload rows report).All Op.Plain := by
    intro payload rows
    induction rows with
    | nil => exact fun _ => .pure _
    | cons row rows ih =>
        intro report
        refine .bind (.op trivial) fun there => ?_
        split
        · exact ih _
        · exact .bind putObject_plain fun _ => ih _
  refine .bind (.ofExcept _) fun a => .bind (.ofExcept _) fun v => ?_
  split
  · exact .throw _
  · exact .bind (missingOf_plain _) fun _ => puts _ _ _

/-- Where no operation fails and the first rows are there or fit, an import can be cut short
right after them. -/
theorem putRows_cut (checked : Checked hash payload all) (split : all = l ++ (l₁ ++ rows))
    (fits : ∀ r ∈ l₁, Present w r.id ∨ r.Fits own payload) (h : Between own payload w v l none) :
    ∃ v', (putRows hash own durability payload (l₁ ++ rows) report s).Crashes (objSem fun _ _ => False) v v' ∧
      Between own payload w v' (l ++ l₁) none := by
  induction l₁ generalizing l v s report with
  | nil => exact ⟨v, FileProg.Prog.crashes_here, by rwa [append_nil]⟩
  | cons row l₁ ih =>
      obtain ⟨here, fits⟩ := List.forall_mem_cons.mp fits
      have after : all = (l ++ [row]) ++ (l₁ ++ rows) := by simpa using split
      have inside : row ∈ all := by rw [split]; simp
      have joined : l ++ row :: l₁ = (l ++ [row]) ++ l₁ := by simp
      have look : ∀ {b}, (v.get (.loose row.id)).isSome = b →
          (hasObject row.id : ObjM Bool).Runs (objSem fun _ _ => False) s v (.ok b) s v :=
        fun found => ⟨_, v, .inl ⟨rfl, found.symm⟩, rfl, rfl⟩
      rw [List.cons_append, putRows, joined]
      by_cases there : Present v row.id
      · have found := h.found there fun r mem => checked.one r (by rw [split]; simp [mem]) row inside
        obtain ⟨v', cut, between⟩ := ih after fits found
        exact ⟨v', crashes_bind (look there) cut, between⟩
      · have absent : ¬ Present w row.id := fun old => there (h.present old)
        have small := here.resolve_left absent
        obtain ⟨r, t, u, run⟩ := putObject_plain.runs (σ := objSem fun _ _ => False) s v
        obtain ⟨from_, ok, bad⟩ := ((wp_iff ..).mp (putObject_wp (C := fun _ => True)
          (Q := fun r _ u => PutFrom (.compute hash row.kind (sliceOf payload row))
              (looseBytes row.kind (sliceOf payload row)) v u ∧
            (∀ id, r = .ok id → (u.get (.loose (.compute hash row.kind (sliceOf payload row)))).isSome) ∧
            ∀ e, r ≠ .error e) (fun _ _ => trivial) fun r t u put ok bad =>
              ⟨put, fun id done => by obtain ⟨rfl, there⟩ := ok id done; exact there, fun e fail => by
                rcases bad e fail with ⟨large, -⟩ | ⟨-, ⟨o, u, never⟩, -⟩
                · exact absurd small (Nat.not_le_of_gt large)
                · exact never⟩)).2 r t u run
        rw [checked.named row inside] at from_ ok
        cases r with
        | error e => exact absurd rfl (bad e)
        | ok id =>
            obtain ⟨v', cut, between⟩ := ih after fits ((h.put there small from_).placed (ok id rfl))
            exact ⟨v', crashes_bind (look (Bool.eq_false_of_not_eq_true there)) (crashes_bind run cut), between⟩

section Leaves
variable (zstd limits hash own durability raw w)

/-- An import that fails otherwise than by an operation leaves every object as it was. -/
def LeavesNothing : Prop := ∀ mayFail s e t v,
  (importBundle hash zstd limits own durability raw).Runs (objSem mayFail) s w (.error e) t v →
    (∀ what io, e ≠ .io what io) → ∀ id, v.get (.loose id) = w.get (.loose id)

/-- However an import ends or is cut short, no object is there without what it depends on. -/
def LeavesClosed : Prop := ∀ mayFail s,
  (∀ v, (importBundle hash zstd limits own durability raw s).Crashes (objSem mayFail) w v → DependencyClosed v) ∧
    ∀ r t v, (importBundle hash zstd limits own durability raw).Runs (objSem mayFail) s w r t v → DependencyClosed v

end Leaves

theorem leavesNothing_of_fits
    (fits : ∀ a, Admitted zstd limits hash raw a → FitsOrNothing own a.content.payload w a.content.table) :
    LeavesNothing zstd limits hash own durability raw w := by
  intro mayFail s e t v run other
  have goal : (importBundle hash zstd limits own durability raw).Wp (objSem mayFail) (fun _ => True)
      (fun r _ v => ∀ e, r = .error e → (∀ what io, e ≠ .io what io) →
        ∀ id, v.get (.loose id) = w.get (.loose id)) s w := by
    refine importBundle_wp trivial (fun e _ _ _ id => rfl) fun a admitted report => ?_
    refine putRows_wp admitted.checked (fun _ _ _ _ _ _ => trivial) (fun r t v l cur rest split h ends e fail other => ?_)
      (nil_append _).symm Between.start
    subst fail
    rcases ends with ⟨-, what, io, rfl⟩ | ⟨-, rfl, row, rest', rfl, absent, large⟩
    · exact absurd rfl (other what io)
    · exact h.untouched (fits a admitted) (by simpa using split) absent large
  exact ((wp_iff ..).mp goal).2 _ _ _ run e rfl other

/-- An object that fits ahead of one that does not is left behind. -/
theorem LeavesNothing.fits (leaves : LeavesNothing zstd limits hash own durability raw w)
    (admitted : Admitted zstd limits hash raw a) : FitsOrNothing own a.content.payload w a.content.table := by
  intro first found small r mem absent
  by_contra large
  have plain : (importBundle hash zstd limits own durability raw).All Op.Plain := importBundle_plain
  obtain ⟨res, t, v, run⟩ := plain.runs (σ := objSem fun _ _ => False) 0 w
  obtain ⟨l, rest, split, between, ends⟩ := ((wp_iff ..).mp admitted.ends).2 res t v run
  have fitting : ∀ r ∈ l, Present w r.id ∨ r.Fits own a.content.payload := fun r mem =>
    between.fits r (mem_append_left _ mem)
  cases res with
  | ok report =>
      obtain ⟨rfl, -⟩ := ends
      rw [append_nil] at split
      exact (fitting r (split ▸ mem)).elim absent large
  | error e =>
      obtain ⟨other, row, rest', rfl, gone, big⟩ := ends
      have missing : ¬ Present w first.id := by simpa using find?_some found
      have ahead : first ∈ l := by
        rw [split, List.find?_append] at found
        cases here : l.find? fun r => ¬ Present w r.id with
        | some f =>
            rw [here, Option.some_or, Option.some.injEq] at found
            exact found ▸ List.mem_of_find?_eq_some here
        | none =>
            rw [here, Option.none_or, List.find?_cons_of_pos (by simpa using gone), Option.some.injEq] at found
            exact absurd (found ▸ small) big
      have there := between.done first ahead
      rw [Present, leaves _ _ _ _ _ run other first.id] at there
      exact missing there

theorem leavesClosed_of_ordered (closed : DependencyClosed w)
    (ordered : ∀ a, Admitted zstd limits hash raw a → Ordered own a.content.payload w a.content.table) :
    LeavesClosed zstd limits hash own durability raw w := by
  intro mayFail s
  refine (wp_iff _ _ _).mp (importBundle_wp closed (fun _ => closed) fun a admitted report => ?_)
  have known := openBytes_known admitted.1
  exact putRows_wp admitted.checked (fun l cur rest v split h => h.closed closed (ordered a admitted) split known)
    (fun r t v l cur rest split h _ => h.closed closed (ordered a admitted) split known)
    (nil_append _).symm Between.start

/-- An object ahead of what it depends on is left alone by a cut right after it. -/
theorem LeavesClosed.ordered (leaves : LeavesClosed zstd limits hash own durability raw w)
    (admitted : Admitted zstd limits hash raw a) : Ordered own a.content.payload w a.content.table := by
  intro l row rest split fits absent small y declares
  have checked := admitted.checked
  have inside : ∀ r ∈ l ++ [row], r ∈ a.content.table := by
    intro r mem
    rw [split, List.append_cons]
    exact mem_append_left _ mem
  have whole : a.content.table = [] ++ ((l ++ [row]) ++ rest) := by simpa using split
  have all : ∀ r ∈ l ++ [row], Present w r.id ∨ r.Fits own a.content.payload := by
    intro r mem
    rcases mem_append.mp mem with mem | mem
    · exact fits r mem
    · cases mem_singleton.mp mem
      exact .inr small
  obtain ⟨v, cut, between⟩ : ∃ v, (putRows hash own durability a.content.payload ((l ++ [row]) ++ rest)
      ⟨0, 0, 0, a.content.prerequisites.filter fun id => ¬ Present w id, a.content.refs⟩ 0).Crashes
        (objSem fun _ _ => False) w v ∧ Between own a.content.payload w v ([] ++ (l ++ [row])) none :=
    putRows_cut checked whole all Between.start
  have gone : w.get (.loose row.id) = none := by simpa [Present] using absent
  obtain ⟨t, file⟩ := between.landed (fun r mem => checked.one r (inside r mem) row (inside row (by simp)))
    List.mem_concat_self gone
  obtain ⟨limits', edge⟩ := edge_of_declares (openBytes_known admitted.1 row (inside row (by simp))) file declares
  have looked : (missingOf a.content.prerequisites).Runs (objSem fun _ _ => False) 0 w
      (.ok (a.content.prerequisites.filter fun id => ¬ Present w id)) 0 w := by
    obtain ⟨r, t, u, run⟩ := (missingOf_plain a.content.prerequisites).runs (σ := objSem fun _ _ => False) 0 w
    obtain ⟨rfl, rfl, rfl⟩ := ((wp_iff ..).mp (missingOf_wp (C := fun _ => True)
      (Q := fun r t u => r = .ok _ ∧ t = 0 ∧ u = w) trivial ⟨rfl, rfl, rfl⟩)).2 r t u run
    exact run
  have crashed : (importBundle hash zstd limits own durability raw 0).Crashes (objSem fun _ _ => False) w v := by
    rw [admitted.import_eq]
    exact crashes_bind looked (by rwa [split, List.append_cons])
  have there := (leaves _ _).1 v crashed limits' row.id y edge
  rcases between.files y with same | ⟨-, r, mem, named, -⟩
  · rw [Present, same] at there
    exact .inl there
  · rw [Option.toList_none, append_nil] at mem
    exact .inr ⟨r, mem, named⟩

/-- A bundle of some objects laid back to back; it is not unfolded where it is passed on. -/
@[irreducible] def bundleOf (objects : List (ObjectKind × Bytes)) : Bytes :=
  let rows := objects.foldl (fun (r : List Row × Nat) p =>
    (r.1 ++ [⟨p.1, .compute lengthHash p.1 p.2, r.2, p.2.length⟩], r.2 + p.2.length)) ([], 0)
  sealUnsigned lengthHash
    (writeHeader ⟨1, false, 0, [], [], [], rows.1, rows.2, rows.2⟩ ++ objects.flatMap Prod.snd)

/-- Two chunks, and a store that takes the smaller only. -/
def chunkPair : Bytes := bundleOf [(.chunk, [7]), (.chunk, [7, 7])]
def pairRows : List Row :=
  [⟨.chunk, .compute lengthHash .chunk [7], 0, 1⟩, ⟨.chunk, .compute lengthHash .chunk [7, 7], 1, 2⟩]
def narrow : DecodeLimits := { DecodeLimits.default with maxPayloadLen := 1 }

theorem chunkPair_opens : (openBytes noZstd .default lengthHash chunkPair).map
    (fun a => (a.content.table, a.content.payload)) = .ok (pairRows, [7, 7, 7]) := by decide +kernel

/-- What opens is this table over this payload. -/
theorem chunkPair_content (h : openBytes noZstd .default lengthHash chunkPair = .ok a) :
    a.content.table = pairRows ∧ a.content.payload = [7, 7, 7] := by
  have := chunkPair_opens
  rw [h] at this
  simp only [Except.map, Except.ok.injEq, Prod.mk.injEq] at this
  exact this

theorem dependencyClosed_empty : DependencyClosed .empty := by
  rintro limits x y ⟨node, found, -⟩
  cases found

end Run
end Cavs
