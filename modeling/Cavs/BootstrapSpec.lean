import Cavs.Bootstrap
import Mathlib.Data.List.TakeDrop

/-!
# What a fetch does

Client and server agree on the range that is missing. Every step of a fetch keeps what is
there of the artifact a prefix of it, under a journal that vouches for it.
-/
namespace Cavs.Bootstrap
open FileProg (Bytes Eff File IoError Op World bytes_congr bytes_of_absent bytes_of_get get_move_ne
  get_move_self get_put_ne get_put_self)
open FileProg.Eff (After Wp attempt forEach op orThrow throw wp_append wp_attempt wp_good wp_ite wp_now
  wp_present wp_read wp_remove wp_rename wp_stat wp_write)

section Ranges

variable {ch : Char} {n : Nat}

theorem digit_not_white (digit : ch.isDigit = true) : isWhite ch = false := by
  obtain ⟨low, high⟩ := digit_range digit
  dsimp only [isWhite]
  rw [decide_eq_false_iff_not]
  omega

theorem dropWhile_eq_self {l : List Char} {p : Char → Bool} (none_ : ∀ ch ∈ l, p ch = false) : l.dropWhile p = l := by
  cases l with
  | nil => rfl
  | cons ch l => rw [List.dropWhile_cons_of_neg (by simp [none_ ch List.mem_cons_self])]

theorem trim_decimal (n : Nat) : trim (decimal n) = decimal n := by
  have digits : ∀ ch ∈ decimal n, isWhite ch = false := fun ch mem => digit_not_white (decimal_isDigit mem)
  rw [trim, dropWhile_eq_self digits, dropWhile_eq_self fun ch mem => digits ch (List.mem_reverse.mp mem), List.reverse_reverse]

theorem splitOnce_append {front : List Char} (clear : ch ∉ front) (back : List Char) :
    splitOnce ch (front ++ ch :: back) = some (front, back) := by
  have kept : ∀ c ∈ front, decide (c ≠ ch) = true := fun c mem => decide_eq_true fun same => clear (same ▸ mem)
  have front_ : (front ++ ch :: back).takeWhile (fun c => decide (c ≠ ch)) = front := by
    rw [List.takeWhile_append_of_pos kept, List.takeWhile_cons_of_neg (by simp), List.append_nil]
  have back_ : (front ++ ch :: back).dropWhile (fun c => decide (c ≠ ch)) = ch :: back := by
    rw [List.dropWhile_append_of_pos kept, List.dropWhile_cons_of_neg (by simp)]
  rw [splitOnce, List.span_eq_takeWhile_dropWhile, front_, back_]

theorem not_mem_decimal (other : ch.isDigit = false) (n : Nat) : ch ∉ decimal n := by
  intro mem
  rw [decimal_isDigit mem] at other
  cases other

/-- The server reads the client's range as it was meant. -/
theorem parseByteRange_rangeText (size : Nat) (small : n < 2 ^ 64) :
    parseByteRange (rangeText n) size = if size ≤ n then .unsatisfiable else .range n (size - 1) := by
  have comma : ',' ∉ decimal n ++ ['-'] := by
    rw [List.mem_append, not_or]
    exact ⟨not_mem_decimal (by decide) n, by decide⟩
  have dash : splitOnce '-' (decimal n ++ ['-']) = some (decimal n, []) :=
    splitOnce_append (not_mem_decimal (by decide) n) []
  have open_ : lastByte (trim []) size = some (size - 1) := rfl
  rw [parseByteRange, rangeText, List.isPrefixOf?_eq_some_iff_append_eq.mpr rfl]
  simp only [if_neg comma, dash, trim_decimal, parseU64_decimal small, open_]
  by_cases past : size ≤ n
  · rw [if_pos (.inr (.inl past)), if_pos past]
  · rw [if_neg past, if_neg (by omega)]

/-- A range from a byte of the artifact is all the rest of it. -/
theorem getBootstrap_range {a : Artifact} (inside : n < a.bytes.length) :
    getBootstrap a (some (rangeText n)) = ⟨206, a.bytes.drop n⟩ := by
  have read := parseByteRange_rangeText a.bytes.length (inside.trans a.small)
  have rest : (a.bytes.drop n).take (a.bytes.length - 1 - n + 1) = a.bytes.drop n :=
    List.take_of_length_le (by rw [List.length_drop]; omega)
  rw [if_neg (by omega)] at read
  simp only [getBootstrap, Option.map_some, read, rest]

theorem getBootstrap_past (a : Artifact) : getBootstrap a (some (rangeText a.bytes.length)) = ⟨416, []⟩ := by
  have read := parseByteRange_rangeText a.bytes.length a.small
  rw [if_pos (Nat.le_refl _)] at read
  simp only [getBootstrap, Option.map_some, read]

end Ranges

section Frames
variable {C : Disk → Prop} {Q : Except BootError Unit → Unit → Disk → Prop} {w : Disk} {path : BootPath}

/-- The file holds these bytes now, and nothing else has changed. -/
structure Wrote (w : Disk) (path : BootPath) (b : Bytes) (v : Disk) : Prop where
  file : ∃ t, v.get path = some ⟨b, t⟩
  rest : ∀ q, q ≠ path → v.get q = w.get q

theorem wrote_put (w : Disk) (path : BootPath) (b : Bytes) (t : Nat) : Wrote w path b (w.put path b t) :=
  ⟨⟨t, get_put_self ..⟩, fun _ other => get_put_ne other ..⟩

theorem Wrote.again {b b' : Bytes} {u v : Disk} (first : Wrote w path b u) (then_ : Wrote u path b' v) :
    Wrote w path b' v :=
  ⟨then_.file, fun q other => (then_.rest q other).trans (first.rest q other)⟩

/-- Pieces are appended one after the other; a cut leaves what came before it. -/
theorem appendAll_wp {start : Bytes} {u : Disk} (pieces : List Bytes) (before : Wrote w path start u)
    (cut : ∀ n v, Wrote w path (start ++ pieces.flatten.take n) v → C v)
    (done : ∀ v, Wrote w path (start ++ pieces.flatten) v → Q (.ok ()) () v) :
    (appendAll path pieces).Wp bootSem C Q () u := by
  induction pieces generalizing start u with
  | nil =>
      rw [List.flatten_nil, List.append_nil] at done
      refine ⟨cut 0 u ?_, done u before⟩
      rwa [List.take_zero, List.append_nil]
  | cons piece pieces ih =>
      have held : u.bytes path = start := by
        obtain ⟨t, there⟩ := before.file
        exact bytes_of_get there
      have torn : ∀ n t, Wrote w path (start ++ piece.take n) (u.put path (u.bytes path ++ piece.take n) t) := fun n t => by
        rw [held]
        exact before.again (wrote_put ..)
      apply Wp.then
      apply Wp.then
      apply wp_append rfl
      · refine cut 0 u ?_
        rwa [List.take_zero, List.append_nil]
      · intro n t
        refine cut (min n piece.length) _ ?_
        have same : (piece :: pieces).flatten.take (min n piece.length) = piece.take n := by
          rw [List.flatten_cons, List.take_append_of_le_length (Nat.min_le_right ..), ← List.take_eq_take_min]
        rw [same]
        exact torn n t
      · intro t
        have whole := torn piece.length t
        rw [List.take_length] at whole
        have landed : C (u.put path (u.bytes path ++ piece) t) := by
          refine cut piece.length _ ?_
          rwa [List.flatten_cons, List.take_left]
        refine ⟨landed, ih whole (fun n v wrote => cut (piece.length + n) v ?_) fun v wrote => done v ?_⟩
        · rwa [List.flatten_cons, List.take_length_add_append, ← List.append_assoc]
        · rwa [List.flatten_cons, ← List.append_assoc]
      · exact fun may => may.elim

end Frames

section Download
variable (env : BootEnv) (c : FetchCall) {v : Disk} {p : BootPath}
  {Q : Except BootError Unit → Unit → Disk → Prop} {x : Option ResumeJournal} {arrival : Arrival}

/-- A journal of this download. -/
structure Vouches (name : String) (j : ResumeJournal) : Prop where
  server : j.server = c.server
  manifest : j.manifestBlake3 = c.manifestBlake3
  trusted : trusts name (toHex (env.hashChunk c.artifact.bytes)) j = true

/-- What is there of the artifact is a prefix of it, and the journal vouches for it. -/
structure Resumable (name : String) (w : Disk) : Prop where
  begins : ∀ f, w.get (.zst name) = some f → f.bytes <+: c.artifact.bytes
  vouched : ∀ f, w.get (.zst name) = some f →
    ∃ g j, w.get .journal = some g ∧ env.journalFromJson g.bytes = some j ∧ Vouches env c name j

/-- The chunk plan cuts a prefix of the content into its chunks. -/
def Sliced : List ChunkRef → Bytes → Prop
  | [], _ => True
  | chunk :: rest, b => chunk.len.toNat ≤ b.length ∧
      fromHex chunk.hash = some (env.hashChunk (b.take chunk.len.toNat)) ∧ Sliced rest (b.drop chunk.len.toNat)

/-- What packer and server promise: one track that goes by the artifact's name, which is the
name of a file, an artifact that unpacks to its content, and a session that offers it with its
hash. -/
structure Offered (track : ManifestTrack) (content : Bytes) : Prop where
  single : c.manifest.tracks = [track]
  bare : pathParts track.name = [track.name.toList]
  named : bootstrapName c = some track.name
  resumes : c.resume = true
  offered : c.deliveryMode = some "bootstrap"
  hashed : c.bootstrapBlake3 = some (toHex (env.hashChunk c.artifact.bytes))
  unpacks : (env.unzstd c.artifact.bytes).2 = none
  gives : (env.unzstd c.artifact.bytes).1.flatten = content
  sha : ∀ e, expectedSha c track.name = some e → eqIgnoreAsciiCase (toHex (env.sha256 content)) e = true
  sliced : Sliced env (chunkPlan c track) content

/-- The file is not in place yet, nor one that would be taken for it. -/
def Pending (track : ManifestTrack) (content : Bytes) (w : Disk) : Prop :=
  ∀ f, w.get (.output track.name) = some f → f.bytes ≠ content ∧
    ∀ e, expectedSha256 c.manifest track.name = some e → eqIgnoreAsciiCase (toHex (env.sha256 f.bytes)) e = false

variable {env c} {track : ManifestTrack} {content : Bytes} {name : String} {w : Disk}

theorem Resumable.absent (none_ : w.get (.zst name) = none) : Resumable env c name w where
  begins f there := by
    rw [none_] at there
    cases there
  vouched f there := by
    rw [none_] at there
    cases there

theorem Resumable.frame (before : Resumable env c name w) (zst : v.get (.zst name) = w.get (.zst name))
    (journal : v.get .journal = w.get .journal) : Resumable env c name v where
  begins f there := before.begins f (zst.symm.trans there)
  vouched f there := by
    obtain ⟨g, j, found, read, vouches⟩ := before.vouched f (zst.symm.trans there)
    exact ⟨g, j, journal.trans found, read, vouches⟩

theorem Resumable.put {b : Bytes} {t : Nat} (before : Resumable env c name w) (zst : BootPath.zst name ≠ p)
    (journal : BootPath.journal ≠ p) : Resumable env c name (w.put p b t) :=
  before.frame (get_put_ne zst ..) (get_put_ne journal ..)

/-- The journal that a fetch goes on from: a file that is there is trusted. -/
def Trusted (env : BootEnv) (c : FetchCall) (name : String) (x : Option ResumeJournal) (w : Disk) : Prop :=
  ∀ f, w.get (.zst name) = some f → ∃ j, x = some j ∧ trusts name (toHex (env.hashChunk c.artifact.bytes)) j = true

/-- Every file is as it was or gone. -/
def Fewer (w v : Disk) : Prop := ∀ p, v.get p = w.get p ∨ v.get p = none

theorem Fewer.refl (w : Disk) : Fewer w w := fun _ => .inl rfl

theorem Fewer.trans {u : Disk} (first : Fewer w u) (then_ : Fewer u v) : Fewer w v := fun p => by
  rcases then_ p with same | gone
  · rw [same]
    exact first p
  · exact .inr gone

/-- The file is gone, and nothing else has changed. -/
structure Removed (w : Disk) (p : BootPath) (v : Disk) : Prop where
  gone : v.get p = none
  rest : ∀ q, q ≠ p → v.get q = w.get q

theorem removed_del (w : Disk) (p : BootPath) : Removed w p (w.del p) :=
  ⟨FileProg.get_del_self .., fun _ other => FileProg.get_del_ne other w⟩

theorem Removed.fewer (removed : Removed w p v) : Fewer w v := fun q => by
  by_cases same : q = p
  · exact .inr (same ▸ removed.gone)
  · exact .inl (removed.rest q same)

theorem Fewer.absent (fewer : Fewer w v) (none_ : w.get p = none) : v.get p = none := by
  rcases fewer p with same | gone
  · exact same.trans none_
  · exact gone

theorem Pending.fewer (pending : Pending env c track content w) (fewer : Fewer w v) :
    Pending env c track content v := by
  intro f there
  rcases fewer (.output track.name) with same | gone
  · exact pending f (same.symm.trans there)
  · rw [gone] at there
    cases there

section Rules
variable {C : Disk → Prop} {p : BootPath}

theorem load_wp {Q : Except BootError (Option ResumeJournal) → Unit → Disk → Prop} (here : C w)
    (next : Q (.ok ((w.get .journal).bind fun g => env.journalFromJson g.bytes)) () w) :
    (ResumeJournal.load env).Wp bootSem C Q () w := by
  apply Wp.then
  apply wp_read here
  · intro g found
    rw [found] at next
    exact ⟨here, next⟩
  · intro absent
    rw [absent] at next
    exact ⟨here, next⟩
  · exact fun may => may.elim

theorem mkdir_wp {β : Type} {f : Unit → F β} {Q : Except BootError β → Unit → Disk → Prop} (here : C w)
    (keeps : ∀ v, (∀ q, q ≠ p → v.get q = w.get q) → C v)
    (next : ∀ v, (∀ q, q ≠ p → v.get q = w.get q) → (f ()).Wp bootSem C Q () v) :
    (op (.mkdir p) >>= fun r => orThrow .io r >>= f).Wp bootSem C Q () w := by
  apply Wp.then
  apply FileProg.Eff.wp_mkdir here
  · exact fun _ => next w fun _ _ => rfl
  · intro _ t
    have same : ∀ q, q ≠ p → (w.put p [] t).get q = w.get q := fun q other => get_put_ne other ..
    exact ⟨keeps _ same, next _ same⟩
  · exact fun may => may.elim

/-- A removal that no one waits for. -/
theorem remove_wp {β : Type} {f : Except IoError Unit → F β} {Q : Except BootError β → Unit → Disk → Prop}
    (here : C w) (keeps : ∀ v, Removed w p v → C v) (next : ∀ x v, Removed w p v → (f x).Wp bootSem C Q () v) :
    (op (.remove p) >>= f).Wp bootSem C Q () w := by
  apply Wp.then
  apply wp_remove here
  · exact fun _ => ⟨keeps _ (removed_del w p), next _ _ (removed_del w p)⟩
  · exact fun absent => next _ w ⟨absent, fun _ _ => rfl⟩
  · exact fun may => may.elim

theorem clear_wp {Q : Except BootError Unit → Unit → Disk → Prop} (here : C w) (keeps : ∀ v, Removed w .journal v → C v)
    (next : ∀ v, Removed w .journal v → Q (.ok ()) () v) : ResumeJournal.clear.Wp bootSem C Q () w :=
  remove_wp here keeps fun _ v removed => ⟨keeps v removed, next v removed⟩

theorem discard_wp {j : ResumeJournal} {Q : Except BootError Unit → Unit → Disk → Prop} (here : C w)
    (keeps : ∀ v, Fewer w v → C v) (next : ∀ v, Fewer w v → Q (.ok ()) () v) :
    j.discard.Wp bootSem C Q () w := by
  have cleared : ∀ v, Fewer w v → ResumeJournal.clear.Wp bootSem C Q () v := fun v fewer =>
    clear_wp (keeps v fewer) (fun u removed => keeps u (fewer.trans removed.fewer))
      fun u removed => next u (fewer.trans removed.fewer)
  apply Wp.then
  cases j.bootstrapPart with
  | none => exact ⟨here, cleared w (Fewer.refl w)⟩
  | some part =>
      apply remove_wp here fun v removed => keeps v removed.fewer
      exact fun _ v removed => ⟨keeps v removed.fewer, cleared v removed.fewer⟩

end Rules

/-- The journal is honoured where it vouches for something. -/
theorem prior_wp (before : Resumable env c name w) (resumes : c.resume = true) :
    (prior env c).Wp bootSem (Resumable env c name)
      (fun r _ v => ∃ x, r = .ok x ∧ Trusted env c name x v ∧ v.get (.zst name) = w.get (.zst name) ∧ Fewer w v) () w := by
  apply Wp.then
  apply load_wp before
  by_cases there : ∃ f, w.get (.zst name) = some f
  · -- the journal vouches for the file, so it is neither of another server nor of another manifest
    obtain ⟨f, there⟩ := there
    obtain ⟨g, j, found, read, vouches⟩ := before.vouched f there
    have honoured : ¬ (c.resume = false ∨ j.server ≠ c.server ∨ j.manifestBlake3 ≠ c.manifestBlake3) := by
      simp [resumes, vouches.server, vouches.manifest]
    rw [found, Option.bind_some, read]
    apply wp_ite
    · exact fun stale => absurd stale honoured
    · exact fun _ => ⟨before, some j, rfl, fun _ _ => ⟨j, rfl, vouches.trusted⟩, rfl, Fewer.refl w⟩
  · have absent : w.get (.zst name) = none := Option.eq_none_iff_forall_ne_some.mpr fun f some_ => there ⟨f, some_⟩
    have nothing : ∀ x v, Fewer w v → Trusted env c name x v ∧ v.get (.zst name) = w.get (.zst name) ∧ Fewer w v := by
      intro x v fewer
      have gone := fewer.absent absent
      refine ⟨fun f found => ?_, gone.trans absent.symm, fewer⟩
      rw [gone] at found
      cases found
    cases (w.get .journal).bind fun g => env.journalFromJson g.bytes with
    | none => exact ⟨before, none, rfl, nothing _ w (Fewer.refl w)⟩
    | some j =>
        apply wp_ite
        · intro _
          apply Wp.then
          apply discard_wp before (fun v fewer => .absent (fewer.absent absent))
          exact fun v fewer => ⟨.absent (fewer.absent absent), none, rfl, nothing _ v fewer⟩
        · exact fun _ => ⟨before, some j, rfl, nothing _ w (Fewer.refl w)⟩

/-- A download is continued after all that is there. -/
theorem resumeFrom_wp (before : Resumable env c name w) (trusted : Trusted env c name x w)
    (hashed : c.bootstrapBlake3 = some (toHex (env.hashChunk c.artifact.bytes))) :
    (resumeFrom c name x).Wp bootSem (Resumable env c name)
      (fun r _ v => v = w ∧ r = .ok (w.bytes (.zst name)).length) () w := by
  have nothing : (¬ ∃ j, x = some j ∧ trusts name (toHex (env.hashChunk c.artifact.bytes)) j = true) →
      (w.bytes (.zst name)).length = 0 := by
    intro untrusted
    have absent : w.get (.zst name) = none := by
      rw [Option.eq_none_iff_forall_ne_some]
      exact fun f there => untrusted (trusted f there)
    rw [bytes_of_absent absent, List.length_nil]
  cases x with
  | none => exact ⟨before, rfl, by rw [nothing (by simp)]⟩
  | some j =>
      simp only [resumeFrom, hashed]
      apply wp_ite
      · intro _
        apply Wp.then
        apply wp_stat before
        cases there : w.get (.zst name) with
        | none => exact ⟨before, rfl, by rw [bytes_of_absent there, List.length_nil]⟩
        | some f => exact ⟨before, rfl, by rw [bytes_of_get there]⟩
      · intro untrusted
        exact ⟨before, rfl, by rw [nothing (by simpa using untrusted)]⟩

/-- The new journal takes the place of the old one at once. -/
theorem save_wp {now : Nat} (before : Resumable env c name w)
    (hashed : c.bootstrapBlake3 = some (toHex (env.hashChunk c.artifact.bytes)))
    (next : ∀ v g j, v.get .journal = some g → env.journalFromJson g.bytes = some j → Vouches env c name j →
      (∀ n, v.get (.zst n) = w.get (.zst n)) → (∀ n, v.get (.output n) = w.get (.output n)) → Q (.ok ()) () v) :
    ((downloadJournal c name now).save env).Wp bootSem (Resumable env c name) Q () w := by
  have vouches : Vouches env c name (downloadJournal c name now) := ⟨rfl, rfl, by simp [trusts, downloadJournal, hashed]⟩
  have read := env.journalFromJson_journalJson (downloadJournal c name now)
  apply mkdir_wp before (fun v same => before.frame (same _ (by simp)) (same _ (by simp)))
  intro u same
  have safe : Resumable env c name u := before.frame (same _ (by simp)) (same _ (by simp))
  apply Wp.then
  apply wp_write rfl safe (fun _ _ => safe.put (by simp) (by simp))
  · intro t
    have safe' : Resumable env c name (u.put .journalTmp (env.journalJson (downloadJournal c name now)) t) :=
      safe.put (by simp) (by simp)
    apply wp_good
    apply Wp.then
    apply wp_rename rfl safe'
    · intro f found
      rw [get_put_self] at found
      cases found
      have moved : ∀ q f, q ≠ .journal → q ≠ .journalTmp → q ≠ .journalDir →
          ((u.put .journalTmp (env.journalJson (downloadJournal c name now)) t).move .journalTmp .journal f).get q = w.get q :=
        fun q f here tmp dir =>
          (get_move_ne here tmp ..).trans ((get_put_ne tmp ..).trans (same q dir))
      have kept : Resumable env c name ((u.put .journalTmp (env.journalJson (downloadJournal c name now)) t).move
          .journalTmp .journal ⟨env.journalJson (downloadJournal c name now), t⟩) :=
        ⟨fun f there => before.begins f ((moved (.zst name) _ (by simp) (by simp) (by simp)).symm.trans there),
          fun _ _ => ⟨_, _, get_move_self .., read, vouches⟩⟩
      exact ⟨kept, kept, next _ _ _ (get_move_self ..) read vouches
        (fun n => moved (.zst n) _ (by simp) (by simp) (by simp)) fun n => moved (.output n) _ (by simp) (by simp) (by simp)⟩
    · intro absent
      rw [get_put_self] at absent
      cases absent
    · exact fun may => may.elim
  · exact fun may => may.elim

/-- What is kept and what comes in make up the artifact, if something is missing of it or
nothing is there; else the server has no such range. -/
theorem request_wp (before : Resumable env c name w) :
    (request c name (w.bytes (.zst name)).length).Wp bootSem (Resumable env c name)
      (fun r _ v => v = w ∧
        ((w.bytes (.zst name) = c.artifact.bytes ∧ c.artifact.bytes ≠ [] ∧ r = .error (.status 416)) ∨
          (¬ (w.bytes (.zst name) = c.artifact.bytes ∧ c.artifact.bytes ≠ []) ∧
            ∃ kept body, r = .ok (kept, body) ∧ kept.getD [] ++ body = c.artifact.bytes ∧
              ∀ b, kept = some b → ∃ t, w.get (.zst name) = some ⟨b, t⟩))) () w := by
  have full : (call c none).Wp bootSem (Resumable env c name)
      (fun r _ v => v = w ∧ r = .ok ⟨200, c.artifact.bytes⟩) () w := ⟨before, rfl, rfl⟩
  apply wp_ite
  · intro some_
    have there : ∃ f, w.get (.zst name) = some f := by
      cases found : w.get (.zst name) with
      | none => simp [bytes_of_absent found] at some_
      | some f => exact ⟨f, rfl⟩
    obtain ⟨f, there⟩ := there
    have held := bytes_of_get there
    have begins := before.begins f there
    rw [held] at some_ ⊢
    apply Wp.then
    apply wp_read before
    · intro f' found
      rw [there] at found
      cases found
      apply wp_good
      apply Wp.then
      by_cases whole : f.bytes = c.artifact.bytes
      · have answer : call c (some (rangeText f.bytes.length)) = FileProg.Eff.throw (.status 416) := by
          rw [call, whole, getBootstrap_past]
          rfl
        rw [answer]
        refine ⟨before, before, rfl, .inl ⟨whole, ?_, rfl⟩⟩
        rw [← whole, ← List.length_pos_iff]
        exact some_
      · have inside : f.bytes.length < c.artifact.bytes.length :=
          lt_of_le_of_ne begins.length_le fun same => whole (begins.eq_of_length same)
        have answer : call c (some (rangeText f.bytes.length)) = pure ⟨206, c.artifact.bytes.drop f.bytes.length⟩ := by
          rw [call, getBootstrap_range inside]
          rfl
        rw [answer]
        refine ⟨before, before, rfl, .inr ⟨fun both => whole both.1, some f.bytes, _, rfl, ?_, ?_⟩⟩
        · obtain ⟨rest, made⟩ := begins
          rw [← made, Option.getD_some, List.drop_left]
        · rintro b ⟨⟩
          exact ⟨f.mtime, there⟩
    · intro absent
      rw [there] at absent
      cases absent
    · exact fun may => may.elim
  · intro empty
    apply Wp.then
    apply full.mono (fun _ safe => safe)
    rintro r ⟨⟩ v ⟨rfl, rfl⟩
    refine ⟨before, rfl, .inr ⟨?_, none, _, rfl, rfl, fun _ bad => by cases bad⟩⟩
    rintro ⟨whole, filled⟩
    rw [whole, List.length_pos_iff] at empty
    exact empty filled

/-- The rest of the artifact lands after what is kept. -/
theorem receive_wp {kept : Option Bytes} {body : Bytes} (before : Resumable env c name w)
    (whole : kept.getD [] ++ body = c.artifact.bytes)
    (held : ∀ b, kept = some b → ∃ t, w.get (.zst name) = some ⟨b, t⟩) {g : File} {j : ResumeJournal}
    (journal : w.get .journal = some g) (read : env.journalFromJson g.bytes = some j)
    (vouches : Vouches env c name j)
    (next : ∀ v, Wrote w (.zst name) c.artifact.bytes v → Resumable env c name v → Q (.ok ()) () v) :
    (receive arrival name kept body).Wp bootSem (Resumable env c name) Q () w := by
  have safe : ∀ n v, Wrote w (.zst name) (kept.getD [] ++ (arrival.pieces body).flatten.take n) v → Resumable env c name v := by
    intro n v wrote
    obtain ⟨t, there⟩ := wrote.file
    constructor
    · intro f found
      rw [there] at found
      cases found
      rw [← whole, arrival.flatten_pieces]
      exact (List.prefix_append_right_inj _).mpr (List.take_prefix n body)
    · exact fun _ _ => ⟨g, j, (wrote.rest .journal (by simp)).trans journal, read, vouches⟩
  have appended : ∀ u, Wrote w (.zst name) (kept.getD []) u →
      (appendAll (.zst name) (arrival.pieces body)).Wp bootSem (Resumable env c name) Q () u := by
    intro u opened
    refine appendAll_wp _ opened safe fun v wrote => next v ?_ ?_
    · rwa [arrival.flatten_pieces, whole] at wrote
    · refine safe (arrival.pieces body).flatten.length v ?_
      rwa [List.take_length]
  apply Wp.then
  cases kept with
  | some b =>
      obtain ⟨t, there⟩ := held b rfl
      apply Wp.then
      apply wp_present before
      rw [there]
      exact ⟨before, appended w ⟨⟨t, there⟩, fun _ _ => rfl⟩⟩
  | none =>
      have opened : ∀ t, Wrote w (.zst name) [] (w.put (.zst name) [] t) := wrote_put w (.zst name) []
      have empty : ∀ t, Resumable env c name (w.put (.zst name) [] t) := fun t => safe 0 _ (opened t)
      apply Wp.then
      apply wp_write rfl before
      · intro n t
        rw [List.take_nil]
        exact empty t
      · exact fun t => ⟨empty t, appended _ (opened t)⟩
      · exact fun may => may.elim

theorem checkWire_wp {C : Disk → Prop} (here : C w)
    (hashed : c.bootstrapBlake3 = some (toHex (env.hashChunk c.artifact.bytes))) (next : Q (.ok ()) () w) :
    (checkWire env c name c.artifact.bytes).Wp bootSem C Q () w := by
  rw [checkWire, hashed]
  apply wp_ite
  · exact fun _ => ⟨here, next⟩
  · exact fun differs => absurd ((eqIgnoreAsciiCase_toHex _ _).mpr rfl) differs

/-- Nothing is missing, and there is something. -/
def Complete (c : FetchCall) (name : String) (w : Disk) : Prop :=
  w.bytes (.zst name) = c.artifact.bytes ∧ c.artifact.bytes ≠ []

/-- A download ends with the whole artifact, unless it was all there before. -/
theorem download_wp (before : Resumable env c name w) (trusted : Trusted env c name x w)
    (hashed : c.bootstrapBlake3 = some (toHex (env.hashChunk c.artifact.bytes))) :
    (download env c arrival name x).Wp bootSem (Resumable env c name)
      (fun r _ v => (∀ n, v.get (.output n) = w.get (.output n)) ∧
        ((Complete c name w ∧ r = .error (.status 416)) ∨
          (¬ Complete c name w ∧ r = .ok () ∧ Resumable env c name v ∧ ∃ t, v.get (.zst name) = some ⟨c.artifact.bytes, t⟩)))
      () w := by
  apply mkdir_wp before (fun v same => before.frame (same _ (by simp)) (same _ (by simp)))
  intro u same
  have safe : Resumable env c name u := before.frame (same _ (by simp)) (same _ (by simp))
  have trusted_ : Trusted env c name x u := fun f there => trusted f ((same _ (by simp)).symm.trans there)
  apply Wp.then
  apply (resumeFrom_wp safe trusted_ hashed).mono (fun _ safe => safe)
  rintro r ⟨⟩ v ⟨rfl, rfl⟩
  apply Wp.then
  apply wp_now safe
  intro now
  apply Wp.then
  apply (wp_attempt ..).mpr
  apply save_wp safe hashed
  intro v' g j journal read vouches zst output
  have safe' : Resumable env c name v' :=
    ⟨fun f there => safe.begins f ((zst name).symm.trans there), fun _ _ => ⟨g, j, journal, read, vouches⟩⟩
  have files : ∀ n, v'.get (.output n) = w.get (.output n) := fun n => (output n).trans (same _ (by simp))
  have length : v.bytes (.zst name) = v'.bytes (.zst name) := bytes_congr (zst name).symm
  have complete : Complete c name v' ↔ Complete c name w := by
    rw [Complete, Complete, bytes_congr ((zst name).trans (same _ (by simp)))]
  rw [length]
  apply Wp.then
  apply (request_wp safe').mono (fun _ safe => safe)
  rintro r ⟨⟩ v'' ⟨rfl, ⟨whole, filled, rfl⟩ | ⟨missing, kept, body, rfl, made, held⟩⟩
  · exact ⟨safe', files, .inl ⟨complete.mp ⟨whole, filled⟩, rfl⟩⟩
  · apply Wp.then
    apply receive_wp safe' made held journal read vouches
    intro v wrote final
    dsimp only [After]
    rw [made]
    refine checkWire_wp final hashed ⟨fun n => (wrote.rest _ (by simp)).trans (files n), .inr ⟨?_, rfl, final, wrote.file⟩⟩
    exact fun all => missing (complete.mpr all)

end Download

section Install
variable {env : BootEnv} {c : FetchCall} {track : ManifestTrack} {content : Bytes} {w : Disk} {C : Disk → Prop}
  {Q : Except BootError Unit → Unit → Disk → Prop} {t : Nat}

/-- The file holds the content. -/
def Installed (track : ManifestTrack) (content : Bytes) (w : Disk) : Prop :=
  ∃ f, w.get (.output track.name) = some f ∧ f.bytes = content

/-- Only the files that are made on the way to the finished one have changed. -/
def Aside (name : String) (w v : Disk) : Prop :=
  ∀ q, q ≠ .outputDir → q ≠ .part name → q ≠ .output name → v.get q = w.get q

theorem finish_wp {written : Bytes} (aside : ∀ v, Aside track.name w v → C v)
    (sha : ∀ e, expectedSha c track.name = some e → eqIgnoreAsciiCase (toHex (env.sha256 written)) e = true)
    (there : w.get (.part track.name) = some ⟨written, t⟩)
    (next : ∀ v, Aside track.name w v → Installed track written v → Q (.ok ()) () v) :
    (finish env c track.name written).Wp bootSem C Q () w := by
  have here : C w := aside w fun _ _ _ _ => rfl
  have renamed : (op (.rename (.part track.name) (.output track.name)) >>= fun r => orThrow .io r : F Unit).Wp bootSem C Q () w := by
    apply Wp.then
    apply wp_rename rfl here
    · intro f found
      rw [there] at found
      cases found
      have moved : Aside track.name w (w.move (.part track.name) (.output track.name) ⟨written, t⟩) :=
        fun q _ part output => get_move_ne output part ..
      exact ⟨aside _ moved, aside _ moved, next _ moved ⟨_, get_move_self .., rfl⟩⟩
    · intro absent
      rw [there] at absent
      cases absent
    · exact fun may => may.elim
  unfold finish
  cases named : expectedSha c track.name with
  | none => exact renamed
  | some e =>
      apply wp_ite
      · exact fun _ => renamed
      · exact fun differs => absurd (sha e named) differs

/-- The whole artifact unpacks into place. -/
theorem decompress_wp (offered : Offered env c track content) (aside : ∀ v, Aside track.name w v → C v)
    (whole : w.get (.zst track.name) = some ⟨c.artifact.bytes, t⟩)
    (next : ∀ v, Aside track.name w v → Installed track content v → Q (.ok ()) () v) :
    (decompress env c track.name).Wp bootSem C Q () w := by
  apply mkdir_wp (aside w fun _ _ _ _ => rfl) fun v same => aside v fun q dir _ _ => same q dir
  intro u same
  have aside_ : ∀ v b, Wrote u (.part track.name) b v → Aside track.name w v :=
    fun v b wrote q dir part _ => (wrote.rest q part).trans (same q dir)
  have opened : ∀ t, Wrote u (.part track.name) [] (u.put (.part track.name) [] t) := wrote_put u (.part track.name) []
  apply Wp.then
  apply wp_write rfl (aside u fun q dir _ _ => same q dir)
  · intro n t
    rw [List.take_nil]
    exact aside _ (aside_ _ _ (opened t))
  · intro t
    have unread := aside _ (aside_ _ _ (opened t))
    apply wp_good
    apply Wp.then
    apply wp_read unread
    · intro f found
      rw [get_put_ne (by simp), same _ (by simp), whole] at found
      cases found
      apply wp_good
      apply Wp.then
      apply appendAll_wp _ (opened t) fun n v wrote => aside v (aside_ v _ wrote)
      intro v wrote
      obtain ⟨t', part⟩ := wrote.file
      rw [List.nil_append] at part
      dsimp only [After]
      rw [offered.unpacks]
      refine finish_wp (fun v' more => aside v' ?_) (offered.gives ▸ offered.sha) part fun v' more installed => next v' ?_ ?_
      · exact fun q dir part output => (more q dir part output).trans (aside_ v _ wrote q dir part output)
      · exact fun q dir part output => (more q dir part output).trans (aside_ v _ wrote q dir part output)
      · exact offered.gives ▸ installed
    · intro absent
      rw [get_put_ne (by simp), same _ (by simp), whole] at absent
      cases absent
    · exact fun may => may.elim
  · exact fun may => may.elim

/-- Only the cache has changed. -/
def Cached (w v : Disk) : Prop :=
  ∀ q, (∀ h, q ≠ .shard h) → (∀ h, q ≠ .entry h) → (∀ h, q ≠ .entryTmp h) → v.get q = w.get q

theorem put_wp {hash : ChunkHash} {payload : Bytes} (keeps : ∀ v, Cached w v → C v)
    (next : ∀ v, Cached w v → Q (.ok ()) () v) : (put hash payload).Wp bootSem C Q () w := by
  have here : C w := keeps w fun _ _ _ _ => rfl
  apply Wp.then
  apply wp_present here
  apply wp_ite
  · exact fun _ => ⟨here, next w fun _ _ _ _ => rfl⟩
  · intro _
    apply mkdir_wp here fun v same => keeps v fun q dir _ _ => same q (dir hash)
    intro u same
    have put : ∀ b t, Cached w (u.put (.entryTmp hash) b t) := fun b t q dir _ tmp =>
      (get_put_ne (tmp hash) ..).trans (same q (dir hash))
    apply Wp.then
    apply wp_write rfl (keeps u fun q dir _ _ => same q (dir hash)) fun n t => keeps _ (put _ t)
    · intro t
      apply wp_good
      apply Wp.then
      apply wp_rename rfl (keeps _ (put _ t))
      · intro f _
        have moved : Cached w ((u.put (.entryTmp hash) payload t).move (.entryTmp hash) (.entry hash) f) :=
          fun q dir entry tmp => (get_move_ne (entry hash) (tmp hash) ..).trans (put _ t q dir entry tmp)
        exact ⟨keeps _ moved, keeps _ moved, next _ moved⟩
      · intro absent
        rw [get_put_self] at absent
        cases absent
      · exact fun may => may.elim
    · exact fun may => may.elim

/-- A file that the plan cuts is put into the cache chunk by chunk. -/
theorem seedChunks_wp {plan : List ChunkRef} {file : Bytes} (sliced : Sliced env plan file) (keeps : ∀ v, Cached w v → C v)
    (next : ∀ v, Cached w v → Q (.ok ()) () v) : (seedChunks env plan file).Wp bootSem C Q () w := by
  induction plan generalizing file w with
  | nil => exact ⟨keeps w fun _ _ _ _ => rfl, next w fun _ _ _ _ => rfl⟩
  | cons chunk rest ih =>
      obtain ⟨long, named, more⟩ := sliced
      rw [seedChunks, if_neg (Nat.not_lt.mpr long), named]
      dsimp only
      rw [if_pos rfl]
      apply Wp.then
      apply put_wp keeps
      intro v cached
      have both : ∀ u, Cached v u → Cached w u := fun u cached' q dir entry tmp =>
        (cached' q dir entry tmp).trans (cached q dir entry tmp)
      exact ih more (fun u cached' => keeps u (both u cached')) fun u cached' => next u (both u cached')

end Install

section Fetch
variable {env : BootEnv} {c : FetchCall} {track : ManifestTrack} {content : Bytes} {w : Disk}
  {arrival : Arrival}

theorem bootTrack_offered (offered : Offered env c track content) :
    bootTrack c = if unsafeName track.name then .error (.unsafeName track.name) else .ok track := by
  rw [bootTrack, offered.named]
  dsimp only
  rw [offered.single]
  dsimp only
  rw [if_neg (by simp)]

/-- The bootstrap route is taken to its end where the name is safe and something is missing. -/
theorem fetchBootstrap_wp {x : Option ResumeJournal} (offered : Offered env c track content)
    (before : Resumable env c track.name w) (trusted : Trusted env c track.name x w) :
    (fetchBootstrap env c arrival x).Wp bootSem (Resumable env c track.name)
      (fun r _ v => (r = .ok () ∧ Installed track content v ∧ unsafeName track.name = false ∧ ¬ Complete c track.name w) ∨
        ((∃ e, r = .error e) ∧ ¬ (unsafeName track.name = false ∧ ¬ Complete c track.name w))) () w := by
  apply Wp.then
  rw [bootTrack_offered offered]
  by_cases harmful : unsafeName track.name = true
  · rw [if_pos harmful]
    exact ⟨before, before, .inr ⟨⟨_, rfl⟩, fun both => by simp [harmful] at both⟩⟩
  · have safe_name : unsafeName track.name = false := Bool.eq_false_iff.mpr harmful
    rw [if_neg harmful]
    refine ⟨before, ?_⟩
    apply Wp.then
    apply (download_wp before trusted offered.hashed).keep.mono fun _ safe => safe
    rintro r ⟨⟩ v ⟨safe, _, ⟨complete, rfl⟩ | ⟨missing, rfl, -, t, whole⟩⟩
    · exact ⟨safe, .inr ⟨⟨_, rfl⟩, fun both => both.2 complete⟩⟩
    · apply Wp.then
      apply decompress_wp offered (fun u aside => safe.frame (aside _ (by simp) (by simp) (by simp))
        (aside _ (by simp) (by simp) (by simp))) whole
      intro u aside ⟨f, installed, holds⟩
      have kept : Resumable env c track.name u :=
        safe.frame (aside _ (by simp) (by simp) (by simp)) (aside _ (by simp) (by simp) (by simp))
      apply remove_wp kept fun u' removed => .absent removed.gone
      intro _ u₁ removed
      apply Wp.then
      apply clear_wp (.absent removed.gone) fun u' cleared => .absent (cleared.fewer.absent removed.gone)
      intro u₂ cleared
      have gone : u₂.get (.zst track.name) = none := cleared.fewer.absent removed.gone
      have file : u₂.get (.output track.name) = some f :=
        (cleared.rest _ (by simp)).trans ((removed.rest _ (by simp)).trans installed)
      have quiet : ∀ v, Cached u₂ v → Resumable env c track.name v := fun v cached =>
        .absent ((cached _ (by simp) (by simp) (by simp)).trans gone)
      apply Wp.then
      apply wp_read (.absent gone)
      · intro f' found
        rw [file] at found
        cases found
        apply wp_good
        apply seedChunks_wp (holds ▸ offered.sliced) quiet
        exact fun v cached => .inl ⟨rfl, ⟨f, (cached _ (by simp) (by simp) (by simp)).trans file, holds⟩, safe_name, missing⟩
      · intro absent
        rw [file] at absent
        cases absent
      · exact fun may => may.elim

/-- A file that is not in place yet is no reason to stop. -/
theorem noOp_wp {C : Disk → Prop} {Q : Except BootError Bool → Unit → Disk → Prop} (single : c.manifest.tracks = [track])
    (pending : Pending env c track content w) (here : C w) (next : Q (.ok false) () w) :
    (noOp env c).Wp bootSem C Q () w := by
  apply wp_ite
  · intro _
    rw [single]
    unfold allInstalled
    cases named : expectedSha256 c.manifest track.name with
    | none => exact ⟨here, next⟩
    | some expected =>
        apply wp_ite
        · exact fun _ => ⟨here, next⟩
        · intro _
          apply Wp.then
          apply Wp.then
          apply wp_read here
          · intro f there
            dsimp only [After]
            rw [(pending f there).2 expected named]
            exact ⟨here, here, next⟩
          · exact fun _ => ⟨here, here, next⟩
          · exact fun may => may.elim
  · exact fun _ => ⟨here, next⟩

/-- How a fetch goes on from what is there. -/
theorem fetch_wp (offered : Offered env c track content) (before : Resumable env c track.name w)
    (pending : Pending env c track content w) :
    (fetch env c arrival).Wp bootSem (Resumable env c track.name)
      (fun r _ v => (r = .ok .bootstrap ∧ Installed track content v ∧ unsafeName track.name = false ∧
          ¬ Complete c track.name w) ∨
        (r ≠ .ok .bootstrap ∧ ¬ (unsafeName track.name = false ∧ ¬ Complete c track.name w))) () w := by
  apply mkdir_wp before fun v same => before.frame (same _ (by simp)) (same _ (by simp))
  intro u same
  have safe : Resumable env c track.name u := before.frame (same _ (by simp)) (same _ (by simp))
  have pending_ : Pending env c track content u := fun f there => pending f ((same _ (by simp)).symm.trans there)
  apply Wp.then
  apply (prior_wp safe offered.resumes).keep.mono fun _ safe => safe
  rintro r ⟨⟩ v ⟨final, x, rfl, trusted, zst, fewer⟩
  have complete : Complete c track.name v ↔ Complete c track.name w := by
    rw [Complete, Complete, bytes_congr (zst.trans (same _ (by simp)))]
  apply Wp.then
  apply noOp_wp offered.single (pending_.fewer fewer) final
  rw [deliver, if_pos offered.offered]
  dsimp only [After]
  apply wp_ite
  · exact fun no => nomatch no
  · intro _
    apply Wp.then
    apply (wp_attempt ..).mpr
    apply (fetchBootstrap_wp offered final trusted).keep.mono fun _ safe => safe
    rintro r ⟨⟩ v' ⟨final', ⟨rfl, installed, name, missing⟩ | ⟨⟨e, rfl⟩, stops⟩⟩
    · exact ⟨final', .inl ⟨rfl, installed, name, fun all => missing (complete.mpr all)⟩⟩
    · exact ⟨final', .inr ⟨by simp, fun both => stops ⟨both.1, fun all => both.2 (complete.mp all)⟩⟩⟩

end Fetch

end Cavs.Bootstrap
