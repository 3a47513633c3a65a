import Cavs.BootstrapSpec
import Cavs.Codecs
import Mathlib.Tactic.DeriveCountable

/-!
# Downloads that are cut

Whatever cuts leave behind, the next download goes on from there, unless nothing is missing:
the server has no range after the last byte.
-/
namespace Cavs.Bootstrap
open FileProg (Bytes File IoError Op bytes_of_get get_empty)
open FileProg.Eff (All op orThrow wp_iff)

deriving instance Countable for ResumeState, BootPath, ResumeJournal

section Plain
variable (env : BootEnv) (c : FetchCall)

theorem clear_plain : ResumeJournal.clear.All Op.Plain := .bind (.op trivial) fun _ => .pure _

theorem discard_plain (j : ResumeJournal) : j.discard.All Op.Plain := by
  refine .bind ?_ fun _ => clear_plain
  cases j.bootstrapPart with
  | none => exact .pure _
  | some part => exact .bind (.op trivial) fun _ => .pure _

theorem load_plain : (ResumeJournal.load env).All Op.Plain := by
  refine .bind (.op trivial) fun r => ?_
  cases r <;> exact .pure _

theorem prior_plain : (prior env c).All Op.Plain := by
  refine .bind (load_plain env) fun r => ?_
  cases r with
  | none => exact .pure _
  | some j =>
      dsimp only
      split
      · exact .bind (discard_plain j) fun _ => .pure _
      · exact .pure _

theorem noOp_plain : (noOp env c).All Op.Plain := by
  have looks : ∀ tracks, (allInstalled env c tracks).All Op.Plain := by
    intro tracks
    induction tracks with
    | nil => exact .pure _
    | cons track rest ih =>
        unfold allInstalled
        cases expectedSha256 c.manifest track.name with
        | none => exact .pure _
        | some expected =>
            dsimp only
            split
            · exact .pure _
            · refine .bind (.bind (.op trivial) fun r => ?_) fun same => ?_
              · cases r <;> exact .pure _
              · cases same
                · exact .pure _
                · exact ih
  unfold noOp
  split
  · exact looks _
  · exact .pure _

theorem appendAll_plain (path : BootPath) (pieces : List Bytes) : (appendAll path pieces).All Op.Plain :=
  All.forEach fun _ _ => .bind (.op trivial) fun _ => .orThrow _ _

theorem call_plain (range : Option (List Char)) : (call c range).All Op.Plain := by
  unfold call
  dsimp only
  split
  · exact .throw _
  · exact .pure _

theorem download_plain (arrival : Arrival) (name : String) (x : Option ResumeJournal) :
    (download env c arrival name x).All Op.Plain := by
  refine .bind (.op trivial) fun _ => .bind (.orThrow _ _) fun _ => .bind ?_ fun n => ?_
  · unfold resumeFrom
    split
    · split
      · split
        · refine .bind (.op trivial) fun r => ?_
          cases r <;> exact .pure _
        · exact .pure _
      · exact .pure _
    · exact .pure _
  refine .bind (.op trivial) fun now => .bind (.attempt ?_) fun _ => .bind ?_ fun x => .bind ?_ fun _ => ?_
  · exact .bind (.op trivial) fun _ => .bind (.orThrow _ _) fun _ => .bind (.op trivial) fun _ =>
      All.bind (.orThrow _ _) fun _ => .bind (.op trivial) fun _ => .orThrow _ _
  · unfold request
    split
    · exact .bind (.op trivial) fun _ => .bind (.orThrow _ _) fun _ => .bind (call_plain c _) fun _ => .pure _
    · exact .bind (call_plain c _) fun _ => .pure _
  · refine .bind ?_ fun _ => appendAll_plain _ _
    cases x.1 with
    | none => exact .bind (.op trivial) fun _ => .orThrow _ _
    | some b =>
        refine .bind (.op trivial) fun there => ?_
        cases there
        · exact .throw _
        · exact .pure _
  · unfold checkWire
    split
    · exact .pure _
    · split
      · exact .pure _
      · exact .bind (.op trivial) fun _ => .bind clear_plain fun _ => .throw _

theorem decompress_plain (name : String) : (decompress env c name).All Op.Plain := by
  have renames : (op (.rename (.part name) (.output name)) >>= fun r => orThrow .io r : F Unit).All Op.Plain :=
    All.bind (.op trivial) fun _ => .orThrow _ _
  refine .bind (.op trivial) fun _ => .bind (.orThrow _ _) fun _ => .bind (.op trivial) fun _ =>
    All.bind (.orThrow _ _) fun _ => .bind (.op trivial) fun _ => .bind (.orThrow _ _) fun raw =>
      All.bind (appendAll_plain _ _) fun _ => ?_
  cases (env.unzstd raw).2 with
  | some e => exact .throw _
  | none =>
      dsimp only [finish]
      split
      · split
        · exact renames
        · exact .bind (.op trivial) fun _ => .throw _
      · exact renames

theorem seed_plain (track : ManifestTrack) : (seed env c track).All Op.Plain := by
  have seeds : ∀ plan file, (seedChunks env plan file).All Op.Plain := by
    intro plan
    induction plan with
    | nil => exact fun _ => .pure _
    | cons chunk rest ih =>
        intro file
        unfold seedChunks
        split
        · exact .throw _
        · cases fromHex chunk.hash with
          | none => exact .throw _
          | some hash =>
              dsimp only
              split
              · refine .bind (.bind (.op trivial) fun there => ?_) fun _ => ih _
                cases there
                · exact .bind (.op trivial) fun _ => .bind (.orThrow _ _) fun _ => .bind (.op trivial) fun _ =>
                    All.bind (.orThrow _ _) fun _ => .bind (.op trivial) fun _ => .orThrow _ _
                · exact .pure _
              · exact .throw _
  exact .bind (.op trivial) fun _ => .bind (.orThrow _ _) fun _ => seeds _ _

/-- A fetch comes to its end, whatever it finds. -/
theorem fetch_plain (arrival : Arrival) : (fetch env c arrival).All Op.Plain := by
  have delivers : ∀ x, (deliver env c arrival x).All Op.Plain := by
    intro x
    unfold deliver
    split
    · refine .bind (.attempt ?_) fun r => ?_
      · exact .bind (.ofExcept _) fun track => .bind (download_plain env c arrival _ _) fun _ =>
          All.bind (decompress_plain env c _) fun _ => .bind (.op trivial) fun _ => .bind clear_plain fun _ =>
            seed_plain env c track
      · cases r <;> exact .pure _
    · exact .pure _
  refine .bind (.op trivial) fun _ => .bind (.orThrow _ _) fun _ => .bind (prior_plain env c) fun x =>
    All.bind (noOp_plain env c) fun same => ?_
  cases same
  · exact delivers x
  · refine .bind (.bind (load_plain env) fun j => ?_) fun _ => .pure _
    cases j with
    | none => exact .pure _
    | some j => exact discard_plain j

end Plain

section Runs
variable (env : BootEnv) (c : FetchCall) (track : ManifestTrack) (content : Bytes)

/-- The files after fetches that were cut before the finished file was in place. Where they
begin, nothing of the artifact is there. -/
inductive Reached : Disk → Prop
  | start {w} (absent : w.get (.zst track.name) = none) (pending : Pending env c track content w) : Reached w
  | cut {w v} {arrival : Arrival} (before : Reached w) (crash : ((fetch env c arrival) ()).Crashes bootSem w v)
      (pending : Pending env c track content v) : Reached v

variable {env c track content} {w : Disk}

theorem Reached.resumable (offered : Offered env c track content) (reached : Reached env c track content w) :
    Resumable env c track.name w ∧ Pending env c track content w := by
  induction reached with
  | start absent pending => exact ⟨.absent absent, pending⟩
  | cut before crash pending ih => exact ⟨((wp_iff ..).mp (fetch_wp offered ih.1 ih.2)).1 _ crash, pending⟩

/-- After any cuts the part is a prefix of the artifact, and a fetch that is left alone ends.
It ends by the bootstrap route, with the file in place, just when the route takes the
track's name and something of the artifact is missing, or the artifact is empty. -/
theorem cut_download_finishes (offered : Offered env c track content) (reached : Reached env c track content w)
    (arrival : Arrival) :
    w.bytes (.zst track.name) <+: c.artifact.bytes ∧
      (∃ r t v, (fetch env c arrival).Runs bootSem () w r t v) ∧
      ∀ r t v, (fetch env c arrival).Runs bootSem () w r t v →
        ((r = .ok .bootstrap ∧ Installed track content v) ↔
          unsafeName track.name = false ∧ ¬ (w.bytes (.zst track.name) = c.artifact.bytes ∧ c.artifact.bytes ≠ [])) := by
  obtain ⟨resumable, pending⟩ := reached.resumable offered
  refine ⟨?_, All.runs (fetch_plain env c arrival) () w, fun r t v run => ?_⟩
  · cases there : w.get (.zst track.name) with
    | none => rw [FileProg.bytes_of_absent there]; exact List.nil_prefix
    | some f => rw [bytes_of_get there]; exact resumable.begins f there
  · rcases ((wp_iff ..).mp (fetch_wp offered resumable pending)).2 r t v run with
      ⟨ended, installed, goes⟩ | ⟨other, stops⟩
    · exact ⟨fun _ => goes, fun _ => ⟨ended, installed⟩⟩
    · exact ⟨fun both => absurd both.1 other, fun goes => absurd goes stops⟩

section Sample

def sampleTrack : ManifestTrack := ⟨1, "data", "raw", "a", 0, []⟩

/-- Two bytes, which are their own compressed form. -/
def sampleManifest : Manifest where
  asset := "app"
  assetUuid := ""
  tracks := [sampleTrack]
  segments := [⟨1, 1, 0, 0, true, [⟨toHex (numberHash [7, 8]), 2⟩]⟩]
  dict := []
  chunkTable := [toHex (numberHash [7, 8])]
  merkleRoot := ""
  signature := none
  signerPubkey := none
  metaPairs := [("payload", "raw"), ("sha256:a", toHex (numberHash [7, 8])), ("bootstrap.name", "a")]

def sampleCall : FetchCall where
  asset := "app"
  server := "http://here"
  outputDir := "out"
  manifest := sampleManifest
  manifestBlake3 := ""
  deliveryMode := some "bootstrap"
  bootstrapBlake3 := some (toHex (numberHash [7, 8]))
  artifact := ⟨[7, 8], by decide⟩
  resume := true
  forceReconstruct := false

noncomputable def sampleEnv : BootEnv where
  hashChunk := numberHash
  sha256 := numberHash
  journalJson := unary
  journalFromJson b := (ofUnary ResumeJournal b).toOption
  journalFromJson_journalJson j := by rw [ofUnary_unary]; rfl
  unzstd b := ([b], none)

def byByte : Arrival where
  pieces b := b.map fun x => [x]
  flatten_pieces b := by
    induction b with
    | nil => rfl
    | cons x b ih => rw [List.map_cons, List.flatten_cons, ih, List.singleton_append]

theorem sample_offered : Offered sampleEnv sampleCall sampleTrack [7, 8] where
  single := rfl
  bare := by decide +kernel
  named := by decide
  resumes := rfl
  offered := rfl
  hashed := rfl
  unpacks := rfl
  gives := rfl
  sha := by
    intro e named
    have same : expectedSha sampleCall sampleTrack.name = some (toHex (numberHash [7, 8])) := by decide
    rw [same] at named
    cases named
    exact (eqIgnoreAsciiCase_toHex _ _).mpr rfl
  sliced := ⟨by decide, fromHex_toHex _, trivial⟩

def smoothBoot : FileProg.Exec BootPath Unit Unit := ⟨fun _ => (), fun _ => none, fun _ => false⟩

theorem smoothBoot_within : smoothBoot.Within bootSem :=
  ⟨rfl, rfl, fun _ h => Bool.noConfusion h, fun _ _ => trivial⟩

/-- What a fetch of the bytes one by one leaves of the file when it is cut. -/
noncomputable def cutAfter (k : Nat) : Option (Option File × Option File) :=
  (smoothBoot.cut k ((fetch sampleEnv sampleCall byByte) ()) .empty).map fun v => (v.get (.zst "a"), v.get (.output "a"))

theorem reached_cut {k : Nat} {f : File} (cut : cutAfter k = some (some f, none)) :
    ∃ w, Reached sampleEnv sampleCall sampleTrack [7, 8] w ∧ w.get (.zst "a") = some f := by
  have start : Reached sampleEnv sampleCall sampleTrack [7, 8] .empty := .start (get_empty _) fun f there => by
    rw [get_empty] at there
    cases there
  obtain ⟨v, run, same⟩ := Option.map_eq_some_iff.mp cut
  have pending : Pending sampleEnv sampleCall sampleTrack [7, 8] v := fun f there => by
    rw [show v.get (.output sampleTrack.name) = none from congrArg Prod.snd same] at there
    cases there
  exact ⟨v, .cut start (smoothBoot_within.cut run) pending, congrArg Prod.fst same⟩

/-- A fetch that is cut after its first byte is taken up by the next one. -/
theorem cut_download_finishes_half : ∃ w, Reached sampleEnv sampleCall sampleTrack [7, 8] w ∧ w.bytes (.zst "a") = [7] ∧
    (∃ r t v, (fetch sampleEnv sampleCall byByte).Runs bootSem () w r t v) ∧
      ∀ r t v, (fetch sampleEnv sampleCall byByte).Runs bootSem () w r t v →
        r = .ok .bootstrap ∧ Installed sampleTrack [7, 8] v := by
  obtain ⟨w, reached, half⟩ := @reached_cut 10 ⟨[7], 0⟩ (by decide +kernel)
  obtain ⟨-, ends, goes⟩ := cut_download_finishes sample_offered reached byByte
  have begun : w.bytes (.zst "a") = [7] := bytes_of_get half
  refine ⟨w, reached, begun, ends, fun r t v run => (goes r t v run).mpr ⟨by decide, ?_⟩⟩
  rw [show w.bytes (.zst sampleTrack.name) = [7] from begun]
  exact fun all => absurd all.1 (by decide)

/-- With all of the artifact there, the next fetch asks for what comes after its end. -/
theorem complete_download_refused : ¬ ∀ (env : BootEnv) (c : FetchCall) (track : ManifestTrack) (content : Bytes) (w : Disk)
    (arrival : Arrival), Offered env c track content → unsafeName track.name = false → Reached env c track content w →
      ∀ r t v, (fetch env c arrival).Runs bootSem () w r t v → r = .ok .bootstrap ∧ Installed track content v := by
  intro always
  obtain ⟨w, reached, all⟩ := @reached_cut 11 ⟨[7, 8], 0⟩ (by decide +kernel)
  obtain ⟨r, t, v, run⟩ := All.runs (σ := bootSem) (fetch_plain sampleEnv sampleCall byByte) () w
  have ended := always _ _ _ _ w byByte sample_offered (by decide) reached r t v run
  obtain ⟨resumable, pending⟩ := reached.resumable sample_offered
  rcases ((wp_iff ..).mp (fetch_wp sample_offered resumable pending)).2 r t v run with ⟨-, -, -, missing⟩ | ⟨other, -⟩
  · exact missing ⟨bytes_of_get all, by decide⟩
  · exact other ended.1

end Sample

end Runs
end Cavs.Bootstrap
