import Cavs.Decimal
import Cavs.Fetch

/-!
# The bootstrap download

A server offers an asset as one compressed artifact and answers requests for a range of it.
A client without the asset's chunks downloads the artifact beside the file it is going to
be. A journal says whether what an earlier download left may be continued.
-/
namespace Cavs.Bootstrap
open FileProg (Bytes IoError)
open FileProg.Eff (op orThrow throw attempt forEach)

section Server

/-- The compressed form of an asset; a file's size is a 64-bit number. -/
structure Artifact where
  bytes : Bytes
  small : bytes.length < 2 ^ 64

structure Response where
  status : Nat
  body : Bytes
  deriving DecidableEq

inductive RangeParse where
  | full
  | range (start stop : Nat)
  | unsatisfiable
  deriving DecidableEq, Repr

def rangeUnit : List Char := ['b', 'y', 't', 'e', 's', '=']

def splitOnce (ch : Char) (l : List Char) : Option (List Char × List Char) :=
  match l.span fun c => c ≠ ch with
  | (_, []) => none
  | (front, _ :: back) => some (front, back)

/-- The last byte asked for: the end of the file, where none is named. -/
def lastByte (text : List Char) (size : Nat) : Option Nat :=
  if text = [] then some (size - 1) else (parseU64 text).map fun n => min n (size - 1)

/-- One range `bytes=start[-end]`; whatever else is asked for is answered in full. -/
def parseByteRange (value : List Char) (size : Nat) : RangeParse :=
  match rangeUnit.isPrefixOf? value with
  | none => .full
  | some spec =>
      if ',' ∈ spec then .full
      else match splitOnce '-' spec with
        | none => .full
        | some (front, back) => match parseU64 (trim front), lastByte (trim back) size with
          | some start, some stop =>
              if size = 0 ∨ size ≤ start ∨ stop < start then .unsatisfiable else .range start stop
          | _, _ => .full

def getBootstrap (a : Artifact) (range : Option (List Char)) : Response :=
  match range.map fun value => parseByteRange value a.bytes.length with
  | none | some .full => ⟨200, a.bytes⟩
  | some .unsatisfiable => ⟨416, []⟩
  | some (.range start stop) => ⟨206, (a.bytes.drop start).take (stop - start + 1)⟩

end Server

inductive ResumeState where
  | bootstrapDownloading
  | chunkDownloading
  deriving DecidableEq, Repr

/-- The files a fetch comes by. A journal may name any other file. -/
inductive BootPath where
  | cacheDir
  | journalDir
  | journal
  | journalTmp
  | outputDir
  | zst (name : String)
  | part (name : String)
  | output (name : String)
  | shard (hash : ChunkHash)
  | entry (hash : ChunkHash)
  | entryTmp (hash : ChunkHash)
  | elsewhere (path : String)
  deriving DecidableEq

structure ResumeJournal where
  asset : String
  server : String
  output : String
  manifestBlake3 : String
  state : ResumeState
  bootstrapPart : Option BootPath
  bootstrapBlake3 : Option String
  updatedAt : Nat
  deriving DecidableEq

/-- What the client takes from other packages: two hashes, the journal's format, and the
decompressor, which hands out pieces and may then fail. -/
structure BootEnv where
  hashChunk : Bytes → ChunkHash
  sha256 : Bytes → ChunkHash
  journalJson : ResumeJournal → Bytes
  journalFromJson : Bytes → Option ResumeJournal
  journalFromJson_journalJson : ∀ j, journalFromJson (journalJson j) = some j
  unzstd : Bytes → List Bytes × Option String

/-- How the bytes of a body come in. -/
structure Arrival where
  pieces : Bytes → List Bytes
  flatten_pieces : ∀ b, (pieces b).flatten = b

inductive BootError where
  | io (e : IoError)
  | noBootstrapName
  | notSingleTrack
  | otherTrack
  | unsafeName (name : String)
  | status (code : Nat)
  | bootstrapHashMismatch
  | zstd (e : String)
  | outputHashMismatch
  | shortArtifact (hash : String)
  | badChunkHash (hash : String)
  | chunkHashMismatch (hash : String)
  deriving DecidableEq

abbrev Disk := FileProg.World BootPath Unit

abbrev BootSem := FileProg.Sem BootPath Unit Unit

/-- Nothing fails. -/
def bootSem : BootSem := ⟨fun _ => (), fun _ => none, fun _ _ => False, fun _ _ => True⟩

abbrev F (α : Type) := FileProg.Eff BootPath Unit Unit BootError Unit α

/-- One fetch: the manifest the server has, what it answered when the session was opened,
and the artifact it offers. -/
structure FetchCall where
  asset : String
  server : String
  outputDir : String
  manifest : Manifest
  manifestBlake3 : String
  deliveryMode : Option String
  bootstrapBlake3 : Option String
  artifact : Artifact
  resume : Bool
  forceReconstruct : Bool

/-- How a fetch ends. The chunk route itself is left out. -/
inductive Route where
  | noOp
  | bootstrap
  | chunks (failed : Option BootError)
  deriving DecidableEq

section Journal
variable (env : BootEnv)

/-- A journal that cannot be read counts as none. -/
def ResumeJournal.load : F (Option ResumeJournal) := do
  match ← op (.read .journal) with
  | .ok raw => return env.journalFromJson raw
  | .error _ => return none

def ResumeJournal.save (j : ResumeJournal) : F Unit := do
  orThrow .io (← op (.mkdir .journalDir))
  orThrow .io (← op (.write .journalTmp (env.journalJson j)))
  orThrow .io (← op (.rename .journalTmp .journal))

def ResumeJournal.clear : F Unit := do
  let _ ← op (.remove .journal)
  return ()

def removePart : Option BootPath → F Unit
  | none => return ()
  | some part => do
      let _ ← op (.remove part)
      return ()

def ResumeJournal.discard (j : ResumeJournal) : F Unit := do
  removePart j.bootstrapPart
  ResumeJournal.clear

end Journal

section Client
variable (env : BootEnv) (c : FetchCall)

/-- The journal of an earlier fetch of the same manifest from the same server. -/
def prior : F (Option ResumeJournal) := do
  match ← ResumeJournal.load env with
  | none => return none
  | some j =>
      if c.resume = false ∨ j.server ≠ c.server ∨ j.manifestBlake3 ≠ c.manifestBlake3 then do
        j.discard
        return none
      else return some j

section NoOp

def payloadKind : Option String := (c.manifest.metaPairs.find? fun p => p.1 = "payload").map Prod.snd

def isContainer : Bool := payloadKind c = some "raw" || payloadKind c = some "directory"

def isData (track : ManifestTrack) : Bool := track.kind ≠ "video" && track.kind ≠ "audio"

/-- Whether the files in place are looked at before anything is asked of the server. -/
def looksInstalled : Bool :=
  isContainer c && !c.forceReconstruct && c.manifest.tracks.any isData && c.manifest.tracks.all isData

def fileMatchesSha256 (name expected : String) : F Bool := do
  match ← op (.read (.output name)) with
  | .ok b => return eqIgnoreAsciiCase (toHex (env.sha256 b)) expected
  | .error _ => return false

def allInstalled : List ManifestTrack → F Bool
  | [] => return true
  | track :: rest => match expectedSha256 c.manifest track.name with
    | none => return false
    | some expected =>
        if unsafeName track.name then return false
        else do
          if ← fileMatchesSha256 env track.name expected then allInstalled rest else return false

def noOp : F Bool := if looksInstalled c then allInstalled env c c.manifest.tracks else return false

end NoOp

section Download

def bootstrapName : Option String := (c.manifest.metaPairs.find? fun p => p.1 = "bootstrap.name").map Prod.snd

/-- A journal that speaks of this very artifact. -/
def trusts (name expected : String) (p : ResumeJournal) : Bool :=
  p.state = .bootstrapDownloading ∧ p.bootstrapPart = some (.zst name) ∧ p.bootstrapBlake3 = some expected

def resumeFrom (name : String) : Option ResumeJournal → F Nat
  | some p => match c.bootstrapBlake3 with
    | some expected =>
        if trusts name expected p then do
          match ← op (.stat (.zst name)) with
          | some (len, _) => return len
          | none => return 0
        else return 0
    | none => return 0
  | none => return 0

def downloadJournal (name : String) (now : Nat) : ResumeJournal where
  asset := c.asset
  server := c.server
  output := c.outputDir
  manifestBlake3 := c.manifestBlake3
  state := .bootstrapDownloading
  bootstrapPart := some (.zst name)
  bootstrapBlake3 := c.bootstrapBlake3
  updatedAt := now

def rangeText (n : Nat) : List Char := rangeUnit ++ (decimal n ++ ['-'])

/-- A status of 400 or more is an error; none of those that get here is tried again. -/
def call (range : Option (List Char)) : F Response :=
  let r := getBootstrap c.artifact range
  if 400 ≤ r.status then throw (.status r.status) else return r

/-- The bytes that are kept, if the download goes on after them, and the body. -/
def request (name : String) (n : Nat) : F (Option Bytes × Bytes) :=
  if 0 < n then do
    let existing ← orThrow .io (← op (.read (.zst name)))
    let r ← call c (some (rangeText n))
    return (if r.status = 206 then some existing else none, r.body)
  else do
    let r ← call c none
    return (none, r.body)

/-- Open the file, after its last byte or empty. -/
def openPart (name : String) : Option Bytes → F Unit
  | some _ => do
      if ← op (.present (.zst name)) then return () else throw (.io .notFound)
  | none => do
      orThrow .io (← op (.write (.zst name) []))

def appendAll (path : BootPath) (pieces : List Bytes) : F Unit :=
  forEach pieces fun b => do
    orThrow .io (← op (.append path b))

/-- Wrong bytes are thrown away, with the journal that speaks of them. -/
def checkWire (name : String) (got : Bytes) : F Unit :=
  match c.bootstrapBlake3 with
  | none => return ()
  | some expected =>
      if eqIgnoreAsciiCase (toHex (env.hashChunk got)) expected then return ()
      else do
        let _ ← op (.remove (.zst name))
        ResumeJournal.clear
        throw .bootstrapHashMismatch

end Download

section Install

def expectedSha (name : String) : Option String :=
  (c.manifest.metaPairs.find? fun p => p.1 = "sha256:" ++ name).map Prod.snd

/-- Move the written file into place, once it has the hash it should have. -/
def finish (name : String) (written : Bytes) : F Unit :=
  match expectedSha c name with
  | some expected =>
      if eqIgnoreAsciiCase (toHex (env.sha256 written)) expected then do
        orThrow .io (← op (.rename (.part name) (.output name)))
      else do
        let _ ← op (.remove (.part name))
        throw .outputHashMismatch
  | none => do
      orThrow .io (← op (.rename (.part name) (.output name)))

def decompress (name : String) : F Unit := do
  orThrow .io (← op (.mkdir .outputDir))
  orThrow .io (← op (.write (.part name) []))
  let raw ← orThrow .io (← op (.read (.zst name)))
  appendAll (.part name) (env.unzstd raw).1
  match (env.unzstd raw).2 with
  | some e => throw (.zstd e)
  | none => finish env c name (env.unzstd raw).1.flatten

def put (hash : ChunkHash) (payload : Bytes) : F Unit := do
  if ← op (.present (.entry hash)) then return ()
  else do
    orThrow .io (← op (.mkdir (.shard hash)))
    orThrow .io (← op (.write (.entryTmp hash) payload))
    orThrow .io (← op (.rename (.entryTmp hash) (.entry hash)))

/-- Cut the installed file along the chunk plan. -/
def seedChunks : List ChunkRef → Bytes → F Unit
  | [], _ => return ()
  | chunk :: rest, file =>
      if file.length < chunk.len.toNat then throw (.shortArtifact chunk.hash)
      else match fromHex chunk.hash with
        | none => throw (.badChunkHash chunk.hash)
        | some hash =>
            if env.hashChunk (file.take chunk.len.toNat) = hash then do
              put hash (file.take chunk.len.toNat)
              seedChunks rest (file.drop chunk.len.toNat)
            else throw (.chunkHashMismatch chunk.hash)

def chunkPlan (track : ManifestTrack) : List ChunkRef :=
  ((c.manifest.segments.filter fun s => s.trackId = track.trackId).insertionSort fun a b => a.before b).flatMap
    ManifestSegment.chunks

def seed (track : ManifestTrack) : F Unit := do
  let file ← orThrow .io (← op (.read (.output track.name)))
  seedChunks env (chunkPlan c track) file

end Install

variable (arrival : Arrival)

/-- The one track, under the name the artifact goes by. -/
def bootTrack : Except BootError ManifestTrack :=
  match bootstrapName c with
  | none => .error .noBootstrapName
  | some name => match c.manifest.tracks with
    | [track] =>
        if track.name ≠ name then .error .otherTrack
        else if unsafeName track.name then .error (.unsafeName track.name)
        else .ok track
    | _ => .error .notSingleTrack

def receive (name : String) (kept : Option Bytes) (body : Bytes) : F Unit := do
  openPart name kept
  appendAll (.zst name) (arrival.pieces body)

/-- Get what is missing of the artifact; the journal is written before the first byte. -/
def download (name : String) (priorJournal : Option ResumeJournal) : F Unit := do
  orThrow .io (← op (.mkdir .outputDir))
  let n ← resumeFrom c name priorJournal
  let now ← op .now
  let _ ← attempt ((downloadJournal c name now).save env)
  let (kept, body) ← request c name n
  receive arrival name kept body
  checkWire env c name (kept.getD [] ++ body)

def fetchBootstrap (priorJournal : Option ResumeJournal) : F Unit := do
  let track ← FileProg.Eff.ofExcept (bootTrack c)
  download env c arrival track.name priorJournal
  decompress env c track.name
  let _ ← op (.remove (.zst track.name))
  ResumeJournal.clear
  seed env c track

/-- A download that fails leaves the asset to the chunk route. -/
def deliver (priorJournal : Option ResumeJournal) : F Route :=
  if c.deliveryMode = some "bootstrap" then do
    match ← attempt (fetchBootstrap env c arrival priorJournal) with
    | .ok () => return .bootstrap
    | .error e => return .chunks (some e)
  else return .chunks none

def dropJournal : F Unit := do
  match ← ResumeJournal.load env with
  | some j => j.discard
  | none => return ()

def fetch : F Route := do
  orThrow .io (← op (.mkdir .cacheDir))
  let priorJournal ← prior env c
  if ← noOp env c then do
    dropJournal env
    return .noOp
  else deliver env c arrival priorJournal

end Client
end Cavs.Bootstrap
