import Cavs.FileExec
import Cavs.SegIndex

/-!
# The local workspace

An app owns depots, a build records the content of some of them, and a branch points at a
build. All of it is files below one directory, each written beside its place and renamed
into it.
-/
namespace Cavs.Workspace
open FileProg (Bytes IoError Prog)
open FileProg.Eff (op orThrow throw forEach)
open Std (ExtTreeMap)

inductive Platform where
  | windows
  | linux
  | macos
  deriving DecidableEq, Repr

inductive BranchVisibility where
  | «public»
  | «private»
  deriving DecidableEq, Repr

structure Depot where
  id : String
  name : String
  platform : Option Platform
  language : Option String
  optional : Bool
  deriving DecidableEq, Repr

structure Branch where
  id : String
  name : String
  visibility : BranchVisibility
  currentBuild : Option String
  history : List String
  deriving DecidableEq, Repr

structure App where
  id : String
  name : String
  depots : List Depot
  branches : List Branch
  deriving DecidableEq, Repr

/-- The content of one depot inside a build. -/
structure DepotBuild where
  depotId : String
  sourcePath : String
  totalBytes : Nat
  files : Nat
  deriving DecidableEq, Repr

structure Build where
  id : String
  label : Option String
  createdAt : UInt64
  depots : List DepotBuild
  deriving DecidableEq, Repr

/-- The chunks of every file of a depot. -/
structure DepotIndex where
  depotId : String
  totalBytes : Nat
  files : ExtTreeMap String (List (String × Nat))

structure WorkspaceConfig where
  version : UInt32
  defaultApp : String
  deriving DecidableEq, Repr

/-- What the workspace takes from other packages: the documents, and the chunks of a file.
A build whose numbers are too large for the format has no document. -/
structure WorkspaceCodec where
  configToml : WorkspaceConfig → Bytes
  appToml : App → Bytes
  appFromToml : Bytes → Option App
  appFromToml_appToml : ∀ a, appFromToml (appToml a) = some a
  buildToml : Build → Option Bytes
  buildFromToml : Bytes → Option Build
  buildFromToml_buildToml : ∀ b raw, buildToml b = some raw → buildFromToml raw = some b
  indexJson : DepotIndex → Bytes
  indexFromJson : Bytes → Option DepotIndex
  indexFromJson_indexJson : ∀ i, indexFromJson (indexJson i) = some i
  chunks : Bytes → List (String × Nat)

/-- The files of a workspace. Apps and builds go by the names of their directories; those
that lie elsewhere have names that are no part of a path. -/
inductive WorkspacePath where
  | config
  | configTmp
  | reportsDir (app : String)
  | buildsDir (app : String)
  | app (app : String)
  | appTmp (app : String)
  | buildDir (app build : String)
  | build (app build : String)
  | buildTmp (app build : String)
  | index (app build depot : String)
  | indexTmp (app build depot : String)
  deriving DecidableEq, Repr

abbrev WorkspaceDisk := FileProg.World WorkspacePath Unit

abbrev WorkspaceSem := FileProg.Sem WorkspacePath Unit Unit

/-- Any operation may fail for a reason of its own. -/
def workspaceSem (mayFail : FileProg.Op WorkspacePath Unit → WorkspaceDisk → Prop) : WorkspaceSem :=
  ⟨fun _ => (), fun _ => none, mayFail, fun _ _ => True⟩

inductive WorkspaceError where
  | io (e : IoError)
  | alreadyThere
  | notValidId (id : String)
  | noAppToml (app : String)
  | corrupt (path : WorkspacePath)
  | depotNotFound (depot app : String)
  | branchNotFound (branch app : String)
  | buildNotFound (build app : String)
  | noDepotInBuild (build depot : String)
  | depotExists (depot app : String)
  | branchExists (branch app : String)
  | noDepots
  | unwritable
  | neverServed (branch build : String) (history : List String)
  deriving DecidableEq, Repr

abbrev F (α : Type) := FileProg.Eff WorkspacePath Unit Unit WorkspaceError Unit α

def failIo : IoError → WorkspaceError := .io

/-- A text that is one part of a path. -/
def isPart (t : String) : Bool := t != "" && t != "." && t != ".." && t.toList.all fun ch => ch != '/'

/-- The directory that a text leads to, by the name it goes by. -/
structure Spelling where
  app : String → String
  build : String → String
  app_part : ∀ t, isPart t = true → app t = t
  build_part : ∀ t, isPart t = true → build t = t

section Ids

def isIdChar (ch : Char) : Bool := ch.isAlphanum || ch = '-' || ch = '_'

def validId (id : String) : Bool := id != "" && id.toList.all isIdChar

def validateId (id : String) : F Unit := if validId id then pure () else throw (.notValidId id)

def buildPrefix : List Char := ['b', 'u', 'i', 'l', 'd', '_']

def buildId (n : Nat) : String := String.ofList (buildPrefix ++ decimal n)

/-- The number in the id of a build. -/
def buildNumber (id : String) : Option Nat := (buildPrefix.isPrefixOf? id.toList).bind parseU64

/-- One more than the largest number so far. -/
def nextBuildId (existing : List Build) : String :=
  buildId (wordAdd ((existing.filterMap fun b => buildNumber b.id).max?.getD 1000) 1)

end Ids

section Files
variable (c : WorkspaceCodec) (sp : Spelling)

/-- Write beside the place and rename, so that nobody reads half a file. -/
def writeAtomic (tmp path : WorkspacePath) (bytes : Bytes) : F Unit := do
  orThrow failIo (← op (.write tmp bytes))
  orThrow failIo (← op (.rename tmp path))

def loadApp (appId : String) : F App := do
  match ← op (.read (.app (sp.app appId))) with
  | .error _ => throw (.noAppToml appId)
  | .ok raw => match c.appFromToml raw with
    | none => throw (.corrupt (.app (sp.app appId)))
    | some app => return app

def saveApp (app : App) : F Unit := do
  orThrow failIo (← op (.mkdir (.buildsDir (sp.app app.id))))
  writeAtomic (.appTmp (sp.app app.id)) (.app (sp.app app.id)) (c.appToml app)

/-- Create a workspace with one app. -/
def init (appId : String) : F Unit := do
  if ← op (.present .config) then throw .alreadyThere
  else do
    validateId appId
    orThrow failIo (← op (.mkdir (.buildsDir appId)))
    orThrow failIo (← op (.mkdir (.reportsDir appId)))
    writeAtomic .configTmp .config (c.configToml ⟨1, appId⟩)
    saveApp c sp ⟨appId, appId, [], []⟩

def addDepot (appId : String) (depot : Depot) : F Unit := do
  validateId depot.id
  let app ← loadApp c sp appId
  if app.depots.any fun d => d.id = depot.id then throw (.depotExists depot.id appId)
  else saveApp c sp { app with depots := app.depots ++ [depot] }

def addBranch (appId : String) (branch : Branch) : F Unit := do
  validateId branch.id
  let app ← loadApp c sp appId
  if app.branches.any fun b => b.id = branch.id then throw (.branchExists branch.id appId)
  else saveApp c sp { app with branches := app.branches ++ [branch] }

/-- Is it a directory of a build? -/
def inBuilds (app : String) : WorkspacePath → Bool
  | .buildDir a id => decide (a = app) && isPart id
  | _ => false

def readBuild (app id : String) : F Build := do
  let raw ← orThrow failIo (← op (.read (.build app id)))
  match c.buildFromToml raw with
  | none => throw (.corrupt (.build app id))
  | some build => return build

/-- The builds whose directories were listed; a directory without a record is passed over. -/
def readBuilds : List WorkspacePath → F (List Build)
  | [] => return []
  | .buildDir app id :: rest => do
      if ← op (.present (.build app id)) then do
        let build ← readBuild c app id
        return build :: (← readBuilds rest)
      else readBuilds rest
  | _ :: rest => readBuilds rest

/-- The builds of an app, sorted by their ids as texts. -/
def builds (appId : String) : F (List Build) := do
  if ← op (.present (.buildsDir (sp.app appId))) then do
    let entries ← orThrow failIo (← op (.list (inBuilds (sp.app appId))))
    let found ← readBuilds c entries
    return found.insertionSort fun a b => decide (a.id ≤ b.id)
  else return []

def build (appId buildId : String) : F Build := do
  if ← op (.present (.build (sp.app appId) (sp.build buildId))) then readBuild c (sp.app appId) (sp.build buildId)
  else throw (.buildNotFound buildId appId)

/-- The index of a depot, which goes by its id, in a build. -/
def depotIndex (appId buildId depotId : String) : F DepotIndex := do
  let path : WorkspacePath := .index (sp.app appId) (sp.build buildId) depotId
  if ← op (.present path) then do
    let raw ← orThrow failIo (← op (.read path))
    match c.indexFromJson raw with
    | none => throw (.corrupt path)
    | some index => return index
  else throw (.noDepotInBuild buildId depotId)

end Files

section Build
variable (c : WorkspaceCodec) (sp : Spelling)

/-- Where the content of a depot comes from, and what is there: its files in the order of
their names. -/
structure Source where
  depotId : String
  path : String
  files : Except IoError (List (String × Bytes))

/-- The index of what is there. -/
def DepotIndex.scan (depotId : String) (files : List (String × Bytes)) : DepotIndex where
  depotId
  totalBytes := (files.map fun f => f.2.length).sum
  files := files.foldl (fun index f => index.insert f.1 (c.chunks f.2)) ∅

def App.depot (app : App) (id : String) : F Depot :=
  match app.depots.find? fun d => d.id = id with
  | some depot => pure depot
  | none => throw (.depotNotFound id app.id)

def indexDepot (app build : String) (source : Source) : F DepotBuild := do
  let files ← orThrow failIo source.files
  let index := DepotIndex.scan c source.depotId files
  writeAtomic (.indexTmp app build source.depotId) (.index app build source.depotId) (c.indexJson index)
  return ⟨source.depotId, source.path, index.totalBytes, index.files.size⟩

def indexDepots (app build : String) : List Source → F (List DepotBuild)
  | [] => return []
  | source :: rest => do
      let depot ← indexDepot c app build source
      return depot :: (← indexDepots app build rest)

/-- The first branch of the id points at the build from now on. -/
def pointBranch (branchId buildId : String) : List Branch → Option (List Branch)
  | [] => none
  | b :: rest =>
      if b.id = branchId then some ({ b with currentBuild := some buildId, history := b.history ++ [buildId] } :: rest)
      else (pointBranch branchId buildId rest).map (b :: ·)

def App.point (app : App) (branchId buildId : String) : F App :=
  match pointBranch branchId buildId app.branches with
  | some branches => pure { app with branches }
  | none => throw (.branchNotFound branchId app.id)

/-- Record a build: the index of every depot, then the build, then the branch. -/
def createBuild (appId : String) (label branch : Option String) (sources : List Source) (createdAt : UInt64) :
    F Build := do
  let app ← loadApp c sp appId
  if sources = [] then throw .noDepots
  else do
    forEach sources fun s => do let _ ← app.depot s.depotId
    let id := nextBuildId (← builds c sp appId)
    orThrow failIo (← op (.mkdir (.buildDir (sp.app appId) id)))
    let depots ← indexDepots c (sp.app appId) id sources
    let build : Build := ⟨id, label, createdAt, depots⟩
    match c.buildToml build with
    | none => throw .unwritable
    | some raw => do
        writeAtomic (.buildTmp (sp.app appId) id) (.build (sp.app appId) id) raw
        match branch with
        | none => return build
        | some branchId => do
            saveApp c sp (← app.point branchId id)
            return build

/-- Point a branch at a build. -/
def promote (appId branchId buildId : String) : F Unit := do
  let _ ← build c sp appId buildId
  let app ← loadApp c sp appId
  saveApp c sp (← app.point branchId buildId)

/-- Point a branch at a build it has served before. -/
def rollback (appId branchId toBuild : String) : F Unit := do
  let app ← loadApp c sp appId
  match app.branches.find? fun b => b.id = branchId with
  | none => throw (.branchNotFound branchId app.id)
  | some b =>
      if toBuild ∈ b.history then promote c sp appId branchId toBuild
      else throw (.neverServed branchId toBuild b.history)

end Build

/-- One call of a user. -/
inductive Call where
  | addDepot (app : String) (depot : Depot)
  | addBranch (app : String) (branch : Branch)
  | createBuild (app : String) (label branch : Option String) (sources : List Source) (createdAt : UInt64)
  | promote (app branch build : String)
  | rollback (app branch build : String)

/-- A call returns the build it made. -/
def perform (c : WorkspaceCodec) (sp : Spelling) : Call → F (Option Build)
  | .addDepot app depot => do addDepot c sp app depot; return none
  | .addBranch app branch => do addBranch c sp app branch; return none
  | .createBuild app label branch sources createdAt => do
      return some (← createBuild c sp app label branch sources createdAt)
  | .promote app branch build => do promote c sp app branch build; return none
  | .rollback app branch build => do rollback c sp app branch build; return none

end Cavs.Workspace
