import Delegation.CommandLine.Arguments
import Delegation.Files.Access
import Delegation.Revision
import Delegation.Settings

/-!
This module contains a run of the program: settings and schema are read, then the declaration file
of the generated client is revised. A run that fails changes no file, and neither does a dry run.
-/

namespace Delegation

inductive SettingsError where
  | missing (path : String)
  | file (path : String) (e : FileError)
  | invalid (path : String) (fault : SettingsFault)
deriving DecidableEq

inductive ArtifactError where
  | missingOutput (path : String)
  | file (path : String) (e : FileError)
  | revision (e : ReviseError)
deriving DecidableEq

inductive RunError where
  | settings (e : SettingsError)
  | schemaFile (path : String) (e : FileError)
  | schema (path : String) (e : ParseError)
  | artifact (path : String) (e : ArtifactError)
deriving DecidableEq

structure Plan where
  settings : Settings
  model : Model
  warnings : List Diagnostic

def Plan.artifact (p : Plan) (output : String) : String :=
  joinPath output p.settings.artifactPath

structure Artifact where
  path : String
  source : String

structure Outcome where
  result : Except RunError Summary
  warnings : List Diagnostic

def localConfig : String :=
  "polymorph/config.toml"

section

variable {m : Type → Type} [Monad m] (files : FileAccess m)

def readSettings (path : String) : m (Except SettingsError Settings) := do
  match ← files.read path with
  | .error e => return .error (.file path e)
  | .ok source => return (Settings.parse source.toList).mapError (.invalid path)

def findSettings : List String → m (Except SettingsError Settings)
  | [] => return .ok .default
  | path :: paths => do
    if ← files.isPresent path then
      readSettings files path
    else
      findSettings paths

/--
The settings in the configuration that the command line names, or else in the local one, or else in
that of the user.
-/
def loadSettings (userConfig : Option String) : Option String → m (Except SettingsError Settings)
  | none => findSettings files (localConfig :: userConfig.toList)
  | some path => do
    if ← files.isPresent path then
      readSettings files path
    else
      return .error (.missing path)

def prepare (userConfig : Option String) (args : Arguments) : m (Except RunError Plan) := do
  match ← loadSettings files userConfig args.config with
  | .error e => return .error (.settings e)
  | .ok settings =>
    match ← files.read args.schema with
    | .error e => return .error (.schemaFile args.schema e)
    | .ok source =>
      match loadSchema settings.policy source.toList with
      | .error e => return .error (.schema args.schema e)
      | .ok (model, warnings) => return .ok ⟨settings, model, warnings⟩

def Artifact.load (output path : String) : m (Except ArtifactError Artifact) := do
  if output.isEmpty then
    return .error (.missingOutput output)
  else if !(← files.isDirectory output) then
    return .error (.missingOutput output)
  else
    let path := joinPath output path
    match ← files.read path with
    | .error e => return .error (.file path e)
    | .ok source => return .ok ⟨path, source⟩

def Artifact.persist (a : Artifact) (text : String) : m (Except ArtifactError Unit) := do
  return (← files.replace a.path text).mapError (.file a.path)

def preview (plan : Plan) (output : String) : m (Except ArtifactError Revision) := do
  match ← Artifact.load files output plan.settings.artifactPath with
  | .error e => return .error e
  | .ok artifact => return (revise plan.model artifact.source.toList).mapError .revision

/--
Revise the declaration file in `output` in place. Nothing is written unless that succeeds.
-/
def reviseInPlace (plan : Plan) (output : String) : m (Except ArtifactError Summary) := do
  match ← Artifact.load files output plan.settings.artifactPath with
  | .error e => return .error e
  | .ok artifact =>
    match revise plan.model artifact.source.toList with
    | .error e => return .error (.revision e)
    | .ok revision =>
      match ← artifact.persist files (.ofList revision.text) with
      | .error e => return .error e
      | .ok () => return .ok revision.summary

def run (userConfig : Option String) (args : Arguments) : m Outcome := do
  match ← prepare files userConfig args with
  | .error e => return ⟨.error e, []⟩
  | .ok plan =>
    let error := RunError.artifact (plan.artifact args.output)
    if args.isDryRun then
      let result ← preview files plan args.output
      return ⟨(result.map (·.summary)).mapError error, plan.warnings⟩
    else
      let result ← reviseInPlace files plan args.output
      return ⟨result.mapError error, plan.warnings⟩

end

end Delegation
