import Delegation.CommandLine.Report

/-!
This module contains the program: it reads the command line, works on the files of the system, and
says how that went.
-/

namespace Delegation

/--
Whether `path` can be opened. A path that ends in `/.` leads to directories only.
-/
def canOpen (path : String) : IO Bool := do
  try
    let _ ← IO.FS.Handle.mk path .read
    return true
  catch _ =>
    return false

def tryFile {α : Type} (act : IO (Except FileError α)) : IO (Except FileError α) := do
  try
    act
  catch e =>
    match e with
    | .noFileOrDirectory .. => return .error .notFound
    | e => return .error (.other (toString e))

/--
Access to the files of the system. A new text is written beside a file and then takes its place.
-/
def systemFiles : FileAccess IO where
  isPresent := canOpen
  isDirectory path := canOpen (path ++ "/.")
  read path := tryFile do
    match String.fromUTF8? (← IO.FS.readBinFile path) with
    | some text => return .ok text
    | none => return .error .notText
  replace path text := tryFile do
    let draft := path ++ ".tmp"
    try
      IO.FS.writeFile draft text
      IO.FS.rename draft path
    catch e =>
      if ← canOpen draft then
        IO.FS.removeFile draft
      throw e
    return .ok ()

def userConfig : IO (Option String) := do
  match ← IO.getEnv "XDG_CONFIG_HOME", ← IO.getEnv "HOME" with
  | some directory, home =>
    if directory.startsWith "/" then
      return some (joinPath directory localConfig)
    else
      return home.map (joinPath · (joinPath ".config" localConfig))
  | none, home => return home.map (joinPath · (joinPath ".config" localConfig))

def usage : String :=
  "Usage: polymorph [--output DIRECTORY] [--config FILE] [--log-level LEVEL] [--dry-run] SCHEMA"

def record (wanted level : LogLevel) (lines : List String) : IO Unit := do
  if LogLevel.all.idxOf level ≤ LogLevel.all.idxOf wanted then
    for line in lines do
      IO.eprintln line

def start (args : List String) : IO UInt32 := do
  match Arguments.parse args with
  | .error .help =>
    IO.println usage
    return 0
  | .error .version =>
    IO.println "polymorph 0.1.0"
    return 0
  | .error e =>
    IO.eprintln ("error: " ++ e.message)
    IO.eprintln usage
    return 2
  | .ok args =>
    let outcome ← run systemFiles (← userConfig) args
    for warning in outcome.warnings do
      record args.logLevel .warn (Report.ofDiagnostic args.schema warning).lines
    match outcome.result with
    | .ok summary =>
      record args.logLevel .info [summary.message]
      return 0
    | .error e =>
      for report in e.reports do
        record args.logLevel .error report.lines
      for cause in e.causes do
        record args.logLevel .error ["  because: " ++ cause]
      return 1

end Delegation

def main (args : List String) : IO UInt32 :=
  Delegation.start args
