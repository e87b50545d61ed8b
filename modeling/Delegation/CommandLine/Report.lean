import Delegation.CommandLine.Run

/-!
This module contains how the failure of a run is reported. Diagnostics are reported one by one, with
the file that they point into. All else is one report.
-/

namespace Delegation

namespace ReviseError

def message : ReviseError → String
  | parse e => e.message
  | edit e => "Edit error: " ++ e.message

end ReviseError

namespace SettingsError

def message : SettingsError → String
  | missing path => "configuration file `" ++ path ++ "` not found"
  | file path _ => "cannot read configuration file `" ++ path ++ "`"
  | invalid _ fault => "invalid configuration: " ++ fault.message

def causes : SettingsError → List String
  | file _ e => [e.message]
  | _ => []

def code : SettingsError → String
  | missing _ => "polymorph::config::missing"
  | file .. => "polymorph::config::read"
  | invalid .. => "polymorph::config::invalid"

def help : SettingsError → Option String
  | missing _ => some "check the path passed to `--config`"
  | file .. => none
  | invalid .. => some ("`[rewrite] empty_delegate` takes \x22skip\x22 or \x22reject\x22, "
      ++ "`[artifact] path` a relative path")

end SettingsError

namespace ArtifactError

def message : ArtifactError → String
  | missingOutput path => "output directory `" ++ path ++ "` does not exist"
  | file path e => "cannot access artifact `" ++ path ++ "`: " ++ e.message
  | revision e => e.message

def causes (e : ArtifactError) : List String :=
  e.message :: match e with
    | file _ e => [e.message]
    | _ => []

def help : ArtifactError → Option String
  | missingOutput _ => some "pass the directory the client was generated into with `--output`"
  | file .. => some "generate the client first, or set `[artifact] path` in the configuration"
  | revision _ => none

end ArtifactError

namespace RunError

def message : RunError → String
  | settings e => e.message
  | schemaFile path _ => "cannot read schema `" ++ path ++ "`"
  | schema path _ => "schema `" ++ path ++ "` is invalid"
  | artifact path _ => "cannot rewrite `" ++ path ++ "`"

def causes : RunError → List String
  | settings e => e.causes
  | schemaFile _ e => [e.message]
  | schema _ e => [e.message]
  | artifact _ e => e.causes

def code : RunError → String
  | settings e => e.code
  | schemaFile .. => "polymorph::schema::read"
  | schema .. => "polymorph::schema::invalid"
  | artifact .. => "polymorph::rewrite"

def help : RunError → Option String
  | settings e => e.help
  | schemaFile .. => none
  | schema .. => none
  | artifact _ e => e.help

end RunError

structure Report where
  message : String
  code : Option String
  help : Option String
  site : Option (Severity × String × List Label)
deriving DecidableEq

namespace Report

def ofDiagnostic (path : String) (d : Diagnostic) : Report where
  message := d.message
  code := d.code.map Code.tag
  help := d.help
  site := some (d.severity, path, d.labels)

def ofError (e : RunError) : Report where
  message := e.message
  code := some e.code
  help := e.help
  site := none

def lines (r : Report) : List String :=
  let severity := match r.site with
    | some (severity, _) => severity
    | none => .error
  let code := match r.code with
    | some code => "[" ++ code ++ "]"
    | none => ""
  let places := match r.site with
    | some (_, path, labels) => labels.map fun l =>
      "  " ++ path ++ ":" ++ toString l.span.start ++ ".." ++ toString l.span.stop
        ++ ": " ++ l.message
    | none => []
  (severity.name ++ code ++ ": " ++ r.message) :: places
    ++ (r.help.map ("  help: " ++ ·)).toList

end Report

def RunError.reports : RunError → List Report
  | schema path e => e.diagnostics.map (Report.ofDiagnostic path)
  | artifact path (.revision (.parse e)) => e.diagnostics.map (Report.ofDiagnostic path)
  | e => [.ofError e]

end Delegation
