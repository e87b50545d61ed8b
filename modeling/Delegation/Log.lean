import Delegation.Revision
import Delegation.Schema.Load

/-!
This module contains the log: what is recorded while a schema is loaded and a declaration file is
revised.
-/

namespace Delegation

inductive LogLevel where
  | off
  | error
  | warn
  | info
  | debug
  | trace
deriving DecidableEq

namespace LogLevel

def all : List LogLevel :=
  [off, error, warn, info, debug, trace]

def name : LogLevel → String
  | off => "off"
  | error => "error"
  | warn => "warn"
  | info => "info"
  | debug => "debug"
  | trace => "trace"

end LogLevel

structure LogRecord where
  level : LogLevel
  target : String
  message : String
  fields : List (String × String)
deriving DecidableEq

def delegateRecords (m : Model) : List LogRecord :=
  m.delegates.map fun e =>
    let relation := DelegateGraph.relationOf m e.name
    ⟨.debug, "polymorph_core::delegate", "Registered delegate",
      [("delegate", e.name.name), ("subtypes", toString relation.subtypes.length)]⟩

def delegateCount (m : Model) : String × String :=
  ("delegates", toString (DelegateGraph.ofModel m).relations.length)

def SchemaFile.records (policy : EmptyDelegatePolicy) (source : List Char) (file : SchemaFile) :
    List LogRecord :=
  match conclude file.nameProblems, file.elaborate source with
  | .ok _, .ok m =>
    m.entities.map (fun _ => ⟨.trace, elaboration, "Elaborated entity", []⟩)
      ++ [⟨.debug, elaboration, "Schema elaborated", [entityCount m]⟩]
      ++ delegateRecords m
      ++ [⟨.debug, "polymorph_parser::schema::validate", "Delegate graph built",
            [delegateCount m]⟩]
      ++ match conclude (file.inheritanceProblems policy m) with
        | .error _ => []
        | .ok warnings =>
          [⟨.info, "polymorph_parser", "Schema loaded",
              [entityCount m, ("warnings", toString warnings.length)]⟩]
            ++ warnings.map (fun d =>
              ⟨.warn, "polymorph_parser", "Schema warning", [("diagnostic", d.summary)]⟩)
            ++ [⟨.trace, "polymorph", "Loaded model", []⟩]
  | _, _ => []
where
  elaboration : String :=
    "polymorph_parser::schema::elaborate"
  entityCount (m : Model) : String × String :=
    ("entities", toString m.entities.length)

def loadRecords (policy : EmptyDelegatePolicy) (source : List Char) : List LogRecord :=
  ⟨.info, "polymorph", "Loading schema", []⟩ ::
    match SchemaFile.parse source with
    | .error _ => []
    | .ok file =>
      ⟨.debug, "polymorph_parser", "Schema parsed", [("models", toString file.models.length)]⟩
        :: file.records policy source

def Finding.record : Finding → LogRecord
  | payload typeName _ subtypes _ =>
    ⟨.info, matcher, "Replacing delegate payload",
      [("alias", typeName), ("subtypes", toString subtypes.length)]⟩
  | emptyDelegate delegate =>
    ⟨.warn, matcher, "Delegate has no subtypes, payload left unchanged", [("delegate", delegate)]⟩
  | inputAlias typeName delegate =>
    ⟨.debug, matcher, "Processing delegate input alias",
      [("alias", typeName), ("delegate", delegate)]⟩
  | accessor interface =>
    ⟨.debug, matcher, "Processing delegate accessor", [("interface", interface)]⟩
  | auxMember member _ => ⟨.debug, matcher, "Removing auxiliary member", [("member", member)]⟩
  | creatingMethod interface method _ =>
    ⟨.info, matcher, "Removing unsafe accessor method",
      [("interface", interface), ("method", method)]⟩
  | nestedWrite member _ => ⟨.debug, matcher, "Removing unsafe nested write", [("member", member)]⟩
where
  matcher : String :=
    "polymorph::rewrite::matcher"

def editRecord (message : String) (span : Span) : LogRecord :=
  ⟨.trace, "polymorph::rewrite::edit", message,
    [("start", toString span.start), ("end", toString span.stop)]⟩

def editRecords (source : List Char) (edits : List Edit) : List LogRecord :=
  match settle edits with
  | .error _ => []
  | .ok s =>
    s.subsumed.map (editRecord "Edit subsumed")
      ++ match spliceFrom (.ofText source) s.kept with
        | .error _ => []
        | .ok splice => splice.taken.map (editRecord "Applying edit")

def reviseRecords (m : Model) (source : List Char) : List LogRecord :=
  delegateRecords m
    ++ [⟨.info, "polymorph", "Delegate graph built", [delegateCount m]⟩]
    ++ match DeclarationTree.parse source with
      | .error _ => []
      | .ok tree =>
        let g := DelegateGraph.ofModel m
        let statements := ("statements", toString tree.statements.length)
        let findings := tree.findings g
        let edits := findings.filterMap Finding.edit?
        [⟨.debug, "polymorph_parser", "Declarations parsed", [statements]⟩,
          ⟨.debug, "polymorph", "Declarations parsed", [statements]⟩]
          ++ findings.map Finding.record
          ++ [⟨.debug, "polymorph::rewrite", "Edits collected",
                [("edits", toString edits.length)]⟩]
          ++ editRecords source edits
          ++ match reviseTree g source tree with
            | .error _ => []
            | .ok revision =>
              [⟨.info, "polymorph::rewrite", "Rewrite complete",
                [("payloads", toString revision.summary.payloads),
                 ("removals", toString revision.summary.removals)]⟩]

end Delegation
