import Delegation.Revision
import Delegation.Schema.Load

/-!
This module contains sessions: one schema and one declaration file that are worked on in steps.
-/

namespace Delegation

structure Session where
  policy : EmptyDelegatePolicy
  model : Model
  text : List Char

inductive SessionStep where
  | setPolicy (policy : EmptyDelegatePolicy)
  | load (schema : List Char)
  | setText (text : List Char)
  | append (text : List Char)
  | preview
  | revise

inductive SessionOutcome where
  | policy (policy : EmptyDelegatePolicy)
  | loaded (m : Model) (warnings : List Diagnostic)
  | text (text : List Char)
  | revised (r : Revision)
  | refused (e : ReviseError)

namespace Session

def empty : Session :=
  ⟨.skip, .empty, []⟩

/--
Do one step. A step that fails changes nothing.
-/
def step (s : Session) : SessionStep → Session × SessionOutcome
  | .setPolicy policy => ({ s with policy }, .policy policy)
  | .load schema =>
    match loadSchema s.policy schema with
    | .ok (model, warnings) => ({ s with model }, .loaded model warnings)
    | .error e => (s, .refused (.parse e))
  | .setText text => ({ s with text }, .text text)
  | .append text =>
    let text := s.text ++ text
    ({ s with text }, .text text)
  | .preview =>
    match Delegation.revise s.model s.text with
    | .ok r => (s, .revised r)
    | .error e => (s, .refused e)
  | .revise =>
    match Delegation.revise s.model s.text with
    | .ok r => ({ s with text := r.text }, .revised r)
    | .error e => (s, .refused e)

def run (s : Session) : List SessionStep → Session × List SessionOutcome
  | [] => (s, [])
  | step :: steps =>
    let (s, outcome) := s.step step
    let (s, outcomes) := s.run steps
    (s, outcome :: outcomes)

end Session
end Delegation
