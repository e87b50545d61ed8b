import Delegation.CommandLine.Run
import Delegation.Proofs.Files
import Mathlib.Data.List.Basic

/-!
This module contains what runs of the program do to the files they work on. A run that fails and a
dry run change none, so that such runs may be left out of any sequence.
-/

namespace Delegation

/--
Access to the files of a tree as long as no file is replaced. What is written beside a file and
cannot take its place leaves no trace: the file stays as it is, and `refusal` says why.
-/
def FileTree.accessWith (refusal : Option FileError) : FileAccess (StateM FileTree) :=
  { FileTree.access with
    replace := fun path text =>
      match refusal with
      | some e => return .error e
      | none => FileTree.access.replace path text }

/--
A call of the program, and why the system refuses new files meanwhile, if it does.
-/
structure Invocation where
  userConfig : Option String
  args : Arguments
  refusal : Option FileError
deriving DecidableEq

namespace Invocation

def run (i : Invocation) (t : FileTree) : Outcome × FileTree :=
  (Delegation.run (FileTree.accessWith i.refusal) i.userConfig i.args).run t

def withDryRun (i : Invocation) (isDryRun : Bool) : Invocation :=
  { i with args := { i.args with isDryRun } }

def runAll (t : FileTree) : List Invocation → List (Invocation × Outcome) × FileTree
  | [] => ([], t)
  | i :: is =>
    let (o, t) := i.run t
    let (os, t) := runAll t is
    ((i, o) :: os, t)

def plan (i : Invocation) (t : FileTree) : Except RunError Plan :=
  ((prepare FileTree.access i.userConfig i.args).run t).1

def revision (plan : Plan) (output : String) (t : FileTree) : Except ArtifactError Revision :=
  ((preview FileTree.access plan output).run t).1

/--
Whether a run succeeds and is none that only looks.
-/
def isLasting (run : Invocation × Outcome) : Bool :=
  run.2.result.isOk && !run.1.args.isDryRun

/--
Whether a run that takes `t` to `t'` does what it is for: it reads the settings, the schema and the
declaration file, and puts what the revision makes of the latter in its place.
-/
def Revises (i : Invocation) (t t' : FileTree) (o : Outcome) : Prop :=
  ∃ settings schema model place old r,
    ((loadSettings FileTree.access i.userConfig i.args.config).run t).1 = .ok settings
      ∧ t.read i.args.schema = .ok schema
      ∧ loadSchema settings.policy schema.toList = .ok (model, o.warnings)
      ∧ let path := joinPath i.args.output settings.artifactPath
        t.locate path = .ok place ∧ t.read path = .ok old ∧ revise model old.toList = .ok r
        ∧ o.result = .ok r.summary ∧ t'.read path = .ok (.ofList r.text)
        ∧ t.Replaces t' place (.ofList r.text)
        ∧ ∀ other, t.locate other ≠ .ok place → t'.read other = t.read other

end Invocation

section

variable {α β : Type}

def IsReading (x : StateM FileTree α) : Prop :=
  ∀ t, (x.run t).2 = t

theorem run_bind (x : StateM FileTree α) (f : α → StateM FileTree β) (t : FileTree) :
    (x >>= f).run t = (f (x.run t).1).run (x.run t).2 := rfl

theorem IsReading.run_bind {x : StateM FileTree α} (hx : IsReading x) (f : α → StateM FileTree β)
    (t : FileTree) : (x >>= f).run t = (f (x.run t).1).run t := by
  rw [Delegation.run_bind, hx t]

theorem IsReading.pure (a : α) : IsReading (Pure.pure a) := fun _ => rfl

theorem IsReading.bind {x : StateM FileTree α} {f : α → StateM FileTree β} (hx : IsReading x)
    (hf : ∀ a, IsReading (f a)) : IsReading (x >>= f) := by
  intro t
  rw [hx.run_bind]
  exact hf _ t

theorem isReading_isPresent (path : String) : IsReading (FileTree.access.isPresent path) :=
  fun _ => rfl

theorem isReading_isDirectory (path : String) : IsReading (FileTree.access.isDirectory path) :=
  fun _ => rfl

theorem isReading_read (path : String) : IsReading (FileTree.access.read path) := fun _ => rfl

theorem run_read (path : String) (t : FileTree) :
    ((FileTree.access.read path).run t).1 = t.read path := rfl

variable (refusal : Option FileError)

theorem isReading_readSettings (path : String) :
    IsReading (readSettings FileTree.access path) := by
  apply (isReading_read path).bind
  rintro (e | source)
  . exact .pure _
  . exact .pure _

theorem isReading_findSettings (paths : List String) :
    IsReading (findSettings FileTree.access paths) := by
  induction paths with
  | nil => exact .pure _
  | cons path paths ih =>
    apply (isReading_isPresent path).bind
    rintro (_ | _)
    . exact ih
    . exact isReading_readSettings path

theorem isReading_loadSettings (userConfig config : Option String) :
    IsReading (loadSettings FileTree.access userConfig config) := by
  cases config with
  | none => exact isReading_findSettings _
  | some path =>
    apply (isReading_isPresent path).bind
    rintro (_ | _)
    . exact .pure _
    . exact isReading_readSettings path

theorem isReading_prepare (userConfig : Option String) (args : Arguments) :
    IsReading (prepare FileTree.access userConfig args) := by
  apply (isReading_loadSettings userConfig args.config).bind
  rintro (e | settings)
  . exact .pure _
  . apply (isReading_read args.schema).bind
    rintro (e | source)
    . exact .pure _
    . dsimp only
      split
      . exact .pure _
      . exact .pure _

theorem findSettings_accessWith (paths : List String) :
    findSettings (FileTree.accessWith refusal) paths = findSettings FileTree.access paths := by
  induction paths with
  | nil => rfl
  | cons path paths ih =>
    unfold findSettings
    rw [ih]
    rfl

theorem prepare_accessWith (userConfig : Option String) (args : Arguments) :
    prepare (FileTree.accessWith refusal) userConfig args
      = prepare FileTree.access userConfig args := by
  unfold prepare
  have : loadSettings (FileTree.accessWith refusal) userConfig args.config
      = loadSettings FileTree.access userConfig args.config := by
    unfold loadSettings
    cases args.config with
    | none => exact findSettings_accessWith refusal _
    | some path => rfl
  rw [this]
  rfl

theorem replace_accessWith_none {t : FileTree} {path old : String} (h : t.read path = .ok old)
    (text : String) :
    ∃ place contents, t.locate path = .ok place ∧ t.node? place = some (.file contents)
      ∧ ((FileTree.accessWith none).replace path text).run t
        = (.ok (), t.putNode place (.file text.toUTF8)) := by
  obtain ⟨place, contents, hplace, hnode, hreplace⟩ := FileTree.read_eq_ok h
  refine ⟨place, contents, hplace, hnode, ?_⟩
  simp only [FileTree.accessWith, FileTree.access, bind_pure_comp, StateT.run_bind, StateT.run_get,
    pure_bind, hreplace, StateT.run_map, StateT.run_set]
  rfl

theorem isReading_load (output path : String) :
    IsReading (Artifact.load FileTree.access output path) := by
  unfold Artifact.load
  split
  . exact .pure _
  . apply (isReading_isDirectory output).bind
    intro isDirectory
    split
    . exact .pure _
    . apply (isReading_read (joinPath output path)).bind
      rintro (e | source)
      . exact .pure _
      . exact .pure _

theorem load_eq_ok {output path : String} {t : FileTree} {a : Artifact}
    (h : ((Artifact.load FileTree.access output path).run t).1 = .ok a) :
    a.path = joinPath output path ∧ t.read a.path = .ok a.source := by
  unfold Artifact.load at h
  split at h
  . cases h
  . rw [(isReading_isDirectory output).run_bind] at h
    split at h
    . cases h
    . dsimp only at h
      rw [(isReading_read (joinPath output path)).run_bind, run_read] at h
      cases hsource : t.read (joinPath output path) with
      | error e =>
        rw [hsource] at h
        cases h
      | ok source =>
        rw [hsource] at h
        cases h
        exact ⟨rfl, hsource⟩

theorem isReading_preview (p : Plan) (output : String) :
    IsReading (preview FileTree.access p output) := by
  apply (isReading_load output p.settings.artifactPath).bind
  rintro (e | artifact)
  . exact .pure _
  . exact .pure _

theorem preview_eq_ok {p : Plan} {output : String} {t : FileTree} {r : Revision}
    (h : ((preview FileTree.access p output).run t).1 = .ok r) :
    ∃ old, t.read (p.artifact output) = .ok old ∧ revise p.model old.toList = .ok r := by
  unfold preview at h
  rw [(isReading_load output p.settings.artifactPath).run_bind] at h
  cases hload : ((Artifact.load FileTree.access output p.settings.artifactPath).run t).1 with
  | error e =>
    rw [hload] at h
    cases h
  | ok artifact =>
    obtain ⟨hpath, hread⟩ := load_eq_ok hload
    rw [hpath] at hread
    rw [hload] at h
    have h : (revise p.model artifact.source.toList).mapError ArtifactError.revision = .ok r := h
    cases hrevise : revise p.model artifact.source.toList with
    | error e =>
      rw [hrevise] at h
      cases h
    | ok r' =>
      rw [hrevise] at h
      cases h
      exact ⟨_, hread, hrevise⟩

/--
Revising in place fails where a preview does. Otherwise it comes down to writing what that shows.
-/
theorem reviseInPlace_run (p : Plan) (output : String) (t : FileTree) :
    (reviseInPlace (FileTree.accessWith refusal) p output).run t =
      match ((preview FileTree.access p output).run t).1 with
      | .error e => (.error e, t)
      | .ok r =>
        match ((FileTree.accessWith refusal).replace (p.artifact output) (.ofList r.text)).run t with
        | (.error e, t') => (.error (.file (p.artifact output) e), t')
        | (.ok (), t') => (.ok r.summary, t') := by
  have hload : Artifact.load (FileTree.accessWith refusal) = Artifact.load FileTree.access := rfl
  unfold reviseInPlace preview
  rw [hload, (isReading_load output p.settings.artifactPath).run_bind,
    (isReading_load output p.settings.artifactPath).run_bind]
  cases hartifact : ((Artifact.load FileTree.access output p.settings.artifactPath).run t).1 with
  | error e => rfl
  | ok artifact =>
    obtain ⟨hpath, -⟩ := load_eq_ok hartifact
    have hpath : artifact.path = p.artifact output := hpath
    dsimp only
    cases revise p.model artifact.source.toList with
    | error e => rfl
    | ok r =>
      unfold Artifact.persist
      rw [hpath]
      dsimp only
      rw [run_bind, run_bind]
      show _ = match ((FileTree.accessWith refusal).replace _ _).run t with
        | (.error e, t') => _
        | (.ok (), t') => _
      generalize ((FileTree.accessWith refusal).replace _ _).run t = written
      obtain ⟨result, t'⟩ := written
      cases result with
      | error e => rfl
      | ok => rfl

end

namespace Invocation

inductive RunsTo (i : Invocation) (t : FileTree) : Outcome → FileTree → Prop where
  | unplanned {e : RunError} (hplan : i.plan t = .error e) : RunsTo i t ⟨.error e, []⟩ t
  | unrevised {p : Plan} {e : ArtifactError} (hplan : i.plan t = .ok p)
    (hrevision : revision p i.args.output t = .error e) :
    RunsTo i t ⟨.error (.artifact (p.artifact i.args.output) e), p.warnings⟩ t
  | dry {p : Plan} {r : Revision} (hplan : i.plan t = .ok p)
    (hrevision : revision p i.args.output t = .ok r) (hdry : i.args.isDryRun = true) :
    RunsTo i t ⟨.ok r.summary, p.warnings⟩ t
  | refused {p : Plan} {r : Revision} {e : FileError} (hplan : i.plan t = .ok p)
    (hrevision : revision p i.args.output t = .ok r) (hdry : i.args.isDryRun = false)
    (hrefusal : i.refusal = some e) :
    RunsTo i t ⟨.error (.artifact (p.artifact i.args.output)
      (.file (p.artifact i.args.output) e)), p.warnings⟩ t
  | revised {p : Plan} {r : Revision} {place : List String} {contents : ByteArray}
    (hplan : i.plan t = .ok p) (hrevision : revision p i.args.output t = .ok r)
    (hdry : i.args.isDryRun = false) (hrefusal : i.refusal = none)
    (hplace : t.locate (p.artifact i.args.output) = .ok place)
    (hnode : t.node? place = some (.file contents)) :
    RunsTo i t ⟨.ok r.summary, p.warnings⟩
      (t.putNode place (.file (String.ofList r.text).toUTF8))

theorem run_eq (i : Invocation) (t : FileTree) :
    i.run t =
      match i.plan t with
      | .error e => (⟨.error e, []⟩, t)
      | .ok p =>
        let error := RunError.artifact (p.artifact i.args.output)
        if i.args.isDryRun then
          (⟨((revision p i.args.output t).map (·.summary)).mapError error, p.warnings⟩, t)
        else
          let (result, t') :=
            (reviseInPlace (FileTree.accessWith i.refusal) p i.args.output).run t
          (⟨result.mapError error, p.warnings⟩, t') := by
  have hpreview : preview (FileTree.accessWith i.refusal) = preview FileTree.access := rfl
  unfold run Delegation.run plan revision
  rw [prepare_accessWith, (isReading_prepare i.userConfig i.args).run_bind]
  generalize ((prepare FileTree.access i.userConfig i.args).run t).1 = planned
  cases planned with
  | error e => rfl
  | ok p =>
    dsimp only
    cases i.args.isDryRun with
    | true =>
      rw [if_pos rfl, if_pos rfl, hpreview, (isReading_preview p i.args.output).run_bind]
      rfl
    | false => rfl

theorem runsTo_run (i : Invocation) (t : FileTree) : i.RunsTo t (i.run t).1 (i.run t).2 := by
  rw [run_eq]
  cases hplan : i.plan t with
  | error e => exact .unplanned hplan
  | ok p =>
    dsimp only
    cases hrevision : revision p i.args.output t with
    | error e =>
      cases hdry : i.args.isDryRun with
      | true => exact .unrevised hplan hrevision
      | false =>
        rw [if_neg (by simp), reviseInPlace_run, ← revision, hrevision]
        exact .unrevised hplan hrevision
    | ok r =>
      cases hdry : i.args.isDryRun with
      | true => exact .dry hplan hrevision hdry
      | false =>
        rw [if_neg (by simp), reviseInPlace_run, ← revision, hrevision]
        cases hrefusal : i.refusal with
        | some e => exact .refused hplan hrevision hdry hrefusal
        | none =>
          obtain ⟨old, hold, _⟩ := preview_eq_ok hrevision
          obtain ⟨place, contents, hplace, hnode, hreplace⟩ :=
            replace_accessWith_none hold (.ofList r.text)
          dsimp only
          rw [hreplace]
          exact .revised hplan hrevision hdry hrefusal hplace hnode

theorem plan_eq_ok {i : Invocation} {t : FileTree} {p : Plan} (h : i.plan t = .ok p) :
    ((loadSettings FileTree.access i.userConfig i.args.config).run t).1 = .ok p.settings
      ∧ ∃ schema, t.read i.args.schema = .ok schema
        ∧ loadSchema p.settings.policy schema.toList = .ok (p.model, p.warnings) := by
  unfold plan prepare at h
  rw [(isReading_loadSettings i.userConfig i.args.config).run_bind] at h
  generalize ((loadSettings FileTree.access i.userConfig i.args.config).run t).1 = loaded at *
  cases loaded with
  | error e => cases h
  | ok settings =>
    dsimp only at h
    rw [(isReading_read i.args.schema).run_bind, run_read] at h
    cases hschema : t.read i.args.schema with
    | error e =>
      rw [hschema] at h
      cases h
    | ok schema =>
      rw [hschema] at h
      dsimp only at h
      split at h
      . cases h
      . next model warnings hload =>
        cases h
        exact ⟨rfl, schema, rfl, hload⟩

theorem RunsTo.eq_of_not_isLasting {i : Invocation} {t t' : FileTree} {o : Outcome}
    (h : i.RunsTo t o t') (ho : isLasting (i, o) = false) : t' = t := by
  cases h with
  | revised _ _ hdry =>
    rw [isLasting, hdry] at ho
    cases ho
  | _ => rfl

theorem RunsTo.revises {i : Invocation} {t t' : FileTree} {o : Outcome} (h : i.RunsTo t o t')
    (ho : isLasting (i, o) = true) : i.Revises t t' o := by
  rw [isLasting, Bool.and_eq_true, Bool.not_eq_true'] at ho
  cases h with
  | unplanned => cases ho.1
  | unrevised => cases ho.1
  | refused => cases ho.1
  | dry _ _ hdry =>
    rw [hdry] at ho
    cases ho.2
  | @revised p r place contents hplan hrevision _ _ hplace hnode =>
    obtain ⟨hsettings, schema, hschema, hload⟩ := plan_eq_ok hplan
    obtain ⟨old, hold, hrevise⟩ := preview_eq_ok hrevision
    have hreplaces := FileTree.replaces_putNode hnode (.ofList r.text)
    exact ⟨p.settings, schema, p.model, place, old, r, hsettings, hschema, hload, hplace, hold,
      hrevise, rfl, hreplaces.read_eq_text hnode hplace, hreplaces,
      fun other => hreplaces.read_eq hnode⟩

theorem run_withDryRun (i : Invocation) (t : FileTree) :
    let dry := ((i.withDryRun true).run t).1
    let real := ((i.withDryRun false).run t).1
    (i.refusal = none ∨ (∃ e, dry.result = .error e) → real = dry)
      ∧ ∀ e summary, i.refusal = some e → dry.result = .ok summary → ∃ settings,
        ((loadSettings FileTree.access i.userConfig i.args.config).run t).1 = .ok settings
          ∧ let path := joinPath i.args.output settings.artifactPath
            real = ⟨.error (.artifact path (.file path e)), dry.warnings⟩ := by
  have hplan : ∀ isDryRun, (i.withDryRun isDryRun).plan t = i.plan t := fun _ => rfl
  dsimp only
  rw [run_eq, run_eq, hplan, hplan]
  cases hp : i.plan t with
  | error e => exact ⟨fun _ => rfl, fun _ _ _ h => nomatch h⟩
  | ok p =>
    dsimp only [withDryRun]
    simp only [if_true, Bool.false_eq_true, if_false]
    rw [reviseInPlace_run, ← revision]
    cases hrevision : revision p i.args.output t with
    | error e => exact ⟨fun _ => rfl, fun _ _ _ h => nomatch h⟩
    | ok r =>
      cases hrefusal : i.refusal with
      | some e =>
        refine ⟨?_, ?_⟩
        . rintro (h | ⟨_, h⟩)
          . cases h
          . cases h
        . intro e' summary he _
          cases he
          exact ⟨p.settings, (plan_eq_ok hp).1, rfl⟩
      | none =>
        obtain ⟨old, hold, _⟩ := preview_eq_ok hrevision
        obtain ⟨place, contents, _, _, hreplace⟩ := replace_accessWith_none hold (.ofList r.text)
        simp only [hreplace]
        exact ⟨fun _ => rfl, fun _ _ h => nomatch h⟩

theorem runAll_filter (t : FileTree) (is : List Invocation) {p : Invocation × Outcome → Bool}
    (hp : ∀ run, isLasting run = true → p run = true) :
    runAll t (((runAll t is).1.filter p).map (·.1)) = ((runAll t is).1.filter p, (runAll t is).2) := by
  induction is generalizing t with
  | nil => rfl
  | cons i is ih =>
    rw [runAll]
    dsimp only
    rw [List.filter_cons]
    split
    . rw [List.map_cons, runAll]
      dsimp only
      rw [ih]
    . next hskip =>
      -- What is left out has changed nothing.
      have hkeep := (runsTo_run i t).eq_of_not_isLasting
        (Bool.eq_false_iff.mpr fun hlasting => hskip (hp _ hlasting))
      rw [hkeep]
      exact ih t

/--
Runs of the program are all or nothing. One that fails changes no file, and neither does a dry run.
One that succeeds changes the declaration file only, into what the revision makes of it. A dry run
has the outcome that the run itself would have, if the new file is not refused. So runs that fail
and dry runs, all or some of them, can be left out of a sequence: the others have the same outcomes,
and leave the same files.
-/
theorem runAll_allOrNothing :
    (∀ (i : Invocation) (t : FileTree),
      let (o, t') := i.run t
      ((∃ e, o.result = .error e) ∨ i.args.isDryRun = true → t' = t)
        ∧ ((∃ summary, o.result = .ok summary) ∧ i.args.isDryRun = false → i.Revises t t' o))
      ∧ (∀ (i : Invocation) (t : FileTree),
        let dry := ((i.withDryRun true).run t).1
        let real := ((i.withDryRun false).run t).1
        (i.refusal = none ∨ (∃ e, dry.result = .error e) → real = dry)
          ∧ ∀ e summary, i.refusal = some e → dry.result = .ok summary → ∃ settings,
            ((loadSettings FileTree.access i.userConfig i.args.config).run t).1 = .ok settings
              ∧ let path := joinPath i.args.output settings.artifactPath
                real = ⟨.error (.artifact path (.file path e)), dry.warnings⟩)
      ∧ ∀ (t : FileTree) (is : List Invocation) (p : Invocation × Outcome → Bool),
        (∀ run, isLasting run = true → p run = true) →
        let (runs, t') := runAll t is
        runAll t ((runs.filter p).map (·.1)) = (runs.filter p, t') := by
  refine ⟨?_, run_withDryRun, fun t is p => runAll_filter t is⟩
  intro i t
  have hruns := runsTo_run i t
  generalize i.run t = result at hruns
  obtain ⟨o, t'⟩ := result
  refine ⟨?_, ?_⟩
  . intro h
    apply hruns.eq_of_not_isLasting
    unfold isLasting
    rcases h with ⟨e, he⟩ | hdry
    . rw [he]
      rfl
    . rw [hdry, Bool.not_true, Bool.and_false]
  . rintro ⟨⟨summary, hsummary⟩, hdry⟩
    apply hruns.revises
    unfold isLasting
    rw [hsummary, hdry]
    rfl

theorem runAll_allOrNothing_last :
    let path := "out/.prisma/index.d.ts"
    let place := ["out", ".prisma", "index.d.ts"]
    let t : FileTree := ⟨[
      (["schema.zmodel"], .file "model A \x7b\n\x7d\n".toUTF8), (["out"], .directory),
      (["out", ".prisma"], .directory),
      (place, .file "type A = \x7b poly_aux_x: X \x7d\n".toUTF8)], []⟩
    let call (schema : String) (isDryRun : Bool) (refusal : Option FileError) : Invocation :=
      ⟨none, ⟨schema, "out", none, .info, isDryRun⟩, refusal⟩
    let is := [call "schema.zmodel" true none, call "schema.prisma" false none,
      call "schema.zmodel" false (some .nameTooLong), call "schema.zmodel" false none]
    (runAll t is).1.map (·.2.result) = [.ok ⟨0, 0, 1, 0, 0⟩,
        .error (.schemaFile "schema.prisma" .notFound),
        .error (.artifact path (.file path .nameTooLong)), .ok ⟨0, 0, 1, 0, 0⟩]
      ∧ (runAll t is).2 = t.putNode place (.file "type A = \x7b \x7d\n".toUTF8)
      ∧ runAll t [call "schema.zmodel" false none]
        = ((runAll t is).1.filter isLasting, (runAll t is).2) := by
  have hlasting (t : FileTree) (is : List Invocation) :
      runAll t (((runAll t is).1.filter isLasting).map (·.1))
        = ((runAll t is).1.filter isLasting, (runAll t is).2) :=
    runAll_allOrNothing.2.2 t is isLasting fun _ h => h
  intro path place t call is
  have hcalls : ((runAll t is).1.filter isLasting).map (·.1)
      = [call "schema.zmodel" false none] := by
    decide +kernel
  refine ⟨by decide +kernel, by decide +kernel, ?_⟩
  rw [← hcalls, hlasting]

/--
Where the new file is refused, a dry run does not come to what the run itself comes to.
-/
theorem exists_dryRun_differs :
    let path := "out/index.d.ts"
    let t : FileTree := ⟨[
      (["schema.zmodel"], .file "model A \x7b\n\x7d\n".toUTF8), (["out"], .directory),
      (["out", "index.d.ts"], .file "type A = \x7b poly_aux_x: X \x7d\n".toUTF8),
      (["config.toml"], .file "artifact.path = \"index.d.ts\"\n".toUTF8)], []⟩
    let i : Invocation :=
      ⟨none, ⟨"schema.zmodel", "out", some "config.toml", .info, false⟩, some .nameTooLong⟩
    ((i.withDryRun true).run t).1.result = .ok ⟨0, 0, 1, 0, 0⟩
      ∧ (i.run t).1.result = .error (.artifact path (.file path .nameTooLong))
      ∧ (i.run t).2 = t := by
  decide +kernel

end Invocation
end Delegation
