import GqlArtifacts.Proofs.Shell.Builtins
import GqlArtifacts.Shell.Launch

/-!
# What scripts do to files

The functions that run a script call one another with less fuel, so what they do to files is told for all
of them at once (`AddsWithin`), by induction on the fuel. Whatever a script says, and wherever it fails,
the files and directories that were there are there still (`keepsFiles_launch`).
-/

namespace GqlArtifacts.Shell

open Files Program

variable {m : Machine} {fuel : Nat} {name value : String} {args : List String} {f : Fields}
  {split inner quoted tested : Bool}

namespace Machine

theorem adds_openSource : (m.openSource name).Adds := by
  refine .bind adds_readFile fun read => ?_
  split
  · split <;> exact .pure _
  · exact .pure _
  · exact .pure _

theorem adds_openSink {append : Bool} : (m.openSink append name).Adds := by
  rw [openSink]
  split
  · exact .pure _
  · dsimp only
    split
    case' isTrue => refine .bind (.perform rfl) fun kept => ?_
    case' isFalse => refine .bind (.pure _) fun kept => ?_
    all_goals
      refine .bind (.perform rfl) fun written => ?_
      split <;> exact .pure _

theorem adds_duplicate {stream : Nat} {target : String} : (m.duplicate stream target).Adds := by
  rw [duplicate]
  split
  · exact .pure _
  · split
    · exact .pure _
    · exact .bind adds_complain fun _ => .pure _
    · exact .bind adds_abort fun _ => .pure _
  · exact .bind adds_abort fun _ => .pure _

theorem adds_refuseName : (m.refuseName name).Adds := by
  rw [refuseName]
  dsimp only
  split
  case' isTrue => refine .bind (looks_exists _).adds fun found => ?_
  case' isFalse => refine .bind (.pure _) fun found => ?_
  all_goals
    split
    · exact .bind adds_complain fun _ => .pure _
    · split <;> exact .bind adds_complain fun _ => .pure _

theorem adds_traceCommand {assignments : List (String × String)} {fields : List String} :
    (m.traceCommand assignments fields).Adds := by
  rw [traceCommand]
  split
  · exact adds_writeText
  · exact .pure _

end Machine

open Machine

/-- Within a bound on the fuel, no part of a run takes anything away. -/
structure AddsWithin (fuel : Nat) : Prop where
  expand : ∀ m split inner f w, (expand fuel m split inner f w).Adds
  expandParameter : ∀ m split quoted f name use, (expandParameter fuel m split quoted f name use).Adds
  expandMarked : ∀ m w, (expandMarked fuel m w).Adds
  expandText : ∀ m w, (expandText fuel m w).Adds
  expandFields : ∀ m ws, (expandFields fuel m ws).Adds
  expandAssignments : ∀ m assignments, (expandAssignments fuel m assignments).Adds
  captureOutput : ∀ m body, (captureOutput fuel m body).Adds
  redirect : ∀ m redirects, (redirect fuel m redirects).Adds
  runCommand : ∀ m tested c, (runCommand fuel m tested c).Adds
  runSimple : ∀ m tested assignments words redirects,
    (runSimple fuel m tested assignments words redirects).Adds
  runMeaning : ∀ m tested meaning name args, (runMeaning fuel m tested meaning name args).Adds
  runTool : ∀ m tool args, (runTool fuel m tool args).Adds
  runShell : ∀ m args, (runShell fuel m args).Adds
  runFile : ∀ m args, (runFile fuel m args).Adds
  finishProcess : ∀ m, (finishProcess fuel m).Adds
  runText : ∀ m tested text, (runText fuel m tested text).Adds
  runLines : ∀ m tested s ran, (runLines fuel m tested s ran).Adds
  runLoop : ∀ m tested untilSuccess condition body status,
    (runLoop fuel m tested untilSuccess condition body status).Adds
  runEach : ∀ m tested name values body, (runEach fuel m tested name values body).Adds
  runCases : ∀ m tested value cases, (runCases fuel m tested value cases).Adds
  anyFits : ∀ m value patterns, (anyFits fuel m value patterns).Adds
  runPipeline : ∀ m tested input? commands, (runPipeline fuel m tested input? commands).Adds
  runScript : ∀ m tested script, (runScript fuel m tested script).Adds

theorem addsWithin_zero : AddsWithin 0 := by
  constructor <;> intros <;> exact .pure _

section Succ
variable (h : AddsWithin fuel)
include h

/-! ### Words -/

theorem adds_expand (w : Word) : (expand (fuel + 1) m split inner f w).Adds := by
  cases w with
  | nil => exact .pure _
  | cons seg rest =>
    rw [expand]
    split
    · exact .pure _
    · cases seg with
      | text quoted s => exact h.expand ..
      | parameter quoted name use => exact .bind (h.expandParameter ..) fun _ => h.expand ..
      | arithmetic quoted expression =>
        refine .bind (h.expandText ..) fun expanded => ?_
        dsimp only
        split
        · exact .bind adds_abort fun _ => .pure _
        · exact .bind (adds_assignAll _) fun _ => h.expand ..
      | output quoted body => exact .bind (h.captureOutput ..) fun _ => h.expand ..

theorem adds_expandParameter (use : Use) :
    (expandParameter (fuel + 1) m split quoted f name use).Adds := by
  unfold expandParameter
  extract_lets value? isList put putValue isSet missing
  clear_value value?
  have hmissing : missing.Adds := .bind adds_abort fun _ => .pure _
  cases use with
  | malformed => exact .bind adds_abort fun _ => .pure _
  | value =>
    cases value? with
    | some s => exact .pure _
    | none => exact .ite (.pure _) (.ite hmissing (.pure _))
  | length => exact .ite hmissing (.pure _)
  | default filled word => exact .ite (.pure _) (h.expand ..)
  | alternative filled word => exact .ite (h.expand ..) (.pure _)
  | assign filled word =>
    refine .ite (.pure _) (.bind (h.expandText ..) fun (after, text) => ?_)
    exact .ite (.bind adds_assign fun _ => .pure _) (.bind (.pure _) fun _ => .pure _)
  | require filled word =>
    exact .ite (.pure _) (.bind (h.expandText ..) fun _ => .bind adds_abort fun _ => .pure _)
  | trim how word => exact .ite hmissing (.bind (h.expandMarked ..) fun _ => .pure _)

theorem adds_expandMarked (w : Word) : (expandMarked (fuel + 1) m w).Adds :=
  .bind (h.expand ..) fun _ => .pure _

theorem adds_expandText (w : Word) : (expandText (fuel + 1) m w).Adds :=
  .bind (h.expandMarked ..) fun _ => .pure _

theorem adds_expandFields (ws : List Word) : (expandFields (fuel + 1) m ws).Adds := by
  cases ws with
  | nil => exact .pure _
  | cons w ws =>
    refine .bind (h.expand ..) fun expanded => ?_
    dsimp only
    split
    · exact .pure _
    · refine .bind (.mapM (fun t => ?_) _) fun found => .bind (h.expandFields ..) fun _ => .pure _
      split
      · exact .pure _
      · exact (looks_expandFiles _ _).adds

theorem adds_expandAssignments (assignments : List (String × Word)) :
    (expandAssignments (fuel + 1) m assignments).Adds := by
  cases assignments with
  | nil => exact .pure _
  | cons assignment rest =>
    refine .bind (h.expandText ..) fun expanded => ?_
    dsimp only
    split
    case' isTrue => refine .bind adds_assign fun after => ?_
    case' isFalse => refine .bind (.pure _) fun after => ?_
    all_goals
      split
      · exact .pure _
      · exact .bind (h.expandAssignments ..) fun _ => .pure _

theorem adds_captureOutput (body : Script) : (captureOutput (fuel + 1) m body).Adds :=
  .bind (h.runScript ..) fun _ => .bind (h.finishProcess ..) fun _ => .pure _

theorem adds_redirect (redirects : List Redirect) : (redirect (fuel + 1) m redirects).Adds := by
  cases redirects with
  | nil => exact .pure _
  | cons r rest =>
    unfold redirect
    extract_lets refuse
    have hrefuse : ∀ m message, (refuse m message).Adds := fun _ _ =>
      .bind adds_complain fun _ => .pure _
    cases r with
    | file stream mode target =>
      cases mode with
      | read =>
        refine .bind (h.expandText ..) fun (after, name) => ?_
        refine .ite (.pure _) (.bind adds_openSource fun opened => ?_)
        cases opened with
        | error message => exact hrefuse ..
        | ok opened => exact h.redirect ..
      | write | append =>
        refine .bind (h.expandText ..) fun (after, name) => ?_
        refine .ite (.pure _) (.bind adds_openSink fun opened => ?_)
        cases opened with
        | error message => exact hrefuse ..
        | ok opened => exact h.redirect ..
    | duplicate stream target =>
      refine .bind (h.expandText ..) fun (after, name) => ?_
      refine .ite (.pure _) (.bind adds_duplicate fun (duplicated, all) => ?_)
      exact .ite (h.redirect ..) (.pure _)
    | document stream body =>
      refine .bind (h.expandText ..) fun (after, text) => ?_
      exact .ite (.pure _) (h.redirect ..)

/-! ### Commands -/

theorem adds_runCommand (c : Command) : (runCommand (fuel + 1) m tested c).Adds := by
  cases c with
  | simple line assignments words redirects => exact .bind (h.runSimple ..) fun _ => .pure _
  | group body => exact h.runScript ..
  | subshell body => exact .bind (h.runScript ..) fun _ => .bind (h.finishProcess ..) fun _ => .pure _
  | branch condition body otherwise =>
    refine .bind (h.runScript ..) fun after => ?_
    split
    · exact .pure _
    · split
      · exact h.runScript ..
      · split
        · exact .pure _
        · exact h.runScript ..
  | loop untilSuccess condition body => exact .bind (h.runLoop ..) fun _ => .pure _
  | forEach line name words body =>
    refine .bind (h.expandFields ..) fun expanded => ?_
    dsimp only
    split
    · exact .pure _
    · exact .bind (h.runEach ..) fun _ => .pure _
  | choose line word cases =>
    refine .bind (h.expandMarked ..) fun expanded => ?_
    dsimp only
    split
    · exact h.runCases ..
    · exact .pure _
  | function name body => exact .pure _
  | redirected line c redirects =>
    refine .bind (h.redirect ..) fun opened => ?_
    dsimp only
    split
    · exact .pure _
    · exact .bind (h.runCommand ..) fun _ => .pure _

theorem adds_runSimple (assignments : List (String × Word)) (words : List Word)
    (redirects : List Redirect) : (runSimple (fuel + 1) m tested assignments words redirects).Adds := by
  refine .bind (h.expandFields ..) fun (after, fields) => ?_
  refine .ite (.pure _) (.bind (h.redirect ..) fun (opened, all) => ?_)
  refine .ite (.pure _) ?_
  cases fields with
  | nil =>
    refine .ite (.pure _) (.bind (h.expandAssignments ..) fun (ready, values) => ?_)
    exact .ite (.pure _) adds_traceCommand
  | cons name args =>
    refine .ite (.pure _) (.bind (h.expandAssignments ..) fun (ready, values) => ?_)
    refine .ite (.pure _) (.ite (.bind adds_traceCommand fun shown => ?_) ?_)
    all_goals exact .bind (.pure _) fun _ => .bind (h.runMeaning ..) fun _ => .pure _

theorem adds_runMeaning (meaning : Meaning) :
    (runMeaning (fuel + 1) m tested meaning name args).Adds := by
  cases meaning with
  | special =>
    unfold runMeaning
    dsimp only
    split
    · exact .bind (h.runText ..) fun _ => .pure _
    · exact h.runFile ..
    · split
      · exact .pure _
      · split
        · exact .bind (h.runTool ..) fun _ => .pure _
        · exact .bind adds_refuseName fun _ => .pure _
    · exact adds_runSpecial
  | function body =>
    rw [runMeaning]
    dsimp only
    split
    · exact adds_abort
    · exact .bind (h.runCommand ..) fun _ => .pure _
  | builtin =>
    unfold runMeaning
    dsimp only
    split
    · split
      · exact .pure _
      · exact adds_describeAll
      · exact adds_describeAll
      · exact h.runMeaning ..
    · exact adds_runBuiltin
  | program tool => exact h.runTool ..
  | unknown => exact adds_refuseName

theorem adds_runTool (tool : String) : (runTool (fuel + 1) m tool args).Adds := by
  rw [runTool]
  split
  · exact .bind (h.runShell ..) fun _ => .pure _
  · exact adds_runProgram

/-! ### Scripts -/

theorem adds_runShell : (runShell (fuel + 1) m args).Adds := by
  rw [runShell]
  split
  · exact .bind adds_complain fun _ => .pure _
  · next m origin _ =>
    extract_lets run
    have hrun : ∀ text, (run text).Adds := by
      intro text
      cases text with
      | error message => exact .bind adds_complain fun _ => .pure _
      | ok text => exact .bind (h.runText ..) fun _ => h.finishProcess ..
    cases origin with
    | text s => exact .bind (.pure _) hrun
    | input => exact .bind (.pure _) hrun
    | file name =>
      refine .bind adds_readFile fun read => ?_
      split <;> exact .bind (.pure _) hrun

theorem adds_runFile : (runFile (fuel + 1) m args).Adds := by
  unfold runFile
  split
  · exact .pure _
  · split
    · exact adds_abortCommand
    · refine .bind adds_readFile fun read => ?_
      split
      · exact adds_abortCommand
      · exact .bind (h.runText ..) fun _ => .pure _

theorem adds_finishProcess : (finishProcess (fuel + 1) m).Adds := by
  rw [finishProcess]
  split
  · exact .pure _
  · exact .bind (h.runText ..) fun _ => .pure _

theorem adds_runLines (s : Source) (ran : Bool) : (runLines (fuel + 1) m tested s ran).Adds := by
  rw [runLines]
  split
  · exact .bind adds_complain fun _ => .pure _
  · exact .pure _
  · exact h.runLines ..
  · refine .bind (h.runScript ..) fun after => ?_
    split
    · exact h.runLines ..
    · exact .pure _

theorem adds_runLoop (untilSuccess : Bool) (condition body : Script) (status : Nat) :
    (runLoop (fuel + 1) m tested untilSuccess condition body status).Adds := by
  refine .bind (h.runScript ..) fun after => ?_
  split
  · dsimp only
    split
    · exact h.runLoop ..
    · exact .pure _
  · split
    · exact .pure _
    · refine .bind (h.runScript ..) fun after => ?_
      dsimp only
      split
      · exact h.runLoop ..
      · exact .pure _

theorem adds_runEach (values : List String) (body : Script) :
    (runEach (fuel + 1) m tested name values body).Adds := by
  cases values with
  | nil => exact .pure _
  | cons value values =>
    refine .bind adds_assign fun assigned => ?_
    split
    · exact .pure _
    · refine .bind (h.runScript ..) fun after => ?_
      dsimp only
      split
      · exact h.runEach ..
      · exact .pure _

theorem adds_runCases (cases : List Case) : (runCases (fuel + 1) m tested value cases).Adds := by
  rcases cases with _ | ⟨⟨patterns, body⟩, rest⟩
  · exact .pure _
  · refine .bind (h.anyFits ..) fun found => ?_
    dsimp only
    split
    · exact .pure _
    · split
      · exact h.runScript ..
      · exact h.runCases ..

theorem adds_anyFits (patterns : List Word) : (anyFits (fuel + 1) m value patterns).Adds := by
  cases patterns with
  | nil => exact .pure _
  | cons w ws =>
    refine .bind (h.expandMarked ..) fun expanded => ?_
    dsimp only
    split
    · exact .pure _
    · split
      · exact .pure _
      · exact h.anyFits ..

theorem adds_runPipeline (input? : Option Port) (commands : List Command) :
    (runPipeline (fuel + 1) m tested input? commands).Adds := by
  cases commands with
  | nil => exact .pure _
  | cons c rest =>
    unfold runPipeline
    extract_lets child
    split
    · exact .bind (h.runCommand ..) fun _ => .bind (h.finishProcess ..) fun _ => .pure _
    · exact .bind (h.runCommand ..) fun _ => .bind (h.finishProcess ..) fun _ => h.runPipeline ..

theorem adds_runScript (script : Script) : (runScript (fuel + 1) m tested script).Adds := by
  rcases script with _ | ⟨⟨join, negated, background, commands⟩, rest⟩
  · exact .pure _
  · unfold runScript
    extract_lets due joined shielded next
    have hnext : ∀ m, (next m).Adds := fun m => .ite (.pure _) (h.runScript ..)
    refine .ite (h.runScript ..) (.ite ?_ ?_)
    · exact .bind (h.runPipeline ..) fun _ => h.runScript ..
    · split
      · exact .bind (h.runCommand ..) hnext
      · exact .bind (h.runPipeline ..) fun _ => .bind (.pure _) hnext

/-- With more fuel a run takes nothing away either. -/
theorem AddsWithin.succ : AddsWithin (fuel + 1) where
  expand _ _ _ _ := adds_expand h
  expandParameter _ _ _ _ _ := adds_expandParameter h
  expandMarked _ := adds_expandMarked h
  expandText _ := adds_expandText h
  expandFields _ := adds_expandFields h
  expandAssignments _ := adds_expandAssignments h
  captureOutput _ := adds_captureOutput h
  redirect _ := adds_redirect h
  runCommand _ _ := adds_runCommand h
  runSimple _ _ := adds_runSimple h
  runMeaning _ _ meaning _ _ := adds_runMeaning h meaning
  runTool _ tool _ := adds_runTool h tool
  runShell _ _ := adds_runShell h
  runFile _ _ := adds_runFile h
  finishProcess _ := adds_finishProcess h
  runText _ _ _ := h.runLines ..
  runLines _ _ := adds_runLines h
  runLoop _ _ := adds_runLoop h
  runEach _ _ _ := adds_runEach h
  runCases _ _ _ := adds_runCases h
  anyFits _ _ := adds_anyFits h
  runPipeline _ _ := adds_runPipeline h
  runScript _ _ := adds_runScript h

end Succ

/-- However much fuel there is, a run takes nothing away. -/
theorem addsWithin (fuel : Nat) : AddsWithin fuel := by
  induction fuel with
  | zero => exact addsWithin_zero
  | succ fuel ih => exact ih.succ

theorem looks_refusal (directory : Path) (name : String) : (refusal directory name).Looks := by
  rw [refusal]
  split
  · exact .bind (.perform rfl) fun kind => by split <;> exact .pure _
  · split
    · exact .pure _
    · split <;> exact .pure _

/-- A shell or a tool takes no file and no directory away. -/
theorem keepsFiles_launch (value? : String → Option String) : (launch value?).KeepsFiles := by
  intro i input t answer t' h
  refine Adds.keeps (x := launch value? i input) ?_ h
  refine .ite (.pure _) (.bind (looks_isDirectory _).adds fun there => ?_)
  refine .ite (.pure _) ?_
  split
  · exact .bind (looks_refusal _ _).adds fun _ => .pure _
  · refine .ite (.pure _) (.ite ?_ ?_)
    · exact .bind ((addsWithin _).runShell ..) fun _ => .pure _
    · exact .bind adds_runProgram fun _ => .pure _

end GqlArtifacts.Shell
