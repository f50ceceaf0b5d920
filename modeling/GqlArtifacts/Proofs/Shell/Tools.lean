import GqlArtifacts.Proofs.Files.Keeps
import GqlArtifacts.Shell.Tools

/-!
# What the tools of scripts do to files

A stream adds to its file, `mkdir` makes directories, and the other tools only read. So a tool takes
nothing away, whatever its arguments and its input are (`adds_runProgram`).
-/

namespace GqlArtifacts.Shell

open Files Program

variable {m : Machine} {stream status : Nat} {content : ByteArray} {label message name : String}
  {args : List String}

/-! ### Conditions and patterns -/

theorem Condition.looks_holdsOfFile (directory : Path) (op name : String) :
    (holdsOfFile directory op name).Looks := by
  have hread : (Program.read (directory / ⟨name⟩)).Looks := .perform rfl
  rw [holdsOfFile]
  split
  · exact .pure _
  · refine .bind (.perform rfl) fun kind => ?_
    split
    · exact .pure _
    · split
      · exact .pure _
      · exact .pure _
      · exact .pure _
      · exact .bind hread fun content => by split <;> exact .pure _
      · exact .pure _

theorem Condition.looks_holds (directory : Path) (c : Condition) : (c.holds directory).Looks := by
  induction c with
  | filled | missing | malformed => exact .pure _
  | unary op s =>
    unfold holds
    split
    · exact .pure _
    · exact .pure _
    · exact .pure _
    · exact .bind (looks_holdsOfFile directory op s) fun _ => .pure _
  | binary op a b =>
    unfold holds
    split <;> exact .pure _
  | not c ih => exact .bind ih fun _ => .pure _
  | both a b iha ihb | either a b iha ihb =>
    refine .bind iha fun x => ?_
    split
    · exact .pure _
    · exact .bind ihb fun _ => .pure _

theorem looks_expandParts (directory : Path) (parts : List Marked) (before : String) :
    (expandParts directory parts before).Looks := by
  induction parts generalizing before with
  | nil => exact .pure _
  | cons part rest ih =>
    rw [expandParts]
    dsimp only
    split
    · refine .bind (.perform rfl) fun names => ?_
      split
      · exact .pure _
      · exact .bind (.mapM (fun _ => ih _) _) fun _ => .pure _
    · split
      · exact .bind (looks_exists _) fun there => by split <;> exact .pure _
      · exact ih _

theorem looks_expandFiles (directory : Path) (t : Marked) : (expandFiles directory t).Looks := by
  rw [expandFiles]
  split
  · exact .bind (looks_expandParts directory _ _) fun found => by split <;> exact .pure _
  · exact .pure _

namespace Machine

/-! ### Writing -/

theorem adds_write : (m.write stream content).Adds := by
  rw [write]
  split
  · exact .pure _
  · refine .bind (.perform rfl) fun before => ?_
    split
    · exact .bind (.perform rfl) fun _ => .pure _
    · exact .pure _
  · exact .pure _

theorem adds_writeText : (m.writeText stream message).Adds := adds_write

theorem adds_complain : (m.complain message).Adds := by
  rw [complain]
  split <;> exact adds_writeText

theorem adds_abort : (m.abort message).Adds := .bind adds_complain fun _ => .pure _

theorem adds_assign {value : String} : (m.assign name value).Adds := by
  rw [assign]
  split
  · exact adds_abort
  · exact .pure _

theorem adds_fail : (m.fail status message).Adds := .bind adds_writeText fun _ => .pure _

theorem adds_echo : (m.echo args).Adds := .bind adds_write fun _ => .pure _

theorem adds_echoPlain : (m.echoPlain args).Adds := .bind adds_write fun _ => .pure _

theorem adds_printf : (m.printf label args).Adds := by
  unfold printf
  split
  · exact adds_fail
  · split
    · exact adds_fail
    · exact .bind adds_writeText fun _ => .bind adds_write fun _ => .pure _

theorem adds_test : (m.test label args).Adds := by
  refine .bind (Condition.looks_holds _ _).adds fun r => ?_
  split
  · exact .pure _
  · exact adds_fail

theorem adds_testBracket : (m.testBracket label args).Adds := by
  rw [testBracket]
  split
  · exact adds_test
  · exact adds_fail

/-! ### Reading -/

theorem adds_readFile : (m.readFile name).Adds := by
  rw [readFile]
  split
  · exact .pure _
  · exact .perform rfl

theorem adds_refuse {tool : String} {usage : List String} :
    (m.refuse tool status usage message).Adds := adds_fail

theorem adds_catFiles (names : List String) : (m.catFiles names).Adds := by
  induction names generalizing m with
  | nil => exact .pure _
  | cons name rest ih =>
    rw [catFiles]
    split
    · exact .bind adds_write fun _ => ih
    · refine .bind adds_readFile fun read => ?_
      split
      · exact .bind adds_write fun _ => ih
      · exact .bind adds_fail fun _ => ih

theorem adds_cat : (m.cat args).Adds := by
  rw [cat]
  split
  · exact adds_refuse
  · exact adds_catFiles _

theorem adds_searchFiles {a : ToolArgs} {r : Regex} {named : Bool} (names : List String) :
    (m.searchFiles a r named names).Adds := by
  induction names generalizing m with
  | nil => exact .pure _
  | cons name rest ih =>
    rw [searchFiles]
    split
    case' isTrue => refine .bind (.pure _) fun found => ?_
    case' isFalse => refine .bind adds_readFile fun read => .bind (.pure _) fun found => ?_
    all_goals
      dsimp only
      split <;> exact .bind ih fun _ => .pure _

theorem adds_grep : (m.grep args).Adds := by
  rw [grep]
  split
  · exact adds_refuse
  · split
    · split
      · exact adds_refuse
      · exact adds_fail
    · exact .bind (adds_searchFiles _) fun _ => .bind adds_writeText fun _ =>
        .bind adds_writeText fun _ => .pure _

theorem adds_countFiles (names : List String) : (m.countFiles names).Adds := by
  induction names generalizing m with
  | nil => exact .pure _
  | cons name rest ih =>
    rw [countFiles]
    split
    · exact .bind ih fun _ => .pure _
    · refine .bind adds_readFile fun read => ?_
      dsimp only
      split <;> exact .bind (.pure _) fun _ => .bind ih fun _ => .pure _

theorem adds_wc : (m.wc args).Adds := by
  rw [wc]
  split
  · exact adds_refuse
  · exact .bind (adds_countFiles _) fun _ => .bind adds_writeText fun _ =>
      .bind adds_writeText fun _ => .pure _

/-! ### Making directories -/

theorem adds_makeEach {parents : Bool} (names : List String) : (m.makeEach parents names).Adds := by
  induction names generalizing m with
  | nil => exact .pure _
  | cons name rest ih =>
    rw [makeEach]
    dsimp only
    split
    case' isTrue => refine .bind (adds_makeDirectoriesWithin _ _) fun made => ?_
    case' isFalse => refine .bind (.perform rfl) fun made => ?_
    all_goals
      split
      · exact ih
      · exact .bind adds_fail fun _ => ih

theorem adds_mkdir : (m.mkdir args).Adds := by
  rw [mkdir]
  split
  · exact adds_refuse
  · split
    · exact adds_refuse
    · exact adds_makeEach _

end Machine

theorem adds_runProgram : (runProgram m name args).Adds := by
  unfold runProgram
  split
  · exact .pure _
  · exact .pure _
  · exact Machine.adds_echoPlain
  · exact Machine.adds_printf
  · exact Machine.adds_cat
  · exact Machine.adds_grep
  · exact Machine.adds_wc
  · exact Machine.adds_mkdir
  · exact Machine.adds_test
  · exact Machine.adds_testBracket

end GqlArtifacts.Shell
