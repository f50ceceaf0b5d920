import GqlArtifacts.Proofs.Shell.Tools
import GqlArtifacts.Shell.Builtins

/-!
# What the commands of a shell do to files

The commands that change the shell itself touch no file but what their messages are written to. So they
take nothing away (`adds_runSpecial`, `adds_runBuiltin`).
-/

namespace GqlArtifacts.Shell.Machine

open Files Program

variable {m : Machine} {command message name : String} {args : List String}

theorem adds_refuseCommand : (m.refuseCommand command message).Adds := adds_fail

theorem adds_abortCommand : (m.abortCommand command message).Adds :=
  .bind adds_refuseCommand fun _ => .pure _

theorem adds_withNumber {otherwise : Nat} {next : Nat → Program Machine} (h : ∀ n, (next n).Adds) :
    (m.withNumber command otherwise args next).Adds := by
  unfold withNumber
  split
  · exact h _
  · split
    · exact h _
    · exact adds_abortCommand

/-! ### The flow of commands -/

theorem adds_leaveLoops : (m.leaveLoops command args).Adds := by
  refine adds_withNumber fun n => ?_
  split
  · exact adds_abortCommand
  · dsimp only
    split
    · exact .pure _
    · split <;> exact .pure _

theorem adds_returnFrom : (m.returnFrom args).Adds := adds_withNumber fun _ => .pure _

theorem adds_exit : (m.exit args).Adds := adds_withNumber fun _ => .pure _

theorem adds_setTrap : (m.setTrap args).Adds := by
  unfold setTrap
  split <;> exact .pure _

/-! ### Variables and arguments -/

theorem adds_declare {mark : Machine → String → Machine} : (m.declare command mark args).Adds := by
  induction args generalizing m with
  | nil => exact .pure _
  | cons arg rest ih =>
    rw [declare]
    dsimp only
    split
    · exact adds_abortCommand
    · split
      case' h_1 => refine .bind adds_assign fun after => ?_
      case' h_2 => refine .bind (.pure _) fun after => ?_
      all_goals
        split
        · exact ih
        · exact .pure _

theorem adds_declareLocal : (m.declareLocal args).Adds := by
  rw [declareLocal]
  split
  · exact adds_abortCommand
  · exact adds_declare

theorem adds_unset {functions : Bool} : (m.unset functions args).Adds := by
  induction args generalizing m with
  | nil => exact .pure _
  | cons name rest ih =>
    rw [unset]
    split
    · exact ih
    · split
      · exact adds_abortCommand
      · split
        · exact adds_abortCommand
        · exact ih

theorem adds_shift : (m.shift args).Adds := by
  refine adds_withNumber fun n => ?_
  split
  · exact adds_abortCommand
  · exact .pure _

theorem adds_set : (m.set args).Adds := by
  rw [set]
  split
  · exact adds_abortCommand
  · exact .pure _

/-! ### The directory -/

theorem adds_enter {shown : Bool} {place : Path} : (m.enter shown place).Adds := by
  refine .bind adds_assign fun after => ?_
  split
  · exact adds_writeText
  · exact .pure _

theorem adds_changeDirectory : (m.changeDirectory args).Adds := by
  rw [changeDirectory]
  dsimp only
  split
  · exact .pure _
  · refine .bind (looks_isDirectory _).adds fun there => ?_
    split
    · exact adds_enter
    · exact adds_refuseCommand

/-! ### Reading a line and options -/

theorem adds_assignAll (settings : List (String × String)) : (m.assignAll settings).Adds := by
  induction settings generalizing m with
  | nil => exact .pure _
  | cons setting rest ih =>
    refine .bind adds_assign fun after => ?_
    split
    · exact ih
    · exact .pure _

theorem adds_readLine : (m.readLine args).Adds := by
  unfold readLine
  extract_lets raw names
  split
  · exact adds_refuseCommand
  · split
    · exact adds_refuseCommand
    · exact .bind (adds_assignAll _) fun _ => .pure _

theorem adds_takeOption {letters : String} : (m.takeOption letters name args).Adds := by
  unfold takeOption
  extract_lets index place stop skipped silent
  have hstop : ∀ m place c value? status, (stop m place c value? status).Adds := fun _ _ _ _ _ =>
    .bind adds_assign fun _ => .pure _
  split
  · exact hstop ..
  · extract_lets known refuse value
    have hrefuse : ∀ m place sign message, (refuse m place sign message).Adds := by
      intro m place sign message
      dsimp only [refuse]
      split
      · exact hstop ..
      · exact .bind adds_writeText fun _ => hstop ..
    split
    · exact hrefuse ..
    · split
      · split
        · exact hstop ..
        · split
          · exact hstop ..
          · exact hrefuse ..
      · exact hstop ..

theorem adds_takeOptions : (m.takeOptions args).Adds := by
  unfold takeOptions
  split
  · exact adds_takeOption
  · exact adds_refuseCommand

/-! ### Names -/

theorem adds_describeAll {long : Bool} : (m.describeAll long args).Adds :=
  .bind adds_writeText fun _ => .pure _

theorem adds_runSpecial : (m.runSpecial name args).Adds := by
  unfold runSpecial
  extract_lets operands
  split
  · exact adds_leaveLoops
  · exact adds_leaveLoops
  · exact adds_returnFrom
  · exact adds_exit
  · exact adds_setTrap
  · exact adds_declare
  · exact adds_declare
  · exact adds_declareLocal
  · exact adds_unset
  · exact adds_shift
  · exact adds_set
  · exact .pure _

theorem adds_runBuiltin : (m.runBuiltin name args).Adds := by
  unfold runBuiltin
  split
  · exact adds_echo
  · exact adds_printf
  · exact adds_test
  · exact adds_testBracket
  · exact .pure _
  · exact adds_changeDirectory
  · exact .bind adds_writeText fun _ => .pure _
  · exact adds_readLine
  · exact adds_takeOptions
  · exact adds_describeAll
  · split
    · exact .bind adds_writeText fun _ => .pure _
    · exact .pure _
  · exact .pure _

end GqlArtifacts.Shell.Machine
