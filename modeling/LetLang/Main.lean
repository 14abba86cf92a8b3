import LetLang.Command
import LetLang.Command.Help

/-!
# The program

Runs the command, and prints what it reports. The command works on files that are known
beforehand: as long as it stops at a file that has not been looked for, the file is looked for and
the command is run again.
-/

namespace LetLang.Main

open Command

/-- The name of the file that a failure is about, if it seemed to be missing. -/
def missing? (o : Options) : Failure → Option String
  | .file (.refused .missing _) => o.file
  | .run (.unreadable name (.refused .missing _)) => some name
  | _ => none

def look (name : String) : IO (Except FileFault (List UInt8)) := do
  try
    return .ok (← IO.FS.readBinFile name).toList
  catch
    | .permissionDenied .. => return .error .forbidden
    | .inappropriateType _ code _ =>
      return .error (if code = 21 then .isADirectory else .notADirectory)
    | .invalidArgument .. => return .error .nameTooLong
    | _ => return .error .missing

/-- Runs the command with more and more files, each of which is looked for once, and with more and
more fuel. -/
partial def settle (o : Options) (files : Files) (looked : List String) (fuel : Nat) :
    IO Report := do
  let report := Command.run ⟨files, false, fuel⟩ o
  let failure := match report.ending with
    | .done => none
    | .reported f => some f
    | .escaped f => some f
  match failure with
  | some .outOfFuel => settle o files looked (10 * fuel)
  | some f =>
    match missing? o f with
    | some name =>
      if looked.contains name then return report
      else settle o (files.report name (← look name)) (name :: looked) fuel
    | none => return report
  | none => return report

end LetLang.Main

open LetLang LetLang.Command in
def main (arguments : List String) : IO UInt32 := do
  match Options.ofArguments arguments with
  | .error .help =>
    IO.println help
    return 0
  | .error (.usage e) =>
    IO.eprintln usage
    IO.eprintln (name ++ ": error: " ++ e.message)
    return 2
  | .ok o =>
    let report ← Main.settle o .empty [] 10000
    for line in report.log o do IO.eprintln line
    IO.print report.transcript.printed
    match report.ending with
    | .escaped f =>
      IO.eprintln f.message
      return 1
    | .reported _ => return 1
    | .done => return 0
