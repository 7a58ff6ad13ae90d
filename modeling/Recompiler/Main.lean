import Recompiler.Report.Basic

/-!
The command line: reports on the traces of an image.
-/

namespace Recompiler

/-- A file with its contents, if it can be read. -/
def readFile? (name : String) : IO (Option (String × ByteArray)) := do
  try return some (name, ← IO.FS.readBinFile name)
  catch _ => return none

/-- The report that the arguments ask for. The configuration is read first, as it may name the
image. -/
def reportFor (args : List String) : IO (Option ReportError × Report) := do
  let config ← (ReportOptions.configFile? args).toList.filterMapM readFile?
  let image ← (Report.imageFile? (config.lookup ·) args).toList.filterMapM readFile?
  return Report.ofArguments ((config ++ image).lookup ·) args

end Recompiler

/-- Prints a report, and on standard error its log and what ended it. -/
def main (args : List String) : IO UInt32 := do
  let (error?, report) ← Recompiler.reportFor args
  IO.print report.text
  for record in report.log do
    IO.eprintln record.render
  match error? with
  | none => return 0
  | some e =>
    IO.eprintln e.message
    return 1
