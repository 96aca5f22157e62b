import ClassFormat.ClassFile.Dump

/-! The command line: prints the report on the class file whose path is given. -/

open ClassFormat

def main (arguments : List String) : IO UInt32 := do
  match arguments with
  | path :: _ =>
    let bytes ← IO.FS.readBinFile path
    let outcome := ClassFile.report path bytes.toList
    IO.print outcome.output
    IO.eprint outcome.complaint
    return outcome.status
  | [] =>
    IO.eprintln "A report needs the path of a class file."
    return 1
