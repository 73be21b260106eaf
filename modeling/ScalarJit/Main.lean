import ScalarJit.CommandLine.App

/-! # The executable

Reads the file, lends the console of the process to host functions, and prints. -/

namespace ScalarJit.CommandLine

open scoped HostAddresses

/-- The bytes up to and including the next line feed. -/
partial def readLine (input : IO.FS.Stream) (line : ByteArray) : IO ByteArray := do
  let byte ← input.read 1
  if byte.isEmpty then return line
  let line := line ++ byte
  if byte.get! 0 == 10 then return line else readLine input line

/-- A host function on the console of the process; only one that reads is given a line. -/
def callHost (f : HostFunction) (args : List Double) : IO Double := do
  let line ← if f = .intrinsic .getDouble then readLine (← IO.getStdin) .empty else pure .empty
  let (answer, console) := Console.call f args (.fresh line.toList none)
  (← IO.getStdout).write ⟨console.sink.written⟩
  return answer

/-- Steps until the entry returns. -/
partial def drive (image : Image) (m : Machine) : IO (Except RunFault Double) := do
  match m.step image with
  | .error f => return .error (.machine f)
  | .ok (.finished value) => return .ok value
  | .ok (.running m) => drive image m
  | .ok (.calling f args m) => drive image (m.resume .nans (← callHost f args))

def readBytes (file : String) : IO (Except ReadFault (List UInt8)) := do
  try
    return .ok (← IO.FS.readBinFile file).toList
  catch
    | .noFileOrDirectory .. => return .error .missing
    | .permissionDenied .. => return .error (.system "Permission denied" 13)
    | .inappropriateType _ code _ => return .error (if code = 21 then .directory else .notDirectory)
    | .invalidArgument .. => return .error .nameTooLong
    | e => return .error (.system (toString e) 5)

def process (arguments : List String) : IO UInt32 := do
  let output ← IO.getStdout
  let errors ← IO.getStderr
  match Options.parse arguments with
  | .error f =>
    (if f.isAnswer then output else errors).putStr f.message
    return if f.isAnswer then 0 else 1
  | .ok o =>
    match start o (← readBytes o.file) with
    | .stopped text fault =>
      output.putStr text
      errors.putStr fault
      return 1
    | .ready text e =>
      output.putStr text
      let result ← match e.entryAddress o.entry with
        | .ok address => drive e.image (.enter address .nans)
        | .error f => pure (.error f)
      match result with
      | .ok value =>
        output.putStr (closingLine value)
        return 0
      | .error f =>
        errors.putStr (faultText f)
        return 1

end ScalarJit.CommandLine

def main (arguments : List String) : IO UInt32 := ScalarJit.CommandLine.process arguments
