import ShellLex.CommandLine
/-!
The program: it fetches the source that the arguments ask for, and writes out the answer.
-/
namespace ShellLex.CommandLine

partial def readAll (stream : IO.FS.Stream) (sofar : ByteArray) : IO ByteArray := do
  let more ← stream.read 65536
  if more.isEmpty then return sofar else readAll stream (sofar ++ more)

def unreadable : IO.Error → Unreadable
  | .noFileOrDirectory .. => .missing
  | .permissionDenied .. => .denied
  | .inappropriateType .. => .directory
  | e => .other (toString e)

def fetch : Origin → IO (Except Unreadable (List UInt8))
  | .stdin => do return .ok (← readAll (← IO.getStdin) .empty).toList
  | .file path => do
    try return .ok (← IO.FS.readBinFile path).toList
    catch e => return .error (unreadable e)

def program (args : List String) : IO UInt32 := do
  let content ← match request args with
    | .dump options => fetch options.origin
    | .help | .version | .misuse => pure (.ok [])
  let exit := run args fun _ => content
  IO.print exit.stdout
  match exit with
  | .success _ => pure ()
  | .misuse => IO.eprintln "Usage: shsplit [OPTIONS] [FILE]"
  | .failure cause diagnostic =>
    if let some d := diagnostic then
      IO.eprintln ("bytes " ++ toString d.start ++ " to " ++ toString d.stop ++ ": " ++ d.label)
    IO.eprintln cause
  return exit.code.toUInt32

end ShellLex.CommandLine

def main (args : List String) : IO UInt32 := ShellLex.CommandLine.program args
