import Scriptlet.Shell

/-!
The command as a program: files, standard input and standard output around the pure shell.
-/

namespace Scriptlet.Shell

def budget : Nat := 1000000000000000000

def flush (c : Console) : IO Console := do
  IO.print c.out
  (← IO.getStdout).flush
  IO.eprint c.err
  return {}

def readFailure : IO.Error → ReadFailure
  | .inappropriateType _ code _ => if code = 21 then .isDirectory else .notDirectory
  | _ => .missing

def readScript (path : String) : IO (Except ReadFailure String) := do
  try
    let bytes ← IO.FS.readBinFile path
    return match Utf8.decode? bytes.toList with
      | some text => .ok text
      | none => .error .notText
  catch error => return .error (readFailure error)

partial def readLine (stream : IO.FS.Stream) (line : List UInt8) : IO (List UInt8) := do
  let bytes ← stream.read 1
  match bytes.toList with
  | [] => return line.reverse
  | b :: _ => if b = 10 then return (b :: line).reverse else readLine stream (b :: line)

partial def converse (stream : IO.FS.Stream) (d : Desk) : IO Unit := do
  let console ← flush (d.console.print mark)
  let line ← readLine stream []
  let d := d.update fun _ => console
  if line = [] then return
  match offer budget d line with
  | some (true, d) => converse stream d
  | some (false, d) => discard (flush d.console)
  | none => return

end Scriptlet.Shell

open Scriptlet Scriptlet.Shell in
def main (args : List String) : IO UInt32 := do
  match Command.ofArgs args with
  | .prompt =>
    let console ← flush { out := banner }
    converse (← IO.getStdin) (.start console)
    discard (flush { out := farewell })
    return 0
  | .file path =>
    let contents ← readScript path
    let some output := Shell.run budget args [] fun _ => contents | return 1
    discard (flush output.console)
    return UInt32.ofNat output.code
  | _ =>
    let some output := Shell.run budget args [] fun _ => .error .missing | return 1
    discard (flush output.console)
    return UInt32.ofNat output.code
