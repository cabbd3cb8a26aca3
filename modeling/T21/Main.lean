import T21.Cli.Run

/-!
# The program

The real file system and standard streams as the surroundings of a run.
-/

namespace T21.Cli

def errorNumber? : IO.Error → Option Nat
  | .noFileOrDirectory _ code _ | .inappropriateType _ code _ | .invalidArgument _ code _ =>
    some code.toNat
  | _ => none

def describeError (e : IO.Error) : String :=
  match PathError.all.find? fun known => errorNumber? e = some known.code with
  | some known => known.message
  | none => toString e

def drain (h : IO.FS.Stream) : IO Stream := do
  let mut data := ByteArray.empty
  repeat
    match ← (h.read 65536).toBaseIO with
    | .error e => return { data := data.toList, failure := some (describeError e) }
    | .ok block =>
      if block.isEmpty then break
      data := data ++ block
  return { data := data.toList }

def realHost : Host IO where
  File := IO.FS.Handle
  standardInput := do drain (← IO.getStdin)
  openFile name := do
    match ← (IO.FS.Handle.mk name .read).toBaseIO with
    | .error e => return .error (describeError e)
    | .ok h => return .ok (← drain (IO.FS.Stream.ofHandle h))
  createFile name := return (← (IO.FS.Handle.mk name .write).toBaseIO).mapError describeError
  writeFile h data := do
    -- a failure to write may show only when the buffer is emptied
    return (← (h.write ⟨data.toArray⟩ *> h.flush).toBaseIO).mapError describeError
  print text := do (← IO.getStdout).putStr text
  printError text := do (← IO.getStderr).putStr text

end T21.Cli

def main (args : List String) : IO UInt32 := do
  let exit ← T21.Cli.run T21.Cli.realHost args
  return exit.code
