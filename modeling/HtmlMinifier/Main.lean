import HtmlMinifier.Console

/-!
# The program

The files of the machine as a storage, and the program itself. Nothing is decided here: a fault that
the machine reports is named, and what a run prints is printed.
-/

namespace HtmlMinifier

/-- Names the fault behind an error of the machine. -/
def FileFault.ofError : IO.Error → FileFault
  | .noFileOrDirectory .. => notFound
  | .alreadyExists .. => alreadyExists
  | .permissionDenied _ code _ => if code = 30 then readOnlyStorage else permissionDenied
  | .inappropriateType _ code _ => if code = 21 then isADirectory else notADirectory
  | .invalidArgument _ code _ => if code = 36 then invalidName else invalidInput
  | .unsatisfiedConstraints .. => directoryNotEmpty
  | .resourceExhausted _ code _ => if code = 28 then storageFull else other
  | .unexpectedEof => unexpectedEnd
  | _ => other

/-- Carries out an action at a path that can be followed, and names its fault. -/
def attempt {α : Type} (p : Path) (action : IO α) : IO (Except FileFault α) :=
  match p.fault? with
  | some fault => pure (.error fault)
  | none => do
    try pure (.ok (← action))
    catch e => pure (.error (.ofError e))

/-- The files of the machine are a storage. A file is replaced by writing another one beside it and
giving that its name. -/
instance : Storage IO where
  workingDirectory := do pure ⟨(← IO.currentDir).toString⟩
  resolve p := attempt p do pure ⟨(← IO.FS.realPath p.text).toString⟩
  isDirectory p := do
    let here ← IO.currentDir
    match p.fault? with
    | some _ => pure false
    | none => (here / p.text).isDir
  makeDirectory p := attempt p (IO.FS.createDir p.text)
  read p := attempt p (IO.FS.readBinFile p.text)
  replace p bytes := attempt p do
    let draft := p.text ++ ".new"
    IO.FS.writeBinFile draft bytes
    IO.FS.rename draft p.text

end HtmlMinifier

/-- Runs the program on the arguments of its command line. -/
def main (args : List String) : IO UInt32 := do
  let transcript ← HtmlMinifier.perform (m := IO) (args.map HtmlMinifier.Argument.text)
  (← IO.getStdout).putStr transcript.output
  (← IO.getStderr).putStr transcript.errors
  pure transcript.status.toUInt32
