import HtmlMinifier.FileTree.Basic

/-!
# Storage

A run touches files through a few operations only. Whatever offers them is a storage: a tree of
files held as a value, or the files of the machine. What is built on them here, making a
directory with all that is missing above it, reading a text and writing one, is the same for every
storage.
-/

namespace HtmlMinifier

/-- The operations on files that a run needs. -/
class Storage (m : Type → Type) where
  /-- The path from the root to the working directory. -/
  workingDirectory : m Path
  /-- The path from the root, without dots, to what stands at the path. -/
  resolve : Path → m (Except FileFault Path)
  /-- Whether a directory stands at the path. -/
  isDirectory : Path → m Bool
  /-- Makes one directory in one that exists. -/
  makeDirectory : Path → m (Except FileFault Unit)
  /-- The bytes of the file at the path. -/
  read : Path → m (Except FileFault ByteArray)
  /-- Puts a file with these bytes at the path, all of it or nothing, in place of the file there,
  if there is one. -/
  replace : Path → ByteArray → m (Except FileFault Unit)

/-- Makes a change to the tree unless it has a fault. -/
def Tree.change (f : Tree → Except FileFault Tree) : StateM Tree (Except FileFault Unit) := fun t =>
  match f t with
  | .error fault => (.error fault, t)
  | .ok t' => (.ok (), t')

/-- A tree held as a value is a storage. -/
instance : Storage (StateM Tree) where
  workingDirectory t := (t.workingDirectory, t)
  resolve p t := (t.resolve p, t)
  isDirectory p t := (t.isDirectory p, t)
  makeDirectory p := Tree.change (·.makeDirectory p)
  read p t := (t.read p, t)
  replace p bytes := Tree.change (·.replace p bytes)

namespace Storage

variable {m : Type → Type} [Monad m] [Storage m]

/-- Makes the first directory of a list in which each is followed by the one above it. Where that
one is missing, it is made first. That a directory stands there already is no fault. -/
def makeChain : List Path → m (Except FileFault Unit)
  | [] => pure (.ok ())
  | p :: above => do
    match ← makeDirectory p with
    | .ok () => pure (.ok ())
    | .error .notFound =>
      match ← makeChain above with
      | .error fault => pure (.error fault)
      | .ok () => settle p (← makeDirectory p)
    | .error fault => settle p (.error fault)
where
  /-- A fault in making a directory does not count if one stands there. -/
  settle (p : Path) : Except FileFault Unit → m (Except FileFault Unit)
    | .ok () => pure (.ok ())
    | .error fault => do
      if ← isDirectory p then pure (.ok ()) else pure (.error fault)

/-- Makes sure that a directory stands at a path, with all directories above it. An empty path asks
for none. -/
def ensureDirectory (p : Path) : m (Except FileFault Unit) := do
  if ← isDirectory p then pure (.ok ())
  else if p.text.isEmpty then pure (.ok ())
  else makeChain (p :: p.ancestors)

/-- The text of the file at a path. -/
def readText (p : Path) : m (Except FileFault String) := do
  match ← read p with
  | .error fault => pure (.error fault)
  | .ok bytes =>
    match String.fromUTF8? bytes with
    | none => pure (.error .invalidData)
    | some text => pure (.ok text)

/-- Writes a text to the file at a path; a directory is not written over. The path is made absolute
first, so that what it may not exceed is its length from the root without dots and slashes that
mean nothing. -/
def writeText (p : Path) (text : String) : m (Except FileFault Unit) := do
  let target := Path.absolute (← workingDirectory) p
  if ← isDirectory target then pure (.error .invalidInput) else replace target text.toUTF8

end Storage

end HtmlMinifier
