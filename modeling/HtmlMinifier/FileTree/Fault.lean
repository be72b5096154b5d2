/-!
# Faults of files

What can be wrong with a file or directory that is asked for, and how each fault is worded.
-/

namespace HtmlMinifier

/-- Why a file or directory could not be read, made or written. -/
inductive FileFault where
  | notFound
  | permissionDenied
  | alreadyExists
  | notADirectory
  | isADirectory
  | directoryNotEmpty
  | readOnlyStorage
  | invalidInput
  | invalidData
  | storageFull
  | invalidName
  | unexpectedEnd
  | other
deriving DecidableEq, Repr

/-- The wording of a fault. -/
def FileFault.message : FileFault → String
  | notFound => "entity not found"
  | permissionDenied => "permission denied"
  | alreadyExists => "entity already exists"
  | notADirectory => "not a directory"
  | isADirectory => "is a directory"
  | directoryNotEmpty => "directory not empty"
  | readOnlyStorage => "read-only filesystem or storage medium"
  | invalidInput => "invalid input parameter"
  | invalidData => "invalid data"
  | storageFull => "no storage space"
  | invalidName => "invalid filename"
  | unexpectedEnd => "unexpected end of file"
  | other => "other error"

end HtmlMinifier
