/-!
# Faults of files

What can be wrong with a path, and how a failed access is told.
-/
namespace StackCode

inductive FileFault where
  | notFound
  | notDirectory
  | isDirectory
  | nameTooLong
  | invalid
  | other (text : String)
deriving DecidableEq, Repr

namespace FileFault

def text : FileFault → String
  | .notFound => "no such file or directory"
  | .notDirectory => "not a directory"
  | .isDirectory => "is a directory"
  | .nameTooLong => "file name too long"
  | .invalid => "invalid argument"
  | .other t => t

end FileFault

/-- An access that failed: what was tried, on which path, and why. -/
structure FileFailure where
  attempt : String
  path : String
  fault : FileFault
deriving DecidableEq, Repr

namespace FileFailure

def text (f : FileFailure) : String := f.attempt ++ " " ++ f.path ++ ": " ++ f.fault.text

end FileFailure
end StackCode
