/-! # Faults

Why the system refused to read, create or accept something, and the text that says so.
-/
namespace SourceBundle

inductive Fault where
  | notFound
  | alreadyExists
  | notDirectory
  | isDirectory
  | nameTooLong
  | tooManyLinks
  /-- A path that holds U+0000 never reaches the system. -/
  | nulInPath
  /-- Text was asked of octets that are not UTF-8. -/
  | notUtf8
  /-- A refusal with a text of its own, such as that of a sink. -/
  | refused (reason : String)
deriving DecidableEq, Repr, Inhabited

def Fault.text : Fault → String
  | .notFound => "No such file or directory (os error 2)"
  | .alreadyExists => "File exists (os error 17)"
  | .notDirectory => "Not a directory (os error 20)"
  | .isDirectory => "Is a directory (os error 21)"
  | .nameTooLong => "File name too long (os error 36)"
  | .tooManyLinks => "Too many levels of symbolic links (os error 40)"
  | .nulInPath => "file name contained an unexpected NUL byte"
  | .notUtf8 => "stream did not contain valid UTF-8"
  | .refused reason => reason

end SourceBundle
