/-!
This module contains what the program needs from the files it works on: paths, access to the files
at them, and the reasons why there is none.
-/

namespace Delegation

inductive FileError where
  | notFound
  | notDirectory
  | isDirectory
  | nameTooLong
  | nulInPath
  | notText
  | other (message : String)
deriving DecidableEq

namespace FileError

def message : FileError → String
  | notFound => "No such file or directory (os error 2)"
  | notDirectory => "Not a directory (os error 20)"
  | isDirectory => "Is a directory (os error 21)"
  | nameTooLong => "File name too long (os error 36)"
  | nulInPath => "file name contained an unexpected NUL byte"
  | notText => "stream did not contain valid UTF-8"
  | other message => message

end FileError

def joinPath (base path : String) : String :=
  if path.startsWith "/" || base.isEmpty then
    path
  else if base.endsWith "/" then
    base ++ path
  else
    base ++ "/" ++ path

structure FileAccess (m : Type → Type) where
  isPresent : String → m Bool
  isDirectory : String → m Bool
  read : String → m (Except FileError String)
  /--
  Give a file a new text, or leave it as it is.
  -/
  replace : String → String → m (Except FileError Unit)

end Delegation
