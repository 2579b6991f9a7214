import Mathlib.Data.List.Basic

/-!
# Errors

`DbError` of `err.rs`. An `std::io::Error` is its kind, with the message of `Error::new` for the
kind `Other`.
-/

namespace EasyLsm

/-- The kinds of `std::io::Error` the code produces or tells apart. -/
inductive ErrorKind where
  | unexpectedEof
  | notFound (message : String)
  | other (message : String)
  deriving DecidableEq, Repr

/-- The text of an I/O error. -/
def ErrorKind.display : ErrorKind → String
  | .unexpectedEof => "failed to fill whole buffer"
  | .notFound message => message
  | .other message => message

/-- `DbError` of `err.rs`. -/
inductive DbError where
  | io (kind : ErrorKind)
  | keyNotFound (key : String)
  | directoryNotFound (path : String)
  | manifestNotFound
  | manifestReadError (message : String)
  | manifestCorrupted
  | writerPanic
  | dataCorrupted (message : String)
  | unimplemented (message : String)
  deriving DecidableEq, Repr

namespace DbError

/-- `read_exact` met the end of its input. -/
abbrev unexpectedEof : DbError := .io .unexpectedEof

/-- The `Display` text of an error. -/
def display : DbError → String
  | .io kind => "IO error: " ++ kind.display
  | .keyNotFound key => "Key not found: " ++ key
  | .directoryNotFound path => "Directory not found: " ++ path
  | .manifestNotFound => "Manifest not found"
  | .manifestReadError message => "Manifest read error: " ++ message
  | .manifestCorrupted => "Manifest corrupted"
  | .writerPanic => "Writer panic. Operation aborted."
  | .dataCorrupted message => "Data corrupted: " ++ message
  | .unimplemented message => "Unimplemented: " ++ message

end DbError

end EasyLsm
