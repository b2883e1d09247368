/-!
# Directories

A directory whose files are given beforehand, and how a path is read in it. It stands for the
working directory of a command.
-/

namespace MonkeyLang

/-- Why the system does not give the bytes of a file. -/
inductive SystemError
  | notFound
  | isDirectory
  | notDirectory
  | nameTooLong
  | denied
deriving DecidableEq, Repr

namespace SystemError

def reason : SystemError → String
  | notFound => "No such file or directory"
  | isDirectory => "Is a directory"
  | notDirectory => "Not a directory"
  | nameTooLong => "File name too long"
  | denied => "Permission denied"

def number : SystemError → Nat
  | notFound => 2
  | isDirectory => 21
  | notDirectory => 20
  | nameTooLong => 36
  | denied => 13

end SystemError

/-- Why a file cannot be read as text. -/
inductive ReadFailure
  | system (error : SystemError)
  /-- The name of the file holds a null character, which no name may hold. -/
  | nullInName
  /-- The bytes of the file are not well-formed UTF-8. -/
  | notText
deriving DecidableEq, Repr

/-- A directory with all that lies in it: the bytes of each file by its path, and the paths of
directories, which have none. What a path passes through is a directory, too. -/
structure Directory where
  entries : List (String × Option (List UInt8))
deriving Repr

namespace Directory

/-- Where a path leads. -/
inductive Location
  /-- The directory itself, or a directory in it by the parts of its path. -/
  | inside (parts : List String)
  /-- A directory that it lies in, of which nothing else is known. -/
  | outside
  | file (bytes : List UInt8)
deriving DecidableEq, Repr

/-- The most bytes that one part of a path may have. -/
def maxName : Nat := 255

/-- The most bytes that a path may have. -/
def maxPath : Nat := 4095

/-- What has a given path in the directory. -/
def entry? (d : Directory) (parts : List String) : Option Location :=
  let path := "/".intercalate parts
  match d.entries.lookup path with
  | some (some bytes) => some (.file bytes)
  | some none => some (.inside parts)
  | none =>
    if d.entries.any fun e => (path ++ "/").toList.isPrefixOf e.1.toList then some (.inside parts)
    else none

/-- Follows a name, where `found` is what is under that name. -/
def enter (name : String) (found : Option Location) : Except SystemError Location :=
  if maxName < name.utf8ByteSize then .error .nameTooLong
  else
    match found with
    | some l => .ok l
    | none => .error .notFound

/-- Follows one part of a path. Nothing between two slashes, and one point, lead to the same
directory, two points to the one that it lies in. -/
def follow (d : Directory) (l : Location) (part : String) : Except SystemError Location :=
  match l with
  | .file _ => .error .notDirectory
  | .inside parts =>
    if part = "" ∨ part = "." then .ok l
    else if part = ".." then .ok (if parts.isEmpty then .outside else .inside parts.dropLast)
    else enter part (d.entry? (parts ++ [part]))
  | .outside =>
    if part = "" ∨ part = "." ∨ part = ".." then .ok .outside else enter part none

def followAll (d : Directory) : Location → List String → Except SystemError Location
  | l, [] => .ok l
  | l, part :: parts =>
    match d.follow l part with
    | .error e => .error e
    | .ok l => d.followAll l parts

/-- The bytes of the file that a path leads to. A path that starts with a slash starts outside, and
the empty path leads nowhere. -/
def read (d : Directory) (path : String) : Except ReadFailure (List UInt8) :=
  if path.toList.contains '\x00' then .error .nullInName
  else if path = "" then .error (.system .notFound)
  else if maxPath < path.utf8ByteSize then .error (.system .nameTooLong)
  else
    let start := if path.toList.head? = some '/' then .outside else .inside []
    match d.followAll start (path.splitOn "/") with
    | .error e => .error (.system e)
    | .ok (.file bytes) => .ok bytes
    | .ok _ => .error (.system .isDirectory)

end Directory

end MonkeyLang
