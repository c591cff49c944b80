namespace Storyworld

/-! Files and folders as far as a run looks at them: what a path leads to, in which order paths are
listed, and which of them are sources. -/

namespace Disk

/-- Why a file cannot be read. -/
inductive Fault where
  | missing
  | isFolder
  | notFolder
  | notText
deriving DecidableEq, Repr

def Fault.message : Fault → String
  | missing => "No such file or directory (os error 2)"
  | isFolder => "Is a directory (os error 21)"
  | notFolder => "Not a directory (os error 20)"
  | notText => "stream did not contain valid UTF-8"

/-- What a file gives when it is read. -/
abbrev Contents := Except Fault (List Char)

/-- What a path leads to. -/
inductive Entry where
  | file (contents : Contents)
  /-- The files anywhere below a folder, by their paths from there. -/
  | folder (files : List (String × Contents))

namespace Entry

/-- What reading the entry as a file gives. -/
def read : Entry → Contents
  | file contents => contents
  | folder _ => .error .isFolder

end Entry

/-- The path of something in a folder. -/
def join (folder path : String) : String :=
  if folder.endsWith "/" then folder ++ path else folder ++ "/" ++ path

/-! ## Order -/

/-- What a path is made of, in the order in which paths that agree up to there are listed. -/
inductive Component where
  | root
  | here
  | parent
  | normal (name : String)
deriving DecidableEq, Repr

namespace Component

/-- Whether a component is listed before another one. -/
def before : Component → Component → Bool
  | normal a, normal b => a < b
  | a, b => rank a < rank b
where
  rank : Component → Nat
    | root => 0
    | here => 1
    | parent => 2
    | normal _ => 3

end Component

/-- The components of a path. A point for the folder itself counts in front only. -/
def components (path : String) : List Component :=
  let parts := path.splitOn "/"
  let front : List Component :=
    match parts with
    | "" :: _ :: _ => [.root]
    | "." :: _ => [.here]
    | _ => []
  front ++ parts.filterMap fun part =>
    if part = "" || part = "." then none
    else if part = ".." then some .parent
    else some (.normal part)

/-- Whether a path is listed no later than another one. -/
def inOrder : List Component → List Component → Bool
  | [], _ => true
  | _ :: _, [] => false
  | a :: as, b :: bs => if a = b then inOrder as bs else a.before b

/-- Whether a file name ends in `.amble`, with something in front of the point. -/
def isSource (path : String) : Bool :=
  let name := (path.splitOn "/").getLast?.getD ""
  name.endsWith ".amble" && name.length > ".amble".length

end Disk

/-! ## Disks in memory -/

/-- A folder with all that is in it. -/
structure Disk where
  /-- The files, by the names on the way to them. -/
  files : List (List String × List Char) := []
  /-- Folders that may be empty. -/
  folders : List (List String) := []

namespace Disk

/-- Adds a file, or an empty folder where the path ends in a slash. -/
def add (d : Disk) (path : String) (contents : List Char) : Disk :=
  let names := (path.splitOn "/").filter (· ≠ "")
  if path.endsWith "/" then { d with folders := d.folders ++ [names] }
  else { d with files := d.files ++ [(names, contents)] }

def isFolder (d : Disk) (names : List String) : Bool :=
  names.isEmpty || d.folders.any names.isPrefixOf ||
    d.files.any fun f => names.isPrefixOf f.1 && names.length < f.1.length

def isFile (d : Disk) (names : List String) : Bool :=
  d.files.any (·.1 = names)

/-- Follows a path from a folder. -/
def follow (d : Disk) : (folder : List String) → (path : List String) → Except Fault (List String)
  | names, [] =>
    if d.isFolder names || d.isFile names then .ok names else .error .missing
  | names, part :: path =>
    if d.isFolder names then
      if part = "" || part = "." then d.follow names path
      else if part = ".." then d.follow names.dropLast path
      else d.follow (names ++ [part]) path
    else if d.isFile names then .error .notFolder
    else .error .missing

/-- What a path leads to. -/
def look (d : Disk) (path : String) : Entry :=
  if path = "" || path.startsWith "/" then .file (.error .missing)
  else
    match d.follow [] (path.splitOn "/") with
    | .error fault => .file (.error fault)
    | .ok names =>
      match d.files.lookup names with
      | some contents => .file (.ok contents)
      | none =>
        .folder <| d.files.filterMap fun f =>
          if names.isPrefixOf f.1 then
            some ("/".intercalate (f.1.drop names.length), .ok f.2)
          else none

end Disk

end Storyworld
