import LuauTidy.Text.Basic

/-!
# Files

A run works on the files below one folder.  A file has a name, whose parts
are separated by slashes, and a text; a folder is there if some file lies in
it.  Paths are looked up part by part: every part but the last has to be a
folder.

* `Files`, `Entry` — what lies below the folder, and what a path leads to;
* `Files.locate?` — the name that a path leads to;
* `Files.look`, `Files.write?` — reading and writing.
-/

namespace LuauTidy

/-- What a path leads to. -/
inductive Entry
  | text (content : Text)
  /-- A file that holds no text. -/
  | unreadable
  | folder
  | absent
  deriving DecidableEq, Repr

/-- A file is there. -/
def Entry.isFile : Entry → Bool
  | .text _ | .unreadable => true
  | _ => false

/-- The text of a file. -/
def Entry.text? : Entry → Option Text
  | .text content => some content
  | _ => none

/-- The files below a folder, by name. -/
abbrev Files := List (String × Text)

namespace Files

/-- The parts of a path. -/
def parts : List Char → List (List Char)
  | [] => [[]]
  | '/' :: rest => [] :: parts rest
  | c :: rest =>
    match parts rest with
    | first :: others => (c :: first) :: others
    | [] => [[c]]

/-- The name of the file or folder with the given parts, last first. -/
def nameOf (reversed : List (List Char)) : String :=
  String.ofList ((reversed.reverse.intersperse ['/']).flatten)

/-- A folder has a name: the folder that all files lie in, or one that some
file lies in. -/
def isFolder (files : Files) (name : String) : Bool :=
  name.isEmpty || files.any fun (n, _) => (name.toList ++ ['/']).isPrefixOf n.toList

/-- The number of bytes that a part of a path may have. -/
def maxPartLength : Nat := 255

/-- The number of bytes that a path may have. -/
def maxPathLength : Nat := 4095

/-- The parts that a path leads to from a folder, last first.  No path leads
out of the folder that all files lie in. -/
def walk (files : Files) (here : List (List Char)) :
    List (List Char) → Option (List (List Char))
  | [] => some here
  | part :: rest =>
    if !files.isFolder (nameOf here) then none
    else if part.isEmpty || part == ['.'] then walk files here rest
    else if part == ['.', '.'] then
      match here with
      | [] => none
      | _ :: outer => walk files outer rest
    else if maxPartLength < Text.byteLength part then none
    else walk files (part :: here) rest

/-- The name that a path leads to, whether or not something is there. -/
def locate? (files : Files) (path : String) : Option String :=
  match path.toList with
  | [] => none
  | '/' :: _ => none
  | p =>
    if maxPathLength < Text.byteLength p then none else (files.walk [] (parts p)).map nameOf

/-- What a path leads to. -/
def look (files : Files) (path : String) : Entry :=
  match files.locate? path with
  | none => .absent
  | some name =>
    match files.lookup name with
    | some content => .text content
    | none => if files.isFolder name then .folder else .absent

/-- The files with the text of a file exchanged, or with a new file. -/
def put (name : String) (content : Text) : Files → Files
  | [] => [(name, content)]
  | (n, old) :: rest =>
    if n = name then (name, content) :: rest else (n, old) :: put name content rest

/-- The files after writing to a path, unless a folder is there or none to
write into. -/
def write? (files : Files) (path : String) (content : Text) : Option Files :=
  match files.locate? path with
  | none => none
  | some name => if files.isFolder name then none else some (files.put name content)

end Files

end LuauTidy
