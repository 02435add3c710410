/-!
Folders: files by their paths from a working directory, and what a path leads to.
-/

namespace Lookahead

/-- What a path leads to, or why it leads nowhere. -/
inductive Place where
  | file (bytes : List UInt8)
  | directory
  | missing
  | notDirectory
deriving DecidableEq

abbrev Path := List String

/-- Files and what they hold. A folder is there if a file lies in it. -/
structure Folder where
  files : List (Path × List UInt8)

namespace Folder

/-- The names along a path; a path that ends in a slash has an empty one at its end. -/
def names (path : String) : Path := (path.toList.splitOn '/').map String.ofList

def ofFiles (files : List (String × List UInt8)) : Folder :=
  ⟨files.map fun f => (names f.1, f.2)⟩

/-- What lies under a path without dots. -/
def place (f : Folder) (path : Path) : Place :=
  match f.files.lookup path with
  | some bytes => .file bytes
  | none =>
    if path.isEmpty || f.files.any (fun e => path.isPrefixOf e.1) then .directory else .missing

/-- Follows names from a directory. An empty name and a dot stay there, and only a directory can be
gone through. -/
def walk (f : Folder) : Path → Place → Path → Place
  | _, place, [] => place
  | here, .directory, n :: names =>
    if n = "" ∨ n = "." then f.walk here .directory names
    else if n = ".." then
      match here with
      | [] => .missing
      | _ => f.walk here.dropLast .directory names
    else f.walk (here ++ [n]) (f.place (here ++ [n])) names
  | _, .file _, _ :: _ => .notDirectory
  | _, place, _ :: _ => place

/-- What a path leads to from the working directory. -/
def find (f : Folder) (path : String) : Place := f.walk [] .directory (names path)

end Folder

end Lookahead
