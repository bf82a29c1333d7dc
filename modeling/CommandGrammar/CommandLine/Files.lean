import CommandGrammar.Text.Utf8

/-!
# Files

All that the program has to know of files is what it finds at the path of its settings file: the
content of a file, a directory, which can be opened but not read, or nothing for some reason.

A tree of files and directories answers for every path. A path leads from the root or from the
current directory through one directory after the other; a dot stays there, two dots lead back to
the directory above, and the root is above itself.
-/

namespace CommandGrammar.CommandLine

/-- What can be opened at a path. -/
inductive File where
  /-- A file with its content. -/
  | bytes (content : ByteArray)
  /-- A directory. -/
  | directory

/-- Why nothing can be opened at a path. -/
inductive PathError where
  /-- There is nothing. -/
  | missing
  /-- The path leads through a file that is no directory. -/
  | notDirectory
  /-- The path or a name in it is too long. -/
  | nameTooLong
  /-- It is not allowed. -/
  | noPermission
  /-- There is another reason. -/
  | other (text : String)
  deriving DecidableEq, Repr

namespace PathError

/-- The text of the reason. -/
def message : PathError → String
  | missing => "No such file or directory (os error 2)"
  | notDirectory => "Not a directory (os error 20)"
  | nameTooLong => "File name too long (os error 36)"
  | noPermission => "Permission denied (os error 13)"
  | other text => text

end PathError

/-- The files that a program can open. -/
abbrev Files := String → Except PathError File

/-- A file, or a directory with names for what is in it. -/
inductive FileTree where
  /-- A file with its content. -/
  | file (content : ByteArray)
  /-- A directory. -/
  | directory (entries : List (String × FileTree))

namespace FileTree

/-- The greatest number of bytes of a name. -/
def maxNameLength : Nat := 255

/-- The greatest number of bytes of a path. -/
def maxPathLength : Nat := 4095

/-- What names lead to from a place in a tree with the directories `above` it, the nearest one
first. The empty name stands for no name, but like all names it needs a directory. -/
def walk (here : FileTree) (above : List FileTree) : List String → Except PathError FileTree
  | [] => .ok here
  | name :: names =>
    match here with
    | .file _ => .error .notDirectory
    | .directory entries =>
      if name = "" ∨ name = "." then here.walk above names
      else if name = ".." then
        match above with
        | [] => here.walk [] names
        | parent :: above => parent.walk above names
      else if maxNameLength < byteLength name.toList then .error .nameTooLong
      else
        match entries.lookup name with
        | none => .error .missing
        | some next => next.walk (here :: above) names

/-- What can be opened here. -/
def toFile : FileTree → File
  | .file content => .bytes content
  | .directory _ => .directory

/-- The files below a root, with paths that lead from the root or from a current directory. -/
def files (root : FileTree) (current : List String) : Files := fun path =>
  if path = "" then .error .missing
  else if maxPathLength < byteLength path.toList then .error .nameTooLong
  else
    let names := path.splitOn "/"
    (root.walk [] (if names.head? = some "" then names else current ++ names)).map toFile

end FileTree

end CommandGrammar.CommandLine
