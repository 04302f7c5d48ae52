import TemplateExpr.Settings.TreePath

/-!
# File trees

A finite tree of directories and files. A path that begins with a slash leads into it from the root, and any other from
the working directory. A segment that stays where it is and two dots, which go up, need a directory like all others.
Names and whole paths may not be too long.
-/

namespace TemplateExpr

/-- What stands at a place of a tree. -/
inductive Entry where
  | directory
  | file (content : ByteArray)
  deriving Inhabited

/-- Why nothing can be read at a path. -/
inductive PathError where
  | notFound
  | notADirectory
  /-- A name or the whole path is too long. -/
  | tooLong
  /-- There is a null character in the path. -/
  | nullCharacter
  deriving DecidableEq

/-- Greatest length of a name in bytes. -/
def nameLimit : Nat := 255

/-- Greatest length of a path in bytes. -/
def pathLimit : Nat := 4095

/-- The entries of a tree by the names on the way to them from the root, and the way to the working directory. Where
there is an entry, all places on the way to it are directories. -/
structure FileTree where
  entries : List (List String × Entry)
  workingDirectory : List String := []
  deriving Inhabited

namespace FileTree

/-- Adds an entry, replacing one that is there. -/
def insert (t : FileTree) (names : List String) (e : Entry) : FileTree := { t with entries := (names, e) :: t.entries }

/-- Entry at a place. -/
def at? (t : FileTree) (names : List String) : Option Entry :=
  match t.entries.find? fun e => e.1 == names with
  | some e => some e.2
  | none => if names = [] || t.entries.any fun e => names.isPrefixOf e.1 then some .directory else none

/-- Follows segments from a directory, given by the names on the way to it, the last one first. The root is its own
parent. -/
def walk (t : FileTree) : List String → List String → Except PathError Entry
  | here, [] =>
    match t.at? here.reverse with
    | some e => .ok e
    | none => .error .notFound
  | here, segment :: rest =>
    match t.at? here.reverse with
    | none => .error .notFound
    | some (.file _) => .error .notADirectory
    | some .directory =>
      if TreePath.isIdle segment then walk t here rest
      else if segment = ".." then walk t here.tail rest
      else if nameLimit < segment.utf8ByteSize then .error .tooLong
      else walk t (segment :: here) rest

/-- Entry at the end of a path. -/
def entry (t : FileTree) (p : TreePath) : Except PathError Entry :=
  if p.text.contains '\x00' then .error .nullCharacter
  else if p.text.isEmpty then .error .notFound
  else if pathLimit < p.text.utf8ByteSize then .error .tooLong
  else t.walk (if p.isAbsolute then [] else t.workingDirectory.reverse) p.segments

def contains (t : FileTree) (p : TreePath) : Bool :=
  match t.entry p with
  | .ok _ => true
  | .error _ => false

end FileTree

end TemplateExpr
