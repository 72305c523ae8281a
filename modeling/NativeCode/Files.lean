/-!
# Trees of files

A tree of files is given by the contents of its files. A directory is there when some file lies
below it, and the root is always there. Path texts are read relative to the root.
-/

namespace NativeCode

/-- The components of a path from the root of a tree. -/
abbrev Path := List String

/-- The files of a tree with their contents, one entry a path. -/
structure Files where
  entries : List (Path × String) := []
  deriving DecidableEq, Inhabited

namespace Files

def contents? (fs : Files) (path : Path) : Option String := fs.entries.lookup path

/-- A directory is the root or a place with a file below it. -/
def isDirectory (fs : Files) (path : Path) : Bool :=
  path.isEmpty || fs.entries.any fun (file, _) => path.isPrefixOf file && path.length < file.length

/-- The names of the files and directories in a directory, in order. -/
def names (fs : Files) (here : Path) : List String :=
  let below := fs.entries.filterMap fun (file, _) =>
    if here.isPrefixOf file then (file.drop here.length).head? else none
  below.eraseDups.mergeSort fun a b => !decide (b < a)

/-- The place reached from a place by further components, each looked up in a directory. -/
def walk (fs : Files) (here : Path) : List String → Option Path
  | [] => some here
  | c :: cs =>
    if !fs.isDirectory here then none
    else if c = "" || c = "." then fs.walk here cs
    else if c = ".." then if here.isEmpty then none else fs.walk here.dropLast cs
    else fs.walk (here ++ [c]) cs

/-- The place that a path text names. Only places of the tree can be named. -/
def locate (fs : Files) (text : String) : Option Path :=
  match text.splitOn "/" with
  | "" :: _ => none
  | components => fs.walk [] components

def read? (fs : Files) (text : String) : Option String := fs.locate text >>= fs.contents?

/-- The tree with a file at a place, instead of any earlier file there. -/
def put (fs : Files) (path : Path) (contents : String) : Files :=
  { entries := (path, contents) :: fs.entries.filter (·.1 != path) }

/-- The tree after writing the file that a path text names. A directory cannot be written. -/
def write? (fs : Files) (text contents : String) : Option Files := do
  let path ← fs.locate text
  if fs.isDirectory path then none else some (fs.put path contents)

/-- The tree that holds given files, directories included. -/
def ofList (files : List (String × String)) : Files :=
  files.foldl (fun fs (name, contents) => fs.put (name.splitOn "/") contents) {}

def pathText (path : Path) : String := "/".intercalate path

/-- The files that are new or changed since an earlier tree, ordered by name. -/
def changes (fs earlier : Files) : List (String × String) :=
  let changed := fs.entries.filter fun (path, contents) => earlier.contents? path != some contents
  (changed.map fun (path, contents) => (pathText path, contents)).mergeSort
    fun a b => !decide (b.1 < a.1)

theorem contents?_put (fs : Files) (path : Path) (contents : String) :
    (fs.put path contents).contents? path = some contents := by
  simp [put, contents?]

end Files

end NativeCode
