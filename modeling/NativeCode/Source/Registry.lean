import NativeCode.Source.Loc

/-!
# Registry of source files

Files are numbered from one in the order in which their paths first appear; a path keeps its number
when it is added again.
-/

namespace NativeCode.Source

/-- The registered paths, in the order of their numbers. -/
structure Registry where
  paths : List String := []
  deriving Inhabited

namespace Registry

/-- The number of `path`, together with the registry that knows it. -/
def add (r : Registry) (path : String) : Nat × Registry :=
  match r.paths.idxOf? path with
  | some i => (i + 1, r)
  | none => (r.paths.length + 1, { paths := r.paths ++ [path] })

/-- The path with number `id`, empty if there is none. -/
def path (r : Registry) : Nat → String
  | 0 => ""
  | id + 1 => r.paths[id]?.getD ""

end Registry

end NativeCode.Source
