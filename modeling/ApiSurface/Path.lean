/-! Paths as text. -/

namespace ApiSurface.Path

/-- The parts of a path, without those that stay in place. -/
def parts (s : String) : List String := (s.splitOn "/").filter fun x => x ≠ "" && x ≠ "."

/-- What a path begins with: two slashes, but not more, differ from one. -/
def root (s : String) : String :=
  match s.toList with
  | '/' :: '/' :: '/' :: _ => "/"
  | '/' :: '/' :: _ => "//"
  | '/' :: _ => "/"
  | _ => ""

/-- A path without repeated slashes, slashes at its end and parts that stay in place. -/
def normal (s : String) : String :=
  let body := root s ++ String.intercalate "/" (parts s)
  if body = "" then "." else body

/-- A path as seen from a directory. -/
def within (directory s : String) : String :=
  if root s = "" then normal (directory ++ "/" ++ s) else normal s

end ApiSurface.Path
