import CilAudit.Text

/-!
# Paths

File names with slashes between their components, handled as text: nothing here looks at a
file system.
-/

set_option autoImplicit false

namespace CilAudit.Path

def isAbsolute (path : Text) : Bool := path.head? = some 0x2F

/-- One more component on a stack with the last component on top. A step to the parent
cancels the component before it; at the top of an absolute path it stays there. -/
def push (isRooted : Bool) (stack : List Text) (part : Text) : List Text :=
  if part.isEmpty ∨ part = "." then stack
  else if part = ".." then
    match stack with
    | [] => if isRooted then [] else [part]
    | last :: rest => if last = ".." then part :: stack else rest
  else part :: stack

/-- The components of a path, without those that say nothing. -/
def components (path : Text) : List Text :=
  ((Text.splitAt 0x2F path).foldl (push (isAbsolute path)) []).reverse

/-- The shortest path with the same components. -/
def clean (path : Text) : Text :=
  let body := Text.joinWith "/" (components path)
  if isAbsolute path then "/" ++ body else if body.isEmpty then "." else body

/-- The parts one below another; empty parts are left out. -/
def join (parts : List Text) : Text :=
  let parts := parts.filter (!·.isEmpty)
  if parts.isEmpty then [] else clean (Text.joinWith "/" parts)

/-- A path as seen from a directory. -/
def absolute (directory path : Text) : Text :=
  if isAbsolute path then clean path else join [directory, path]

/-- A path and the directories above it, up to the top. -/
def ancestors (path : Text) : List Text :=
  let parts := components path
  (List.range (parts.length + 1)).reverse.map fun n =>
    let body := Text.joinWith "/" (parts.take n)
    if isAbsolute path then "/" ++ body else if n = 0 then "." else body

/-- The directory that holds a path. -/
def directory (path : Text) : Text :=
  match Text.cutAtLast (· = 0x2F) path with
  | some (before, _) => clean (before ++ "/")
  | none => "."

/-- The last component. -/
def base (path : Text) : Text :=
  if path.isEmpty then "."
  else
    let trimmed : Text := (path.reverse.dropWhile (· = 0x2F)).reverse
    if trimmed.isEmpty then "/"
    else ((Text.cutAtLast (· = 0x2F) trimmed).map (·.2)).getD trimmed

/-- From the last dot on, if no slash follows it. -/
def extension (path : Text) : Text :=
  match path.cutAtLast fun b => b = 0x2E || b = 0x2F with
  | some (before, after) => if path[before.length]? = some 0x2E then 0x2E :: after else []
  | none => []

/-- The last component without its extension. -/
def title (path : Text) : Text := (base path).trimEnd (extension path)

/-- A name in which every byte that is awkward in a file name is replaced, cut to a length
that file systems take. -/
def fileName (name : Text) : Text :=
  let awkward : Text := "/\\:*?\"<>| (,"
  let byte (b : UInt8) : Text :=
    if b = 0x29 then [] else if awkward.elem b then [0x5F] else [b]
  (name.escapeWith byte).take 200

end CilAudit.Path
