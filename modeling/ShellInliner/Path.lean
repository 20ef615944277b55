/-! # Paths

    Paths are texts with `/` between their components.  Joining and normalising
    work on the text alone and never look at a disk, so `..` removes the
    component before it. -/

namespace ShellInliner.Path

/-- The components of a path: the texts between its slashes. -/
def components : List Char → List (List Char)
  | [] => [[]]
  | c :: cs =>
    if c == '/' then [] :: components cs
    else
      match components cs with
      | [] => [[c]]
      | l :: ls => (c :: l) :: ls

/-- Does the path start at the root? -/
def isAbsolute (p : List Char) : Bool :=
  p.head? == some '/'

/-- The second path seen from the first: an absolute one stands for itself. -/
def join (base p : List Char) : List Char :=
  if isAbsolute p then p
  else if base.isEmpty || base.getLast? == some '/' then base ++ p
  else base ++ '/' :: p

/-- The slashes a normal path starts with: two stay two, any other number
    greater than zero becomes one. -/
def rootSlashes : List Char → List Char
  | '/' :: '/' :: '/' :: _ => ['/']
  | '/' :: '/' :: _ => ['/', '/']
  | '/' :: _ => ['/']
  | _ => []

/-- Put one more component on a stack of normal components, the last one on
    top: empty components and `.` vanish, `..` takes the top away, and stays
    only where a relative path has nothing left to take. -/
def pushComponent (rooted : Bool) (stack : List (List Char)) (c : List Char) :
    List (List Char) :=
  if c = [] ∨ c = ['.'] then stack
  else if c = ['.', '.'] then
    match stack with
    -- Nothing lies above the root.
    | [] => if rooted then [] else [c]
    | top :: below => if top = ['.', '.'] then c :: stack else below
  else c :: stack

/-- Components with a slash between each two. -/
def joinComponents : List (List Char) → List Char
  | [] => []
  | [c] => c
  | c :: cs => c ++ '/' :: joinComponents cs

/-- The normal form of a path. -/
def normalize (p : List Char) : List Char :=
  let slashes := rootSlashes p
  let stack := (components p).foldl (pushComponent !slashes.isEmpty) []
  let text := slashes ++ joinComponents stack.reverse
  if text.isEmpty then ['.'] else text

/-- The normal absolute form of a path seen from a directory. -/
def absolute (cwd p : List Char) : List Char :=
  normalize (join cwd p)

/-- What stands after the last slash. -/
def baseName (p : List Char) : List Char :=
  (p.reverse.takeWhile (· != '/')).reverse

/-- What stands up to the last slash, without the slashes at its end unless it
    is made of slashes only. -/
def directory (p : List Char) : List Char :=
  let head := (p.reverse.dropWhile (· != '/')).reverse
  let stripped := (head.reverse.dropWhile (· == '/')).reverse
  if stripped.isEmpty then head else stripped

/-- A file name without its extension.  The extension starts at the last dot;
    dots that the name starts with never start one. -/
def stem (name : List Char) : List Char :=
  match name.reverse.dropWhile (· != '.') with
  | [] => name
  -- Nothing but dots stands before the last dot, so it starts no extension.
  | _ :: before => if before.all (· == '.') then name else before.reverse

/-- The name of the module that a file holds: its file name without the
    extension. -/
def moduleName (p : List Char) : List Char :=
  stem (baseName p)

/-- A path that starts with `~` and nothing or a slash after it starts at the
    home directory instead. -/
def expandHome (home p : List Char) : List Char :=
  match p with
  | '~' :: rest =>
    if rest.isEmpty || rest.head? == some '/' then
      let text := (home.reverse.dropWhile (· == '/')).reverse ++ rest
      if text.isEmpty then ['/'] else text
    -- The home of another user is not looked up.
    else p
  | _ => p

/-- The files an import may mean: the path as written, seen from the directory
    of the importing script, and the same path with the extension. -/
def candidates (cwd base argument extension : List Char) : List (List Char) :=
  let path := absolute cwd (join base argument)
  [path, path ++ extension]

end ShellInliner.Path
