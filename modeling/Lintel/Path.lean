import Lintel.Text.Split

/-!
# Paths

Paths are texts whose components are separated by `/`. They are put together, normalised and
compared by their components only; no file is looked at.

`Path.normalize` drops empty components and `.`, and lets `..` take back the component before it.
A path keeps one leading slash, or two if it had exactly two. `Path.absolute` puts the working
directory in front first, and `Path.relative` leads from one place to another.
-/

namespace Lintel

namespace Path

/-- The components of a path, empty ones included. -/
def components (p : String) : List String :=
  splitText '/' p

/-- Components with slashes between them. -/
def ofComponents (cs : List String) : String :=
  "/".intercalate cs

def isAbsolute (p : String) : Bool :=
  p.toList.head? == some '/'

/-- The path `b` as seen from the directory `a`. -/
def join (a b : String) : String :=
  if isAbsolute b then b
  else if a.isEmpty || a.toList.getLast? == some '/' then a ++ b
  else a ++ "/" ++ b

/-- The number of leading slashes that a normalised path keeps. -/
def leadingSlashes (p : String) : Nat :=
  match p.toList with
  | '/' :: '/' :: '/' :: _ => 1
  | '/' :: '/' :: _ => 2
  | '/' :: _ => 1
  | _ => 0

/-- Add a component to normalised ones, given in reverse. -/
def pushComponent (rooted : Bool) (done : List String) (c : String) : List String :=
  if c = "" || c = "." then done
  else if c = ".." then
    match done with
    -- the root is its own parent; from elsewhere the way up has to be kept
    | [] => if rooted then [] else [".."]
    | last :: before => if last = ".." then ".." :: last :: before else before
  else c :: done

def normalize (p : String) : String :=
  if p.isEmpty then "."
  else
    let slashes := leadingSlashes p
    let cs := ((components p).foldl (pushComponent (slashes != 0)) []).reverse
    let text := String.ofList (List.replicate slashes '/') ++ ofComponents cs
    -- the components have taken each other back
    if text.isEmpty then "." else text

def absolute (cwd p : String) : String :=
  normalize (if isAbsolute p then p else join cwd p)

def names (p : String) : List String :=
  (components p).filter (· ≠ "")

/-- The components that lead from one place to another, both given from the root. -/
def between : List String → List String → List String
  | a :: as, b :: bs =>
    if a = b then between as bs else List.replicate (a :: as).length ".." ++ b :: bs
  | as, bs => List.replicate as.length ".." ++ bs

def relative (cwd p start : String) : String :=
  match between (names (absolute cwd start)) (names (absolute cwd p)) with
  -- the two places are one
  | [] => "."
  | cs => ofComponents cs

def stripSlashes (p : String) : String :=
  String.ofList (p.toList.reverse.dropWhile (· = '/')).reverse

/-- The part up to the last slash and the part after it. The first part has no slash at its end
unless it has nothing else. -/
def split (p : String) : String × String :=
  let cs := p.toList
  let tail := (cs.reverse.takeWhile (· ≠ '/')).reverse
  let head := cs.take (cs.length - tail.length)
  let head := if head.all (· = '/') then head else (head.reverse.dropWhile (· = '/')).reverse
  (String.ofList head, String.ofList tail)

end Path

end Lintel
