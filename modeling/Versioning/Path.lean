/-!
Paths as text.

Names in a path are separated by slashes. Empty names and names `.` change
nothing, except that a relative path may start with `.`, and two paths that
differ in nothing else are the same path. A name `..` is kept as it is, since
what it means depends on the files.
-/

namespace Versioning

/-- What a path says once everything that changes nothing is left out. -/
structure Path where
  absolute : Bool
  names : List String
  deriving DecidableEq, Repr

namespace Path

def separator : Char := '/'

def segments (text : String) : List String :=
  (text.toList.foldr
    (fun c later =>
      if c = separator then
        [] :: later
      else
        match later with
        | segment :: rest => (c :: segment) :: rest
        | [] => [[c]])
    [[]]).map String.ofList

def isAbsolute (text : String) : Bool :=
  text.toList.head? == some separator

def isName (segment : String) : Bool :=
  segment != "" && segment != "."

def ofText (text : String) : Path :=
  let names := (segments text).filter isName
  if isAbsolute text then
    { absolute := true, names }
  else if (segments text).head? == some "." then
    { absolute := false, names := "." :: names }
  else
    { absolute := false, names }

def join (base path : String) : String :=
  if isAbsolute path then
    path
  else if base.isEmpty || base.toList.getLast? == some separator then
    base ++ path
  else
    base ++ "/" ++ path

/-- The segments up to the last one that counts; at the start of a relative
path `.` counts too. -/
def trimRelative (segments : List String) : List String :=
  (segments.zipIdx.reverse.dropWhile fun (segment, index) =>
    ! isName segment && ! (segment == "." && index == 0)).reverse.map Prod.fst

def trimAbsolute (segments : List String) : List String :=
  (segments.reverse.dropWhile fun segment => ! isName segment).reverse

def parent? (text : String) : Option String :=
  if isAbsolute text then
    let names := trimAbsolute (segments text).tail
    if names.isEmpty then none
    else some ("/" ++ "/".intercalate (trimAbsolute names.dropLast))
  else
    let names := trimRelative (segments text)
    if names.isEmpty then none
    else some ("/".intercalate (trimRelative names.dropLast))

end Path

end Versioning
