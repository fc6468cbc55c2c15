import Groundplan.Text.Blank
import Groundplan.Text.Split

/-!
# Paths

Paths with slashes. A path that does not start with one counts from a working directory. Normalising
drops empty and single-dot components and lets a double dot take away the component before it; two
slashes at the start stay two, more become one. A tilde stands for the home directory, and a name
after a dollar sign for a variable of the environment.
-/

namespace Groundplan

/-- The working directory and the variables that paths are read in. -/
structure Environment where
  cwd : String
  vars : List (String × String) := []

namespace Environment

/-- The value of a variable. -/
def value? (env : Environment) (name : String) : Option String :=
  (env.vars.find? fun v => v.1 == name).map (·.2)

end Environment

namespace Path

/-- A path that starts at the root. -/
def isAbsolute (path : String) : Bool := path.toList.head? == some '/'

/-- A path seen from a directory. -/
def join (directory path : String) : String :=
  if isAbsolute path then path
  else if directory.isEmpty || directory.toList.getLast? == some '/' then directory ++ path
  else directory ++ "/" ++ path

/-- One more component after those kept so far, the last of which comes first. -/
def pushComponent (absolute : Bool) (kept : List String) (component : String) : List String :=
  if component.isEmpty || component == "." then kept
  else if component != ".." then component :: kept
  else
    match kept with
    | [] => if absolute then [] else [".."]
    | last :: before => if last == ".." then ".." :: kept else before

/-- The components of a path that count. -/
def components (path : String) : List String :=
  ((Text.split '/' path).foldl (pushComponent (isAbsolute path)) []).reverse

/-- The slashes at the start of a normal path. -/
def leadingSlashes (path : String) : String :=
  match path.toList with
  | '/' :: '/' :: '/' :: _ => "/"
  | '/' :: '/' :: _ => "//"
  | '/' :: _ => "/"
  | _ => ""

/-- The shortest path that reads the same. -/
def normalize (path : String) : String :=
  let text := leadingSlashes path ++ "/".intercalate (components path)
  if text.isEmpty then "." else text

/-- A path from the root on. -/
def absolute (env : Environment) (path : String) : String :=
  normalize (if isAbsolute path then path else join env.cwd path)

/-- A list without the slashes at its end. -/
def dropSlashes (cs : List Char) : List Char := (cs.reverse.dropWhile (· == '/')).reverse

/-- A path as the directory before its last slash, and what follows that. -/
def splitLast (path : String) : String × String :=
  let backwards := path.toList.reverse
  let tail := (backwards.takeWhile (· != '/')).reverse
  let head := (backwards.dropWhile (· != '/')).reverse
  let head := if head.all (· == '/') then head else dropSlashes head
  (String.ofList head, String.ofList tail)

/-- The directory before the last slash of a path. -/
def directory (path : String) : String := (splitLast path).1

/-- A path with a tilde at its start replaced by the home directory. -/
def expandHome (env : Environment) (path : String) : String :=
  match path.toList with
  | '~' :: rest =>
      if rest.isEmpty || rest.head? == some '/' then
        match env.value? "HOME" with
        | some home =>
            let expanded := dropSlashes home.toList ++ rest
            if expanded.isEmpty then "/" else String.ofList expanded
        | none => path
      else path
  | _ => path

/-- Whether a path starts with the home directory of a user by a name that cannot be looked up,
since it has a null character. -/
def hasNullUser (path : String) : Bool :=
  match path.toList with
  | '~' :: rest => (rest.takeWhile (· != '/')).contains '\x00'
  | _ => false

/-- A character of a variable's name. -/
def isNameChar (c : Char) : Bool := c.isAlphanum || c == '_'

/-- The variable named at the start of what follows a dollar sign: its name, and what follows. -/
def variableName? (cs : List Char) : Option (String × List Char) :=
  match cs with
  | '\x7b' :: rest =>
      match rest.dropWhile (· != '\x7d') with
      | _ :: after => some (String.ofList (rest.takeWhile (· != '\x7d')), after)
      | [] => none
  | _ =>
      match cs.takeWhile isNameChar with
      | [] => none
      | name => some (String.ofList name, cs.dropWhile isNameChar)

/-- A list with the variables that are set replaced by their values, which are not read again. -/
def expandChars (env : Environment) : Nat → List Char → List Char
  | 0, cs => cs
  | _, [] => []
  | fuel + 1, c :: rest =>
      if c = '$' then
        match variableName? rest with
        | some (name, after) =>
            match env.value? name with
            | some value => value.toList ++ expandChars env fuel after
            | none => (c :: rest.take (rest.length - after.length)) ++ expandChars env fuel after
        | none => c :: expandChars env fuel rest
      else c :: expandChars env fuel rest

/-- A path with the variables that are set replaced by their values. -/
def expandVariables (env : Environment) (path : String) : String :=
  String.ofList (expandChars env path.length path.toList)

/-- The absolute path that a setting means; a blank one means the fallback. Embeds
`normalize_path`. -/
def resolve (env : Environment) (path fallback : String) : String :=
  let stripped := Text.strip path
  let chosen := if stripped.isEmpty then fallback else stripped
  absolute env (expandVariables env (expandHome env chosen))

end Path

end Groundplan
