import Groundplan.Text.Digits
import Groundplan.Text.Quoted

/-!
# Grammars of command lines

A grammar has options, which start with dashes, and one place for arguments without dashes: an
optional argument, one argument, or a command with all that follows it. Every argument is first
classified; what is neither option nor number and has dashes in front counts as an option that is
not known. A long option may be shortened as long as only one fits, a short one may be followed by
its value or by further short ones, and after a double dash there are no options any more.
-/

namespace Groundplan.CommandLine

/-- What an option does. -/
inductive Effect where
  | help
  | version (text : String)
  | flag
  | value (choices : List String)
deriving DecidableEq

/-- An option with its spellings, of which the last is its name. -/
structure OptionSpec where
  spellings : List String
  effect : Effect
  isRequired : Bool := false
deriving DecidableEq

namespace OptionSpec

/-- The name under which an option's value is found. -/
def name (o : OptionSpec) : String := o.spellings.getLastD ""

/-- An option as messages call it. -/
def label (o : OptionSpec) : String := "/".intercalate o.spellings

/-- Whether an option has a value. -/
def takesValue (o : OptionSpec) : Bool :=
  match o.effect with
  | .value _ => true
  | _ => false

/-- The option that shows a help text. -/
def help : OptionSpec := ⟨["-h", "--help"], .help, false⟩

end OptionSpec

/-- The place for arguments without dashes. -/
inductive Place where
  | optional
  | one
  | command (choices : List String)
deriving DecidableEq

/-- A grammar: its program's name, its texts, its options and its place for arguments. -/
structure Grammar where
  program : String
  usage : String
  help : String
  options : List OptionSpec
  placeName : String
  place : Place

/-- Why arguments are not accepted. -/
inductive Misuse where
  | ambiguous (argument : String) (candidates : List String)
  | ignoredValue (label value : String)
  | missingValue (label : String)
  | badChoice (label value : String) (choices : List String)
  | missing (labels : List String)
  | unrecognized (arguments : List String)
deriving DecidableEq

/-- The message about arguments that are not accepted. -/
def Misuse.message : Misuse → String
  | .ambiguous argument candidates =>
      s!"ambiguous option: {argument} could match " ++ ", ".intercalate candidates
  | .ignoredValue label value =>
      s!"argument {label}: ignored explicit argument " ++ Text.quoted value
  | .missingValue label => s!"argument {label}: expected one argument"
  | .badChoice label value choices =>
      s!"argument {label}: invalid choice: " ++ Text.quoted value ++ " (choose from " ++
        ", ".intercalate (choices.map Text.quoted) ++ ")"
  | .missing labels => "the following arguments are required: " ++ ", ".intercalate labels
  | .unrecognized arguments => "unrecognized arguments: " ++ " ".intercalate arguments

/-- Why there is nothing to be done for arguments. -/
inductive Stop where
  | help (text : String)
  | version (text : String)
  | misuse (program usage : String) (misuse : Misuse)

namespace Stop

/-- What is printed as an answer. -/
def answer : Stop → String
  | .help text => text
  | .version text => text ++ "\n"
  | .misuse _ _ _ => ""

/-- What is printed as a complaint. -/
def complaint : Stop → String
  | .misuse program usage m => usage ++ s!"{program}: error: {m.message}\n"
  | _ => ""

/-- The exit code. -/
def code : Stop → Nat
  | .misuse _ _ _ => 2
  | _ => 0

end Stop

/-- A value that is written in the argument of its option, after an equals sign or at once. -/
structure Glued where
  afterEquals : Bool
  text : List Char
deriving DecidableEq

/-- An argument that looks like an option, and the option that it spells if there is one. -/
structure Spelled where
  option : Option OptionSpec
  spelling : List Char
  glued : Option Glued

/-- What an argument is. -/
inductive Item where
  | plain (text : String)
  | dashes
  | option (text : String) (spelled : Spelled)

namespace Item

/-- The argument that an item was. -/
def text : Item → String
  | .plain text => text
  | .dashes => "--"
  | .option text _ => text

/-- Whether an item is an option. -/
def isOption : Item → Bool
  | .option _ _ => true
  | _ => false

/-- Whether an item is a double dash. -/
def isDashes : Item → Bool
  | .dashes => true
  | _ => false

end Item

/-- Text before and after the first equals sign. -/
def atEquals? (cs : List Char) : Option (List Char × List Char) :=
  match cs.dropWhile (· != '=') with
  | _ :: after => some (cs.takeWhile (· != '='), after)
  | [] => none

/-- Digits, and at most one point among or before them. -/
def isNumeral (cs : List Char) : Bool :=
  let isDigit (c : Char) : Bool := (Text.decimalValue? c).isSome
  let whole := cs.takeWhile isDigit
  match cs.dropWhile isDigit with
  | [] => !whole.isEmpty
  | '.' :: rest => !rest.isEmpty && rest.all isDigit
  | _ => false

/-- A number below zero, with or without a line break after it. -/
def isNegativeNumber (cs : List Char) : Bool :=
  match cs with
  | '-' :: rest => isNumeral rest || (rest.getLast? == some '\n' && isNumeral rest.dropLast)
  | _ => false

namespace Grammar

/-- The spellings of all options, each with its option. -/
def spellings (g : Grammar) : List (List Char × OptionSpec) :=
  g.options.flatMap fun o => o.spellings.map fun s => (s.toList, o)

/-- The option with exactly this spelling. -/
def optionOf? (g : Grammar) (spelling : List Char) : Option OptionSpec :=
  (g.spellings.find? fun e => e.1 = spelling).map (·.2)

/-- All options that an argument with dashes in front may stand for. -/
def candidates (g : Grammar) (cs : List Char) : List Spelled :=
  if cs.take 2 = ['-', '-'] then
    let (stem, glued) :=
      match atEquals? cs with
      | some (stem, value) => (stem, some (Glued.mk true value))
      | none => (cs, none)
    g.spellings.filterMap fun (spelling, o) =>
      if stem.isPrefixOf spelling then some ⟨some o, spelling, glued⟩ else none
  else
    g.spellings.filterMap fun (spelling, o) =>
      if spelling = cs.take 2 then some ⟨some o, spelling, some ⟨false, cs.drop 2⟩⟩
      else if cs.isPrefixOf spelling then some ⟨some o, spelling, none⟩
      else none

/-- An argument that is not spelt like any option. -/
def classifyUnknown (argument : String) (cs : List Char) : Item :=
  if isNegativeNumber cs || cs.contains ' ' then .plain argument
  else .option argument ⟨none, cs, none⟩

/-- What an argument is. -/
def classify (g : Grammar) (argument : String) : Except Misuse Item :=
  let cs := argument.toList
  if cs.head? ≠ some '-' then .ok (.plain argument)
  else
    match g.optionOf? cs with
    | some o => .ok (.option argument ⟨some o, cs, none⟩)
    | none =>
        if cs.length = 1 then .ok (.plain argument)
        else
          match (atEquals? cs).bind fun (s, v) => (g.optionOf? s).map fun o => (s, v, o) with
          | some (spelling, value, o) =>
              .ok (.option argument ⟨some o, spelling, some ⟨true, value⟩⟩)
          | none =>
              match g.candidates cs with
              | [] => .ok (classifyUnknown argument cs)
              | [spelled] => .ok (.option argument spelled)
              | several =>
                  .error (.ambiguous argument (several.map fun s => String.ofList s.spelling))

/-- What each of a list of arguments is. -/
def classifyAll (g : Grammar) : List String → Except Misuse (List Item)
  | [] => .ok []
  | argument :: rest =>
      if argument = "--" then .ok (.dashes :: rest.map .plain)
      else
        match g.classify argument, g.classifyAll rest with
        | .error m, _ => .error m
        | _, .error m => .error m
        | .ok item, .ok items => .ok (item :: items)

end Grammar

/-- What has been read: the values of options, what took the place for arguments, and what nobody
wants. -/
structure Reading where
  values : List (String × String) := []
  placed : Option (List String) := none
  extras : List String := []

namespace Reading

/-- The value that an option was given last. -/
def value? (r : Reading) (name : String) : Option String :=
  (r.values.reverse.find? fun v => v.1 == name).map (·.2)

/-- Whether an option was given. -/
def has (r : Reading) (name : String) : Bool := r.values.any fun v => v.1 == name

end Reading

/-- Options that follow from one argument: each with its value, what is left over of the argument, and
the items after it. -/
structure Taken where
  options : List (OptionSpec × String)
  extras : List String
  rest : List Item

/-- The value glued to an option that follows another one in the same argument. -/
def gluedAfter : List Char → Option Glued
  | [] => none
  | '=' :: value => some ⟨true, value⟩
  | value => some ⟨false, value⟩

namespace Grammar

/-- Takes an option with its value, and the short options that its argument goes on with. -/
def take (g : Grammar) (rest : List Item) (before : List (OptionSpec × String)) :
    Nat → OptionSpec → List Char → Option Glued → Except Misuse Taken
  | 0, _, _, _ => .ok ⟨before, [], rest⟩
  | fuel + 1, o, spelling, glued =>
      if o.takesValue then
        match glued, rest with
        | some glued, _ => .ok ⟨before ++ [(o, String.ofList glued.text)], [], rest⟩
        | none, .plain value :: rest => .ok ⟨before ++ [(o, value)], [], rest⟩
        | none, _ => .error (.missingValue o.label)
      else
        match glued with
        | none => .ok ⟨before ++ [(o, "")], [], rest⟩
        | some ⟨afterEquals, text⟩ =>
            let ignored := Misuse.ignoredValue o.label (String.ofList text)
            match text with
            | [] => .error ignored
            | c :: more =>
                if spelling[1]? = some '-' || afterEquals || c == '-' then .error ignored
                else
                  match g.optionOf? ['-', c] with
                  | some next =>
                      take g rest (before ++ [(o, "")]) fuel next ['-', c] (gluedAfter more)
                  | none => .ok ⟨before ++ [(o, "")], [String.ofList ('-' :: text)], rest⟩

/-- Arguments are not accepted. -/
def refuse {α : Type} (g : Grammar) (m : Misuse) : Except Stop α :=
  .error (.misuse g.program g.usage m)

/-- Lets an option have its effect. -/
def apply (g : Grammar) (r : Reading) (o : OptionSpec) (value : String) : Except Stop Reading :=
  match o.effect with
  | .help => .error (.help g.help)
  | .version text => .error (.version text)
  | .flag => .ok { r with values := r.values ++ [(o.name, "")] }
  | .value choices =>
      if choices.isEmpty || choices.contains value then
        .ok { r with values := r.values ++ [(o.name, value)] }
      else g.refuse (.badChoice o.label value choices)

/-- Reads the option at the start of what is left. -/
def readOption (g : Grammar) (r : Reading) (argument : String) (spelled : Spelled)
    (rest : List Item) : Except Stop (Reading × List Item) :=
  match spelled.option with
  | none => .ok ({ r with extras := r.extras ++ [argument] }, rest)
  | some o =>
      match g.take rest [] (argument.length + 1) o spelled.spelling spelled.glued with
      | .error m => g.refuse m
      | .ok taken => do
          let r ← taken.options.foldlM (fun r (o, value) => g.apply r o value) r
          return ({ r with extras := r.extras ++ taken.extras }, taken.rest)

/-- The items that take the place for arguments, and those after them. -/
def fill (place : Place) (items : List Item) : Option (List Item × List Item) :=
  let dashes := items.takeWhile Item.isDashes
  match place, items.dropWhile Item.isDashes with
  | .command _, .plain text :: rest => some (dashes ++ .plain text :: rest, [])
  | .one, .plain text :: rest | .optional, .plain text :: rest =>
      some (dashes ++ .plain text :: rest.takeWhile Item.isDashes, rest.dropWhile Item.isDashes)
  | .optional, rest => some (dashes, rest)
  | _, _ => none

/-- Reads what takes the place for arguments, if it is still free and there is something for it. -/
def readPlace (g : Grammar) (r : Reading) (items : List Item) :
    Except Stop (Option (Reading × List Item)) :=
  if r.placed.isSome then .ok none
  else
    match fill g.place items with
    | none => .ok none
    | some (own, rest) =>
        let texts := own.map Item.text
        match g.place with
        | .command choices =>
            let name := texts.headD ""
            if choices.contains name then .ok (some ({ r with placed := some texts }, rest))
            else g.refuse (.badChoice g.placeName name choices)
        | _ => .ok (some ({ r with placed := some (texts.erase "--") }, rest))

/-- What is missing at the end. -/
def missing (g : Grammar) (r : Reading) : List String :=
  (g.options.filter fun o => o.isRequired && !r.has o.name).map OptionSpec.label ++
    (if g.place = .one && r.placed.isNone then [g.placeName] else [])

/-- Reads what is left once there are no options any more. -/
def finish (g : Grammar) (r : Reading) (items : List Item) : Except Stop Reading := do
  let (r, rest) := (← g.readPlace r items).getD (r, items)
  let r := { r with extras := r.extras ++ rest.map Item.text }
  match g.missing r with
  | [] => return r
  | labels => g.refuse (.missing labels)

/-- Reads items in order: options where they stand, and between them what takes the place for
arguments. -/
def readItems (g : Grammar) : Nat → Reading → List Item → Except Stop Reading
  | 0, r, items => g.finish r items
  | _, r, [] => g.finish r []
  | fuel + 1, r, .option argument spelled :: rest => do
      let (r, rest) ← g.readOption r argument spelled rest
      g.readItems fuel r rest
  | fuel + 1, r, items => do
      if items.any Item.isOption then
        match ← g.readPlace r items with
        | some (r, rest) => g.readItems fuel r rest
        | none =>
            let unwanted := items.takeWhile fun item => !item.isOption
            g.readItems fuel { r with extras := r.extras ++ unwanted.map Item.text }
              (items.dropWhile fun item => !item.isOption)
      else g.finish r items

/-- Reads arguments; what nobody wants is left over in the reading. -/
def read (g : Grammar) (arguments : List String) : Except Stop Reading :=
  match g.classifyAll arguments with
  | .error m => g.refuse m
  | .ok items => g.readItems (items.length + 1) {} items

end Grammar

end Groundplan.CommandLine
