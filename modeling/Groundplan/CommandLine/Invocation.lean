import Groundplan.CommandLine.Grammar
import Groundplan.Document.Basic

/-!
# Invocations

What the program can be told on its command line: options for all commands, and a command with options
of its own. Usage and help texts are set for eighty columns.
-/

namespace Groundplan.CommandLine

/-- The document that a command is about: a file, a stack, or whatever there is. -/
structure DocumentChoice where
  file : Option String
  stack : Option String
deriving DecidableEq

/-- What there is to be done. -/
inductive Command where
  | summary (choice : DocumentChoice)
  | check (choice : DocumentChoice) (kind : TypedKind) (type : String) (properties : Option String)
  | synth (target : String)
deriving DecidableEq

/-- The program's arguments, taken in. -/
structure Invocation where
  settingsPath : Option String
  outputDir : Option String
  dumpsSettings : Bool
  isDebug : Bool
  isJson : Bool
  command : Option Command
deriving DecidableEq

/-- The program's name. -/
def programName : String := "tfsynth"

/-- Lines with a line break after each. -/
def lines (ls : List String) : String := String.join (ls.map (· ++ "\n"))

/-- The names of the commands. -/
def commandNames : List String := ["summary", "check", "synth"]

/-- The name of the place for a command. -/
def commandPlace : String := "command"

/-- How the program is used. -/
def programUsage : String := lines
  ["usage: tfsynth [-h] [--version] [--config CONFIG_PATH] [-o OUTPUT_DIR]",
   "               [--dump-config] [--debug] [--json]",
   "               \x7bsummary,check,synth\x7d ..."]

/-- The arguments that hold for all commands, and the command. Embeds `build_parser`. -/
def programGrammar : Grammar where
  program := programName
  usage := programUsage
  help := programUsage ++ lines
    ["",
     "Synthesize construct trees and inspect Terraform JSON documents.",
     "",
     "positional arguments:",
     "  \x7bsummary,check,synth\x7d",
     "    summary             List the blocks of a synthesized document.",
     "    check               Assert that a block exists, optionally with",
     "                        properties.",
     "    synth               Build an app from Python code and write its documents.",
     "",
     "options:",
     "  -h, --help            show this help message and exit",
     "  --version             show program's version number and exit",
     "  --config CONFIG_PATH  Path of the project config file (default:",
     "                        ./tfsynth.json).",
     "  -o OUTPUT_DIR, --output-dir OUTPUT_DIR",
     "                        Base directory of synthesized stacks (overrides",
     "                        config).",
     "  --dump-config         Print the effective configuration and exit.",
     "  --debug               Elevate logging verbosity to DEBUG.",
     "  --json                Print machine-readable JSON instead of text."]
  options :=
    [.help, ⟨["--version"], .version s!"{programName} {Groundplan.version}", false⟩,
     ⟨["--config"], .value [], false⟩, ⟨["-o", "--output-dir"], .value [], false⟩,
     ⟨["--dump-config"], .flag, false⟩, ⟨["--debug"], .flag, false⟩, ⟨["--json"], .flag, false⟩]
  placeName := commandPlace
  place := .command commandNames

/-- The option that names a stack. -/
def stackOption : OptionSpec := ⟨["-s", "--stack"], .value [], false⟩

/-- How a summary is asked for. -/
def summaryUsage : String := lines ["usage: tfsynth summary [-h] [-s STACK] [file]"]

/-- The help on the arguments that choose a document. -/
def choiceHelp : List String :=
  ["",
   "positional arguments:",
   "  file                  Path of a cdk.tf.json document.",
   "",
   "options:",
   "  -h, --help            show this help message and exit",
   "  -s STACK, --stack STACK",
   "                        Stack name to resolve under '<output-dir>/stacks/'."]

/-- The arguments of a summary. -/
def summaryGrammar : Grammar where
  program := programName ++ " summary"
  usage := summaryUsage
  help := summaryUsage ++ lines choiceHelp
  options := [.help, stackOption]
  placeName := "file"
  place := .optional

/-- How a check is asked for. -/
def checkUsage : String := lines
  ["usage: tfsynth check [-h] [-s STACK] -t TYPE_TAG [-k \x7bresource,data,provider\x7d]",
   "                     [-p PROPERTIES]",
   "                     [file]"]

/-- The arguments of a check. -/
def checkGrammar : Grammar where
  program := programName ++ " check"
  usage := checkUsage
  help := checkUsage ++ lines (choiceHelp ++
    ["  -t TYPE_TAG, --type TYPE_TAG",
     "                        Type tag to look for, e.g. docker_container.",
     "  -k \x7bresource,data,provider\x7d, --kind \x7bresource,data,provider\x7d",
     "                        Block kind to search (default: resource).",
     "  -p PROPERTIES, --properties PROPERTIES",
     "                        JSON object that the block properties must contain."])
  options :=
    [.help, stackOption, ⟨["-t", "--type"], .value [], true⟩,
     ⟨["-k", "--kind"], .value (TypedKind.all.map TypedKind.name), false⟩,
     ⟨["-p", "--properties"], .value [], false⟩]
  placeName := "file"
  place := .optional

/-- How a synthesis is asked for. -/
def synthUsage : String := lines ["usage: tfsynth synth [-h] target"]

/-- The arguments of a synthesis. -/
def synthGrammar : Grammar where
  program := programName ++ " synth"
  usage := synthUsage
  help := synthUsage ++ lines
    ["",
     "positional arguments:",
     "  target      Builder callable as 'module:function'; it receives the App to",
     "              populate.",
     "",
     "options:",
     "  -h, --help  show this help message and exit"]
  options := [.help]
  placeName := "target"
  place := .one

namespace Reading

/-- What took the place for one argument. -/
def argument? (r : Reading) : Option String := r.placed.bind List.head?

/-- The document that arguments choose. -/
def choice (r : Reading) : DocumentChoice := ⟨r.argument?, r.value? "--stack"⟩

end Reading

namespace Command

/-- Reads a command's own arguments; what nobody wants is left over. -/
def ofArguments (name : String) (arguments : List String) :
    Except Stop (Command × List String) :=
  if name = "summary" then do
    let r ← summaryGrammar.read arguments
    return (.summary r.choice, r.extras)
  else if name = "check" then do
    let r ← checkGrammar.read arguments
    let kind := ((r.value? "--kind").bind TypedKind.ofName?).getD .resource
    return (.check r.choice kind ((r.value? "--type").getD "") (r.value? "--properties"), r.extras)
  else do
    let r ← synthGrammar.read arguments
    return (.synth (r.argument?.getD ""), r.extras)

end Command

namespace Invocation

/-- Takes the program's arguments in. -/
def ofArguments (arguments : List String) : Except Stop Invocation := do
  let r ← programGrammar.read arguments
  let (command, extras) ←
    match r.placed with
    | some (name :: rest) => do
        let (command, extras) ← Command.ofArguments name rest
        pure (some command, extras)
    | _ => pure (none, [])
  match r.extras ++ extras with
  | [] =>
      return { settingsPath := r.value? "--config"
               outputDir := r.value? "--output-dir"
               dumpsSettings := r.has "--dump-config"
               isDebug := r.has "--debug"
               isJson := r.has "--json"
               command := command }
  | unwanted => programGrammar.refuse (.unrecognized unwanted)

end Invocation

end Groundplan.CommandLine
