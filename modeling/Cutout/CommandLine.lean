import Cutout.MetaAttribute
import Cutout.Note
import Cutout.TagRules
/-! The command line. An option with a value waits for it in the next word; the value is read only
when another option is met or the line ends, so an unknown word counts before a bad value. -/
namespace Cutout

structure CommandLine where
  input : Path
  config : Path
  directory : Option Path
  strategy : Option String
  assignments : List String
  overwrite : Bool
  clean : List MetaAttribute
  threads : Option Nat
  verbose : Bool
  noProgress : Bool
  deriving DecidableEq, Repr

inductive UsageFault where
  | help
  | version
  | unknownArgument
  | missingArgument
  | noValue
  | badValue
  | needlessValue
  | repeated
  deriving DecidableEq, Repr

def UsageFault.message : UsageFault → String
  | help => "help"
  | version => "version"
  | unknownArgument => "unexpected argument found"
  | missingArgument => "the required arguments --input and --config were not given"
  | noValue => "a value is required"
  | badValue => "invalid value"
  | needlessValue => "unexpected value"
  | repeated => "an argument cannot be used multiple times"

namespace CommandLine

def versionText : String := "carve 0.1.0"

def usageText : String :=
  "Usage: carve [OPTIONS] --input <INPUT> --config <CONFIG>\n\n" ++
  "Options:\n" ++
  "  -i, --input <INPUT>          Input PBF file, sorted by type then id\n" ++
  "  -c, --config <CONFIG>        Extracts configuration file (YAML, JSON or TOML)\n" ++
  "  -d, --directory <DIRECTORY>  Output directory\n" ++
  "  -s, --strategy <STRATEGY>    Extraction strategy\n" ++
  "  -S, --option <KEY=VALUE>     Strategy option\n" ++
  "      --overwrite              Replace existing output files\n" ++
  "      --clean <CLEAN>          Metadata attributes to leave out\n" ++
  "  -t, --threads <THREADS>      Number of threads\n" ++
  "  -v, --verbose                Enable verbose output\n" ++
  "      --no-progress            Do not show the progress bar\n" ++
  "  -h, --help                   Print help\n" ++
  "  -V, --version                Print version\n"

def shows (c : CommandLine) (n : Note) : Bool := c.verbose || n.level ≠ .info

def showProgress (c : CommandLine) : Bool := !c.noProgress && !c.verbose

inductive Flag where
  | input
  | config
  | directory
  | strategy
  | option
  | overwrite
  | clean
  | threads
  | verbose
  | noProgress
  | help
  | version
  deriving DecidableEq, Repr

namespace Flag

def names : List (String × Option Char × Flag) :=
  [("input", some 'i', input), ("config", some 'c', config), ("directory", some 'd', directory),
    ("strategy", some 's', strategy), ("option", some 'S', option), ("overwrite", none, overwrite),
    ("clean", none, clean), ("threads", some 't', threads), ("verbose", some 'v', verbose),
    ("no-progress", none, noProgress), ("help", some 'h', help), ("version", some 'V', version)]

def ofName? (name : List Char) : Option Flag :=
  (names.find? fun entry => entry.1.toList == name).map (·.2.2)

def ofLetter? (letter : Char) : Option Flag :=
  (names.find? fun entry => entry.2.1 == some letter).map (·.2.2)

def takesValue : Flag → Bool
  | input | config | directory | strategy | option | clean | threads => true
  | overwrite | verbose | noProgress | help | version => false

end Flag

def readPath (value : String) : Except UsageFault Path :=
  if value.isEmpty then .error .noValue else .ok ⟨value⟩

def maxThreads : Nat := 1 <<< 64 - 1

def readThreads (value : String) : Except UsageFault Nat :=
  let digits := match value.toList with
    | '+' :: r => r
    | cs => cs
  if digits.isEmpty || !digits.all Decimal.isDigit || maxThreads < Decimal.natOf digits then
    .error .badValue
  else .ok (Decimal.natOf digits)

def readClean (value : String) : Except UsageFault (List MetaAttribute) :=
  (pieces ',' value.toList).mapM fun name =>
    match MetaAttribute.parse (String.ofList name) with
    | .ok a => .ok a
    | .error _ => .error .badValue

structure Draft where
  input : Option Path
  config : Option Path
  directory : Option Path
  strategy : Option String
  assignments : List String
  overwrite : Bool
  clean : List MetaAttribute
  threads : Option Nat
  verbose : Bool
  noProgress : Bool

namespace Draft

def empty : Draft := ⟨none, none, none, none, [], false, [], none, false, false⟩

def once {α : Type} (given : Bool) (read : Except UsageFault α) : Except UsageFault α :=
  if given then .error .repeated else read

def set (d : Draft) (flag : Flag) (value : String) : Except UsageFault Draft :=
  match flag with
  | .input => do return { d with input := some (← once d.input.isSome (readPath value)) }
  | .config => do return { d with config := some (← once d.config.isSome (readPath value)) }
  | .directory => do
    return { d with directory := some (← once d.directory.isSome (readPath value)) }
  | .strategy => do return { d with strategy := some (← once d.strategy.isSome (.ok value)) }
  | .option => .ok { d with assignments := d.assignments ++ [value] }
  | .clean => do return { d with clean := d.clean ++ (← readClean value) }
  | .threads => do return { d with threads := some (← once d.threads.isSome (readThreads value)) }
  | .overwrite | .verbose | .noProgress | .help | .version => .error .needlessValue

def raise (d : Draft) (flag : Flag) : Except UsageFault Draft :=
  match flag with
  | .overwrite => do return { d with overwrite := ← once d.overwrite (.ok true) }
  | .verbose => do return { d with verbose := ← once d.verbose (.ok true) }
  | .noProgress => do return { d with noProgress := ← once d.noProgress (.ok true) }
  | .help => .error .help
  | .version => .error .version
  | .input | .config | .directory | .strategy | .option | .clean | .threads => .error .noValue

def finish (d : Draft) : Except UsageFault CommandLine :=
  match d.input, d.config with
  | some input, some config => .ok { d with input, config }
  | _, _ => .error .missingArgument

end Draft

abbrev Pending := Option (Flag × Option String)

def settle (d : Draft) : Pending → Except UsageFault Draft
  | none => .ok d
  | some (_, none) => .error .noValue
  | some (flag, some value) => d.set flag value

def readLetters (d : Draft) (p : Pending) : List Char → Except UsageFault (Draft × Pending)
  | [] => .ok (d, p)
  | c :: cs =>
    match Flag.ofLetter? c with
    | none => .error .unknownArgument
    | some flag => do
      if flag.takesValue then
        let d ← settle d p
        match cs with
        | [] => return (d, some (flag, none))
        | '=' :: value => return (← d.set flag (String.ofList value), none)
        | value => return (← d.set flag (String.ofList value), none)
      else
        let d ← settle d p
        readLetters (← d.raise flag) none cs

def readName (d : Draft) (p : Pending) (cs : List Char) : Except UsageFault (Draft × Pending) :=
  let (name, value) := match splitOnce '=' cs with
    | some (name, value) => (name, some (String.ofList value))
    | none => (cs, none)
  match Flag.ofName? name, value with
  | none, _ => .error .unknownArgument
  | some flag, some value =>
    if flag.takesValue then do return (← (← settle d p).set flag value, none)
    else .error .needlessValue
  | some flag, none =>
    if flag.takesValue then do return (← settle d p, some (flag, none))
    else do return (← (← settle d p).raise flag, none)

def readWords (d : Draft) (p : Pending) : List String → Except UsageFault Draft
  | [] => settle d p
  | word :: rest =>
    match word.toList with
    | ['-', '-'] => if rest.isEmpty then settle d p else .error .unknownArgument
    | '-' :: '-' :: cs => do
      let (d, p) ← readName d p cs
      readWords d p rest
    | '-' :: c :: cs => do
      let (d, p) ← readLetters d p (c :: cs)
      readWords d p rest
    | _ =>
      match p with
      | some (flag, none) => readWords d (some (flag, some word)) rest
      | _ => .error .unknownArgument

def parse (words : List String) : Except UsageFault CommandLine := do
  (← readWords .empty none words).finish

end CommandLine
end Cutout
