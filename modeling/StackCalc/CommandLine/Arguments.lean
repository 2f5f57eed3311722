import StackCalc.CommandLine.Host
import StackCalc.Text.Split

/-!
The arguments of the program: options in their short and long forms, and files. Arguments count from
left to right, and the first one that asks for help or for the version, or that is wrong, decides.
-/
namespace StackCalc.CommandLine

/-- Why the arguments do not ask for a run. -/
inductive Stop where
  | help
  | version
  | wrongUsage
  deriving DecidableEq, Repr

/-- An option by its name, with or without a value. -/
inductive Flag where
  | interactive
  | noPrelude
  | verbose
  | help
  | version
  deriving DecidableEq, Repr

inductive Parameter where
  | expression
  | settingsFile
  | maxDepth
  deriving DecidableEq, Repr

inductive Name where
  | flag (flag : Flag)
  | parameter (parameter : Parameter)
  deriving DecidableEq, Repr

def Name.ofShort? : Char → Option Name
  | 'e' => some (.parameter .expression)
  | 'i' => some (.flag .interactive)
  | 'v' => some (.flag .verbose)
  | 'h' => some (.flag .help)
  | 'V' => some (.flag .version)
  | _ => none

def Name.ofLong? : String → Option Name
  | "eval" => some (.parameter .expression)
  | "interactive" => some (.flag .interactive)
  | "no-prelude" => some (.flag .noPrelude)
  | "config" => some (.parameter .settingsFile)
  | "max-depth" => some (.parameter .maxDepth)
  | "verbose" => some (.flag .verbose)
  | "help" => some (.flag .help)
  | "version" => some (.flag .version)
  | _ => none

/-- The largest nesting depth that can be asked for, in 64 bits. -/
def maxNumber : Nat := UInt64.size - 1

/-- A natural number in ASCII digits, with a plus sign or without. -/
def number? (text : String) : Option Nat :=
  let digits := match text.toList with
    | '+' :: rest => rest
    | digits => digits
  if !digits.isEmpty && digits.all Char.isDigit then
    some (Nat.ofDigitChars 10 digits 0) |>.filter (· ≤ maxNumber)
  else none

namespace Options

/-- Adds a file, whose path is not empty. -/
def withFile (o : Options) (path : String) : Except Stop Options :=
  if path.isEmpty then .error .wrongUsage else .ok { o with files := o.files ++ [path] }

/-- Sets a flag, which may be given once. -/
def withFlag (o : Options) : Flag → Except Stop Options
  | .interactive => if o.interactive then .error .wrongUsage else .ok { o with interactive := true }
  | .noPrelude => if o.noPrelude then .error .wrongUsage else .ok { o with noPrelude := true }
  | .verbose => if o.verbose then .error .wrongUsage else .ok { o with verbose := true }
  | .help => .error .help
  | .version => .error .version

/-- Gives a parameter its value, which may be done once. -/
def withParameter (o : Options) (parameter : Parameter) (value : String) : Except Stop Options :=
  match parameter with
  | .expression =>
    if o.expression.isSome then .error .wrongUsage else .ok { o with expression := some value }
  | .settingsFile =>
    if o.settingsFile.isSome || value.isEmpty then .error .wrongUsage
    else .ok { o with settingsFile := some value }
  | .maxDepth =>
    match number? value with
    | some depth =>
      if o.maxDepth.isSome then .error .wrongUsage else .ok { o with maxDepth := some depth }
    | none => .error .wrongUsage

end Options

/-- The parts of an argument. -/
inductive Argument where
  /-- Two dashes alone: only files follow. -/
  | endOfOptions
  /-- Two dashes, a name, and perhaps a value behind an equals sign. -/
  | long (name : String) (value : Option String)
  /-- One dash and letters. -/
  | short (letters : List Char)
  | file (path : String)
  deriving DecidableEq, Repr

def Argument.ofString (text : String) : Argument :=
  match text.toList with
  | ['-', '-'] => .endOfOptions
  | '-' :: '-' :: rest =>
    let name := String.ofList (rest.takeWhile (· != '='))
    match rest.dropWhile (· != '=') with
    | [] => .long name none
    | _ :: value => .long name (some (String.ofList value))
  | '-' :: first :: letters => .short (first :: letters)
  | _ => .file text

/-- The options after the letters of a short argument, and a parameter whose value is yet to come.
A parameter takes what is left of the letters, behind an equals sign or not. -/
def readLetters (o : Options) : List Char → Except Stop (Options × Option Parameter)
  | [] => .ok (o, none)
  | letter :: rest =>
    match Name.ofShort? letter with
    | none => .error .wrongUsage
    | some (.flag flag) =>
      match o.withFlag flag with
      | .error stop => .error stop
      | .ok o => readLetters o rest
    | some (.parameter parameter) =>
      match rest with
      | [] => .ok (o, some parameter)
      | '=' :: value => (o.withParameter parameter (String.ofList value)).map (·, none)
      | value => (o.withParameter parameter (String.ofList value)).map (·, none)

/-- The options after one argument, and a parameter whose value is yet to come. -/
def readArgument (o : Options) : Argument → Except Stop (Options × Option Parameter)
  | .endOfOptions => .ok (o, none)
  | .file path => (o.withFile path).map (·, none)
  | .short letters => readLetters o letters
  | .long name value =>
    match Name.ofLong? name, value with
    | none, _ | some (.flag _), some _ => .error .wrongUsage
    | some (.flag flag), none => (o.withFlag flag).map (·, none)
    | some (.parameter parameter), none => .ok (o, some parameter)
    | some (.parameter parameter), some value =>
      (o.withParameter parameter value).map (·, none)

/-- The options after further arguments. The value of a parameter does not look like an option. -/
def readArguments (o : Options) : List String → Except Stop Options
  | [] => .ok o
  | text :: rest =>
    match Argument.ofString text with
    | .endOfOptions => rest.foldlM Options.withFile o
    | argument =>
      match readArgument o argument with
      | .error stop => .error stop
      | .ok (o, none) => readArguments o rest
      | .ok (o, some parameter) =>
        match rest with
        | [] => .error .wrongUsage
        | value :: rest =>
          match Argument.ofString value with
          | .file value =>
            match o.withParameter parameter value with
            | .error stop => .error stop
            | .ok o => readArguments o rest
          | _ => .error .wrongUsage

/-- What the arguments of the program ask for. -/
def Options.ofArguments (arguments : List String) : Except Stop Options :=
  readArguments {} arguments

def versionLine : String :=
  "calcr 0.3.0\n"

def helpLines : List String :=
  ["Postfix stack calculator and REPL",
    "",
    "Usage: calcr [OPTIONS] [FILES]...",
    "",
    "Arguments:",
    "  [FILES]...  Source files to load before anything else",
    "",
    "Options:",
    "  -e, --eval <EXPR>    Evaluate an expression and print the top of the stack",
    "  -i, --interactive    Start the REPL even after loading files or evaluating -e",
    "      --no-prelude     Start without the standard word library",
    "      --config <PATH>  Engine configuration file (TOML)",
    "      --max-depth <N>  Maximum nesting of words and quotations",
    "  -v, --verbose        Log engine activity (definitions, prelude loading) to stderr",
    "  -h, --help           Print help",
    "  -V, --version        Print version"]

def Report.text (text : String) : Report where
  output := { written := (Output.bytes text).toArray }

/-- The report of a run that its arguments end. -/
def Report.ofStop : Stop → Report
  | .help => .text (String.join (helpLines.map (· ++ "\n")))
  | .version => .text versionLine
  | .wrongUsage => { exitCode := 2 }

end StackCalc.CommandLine
