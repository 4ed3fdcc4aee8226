import Provenance.CommandLine.Outcome

/-!
An interface that reads the arguments of the program from left to right. What comes first counts: a
request for help or for the version wins over everything behind it, and a mistake over a request
behind the mistake. Behind two dashes alone, every argument is a path.
-/
namespace Provenance.CommandLine

inductive Stop
  | help
  | version
  | mistake (message : Text)
deriving DecidableEq

inductive ValueOption
  | exclude | timeout | completions
deriving DecidableEq, Repr

inductive LongOption
  | help | version | all | json
  | valued (o : ValueOption)
deriving DecidableEq, Repr

namespace LongOption

def table : List (Text × LongOption) :=
  [("help".toList, help), ("version".toList, version), ("all".toList, all), ("json".toList, json),
    ("exclude".toList, valued .exclude), ("timeout".toList, valued .timeout),
    ("completions".toList, valued .completions)]

/-- The option of a name, which has to be written out. -/
def ofName? (name : Bytes) : Option LongOption :=
  (table.find? fun entry => Utf8.encode entry.1 == name).map Prod.snd

end LongOption

/-- The number that decimal digits spell, a plus sign in front allowed, if it fits in 64 bits. -/
def number? (t : Text) : Option Nat :=
  let digits := match t with
    | '+' :: t => t
    | t => t
  if digits.isEmpty || !digits.all Char.isDigit then none
  else
    let n := digits.foldl (fun n c => 10 * n + (c.toNat - 48)) 0
    if n < 0x10000000000000000 then some n else none

def mistake {α : Type} (reason : Text) (argument : Bytes) : Except Stop α :=
  throw (.mistake (reason ++ " '".toList ++ Utf8.decode argument ++ "'".toList))

/-- An option or a path without the value that it needs. -/
def missingValue {α : Type} (name : Text) : Except Stop α :=
  throw (.mistake ("a value is required for ".toList ++ name))

def repeated {α : Type} : Except Stop α :=
  throw (.mistake "an option cannot be used multiple times".toList)

def takePath (i : Invocation) (bytes : Bytes) : Except Stop Invocation :=
  if bytes = [] then missingValue "[PATHS]...".toList
  else pure { i with paths := i.paths ++ [⟨bytes⟩] }

def takeValue (i : Invocation) (o : ValueOption) (bytes : Bytes) : Except Stop Invocation :=
  match o with
  | .exclude =>
    if Utf8.isValid bytes then pure { i with patterns := i.patterns ++ [Utf8.decode bytes] }
    else mistake "invalid UTF-8 in".toList bytes
  | .timeout =>
    if i.timeout.isSome then repeated
    else
      match number? (Utf8.decode bytes) with
      | some n => pure { i with timeout := some n }
      | none => mistake "invalid value".toList bytes
  | .completions =>
    if i.completions.isSome then repeated
    else
      match Shell.ofName? bytes with
      | some shell => pure { i with completions := some shell }
      | none => mistake "invalid value".toList bytes

/-- What an argument is by its first characters. -/
inductive Form
  | path
  /-- Two dashes alone. -/
  | endOfOptions
  /-- The name behind two dashes, and what follows an equals sign. -/
  | long (name : Bytes) (value : Option Bytes)
  /-- The letters behind one dash. -/
  | short (letters : Bytes)
deriving DecidableEq

def Form.of : Bytes → Form
  | 0x2D :: 0x2D :: [] => .endOfOptions
  | 0x2D :: 0x2D :: rest =>
    .long (rest.takeWhile (· != 0x3D)) ((rest.dropWhile (· != 0x3D)).tail?)
  | 0x2D :: b :: rest => .short (b :: rest)
  | _ => .path

/-- What a long option does at once, or the option whose value is still to come. -/
def takeLong (i : Invocation) (argument name : Bytes) (value : Option Bytes) :
    Except Stop (Invocation × Option ValueOption) :=
  match LongOption.ofName? name, value with
  | some .help, none => throw .help
  | some .version, none => throw .version
  | some .all, none => if i.all then repeated else pure ({ i with all := true }, none)
  | some .json, none => if i.json then repeated else pure ({ i with json := true }, none)
  | some (.valued o), none => pure (i, some o)
  | some (.valued o), some value => do pure (← takeValue i o value, none)
  | _, _ => mistake "unexpected argument".toList argument

/-- Reads on with the arguments that are left; `waiting` is an option whose value comes next, and
`pathsOnly` holds behind two dashes alone. -/
def readFrom (i : Invocation) (waiting : Option ValueOption) (pathsOnly : Bool) :
    List Bytes → Except Stop Invocation
  | [] => if waiting.isSome then missingValue "the last option".toList else pure i
  | argument :: rest =>
    if pathsOnly then do readFrom (← takePath i argument) none true rest
    else
      match waiting, Form.of argument with
      | some o, .path => do readFrom (← takeValue i o argument) none false rest
      | some _, _ => missingValue "the option in front".toList
      | none, .path => do readFrom (← takePath i argument) none false rest
      | none, .endOfOptions => readFrom i none true rest
      | none, .long name value => do
        let (i, waiting) ← takeLong i argument name value
        readFrom i waiting false rest
      | none, .short letters =>
        match letters.head? with
        | some 0x68 => throw .help
        | some 0x56 => throw .version
        | _ => mistake "unexpected argument".toList argument

def read (arguments : List Bytes) : Except Stop Invocation :=
  readFrom .none none false arguments

def programName : Text := "genmark".toList

def version : Text := programName ++ " 0.1.0".toList

def options : List Text :=
  ["--all".toList, "--json".toList, "--exclude".toList, "--timeout".toList,
    "--completions".toList, "--help".toList, "--version".toList]

def usage : Text :=
  joinWith ['\n']
    ["Find generated source files by name and leading marker comments.".toList,
      [],
      "Usage: genmark [OPTIONS] [PATHS]...".toList,
      [],
      "  [PATHS]...               Files or directories to classify [default: .]".toList,
      "  --all                    List every file, not just generated ones".toList,
      "  --json                   Machine-readable JSON output".toList,
      "  --exclude <GLOB>         Skip files whose name or relative path matches".toList,
      "  --timeout <SECS>         Stop classifying after this many seconds".toList,
      "  --completions <SHELL>    Print shell completions for the given shell".toList,
      "  -h, --help               Print help".toList,
      "  -V, --version            Print version".toList]

def completionScript (shell : Shell) : Text :=
  let words := joinWith [' '] options
  match shell with
  | .bash => "complete -o default -W '".toList ++ words ++ "' genmark".toList
  | .zsh => "#compdef genmark\n_arguments ".toList ++ words ++ " '*:file:_files'".toList
  | .fish => "complete -c genmark -a '".toList ++ words ++ "'".toList
  | .elvish =>
    "set edit:completion:arg-completer[genmark] = \x7b|@args| put ".toList ++ words ++
      " \x7d".toList
  | .powershell =>
    "Register-ArgumentCompleter -Native -CommandName genmark -ScriptBlock \x7b '".toList ++ words ++
      "'.Split(' ') \x7d".toList

def interface : Interface where
  read arguments :=
    match read arguments with
    | .ok i => .ok i
    | .error .help => .error (.success usage)
    | .error .version => .error (.success version)
    | .error (.mistake message) => .error (.failure 2 ("error: ".toList ++ message))
  completions shell := completionScript shell ++ ['\n']

end Provenance.CommandLine
