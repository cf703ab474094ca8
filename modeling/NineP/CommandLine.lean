import NineP.Config

/-!
# Command lines

A command line has options, a command and the command's own arguments. An
option is given once, as `--name value`, `--name=value` or in its short form,
or else taken from a variable of the environment. A command line may also ask
for no more than the version of the program.

* `Settings.config_eq_ok`: the settings of a command line are acceptable ones.
-/

namespace NineP

/-- What the user wants to see. -/
inductive Command where
  | list (path : String) (long : Bool)
  | cat (path : String)
  | stat (path : String)
  | statfs
  | readlink (path : String)
  deriving DecidableEq, Repr

/-- An option of the command line. -/
inductive Setting where
  | remote
  | station
  | subnetMask
  | uname
  | aname
  | msize
  | timeout
  deriving DecidableEq, Repr

/-- Read a whole number of 32 bits, which may have a sign. -/
def readMsize? (s : String) : Option UInt32 :=
  match s.toList with
  | '-' :: digits => (Text.readDigits? 10 digits).bind fun n => if n = 0 then some 0 else none
  | _ => (Text.readNatural? (UInt32.size - 1) s).map UInt32.ofNat

/-- Read a number of milliseconds. -/
def readTimeout? (s : String) : Option UInt64 :=
  (Text.readNatural? (UInt64.size - 1) s).map UInt64.ofNat

namespace Setting

def all : List Setting := [remote, station, subnetMask, uname, aname, msize, timeout]

/-- The name behind two dashes. -/
def longName : Setting → String
  | remote => "remote"
  | station => "station"
  | subnetMask => "subnet-mask"
  | uname => "uname"
  | aname => "aname"
  | msize => "msize"
  | timeout => "timeout-ms"

/-- The letter behind one dash. -/
def shortName? : Setting → Option Char
  | remote => some 'r'
  | uname => some 'u'
  | aname => some 'a'
  | _ => none

/-- The variable that holds the value if the option is not given. -/
def environmentName : Setting → String
  | remote => Config.remoteVariable
  | station => Config.stationVariable
  | subnetMask => Config.maskVariable
  | uname => Config.unameVariable
  | aname => Config.anameVariable
  | msize => Config.msizeVariable
  | timeout => Config.timeoutVariable

/-- Whether a text can be the value of an option. -/
def accepts (s : Setting) (value : String) : Bool :=
  match s with
  | msize => (readMsize? value).isSome
  | timeout => (readTimeout? value).isSome
  | _ => true

def ofLongName? (name : String) : Option Setting := all.find? fun s => s.longName == name

def ofShortName? (c : Char) : Option Setting := all.find? fun s => s.shortName? == some c

end Setting

/-- What a command line says. -/
inductive CommandLine where
  /-- It asks for the version of the program. -/
  | version
  /-- It gives values to options, and a command. -/
  | work (given : List (Setting × String)) (command : Command)
  deriving DecidableEq, Repr

namespace CommandLine

/-! ## Options -/

/-- What an argument in front of the command is. -/
inductive Argument where
  /-- An option, with its value if that is part of the argument. -/
  | option (setting : Setting) (value : Option String)
  /-- The flag that asks for the version. -/
  | version
  | word (text : String)
  | unknown
  deriving DecidableEq, Repr

/-- Tell what an argument in front of the command is. A dash alone is a word. -/
def classify (arg : String) : Argument :=
  match arg.toList with
  | '-' :: '-' :: name =>
    let (name, value) := match Text.splitFirst? '=' name with
      | some (name, value) => (name, some (String.ofList value))
      | none => (name, none)
    match Setting.ofLongName? (String.ofList name) with
    | some setting => .option setting value
    | none => if arg = "--version" then .version else .unknown
  | '-' :: c :: rest =>
    match Setting.ofShortName? c with
    | some setting =>
      let value := match rest with
        | [] => none
        | '=' :: value => some (String.ofList value)
        | value => some (String.ofList value)
      .option setting value
    | none => if c = 'V' then .version else .unknown
  | _ => .word arg

/-- Whether an argument can be the value of the option before it. -/
def isValue (arg : String) : Bool :=
  match arg.toList with
  | '-' :: _ :: _ => false
  | _ => true

/-! ## Arguments of commands -/

/-- The arguments of a command: its words and how often the flag for long
listings is there. Behind two dashes everything is a word. -/
def commandWords (allowLong : Bool) : List String → Option (List String × Nat)
  | [] => some ([], 0)
  | "--" :: words => some (words, 0)
  | arg :: args => do
    let (words, flags) ← commandWords allowLong args
    if arg = "--long" then if allowLong then some (words, flags + 1) else none
    else
      match arg.toList with
      | '-' :: '-' :: _ => none
      | '-' :: c :: cs =>
        if allowLong && (c :: cs).all (· == 'l') then some (words, flags + cs.length + 1) else none
      | _ => some (arg :: words, flags)

/-- Read a command and its arguments. -/
def parseCommand (name : String) (args : List String) : Option Command := do
  let (words, flags) ← commandWords (name == "ls") args
  match name, words, flags with
  | "ls", [], 0 => some (.list "/" false)
  | "ls", [], 1 => some (.list "/" true)
  | "ls", [path], 0 => some (.list path false)
  | "ls", [path], 1 => some (.list path true)
  | "cat", [path], _ => some (.cat path)
  | "stat", [path], _ => some (.stat path)
  | "statfs", [], _ => some .statfs
  | "readlink", [path], _ => some (.readlink path)
  | _, _, _ => none

/-! ## The whole line -/

/-- Add the value of an option to those in `given`. An option is given once
only, and a value that it accepts. -/
def give (given : List (Setting × String)) (s : Setting) (value : String) :
    Option (List (Setting × String)) :=
  if (given.lookup s).isNone && s.accepts value then some ((s, value) :: given) else none

/-- Read the arguments behind the options in `given`. What follows the question
for the version is not looked at. -/
def parseFrom (given : List (Setting × String)) : List String → Option CommandLine
  | [] => none
  | arg :: args =>
    match classify arg with
    | .unknown => none
    | .version => some .version
    | .word name => (parseCommand name args).map (.work given)
    | .option setting (some value) => do
      let given ← give given setting value
      parseFrom given args
    | .option setting none =>
      match args with
      | [] => none
      | value :: args => do
        if !isValue value then none
        let given ← give given setting value
        parseFrom given args

end CommandLine

/-- A command with every option's value. -/
structure Settings where
  remote : String
  station : Option String
  subnetMask : Option String
  uname : String
  aname : String
  msize : UInt32
  timeout : Option UInt64
  command : Command
  deriving DecidableEq, Repr

namespace Settings

/-- The value of an option, given or taken from the environment. -/
def value? (given : List (Setting × String)) (environment : String → Option String)
    (s : Setting) : Option String :=
  match given.lookup s with
  | some value => some value
  | none => environment s.environmentName

/-- The settings for a command, unless the server is missing or the environment
holds a value that an option does not accept. -/
def gather (given : List (Setting × String)) (environment : String → Option String)
    (command : Command) : Option Settings := do
  let value := value? given environment
  let remote ← value .remote
  let msize ← match value .msize with
    | some text => readMsize? text
    | none => some defaultMsize
  let timeout ← match value .timeout with
    | some text => (readTimeout? text).map some
    | none => some none
  pure
    { remote, station := value .station, subnetMask := value .subnetMask,
      uname := (value .uname).getD "root", aname := (value .aname).getD "",
      msize, timeout, command }

/-- The settings of the connection. -/
def config (s : Settings) : Except Error Config := do
  let remote ← parseDial s.remote defaultPort
  let station ← s.station.mapM fun text => do
    let (address, port) ← parseIPv4Address text 0
    pure (SocketAddress.v4 address port)
  let subnetMask ← s.subnetMask.mapM parseIPv4
  let config : Config :=
    { station, subnetMask, remote, uname := s.uname, aname := s.aname,
      msize := s.msize, timeout := s.timeout }
  config.validate
  pure config

theorem config_eq_ok {s : Settings} {c : Config} (h : s.config = .ok c) : c.validate = .ok () := by
  simp only [config, bind, Except.bind, pure, Except.pure] at h
  repeat' split at h
  all_goals first | (cases h; done) | skip
  all_goals
    cases h
    assumption

end Settings

/-- What the program is asked for. -/
inductive Invocation where
  | version
  | work (settings : Settings)
  deriving DecidableEq, Repr

/-- Understand a command line in an environment, or nothing if it makes no
sense. -/
def Invocation.parse (args : List String) (environment : String → Option String) :
    Option Invocation := do
  match ← CommandLine.parseFrom [] args with
  | .version => pure .version
  | .work given command => (Settings.gather given environment command).map .work

end NineP
