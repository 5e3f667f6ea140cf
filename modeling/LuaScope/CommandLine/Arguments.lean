import LuaScope.Decimal.Basic

/-!
# LuaScope.CommandLine.Arguments

What the arguments of the program ask for. Options may stand anywhere behind the program's name, a
value follows its option as the next argument, behind `=` or, for a short one, glued to it.
-/

namespace LuaScope

inductive Command where
  /-- Line and column count from one. -/
  | definition (file : String) (line column : Nat) (root : Option String)
  | symbols (file : String) (all : Bool)
  | check (file : String)
  | modules (root : Option String)
  | config
  | version
deriving Repr, DecidableEq

structure Invocation where
  config : Option String
  command : Command
deriving Repr, DecidableEq

inductive UsageError where
  | unknownCommand (name : String)
  | noCommand
  | unexpected (argument : String)
  | missingValue (option : String)
  | repeated (option : String)
  | missing (what : String)
  | notANumber (text : String)
deriving Repr, DecidableEq

def UsageError.message : UsageError → String
  | .unknownCommand name => "error: unrecognized subcommand '" ++ name ++ "'\n"
  | .noCommand => "error: a subcommand is required\n"
  | .unexpected argument => "error: unexpected argument '" ++ argument ++ "' found\n"
  | .missingValue option => "error: a value is required for '" ++ option ++ "'\n"
  | .repeated option => "error: the argument '" ++ option ++ "' cannot be used multiple times\n"
  | .missing what => "error: the required argument <" ++ what ++ "> was not provided\n"
  | .notANumber text => "error: invalid value '" ++ text ++ "'\n"

structure SortedArguments where
  /-- Values of options and `none` for flags, by their long names. -/
  options : List (String × Option String) := []
  positional : List String := []
deriving Repr, DecidableEq

namespace SortedArguments

def option? (a : SortedArguments) (name : String) : Option String :=
  (a.options.lookup name).bind id

def has (a : SortedArguments) (name : String) : Bool := (a.options.lookup name).isSome

end SortedArguments

/-- Options that a value follows, with their short letters, and flags. -/
structure OptionNames where
  valued : List (String × Option Char)
  flags : List (String × Option Char)

namespace OptionNames

def long? (names : OptionNames) (name : String) : Option Bool :=
  if (names.valued.lookup name).isSome then some true
  else if (names.flags.lookup name).isSome then some false
  else none

def short? (names : OptionNames) (c : Char) : Option (String × Bool) :=
  match names.valued.find? (fun n => n.2 = some c) with
  | some (name, _) => some (name, true)
  | none => (names.flags.find? (fun n => n.2 = some c)).map (fun (name, _) => (name, false))

end OptionNames

namespace SortedArguments

/-- Set an option that is not set yet. -/
def setOption (a : SortedArguments) (name : String) (v : Option String) :
    Except UsageError SortedArguments :=
  if a.has name then .error (.repeated name) else .ok { a with options := (name, v) :: a.options }

/-- The name of an option and a value behind `=`, from an argument without its hyphens. -/
def splitEquals (cs : List Char) : String × Option String :=
  let name := cs.takeWhile (· != '=')
  (String.ofList name,
    if name.length < cs.length then some (String.ofList (cs.drop (name.length + 1))) else none)

/-- Does the argument look like an option? A lone hyphen does not. -/
def isOption (argument : String) : Bool :=
  match argument.toList with
  | '-' :: _ :: _ => true
  | _ => false

/-- Flags in one argument behind a single hyphen, and perhaps an option with the rest as its
value; the option's name is answered if its value has to come next. -/
def addShort (names : OptionNames) (a : SortedArguments) :
    List Char → Except UsageError (SortedArguments × Option String)
  | [] => .ok (a, none)
  | c :: cs =>
    match names.short? c with
    | none => .error (.unexpected ("-" ++ String.singleton c))
    | some (name, false) =>
      match a.setOption name none with
      | .error e => .error e
      | .ok a => addShort names a cs
    | some (name, true) =>
      match cs with
      | [] => .ok (a, some name)
      | cs =>
        let v := match cs with
          | '=' :: v => v
          | v => v
        (a.setOption name (some (String.ofList v))).map (·, none)

def addLong (names : OptionNames) (a : SortedArguments) (cs : List Char) :
    Except UsageError (SortedArguments × Option String) :=
  let (name, v) := splitEquals cs
  match names.long? name, v with
  | none, _ => .error (.unexpected ("--" ++ name))
  | some true, none => .ok (a, some name)
  | some true, some v => (a.setOption name (some v)).map (·, none)
  | some false, none => (a.setOption name none).map (·, none)
  | some false, some _ => .error (.unexpected ("--" ++ name))

/-- Sort arguments; `pending` is an option that waits for its value. -/
def sort (names : OptionNames) (a : SortedArguments) (pending : Option String) :
    List String → Except UsageError SortedArguments
  | [] =>
    match pending with
    | some name => .error (.missingValue name)
    | none => .ok { a with positional := a.positional.reverse }
  | argument :: rest =>
    match pending with
    | some name =>
      if isOption argument then .error (.missingValue name)
      else
        match a.setOption name (some argument) with
        | .error e => .error e
        | .ok a => sort names a none rest
    | none =>
      if argument = "--" then
        .ok { a with positional := a.positional.reverse ++ rest }
      else
        let added := match argument.toList with
          | '-' :: '-' :: cs => addLong names a cs
          | '-' :: c :: cs => addShort names a (c :: cs)
          | _ => .ok ({ a with positional := argument :: a.positional }, none)
        match added with
        | .error e => .error e
        | .ok (a, pending) => sort names a pending rest

end SortedArguments

namespace Invocation

def number (text : String) : Except UsageError Nat :=
  let (negative, ds) := Decimal.splitSign text.toList
  if !negative && !ds.isEmpty && ds.all Char.isDigit && Decimal.ofDigits ds < Nat.pow 2 32 then
    .ok (Decimal.ofDigits ds)
  else .error (.notANumber text)

def commonOptions : List (String × Option Char) := [("config", some 'c')]

def rootOption : List (String × Option Char) := [("root", none)]

def namesOf? (command : String) : Option OptionNames :=
  match command with
  | "definition" | "modules" => some ⟨commonOptions ++ rootOption, []⟩
  | "symbols" => some ⟨commonOptions, [("all", some 'a')]⟩
  | "check" | "config" => some ⟨commonOptions, []⟩
  | _ => none

def noMore (command : Command) : List String → Except UsageError Command
  | [] => .ok command
  | argument :: _ => .error (.unexpected argument)

def commandOf (name : String) (a : SortedArguments) : Except UsageError Command :=
  let root := a.option? "root"
  match name, a.positional with
  | "definition", file :: line :: column :: rest =>
    match number line, number column with
    | .ok line, .ok column => noMore (.definition file line column root) rest
    | .error e, _ => .error e
    | _, .error e => .error e
  | "definition", [_, _] => .error (.missing "COLUMN")
  | "definition", [_] => .error (.missing "LINE")
  | "symbols", file :: rest => noMore (.symbols file (a.has "all")) rest
  | "check", file :: rest => noMore (.check file) rest
  | "modules", rest => noMore (.modules root) rest
  | "config", rest => noMore .config rest
  | _, _ => .error (.missing "FILE")

/-- Take the options in front of the command's name; answers the settings file, the name and what
follows it. -/
def splitCommand (config pending : Option String) :
    List String → Except UsageError (Option String × String × List String)
  | [] => .error (match pending with
      | some name => .missingValue name
      | none => .noCommand)
  | argument :: rest =>
    let names : OptionNames := ⟨commonOptions, [("version", some 'V')]⟩
    let start : SortedArguments :=
      { options := config.toList.map (fun path => ("config", some path)) }
    match pending with
    | some name =>
      if SortedArguments.isOption argument then .error (.missingValue name)
      else if config.isSome then .error (.repeated name)
      else splitCommand (some argument) none rest
    | none =>
      let added := match argument.toList with
        | '-' :: '-' :: cs => some (start.addLong names cs)
        | '-' :: c :: cs => some (start.addShort names (c :: cs))
        | _ => none
      match added with
      | none => .ok (config, argument, rest)
      | some (.error e) => .error e
      | some (.ok (a, pending)) =>
        if a.has "version" then .ok (config, "--version", [])
        else splitCommand (a.option? "config") pending rest

def ofArguments (arguments : List String) : Except UsageError Invocation :=
  match splitCommand none none arguments with
  | .error e => .error e
  | .ok (config, "--version", _) => .ok ⟨config, .version⟩
  | .ok (config, name, rest) =>
    match namesOf? name with
    | none => .error (.unknownCommand name)
    | some names =>
      match SortedArguments.sort names {} none rest with
      | .error e => .error e
      | .ok a =>
        match commandOf name a with
        | .error e => .error e
        | .ok command => .ok ⟨(a.option? "config").orElse (fun _ => config), command⟩

end Invocation

end LuaScope
