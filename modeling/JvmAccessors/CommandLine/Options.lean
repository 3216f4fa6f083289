import JvmAccessors.Accessor.Build

/-!
# Command line options

The command line names classes and, before, between or after them, directories to look for them in (`--cp DIR`, any
number of times), what the names of accessors start with (`--prefix TEXT`, once) and whether to tell everything that
happens (`-v` or `--verbose`, once). A value follows its option or stands behind `=`; after `--` all arguments name
classes. `Options.parse` reads the arguments.
-/

namespace JvmAccessors

/-- Why a command line is refused. -/
inductive UsageError
  | unknownOption (option : String)
  | missingValue (option : String)
  | unexpectedValue (option : String)
  | repeatedOption (option : String)
  | noClasses
  deriving DecidableEq, Repr

/-- The wording of a refusal. -/
def UsageError.message : UsageError → String
  | .unknownOption option => s!"unexpected argument '{option}'"
  | .missingValue option => s!"a value is required for '{option}'"
  | .unexpectedValue option => s!"no value is expected for '{option}'"
  | .repeatedOption option => s!"the argument '{option}' cannot be used multiple times"
  | .noClasses => "no class is given"

/-- What the command line asks for. -/
structure Options where
  classes : List String
  /-- The directories to look for them in. -/
  roots : List String
  /-- What the names of accessors start with, if it is given. -/
  start : Option String
  verbose : Bool
  deriving DecidableEq, Repr

namespace Options

/-- Nothing asked for. -/
def blank : Options := ⟨[], [], none, false⟩

/-- An argument on its own. -/
inductive Argument
  /-- The mark after which all arguments name classes. -/
  | endOfOptions
  /-- An option with a long name, and the value behind `=`. -/
  | long (name : String) (value : Option String)
  /-- Options with short names. -/
  | short (letters : List Char)
  | positional
  deriving DecidableEq, Repr

/-- What an argument looks like. -/
def Argument.ofChars : List Char → Argument
  | ['-', '-'] => .endOfOptions
  | '-' :: '-' :: cs =>
    .long (String.ofList (cs.takeWhile (· ≠ '='))) <|
      match cs.dropWhile (· ≠ '=') with
      | [] => none
      | _ :: value => some (String.ofList value)
  | ['-'] => .positional
  | '-' :: cs => .short cs
  | _ => .positional

/-- What an argument looks like. -/
def Argument.ofString (arg : String) : Argument := .ofChars arg.toList

/-- The options that take a value. -/
inductive Valued
  | classPath | start
  deriving DecidableEq, Repr

/-- The long name of an option that takes a value. -/
def Valued.name : Valued → String
  | classPath => "cp"
  | start => "prefix"

/-- The option that takes a value and has a long name. -/
def Valued.ofName? (name : String) : Option Valued :=
  if name = classPath.name then some classPath else if name = start.name then some start else none

/-- Notes the value of an option. -/
def setValue (o : Options) (option : Valued) (value : String) : Except UsageError Options :=
  match option, o.start with
  | .classPath, _ => .ok { o with roots := o.roots ++ [value] }
  | .start, none => .ok { o with start := some value }
  | .start, some _ => .error (.repeatedOption ("--" ++ option.name))

/-- Notes that everything is to be told. -/
def setVerbose (o : Options) : Except UsageError Options :=
  if o.verbose then .error (.repeatedOption "--verbose") else .ok { o with verbose := true }

/-- Notes options with short names. -/
def setLetters (o : Options) : List Char → Except UsageError Options
  | [] => .ok o
  | 'v' :: rest => do setLetters (← o.setVerbose) rest
  | c :: _ => .error (.unknownOption (String.ofList ['-', c]))

/-- Reads arguments after those noted. -/
def read (o : Options) : List String → Except UsageError Options
  | [] => .ok o
  | arg :: rest =>
    match Argument.ofString arg with
    | .endOfOptions => .ok { o with classes := o.classes ++ rest }
    | .positional => read { o with classes := o.classes ++ [arg] } rest
    | .short letters =>
      match o.setLetters letters with
      | .error e => .error e
      | .ok o => read o rest
    | .long name value =>
      if name = "verbose" then
        match value, o.setVerbose with
        | some _, _ => .error (.unexpectedValue arg)
        | none, .error e => .error e
        | none, .ok o => read o rest
      else
        match Valued.ofName? name, value, rest with
        | none, _, _ => .error (.unknownOption arg)
        | some _, none, [] => .error (.missingValue arg)
        | some option, none, next :: rest =>
          if Argument.ofString next = .positional then
            match o.setValue option next with
            | .error e => .error e
            | .ok o => read o rest
          else .error (.missingValue arg)
        | some option, some value, rest =>
          match o.setValue option value with
          | .error e => .error e
          | .ok o => read o rest

/-- The options that a command line gives. -/
def parse (args : List String) : Except UsageError Options :=
  match blank.read args with
  | .error e => .error e
  | .ok o => if o.classes = [] then .error .noClasses else .ok o

/-- The class path; without directories, the current one. -/
def classPath (o : Options) : List String := if o.roots = [] then ["."] else o.roots

/-- What the names of accessors start with. -/
def nameStart (o : Options) : String := o.start.getD AccessorMap.defaultStart

end Options
end JvmAccessors
