import LoxTokens.Arguments.Basic

/-!
Reading arguments from left to right.

A value that is attached to its option counts at once. A value that stands by itself, like a script,
is held back until the next known option, the script, or the end: only then is it looked at. So an
unknown option is found before a fault of what was held back. After `--` every argument is
positional.

The environment fills in what was not given, once all arguments were read; last of all a script and
a text to scan exclude each other.
-/

namespace LoxTokens.Arguments

/-- The options that take a value. -/
inductive Setting where
  | eval | log | color
  deriving DecidableEq, Repr

/-- The options that take none. -/
inductive Flag where
  | verbose | help | version
  deriving DecidableEq, Repr

/-- An option that the program knows. -/
inductive KnownOption where
  | setting (setting : Setting)
  | flag (flag : Flag)
  deriving DecidableEq, Repr

def longNames : List (Text × KnownOption) :=
  [("eval", .setting .eval), ("log", .setting .log), ("color", .setting .color),
   ("verbose", .flag .verbose), ("help", .flag .help), ("version", .flag .version)]

def letters : List (Char × KnownOption) :=
  [('e', .setting .eval), ('v', .flag .verbose), ('h', .flag .help), ('V', .flag .version)]

/-- What an argument looks like. -/
inductive Shape where
  /-- Two dashes alone. -/
  | separator
  /-- Two dashes, a name, and what follows the first equals sign after them. -/
  | long (name : Text) (value : Option Text)
  /-- What follows a single dash. -/
  | cluster (letters : Text)
  /-- Anything else, also a dash alone. -/
  | plain
  deriving DecidableEq, Repr

/-- What an argument looks like. -/
def Shape.of : Text → Shape
  | '-' :: '-' :: [] => .separator
  | '-' :: '-' :: rest =>
      .long (rest.takeWhile (· != '=')) (rest.dropWhile (· != '=')).tail?
  | '-' :: c :: rest => .cluster (c :: rest)
  | _ => .plain

structure Given where
  script : Option Text := none
  eval : Option Text := none
  log : Option Text := none
  verbose : Bool := false
  color : Option ColorChoice := none
  deriving DecidableEq, Repr

/-- What is held back. -/
inductive Held where
  | nothing
  /-- An option that waits for its value. -/
  | waiting (setting : Setting)
  /-- An option with a value that stood by itself. -/
  | value (setting : Setting) (value : Text)
  | script (path : Text)
  deriving DecidableEq, Repr

/-- What was read so far. -/
structure Progress where
  given : Given := {}
  held : Held := .nothing
  deriving DecidableEq, Repr

/-- What a step of reading gives. -/
abbrev Reading := Except Interruption

def refuse {α : Type} (error : UsageError) : Reading α := .error (.refused error)

/-- The colour choice with a spelling; another spelling is refused. -/
def readColor (t : Text) : Reading ColorChoice :=
  match ColorChoice.ofText? t with
  | some choice => .ok choice
  | none => refuse .invalidValue

namespace Given

/-- Gives an option its value; a second value is refused. -/
def set (g : Given) : Setting → Text → Reading Given
  | .eval, v => if g.eval.isSome then refuse .argumentConflict else .ok { g with eval := some v }
  | .log, v => if g.log.isSome then refuse .argumentConflict else .ok { g with log := some v }
  | .color, v =>
      if g.color.isSome then refuse .argumentConflict
      else (readColor v).map fun choice => { g with color := some choice }

/-- Gives the script; an empty path is refused. -/
def setScript (g : Given) (path : Text) : Reading Given :=
  if path.isEmpty then refuse .invalidValue else .ok { g with script := some path }

end Given

namespace Progress

/-- Looks at what is held back. -/
def settle (p : Progress) : Reading Given :=
  match p.held with
  | .nothing => .ok p.given
  | .waiting _ => refuse .invalidValue
  | .value setting v => p.given.set setting v
  | .script path => p.given.setScript path

def hasScript (p : Progress) : Bool :=
  match p.held with
  | .script _ => true
  | _ => p.given.script.isSome

/-- Meets a flag, by its long name or by its letter. -/
def flag (p : Progress) (long : Bool) (flag : Flag) : Reading Progress := do
  let given ← p.settle
  match flag with
  | .verbose =>
      if given.verbose then refuse .argumentConflict
      else .ok ⟨{ given with verbose := true }, .nothing⟩
  | .help => .error (.help long)
  | .version => .error .version

/-- Meets an option, with the value attached to it if there is one. -/
def setting (p : Progress) (setting : Setting) (attached : Option Text) : Reading Progress := do
  let given ← p.settle
  match attached with
  | some v => (given.set setting v).map (⟨·, .nothing⟩)
  | none => .ok ⟨given, .waiting setting⟩

/-- Meets a long name, with what follows its equals sign. -/
def long (p : Progress) (name : Text) (value : Option Text) : Reading Progress :=
  match longNames.lookup name with
  | none => refuse .unknownArgument
  | some (.setting s) => p.setting s value
  | some (.flag f) => if value.isSome then refuse .tooManyValues else p.flag true f

/-- The value in the rest of a cluster: one equals sign is dropped, and nothing is no value. -/
def attached? : Text → Option Text
  | [] => none
  | '=' :: v => some v
  | v => some v

/-- Meets the letters of a cluster, one by one. -/
def cluster (p : Progress) : Text → Reading Progress
  | [] => .ok p
  | c :: rest =>
      match letters.lookup c with
      | none => refuse .unknownArgument
      | some (.setting s) => p.setting s (attached? rest)
      | some (.flag f) => do (← p.flag false f).cluster rest

/-- Meets a positional argument; there is room for one. -/
def positional (p : Progress) (path : Text) : Reading Progress :=
  if p.hasScript then refuse .unknownArgument
  else p.settle.map (⟨·, .script path⟩)

/-- Meets an argument that is no option: a value that is waited for, or else positional. -/
def plain (p : Progress) (argument : Text) : Reading Progress :=
  match p.held with
  | .waiting setting => .ok { p with held := .value setting argument }
  | _ => p.positional argument

/-- Meets arguments in order. -/
def meet (p : Progress) : List Text → Reading Progress
  | [] => .ok p
  | argument :: rest =>
      match Shape.of argument with
      | .separator => rest.foldlM positional p
      | .long name value => do (← p.long name value).meet rest
      | .cluster letters => do (← p.cluster letters).meet rest
      | .plain => do (← p.plain argument).meet rest

end Progress

/-- Reads the command line alone. -/
def readGiven (arguments : List Text) : Reading Given := do
  (← Progress.meet {} arguments).settle

/-- The colour choice that was given, else the one of the environment, else the automatic one. -/
def Given.chooseColor (g : Given) (environment : Environment) : Reading ColorChoice :=
  match g.color, environment.color with
  | some choice, _ => .ok choice
  | none, some t => readColor t
  | none, none => .ok .auto

/-- The arguments with a colour choice, unless both a script and a text to scan were given. -/
def Given.complete (g : Given) (environment : Environment) (color : ColorChoice) :
    Reading Arguments :=
  if g.script.isSome && g.eval.isSome then refuse .argumentConflict
  else .ok { g with log := g.log <|> environment.log, color }

/-- Fills in from the environment what was not given. -/
def Given.fill (g : Given) (environment : Environment) : Reading Arguments :=
  (g.chooseColor environment).bind (g.complete environment)

def read (arguments : List Text) (environment : Environment) : Reading Arguments := do
  (← readGiven arguments).fill environment

end LoxTokens.Arguments
