/-!
# Command line arguments

A command is one of three words. Options that hold for all commands may stand before and after that
word; the ones after it win.

1. No option may come twice on the same side of the word.
2. The value of an option follows an equals sign or is the next argument, which must not look like
   an option itself. Paths must not be empty.
3. The first fault, or the first question for the version or for help, ends the reading.
-/

namespace NodeRanking

namespace Command

/-- What the program does. -/
inductive Action where
  | score (snapshot : String) (json : Bool)
  | place (snapshot : String) (json : Bool)
  | settings
deriving DecidableEq

/-- An action and the settings file for it. -/
structure Invocation where
  config : Option String
  action : Action
deriving DecidableEq

/-- What arguments ask for. -/
inductive Request where
  | run (invocation : Invocation)
  | version
  | help
  | misuse
deriving DecidableEq

/-- Where an argument stands: before the word of the command, or after it. -/
inductive Level where
  | top
  | score
  | place
  | settings
deriving DecidableEq

/-- The level that the word of a command opens. -/
def Level.ofWord? : String → Option Level
  | "score" => some .score
  | "place" => some .place
  | "config" => some .settings
  | _ => none

/-- Whether a level belongs to a command that reads a snapshot. -/
def Level.readsSnapshot (level : Level) : Bool := level = .score || level = .place

/-- The options of a level as far as they have been read. -/
structure Options where
  config : Option String
  logLevel : Option String
  verbose : Bool
  snapshot : Option String
  json : Bool

/-- No options. -/
def Options.none : Options := ⟨.none, .none, false, .none, false⟩

/-- A value put where none may be yet. -/
def setOnce (value : String) : Option String → Option (Option String)
  | none => some (some value)
  | some _ => none

/-- The options with the value of one that takes a value; `none` if it came before or the value is
not allowed. -/
def Options.setValue? (level : Level) (name value : String) (o : Options) : Option Options :=
  match name with
  | "config" => do
    guard (value ≠ "")
    let config ← setOnce value o.config
    return { o with config }
  | "log-level" => do
    let logLevel ← setOnce value o.logLevel
    return { o with logLevel }
  | "snapshot" => do
    guard (level.readsSnapshot ∧ value ≠ "")
    let snapshot ← setOnce value o.snapshot
    return { o with snapshot }
  | _ => .none

/-- Whether an option of this name takes a value. -/
def takesValue (level : Level) (name : String) : Bool :=
  name = "config" || name = "log-level" || (name = "snapshot" && level.readsSnapshot)

/-- What a flag does: it changes the options, or it ends the reading. -/
def Options.setFlag (level : Level) (name : String) (o : Options) : Except Request Options :=
  match name with
  | "verbose" => if o.verbose then .error .misuse else .ok { o with verbose := true }
  | "json" =>
    if level.readsSnapshot && !o.json then .ok { o with json := true } else .error .misuse
  | "help" => .error .help
  | "version" => .error (if level = .top then .version else .misuse)
  | _ => .error .misuse

def flagOfLetter : Char → String
  | 'v' => "verbose"
  | 'h' => "help"
  | 'V' => "version"
  | _ => ""

def Options.setLetters (level : Level) (letters : List Char) (o : Options) :
    Except Request Options :=
  letters.foldlM (fun o letter => o.setFlag level (flagOfLetter letter)) o

/-- The name of a long option, and its value if one is attached. -/
def splitOption (cs : List Char) : String × Option String :=
  let name := String.ofList (cs.takeWhile (· ≠ '='))
  match cs.dropWhile (· ≠ '=') with
  | [] => (name, .none)
  | _ :: value => (name, some (String.ofList value))

/-- Whether an argument can be the value of the option before it. -/
def isValue (argument : String) : Bool := argument = "-" || !"-".isPrefixOf argument

/-- The request of a command whose arguments have all been read; `outer` are the options before its
word. -/
def conclude (level : Level) (outer o : Options) : Request :=
  let run (action : Action) : Request := .run ⟨o.config <|> outer.config, action⟩
  match level, o.snapshot with
  | .score, some snapshot => run (.score snapshot o.json)
  | .place, some snapshot => run (.place snapshot o.json)
  | .settings, _ => run .settings
  | _, _ => .misuse

/-- The request of the arguments that are left at a level. -/
def readFrom (level : Level) (outer o : Options) : List String → Request
  | [] => conclude level outer o
  | argument :: rest =>
    match argument.toList with
    | ['-', '-'] => if rest = [] then conclude level outer o else .misuse
    | '-' :: '-' :: long =>
      match splitOption long, rest with
      | (name, some value), rest =>
        match o.setValue? level name value with
        | some o => readFrom level outer o rest
        | none => .misuse
      | (name, none), rest =>
        if takesValue level name then
          match rest with
          | value :: rest =>
            match isValue value, o.setValue? level name value with
            | true, some o => readFrom level outer o rest
            | _, _ => .misuse
          | [] => .misuse
        else
          match o.setFlag level name with
          | .ok o => readFrom level outer o rest
          | .error request => request
    | '-' :: letter :: letters =>
      match o.setLetters level (letter :: letters) with
      | .ok o => readFrom level outer o rest
      | .error request => request
    | _ =>
      match level, Level.ofWord? argument with
      | .top, some inner => readFrom inner o .none rest
      | .top, none =>
        if argument = "help" ∧ (rest = [] ∨ (rest.length = 1 ∧ rest.all isCommand)) then .help
        else .misuse
      | _, _ => .misuse
where
  /-- Whether a word is one that help can be had for. -/
  isCommand (word : String) : Bool := (Level.ofWord? word).isSome || word = "help"

/-- The request of all arguments. -/
def read (arguments : List String) : Request := readFrom .top .none .none arguments

end Command

end NodeRanking
