import Linearize.Text.Numeral

/-!
# Linearize.Options

Command line options and the settings they make. Options are recognized from left to right; then
an option given twice is refused, then help is looked at, then contradictions, and last the value
of the big-M.
-/

namespace Linearize

structure Settings where
  defaultBigM : Int
  showVariables : Bool
  showIndicators : Bool
  verbose : Bool
  deriving DecidableEq, Repr

namespace Settings

def default : Settings := ⟨1000, true, false, false⟩

end Settings

inductive Feature where
  | variables
  | indicators
  | verbose
  deriving DecidableEq, Repr

namespace Feature

def name : Feature → String
  | .variables => "show-variables"
  | .indicators => "show-indicators"
  | .verbose => "verbose"

def all : List Feature := [.variables, .indicators, .verbose]

def get : Feature → Settings → Bool
  | .variables, s => s.showVariables
  | .indicators, s => s.showIndicators
  | .verbose, s => s.verbose

def set : Feature → Bool → Settings → Settings
  | .variables, b, s => { s with showVariables := b }
  | .indicators, b, s => { s with showIndicators := b }
  | .verbose, b, s => { s with verbose := b }

end Feature

inductive Choice where
  | enable (f : Feature)
  | disable (f : Feature)
  | defaultBigM
  | help
  deriving DecidableEq, Repr

namespace Choice

def name : Choice → String
  | .enable f => "enable-" ++ f.name
  | .disable f => "disable-" ++ f.name
  | .defaultBigM => "default-big-m"
  | .help => "help"

/-- In the order in which repetitions are looked for. -/
def all : List Choice :=
  Feature.all.flatMap (fun f => [.enable f, .disable f]) ++ [.defaultBigM, .help]

def ofLetter? (c : Char) : Option Choice := if c = 'h' then some .help else none

/-- A name behind two dashes; of one letter it is a short one. -/
def ofName? : List Char → Option Choice
  | [c] => ofLetter? c
  | cs => all.find? fun o => o.name.toList = cs

def takesValue (o : Choice) : Bool := o = .defaultBigM

end Choice

inductive OptionError where
  | unrecognized (name : String)
  | unexpectedArgument (name : String)
  | missingArgument (name : String)
  | repeated (o : Choice)
  | conflict (f : Feature)
  | malformedBigM (cause : Text.IntegerError)
  | nonPositiveBigM
  deriving DecidableEq, Repr

def OptionError.message : OptionError → String
  | .unrecognized n => "Unrecognized option: '" ++ n ++ "'"
  | .unexpectedArgument n => "Option '" ++ n ++ "' does not take an argument"
  | .missingArgument n => "Argument to option '" ++ n ++ "' missing"
  | .repeated o => "Option '" ++ o.name ++ "' given more than once"
  | .conflict f =>
    "conflicting options enable-" ++ f.name ++ " and disable-" ++ f.name ++
      " are specified at the same time"
  | .malformedBigM e => "parse failed for --default-big-m: " ++ e.message
  | .nonPositiveBigM => "--default-big-m must be positive"

/-- An option that was given, with its value if it takes one. -/
abbrev Given := Choice × Option String

namespace Options

/-- The text before the first `=`, and the text behind it if there is one. -/
def splitValue : List Char → List Char × Option (List Char)
  | [] => ([], none)
  | c :: cs =>
    if c = '=' then ([], some cs)
    else
      let r := splitValue cs
      (c :: r.1, r.2)

def readLetters : List Char → Except OptionError (List Given)
  | [] => .ok []
  | c :: cs =>
    match Choice.ofLetter? c with
    | none => .error (.unrecognized (String.singleton c))
    | some o =>
      match readLetters cs with
      | .error e => .error e
      | .ok gs => .ok ((o, none) :: gs)

/-- The options of an argument list. An argument without a dash, and a dash alone, is skipped; two
dashes alone end the options. A value is attached by `=` or is the next argument. -/
def scan : List String → Except OptionError (List Given)
  | [] => .ok []
  | arg :: rest =>
    match arg.toList with
    | ['-', '-'] => .ok []
    | '-' :: '-' :: body =>
      let name := (splitValue body).1
      match Choice.ofName? name, (splitValue body).2 with
      | none, _ => .error (.unrecognized (String.ofList name))
      | some o, some value =>
        if o.takesValue then
          match scan rest with
          | .error e => .error e
          | .ok gs => .ok ((o, some (String.ofList value)) :: gs)
        else .error (.unexpectedArgument (String.ofList name))
      | some o, none =>
        if o.takesValue then
          match rest with
          | [] => .error (.missingArgument (String.ofList name))
          | value :: rest' =>
            match scan rest' with
            | .error e => .error e
            | .ok gs => .ok ((o, some value) :: gs)
        else
          match scan rest with
          | .error e => .error e
          | .ok gs => .ok ((o, none) :: gs)
    | '-' :: c :: cs =>
      match readLetters (c :: cs) with
      | .error e => .error e
      | .ok gs =>
        match scan rest with
        | .error e => .error e
        | .ok gs' => .ok (gs ++ gs')
    | _ => scan rest

def isGiven (gs : List Given) (o : Choice) : Bool := gs.any fun g => g.1 = o

/-- The first option, in the order of declaration, that is given more than once. -/
def repetition? (gs : List Given) : Option Choice :=
  Choice.all.find? fun o => 1 < (gs.filter fun g => g.1 = o).length

def switch (gs : List Given) : List Feature → Settings → Except OptionError Settings
  | [], s => .ok s
  | f :: fs, s =>
    match isGiven gs (.enable f), isGiven gs (.disable f) with
    | true, true => .error (.conflict f)
    | true, false => switch gs fs (f.set true s)
    | false, true => switch gs fs (f.set false s)
    | false, false => switch gs fs s

def bigMText? (gs : List Given) : Option String :=
  match gs.find? fun g => g.1 = .defaultBigM with
  | some (_, value) => value
  | none => none

def setBigM (gs : List Given) (s : Settings) : Except OptionError Settings :=
  match bigMText? gs with
  | none => .ok s
  | some text =>
    match Text.parseInteger text.toList with
    | .error e => .error (.malformedBigM e)
    | .ok n => if n ≤ 0 then .error .nonPositiveBigM else .ok { s with defaultBigM := n }

/-- The settings that the options make, or `none` if they ask for help. -/
def interpret (gs : List Given) : Except OptionError (Option Settings) :=
  match repetition? gs with
  | some o => .error (.repeated o)
  | none =>
    if isGiven gs .help then .ok none
    else
      match switch gs Feature.all Settings.default with
      | .error e => .error e
      | .ok s =>
        match setBigM gs s with
        | .error e => .error e
        | .ok s' => .ok (some s')

def parse (args : List String) : Except OptionError (Option Settings) :=
  match scan args with
  | .error e => .error e
  | .ok gs => interpret gs

end Options

end Linearize
