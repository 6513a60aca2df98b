import Linearize.Encode.Comparison
import Linearize.Encode.Guard
import Linearize.Encode.Parity
import Linearize.Encode.Truncated
import Linearize.Model.Listing
import Linearize.Options
import Linearize.Statement.Reading

/-!
# Linearize.Compile

Compiles lines of text into a model: declarations add columns and names, statements add auxiliary
columns and rows. A line that is blank or starts with `;` says nothing.
-/

namespace Linearize

namespace Statement

/-- Cuts a list into two parts of `width` elements and the rest; a short list leaves the later
parts short. -/
def split3 {α : Type} (width : Nat) (xs : List α) : List α × List α × List α :=
  (xs.take width, (xs.drop width).take width, xs.drop (2 * width))

def withModel (m : Model) (cs : Option (List Constraint)) :
    Except EncodeError (Model × List Constraint) :=
  orOverflow (cs.map fun rows => (m, rows))

def indicated (e : Option Encoded) : Except EncodeError (Model × List Constraint) :=
  orOverflow (e.map fun r => (r.model, r.rows))

def leavesModel (m : Model) (cs : Except EncodeError (List Constraint)) :
    Except EncodeError (Model × List Constraint) :=
  match cs with
  | .error e => .error e
  | .ok rows => .ok (m, rows)

/-- Two inputs have rows of their own; any other number goes through the cover. -/
def exclusiveOrRows (inputs : List Var) (output : Var) : Except EncodeError (List Constraint) :=
  match inputs with
  | [a, b] => orOverflow (xorRows a b output)
  | _ => parityRows inputs output

/-- The rows of a statement, with the model that has its auxiliary columns. A big-M that the
statement does not give is `defaultBigM`. -/
def encode (m : Model) (defaultBigM : Int) : Statement → Except EncodeError (Model × List Constraint)
  | .compare op a b bigM => indicated (m.compare op a b (bigM.getD defaultBigM))
  | .conjunction vs => indicated (m.conjunction vs)
  | .disjunction vs => indicated (m.disjunction vs)
  | .xor inputs output => leavesModel m (exclusiveOrRows inputs output)
  | .truncatedXor vs =>
    let (a, b, c) := split3 bitWidth vs
    leavesModel m (truncatedRows a b c)
  | .truncatedWordXor vs =>
    let (a, b, c) := split3 wordWidth vs
    leavesModel m (truncatedWordRows a b c)
  | .linear row => .ok (m, [row])
  | .ifThen cond body bigM => withModel m (Linearize.ifThen cond body (bigM.getD defaultBigM))
  | .ifThenElse cond body otherwise bigM =>
    withModel m (Linearize.ifThenElse cond body otherwise (bigM.getD defaultBigM))
  | .chain conds bodies otherwise bigM => m.chain conds bodies otherwise (bigM.getD defaultBigM)

def assert (m : Model) (defaultBigM : Int) (s : Statement) : Except EncodeError Model :=
  match s.encode m defaultBigM with
  | .error e => .error e
  | .ok (m', rows) => .ok (m'.addRows rows)

end Statement

inductive LineError where
  | read (e : ReadError)
  | encode (e : EncodeError)
  deriving DecidableEq, Repr

def LineError.message : LineError → String
  | .read e => e.message
  | .encode e => e.message

/-- Why a text is not compiled. An overflow is reported without its place. -/
inductive CompileError where
  | notText
  | atLine (number : Nat) (cause : LineError)
  | overflow
  deriving DecidableEq, Repr

def CompileError.ofLine (number : Nat) : LineError → CompileError
  | .read .overflow => .overflow
  | .encode .overflow => .overflow
  | e => .atLine number e

def CompileError.message : CompileError → String
  | .notText => "stream did not contain valid UTF-8"
  | .atLine n e => "line " ++ toString n ++ ": " ++ e.message
  | .overflow => "overflow"

structure Compilation where
  scope : Scope
  model : Model
  deriving DecidableEq, Repr

namespace Compilation

def empty : Compilation := ⟨[], .empty⟩

def declare (c : Compilation) (name : String) (m : Model) (d : Declared) :
    Except LineError Compilation :=
  match c.scope.insertNew? name d with
  | none => .error (.read (.duplicateVariable name))
  | some scope => .ok ⟨scope, m⟩

def apply (c : Compilation) (defaultBigM : Int) : Clause → Except LineError Compilation
  | .declareBinary name =>
    let (m, v) := c.model.namedBinary name
    c.declare name m (.binary v)
  | .declareInteger name lower upper =>
    let (m, v) := c.model.namedInteger name lower upper
    c.declare name m (.integer v)
  | .state s =>
    match s.assert c.model defaultBigM with
    | .error e => .error (.encode e)
    | .ok m => .ok { c with model := m }

def isSilent : List Char → Bool
  | [] => true
  | c :: _ => c = ';'

def addLine (c : Compilation) (defaultBigM : Int) (line : List Char) :
    Except LineError Compilation :=
  let text := Text.trim line
  if isSilent text then .ok c
  else
    match c.scope.readClause text with
    | .error e => .error (.read e)
    | .ok clause => c.apply defaultBigM clause

/-- Compiles lines, the first of which has the number `number + 1`. A line that is not text ends
it. -/
def addLines (defaultBigM : Int) (number : Nat) (c : Compilation) :
    List (Option String) → Except CompileError Compilation
  | [] => .ok c
  | none :: _ => .error .notText
  | some line :: rest =>
    match c.addLine defaultBigM line.toList with
    | .error e => .error (.ofLine (number + 1) e)
    | .ok c' => addLines defaultBigM (number + 1) c' rest

def variableLine (name : String) (d : Declared) : String :=
  let kind := match d with
    | .binary _ => "bin"
    | .integer _ => "int"
  "\\ " ++ kind ++ " " ++ name ++ " = " ++ d.var.columnName

def indicatorLines (m : Model) : Option (List String) :=
  match m.binaryNames with
  | none => none
  | some entries =>
    some ((entries.filter fun e => !(m.key? e.2).any Key.isNamed).map fun e =>
      "\\ aux " ++ e.1 ++ " = " ++ e.2.columnName)

/-- The names that the settings ask for, then the model. -/
def listing (c : Compilation) (s : Settings) : Option String :=
  let declared := if s.showVariables then c.scope.map fun e => variableLine e.1 e.2 else []
  match if s.showIndicators then indicatorLines c.model else some [] with
  | none => none
  | some indicators =>
    match c.model.listing with
    | none => none
    | some text => some (unlines (declared ++ indicators) ++ text)

end Compilation

/-- Lines end at a line feed; the last one may lack it. `line` holds what was read of the current
line, backwards. -/
def byteLines (line : List UInt8) : List UInt8 → List (List UInt8)
  | [] => if line.isEmpty then [] else [line.reverse]
  | b :: bs => if b = 10 then line.reverse :: byteLines [] bs else byteLines (b :: line) bs

/-- The lines of a stream of bytes; `none` stands for one that is not UTF-8. -/
def textLines (bytes : List UInt8) : List (Option String) :=
  (byteLines [] bytes).map fun line => String.fromUTF8? ⟨line.toArray⟩

def compileLines (s : Settings) (lines : List (Option String)) : Except CompileError String :=
  match Compilation.addLines s.defaultBigM 0 .empty lines with
  | .error e => .error e
  | .ok c =>
    match c.listing s with
    | none => .error .overflow
    | some text => .ok text

def compile (s : Settings) (input : List UInt8) : Except CompileError String :=
  compileLines s (textLines input)

end Linearize
