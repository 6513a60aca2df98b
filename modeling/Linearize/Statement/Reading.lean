import Linearize.Statement.Basic
import Linearize.Statement.Error
import Linearize.Statement.Tree

/-!
# Linearize.Statement.Reading

From trees to statements. The parts of a statement are read from left to right and the first
fault met is reported.
-/

namespace Linearize

/-- The results of a list of readings, in order; the first error decides. -/
def readAll {α : Type} (read : Tree → Except ReadError α) : List Tree → Except ReadError (List α)
  | [] => .ok []
  | t :: ts =>
    match read t with
    | .error e => .error e
    | .ok x =>
      match readAll read ts with
      | .error e => .error e
      | .ok xs => .ok (x :: xs)

/-- Arithmetic on expressions, where `none` is an overflow. -/
def computed {α : Type} : Option α → Except ReadError α
  | some x => .ok x
  | none => .error .overflow

namespace Tree

def asIdent : Tree → Except ReadError String
  | .ident s => .ok s
  | _ => .error (.expected .identifier)

def asInt : Tree → Except ReadError Int
  | .int n => .ok n
  | _ => .error (.expected .integer)

def asNode : Tree → Except ReadError (List Tree)
  | .node ts => .ok ts
  | _ => .error (.expected .list)

end Tree

namespace Scope

def require (s : Scope) (name : String) : Except ReadError Declared :=
  match s.get? name with
  | some d => .ok d
  | none => .error (.undefinedVariable name)

def readBinary (s : Scope) : Tree → Except ReadError Var
  | .ident name =>
    match s.require name with
    | .error e => .error e
    | .ok (.binary v) => .ok v
    | .ok (.integer _) => .error (.notBinary name)
  | _ => .error (.expected .identifier)

mutual

/-- A term: a name, an integer, a sum, a negation or difference, or a product with an integer. -/
def readExpr (s : Scope) : Tree → Except ReadError Expr
  | .ident name =>
    match s.require name with
    | .error e => .error e
    | .ok d => .ok (.ofVar d.var)
  | .int n => .ok (.const n)
  | .node [] => .error (.expected .expression)
  | .node (.ident op :: args) =>
    if op = "+" then readSum s .zero args
    else if op = "-" then
      match args with
      | [a] =>
        match readExpr s a with
        | .error e => .error e
        | .ok x => computed x.neg
      | [a, b] =>
        match readExpr s a with
        | .error e => .error e
        | .ok x =>
          match readExpr s b with
          | .error e => .error e
          | .ok y => computed (x.sub y)
      | _ => .error (.wrongArgumentCount op)
    else if op = "*" then
      match args with
      | [.int n, a] =>
        match readExpr s a with
        | .error e => .error e
        | .ok x => computed (x.scale n)
      | [a, .int n] =>
        match readExpr s a with
        | .error e => .error e
        | .ok x => computed (x.scale n)
      | [_, _] => .error (.expected .constantFactor)
      | _ => .error (.wrongArgumentCount op)
    else .error (.unknownOperator op)
  | .node (_ :: _) => .error (.expected .identifier)

/-- Reads terms and adds them to `acc` one by one. -/
def readSum (s : Scope) (acc : Expr) : List Tree → Except ReadError Expr
  | [] => .ok acc
  | t :: ts =>
    match readExpr s t with
    | .error e => .error e
    | .ok x =>
      match acc.add x with
      | none => .error .overflow
      | some acc' => readSum s acc' ts

end

def readSense (op : String) : Except ReadError Sense :=
  if op = "<=" then .ok .le
  else if op = ">=" then .ok .ge
  else if op = "=" then .ok .eq
  else .error (.unknownOperator op)

def readConstraint (s : Scope) : Tree → Except ReadError Constraint
  | .node [head, a, b] => do
    let op ← head.asIdent
    let sense ← readSense op
    let x ← s.readExpr a
    let y ← s.readExpr b
    return .ofSense x sense y
  | .node _ => .error (.expected .linearConstraint)
  | _ => .error (.expected .list)

def readConstraints (s : Scope) (t : Tree) : Except ReadError (List Constraint) := do
  let ts ← t.asNode
  readAll s.readConstraint ts

/-- What follows the fixed arguments of `op`: nothing or a positive big-M. -/
def readBigM (op : String) : List Tree → Except ReadError (Option Int)
  | [] => .ok none
  | [t] => do
    let n ← t.asInt
    if n ≤ 0 then .error (.nonPositiveBigM n) else .ok (some n)
  | _ => .error (.wrongArgumentCount op)

def readBranch (s : Scope) (t : Tree) : Except ReadError (Var × List Constraint) := do
  match ← t.asNode with
  | [] => .error (.expected .branchCondition)
  | head :: rest =>
    let cond ← s.readBinary head
    let body ← readAll s.readConstraint rest
    return (cond, body)

def comparison? (op : String) : Option Comparison :=
  if op = "less" then some .less
  else if op = "leq" then some .leq
  else if op = "greater" then some .greater
  else if op = "geq" then some .geq
  else if op = "eq" then some .eq
  else if op = "neq" then some .neq
  else none

def readCompare (s : Scope) (op : String) (comparison : Comparison) :
    List Tree → Except ReadError Statement
  | a :: b :: rest => do
    if 1 < rest.length then .error (.wrongArgumentCount op)
    let x ← s.readExpr a
    let y ← s.readExpr b
    let m ← readBigM op rest
    return .compare comparison x y m
  | _ => .error (.wrongArgumentCount op)

/-- Inputs and, as the last operand, the output. -/
def readXor (s : Scope) (op : String) (args : List Tree) : Except ReadError Statement := do
  if args.length < 2 then .error (.wrongArgumentCount op)
  let vs ← readAll s.readBinary args
  match vs.getLast? with
  | none => .error (.wrongArgumentCount op)
  | some output => return .xor vs.dropLast output

def readIfThen (s : Scope) (op : String) : List Tree → Except ReadError Statement
  | c :: body :: rest => do
    if 1 < rest.length then .error (.wrongArgumentCount op)
    let cond ← s.readBinary c
    let rows ← s.readConstraints body
    let m ← readBigM op rest
    return .ifThen cond rows m
  | _ => .error (.wrongArgumentCount op)

def readIfThenElse (s : Scope) (op : String) : List Tree → Except ReadError Statement
  | c :: body :: otherwise :: rest => do
    if 1 < rest.length then .error (.wrongArgumentCount op)
    let cond ← s.readBinary c
    let rows ← s.readConstraints body
    let others ← s.readConstraints otherwise
    let m ← readBigM op rest
    return .ifThenElse cond rows others m
  | _ => .error (.wrongArgumentCount op)

def readChain (s : Scope) (op : String) : List Tree → Except ReadError Statement
  | branches :: otherwise :: rest => do
    if 1 < rest.length then .error (.wrongArgumentCount op)
    let ts ← branches.asNode
    let bs ← readAll s.readBranch ts
    let others ← s.readConstraints otherwise
    let m ← readBigM op rest
    return .chain (bs.map (·.1)) (bs.map (·.2)) others m
  | _ => .error (.wrongArgumentCount op)

/-- The statement that `op` makes of its arguments; `whole` is the tree of both. -/
def readStatement (s : Scope) (whole : Tree) (op : String) (args : List Tree) :
    Except ReadError Statement :=
  match comparison? op with
  | some comparison => s.readCompare op comparison args
  | none =>
    if op = "and" then return .conjunction (← readAll s.readBinary args)
    else if op = "or" then return .disjunction (← readAll s.readBinary args)
    else if op = "xor" then s.readXor op args
    else if op = "xor-truncated" then return .truncatedXor (← readAll s.readBinary args)
    else if op = "xor-truncated-wordwise" then
      return .truncatedWordXor (← readAll s.readBinary args)
    else if op = "<=" || op = ">=" || op = "=" then return .linear (← s.readConstraint whole)
    else if op = "if" then s.readIfThen op args
    else if op = "ite" then s.readIfThenElse op args
    else if op = "cond" then s.readChain op args
    else .error (.unknownOperator op)

def readDeclareBinary (op : String) : List Tree → Except ReadError Clause
  | [name] => return .declareBinary (← name.asIdent)
  | _ => .error (.wrongArgumentCount op)

def readDeclareInteger (op : String) : List Tree → Except ReadError Clause
  | [name, lower, upper] => do
    let n ← name.asIdent
    let l ← lower.asInt
    let u ← upper.asInt
    return .declareInteger n l u
  | _ => .error (.wrongArgumentCount op)

def readClauseTree (s : Scope) (t : Tree) : Except ReadError Clause := do
  match ← t.asNode with
  | [] => .error (.expected .statement)
  | head :: args =>
    let op ← head.asIdent
    if op = "bin" then readDeclareBinary op args
    else if op = "int" then readDeclareInteger op args
    else return .state (← s.readStatement t op args)

def readClause (s : Scope) (line : List Char) : Except ReadError Clause :=
  match Tree.parse line with
  | .error near => .error (.malformed (String.ofList near))
  | .ok t => s.readClauseTree t

end Scope

end Linearize
