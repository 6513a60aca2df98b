import Linearize.Statement.Reading

/-!
# Linearize.Statement.Positions

Reading of statements by the positions of their parts: an argument is looked up in the list of the
statement, where the operator has the position 0, and the arguments behind the fixed ones are
counted by a subtraction of lengths. A position or a length that the list does not have stops the
reading without an answer, as an overflow does.
-/

namespace Linearize

/-- What ends a reading before there is a result. -/
inductive Halt where
  /-- The text is not a statement, which is an answer. -/
  | refused (e : ReadError)
  | overflow
  | outOfRange
  deriving DecidableEq, Repr

def Halt.ofError : ReadError → Halt
  | .overflow => .overflow
  | e => .refused e

/-- A part of a list. -/
abbrev Part (ts : List Tree) := { t : Tree // t ∈ ts }

theorem Part.sizeOf_lt {ts : List Tree} (t : Part ts) : sizeOf t.1 < sizeOf (Tree.node ts) := by
  have := List.sizeOf_lt_of_mem t.2
  simp only [Tree.node.sizeOf_spec]
  omega

namespace Positions

/-- A reading that looks nothing up. -/
def answered {α : Type} : Except ReadError α → Except Halt α
  | .ok x => .ok x
  | .error e => .error (.ofError e)

def refuse {α : Type} (e : ReadError) : Except Halt α := .error (.refused e)

def checked {α : Type} : Option α → Except Halt α
  | some x => .ok x
  | none => .error .overflow

def part (ts : List Tree) (i : Nat) : Except Halt (Part ts) :=
  if h : i < ts.length then .ok ⟨ts[i], List.getElem_mem h⟩ else .error .outOfRange

/-- The parts from a position on, which may be the end of the list. -/
def partsFrom (ts : List Tree) (i : Nat) : Except Halt (List (Part ts)) :=
  if i ≤ ts.length then .ok (ts.attach.drop i) else .error .outOfRange

def countFrom (ts : List Tree) (i : Nat) : Except Halt Nat :=
  if i ≤ ts.length then .ok (ts.length - i) else .error .outOfRange

def expectLength (ts : List Tree) (low high : Nat) (op : String) : Except Halt Unit :=
  if low ≤ ts.length ∧ ts.length ≤ high then .ok () else refuse (.wrongArgumentCount op)

def ident (t : Tree) : Except Halt String := answered t.asIdent

def int (t : Tree) : Except Halt Int := answered t.asInt

def node (t : Tree) : Except Halt (List Tree) := answered t.asNode

def binary (s : Scope) (t : Tree) : Except Halt Var := answered (s.readBinary t)

def binaries {ts : List Tree} (s : Scope) (parts : List (Part ts)) : Except Halt (List Var) :=
  parts.mapM fun t => binary s t.1

/-- The big-M of a statement whose fixed arguments end before the position `i`. -/
def bigM (ts : List Tree) (i : Nat) (op : String) : Except Halt (Option Int) := do
  match ← countFrom ts i with
  | 0 => return none
  | 1 =>
    let t ← part ts i
    let n ← int t.1
    if n ≤ 0 then refuse (.nonPositiveBigM n) else return some n
  | _ => refuse (.wrongArgumentCount op)

def expr (s : Scope) : Tree → Except Halt Expr
  | .ident name => do
    let d ← answered (s.require name)
    return .ofVar d.var
  | .int n => return .const n
  | .node ts =>
    if ts.isEmpty then refuse (.expected .expression)
    else do
      let head ← part ts 0
      let op ← ident head.1
      if op = "+" then
        let terms ← partsFrom ts 1
        terms.foldlM (fun acc t => do checked (acc.add (← expr s t.1))) .zero
      else if op = "-" then
        if ts.length = 2 then
          let a ← part ts 1
          checked (← expr s a.1).neg
        else if ts.length = 3 then
          let a ← part ts 1
          let x ← expr s a.1
          let b ← part ts 2
          checked (x.sub (← expr s b.1))
        else refuse (.wrongArgumentCount op)
      else if op = "*" then
        expectLength ts 3 3 op
        let a ← part ts 1
        let b ← part ts 2
        match a.1, b.1 with
        | .int n, _ => checked ((← expr s b.1).scale n)
        | _, .int n => checked ((← expr s a.1).scale n)
        | _, _ => refuse (.expected .constantFactor)
      else refuse (.unknownOperator op)
termination_by t => sizeOf t
decreasing_by all_goals exact Part.sizeOf_lt _

def constraint (s : Scope) (t : Tree) : Except Halt Constraint := do
  let ts ← node t
  if ts.length ≠ 3 then refuse (.expected .linearConstraint)
  else
    let head ← part ts 0
    let op ← ident head.1
    let sense ← answered (Scope.readSense op)
    let a ← part ts 1
    let x ← expr s a.1
    let b ← part ts 2
    let y ← expr s b.1
    return .ofSense x sense y

def constraints (s : Scope) (t : Tree) : Except Halt (List Constraint) := do
  (← node t).mapM (constraint s)

def branch (s : Scope) (t : Tree) : Except Halt (Var × List Constraint) := do
  let ts ← node t
  if ts.isEmpty then refuse (.expected .branchCondition)
  else
    let head ← part ts 0
    let cond ← binary s head.1
    let rest ← partsFrom ts 1
    let body ← rest.mapM fun u => constraint s u.1
    return (cond, body)

def compare (s : Scope) (op : String) (comparison : Comparison) (ts : List Tree) :
    Except Halt Statement := do
  expectLength ts 3 4 op
  let a ← part ts 1
  let x ← expr s a.1
  let b ← part ts 2
  let y ← expr s b.1
  let m ← bigM ts 3 op
  return .compare comparison x y m

/-- The last operand is the output; it is taken off the list. -/
def xor (s : Scope) (op : String) (ts : List Tree) : Except Halt Statement := do
  if ts.length < 3 then refuse (.wrongArgumentCount op)
  else
    let vs ← binaries s (← partsFrom ts 1)
    match vs.getLast? with
    | none => .error .outOfRange
    | some output => return .xor vs.dropLast output

def ifThen (s : Scope) (op : String) (ts : List Tree) : Except Halt Statement := do
  expectLength ts 3 4 op
  let c ← part ts 1
  let cond ← binary s c.1
  let body ← part ts 2
  let rows ← constraints s body.1
  let m ← bigM ts 3 op
  return .ifThen cond rows m

def ifThenElse (s : Scope) (op : String) (ts : List Tree) : Except Halt Statement := do
  expectLength ts 4 5 op
  let c ← part ts 1
  let cond ← binary s c.1
  let body ← part ts 2
  let rows ← constraints s body.1
  let otherwise ← part ts 3
  let others ← constraints s otherwise.1
  let m ← bigM ts 4 op
  return .ifThenElse cond rows others m

def chain (s : Scope) (op : String) (ts : List Tree) : Except Halt Statement := do
  expectLength ts 3 4 op
  let branches ← part ts 1
  let us ← node branches.1
  let bs ← us.mapM (branch s)
  let otherwise ← part ts 2
  let others ← constraints s otherwise.1
  let m ← bigM ts 3 op
  return .chain (bs.map (·.1)) (bs.map (·.2)) others m

/-- The statement of a list that begins with the operator `op`. -/
def statement (s : Scope) (op : String) (ts : List Tree) : Except Halt Statement :=
  match Scope.comparison? op with
  | some comparison => compare s op comparison ts
  | none =>
    if op = "and" then do return .conjunction (← binaries s (← partsFrom ts 1))
    else if op = "or" then do return .disjunction (← binaries s (← partsFrom ts 1))
    else if op = "xor" then xor s op ts
    else if op = "xor-truncated" then do return .truncatedXor (← binaries s (← partsFrom ts 1))
    else if op = "xor-truncated-wordwise" then do
      return .truncatedWordXor (← binaries s (← partsFrom ts 1))
    else if op = "<=" || op = ">=" || op = "=" then do return .linear (← constraint s (.node ts))
    else if op = "if" then ifThen s op ts
    else if op = "ite" then ifThenElse s op ts
    else if op = "cond" then chain s op ts
    else refuse (.unknownOperator op)

def declareBinary (op : String) (ts : List Tree) : Except Halt Clause := do
  expectLength ts 2 2 op
  let name ← part ts 1
  return .declareBinary (← ident name.1)

def declareInteger (op : String) (ts : List Tree) : Except Halt Clause := do
  expectLength ts 4 4 op
  let name ← part ts 1
  let n ← ident name.1
  let lower ← part ts 2
  let l ← int lower.1
  let upper ← part ts 3
  let u ← int upper.1
  return .declareInteger n l u

def clauseTree (s : Scope) (t : Tree) : Except Halt Clause := do
  let ts ← node t
  if ts.isEmpty then refuse (.expected .statement)
  else
    let head ← part ts 0
    let op ← ident head.1
    if op = "bin" then declareBinary op ts
    else if op = "int" then declareInteger op ts
    else return .state (← statement s op ts)

def clause (s : Scope) (line : List Char) : Except Halt Clause :=
  match Tree.parse line with
  | .error near => refuse (.malformed (String.ofList near))
  | .ok t => clauseTree s t

end Positions
end Linearize
