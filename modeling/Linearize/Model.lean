import Linearize.Constraint

/-!
# Linearize.Model

A model is a list of columns and a list of rows. Every column has a key, and the columns of one
pool, the binary or the integer one, have pairwise different keys: asking a pool for a key that
it has gives the column that is there, asking for another one appends a column. Rows are only
ever appended.
-/

namespace Linearize

inductive Kind where
  | binary
  | integer (lower upper : Option Int)
  deriving DecidableEq, Repr

def Kind.isInteger : Kind → Bool
  | .binary => false
  | .integer _ _ => true

/-- What a column stands for: a declared name, or a condition on columns that exist already. -/
inductive Key where
  | named (name : String)
  | less (a b : Expr)
  | and (operands : List Var)
  | or (operands : List Var)
  | selector (conditions : List Var) (index : Nat)
  deriving DecidableEq, Repr

def Key.isNamed : Key → Bool
  | .named _ => true
  | _ => false

structure Column where
  key : Key
  kind : Kind
  deriving DecidableEq, Repr

def Column.setBounds (lower upper : Option Int) (c : Column) : Column :=
  match c.kind with
  | .binary => c
  | .integer _ _ => { c with kind := .integer lower upper }

structure Model where
  columns : List Column
  rows : List Constraint
  deriving DecidableEq, Repr

namespace Model

def empty : Model := ⟨[], []⟩

def size (m : Model) : Nat := m.columns.length

def kind? (m : Model) (v : Var) : Option Kind := m.columns[v]?.map (·.kind)

def key? (m : Model) (v : Var) : Option Key := m.columns[v]?.map (·.key)

/-- The column of the binary pool under `k`. -/
def findBinary? (m : Model) (k : Key) : Option Var :=
  m.columns.findIdx? fun c => !c.kind.isInteger && c.key = k

def findInteger? (m : Model) (k : Key) : Option Var :=
  m.columns.findIdx? fun c => c.kind.isInteger && c.key = k

def addColumn (m : Model) (c : Column) : Model × Var :=
  ({ m with columns := m.columns ++ [c] }, m.size)

/-- The binary variable under `k`, created on first request. -/
def binary (m : Model) (k : Key) : Model × Var :=
  match m.findBinary? k with
  | some v => (m, v)
  | none => m.addColumn ⟨k, .binary⟩

/-- The integer variable under `k`. The bounds count only when this request creates it. -/
def integerWithin (m : Model) (k : Key) (lower upper : Option Int) : Model × Var :=
  match m.findInteger? k with
  | some v => (m, v)
  | none => m.addColumn ⟨k, .integer lower upper⟩

def integer (m : Model) (k : Key) : Model × Var := m.integerWithin k none none

def namedBinary (m : Model) (name : String) : Model × Var := m.binary (.named name)

def namedInteger (m : Model) (name : String) (lower upper : Int) : Model × Var :=
  m.integerWithin (.named name) (some lower) (some upper)

/-- Replaces the bounds of an integer variable and leaves a binary one alone. `none` if the
model has no such column. -/
def setBounds? (m : Model) (v : Var) (lower upper : Option Int) : Option Model :=
  if v < m.size then
    some { m with columns := m.columns.modify v (Column.setBounds lower upper) }
  else none

def addRow (m : Model) (c : Constraint) : Model := { m with rows := m.rows ++ [c] }

def addRows (m : Model) (cs : List Constraint) : Model := { m with rows := m.rows ++ cs }

end Model

end Linearize
