import Linearize.Encode.Session
import Linearize.Model.History
import Std.Data.HashMap

/-!
# Linearize.Model.Registry

A model as it is stored. The kinds and the keys of the columns stand in two vectors, and every pool
has a map from keys to columns. A new column is pushed onto both vectors before it is entered in the
map of its pool, and a bounded integer variable is created without bounds first.
-/

namespace Linearize

deriving instance Hashable for Expr, Key

structure Registry where
  kinds : Array Kind
  keys : Array Key
  /-- The columns of the binary pool under their keys. -/
  binaries : Std.HashMap Key Var
  integers : Std.HashMap Key Var
  rows : Array Constraint

namespace Registry

def empty : Registry := ⟨#[], #[], ∅, ∅, #[]⟩

/-- Appends a column, which is in no map yet. -/
def newVar (s : Registry) (key : Key) (kind : Kind) : Registry × Var :=
  ({ s with kinds := s.kinds.push kind, keys := s.keys.push key }, s.kinds.size)

def binary (s : Registry) (k : Key) : Registry × Var :=
  match s.binaries[k]? with
  | some v => (s, v)
  | none =>
    let (s', v) := s.newVar k .binary
    ({ s' with binaries := s'.binaries.insert k v }, v)

instance : BinaryPool Registry := ⟨binary⟩

def integer (k : Key) : Session Registry Var := fun s =>
  match s.integers[k]? with
  | some v => .ok v s
  | none =>
    let (s', v) := s.newVar k (.integer none none)
    .ok v { s' with integers := s'.integers.insert k v }

def namedBinary (s : Registry) (name : String) : Registry × Var := s.binary (.named name)

/-- Replaces the bounds of an integer variable and leaves a binary one alone. -/
def setBounds (v : Var) (lower upper : Option Int) : Session Registry Unit := fun s =>
  match s.kinds[v]? with
  | none => .error .outOfRange s
  | some .binary => .ok () s
  | some (.integer _ _) =>
    .ok () { s with kinds := s.kinds.setIfInBounds v (.integer lower upper) }

/-- The integer variable of a name. The bounds count only when this request creates it. -/
def namedInteger (name : String) (lower upper : Int) : Session Registry Var := do
  match (← get).integers[Key.named name]? with
  | some v => return v
  | none =>
    let v ← integer (.named name)
    setBounds v (some lower) (some upper)
    return v

def addRow (s : Registry) (c : Constraint) : Registry := { s with rows := s.rows.push c }

def addRows (s : Registry) (cs : List Constraint) : Registry :=
  { s with rows := s.rows ++ cs.toArray }

end Registry

/-- The request in place, with the indicator that it gives, if it has one, and its rows. -/
def Request.inPlace {σ : Type} [BinaryPool σ] : Request → Session σ (Option Var × List Constraint)
  | .compare op a b bigM => .indicated (.compare op a b bigM)
  | .and2 a b => .indicated (.and2 a b)
  | .or2 a b => .indicated (.or2 a b)
  | .conjunction vs => .indicated (.conjunction vs)
  | .disjunction vs => .indicated (.disjunction vs)
  | .chain conds bodies otherwise bigM => .silent (.chain conds bodies otherwise bigM)

namespace Registry

/-- The registry that an operation leaves, whether it ends, is refused, overflows or misses a
column. -/
def after (s : Registry) : Operation → Registry
  | .binary k => (s.binary k).1
  | .integer k => (integer k).after s
  | .namedBinary name => (s.namedBinary name).1
  | .namedInteger name lower upper => (namedInteger name lower upper).after s
  | .setBounds v lower upper => (setBounds v lower upper).after s
  | .addRow c => s.addRow c
  | .addRows cs => s.addRows cs
  | .request r => r.inPlace.after s

def run (s : Registry) (os : List Operation) : Registry := os.foldl after s

end Registry
end Linearize
