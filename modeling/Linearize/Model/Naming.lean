import Linearize.Model

/-!
# Linearize.Model.Naming

Readable names of columns. A declared column has its own name; an auxiliary one is named after the
columns in its key, which come before it. Within a pool names are made distinct: an auxiliary
column whose name is taken gets its position appended until the name is free.
-/

namespace Linearize

/-- The name of a column in a listing, counted from 1. -/
def Var.columnName (v : Var) : String := "x_" ++ toString (v + 1)

def signed (n : Int) : String := if 0 ≤ n then "+" ++ toString n else toString n

namespace Model

/-- Writes the terms one after the other behind `acc`, with `+` between them. -/
def termsName (name : Var → Option String) (acc : String) : List (Var × Int) → Option String
  | [] => some acc
  | (v, c) :: rest =>
    match name v with
    | none => none
    | some s =>
      let acc := if acc.isEmpty then acc else acc ++ "+"
      let acc := if c = 1 then acc else acc ++ toString c ++ "*"
      termsName name (acc ++ s) rest

def exprName (name : Var → Option String) (e : Expr) : Option String :=
  match termsName name "" e.terms with
  | none => none
  | some s =>
    if s.isEmpty then some (toString e.constant)
    else if e.constant = 0 then some s
    else some (s ++ signed e.constant)

def joinNames (name : Var → Option String) (separator : String) (vs : List Var) : Option String :=
  match vs.mapM name with
  | none => none
  | some names => some (separator.intercalate names)

def keyName (name : Var → Option String) : Key → Option String
  | .named s => some s
  | .less a b =>
    match exprName name a, exprName name b with
    | some s, some t => some (s ++ "_less_" ++ t ++ "_dummy")
    | _, _ => none
  | .and vs => (joinNames name "_and_" vs).map (· ++ "_dummy")
  | .or vs => (joinNames name "_or_" vs).map (· ++ "_dummy")
  | .selector vs i => (joinNames name "_and_" vs).map (· ++ "_dummy_" ++ toString i)

/-- The name of a column, following keys at most `depth` deep. -/
def nameWithin (m : Model) : Nat → Var → Option String
  | 0, _ => none
  | depth + 1, v =>
    match m.key? v with
    | none => none
    | some k => keyName (m.nameWithin depth) k

/-- The name of a column. A chain of keys without a cycle is no longer than the list of columns;
`none` is a cycle or a column that does not exist. -/
def name? (m : Model) (v : Var) : Option String := m.nameWithin m.size v

/-- The name followed by `k` copies of the column's position. -/
def suffixed (s : String) (v : Var) : Nat → String
  | 0 => s
  | k + 1 => suffixed s v k ++ "_" ++ v.columnName

/-- The first of the suffixed names that is not taken. Of `used.length + 1` different names one
is free. -/
def freshName (used : List String) (s : String) (v : Var) : String :=
  match (List.range (used.length + 1)).find? fun k => !used.contains (suffixed s v k) with
  | some k => suffixed s v k
  | none => s

def pool (m : Model) (integers : Bool) : List (Var × Key) :=
  m.columns.zipIdx.filterMap fun (c, v) =>
    if c.kind.isInteger = integers then some (v, c.key) else none

def distinctNames (m : Model) (used : List String) : List (Var × Key) → Option (List (String × Var))
  | [] => some []
  | (v, .named s) :: rest =>
    match m.distinctNames used rest with
    | none => none
    | some es => some ((s, v) :: es)
  | (v, _) :: rest =>
    match m.name? v with
    | none => none
    | some s =>
      let t := freshName used s v
      match m.distinctNames (t :: used) rest with
      | none => none
      | some es => some ((t, v) :: es)

def declaredNames (entries : List (Var × Key)) : List String :=
  entries.filterMap fun (_, k) =>
    match k with
    | .named s => some s
    | _ => none

/-- Names of a pool, pairwise distinct, in column order. -/
def poolNames (m : Model) (integers : Bool) : Option (List (String × Var)) :=
  m.distinctNames (declaredNames (m.pool integers)) (m.pool integers)

def binaryNames (m : Model) : Option (List (String × Var)) := m.poolNames false

def integerNames (m : Model) : Option (List (String × Var)) := m.poolNames true

end Model

end Linearize
