import Linearize.Model.Naming

/-!
# Linearize.Model.Listing

The LP text of a model: the rows in order, each with its constant on the right-hand side, then the
bounds of the integer columns, then the columns of either kind.
-/

namespace Linearize

/-- A term: its sign is written by the caller, a coefficient of 1 is left out. -/
def termText (v : Var) (c : Int) : String :=
  if c.natAbs = 1 then v.columnName else toString c.natAbs ++ " " ++ v.columnName

def laterTermsText : List (Var × Int) → String
  | [] => ""
  | (v, c) :: rest => (if c < 0 then " - " else " + ") ++ termText v c ++ laterTermsText rest

def termsText : List (Var × Int) → String
  | [] => "0"
  | (v, c) :: rest => (if c < 0 then "-" else "") ++ termText v c ++ laterTermsText rest

/-- The row as `terms sense constant`. The magnitudes of the coefficients have to fit, and since the
constant changes sides, so has its negation. -/
def Constraint.text (c : Constraint) : Option String :=
  match c.normalized with
  | none => none
  | some (d, sense) =>
    if d.terms.any fun t => (fit? t.2.natAbs).isNone then none
    else
      match fit? (-d.constant) with
      | none => none
      | some n => some (termsText d.terms ++ " " ++ sense.symbol ++ " " ++ toString n)

namespace Model

def rowLines (i : Nat) : List Constraint → Option (List String)
  | [] => some []
  | c :: rest =>
    match c.text with
    | none => none
    | some t =>
      match rowLines (i + 1) rest with
      | none => none
      | some ls => some ((" c" ++ toString (i + 1) ++ ": " ++ t) :: ls)

def boundsLine (v : Var) : Option Int → Option Int → String
  | some l, some u => " " ++ toString l ++ " <= " ++ v.columnName ++ " <= " ++ toString u
  | some l, none => " " ++ v.columnName ++ " >= " ++ toString l
  | none, some u => " -inf <= " ++ v.columnName ++ " <= " ++ toString u
  | none, none => " " ++ v.columnName ++ " free"

def boundsLines (m : Model) : List String :=
  m.columns.zipIdx.filterMap fun (c, v) =>
    match c.kind with
    | .binary => none
    | .integer l u => some (boundsLine v l u)

/-- The columns of a pool under a title, nothing if there are none. -/
def poolLines (m : Model) (title : String) (integers : Bool) : List String :=
  match m.pool integers with
  | [] => []
  | entries => title :: entries.map fun (v, _) => " " ++ v.columnName

def listingLines (m : Model) : Option (List String) :=
  match rowLines 0 m.rows with
  | none => none
  | some rows =>
    some (["Subject To"] ++ rows ++ ["Bounds"] ++ m.boundsLines ++ m.poolLines "Binary" false ++
      m.poolLines "General" true ++ ["End"])

end Model

def unlines (ls : List String) : String := String.join (ls.map (· ++ "\n"))

/-- The LP text of the model; `none` if a row overflows when it is normalized or written. -/
def Model.listing (m : Model) : Option String := m.listingLines.map unlines

end Linearize
