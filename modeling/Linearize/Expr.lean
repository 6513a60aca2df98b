import Linearize.Range

/-!
# Linearize.Expr

Affine expressions `c₁ x₁ + … + cₙ xₙ + c` over the columns of a model.

Terms are kept in increasing order of the variable and none has the coefficient 0, so that two
expressions are equal exactly if they have the same value at every point. Every operation
yields `none` when a coefficient, a constant or the negation of one overflows.
-/

namespace Linearize

/-- A variable is the position of its column in the model. -/
abbrev Var := Nat

structure Expr where
  terms : List (Var × Int)
  constant : Int
  deriving DecidableEq, Repr

namespace Expr

def Increasing : List (Var × Int) → Prop
  | [] => True
  | [_] => True
  | t :: u :: rest => t.1 < u.1 ∧ Increasing (u :: rest)

/-- The form that all operations keep: increasing variables, no coefficient 0, all in range. -/
structure WellFormed (e : Expr) : Prop where
  increasing : Increasing e.terms
  nonzero : ∀ t ∈ e.terms, t.2 ≠ 0
  fits : ∀ t ∈ e.terms, Fits t.2
  constant_fits : Fits e.constant

def zero : Expr := ⟨[], 0⟩

def const (n : Int) : Expr := ⟨[], n⟩

def ofVar (v : Var) : Expr := ⟨[(v, 1)], 0⟩

/-- `1 - v`, the negation of a binary variable. -/
def complement (v : Var) : Expr := ⟨[(v, -1)], 1⟩

def vars (e : Expr) : List Var := e.terms.map (·.1)

/-- The coefficient of `v`, 0 if it does not occur. -/
def coef (e : Expr) (v : Var) : Int :=
  match e.terms.find? (·.1 = v) with
  | some t => t.2
  | none => 0

/-- Adds the coefficient `c` of `v` at its place; terms that cancel are dropped. -/
def insertTerm (v : Var) (c : Int) : List (Var × Int) → Option (List (Var × Int))
  | [] => some [(v, c)]
  | (w, d) :: rest =>
    if v < w then some ((v, c) :: (w, d) :: rest)
    else if v = w then
      match fit? (d + c) with
      | none => none
      | some s => some (if s = 0 then rest else (v, s) :: rest)
    else
      match insertTerm v c rest with
      | none => none
      | some rest' => some ((w, d) :: rest')

def addCoef (e : Expr) (v : Var) (c : Int) : Option Expr :=
  if c = 0 then some e
  else
    match insertTerm v c e.terms with
    | none => none
    | some ts => some { e with terms := ts }

def addConst (e : Expr) (n : Int) : Option Expr :=
  match fit? (e.constant + n) with
  | none => none
  | some c => some { e with constant := c }

def addTerms (e : Expr) : List (Var × Int) → Option Expr
  | [] => some e
  | (v, c) :: rest =>
    match e.addCoef v c with
    | none => none
    | some e' => e'.addTerms rest

def add (a b : Expr) : Option Expr :=
  match a.addTerms b.terms with
  | none => none
  | some s => s.addConst b.constant

def scaleTerms (k : Int) : List (Var × Int) → Option (List (Var × Int))
  | [] => some []
  | (v, c) :: rest =>
    match fit? (c * k) with
    | none => none
    | some d =>
      match scaleTerms k rest with
      | none => none
      | some rest' => some ((v, d) :: rest')

/-- Multiplication by an integer. The factor 0 gives the zero expression whatever `e` is. -/
def scale (e : Expr) (k : Int) : Option Expr :=
  if k = 0 then some zero
  else
    match fit? (e.constant * k) with
    | none => none
    | some c =>
      match scaleTerms k e.terms with
      | none => none
      | some ts => some ⟨ts, c⟩

def neg (e : Expr) : Option Expr := e.scale (-1)

/-- `a - b` adds the negation of `b`, which has to fit by itself. -/
def sub (a b : Expr) : Option Expr :=
  match b.neg with
  | none => none
  | some b' => a.add b'

def sum (vs : List Var) : Option Expr := zero.addTerms (vs.map fun v => (v, 1))

def termsValue (σ : Var → Int) : List (Var × Int) → Int
  | [] => 0
  | (v, c) :: rest => c * σ v + termsValue σ rest

/-- The exact integer value at a point. -/
def value (e : Expr) (σ : Var → Int) : Int := e.constant + termsValue σ e.terms

end Expr

end Linearize
