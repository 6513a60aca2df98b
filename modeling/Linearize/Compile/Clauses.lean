import Linearize.Compile
import Linearize.Statement.Meaning

/-!
# Linearize.Compile.Clauses

What the lines of an accepted text say, each in the scope that the lines before it leave.
-/

namespace Linearize
namespace Compilation

/-- What a line says to a compilation; nothing if it is silent or wrong. -/
def clauseOf? (c : Compilation) (line : List Char) : Option Clause :=
  if isSilent (Text.trim line) then none
  else
    match c.scope.readClause (Text.trim line) with
    | .error _ => none
    | .ok clause => some clause

def clauses (defaultBigM : Int) (c : Compilation) : List String → List Clause
  | [] => []
  | line :: rest =>
    match c.addLine defaultBigM line.toList with
    | .error _ => []
    | .ok c' => (c.clauseOf? line.toList).toList ++ c'.clauses defaultBigM rest

def statements (defaultBigM : Int) (c : Compilation) (lines : List String) : List Statement :=
  (c.clauses defaultBigM lines).filterMap fun clause =>
    match clause with
    | .state s => some s
    | _ => none

/-- Lines that are all processed, with the compilation that they lead to. -/
def Accepts (defaultBigM : Int) (lines : List String) (c : Compilation) : Prop :=
  addLines defaultBigM 0 .empty (lines.map some) = .ok c

end Compilation
end Linearize
