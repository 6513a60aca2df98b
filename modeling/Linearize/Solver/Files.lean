/-!
# Linearize.Solver.Files

Where models are written and where a solver leaves its solution.
-/

namespace Linearize

/-- A path below another one. An absolute path stands for itself; else a slash comes between the
two unless the first is empty or has one at its end. -/
def joinPath (base path : String) : String :=
  if path.startsWith "/" then path
  else if base.isEmpty then path
  else if base.endsWith "/" then base ++ path
  else base ++ "/" ++ path

structure ArtifactFiles where
  modelDir : String
  solutionFile : String
  deriving DecidableEq, Repr

namespace ArtifactFiles

def inDir (dir : String) : ArtifactFiles := ⟨dir, "milp_model.sol"⟩

def default : ArtifactFiles := inDir "."

def modelPath (f : ArtifactFiles) (cipher type : String) : String :=
  joinPath f.modelDir (cipher ++ "_" ++ type ++ ".lp")

def solutionPath (f : ArtifactFiles) : String := joinPath f.modelDir f.solutionFile

end ArtifactFiles

end Linearize
