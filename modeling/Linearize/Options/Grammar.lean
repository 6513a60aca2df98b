import Linearize.Options

/-!
# Linearize.Options.Grammar

The written forms of options, as a relation of its own: what an argument gives by itself, and where
an argument is the value of the one in front of it.
-/

namespace Linearize
namespace Options

/-- An argument that is no option: it has no dash in front, or it is a dash alone. -/
def IsFree (arg : String) : Prop := arg.toList.head? ≠ some '-' ∨ arg = "-"

inductive Gives : String → List Given → Prop where
  | free {arg : String} : IsFree arg → Gives arg []
  | flag {o : Choice} : o.takesValue = false → Gives ("--" ++ o.name) [(o, none)]
  | attached {o : Choice} {value : String} :
      o.takesValue = true → Gives ("--" ++ o.name ++ "=" ++ value) [(o, some value)]
  /-- The short form of help stands behind one dash or two; behind one it may be repeated. -/
  | letter : Gives "--h" [(.help, none)]
  | letters (n : Nat) :
      Gives ("-" ++ String.ofList (List.replicate (n + 1) 'h'))
        (List.replicate (n + 1) (.help, none))

/-- What a list of arguments gives. Two dashes alone end the options. -/
inductive Reads : List String → List Given → Prop where
  | nil : Reads [] []
  | stop (rest : List String) : Reads ("--" :: rest) []
  | cons {arg : String} {rest : List String} {gs gs' : List Given} :
      Gives arg gs → Reads rest gs' → Reads (arg :: rest) (gs ++ gs')
  | detached {o : Choice} {value : String} {rest : List String} {gs : List Given} :
      o.takesValue = true → Reads rest gs →
      Reads (("--" ++ o.name) :: value :: rest) ((o, some value) :: gs)

def choices (gs : List Given) : List Choice := gs.map (·.1)

end Options
end Linearize
