import Linearize.Compile

/-!
# Linearize.Command

The command: options, then statements from the standard input, then the listing or an error.
-/

namespace Linearize

structure Outcome where
  exitCode : UInt32
  stdout : String
  deriving DecidableEq, Repr

namespace Command

def usage : String := unlines [
  "Usage: cli [options]",
  "",
  "Options:",
  "        --enable-show-variables ",
  "                        Enable listing the column of every named variable",
  "                        (default).",
  "        --disable-show-variables ",
  "                        Disable listing the column of every named variable.",
  "        --enable-show-indicators ",
  "                        Enable listing the column of every auxiliary",
  "                        indicator.",
  "        --disable-show-indicators ",
  "                        Disable listing the column of every auxiliary",
  "                        indicator (default).",
  "        --enable-verbose ",
  "                        Enable show verbose outputs.",
  "        --disable-verbose ",
  "                        Disable show verbose outputs (default).",
  "        --default-big-m M",
  "                        Specify the big-M for statements without an explicit",
  "                        one.",
  "    -h, --help          Display this help"]

def failure (message : String) : Outcome := ⟨1, "error: " ++ message ++ "\n"⟩

/-- The exit code of a run that is given up without a word because of an overflow. -/
def overflowCode : UInt32 := 101

/-- The settings of an argument list, or what the command does instead of compiling. -/
def settings (args : List String) : Except Outcome Settings :=
  match Options.parse args with
  | .error e => .error (failure e.message)
  | .ok none => .error ⟨0, usage⟩
  | .ok (some s) => .ok s

def compiled (s : Settings) (input : List UInt8) : Outcome :=
  match compile s input with
  | .ok text => ⟨0, text⟩
  | .error .overflow => ⟨overflowCode, ""⟩
  | .error e => failure e.message

def run (args : List String) (input : List UInt8) : Outcome :=
  match settings args with
  | .error outcome => outcome
  | .ok s => compiled s input

end Command

end Linearize
