import Linearize.Regex.Basic

/-!
# Linearize.Regex.Program

Regular expressions as programs. A place of a program holds one instruction, which tests a
character or an anchor, records a place of the text or forks. A fork prefers its first way.
-/

namespace Linearize
namespace Regex

inductive Instr where
  | one (s : CharSet) (next : Nat)
  | anchor (a : Anchor) (next : Nat)
  | mark (slot : Nat) (next : Nat)
  | fork (first second : Nat)
  | jump (next : Nat)
  | accept
  deriving DecidableEq, Repr

/-- A fork before an expression that may be left out. -/
def Instr.choice (greedy : Bool) (body exit : Nat) : Instr :=
  if greedy then .fork body exit else .fork exit body

def size : Regex → Nat
  | .empty | .one _ | .anchor _ => 1
  | .text cs => cs.length + 1
  | .seq a b => a.size + b.size
  | .alt a b => a.size + b.size + 1
  | .times _ 0 none r => if r.advances then r.size + 1 else r.size + 2
  | .times _ (low + 1) none r => (low + 1) * r.size + 1
  | .times _ low (some high) r => low * r.size + (high - low) * (r.size + 1) + 1
  | .group _ r => r.size + 2

def textCode : List Char → Nat → Nat → List Instr
  | [], _, next => [.jump next]
  | c :: cs, start, next => .one (.single c) (start + 1) :: textCode cs (start + 1) next

/-- Pieces of one size behind each other, each of which goes on with the one behind it. -/
def chainCode (piece : Nat → Nat → List Instr) (size count start : Nat) : List Instr :=
  (List.range count).flatMap fun i => piece (start + i * size) (start + (i + 1) * size)

/-- The program of an expression from the place `start` on, which goes on at `next`. A loop whose
body may match nothing has a fork of its own before its first round. -/
def code : Regex → Nat → Nat → List Instr
  | .empty, _, next => [.jump next]
  | .text cs, start, next => textCode cs start next
  | .one s, _, next => [.one s next]
  | .anchor a, _, next => [.anchor a next]
  | .seq a b, start, next =>
    a.code start (start + a.size) ++ b.code (start + a.size) next
  | .alt a b, start, next =>
    .fork (start + 1) (start + 1 + a.size) ::
      (a.code (start + 1) next ++ b.code (start + 1 + a.size) next)
  | .times greedy 0 none r, start, next =>
    if r.advances then .choice greedy (start + 1) next :: r.code (start + 1) start
    else
      .choice greedy (start + 1) next ::
        (r.code (start + 1) (start + 1 + r.size) ++ [.choice greedy (start + 1) next])
  | .times greedy (low + 1) none r, start, next =>
    chainCode r.code r.size (low + 1) start ++ [.choice greedy (start + low * r.size) next]
  | .times greedy low (some high) r, start, next =>
    chainCode r.code r.size low start ++
      chainCode (fun here there => .choice greedy (here + 1) next :: r.code (here + 1) there)
        (r.size + 1) (high - low) (start + low * r.size) ++
      [.jump next]
  | .group i r, start, next =>
    .mark (2 * i) (start + 1) ::
      (r.code (start + 1) (start + 1 + r.size) ++ [.mark (2 * i + 1) next])

theorem length_textCode (cs : List Char) (start next : Nat) :
    (textCode cs start next).length = cs.length + 1 := by
  induction cs generalizing start with
  | nil => rfl
  | cons c cs ih => simp [textCode, ih]

theorem length_chainCode {piece : Nat → Nat → List Instr} {size : Nat}
    (h : ∀ here there : Nat, (piece here there).length = size) (count start : Nat) :
    (chainCode piece size count start).length = count * size := by
  rw [chainCode, List.length_flatMap]
  induction count with
  | zero => simp
  | succ n ih => rw [List.range_succ, List.map_append, List.sum_append, ih]; simp [h, Nat.succ_mul]

theorem length_code (r : Regex) (start next : Nat) : (r.code start next).length = r.size := by
  induction r generalizing start next with
  | empty => rfl
  | text cs => exact length_textCode cs start next
  | one s => rfl
  | anchor a => rfl
  | seq a b iha ihb => simp [code, size, iha, ihb]
  | alt a b iha ihb => simp [code, size, iha, ihb]
  | times greedy low high r ih =>
    cases high with
    | none =>
      cases low with
      | zero => by_cases h : r.advances = true <;> simp [code, size, h, ih]
      | succ low => simp [code, size, length_chainCode ih]
    | some high =>
      have piece : ∀ here there : Nat,
          (Instr.choice greedy (here + 1) next :: r.code (here + 1) there).length =
            r.size + 1 := fun here there => by simp [ih]
      simp [code, size, length_chainCode ih, length_chainCode piece, Nat.add_assoc]
  | group i r ih => simp [code, size, ih]

end Regex

/-- A program starts at its first place; its last one accepts. -/
structure Program where
  instrs : Array Regex.Instr
  deriving DecidableEq, Repr

namespace Program
open Regex

def ofRegex (r : Regex) : Program := ⟨(r.code 0 r.size ++ [Instr.accept]).toArray⟩

def size (p : Program) : Nat := p.instrs.size

def instr? (p : Program) (place : Nat) : Option Instr := p.instrs[place]?

theorem accept_ofRegex (r : Regex) : (ofRegex r).instr? r.size = some .accept := by
  have h := length_code r 0 r.size
  rw [instr?, ofRegex, List.getElem?_toArray, List.getElem?_append_right (Nat.le_of_eq h), h,
    Nat.sub_self]
  rfl

end Program

end Linearize
