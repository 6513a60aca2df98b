/-!
# Linearize.Bits

Words as lists of bits, least significant bit first.
-/

namespace Linearize
namespace Bits

/-- The word of 32 bits whose low `width` bits are set; there is none for a greater width. -/
def mask? (width : Nat) : Option UInt32 :=
  if width ≤ 32 then some (UInt32.ofNat (1 <<< width - 1)) else none

/-- The bit of a word at a position; positions past the 64th hold 0. -/
def bitOf (x : UInt64) (i : Nat) : Bool := i < 64 && (x >>> UInt64.ofNat i) &&& 1 == 1

def ofWord (x : UInt64) (width : Nat) : List Bool := (List.range width).map (bitOf x)

/-- The number that a list of bits of any length stands for. -/
def toNat : List Bool → Nat
  | [] => 0
  | b :: bits => b.toNat + 2 * toNat bits

/-- The word whose only bit is at a position; a shift past the 64th bit overflows. -/
def single? (i : Nat) : Option UInt64 := if i < 64 then some (1 <<< UInt64.ofNat i) else none

/-- Sets bits of a word, the first of them at position `i`. -/
def setFrom (i : Nat) (x : UInt64) : List Bool → Option UInt64
  | [] => some x
  | false :: bits => setFrom (i + 1) x bits
  | true :: bits =>
    match single? i with
    | none => none
    | some b => setFrom (i + 1) (x ||| b) bits

/-- The word that a list of bits stands for; there is none if a bit past the 64th is set. -/
def toWord? (bits : List Bool) : Option UInt64 := setFrom 0 0 bits

end Bits
end Linearize
