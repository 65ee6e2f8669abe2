import Mathlib.Data.Nat.Notation

/-!
# `encoder_x1`: quadrature counter

`ip/cnc_modules/encoder_x1.v`: each phase input is latched twice, remembered
one more clock, and the count moves on one of the four phase boundaries only:
up on `(0,0) → (1,0)`, down on `(1,0) → (0,0)`. Only the count has a reset.
-/

namespace FpgaCnc

/-- The phase inputs sampled at a clock edge. -/
structure EncoderX1In where
  encA : Bool
  encB : Bool
deriving DecidableEq, Repr

/-- The registers, in the order of the pipeline. -/
structure EncoderX1 where
  a1 : Bool
  a : Bool
  b1 : Bool
  b : Bool
  lastA : Bool
  lastB : Bool
  count : BitVec 32
deriving DecidableEq, Repr

namespace EncoderX1

/-- The reset branch. -/
def reset (s : EncoderX1) : EncoderX1 := { s with count := 0x7FFFFFFF#32 }

/-- One clock edge of the three processes. -/
def posedge (i : EncoderX1In) (s : EncoderX1) : EncoderX1 where
  a1 := i.encA
  a := s.a1
  b1 := i.encB
  b := s.b1
  lastA := s.a
  lastB := s.b
  count :=
    if s.a = true ∧ s.b = false then
      if s.lastA = false ∧ s.lastB = false then s.count + 1 else s.count
    else if s.a = false ∧ s.b = false then
      if s.lastA = true ∧ s.lastB = false then s.count - 1 else s.count
    else s.count

end EncoderX1

end FpgaCnc
