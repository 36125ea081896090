/-!
# Signed 64-bit words

Arithmetic on signed 64-bit words, on integers of any size: operate, then wrap into the range.
-/

namespace CompilerKit.Word

def modulus : Nat := 0x10000000000000000

def least : Int := -0x8000000000000000

def greatest : Int := 0x7fffffffffffffff

def unsigned (x : Int) : Int := x % (modulus : Int)

/-- The representative in `[-2^63, 2^63)`. -/
def wrap (x : Int) : Int := (x - least) % (modulus : Int) + least

def inRange (x : Int) : Bool := least ≤ x && x ≤ greatest

def clamp (x : Int) : Int := min greatest (max least x)

def add (x y : Int) : Int := wrap (x + y)

def sub (x y : Int) : Int := wrap (x - y)

def mul (x y : Int) : Int := wrap (x * y)

def neg (x : Int) : Int := wrap (-x)

/-- Exclusive or of integers in two's complement of unbounded width. -/
def bitXor : Int → Int → Int
  | .ofNat a, .ofNat b => .ofNat (a ^^^ b)
  | .ofNat a, .negSucc b => .negSucc (a ^^^ b)
  | .negSucc a, .ofNat b => .negSucc (a ^^^ b)
  | .negSucc a, .negSucc b => .ofNat (a ^^^ b)

def xor (x y : Int) : Int := wrap (bitXor x y)

/-- The next multiple of `alignment` from `n` on, in the direction of `alignment`; none for
alignment zero. -/
def align? (n alignment : Int) : Option Int :=
  if alignment = 0 then none
  else
    let r := n.fmod alignment
    some (if r = 0 then n else n + (alignment - r))

/-! ## Words -/

variable {x : Int}

theorem inRange_iff : inRange x = true ↔ least ≤ x ∧ x ≤ greatest := by
  simp [inRange]

theorem inRange_wrap (x : Int) : inRange (wrap x) = true := by
  rw [inRange_iff, wrap, modulus, least, greatest]
  omega

theorem wrap_of_inRange (h : inRange x = true) : wrap x = x := by
  rw [inRange_iff, least, greatest] at h
  rw [wrap, modulus, least]
  omega

/-- Numbers that are less than the number of words apart do not wrap to the same word. -/
theorem eq_of_wrap_eq {y : Int} (h : wrap x = wrap y) (hlt : (x - y).natAbs < modulus) : x = y := by
  rw [modulus] at hlt
  rw [wrap, wrap, modulus, least] at h
  omega

theorem inRange_clamp (x : Int) : inRange (clamp x) = true := by
  rw [inRange_iff, clamp, least, greatest]
  omega

theorem sub_self (x : Int) : sub x x = 0 := by
  rw [sub, Int.sub_self, wrap_of_inRange (by decide)]

end CompilerKit.Word
