import CompilerKit.Word
import Mathlib.Data.Int.Bitwise
import Mathlib.Data.Int.ModEq

/-!
# Words as integers modulo `2^64`

A number of any size stands for the word of its last 64 binary digits. Masks take these digits,
wrapping reads them as a signed number, and the operations on numbers that are then wrapped are
operations on the words.
-/

namespace CompilerKit.Word

/-- The last 64 digits in two's complement. -/
abbrev digits (x : Int) : BitVec 64 := .ofInt 64 x

theorem unsigned_eq_toNat (x) : unsigned x = (digits x).toNat := by
  rw [BitVec.toNat_ofInt, unsigned, modulus]
  omega

theorem wrap_eq_toInt (x) : wrap x = (digits x).toInt := by
  rw [BitVec.toInt_ofInt, Int.bmod, wrap, modulus, least]
  omega

theorem wrap_eq_wrap_iff : wrap x = wrap y ↔ x ≡ y [ZMOD modulus] := by
  rw [wrap, wrap, Int.ModEq, modulus, least]
  omega

theorem wrap_modEq (x) : wrap x ≡ x [ZMOD modulus] :=
  wrap_eq_wrap_iff.mp (wrap_of_inRange (inRange_wrap x))

/-- The mask keeps the digits of a natural number, and of a negative one the opposite digits of the
number behind it. -/
theorem unsigned_eq_land (x : Int) : unsigned x = x.land (2 ^ 64 - 1) := by
  rw [unsigned_eq_toNat]
  cases x with
  | ofNat m =>
    change ((m % 2 ^ 64 : Nat) : Int) = (m &&& (2 ^ 64 - 1) : Nat)
    rw [Nat.and_two_pow_sub_one_eq_mod]
  | negSucc m =>
    rw [digits, BitVec.ofInt_negSucc_eq_not_ofNat]
    refine congrArg Int.ofNat (Nat.eq_of_testBit_eq fun i => ?_)
    rw [BitVec.testBit_toNat, BitVec.getLsbD_not, BitVec.getLsbD_ofNat, Nat.testBit_ldiff,
      Nat.testBit_two_pow_sub_one]
    cases decide (i < 64) <;> rfl

theorem digits_bitXor (x y) : digits (bitXor x y) = digits x ^^^ digits y := by
  cases x with
  | ofNat m =>
    cases y with
    | ofNat n => exact BitVec.ofNat_xor
    | negSucc n =>
      simp only [bitXor, BitVec.ofInt_negSucc_eq_not_ofNat, BitVec.ofNat_xor]
      exact BitVec.not_xor_right
  | negSucc m =>
    cases y with
    | ofNat n =>
      simp only [bitXor, BitVec.ofInt_negSucc_eq_not_ofNat, BitVec.ofNat_xor]
      exact BitVec.not_xor_left
    | negSucc n =>
      -- Opposite digits differ where the digits do.
      simp only [bitXor, BitVec.ofInt_negSucc_eq_not_ofNat]
      rw [← BitVec.not_xor_left, ← BitVec.not_xor_right, BitVec.not_not]
      exact BitVec.ofNat_xor

theorem digits_sub (x y) : digits (x - y) = digits x - digits y := by
  rw [Int.sub_eq_add_neg, digits, BitVec.ofInt_add, BitVec.ofInt_neg, BitVec.sub_eq_add_neg]

/-- What is an operation on words is not changed if its operands are wrapped before. -/
theorem wrap_operation {f : Int → Int → Int} {g : BitVec 64 → BitVec 64 → BitVec 64}
    (h : ∀ x y, digits (f x y) = g (digits x) (digits y)) (x y) :
    wrap (f x y) = (g (digits x) (digits y)).toInt ∧ wrap (f x y) = wrap (f (wrap x) (wrap y)) := by
  have hf x y : wrap (f x y) = (g (digits x) (digits y)).toInt := by rw [wrap_eq_toInt, h]
  have hwrap x : digits (wrap x) = digits x := by rw [wrap_eq_toInt, digits, BitVec.ofInt_toInt]
  exact ⟨hf x y, by rw [hf, hf, hwrap, hwrap]⟩

/-- Numbers are masked and wrapped modulo `2^64`, and operations see no more of them than words. -/
theorem words_modular (x y : Int) :
    unsigned x = x.land (2 ^ 64 - 1) ∧ wrap x = (x + 2 ^ 63).land (2 ^ 64 - 1) - 2 ^ 63 ∧
      (-2 ^ 63 ≤ wrap x ∧ wrap x ≤ 2 ^ 63 - 1) ∧ wrap x ≡ x [ZMOD 2 ^ 64] ∧
      (wrap x = x ↔ inRange x = true) ∧ wrap (unsigned x) = wrap x ∧
      (add x y = (digits x + digits y).toInt ∧ add x y = add (wrap x) (wrap y)) ∧
      (sub x y = (digits x - digits y).toInt ∧ sub x y = sub (wrap x) (wrap y)) ∧
      (mul x y = (digits x * digits y).toInt ∧ mul x y = mul (wrap x) (wrap y)) ∧
      (neg x = (-digits x).toInt ∧ neg x = neg (wrap x)) ∧
      (xor x y = (digits x ^^^ digits y).toInt ∧ xor x y = xor (wrap x) (wrap y)) := by
  refine ⟨unsigned_eq_land x, ?_, inRange_iff.mp (inRange_wrap x), wrap_modEq x,
    ⟨fun h => h ▸ inRange_wrap x, wrap_of_inRange⟩, ?_, wrap_operation BitVec.ofInt_add x y,
    wrap_operation digits_sub x y, wrap_operation BitVec.ofInt_mul x y,
    wrap_operation (f := fun x _ => -x) (g := fun a _ => -a) (fun _ _ => BitVec.ofInt_neg) x x,
    wrap_operation digits_bitXor x y⟩
  · rw [← unsigned_eq_land]
    rfl
  · exact wrap_eq_wrap_iff.mpr (Int.mod_modEq x modulus)

end CompilerKit.Word
