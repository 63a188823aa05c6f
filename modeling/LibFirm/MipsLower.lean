import LibFirm.Mode

/-!
# Lowering a 64-bit `Add` for MIPS

The double-word lowering keeps a 64-bit value as two 32-bit words. MIPS has no carry flag, so
`mips_lower_add64` recovers the carry out of the low addition by an unsigned compare of the
truncated low sum with an addend, turned into the word 1 or 0 by a `Mux`. Either high mode holds
the same bit pattern, so the words are bit vectors.
-/

namespace LibFirm.Mips

/-- A 64-bit value as the double-word lowering keeps it. -/
structure Lowered where
  low : BitVec 32
  high : BitVec 32
  deriving DecidableEq, Repr

/-- The number the two words stand for, `high * 2^32 + low`. -/
def Lowered.toNat (x : Lowered) : Nat := x.high.toNat * 2 ^ 32 + x.low.toNat

/-- The split of a 64-bit value into its low and high word. -/
def Lowered.ofBitVec (x : BitVec 64) : Lowered := ⟨x.setWidth 32, (x >>> 32).setWidth 32⟩

/-- The mode of every low word. -/
def wordUnsigned : IntMode := ⟨false⟩

/-- `Mux(sel, ir_false, ir_true)`. -/
def mux (sel : Bool) (irFalse irTrue : BitVec 32) : BitVec 32 := if sel then irTrue else irFalse

/-- The words `mips_lower_add64` builds for `Add(left, right)`; `get_mode_one(mode)` and
`get_mode_null(mode)` are the words 1 and 0 in either high mode. -/
def mipsLowerAdd64 (left right : Lowered) : Lowered :=
  let resLow := left.low + right.low
  let cmpCarry := wordUnsigned.cmp Relation.less resLow right.low
  let carry := mux cmpCarry 0 1
  let sumHigh := left.high + right.high
  let resHigh := sumHigh + carry
  ⟨resLow, resHigh⟩

/-- The truncated low sum is below an addend exactly when the low addition overflowed, so the
`Mux` yields the carry out of the low word. -/
theorem carry_toNat (xl yl : BitVec 32) :
    (mux (wordUnsigned.cmp Relation.less (xl + yl) yl) 0 1).toNat =
      (xl.toNat + yl.toNat) / 2 ^ 32 := by
  have hx := xl.isLt
  have hy := yl.isLt
  simp only [mux, IntMode.cmp, IntMode.val, wordUnsigned, Relation.eval_less, BitVec.toNat_add,
    Bool.false_eq_true, if_false, Nat.cast_lt, decide_eq_true_eq]
  split
  · rw [show (1 : BitVec 32).toNat = 1 from rfl]; omega
  · rw [show (0 : BitVec 32).toNat = 0 from rfl]; omega

theorem mips_lower_add64_sum (x y : Lowered) :
    (mipsLowerAdd64 x y).toNat = (x.toNat + y.toNat) % 2 ^ 64 := by
  have hc := carry_toNat x.low y.low
  have hxl := x.low.isLt
  have hyl := y.low.isLt
  have hxh := x.high.isLt
  have hyh := y.high.isLt
  simp only [mipsLowerAdd64, Lowered.toNat, BitVec.toNat_add] at hc ⊢
  omega

/-- The lowered words are the split of the 64-bit sum: the lowering refines the 64-bit `Add`
of either mode, whose result is the sum modulo `2^64`. -/
theorem mipsLowerAdd64_ofBitVec (x y : BitVec 64) :
    mipsLowerAdd64 (.ofBitVec x) (.ofBitVec y) = .ofBitVec (x + y) := by
  have hc := carry_toNat (x.setWidth 32) (y.setWidth 32)
  have hx := x.isLt
  have hy := y.isLt
  simp only [mipsLowerAdd64, Lowered.ofBitVec, Lowered.mk.injEq, BitVec.toNat_setWidth,
    BitVec.toNat_ushiftRight, Nat.shiftRight_eq_div_pow, BitVec.toNat_add] at hc ⊢
  constructor <;> apply BitVec.eq_of_toNat_eq <;>
    simp only [BitVec.toNat_setWidth, BitVec.toNat_ushiftRight, Nat.shiftRight_eq_div_pow,
      BitVec.toNat_add, hc] <;> omega

end LibFirm.Mips
