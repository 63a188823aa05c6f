import Mathlib.Data.BitVec
import Mathlib.Tactic.Ring
import Mathlib.Tactic.Linarith

/-!
# Integer modes, relations and `create_abs`

A value of an integer mode is a bit pattern of the mode's width; the mode's sign decides how
`Cmp` compares and `Div` divides. Arithmetic wraps modulo `2 ^ w`, and `IntMode.Fits` names the
mathematical values a mode represents exactly.
-/

namespace LibFirm

/-- `ir_relation`: the bits `equal`, `less`, `greater` and `unordered`. -/
structure Relation where
  equalBit : Bool
  lessBit : Bool
  greaterBit : Bool
  unorderedBit : Bool
  deriving DecidableEq, Repr

namespace Relation

def equal : Relation := ⟨true, false, false, false⟩
def less : Relation := ⟨false, true, false, false⟩
def lessEqual : Relation := ⟨true, true, false, false⟩
def greater : Relation := ⟨false, false, true, false⟩
def greaterEqual : Relation := ⟨true, false, true, false⟩
def lessGreater : Relation := ⟨false, true, true, false⟩

/-- Whether the relation holds between two ordered (never unordered) values. -/
def eval (r : Relation) (x y : Int) : Bool :=
  (r.equalBit && x == y) || (r.lessBit && decide (x < y)) || (r.greaterBit && decide (y < x))

@[simp] theorem eval_less (x y : Int) : less.eval x y = decide (x < y) := by simp [eval, less]

@[simp] theorem eval_greater (x y : Int) : greater.eval x y = decide (y < x) := by
  simp [eval, greater]

@[simp] theorem eval_lessEqual (x y : Int) : lessEqual.eval x y = decide (x ≤ y) := by
  rw [Bool.eq_iff_iff]; simp [eval, lessEqual]; omega

@[simp] theorem eval_greaterEqual (x y : Int) : greaterEqual.eval x y = decide (y ≤ x) := by
  rw [Bool.eq_iff_iff]; simp [eval, greaterEqual]; omega

/-- The four relations `determine_lin_unroll_info` accepts for the header compare. -/
def Accepted (r : Relation) : Prop :=
  r = greaterEqual ∨ r = greater ∨ r = lessEqual ∨ r = less

instance (r : Relation) : Decidable r.Accepted := inferInstanceAs (Decidable (_ ∨ _))

/-- `rel == ir_relation_less || rel == ir_relation_less_equal`. -/
def isLessRel (r : Relation) : Bool := r == less || r == lessEqual

/-- `rel == ir_relation_less_equal || rel == ir_relation_greater_equal`. -/
def hasEqual (r : Relation) : Bool := r == lessEqual || r == greaterEqual

end Relation

/-- An integer mode; its width is the index `w` of the `BitVec w` values. -/
structure IntMode where
  signed : Bool
  deriving DecidableEq, Repr

namespace IntMode

variable {w : Nat}

/-- The integer a bit pattern stands for in the mode. -/
def val (m : IntMode) (x : BitVec w) : Int := if m.signed then x.toInt else x.toNat

/-- `x` is a value of the `w`-bit mode, so computing it does not wrap. -/
def Fits (m : IntMode) (w : Nat) (x : Int) : Prop :=
  if m.signed then -2 ^ w ≤ 2 * x ∧ 2 * x < 2 ^ w else 0 ≤ x ∧ x < 2 ^ w

instance (m : IntMode) (w : Nat) (x : Int) : Decidable (m.Fits w x) :=
  inferInstanceAs (Decidable (if m.signed then _ else _))

/-- `Cmp` in the mode. -/
def cmp (m : IntMode) (r : Relation) (x y : BitVec w) : Bool := r.eval (m.val x) (m.val y)

/-- `Div` in the mode, truncating; a zero divisor traps, which is `none`. -/
def div (m : IntMode) (x y : BitVec w) : Option (BitVec w) :=
  if y = 0 then none else some (if m.signed then x.sdiv y else x.udiv y)

theorem bmod_of_fits {x : Int} (h1 : -2 ^ w ≤ 2 * x) (h2 : 2 * x < 2 ^ w) :
    x.bmod (2 ^ w) = x := by
  have hp : (0 : Int) < 2 ^ w := by positivity
  rw [Int.bmod_def]
  have hcast : ((2 ^ w : Nat) : Int) = 2 ^ w := by push_cast; rfl
  rcases Int.lt_or_le x 0 with hx | hx
  · have hmod : x % ((2 ^ w : Nat) : Int) = x + 2 ^ w := by
      rw [hcast, ← Int.add_emod_self]
      exact Int.emod_eq_of_lt (by omega) (by omega)
    rw [hmod, if_neg (by omega)]
    omega
  · have hmod : x % ((2 ^ w : Nat) : Int) = x := by
      rw [hcast]; exact Int.emod_eq_of_lt hx (by omega)
    rw [hmod, if_pos (by omega)]

theorem val_fits (m : IntMode) (x : BitVec w) : m.Fits w (m.val x) := by
  have hlt := x.isLt
  rcases m with ⟨_ | _⟩
  · simp only [Fits, val, Bool.false_eq_true, ↓reduceIte]
    exact ⟨by omega, by exact_mod_cast hlt⟩
  · have hc : ((2 ^ w : Nat) : Int) = 2 ^ w := by simp
    have hlt' : (x.toNat : Int) < 2 ^ w := by exact_mod_cast hlt
    simp only [Fits, val, ↓reduceIte, BitVec.toInt_eq_toNat_cond, hc]
    split <;> rename_i h
    · have : (2 : Int) * x.toNat < 2 ^ w := by exact_mod_cast h
      constructor <;> omega
    · have : ¬ ((2 : Int) * x.toNat < 2 ^ w) := by exact_mod_cast h
      constructor <;> omega

theorem cast_val (m : IntMode) (x : BitVec w) : ((m.val x : Int) : BitVec w) = x := by
  rcases m with ⟨_ | _⟩
  · show BitVec.ofInt w (x.toNat : Int) = x
    rw [BitVec.ofInt_natCast]
    exact BitVec.eq_of_toNat_eq (by rw [BitVec.toNat_ofNat, Nat.mod_eq_of_lt x.isLt])
  · show BitVec.ofInt w x.toInt = x
    have hx := val_fits ⟨true⟩ x
    simp only [Fits, val, ↓reduceIte] at hx
    exact BitVec.eq_of_toInt_eq (by rw [BitVec.toInt_ofInt, bmod_of_fits hx.1 hx.2])

theorem val_cast_of_fits (m : IntMode) {v : Int} (h : m.Fits w v) :
    m.val ((v : Int) : BitVec w) = v := by
  rcases m with ⟨_ | _⟩
  · simp only [Fits, val, Bool.false_eq_true, ↓reduceIte] at h ⊢
    show ((BitVec.ofInt w v).toNat : Int) = v
    rw [BitVec.toNat_ofInt, Int.toNat_of_nonneg (Int.emod_nonneg _ (by positivity)),
      Int.emod_eq_of_lt h.1 (by exact_mod_cast h.2)]
  · simp only [Fits, val, ↓reduceIte] at h ⊢
    show (BitVec.ofInt w v).toInt = v
    rw [BitVec.toInt_ofInt, bmod_of_fits h.1 h.2]

theorem val_eq_of_cast (m : IntMode) {x : BitVec w} {v : Int} (h : m.Fits w v)
    (hx : x = ((v : Int) : BitVec w)) : m.val x = v := by
  rw [hx, m.val_cast_of_fits h]

theorem val_add_of_fits (m : IntMode) {x y : BitVec w} (h : m.Fits w (m.val x + m.val y)) :
    m.val (x + y) = m.val x + m.val y :=
  m.val_eq_of_cast h (by push_cast; rw [m.cast_val, m.cast_val])

theorem val_sub_of_fits (m : IntMode) {x y : BitVec w} (h : m.Fits w (m.val x - m.val y)) :
    m.val (x - y) = m.val x - m.val y :=
  m.val_eq_of_cast h (by push_cast; rw [m.cast_val, m.cast_val])

end IntMode

/-- `create_abs`: `Sub(Eor(Shrs(n, w - 1), n), Shrs(n, w - 1))`, the branch-free `|n|`. -/
def createAbs (x : BitVec w) : BitVec w :=
  (x.sshiftRight (w - 1) ^^^ x) - x.sshiftRight (w - 1)

theorem ushiftRight_pred_eq_zero {x : BitVec w} (h : 2 * x.toNat < 2 ^ w) :
    x >>> (w - 1) = 0#w := by
  apply BitVec.eq_of_toNat_eq
  rw [BitVec.toNat_ushiftRight, Nat.shiftRight_eq_div_pow, BitVec.toNat_ofNat, Nat.zero_mod]
  apply Nat.div_eq_of_lt
  cases w with
  | zero => have := x.isLt; simp_all
  | succ k => rw [Nat.pow_succ] at h; simpa using (by omega : x.toNat < 2 ^ k)

theorem createAbs_eq (x : BitVec w) : createAbs x = if x.msb then -x else x := by
  unfold createAbs
  cases hm : x.msb with
  | false =>
    rw [BitVec.sshiftRight_eq_of_msb_false hm,
      ushiftRight_pred_eq_zero (BitVec.msb_eq_false_iff_two_mul_lt.mp hm)]
    simp
  | true =>
    have hnot : 2 * (~~~x).toNat < 2 ^ w := by
      have := BitVec.msb_eq_true_iff_two_mul_ge.mp hm
      have := x.isLt
      rw [BitVec.toNat_not]; omega
    rw [BitVec.sshiftRight_eq_of_msb_true hm, ushiftRight_pred_eq_zero hnot, BitVec.not_zero,
      BitVec.allOnes_xor, ← BitVec.negOne_eq_allOnes, BitVec.neg_eq_not_add x]
    simp only [↓reduceIte, BitVec.sub_toAdd, BitVec.neg_neg]

end LibFirm
