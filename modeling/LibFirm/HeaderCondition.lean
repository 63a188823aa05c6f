import LibFirm.Mode
import Mathlib.Algebra.Order.Ring.Abs

/-!
# The header bound of the Duff unroller

`update_header_condition` replaces the bound `N` of the header compare of a recognised loop by
`N'`, so that the unrolled loop, whose body is `f` copies of the original body, enters an
iteration only when the original loop would run all `f` of them: `N ∓ |c|·(f - 1)` for an `Add`
or `Sub` step, a product or quotient with `f ^ c` for a `Mul` step.
-/

namespace LibFirm

variable {w : Nat}

/-- `enum Op`: how the increment combines the induction Phi with the step `c`. -/
inductive Op where
  | add
  | sub
  | mul
  deriving DecidableEq, Repr

namespace Op

/-- The increment `op(i, c)`, the Phi as its first operand. -/
def apply : Op → BitVec w → BitVec w → BitVec w
  | .add, i, c => i + c
  | .sub, i, c => i - c
  | .mul, i, c => i * c

/-- `op^k(i, c)`: the induction value `k` iterations after `i`. -/
def iter (op : Op) (c : BitVec w) : Nat → BitVec w → BitVec w
  | 0, i => i
  | k + 1, i => op.iter c k (op.apply i c)

@[simp] theorem iter_zero (op : Op) (c i : BitVec w) : op.iter c 0 i = i := rfl
@[simp] theorem iter_succ (op : Op) (c i : BitVec w) (k : Nat) :
    op.iter c (k + 1) i = op.iter c k (op.apply i c) := rfl

/-- The mathematical change of the induction value per iteration of an `Add` or `Sub` step. -/
def delta (m : IntMode) (op : Op) (c : BitVec w) : Int := if op = .sub then -m.val c else m.val c

theorem abs_delta (m : IntMode) (op : Op) (c : BitVec w) : |op.delta m c| = |m.val c| := by
  unfold delta; split <;> simp

theorem val_apply_of_fits {m : IntMode} {op : Op} (hop : op ≠ .mul) {i c : BitVec w}
    (h : m.Fits w (m.val i + op.delta m c)) : m.val (op.apply i c) = m.val i + op.delta m c := by
  cases op with
  | add => exact m.val_add_of_fits h
  | sub =>
    have hd : Op.sub.delta m c = -m.val c := if_pos rfl
    rw [hd, ← sub_eq_add_neg] at h ⊢
    exact m.val_sub_of_fits h
  | mul => exact absurd rfl hop

/-- While no value wraps, the `k`-th induction value is `i + k·delta`. -/
theorem val_iter_of_fits {m : IntMode} {op : Op} (hop : op ≠ .mul) {c : BitVec w} :
    ∀ (k : Nat) (i : BitVec w), (∀ j ≤ k, m.Fits w (m.val i + j * op.delta m c)) →
      m.val (op.iter c k i) = m.val i + k * op.delta m c
  | 0, i, _ => by simp
  | k + 1, i, h => by
    have h1 : m.val (op.apply i c) = m.val i + op.delta m c :=
      val_apply_of_fits hop (by simpa using h 1 (by omega))
    rw [iter_succ, val_iter_of_fits hop k _ (fun j hj => by
      have e : m.val i + op.delta m c + j * op.delta m c = m.val i + ↑(j + 1) * op.delta m c := by
        push_cast; ring
      rw [h1, e]; exact h (j + 1) (by omega)), h1]
    push_cast; ring

end Op

/-- The header compare of a recognised loop: `info->rel`, and whether `info->phi` is the left
operand (otherwise it is the right one and the compare is inverted). -/
structure HeaderCmp where
  rel : Relation
  phiLeft : Bool
  deriving DecidableEq, Repr

namespace HeaderCmp

/-- The compare as the header evaluates it, induction value `i` against bound `N`. -/
def test (m : IntMode) (h : HeaderCmp) (i N : BitVec w) : Bool :=
  if h.phiLeft then m.cmp h.rel i N else m.cmp h.rel N i

/-- `is_less`: `less ^ inverted`, the loop runs while `i` stays below its bound. -/
def isLess (h : HeaderCmp) : Bool := xor h.rel.isLessRel (!h.phiLeft)

/-- An accepted compare read as a bound on the induction value `x`: below `n` when `isLess`,
above it otherwise, inclusive when the relation holds on equality. -/
def bounded (h : HeaderCmp) (x n : Int) : Prop :=
  if h.isLess then (if h.rel.hasEqual then x ≤ n else x < n)
  else (if h.rel.hasEqual then n ≤ x else n < x)

theorem test_iff_bounded (m : IntMode) {h : HeaderCmp} (hacc : h.rel.Accepted) (i N : BitVec w) :
    h.test m i N = true ↔ h.bounded (m.val i) (m.val N) := by
  obtain ⟨rel, phiLeft⟩ := h
  rcases hacc with rfl | rfl | rfl | rfl <;> cases phiLeft <;>
    simp +decide [test, bounded, isLess, IntMode.cmp, Relation.isLessRel, Relation.hasEqual]

end HeaderCmp

/-- `update_header_condition_add`: `N - |c|·(f - 1)` for a less-type compare, else
`N + |c|·(f - 1)`, with `f` and `1` constants of the mode of `c`. -/
def updateHeaderConditionAdd (N c : BitVec w) (f : Nat) (less : Bool) : BitVec w :=
  let mul := createAbs c * (BitVec.ofNat w f - 1)
  if less then N - mul else N + mul

/-- `create_r_pow`: `base * (base * ... * base)`, `exp` factors, or the constant `1`. -/
def createRPow (base : BitVec w) : Nat → BitVec w
  | 0 => 1
  | 1 => base
  | e + 2 => base * createRPow base (e + 1)

/-- `get_Const_long(c)` as the `unsigned long long` exponent of `create_r_pow`. -/
def constExponent (m : IntMode) (c : BitVec w) : Nat := (m.val c % 2 ^ 64).toNat

/-- `update_header_condition_mul`: `((N / f^c) * c) * c` for a less-type compare, else
`((N / f^c) * c) / c`, the quotients by `DivRL` in the mode. -/
def updateHeaderConditionMul (m : IntMode) (N c : BitVec w) (f : Nat) (less : Bool) :
    Option (BitVec w) := do
  let pow := createRPow (BitVec.ofNat w f) (constExponent m c)
  let nDivC := (← m.div N pow) * c
  if less then pure (nDivC * c) else m.div nDivC c

/-- `update_header_condition`: the bound `N'` the compare takes in place of `N`; `none` when
a `Div` of the `Mul` case would trap. -/
def updateHeaderCondition (m : IntMode) (h : HeaderCmp) (op : Op) (N c : BitVec w) (f : Nat) :
    Option (BitVec w) :=
  match op with
  | .add | .sub => some (updateHeaderConditionAdd N c f h.isLess)
  | .mul => updateHeaderConditionMul m N c f h.isLess

/-- The mathematical `N ∓ |c|·(f - 1)` of `update_header_condition_add`. -/
def boundValue (less : Bool) (n a : Int) (f : Nat) : Int :=
  if less then n - a * ((f : Int) - 1) else n + a * ((f : Int) - 1)

/-- The conditions under which `update_header_condition_add` computes `boundValue`: `create_abs`
yields `|c|`, and the new bound is a value of the mode. -/
structure BoundExact (m : IntMode) (less : Bool) (N c : BitVec w) (f : Nat) : Prop where
  abs_exact : m.val (createAbs c) = |m.val c|
  bound_fits : m.Fits w (boundValue less (m.val N) |m.val c| f)

instance (m : IntMode) (less : Bool) (N c : BitVec w) (f : Nat) :
    Decidable (BoundExact m less N c f) :=
  decidable_of_iff (_ ∧ _) ⟨fun ⟨a, b⟩ => ⟨a, b⟩, fun ⟨a, b⟩ => ⟨a, b⟩⟩

theorem val_updateHeaderConditionAdd {m : IntMode} {less : Bool} {N c : BitVec w} {f : Nat}
    (h : BoundExact m less N c f) :
    m.val (updateHeaderConditionAdd N c f less) = boundValue less (m.val N) |m.val c| f := by
  apply m.val_eq_of_cast h.bound_fits
  have hc : createAbs c = ((|m.val c| : Int) : BitVec w) := by rw [← h.abs_exact, m.cast_val]
  have hf : BitVec.ofNat w f = ((f : Int) : BitVec w) := by rw [Int.cast_natCast]; rfl
  unfold updateHeaderConditionAdd boundValue
  conv_lhs => rw [← m.cast_val N, hc, hf]
  cases less <;> simp only [Bool.false_eq_true, ↓reduceIte] <;> push_cast <;> ring

/-- Every one of the first `f` values `x + k·s` keeps to the bound when `x` keeps to the
moved bound `N ∓ a·(f - 1)` and the step is at most `a` in size. -/
theorem bounded_steps_of_bounded (h : HeaderCmp) {x n s a : Int} {f : Nat} (hs : |s| ≤ a)
    (hx : h.bounded x (boundValue h.isLess n a f)) :
    ∀ k < f, h.bounded (x + k * s) n := by
  intro k hk
  have ha : 0 ≤ a := le_trans (abs_nonneg s) hs
  have hks : |(k : Int) * s| ≤ a * ((f : Int) - 1) := by
    rw [abs_mul, Nat.abs_cast, mul_comm]
    exact mul_le_mul hs (by omega) (by positivity) ha
  have hlo := neg_abs_le ((k : Int) * s)
  have hhi := le_abs_self ((k : Int) * s)
  unfold HeaderCmp.bounded boundValue at *
  cases hl : h.isLess <;> cases he : h.rel.hasEqual <;>
    simp only [hl, he, Bool.false_eq_true, ↓reduceIte] at * <;> omega

theorem bounded_of_bounded_last (h : HeaderCmp) {x n s : Int} {f : Nat} (hf : 1 ≤ f)
    (hdir : if h.isLess then 0 ≤ s else s ≤ 0)
    (hlast : h.bounded (x + ((f - 1 : Nat) : Int) * s) n) :
    h.bounded x (boundValue h.isLess n |s| f) := by
  rw [Nat.cast_sub hf, Nat.cast_one] at hlast
  unfold HeaderCmp.bounded boundValue at *
  cases hl : h.isLess <;> cases he : h.rel.hasEqual <;>
    simp only [hl, he, Bool.false_eq_true, ↓reduceIte] at hdir hlast ⊢ <;>
    first
    | (rw [abs_of_nonneg hdir, mul_comm]; omega)
    | (rw [abs_of_nonpos hdir, neg_mul, mul_comm]; omega)

@[simp] theorem updateHeaderCondition_add_sub (m : IntMode) (h : HeaderCmp) {op : Op}
    (hop : op ≠ .mul) (N c : BitVec w) (f : Nat) :
    updateHeaderCondition m h op N c f = some (updateHeaderConditionAdd N c f h.isLess) := by
  cases op <;> first | rfl | exact absurd rfl hop

section Steps

variable {m : IntMode} {h : HeaderCmp} {op : Op} {f : Nat} {i N c : BitVec w}

/-- With an `Add` or `Sub` step and no wrap-around, the unrolled header test only passes when
the original test passes at each of the next `f` induction values. -/
theorem header_test_sound (hacc : h.rel.Accepted) (hop : op ≠ .mul)
    (hb : BoundExact m h.isLess N c f)
    (hsteps : ∀ j < f, m.Fits w (m.val i + j * op.delta m c))
    (ht : h.test m i (updateHeaderConditionAdd N c f h.isLess) = true) :
    ∀ k < f, h.test m (op.iter c k i) N = true := by
  rw [HeaderCmp.test_iff_bounded m hacc, val_updateHeaderConditionAdd hb] at ht
  intro k hk
  rw [HeaderCmp.test_iff_bounded m hacc,
    Op.val_iter_of_fits hop k i (fun j hj => hsteps j (by omega))]
  exact bounded_steps_of_bounded h (Op.abs_delta m op c).le ht k hk

theorem header_test_complete (hacc : h.rel.Accepted) (hop : op ≠ .mul) (hf : 1 ≤ f)
    (hb : BoundExact m h.isLess N c f)
    (hsteps : ∀ j < f, m.Fits w (m.val i + j * op.delta m c))
    (hdir : if h.isLess then 0 ≤ op.delta m c else op.delta m c ≤ 0)
    (hall : ∀ k < f, h.test m (op.iter c k i) N = true) :
    h.test m i (updateHeaderConditionAdd N c f h.isLess) = true := by
  have hlast := hall (f - 1) (by omega)
  rw [HeaderCmp.test_iff_bounded m hacc,
    Op.val_iter_of_fits hop (f - 1) i (fun j hj => hsteps j (by omega))] at hlast
  rw [HeaderCmp.test_iff_bounded m hacc, val_updateHeaderConditionAdd hb,
    ← Op.abs_delta m op c]
  exact bounded_of_bounded_last h hf hdir hlast

end Steps

theorem update_header_condition_exact {m : IntMode} {h : HeaderCmp} {op : Op} {f : Nat}
    {i N c N' : BitVec w} (hacc : h.rel.Accepted) (hop : op ≠ .mul) (hf : 2 ≤ f)
    (hN' : updateHeaderCondition m h op N c f = some N')
    (hb : BoundExact m h.isLess N c f)
    (hsteps : ∀ j < f, m.Fits w (m.val i + j * op.delta m c)) :
    (h.test m i N' = true → ∀ k < f, h.test m (op.iter c k i) N = true) ∧
    ((if h.isLess then 0 ≤ op.delta m c else op.delta m c ≤ 0) →
      (∀ k < f, h.test m (op.iter c k i) N = true) → h.test m i N' = true) := by
  rw [updateHeaderCondition_add_sub m h hop, Option.some_inj] at hN'
  subst hN'
  exact ⟨header_test_sound hacc hop hb hsteps,
    fun hdir => header_test_complete hacc hop (by omega) hb hsteps hdir⟩

theorem update_header_condition_exact_at_97 :
    ((⟨.less, true⟩ : HeaderCmp).rel.Accepted ∧ Op.add ≠ .mul ∧ 2 ≤ 4 ∧
      updateHeaderCondition ⟨true⟩ ⟨.less, true⟩ .add 100#8 1#8 4 = some 97#8 ∧
      BoundExact ⟨true⟩ (⟨.less, true⟩ : HeaderCmp).isLess 100#8 1#8 4 ∧
      ∀ j : Nat, j < 4 → (⟨true⟩ : IntMode).Fits 8
        ((⟨true⟩ : IntMode).val 0#8 + j * Op.add.delta ⟨true⟩ 1#8)) ∧
    ((HeaderCmp.test ⟨true⟩ ⟨.less, true⟩ 0#8 97#8 = true →
        ∀ k < 4, HeaderCmp.test ⟨true⟩ ⟨.less, true⟩ (Op.add.iter 1#8 k 0#8) 100#8 = true) ∧
      ((if (⟨.less, true⟩ : HeaderCmp).isLess then 0 ≤ Op.add.delta ⟨true⟩ 1#8
          else Op.add.delta ⟨true⟩ 1#8 ≤ 0) →
        (∀ k < 4, HeaderCmp.test ⟨true⟩ ⟨.less, true⟩ (Op.add.iter 1#8 k 0#8) 100#8 = true) →
        HeaderCmp.test ⟨true⟩ ⟨.less, true⟩ 0#8 97#8 = true)) := by
  have hb : BoundExact (w := 8) ⟨true⟩ true 100#8 1#8 4 := by decide
  have hs : ∀ j : Nat, j < 4 → (⟨true⟩ : IntMode).Fits 8
      ((⟨true⟩ : IntMode).val 0#8 + j * Op.add.delta ⟨true⟩ 1#8) := by decide
  exact ⟨⟨by decide, by decide, by decide, by decide, hb, hs⟩,
    update_header_condition_exact (by decide) (by decide) (by decide) (by decide) hb hs⟩

/-- An unsigned bound below `|c|·(f - 1)` wraps: with `N = 0`, `c = 1`, `f = 2` the new bound
is `255`, the unrolled test passes at `i = 0`, and the original test already fails there. -/
theorem update_header_condition_wraps :
    updateHeaderCondition ⟨false⟩ ⟨.less, true⟩ .add 0#8 1#8 2 = some 255#8 ∧
    HeaderCmp.test ⟨false⟩ ⟨.less, true⟩ 0#8 255#8 = true ∧
    HeaderCmp.test ⟨false⟩ ⟨.less, true⟩ (Op.add.iter 1#8 0 0#8) 0#8 = false := by
  decide

end LibFirm
