import LibFirm.X86

/-!
# A `Sub` whose output register is its right input

After register allocation `ia32_handle_2addr` hands a `Sub` or `Sbb` whose output register is
the one of its right input `b` to `ia32_transform_sub_to_neg_add`, which emits `Neg b; Add`, or
`Not b; Stc; Adc; Cmc` when the node is an `Sbb` or a user of its flags reads the carry. A
`ShlD` whose output register is the one of its `val_low` input is handed to
`ia32_transform_ShlD_to_ShrD_imm`, which swaps the inputs and replaces the count `c` by `32 - c`.
Both rewrites are evaluated on 32-bit operands and compared with the node they replace.
-/

namespace LibFirm.Ia32

open X86

/-- The integer node rewritten: `Sub`, or `Sbb` with its incoming flags. -/
inductive SubNode where
  | sub
  | sbb (eflags : Flags)
  deriving DecidableEq, Repr

/-- The result and flags of the node. -/
def SubNode.eval : SubNode → BitVec 32 → BitVec 32 → BitVec 32 × Flags
  | .sub, a, b => X86.sbb a b false
  | .sbb eflags, a, b => X86.sbb a b eflags.cf

/-- `needs_carry`: some user of the flags Proj reads the carry. The users are given by
their condition codes; `none` when the node has no flags Proj. -/
def needsCarry : Option (List CondCode) → Bool
  | some users => users.any readsCarry
  | none => false

/-- The code after the `carry` label: `Not b`, `Adc(Not b, a, carry)`, and, when there is a
flags Proj, the `Cmc` of the `Adc` flags that replaces it. -/
def carrySeq (flagsProj : Bool) (carry : Flags) (a b : BitVec 32) : BitVec 32 × Flags :=
  let adc := X86.adc (~~~b) a carry.cf
  (adc.1, if flagsProj then cmc adc.2 else adc.2)

/-- `Neg b; Add(Neg b, a)`; the flags Proj now projects the `Add`. -/
def negAddSeq (a b : BitVec 32) : BitVec 32 × Flags := X86.adc (-b) a false

/-- The integer branch of `ia32_transform_sub_to_neg_add`: the result, and the flags the
users of the flags Proj read afterwards. `before` are the flags `Stc` starts from. -/
def transformSubToNegAdd (n : SubNode) (users : Option (List CondCode)) (before : Flags)
    (a b : BitVec 32) : BitVec 32 × Flags :=
  match n with
  | .sbb eflags => carrySeq users.isSome (cmc eflags) a b
  | .sub =>
    if users.isSome && needsCarry users then carrySeq true (stc before) a b else negAddSeq a b

theorem carrySeq_cmc (carry : Flags) (a b : BitVec 32) :
    carrySeq true carry a b = X86.sbb a b (!carry.cf) := by
  rw [← adc_not_cmc (by decide), Bool.not_not]; rfl

theorem carrySeq_fst (p : Bool) (carry : Flags) (a b : BitVec 32) :
    (carrySeq p carry a b).1 = (X86.sbb a b (!carry.cf)).1 := by
  rw [← adc_not_cmc (by decide), Bool.not_not]; rfl

theorem transformSubToNegAdd_fst (n : SubNode) (users : Option (List CondCode)) (before : Flags)
    (a b : BitVec 32) : (transformSubToNegAdd n users before a b).1 = (n.eval a b).1 := by
  cases n with
  | sbb eflags => rw [transformSubToNegAdd, carrySeq_fst, cmc_cf, Bool.not_not]; rfl
  | sub =>
    rw [transformSubToNegAdd]
    split
    · rw [carrySeq_fst]; rfl
    · exact (adc_neg_eq_sbb a b).1

theorem transformSubToNegAdd_holds {n : SubNode} {users : List CondCode} {cc : CondCode}
    (hcc : cc ∈ users) (before : Flags) (a b : BitVec 32)
    (hsafe : b ≠ BitVec.intMin 32 ∨ n ≠ .sub ∨ needsCarry (some users) = true) :
    cc.holds (transformSubToNegAdd n (some users) before a b).2 = cc.holds (n.eval a b).2 := by
  cases n with
  | sbb eflags =>
    rw [transformSubToNegAdd, Option.isSome_some, carrySeq_cmc, cmc_cf, Bool.not_not]; rfl
  | sub =>
    rw [transformSubToNegAdd, Option.isSome_some, Bool.true_and]
    split
    · rw [carrySeq_cmc]; rfl
    · rename_i hnc
      have hb : b ≠ BitVec.intMin 32 := by simp_all
      have hrc : readsCarry cc = false := by
        simp only [needsCarry, List.any_eq_true, not_exists, not_and] at hnc
        simpa using hnc cc hcc
      have hf := (adc_neg_eq_sbb a b).2
      apply holds_eq_of_not_readsCarry hrc <;> rw [negAddSeq, hf]
      all_goals first | rfl | exact overflows_neg_add hb a

theorem transform_sub_to_neg_add_agrees (n : SubNode) (users : List CondCode) (before : Flags)
    (a b : BitVec 32) (hsafe : b ≠ BitVec.intMin 32 ∨ n ≠ .sub ∨ needsCarry (some users) = true) :
    (transformSubToNegAdd n (some users) before a b).1 = (n.eval a b).1 ∧
      ∀ cc ∈ users, cc.holds (transformSubToNegAdd n (some users) before a b).2 =
        cc.holds (n.eval a b).2 :=
  ⟨transformSubToNegAdd_fst n _ before a b,
    fun _ hcc => transformSubToNegAdd_holds hcc before a b hsafe⟩

theorem transform_sub_to_neg_add_agrees_at_one :
    let less : CondCode := ⟨.less, false⟩
    (1#32 ≠ BitVec.intMin 32 ∨ SubNode.sub ≠ .sub ∨ needsCarry (some [less]) = true) ∧
      (transformSubToNegAdd .sub (some [less]) ⟨false, false, false, false, false⟩ 0#32 1#32).1 =
        (SubNode.sub.eval 0#32 1#32).1 ∧
      ∀ cc ∈ [less], cc.holds (transformSubToNegAdd .sub (some [less])
        ⟨false, false, false, false, false⟩ 0#32 1#32).2 = cc.holds (SubNode.sub.eval 0#32 1#32).2 :=
  ⟨.inl (by decide), transform_sub_to_neg_add_agrees .sub [⟨.less, false⟩]
    ⟨false, false, false, false, false⟩ 0#32 1#32 (.inl (by decide))⟩

theorem transform_sub_to_neg_add_int_min :
    let less : CondCode := ⟨.less, false⟩
    (transformSubToNegAdd .sub (some [less]) ⟨false, false, false, false, false⟩ 0#32
        0x80000000#32).1 = (SubNode.sub.eval 0#32 0x80000000#32).1 ∧
      less.holds (transformSubToNegAdd .sub (some [less]) ⟨false, false, false, false, false⟩ 0#32
        0x80000000#32).2 = true ∧
      less.holds (SubNode.sub.eval 0#32 0x80000000#32).2 = false := by
  decide

/-- `shld dst, src, count`: `dst` shifted left, the vacated bits filled from the top of `src`. -/
def shld (dst src : BitVec 32) (count : Int) : BitVec 32 :=
  let c := (count % 32).toNat
  dst <<< c ||| src >>> (32 - c)

/-- `shrd dst, src, count`: `dst` shifted right, the vacated bits filled from the bottom of
`src`. -/
def shrd (dst src : BitVec 32) (count : Int) : BitVec 32 :=
  let c := (count % 32).toNat
  dst >>> c ||| src <<< (32 - c)

theorem shld_of_emod_eq_zero {c : Int} (hc : c % 32 = 0) (dst src : BitVec 32) :
    shld dst src c = dst := by
  have hs : src >>> 32 = 0#32 := BitVec.eq_of_toNat_eq (by
    simp only [BitVec.toNat_ushiftRight, Nat.shiftRight_eq_div_pow, BitVec.toNat_ofNat]
    exact Nat.div_eq_of_lt src.isLt)
  simp only [shld, hc, Int.toNat_zero, BitVec.shiftLeft_zero, Nat.sub_zero, hs, BitVec.or_zero]

theorem shrd_of_emod_eq_zero {c : Int} (hc : c % 32 = 0) (dst src : BitVec 32) :
    shrd dst src c = dst := by
  have hs : src <<< 32 = 0#32 := BitVec.eq_of_toNat_eq (by
    simp only [BitVec.toNat_shiftLeft, Nat.shiftLeft_eq, BitVec.toNat_ofNat, Nat.mul_mod_left])
  simp only [shrd, hc, Int.toNat_zero, BitVec.ushiftRight_zero, Nat.sub_zero, hs, BitVec.or_zero]

inductive DoubleShiftOp where
  | shlD
  | shrD
  deriving DecidableEq, Repr

/-- A double shift with an immediate count, `imm.offset` of its count input. -/
structure DoubleShift where
  op : DoubleShiftOp
  valHigh : BitVec 32
  valLow : BitVec 32
  imm : Int
  deriving DecidableEq, Repr

def DoubleShift.eval (n : DoubleShift) : BitVec 32 :=
  match n.op with
  | .shlD => shld n.valHigh n.valLow n.imm
  | .shrD => shrd n.valHigh n.valLow n.imm

/-- `ia32_transform_ShlD_to_ShrD_imm`: `new_bd_ia32_ShrD_imm(dbgi, block, in1, in0, count)`
with `in1` the `val_low` and `in0` the `val_high` of the `ShlD`, and `count` the immediate
`32 - attr->imm.offset`. -/
def ia32TransformShlDToShrDImm (n : DoubleShift) : DoubleShift :=
  ⟨.shrD, n.valLow, n.valHigh, 32 - n.imm⟩

theorem ia32TransformShlDToShrDImm_eval {b a : BitVec 32} {c : Int} (hc : c % 32 ≠ 0) :
    (ia32TransformShlDToShrDImm ⟨.shlD, b, a, c⟩).eval = (DoubleShift.eval ⟨.shlD, b, a, c⟩) := by
  have hc' : ((32 - c) % 32).toNat = 32 - (c % 32).toNat := by omega
  have hlt : (c % 32).toNat < 32 := by omega
  simp only [ia32TransformShlDToShrDImm, DoubleShift.eval, shrd, shld, hc',
    Nat.sub_sub_self hlt.le]
  exact BitVec.or_comm _ _

theorem shlD_to_shrD_at_five : (5 : Int) % 32 ≠ 0 ∧
    (ia32TransformShlDToShrDImm ⟨.shlD, 3#32, 7#32, 5⟩).eval =
      DoubleShift.eval ⟨.shlD, 3#32, 7#32, 5⟩ :=
  ⟨by decide, ia32TransformShlDToShrDImm_eval (by decide)⟩

theorem ia32_transform_ShlD_to_ShrD_imm_zero (b a : BitVec 32) :
    (ia32TransformShlDToShrDImm ⟨.shlD, b, a, 0⟩).eval = a ∧
      (DoubleShift.eval ⟨.shlD, b, a, 0⟩) = b :=
  ⟨shrd_of_emod_eq_zero (c := 32 - 0) (by decide) a b, shld_of_emod_eq_zero (c := 0) rfl b a⟩

end LibFirm.Ia32
