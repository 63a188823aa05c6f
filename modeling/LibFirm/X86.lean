import LibFirm.Mode

/-!
# x86 flags and condition codes

The ia32 back end treats EFLAGS as a value: `Sub`, `Sbb`, `Add` and `Adc` produce one, `Stc`
and `Cmc` make one from another, and its users read it through a condition code. The flags
follow the x86 architecture, as `x86_cc.h` is not among the sources.
-/

namespace LibFirm.X86

structure Flags where
  cf : Bool
  zf : Bool
  sf : Bool
  of : Bool
  pf : Bool
  deriving DecidableEq, Repr

variable {w : Nat}

/-- Even parity of the low byte of a result. -/
def parity (r : BitVec w) : Bool := (List.range 8).countP (fun k => r.getLsbD k) % 2 == 0

/-- The mathematical result `v` of a signed operation is not a `w`-bit value. -/
def overflows (w : Nat) (v : Int) : Bool := !decide ((⟨true⟩ : IntMode).Fits w v)

/-- The flags an arithmetic instruction sets from its result, carry and overflow. -/
def resultFlags (r : BitVec w) (cf of : Bool) : Flags := ⟨cf, decide (r = 0), r.msb, of, parity r⟩

/-- `adc a, b` with carry-in `c`; `add` is `adc` with no carry. -/
def adc (a b : BitVec w) (c : Bool) : BitVec w × Flags :=
  let r := a + b + BitVec.ofNat w c.toNat
  (r, resultFlags r (decide (2 ^ w ≤ a.toNat + b.toNat + c.toNat))
    (overflows w (a.toInt + b.toInt + c.toNat)))

/-- `sbb a, b` with borrow-in `c`; `sub` is `sbb` with no borrow. -/
def sbb (a b : BitVec w) (c : Bool) : BitVec w × Flags :=
  let r := a - b - BitVec.ofNat w c.toNat
  (r, resultFlags r (decide (a.toNat < b.toNat + c.toNat))
    (overflows w (a.toInt - b.toInt - c.toNat)))

/-- `stc`: the carry is set, the other flags are kept. -/
def stc (f : Flags) : Flags := { f with cf := true }

/-- `cmc`: the carry is complemented, the other flags are kept. -/
def cmc (f : Flags) : Flags := { f with cf := !f.cf }

@[simp] theorem stc_cf (f : Flags) : (stc f).cf = true := rfl

@[simp] theorem cmc_cf (f : Flags) : (cmc f).cf = !f.cf := rfl

/-- The conditions of `x86_condition_code_t` without the `x86_cc_negated` bit. -/
inductive CondBase where
  | overflow
  | below
  | equal
  | belowEqual
  | sign
  | parity
  | less
  | lessEqual
  | floatBelow
  | floatBelowEqual
  | floatUnorderedBelowEqual
  | floatUnorderedBelow
  deriving DecidableEq, Repr

/-- A condition code: a base condition and the `x86_cc_negated` bit. -/
structure CondCode where
  base : CondBase
  negated : Bool
  deriving DecidableEq, Repr

/-- What each base condition tests: `jo`, `jb`, `je`, `jbe`, `js`, `jp`, `jl`, `jle`; the
float conditions test the unsigned ones, ordered ones also asking for a clear parity. -/
def CondBase.holds : CondBase → Flags → Bool
  | .overflow, f => f.of
  | .below, f => f.cf
  | .equal, f => f.zf
  | .belowEqual, f => f.cf || f.zf
  | .sign, f => f.sf
  | .parity, f => f.pf
  | .less, f => f.sf != f.of
  | .lessEqual, f => f.zf || f.sf != f.of
  | .floatBelow, f => f.cf && !f.pf
  | .floatBelowEqual, f => (f.cf || f.zf) && !f.pf
  | .floatUnorderedBelowEqual, f => f.cf || f.zf
  | .floatUnorderedBelow, f => f.cf

def CondCode.holds (cc : CondCode) (f : Flags) : Bool := xor cc.negated (cc.base.holds f)

/-- `reads_carry`: the condition, with its negation bit cleared, is one of the six that test
the carry flag. -/
def readsCarry (cc : CondCode) : Bool :=
  match cc.base with
  | .below | .belowEqual | .floatBelow | .floatBelowEqual | .floatUnorderedBelowEqual
  | .floatUnorderedBelow => true
  | _ => false

/-- A condition that does not read the carry only sees `zf`, `sf`, `of` and `pf`. -/
theorem holds_eq_of_not_readsCarry {cc : CondCode} (hc : readsCarry cc = false) {f g : Flags}
    (hz : f.zf = g.zf) (hs : f.sf = g.sf) (ho : f.of = g.of) (hp : f.pf = g.pf) :
    cc.holds f = cc.holds g := by
  obtain ⟨b, n⟩ := cc
  cases b <;> simp_all [readsCarry, CondCode.holds, CondBase.holds]

theorem toNat_not_add (x : BitVec w) : (~~~x).toNat + x.toNat + 1 = 2 ^ w := by
  have := x.isLt; rw [BitVec.toNat_not]; omega

theorem toInt_not {x : BitVec w} (hw : 0 < w) : (~~~x).toInt = -x.toInt - 1 := by
  have he : 2 ^ w = 2 * 2 ^ (w - 1) := by rw [← Nat.pow_succ']; congr; omega
  have hn := toNat_not_add x
  rw [BitVec.toInt_eq_toNat_cond, BitVec.toInt_eq_toNat_cond]
  generalize (~~~x).toNat = y at *
  generalize 2 ^ w = N at *
  split <;> split <;> omega

/-- `a - b - borrow` is `~b + a + !borrow`, with the carry complemented: the identity behind
`Not; Adc; Cmc`. -/
theorem adc_not_cmc (hw : 0 < w) (a b : BitVec w) (c : Bool) :
    ((adc (~~~b) a (!c)).1, cmc (adc (~~~b) a (!c)).2) = sbb a b c := by
  have hnot : ~~~b = -b - 1 := eq_sub_of_add_eq (BitVec.neg_eq_not_add b).symm
  have hr : ~~~b + a + BitVec.ofNat w (!c).toNat = a - b - BitVec.ofNat w c.toNat := by
    cases c <;> simp only [hnot, Bool.not_false, Bool.not_true, Bool.toNat_true,
      Bool.toNat_false, BitVec.add_zero, BitVec.sub_zero, show BitVec.ofNat w 1 = 1 from rfl] <;>
      ring
  have hcf : (!decide (2 ^ w ≤ (~~~b).toNat + a.toNat + (!c).toNat)) =
      decide (a.toNat < b.toNat + c.toNat) := by
    have := toNat_not_add b
    generalize (~~~b).toNat = y at *
    cases c <;> rw [← decide_not, decide_eq_decide] <;>
      simp only [Bool.not_false, Bool.not_true, Bool.toNat_true, Bool.toNat_false] <;> omega
  have hof : (~~~b).toInt + a.toInt + ((!c).toNat : Int) = a.toInt - b.toInt - c.toNat := by
    rw [toInt_not hw]; cases c <;> simp <;> ring
  simp only [adc, sbb, resultFlags, cmc, hr, hcf, hof]

/-- `Neg b; Add` gives the result and flags of `sub`, except the carry, and except the
overflow when `b` is the most negative value. -/
theorem adc_neg_eq_sbb (a b : BitVec w) :
    (adc (-b) a false).1 = (sbb a b false).1 ∧
      (adc (-b) a false).2 = { (sbb a b false).2 with
        cf := decide (2 ^ w ≤ (-b).toNat + a.toNat),
        of := overflows w ((-b).toInt + a.toInt) } := by
  have hr : -b + a = a - b := by ring
  simp only [adc, sbb, resultFlags, Bool.toNat_false, Nat.cast_zero, add_zero, BitVec.add_zero,
    BitVec.sub_zero, hr, and_self]

theorem overflows_neg_add {b : BitVec w} (hb : b ≠ BitVec.intMin w) (a : BitVec w) :
    overflows w ((-b).toInt + a.toInt) = overflows w (a.toInt - b.toInt - (false.toNat : Nat)) := by
  rw [BitVec.toInt_neg_of_ne_intMin hb]; simp only [Bool.toNat_false, Nat.cast_zero, sub_zero]
  ring_nf

end LibFirm.X86
