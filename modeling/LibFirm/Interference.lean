import LibFirm.Cfg

/-!
# Interference of two values in the spill-slot verifier

`check_spillslot_interference` asks `my_values_interfere` whether two spills that share a
frame entity are live at the same time. A value is its definition point, a block and a place in
its schedule. `value_strictly_dominates`, not among the sources, is block dominance between
blocks and schedule order within one.
-/

namespace LibFirm.Interference

/-- A place in a block's schedule: the `i`-th scheduled node, or the control-flow node at the
end of the block. -/
inductive Slot where
  | node (i : Nat)
  | exit
  deriving DecidableEq, Repr

/-- `sched_comes_before`. -/
def Slot.before : Slot → Slot → Bool
  | .node i, .node j => decide (i < j)
  | .node _, .exit => true
  | .exit, _ => false

structure Point where
  block : Nat
  slot : Slot
  deriving DecidableEq, Repr

/-- A user of a value: a scheduled node, input `k` of a Phi of a block, or End. -/
inductive User where
  | node (p : Point)
  | phi (block k : Nat)
  | keepAlive
  deriving DecidableEq, Repr

/-- An SSA graph seen by its values: the control-flow graph and the out edges of each value. -/
structure SsaGraph where
  cfg : Cfg
  users : Point → List User

namespace SsaGraph

variable (g : SsaGraph)

/-- `value_strictly_dominates`. -/
def valueStrictlyDominates (a b : Point) : Bool :=
  if a.block = b.block then a.slot.before b.slot else g.cfg.blockDominates a.block b.block

/-- `my_values_interfere`: with `a` the dominating value, some user of `a` other than `b`,
a Phi user counted at the control-flow node of its predecessor block and skipped when it is
in `b`'s block, is strictly dominated by `b`. -/
def myValuesInterfere (a b : Point) : Bool :=
  let a2b := g.valueStrictlyDominates a b
  let b2a := g.valueStrictlyDominates b a
  if !a2b && !b2a then false
  else
    let (a, b) := if b2a then (b, a) else (a, b)
    (g.users a).any fun
      | .node p => p != b && g.valueStrictlyDominates b p
      | .keepAlive => false
      | .phi blk k => blk != b.block &&
        match (g.cfg.preds blk)[k]? with
        | some pb => g.valueStrictlyDominates b ⟨pb, .exit⟩
        | none => false

/-- Where a use of a value reads it: at the user, or for a Phi input at the end of the
corresponding predecessor block. -/
def usePoint : User → Option Point
  | .node p => some p
  | .phi blk k => (g.cfg.preds blk)[k]?.map fun pb => ⟨pb, .exit⟩
  | .keepAlive => none

/-- A path from just after `b`'s definition reaches `p` without passing `a`'s definition. -/
def reachedAfter (a b p : Point) : Bool :=
  let aBetween (q : Point) := a.block == b.block && b.slot.before a.slot && a.slot.before q.slot
  let inBlock := p.block == b.block && b.slot.before p.slot && !aBetween p
  let leaves := !(a.block == b.block && b.slot.before a.slot)
  inBlock || (leaves && (g.cfg.succs b.block).any fun s =>
    g.cfg.reachThrough a.block g.cfg.size s p.block && (p.block != a.block || p.slot.before a.slot))

/-- `a` is live just after `b`'s definition. -/
def liveAfterDef (a b : Point) : Bool :=
  (g.users a).any fun u => match g.usePoint u with
    | some p => g.reachedAfter a b p
    | none => false

/-- The live ranges of `a` and `b` intersect, in the spec's words: one strictly dominates the
other and is live just after its definition. -/
def liveRangesIntersect (a b : Point) : Bool :=
  (g.valueStrictlyDominates a b && g.liveAfterDef a b) ||
    (g.valueStrictlyDominates b a && g.liveAfterDef b a)

end SsaGraph

/-- On the diamond `0 → 1 → 3`, `0 → 2 → 3`, a value `a` of block 0 used only in block 3 is
live across the definition of `b` in block 1, but `b` does not dominate that use. -/
theorem my_values_interfere_join_use :
    let g : SsaGraph :=
      ⟨⟨4, 0, fun | 1 => [0] | 2 => [0] | 3 => [1, 2] | _ => []⟩,
        fun p => if p = ⟨0, .node 0⟩ then [.node ⟨3, .node 0⟩] else []⟩
    g.myValuesInterfere ⟨0, .node 0⟩ ⟨1, .node 0⟩ = false ∧
      g.liveRangesIntersect ⟨0, .node 0⟩ ⟨1, .node 0⟩ = true := by
  decide

end LibFirm.Interference
