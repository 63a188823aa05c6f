import LibFirm.Ir.ValidBase

/-!
# The recognizer of linearly counted loops

`determine_lin_unroll_info` accepts a loop of at least two blocks whose header dominates it and
ends in a `Cond` on a `Cmp` with one target inside the loop and one outside. The first `Cmp` of
the header with relation `<`, `<=`, `>` or `>=` must compare a Phi one of whose inputs is the
only valid increment (an `Add`, `Sub` or `Mul` of the Phi), the bound must be a valid base, and
the loop must have one exit. The recognizer writes into `linear_unroll_info` as it goes, also
for candidates it then rejects.
-/

namespace LibFirm.Ir

/-- `duff_unrollability`, as its two bits. -/
structure Unrollability where
  loopFixup : Bool
  switchFixup : Bool
  deriving DecidableEq, Repr

namespace Unrollability

def none : Unrollability := ⟨false, false⟩
def all : Unrollability := ⟨true, true⟩
def or (a b : Unrollability) : Unrollability := ⟨a.loopFixup || b.loopFixup, a.switchFixup || b.switchFixup⟩
/-- `&= ~duff_unrollable_switch_fixup`. -/
def withoutSwitch (a : Unrollability) : Unrollability := { a with switchFixup := false }

end Unrollability

/-- `linear_unroll_info`; a field the recognizer has not written is `none`. -/
structure LinUnrollInfo where
  op : Option Op
  loop : Nat
  i : Option (List Nat)
  cmp : Option Nat
  rel : Option Relation
  incr : Option Nat
  phi : Option Nat
  bound : Option Nat
  deriving DecidableEq, Repr

/-- The state the recognizer writes: the info and the global `alias_candidates`. -/
structure Recognition where
  info : LinUnrollInfo
  cands : List (Option Nat)
  deriving DecidableEq, Repr

abbrev RecM := StateT Recognition (Except Fault)

/-- The state of `phi_cycle_dfs`. -/
structure PhiDfs where
  foundCycle : Bool
  valid : Bool
  outside : Option Nat
  stack : List Nat

/-- `binop_to_op`. -/
def binopToOp : Opcode → Option Op
  | .add => some .add
  | .sub => some .sub
  | .mul => some .mul
  | _ => none

namespace Graph

variable (g : Graph)

/-- `climb_single_phi`: follow Phis of one input. A cycle of such Phis is climbed forever. -/
def climbSinglePhi : Nat → Nat → Except Fault Nat
  | 0, _ => .error .diverges
  | fuel + 1, n =>
    if g.isPhi n ∧ (g.node n).ins.length = 1 then climbSinglePhi fuel (g.input n 0) else .ok n

/-- The input loop of `phi_cycle_dfs` at Phi `curr`; `true` when it returns from the frame
at an input already on the stack. -/
def phiDfsPreds (searched curr : Nat) (visit : Nat → PhiDfs → Except Fault PhiDfs) :
    List Nat → PhiDfs → Except Fault (PhiDfs × Bool)
  | [], st => .ok (st, false)
  | w :: ws, st =>
    let st := if w = searched then { st with foundCycle := true } else st
    if !g.isPhi w then
      let st := match st.outside with
        | none => { st with outside := some curr }
        | some o => if o ≠ curr then { st with valid := false } else st
      phiDfsPreds searched curr visit ws st
    else if w ∈ st.stack then .ok (st, true)
    else do
      let st ← visit w st
      phiDfsPreds searched curr visit ws st

/-- `phi_cycle_dfs`: the depth-first search through Phis for the increment `searched`. -/
def phiCycleDfs (searched loop : Nat) : Nat → Nat → PhiDfs → Except Fault PhiDfs
  | 0, _, _ => .error .diverges
  | fuel + 1, curr, st =>
    let st := { st with stack := curr :: st.stack }
    let preds := (g.node curr).ins
    if preds = [] then .ok { st with valid := false }
    else do
      let (st, returned) ← g.phiDfsPreds searched curr (phiCycleDfs searched loop fuel) preds st
      if returned then pure st
      else if st.outside ≠ some curr ∧ !g.blockIsInsideLoop (g.getBlock curr) loop then
        pure { st with valid := false }
      else pure st

/-- `check_cycle_and_find_exit`: the Phi of the cycle through `searched` that has an input
from outside, or `NULL`. -/
def checkCycleAndFindExit (initial searched loop : Nat) : Except Fault (Option Nat) :=
  if !g.isPhi initial then .ok (some initial)
  else do
    let st ← g.phiCycleDfs searched loop (g.size + 1) initial ⟨false, true, none, []⟩
    pure (if st.outside.isSome ∧ st.valid ∧ st.foundCycle then st.outside else none)

/-- `loop_exits_from_block`: the edges from the control-flow nodes of a block to blocks
outside the loop. -/
def loopExitsFromBlock (block loop : Nat) : Nat :=
  (g.outs block).foldl (fun exits out =>
    if g.getBlock out ≠ block ∨ (g.node out).mode ≠ .ctrl then exits
    else exits + ((g.outs out).filter fun c => !g.blockIsInsideLoop (g.getBlock c) loop).length) 0

/-- `has_multiple_loop_exits`: the count over the block elements, stopped once above one. -/
def hasMultipleLoopExits (loop : Nat) : Bool :=
  decide (1 < (g.loopElements loop).foldl (fun exits el =>
    if exits ≤ 1 then
      match el with
      | .block b => exits + g.loopExitsFromBlock b loop
      | .son _ => exits
    else exits) 0)

/-- `no_of_block_in_loop`. -/
def noOfBlockInLoop (loop : Nat) : Nat :=
  (g.loopElements loop).countP fun | .block _ => true | .son _ => false

/-- `is_Proj_attached_to_Cmp`. -/
def isProjAttachedToCmp (proj : Nat) : Bool :=
  g.op (g.input proj 0) = .cond ∧ g.isCmp (g.input (g.input proj 0) 0)

/-- `get_false_and_true_targets`: the blocks the true and false Projs of the header's `Cond`
lead to, inside the header's loop and outside it; a Proj with more than one user fails the
assertion. -/
def getFalseAndTrueTargets (header : Nat) : Except Fault (Option Nat × Option Nat) :=
  (g.outs header).foldlM (fun (targets : Option Nat × Option Nat) curr =>
    match g.op curr with
    | .proj num =>
      if (g.node curr).mode ≠ .ctrl ∨ !g.isProjAttachedToCmp curr then .ok targets
      else if num = pnCondTrue ∨ num = pnCondFalse then
        match g.outs curr with
        | [post] =>
          let inside := match g.blockLoop header with
            | some l => g.blockIsInsideLoop (g.getBlock post) l
            | none => false
          .ok (if inside then (some post, targets.2) else (targets.1, some post))
        | _ => .error .assertion
      else .ok targets
    | _ => .ok targets) (none, none)

/-- A `Cmp` in the header with one of the four accepted relations. -/
def acceptedCmp (header n : Nat) : Option Relation :=
  match g.op n with
  | .cmp rel => if (g.node n).block = header ∧ rel.Accepted then some rel else none
  | _ => none

end Graph

namespace Program

variable (p : Program) (gi : Nat)

def liftValidBase (n : Nat) (loop : Option Nat) : RecM Bool := do
  let st ← get
  liftM (p.isValidBase gi n loop st.cands)

/-- `is_valid_incr`. -/
def isValidIncr (n : Nat) : RecM Bool := do
  let g := p.graph gi
  if !g.isBinop n then return false
  match binopToOp (g.op n) with
  | none => return false
  | some op =>
    modify fun st => { st with info := { st.info with op := some op } }
    let info := (← get).info
    let left ← liftM (g.climbSinglePhi (g.size + 1) (g.input n 0))
    let right ← liftM (g.climbSinglePhi (g.size + 1) (g.input n 1))
    if !g.isPhi left ∧ !g.isPhi right then return false
    let direct := if some right = info.phi then some left
      else if some left = info.phi then some right else none
    let toCheck ← match direct with
      | some c => pure (some c)
      | none => do
        let leftC ← liftM (g.checkCycleAndFindExit (g.input n 0) n info.loop)
        let rightC ← liftM (g.checkCycleAndFindExit (g.input n 1) n info.loop)
        pure (if rightC = info.phi then some left else if leftC = info.phi then some right else none)
    match toCheck with
    | none => return false
    | some c =>
      if op = .mul ∧ !g.isConst c then return false
      if !(← p.liftValidBase gi c (g.blockLoop (g.getBlock c))) then return false
      modify fun st => { st with info := { st.info with incr := some c } }
      return true

/-- The input loop of `check_phi` over a Phi of `arity` inputs: whether exactly one valid
increment was found (a second one breaks the loop), the other inputs, and the fix-up bits. -/
def checkPhiPreds (loop arity : Nat) :
    List Nat → Bool → List Nat → Unrollability → RecM (Bool × List Nat × Unrollability)
  | [], found, is, u => pure (found, is, u)
  | curr :: rest, found, is, u => do
    if ← p.isValidIncr gi curr then
      if found then pure (false, is, u) else checkPhiPreds loop arity rest true is u
    else
      let valid ← p.liftValidBase gi curr (some loop)
      let u := if valid then u else u.withoutSwitch
      let is := if is.length < arity - 1 then is ++ [curr] else is
      checkPhiPreds loop arity rest found is u

/-- `check_phi`. -/
def checkPhi (loop : Nat) : RecM Unrollability := do
  let g := p.graph gi
  let phi := (← get).info.phi.getD 0
  let preds := (g.node phi).ins
  if preds.length < 2 then return .none
  if 1 < preds.countP (fun c => g.blockIsInsideLoop (g.getBlock c) loop) then return .none
  modify fun st => { st with cands := getAllStores p gi (g.nLoops + 1) loop st.cands }
  let (found, is, u) ← p.checkPhiPreds gi loop preds.length preds false [] .all
  if !found then return .none
  modify fun st => { st with info := { st.info with i := st.info.i.orElse fun _ => some is } }
  return if (g.node phi).mode = .int then u else u.withoutSwitch

/-- `determine_lin_unroll_info`; a loop whose blocks have no dominating header makes the
source dereference `NULL`. -/
def determineLinUnrollInfo (loop : Nat) : RecM Unrollability := do
  let g := p.graph gi
  modify fun st => { st with info := { st.info with i := none, loop := loop } }
  if g.noOfBlockInLoop loop ≤ 1 then return .none
  let some header ← liftM (g.getLoopHeader loop) | throw .nullDeref
  if g.blockLoop header ≠ some loop then return .none
  if (g.node header).ins.any fun pred => g.getBlock pred = header then return .none
  let (inLoop, outOfLoop) ← liftM (g.getFalseAndTrueTargets header)
  if inLoop.isNone ∨ outOfLoop.isNone then return .none
  match (g.outs header).findSome? fun n => (g.acceptedCmp header n).map (n, ·) with
  | none => return .none
  | some (cmp, rel) =>
    modify fun st => { st with info := { st.info with rel := some rel, cmp := some cmp } }
    let left := g.input cmp 0
    let right := g.input cmp 1
    if !g.isPhi left ∧ !g.isPhi right then return .none
    let mut ret := Unrollability.none
    if g.isPhi left then
      modify fun st => { st with info := { st.info with phi := some left, bound := some right } }
      ret := ret.or (← p.checkPhi gi loop)
    if g.isPhi right then
      modify fun st => { st with info := { st.info with phi := some right, bound := some left } }
      ret := ret.or (← p.checkPhi gi loop)
    let info := (← get).info
    if !(← p.liftValidBase gi (info.bound.getD 0) (some loop)) then ret := .none
    if info.op = some .mul then ret := ret.withoutSwitch
    if g.hasMultipleLoopExits loop then ret := .none
    return ret

end Program

/-- `for (i = 0; i < 10; i = 5 - i)`: the increment `Sub(5, i)` is accepted as a `SUB` step
with the Phi as its subtrahend, and the loop gets both fix-ups. -/
theorem determine_lin_unroll_info_sub_from_const :
    let g : Graph :=
      ⟨15, fun
        | 0 => ⟨.block, .other, 0, []⟩
        | 1 => ⟨.block, .other, 1, [3, 13]⟩
        | 2 => ⟨.block, .other, 2, [11]⟩
        | 3 => ⟨.jmp, .ctrl, 0, []⟩
        | 4 => ⟨.const 0, .int, 0, []⟩
        | 5 => ⟨.const 10, .int, 0, []⟩
        | 6 => ⟨.const 5, .int, 0, []⟩
        | 7 => ⟨.phi, .int, 1, [4, 12]⟩
        | 8 => ⟨.cmp .less, .other, 1, [7, 5]⟩
        | 9 => ⟨.cond, .other, 1, [8]⟩
        | 10 => ⟨.proj 0, .ctrl, 1, [9]⟩
        | 11 => ⟨.proj 1, .ctrl, 1, [9]⟩
        | 12 => ⟨.sub, .int, 2, [6, 7]⟩
        | 13 => ⟨.jmp, .ctrl, 2, []⟩
        | _ => ⟨.block, .other, 14, [10]⟩,
        2, fun _ => 0, fun | 0 => [.block 0, .son 1, .block 14] | _ => [.block 1, .block 2],
        fun | 0 => some 0 | 1 => some 1 | 2 => some 1 | 14 => some 0 | _ => none,
        fun | 1 => some 0 | 2 => some 1 | 14 => some 1 | _ => none⟩
    let p : Program := ⟨fun _ => g, 1, fun _ => none, fun _ => false⟩
    ((p.determineLinUnrollInfo 0 1).run
        ⟨⟨none, 0, none, none, none, none, none, none⟩, []⟩).map
      (fun r => (r.1, r.2.info.op, r.2.info.phi, r.2.info.incr)) =
      .ok (Unrollability.all, some .sub, some 7, some 6) ∧
      (g.node 7).ins = [4, 12] ∧ g.input 12 0 = 6 ∧ g.input 12 1 = 7 := by
  decide

/-- `for (i = 0; i < f(); i += 1)` with `f` called through a pointer 6: `is_valid_base_` passes
the `NULL` callee of the bound's `Call` to `get_entity_additional_properties`. -/
theorem determine_lin_unroll_info_indirect_call_bound :
    let g : Graph :=
      ⟨21, fun
        | 0 => ⟨.block, .other, 0, []⟩
        | 1 => ⟨.block, .other, 1, [3, 13]⟩
        | 2 => ⟨.block, .other, 2, [11]⟩
        | 3 => ⟨.jmp, .ctrl, 0, []⟩
        | 4 => ⟨.const 0, .int, 0, []⟩
        | 5 => ⟨.const 1, .int, 0, []⟩
        | 6 => ⟨.other, .other, 0, []⟩
        | 7 => ⟨.phi, .int, 1, [4, 12]⟩
        | 8 => ⟨.cmp .less, .other, 1, [7, 17]⟩
        | 9 => ⟨.cond, .other, 1, [8]⟩
        | 10 => ⟨.proj 0, .ctrl, 1, [9]⟩
        | 11 => ⟨.proj 1, .ctrl, 1, [9]⟩
        | 12 => ⟨.add, .int, 2, [7, 5]⟩
        | 13 => ⟨.jmp, .ctrl, 2, []⟩
        | 14 => ⟨.other, .mem, 0, []⟩
        | 15 => ⟨.call, .other, 1, [20, 6]⟩
        | 16 => ⟨.proj 1, .other, 1, [15]⟩
        | 17 => ⟨.proj 0, .int, 1, [16]⟩
        | 18 => ⟨.block, .other, 18, [10]⟩
        | 19 => ⟨.proj 0, .mem, 1, [15]⟩
        | _ => ⟨.phi, .mem, 1, [14, 19]⟩,
        2, fun _ => 0, fun | 0 => [.block 0, .son 1, .block 18] | _ => [.block 1, .block 2],
        fun | 0 => some 0 | 1 => some 1 | 2 => some 1 | 18 => some 0 | _ => none,
        fun | 1 => some 0 | 2 => some 1 | 18 => some 1 | _ => none⟩
    let p : Program := ⟨fun _ => g, 1, fun _ => none, fun _ => false⟩
    g.getLoopHeader 1 = .ok (some 1) ∧
      (p.determineLinUnrollInfo 0 1).run ⟨⟨none, 0, none, none, none, none, none, none⟩, []⟩ =
        .error .nullDeref := by
  decide

end LibFirm.Ir
