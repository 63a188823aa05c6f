import Mathlib.Tactic.Common

/-!
# The register-allocation verifier

`be_verify_register_allocation` walks each block backwards over its schedule with an array
`registers` of one slot per register of the ISA: `value_used` claims the slots of a value's
register over its width and `value_def` frees them, and a slot claimed twice or still claimed at
the block start is a problem. A run faults when it indexes past the array, dereferences a
missing register, or fails the width assertion. Only whether a problem was found is kept.
-/

namespace LibFirm.RegAlloc

/-- `arch_register_t`: its index in the ISA's register array and whether it is virtual. -/
structure Register where
  globalIndex : Nat
  isVirtual : Bool
  deriving DecidableEq, Repr

/-- `arch_register_req_t`: its register class, its width, and the registers
`arch_reg_is_allocatable` accepts for it. -/
structure Req where
  cls : Nat
  width : Nat
  allows : Register → Bool

structure Node where
  isPhi : Bool
  isBad : Bool
  reg : Option Register
  req : Req
  /-- `arch_get_irn_register_reqs_in`, `none` for a `NULL` array. -/
  inReqs : Option (List Req)
  ins : List Nat
  /-- The values `be_foreach_value` visits: the node itself, or its result Projs. -/
  values : List Nat
  nEdges : Nat

/-- A block: its schedule, and the live-in and live-end sets of the liveness analysis. -/
structure Block where
  sched : List Nat
  liveIn : List Nat
  liveEnd : List Nat

structure Graph where
  nRegisters : Nat
  /-- Whether a register class has registers (`cls->regs` is not `NULL`). -/
  classHasRegs : Nat → Bool
  /-- `birg->non_ssa_regs`, by global index. -/
  nonSsaRegs : Option (List Nat)
  node : Nat → Node
  blocks : List Block

inductive Fault where
  | outOfBounds
  | nullRegister
  | zeroWidth
  deriving DecidableEq, Repr

/-- The slots and `problem_found`. -/
structure State where
  registers : List (Option Nat)
  problem : Bool
  deriving DecidableEq, Repr

def State.flag (s : State) (b : Bool) : State := { s with problem := s.problem || b }

def readSlot (regs : List (Option Nat)) (i : Nat) : Except Fault (Option Nat) :=
  match regs[i]? with
  | some v => .ok v
  | none => .error .outOfBounds

def writeSlot (regs : List (Option Nat)) (i : Nat) (v : Option Nat) :
    Except Fault (List (Option Nat)) :=
  if i < regs.length then .ok (regs.set i v) else .error .outOfBounds

namespace Graph

variable (g : Graph)

/-- `ignore_error_for_reg`. -/
def ignoreErrorForReg (reg : Register) : Bool :=
  match g.nonSsaRegs with
  | none => false
  | some regs => reg.globalIndex ∈ regs

/-- The loop of `value_used` over the slots `idx + i`. -/
def valueUsedLoop (n : Nat) (reg : Register) : List Nat → State → Except Fault State
  | [], s => .ok s
  | i :: is, s => do
    let regNode ← readSlot s.registers (reg.globalIndex + i)
    let clash := regNode.isSome && regNode != some n && !g.ignoreErrorForReg reg
    let regs ← writeSlot s.registers (reg.globalIndex + i) (some n)
    valueUsedLoop n reg is (State.flag ⟨regs, s.problem⟩ clash)

/-- `value_used`. -/
def valueUsed (n : Nat) (s : State) : Except Fault State :=
  match (g.node n).reg with
  | none => .ok s
  | some reg =>
    if reg.isVirtual then .ok s
    else if (g.node n).req.width = 0 then .error .zeroWidth
    else g.valueUsedLoop n reg (List.range (g.node n).req.width) s

/-- The loop of `value_def`; it returns from `value_def` at a free slot of a value with no
out edges. -/
def valueDefLoop (n : Nat) (reg : Register) : List Nat → State → Except Fault State
  | [], s => .ok s
  | i :: is, s => do
    let regNode ← readSlot s.registers (reg.globalIndex + i)
    if regNode.isNone && (g.node n).nEdges = 0 then return s
    let wrong := regNode != some n && !g.ignoreErrorForReg reg
    let regs ← writeSlot s.registers (reg.globalIndex + i) none
    valueDefLoop n reg is (State.flag ⟨regs, s.problem⟩ wrong)

/-- `value_def`. -/
def valueDef (n : Nat) (s : State) : Except Fault State :=
  match (g.node n).reg with
  | none => .ok s
  | some reg =>
    if reg.isVirtual then .ok s
    else if (g.node n).req.width = 0 then .error .zeroWidth
    else g.valueDefLoop n reg (List.range (g.node n).req.width) s

/-- `check_output_constraints`. -/
def checkOutputConstraints (n : Nat) (s : State) : State :=
  let req := (g.node n).req
  if !g.classHasRegs req.cls then s
  else match (g.node n).reg with
    | none => s.flag true
    | some reg => s.flag !req.allows reg

/-- The checks of one input `pred` against its requirement `req`. -/
def checkInput (req : Req) (pred : Nat) (s : State) : State :=
  let predReq := (g.node pred).req
  let s := s.flag (req.cls != predReq.cls)
  if !g.classHasRegs req.cls then s
  else
    let s := s.flag (decide (req.width > predReq.width))
    match (g.node pred).reg with
    | none => s.flag true
    | some reg => s.flag !req.allows reg

/-- The input loop of `check_input_constraints`: a Bad input is a problem and its requirement
is not read; reading a requirement past the array is a fault. -/
def checkInputs : List Req → List Nat → State → Except Fault State
  | _, [], s => .ok s
  | reqs, pred :: ps, s =>
    if (g.node pred).isBad then checkInputs reqs.tail ps (s.flag true)
    else match reqs with
      | [] => .error .outOfBounds
      | req :: rs => checkInputs rs ps (g.checkInput req pred s)

/-- The Phi loop of `check_input_constraints`: `reg != pred_reg && !(pred_reg->is_virtual)`. -/
def checkPhiInputs (reg : Option Register) : List Nat → State → Except Fault State
  | [], s => .ok s
  | pred :: ps, s =>
    let predReg := (g.node pred).reg
    if reg = predReg then checkPhiInputs reg ps s
    else match predReg with
      | none => .error .nullRegister
      | some r => checkPhiInputs reg ps (s.flag !r.isVirtual)

/-- `check_input_constraints`. -/
def checkInputConstraints (n : Nat) (s : State) : Except Fault State := do
  let node := g.node n
  match node.inReqs with
  | none => if node.ins.length ≠ 0 then return s.flag true else pure s
  | some reqs =>
    let s ← g.checkInputs reqs node.ins s
    if node.isPhi then g.checkPhiInputs node.reg node.ins s else pure s

/-- One node of the backward walk: its values are defined and checked, its inputs checked,
and the inputs of a non-Phi used. -/
def visitNode (n : Nat) (s : State) : Except Fault State := do
  let s ← (g.node n).values.foldlM
    (fun s v => do let s ← g.valueDef v s; pure (g.checkOutputConstraints v s)) s
  let s ← g.checkInputConstraints n s
  if (g.node n).isPhi then pure s else (g.node n).ins.foldlM (fun s u => g.valueUsed u s) s

/-- `verify_block_register_allocation`, from and to `problem_found`. -/
def verifyBlockRegisterAllocation (b : Block) (problem : Bool) : Except Fault Bool := do
  let s : State := ⟨List.replicate g.nRegisters none, problem⟩
  let s ← b.liveEnd.foldlM (fun s n => g.valueUsed n s) s
  let s ← b.sched.reverse.foldlM (fun s n => g.visitNode n s) s
  let s ← b.liveIn.foldlM (fun s n => g.valueDef n s) s
  return s.problem || s.registers.any Option.isSome

/-- `be_verify_register_allocation`. -/
def beVerifyRegisterAllocation : Except Fault Bool := do
  let problem ← g.blocks.foldlM (fun p b => g.verifyBlockRegisterAllocation b p) false
  return !problem

end Graph

/-- A Phi input with no register is dereferenced, and a value of width 2 in the last register
indexes past the register array. -/
theorem be_verify_register_allocation_faults :
    let req : Req := ⟨0, 1, fun _ => true⟩
    let phi : Node := ⟨true, false, some ⟨0, false⟩, req, some [req], [1], [0], 1⟩
    let pred : Node := ⟨false, false, none, req, some [], [], [1], 1⟩
    let wide : Node := ⟨false, false, some ⟨0, false⟩, ⟨0, 2, fun _ => true⟩, some [], [], [0], 1⟩
    Graph.beVerifyRegisterAllocation
        ⟨1, fun _ => true, none, fun n => if n = 0 then phi else pred, [⟨[0], [], []⟩]⟩ =
      .error .nullRegister ∧
    Graph.beVerifyRegisterAllocation ⟨1, fun _ => true, none, fun _ => wide, [⟨[], [], [0]⟩]⟩ =
      .error .outOfBounds := by
  constructor <;> rfl

end LibFirm.RegAlloc
