import LibFirm.HeaderCondition

/-!
# Firm graphs, the loop tree and dominance

A Firm graph has nodes numbered `0 .. size - 1`, each with an opcode, a mode, a block and its
inputs in Firm order; a block is its own block and its inputs are the control-flow nodes of its
predecessors. The loop tree and the immediate dominators are given with the graph, as the
analyses leave them. Walks that the source runs until a fixpoint or a revisit carry fuel, and
running out of it means the source would not stop.
-/

namespace LibFirm.Ir

/-- `ir_mode`, as far as the unroller asks: integer modes, `mode_X`, `mode_M`, and the
others. -/
inductive Mode where
  | int
  | ctrl
  | mem
  | other
  deriving DecidableEq, Repr

inductive Opcode where
  | block
  | const (v : Int)
  /-- The address of an entity. -/
  | address (ent : Nat)
  | proj (num : Nat)
  | load
  | store
  | call
  | phi
  | conv
  | add
  | sub
  | mul
  /-- Arithmetic shift right. -/
  | shrs
  /-- Exclusive or. -/
  | eor
  /-- Any other binary operation. -/
  | binop
  /-- `DivRL`, with inputs memory, dividend and divisor. -/
  | div
  | pin
  | noMem
  | cmp (rel : Relation)
  | cond
  | jmp
  /-- `End`, whose inputs are the keep-alive edges. -/
  | anchorEnd
  | other
  deriving DecidableEq, Repr

structure Node where
  op : Opcode
  mode : Mode
  block : Nat
  ins : List Nat
  deriving DecidableEq, Repr

/-- An element of a loop: a block, or a nested loop. -/
inductive LoopElement where
  | block (b : Nat)
  | son (l : Nat)
  deriving DecidableEq, Repr

/-- How a walk of the source can go wrong. -/
inductive Fault where
  | nullDeref
  | assertion
  | diverges
  /-- A read of an uninitialised slot, or a write past an allocation. -/
  | undefined
  deriving DecidableEq, Repr

instance decEqExcept {ε α : Type} [DecidableEq ε] [DecidableEq α] : DecidableEq (Except ε α)
  | .ok a, .ok b => decidable_of_iff (a = b) (by simp)
  | .error a, .error b => decidable_of_iff (a = b) (by simp)
  | .ok _, .error _ => isFalse fun h => Except.noConfusion h
  | .error _, .ok _ => isFalse fun h => Except.noConfusion h

structure Graph where
  size : Nat
  node : Nat → Node
  nLoops : Nat
  /-- `get_loop_outer_loop`; the root loop is its own outer loop. -/
  loopOuter : Nat → Nat
  /-- `get_loop_element`, in order. -/
  loopElements : Nat → List LoopElement
  /-- `get_irn_loop` of a block. -/
  blockLoop : Nat → Option Nat
  /-- `get_Block_idom`. -/
  idom : Nat → Option Nat

/-- `pn_Cond_false` and `pn_Cond_true`. -/
def pnCondFalse : Nat := 0
def pnCondTrue : Nat := 1

namespace Graph

variable (g : Graph)

def op (n : Nat) : Opcode := (g.node n).op

/-- Input `i`; a well-formed graph reads none past a node's arity. -/
def input (n i : Nat) : Nat := (g.node n).ins.getD i 0

/-- `get_block`: the block of a node, a block being its own. -/
def getBlock (n : Nat) : Nat := if g.op n = .block then n else (g.node n).block

def isPhi (n : Nat) : Bool := g.op n = .phi

def isProj (n : Nat) : Bool := match g.op n with | .proj _ => true | _ => false

def isConst (n : Nat) : Bool := match g.op n with | .const _ => true | _ => false

def isCmp (n : Nat) : Bool := match g.op n with | .cmp _ => true | _ => false

/-- `is_binop`: the arithmetic and logic binary nodes and `Cmp`. -/
def isBinop (n : Nat) : Bool :=
  match g.op n with
  | .add | .sub | .mul | .shrs | .eor | .binop | .cmp _ => true
  | _ => false

/-- `get_irn_out`: the users of a node, and for a block the nodes in it, in node order. -/
def outs (n : Nat) : List Nat :=
  (List.range g.size).filter fun m =>
    m != n && ((g.node m).ins.contains n || (g.op m != .block && (g.node m).block == n))

/-- `is_inner_loop(outer, inner)`: climbing from `inner` by outer loops meets `outer` before
the root. -/
def isInnerLoop (outer : Nat) : Nat → Nat → Bool
  | 0, _ => false
  | fuel + 1, inner =>
    let next := g.loopOuter inner
    if next = inner then false else if next = outer then true else isInnerLoop outer fuel next

/-- `block_is_inside_loop`. -/
def blockIsInsideLoop (block loop : Nat) : Bool :=
  match g.blockLoop block with
  | none => false
  | some l => l == loop || g.isInnerLoop loop g.nLoops l

/-- `block_dominates(a, b)`: `a` is on the dominator-tree path from `b` to the root. -/
def blockDominates (a : Nat) : Nat → Nat → Bool
  | 0, _ => false
  | fuel + 1, b =>
    a == b || match g.idom b with
      | some p => blockDominates a fuel p
      | none => false

/-- `block_dominates_loop`: `block` dominates every block of `loop` and of its nested loops. -/
def blockDominatesLoop (block : Nat) : Nat → Nat → Bool
  | 0, _ => false
  | fuel + 1, loop => (g.loopElements loop).all fun
    | .block b => g.blockDominates block g.size b
    | .son l => blockDominatesLoop block fuel l

/-- The first block element of a loop. -/
def firstBlock (loop : Nat) : Option Nat :=
  (g.loopElements loop).findSome? fun | .block b => some b | .son _ => none

/-- The climb of `get_loop_header` up the dominator tree while it stays in the loop. -/
def climbIdom (loop : Nat) : Nat → Nat → Except Fault Nat
  | 0, _ => .error .diverges
  | fuel + 1, header =>
    match g.idom header with
    | some idom => if g.blockIsInsideLoop idom loop then climbIdom loop fuel idom else .ok header
    | none => .ok header

/-- `get_loop_header`: a block of the loop that dominates the loop, or `NULL`; a loop with no
block fails the assertion. -/
def getLoopHeader (loop : Nat) : Except Fault (Option Nat) :=
  match g.firstBlock loop with
  | none => .error .assertion
  | some b => do
    let header ← g.climbIdom loop g.size b
    pure (if g.blockDominatesLoop header g.nLoops loop then some header else none)

end Graph

end LibFirm.Ir
