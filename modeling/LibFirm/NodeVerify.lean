import Mathlib.Tactic.Common

/-!
# The register constraints of one node

`be_verify_node` checks a node after register allocation: a Proj only by the mode of its value,
an unscheduled node not at all, and any other node by its mode and, with
`check_reg_constraint`, every output and every input that is not a `Dummy` against its
requirement. Only whether a problem was found is kept of the warnings. Register indices and
widths are unsigned, and `arch_reg_is_allocatable`, not among the sources, is a field of the
requirement.
-/

namespace LibFirm.NodeVerify

/-- `ir_mode`, as far as the verifier asks: `mode_ANY`, `mode_T`, and the data modes. -/
inductive Mode where
  | any
  | tuple
  | data (m : Nat)
  deriving DecidableEq, Repr

/-- `arch_register_class_t`: its index, its number of registers, and its mode (`none` for a
class without one). -/
structure RegClass where
  index : Nat
  nRegs : Nat
  mode : Option Mode
  deriving DecidableEq, Repr

/-- `arch_register_t`: its class and its index in the class. -/
structure Register where
  cls : RegClass
  index : Nat
  deriving DecidableEq, Repr

/-- `arch_register_req_t`. -/
structure Req where
  cls : RegClass
  width : Nat
  aligned : Bool
  /-- `must_be_different`, a bit for each input position. -/
  mustBeDifferent : Nat
  /-- `arch_reg_is_allocatable(req, reg)`, for a register of the class. -/
  allocatable : Register → Bool

structure Node where
  isProj : Bool
  isDummy : Bool
  /-- `arch_is_irn_not_scheduled`. -/
  notScheduled : Bool
  mode : Mode
  /-- `arch_get_irn_register_req` and `arch_get_irn_register`: those of the value the node
  stands for, for a Proj the output of its predecessor it projects. -/
  req : Req
  reg : Option Register
  /-- The requirement and the register of each output `be_foreach_out` visits. -/
  outs : List (Req × Option Register)
  ins : List Nat
  /-- `arch_get_irn_register_req_in`. -/
  inReq : Nat → Req

inductive Fault where
  | divisionByZero
  deriving DecidableEq, Repr

/-- `reg_index + req->width - 1` in unsigned arithmetic, modulo `2^32`. -/
def lastIndex (index width : Nat) : Nat := (index + width + 4294967295) % 4294967296

/-- `check_value_constraint`. -/
def checkValueConstraint (n : Node) : Bool :=
  match n.req.cls.mode with
  | none => !n.isProj && n.mode == .any
  | some m => n.mode == m

section Check

variable (g : Nat → Node)

/-- The `must_be_different` loop: every input position with its bit set has a requirement of
the class, and its value is not in `reg`. -/
def mustBeDifferentOk (node : Node) (req : Req) (reg : Register) : Bool :=
  (List.range node.ins.length).all fun i =>
    !req.mustBeDifferent.testBit i ||
      ((node.inReq i).cls == req.cls && (g (node.ins.getD i 0)).reg != some reg)

/-- `check_reg_constraint(node, req, reg)`. -/
def checkRegConstraint (node : Node) (req : Req) (reg : Option Register) : Except Fault Bool :=
  let cls := req.cls
  let fine := !(decide (cls.nRegs < req.width) || (req.width == 0 && cls.nRegs != 0))
  match reg with
  | none => .ok fine
  | some reg =>
    if reg.cls ≠ cls then .ok false
    else
      let fine := fine && req.allocatable reg
      let fine := if req.mustBeDifferent ≠ 0 then fine && mustBeDifferentOk g node req reg else fine
      let fine := fine && !decide (cls.nRegs < lastIndex reg.index req.width)
      if req.aligned then
        if req.width = 0 then .error .divisionByZero
        else .ok (fine && reg.index % req.width == 0)
      else .ok fine

/-- The output loop of `be_verify_node`, `fine &= check_reg_constraint(...)`. -/
def checkOutput (node : Node) (fine : Bool) (out : Req × Option Register) : Except Fault Bool :=
  (checkRegConstraint g node out.1 out.2).map (fine && ·)

/-- The input loop of `be_verify_node` at position `i`. -/
def checkInput (node : Node) (fine : Bool) (i : Nat) : Except Fault Bool :=
  let inp := g (node.ins.getD i 0)
  if inp.isDummy then .ok fine
  else
    let req := node.inReq i
    (checkRegConstraint g node req inp.reg).map fun ok =>
      fine && ok && inp.req.cls == req.cls && !decide (inp.req.width < req.width)

/-- `be_verify_node` on node `n` of the graph `g`. -/
def beVerifyNode (n : Nat) : Except Fault Bool :=
  let node := g n
  if node.isProj then .ok (checkValueConstraint node)
  else if node.notScheduled then .ok true
  else do
    let fine := if node.mode ≠ .tuple then checkValueConstraint node else true
    let fine ← node.outs.foldlM (checkOutput g node) fine
    (List.range node.ins.length).foldlM (checkInput g node) fine

end Check

/-- The division by zero of `check_reg_constraint`: an aligned requirement of width 0 with a
register of its class. -/
def Faults (p : Req × Option Register) : Prop :=
  ∃ r, p.2 = some r ∧ r.cls = p.1.cls ∧ p.1.aligned = true ∧ p.1.width = 0

theorem foldlM_eq_error_iff {α β ε : Type} {f : β → α → Except ε β} {P : α → Prop}
    (hf : ∀ b a, (∃ e, f b a = .error e) ↔ P a) :
    ∀ (xs : List α) (b : β), (∃ e, xs.foldlM f b = .error e) ↔ ∃ a ∈ xs, P a
  | [], b => by simp [pure, Except.pure]
  | a :: xs, b => by
    simp only [List.foldlM_cons, bind, Except.bind, List.mem_cons, exists_eq_or_imp]
    cases h : f b a with
    | error e => exact iff_of_true ⟨e, rfl⟩ (Or.inl ((hf b a).mp ⟨e, h⟩))
    | ok b' =>
      have hP : ¬ P a := fun hp => by obtain ⟨e, he⟩ := (hf b a).mpr hp; rw [he] at h; cases h
      simp only [hP, false_or]
      exact foldlM_eq_error_iff hf xs b'

section Faults

variable {g : Nat → Node} {node : Node}

theorem map_eq_error_iff {α β ε : Type} (f : α → β) (x : Except ε α) :
    (∃ e, x.map f = .error e) ↔ ∃ e, x = .error e := by
  cases x <;> simp [Except.map]

theorem checkRegConstraint_eq_error_iff (req : Req) (reg : Option Register) :
    (∃ e, checkRegConstraint g node req reg = .error e) ↔ Faults (req, reg) := by
  unfold checkRegConstraint Faults
  cases reg with
  | none => simp
  | some r =>
    by_cases hc : r.cls = req.cls
    · simp only [hc, ne_eq, not_true_eq_false, if_false, Option.some.injEq, exists_eq_left',
        true_and]
      cases req.aligned <;> by_cases hw : req.width = 0 <;> simp [hw]
      exact ⟨.divisionByZero, trivial⟩
    · simp [hc]

theorem checkOutput_eq_error_iff (fine : Bool) (out : Req × Option Register) :
    (∃ e, checkOutput g node fine out = .error e) ↔ Faults out :=
  (map_eq_error_iff _ _).trans (checkRegConstraint_eq_error_iff _ _)

theorem checkInput_eq_error_iff (fine : Bool) (i : Nat) :
    (∃ e, checkInput g node fine i = .error e) ↔
      (g (node.ins.getD i 0)).isDummy = false ∧ Faults (node.inReq i, (g (node.ins.getD i 0)).reg) := by
  by_cases hd : (g (node.ins.getD i 0)).isDummy = true
  · simp only [checkInput, hd, if_true, reduceCtorEq, exists_false, true_and, Bool.true_eq_false,
      false_and]
  · simp only [checkInput, hd, Bool.false_eq_true, if_false, Bool.not_eq_true, true_and,
      eq_false_of_ne_true hd]
    exact (map_eq_error_iff _ _).trans (checkRegConstraint_eq_error_iff _ _)

end Faults

theorem beVerifyNode_eq_error_iff (g : Nat → Node) (n : Nat) :
    (∃ e, beVerifyNode g n = .error e) ↔
      (g n).isProj = false ∧ (g n).notScheduled = false ∧
        ((∃ o ∈ (g n).outs, Faults o) ∨
          ∃ i < (g n).ins.length, (g ((g n).ins.getD i 0)).isDummy = false ∧
            Faults ((g n).inReq i, (g ((g n).ins.getD i 0)).reg)) := by
  by_cases hp : (g n).isProj = true
  · simp [beVerifyNode, hp]
  by_cases hs : (g n).notScheduled = true
  · simp [beVerifyNode, hp, hs]
  simp only [beVerifyNode, eq_false_of_ne_true hp, eq_false_of_ne_true hs, Bool.false_eq_true,
    if_false, true_and, bind, Except.bind]
  have hout := foldlM_eq_error_iff (@checkOutput_eq_error_iff g (g n)) (g n).outs
    (if (g n).mode ≠ .tuple then checkValueConstraint (g n) else true)
  cases h : (g n).outs.foldlM (checkOutput g (g n))
      (if (g n).mode ≠ .tuple then checkValueConstraint (g n) else true) with
  | error e => exact iff_of_true ⟨e, rfl⟩ (Or.inl (hout.mp ⟨e, h⟩))
  | ok b =>
    rw [h] at hout
    have hno : ¬ ∃ o ∈ (g n).outs, Faults o := fun ho => by
      obtain ⟨e, he⟩ := hout.mpr ho; cases he
    simp only [hno, false_or, foldlM_eq_error_iff checkInput_eq_error_iff, List.mem_range]

/-- A node of one output in a class of four registers: with an aligned requirement of width 0
the verifier divides by zero, and with width 2 at register 3 it accepts registers 3 and 4. -/
theorem be_verify_node_width_checks :
    let cls : RegClass := ⟨0, 4, some (.data 0)⟩
    let node (req : Req) (r : Register) : Node :=
      ⟨false, false, false, .data 0, req, some r, [(req, some r)], [], fun _ => req⟩
    beVerifyNode (fun _ => node ⟨cls, 0, true, 0, fun _ => true⟩ ⟨cls, 0⟩) 0 = .error .divisionByZero ∧
      beVerifyNode (fun _ => node ⟨cls, 2, false, 0, fun _ => true⟩ ⟨cls, 3⟩) 0 = .ok true :=
  ⟨rfl, rfl⟩

end LibFirm.NodeVerify
