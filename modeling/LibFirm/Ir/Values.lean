import LibFirm.Ir.UpdateHeader

/-!
# What the new bound computes

A valuation gives every node a `w`-bit value of the integer mode `m`, or none where a `Div`
traps; it evaluates a graph when each node has the value its operation computes from its
inputs' values, nodes that compute nothing from their inputs (Phis, arguments, loads) taking
theirs from `env`. In every valuation of the graph `update_header_condition` leaves, the operand
it installs on the header compare has the bound `LibFirm.updateHeaderCondition` computes.
-/

namespace LibFirm.Ir

variable {w : Nat}

/-- The value of a node with record `nd`, from the values `v` of the nodes and the opcodes
`opOf` of the graph; `own` is the value of a node that computes nothing from its inputs. A
`Div` has the value of its result, which its `Proj` passes on, and a zero divisor traps. -/
def Node.value (m : IntMode) (nd : Node) (opOf : Nat → Opcode) (own : Option (BitVec w))
    (v : Nat → Option (BitVec w)) : Option (BitVec w) :=
  let x := v (nd.ins.getD 0 0)
  let y := v (nd.ins.getD 1 0)
  match nd.op with
  | .const c => some (BitVec.ofInt w c)
  | .add => x.bind fun a => y.map (a + ·)
  | .sub => x.bind fun a => y.map (a - ·)
  | .mul => x.bind fun a => y.map (a * ·)
  | .shrs => x.bind fun a => y.map fun b => a.sshiftRight b.toNat
  | .eor => x.bind fun a => y.map (a ^^^ ·)
  | .div => y.bind fun a => (v (nd.ins.getD 2 0)).bind (m.div a)
  | .proj k => if k = pnDivRes ∧ opOf (nd.ins.getD 0 0) = .div then x else own
  | _ => own

namespace Graph

variable (g : Graph) (m : IntMode) (env : Nat → Option (BitVec w))

/-- The value node `n` computes from the values `v`. -/
def nodeValue (v : Nat → Option (BitVec w)) (n : Nat) : Option (BitVec w) :=
  (g.node n).value m g.op (env n) v

/-- `v` evaluates the graph: each node has the value its operation computes. -/
def Evaluates (v : Nat → Option (BitVec w)) : Prop := ∀ n < g.size, v n = g.nodeValue m env v n

instance (v : Nat → Option (BitVec w)) : Decidable (g.Evaluates m env v) :=
  inferInstanceAs (Decidable (∀ n < g.size, _))

/-- The values by recursion on the inputs, `fuel` deep. -/
def value : Nat → Nat → Option (BitVec w)
  | 0, _ => none
  | fuel + 1, n => g.nodeValue m env (value fuel) n

end Graph

namespace Surgery

variable (s : Surgery) (nd : Node)

@[simp] theorem newNode_snd : (s.newNode nd).2 = s.graph.size := rfl

@[simp] theorem newNode_size : (s.newNode nd).1.graph.size = s.graph.size + 1 := rfl

end Surgery

/-- `g'` is `g` with nodes appended: the nodes of `g` are as they were. -/
structure Graph.Extends (g g' : Graph) : Prop where
  size_le : g.size ≤ g'.size
  node : ∀ k < g.size, g'.node k = g.node k

namespace Graph.Extends

theorem refl (g : Graph) : g.Extends g := ⟨le_rfl, fun _ _ => rfl⟩

theorem trans {g₁ g₂ g₃ : Graph} (h₁ : g₁.Extends g₂) (h₂ : g₂.Extends g₃) : g₁.Extends g₃ :=
  ⟨h₁.size_le.trans h₂.size_le, fun k hk => (h₂.node k (lt_of_lt_of_le hk h₁.size_le)).trans (h₁.node k hk)⟩

theorem input {g g' : Graph} (h : g.Extends g') {k : Nat} (hk : k < g.size) (i : Nat) :
    g'.input k i = g.input k i := by
  rw [Graph.input, Graph.input, h.node k hk]

end Graph.Extends

theorem Surgery.extends_newNode (s : Surgery) (nd : Node) : s.graph.Extends (s.newNode nd).1.graph :=
  ⟨Nat.le_succ _, fun k hk => by simp [Surgery.newNode, Nat.ne_of_lt hk]⟩

theorem Graph.extends_exactCopy (g : Graph) (n : Nat) : g.Extends (g.exactCopy n).1 :=
  ⟨Nat.le_succ _, fun k hk => by simp [exactCopy, Nat.ne_of_lt hk]⟩

theorem createAbs_eq (w : Nat) (s : Surgery) (block node : Nat) : createAbs w s block node =
    ((((s.newNode ⟨.const (↑w - 1), .int, constBlock, []⟩).1.newNode
      ⟨.shrs, (s.graph.node node).mode, block, [node, s.graph.size]⟩).1.newNode
      ⟨.eor, (s.graph.node node).mode, block, [s.graph.size + 1, node]⟩).1.newNode
      ⟨.sub, (s.graph.node node).mode, block, [s.graph.size + 2, s.graph.size + 1]⟩) := rfl

theorem createRPow_two (block base e : Nat) (s : Surgery) : createRPow block base (e + 2) s =
    (createRPow block base (e + 1) s).1.newNode ⟨.mul,
      ((createRPow block base (e + 1) s).1.graph.node base).mode, block,
      [base, (createRPow block base (e + 1) s).2]⟩ := rfl

theorem newDivRes_eq (s : Surgery) (block a b : Nat) (mode : Mode) : newDivRes s block a b mode =
    (((s.newNode ⟨.noMem, .mem, constBlock, []⟩).1.newNode ⟨.pin, .mem, block, [s.graph.size]⟩).1.newNode
      ⟨.div, .other, block, [s.graph.size + 1, a, b]⟩).1.newNode
      ⟨.proj pnDivRes, mode, block, [s.graph.size + 2]⟩ := rfl

theorem updateHeaderConditionAdd_eq (w : Nat) (s : Surgery) (header n cCpy factorConst : Nat)
    (less : Bool) : updateHeaderConditionAdd w s header n cCpy factorConst less =
    let s₁ := (createAbs w s header cCpy).1
    let cAbs := (createAbs w s header cCpy).2
    let s₂ := (s₁.newNode ⟨.const 1, (s₁.graph.node cAbs).mode, constBlock, []⟩).1
    let s₃ := (s₂.newNode ⟨.sub, (s₂.graph.node factorConst).mode, header,
      [factorConst, s₁.graph.size]⟩).1
    let s₄ := (s₃.newNode ⟨.mul, (s₃.graph.node cAbs).mode, header, [cAbs, s₂.graph.size]⟩).1
    s₄.newNode ⟨if less then .sub else .add, (s₄.graph.node n).mode, header, [n, s₃.graph.size]⟩ :=
  rfl

theorem mulBoundNodes_eq (s : Surgery) (header n cCpy factorConst : Nat) (c : Int) (less : Bool) :
    mulBoundNodes s header n cCpy factorConst c less =
    let P := createRPow header factorConst (c % 2 ^ 64).toNat s
    let mode := (P.1.graph.node n).mode
    let D := newDivRes P.1 header n P.2 mode
    let s₃ := (D.1.newNode ⟨.mul, mode, header, [D.2, cCpy]⟩).1
    if less then s₃.newNode ⟨.mul, mode, header, [D.1.graph.size, cCpy]⟩
    else newDivRes s₃ header D.1.graph.size cCpy mode := rfl

theorem createAbs_extends (w : Nat) (s : Surgery) (block node : Nat) :
    s.graph.Extends (createAbs w s block node).1.graph := by
  rw [createAbs_eq]
  exact (s.extends_newNode _).trans <| (Surgery.extends_newNode _ _).trans <|
    (Surgery.extends_newNode _ _).trans (Surgery.extends_newNode _ _)

theorem createRPow_extends (block base : Nat) :
    ∀ (e : Nat) (s : Surgery), s.graph.Extends (createRPow block base e s).1.graph
  | 0, s => s.extends_newNode _
  | 1, _ => .refl _
  | e + 2, s => by
    rw [createRPow_two]
    exact (createRPow_extends block base (e + 1) s).trans (Surgery.extends_newNode _ _)

theorem newDivRes_extends (s : Surgery) (block a b : Nat) (mode : Mode) :
    s.graph.Extends (newDivRes s block a b mode).1.graph := by
  rw [newDivRes_eq]
  exact (s.extends_newNode _).trans <| (Surgery.extends_newNode _ _).trans <|
    (Surgery.extends_newNode _ _).trans (Surgery.extends_newNode _ _)

theorem updateHeaderConditionAdd_extends (w : Nat) (s : Surgery) (header n cCpy factorConst : Nat)
    (less : Bool) : s.graph.Extends (updateHeaderConditionAdd w s header n cCpy factorConst less).1.graph := by
  rw [updateHeaderConditionAdd_eq]
  exact (createAbs_extends w s header cCpy).trans <| (Surgery.extends_newNode _ _).trans <|
    (Surgery.extends_newNode _ _).trans <| (Surgery.extends_newNode _ _).trans (Surgery.extends_newNode _ _)

theorem mulBoundNodes_extends (s : Surgery) (header n cCpy factorConst : Nat) (c : Int) (less : Bool) :
    s.graph.Extends (mulBoundNodes s header n cCpy factorConst c less).1.graph := by
  rw [mulBoundNodes_eq]
  cases less
  · exact (createRPow_extends _ _ _ s).trans <| (newDivRes_extends _ _ _ _ _).trans <|
      (Surgery.extends_newNode _ _).trans (newDivRes_extends _ _ _ _ _)
  · exact (createRPow_extends _ _ _ s).trans <| (newDivRes_extends _ _ _ _ _).trans <|
      (Surgery.extends_newNode _ _).trans (Surgery.extends_newNode _ _)

/-- The graph `g` has the nodes of `g₀` from `lo` on, and `v` evaluates `g` at them. Peeling
the last node built off gives its value and leaves the same statement for the graph before it. -/
def Built (m : IntMode) (env : Nat → Option (BitVec w)) (g₀ g : Graph) (v : Nat → Option (BitVec w))
    (lo : Nat) : Prop :=
  ∀ k, lo ≤ k → k < g₀.size → g.node k = g₀.node k ∧ v k = g.nodeValue m env v k

section Built

variable {m : IntMode} {env v : Nat → Option (BitVec w)} {g : Graph} {s : Surgery} {lo : Nat}

theorem Graph.Evaluates.built {g₀ : Graph} (hv : g.Evaluates m env v) (hs : g₀.size ≤ g.size)
    (hn : ∀ k, lo ≤ k → k < g₀.size → g.node k = g₀.node k) : Built m env g₀ g v lo :=
  fun k h₁ h₂ => ⟨hn k h₁ h₂, hv k (lt_of_lt_of_le h₂ hs)⟩

/-- The last node built: `g` has it, and `v` gives it the value of its operation. -/
theorem Built.newNode {nd : Node} (hb : Built m env (s.newNode nd).1.graph g v lo)
    (hlo : lo ≤ s.graph.size) :
    Built m env s.graph g v lo ∧ g.op s.graph.size = nd.op ∧
      v s.graph.size = nd.value m g.op (env s.graph.size) v := by
  have hs := hb s.graph.size hlo (by simp)
  simp only [Surgery.newNode, setAt_apply, if_true] at hs
  refine ⟨fun k h₁ h₂ => ?_, by simp [Graph.op, hs.1], by rw [hs.2, Graph.nodeValue, hs.1]⟩
  simpa [Surgery.newNode, Nat.ne_of_lt h₂] using hb k h₁ (by simp; omega)

theorem ofInt_width_pred_toNat (w : Nat) : (BitVec.ofInt w ((w : Int) - 1)).toNat = w - 1 := by
  cases w with
  | zero => rfl
  | succ k =>
    have : (k : Int) < 2 ^ (k + 1) := by exact_mod_cast Nat.lt_two_pow k |>.trans (Nat.pow_lt_pow_right (by norm_num) (by omega))
    rw [BitVec.toNat_ofInt]
    push_cast
    rw [add_sub_cancel_right, Int.emod_eq_of_lt (by omega) (by exact_mod_cast this)]
    simp

theorem Built.createAbs {block node : Nat}
    (hb : Built m env (createAbs w s block node).1.graph g v lo) (hlo : lo ≤ s.graph.size) :
    Built m env s.graph g v lo ∧ v (createAbs w s block node).2 = (v node).map LibFirm.createAbs := by
  rw [createAbs_eq] at hb ⊢
  obtain ⟨hb, -, h₃⟩ := hb.newNode (by simp; omega)
  obtain ⟨hb, -, h₂⟩ := hb.newNode (by simp; omega)
  obtain ⟨hb, -, h₁⟩ := hb.newNode (by simp; omega)
  obtain ⟨hb, -, h₀⟩ := hb.newNode hlo
  simp only [Surgery.newNode_snd, Surgery.newNode_size, Nat.add_assoc, Nat.reduceAdd] at h₀ h₁ h₂ h₃ ⊢
  refine ⟨hb, ?_⟩
  rw [h₃]
  simp only [Node.value, List.getD_cons_zero, List.getD_cons_succ, h₂, h₁, h₀]
  cases v node <;> simp only [Option.map_some', Option.some_bind, Option.none_bind,
    Option.map_none', ofInt_width_pred_toNat]
  rfl

theorem Built.createRPow {block base : Nat} {b : BitVec w} (hbase : v base = some b) :
    ∀ (e : Nat) {s : Surgery}, Built m env (createRPow block base e s).1.graph g v lo →
      lo ≤ s.graph.size →
      Built m env s.graph g v lo ∧ v (createRPow block base e s).2 = some (LibFirm.createRPow b e)
  | 0, s, hb, hlo => by
    obtain ⟨hb, -, h⟩ := hb.newNode hlo
    exact ⟨hb, by simpa [Node.value] using h⟩
  | 1, _, hb, _ => ⟨hb, hbase⟩
  | e + 2, s, hb, hlo => by
    rw [createRPow_two] at hb ⊢
    obtain ⟨hb, -, h⟩ := hb.newNode (hlo.trans (createRPow_extends _ _ _ _).size_le)
    obtain ⟨hb, hpow⟩ := Built.createRPow hbase (e + 1) hb hlo
    refine ⟨hb, ?_⟩
    rw [Surgery.newNode_snd, h]
    simp [Node.value, hbase, hpow, LibFirm.createRPow]

/-- The nodes of `DivRL(Pin(NoMem), a, b)` and its result divide in the mode. -/
theorem Built.newDivRes {block a b : Nat} {mode : Mode}
    (hb : Built m env (newDivRes s block a b mode).1.graph g v lo) (hlo : lo ≤ s.graph.size) :
    Built m env s.graph g v lo ∧
      v (newDivRes s block a b mode).2 = (v a).bind fun x => (v b).bind (m.div x) := by
  rw [newDivRes_eq] at hb ⊢
  obtain ⟨hb, -, h₃⟩ := hb.newNode (by simp; omega)
  obtain ⟨hb, hdiv, h₂⟩ := hb.newNode (by simp; omega)
  obtain ⟨hb, -, -⟩ := hb.newNode (by simp; omega)
  obtain ⟨hb, -, -⟩ := hb.newNode hlo
  simp only [Surgery.newNode_snd, Surgery.newNode_size, Nat.add_assoc, Nat.reduceAdd] at hdiv h₂ h₃ ⊢
  refine ⟨hb, ?_⟩
  rw [h₃]
  simp [Node.value, hdiv, h₂]

theorem Built.updateHeaderConditionAdd {header n cCpy factorConst f : Nat} {less : Bool}
    (hb : Built m env (updateHeaderConditionAdd w s header n cCpy factorConst less).1.graph g v lo)
    (hlo : lo ≤ s.graph.size) (hf : v factorConst = some (BitVec.ofNat w f)) :
    Built m env s.graph g v lo ∧ v (updateHeaderConditionAdd w s header n cCpy factorConst less).2 =
      (v n).bind fun N => (v cCpy).map fun c => LibFirm.updateHeaderConditionAdd N c f less := by
  rw [updateHeaderConditionAdd_eq] at hb ⊢
  dsimp only at hb ⊢
  have hle := hlo.trans (createAbs_extends w s header cCpy).size_le
  obtain ⟨hb, -, h₃⟩ := hb.newNode (by simp; omega)
  obtain ⟨hb, -, h₂⟩ := hb.newNode (by simp; omega)
  obtain ⟨hb, -, h₁⟩ := hb.newNode (by simp; omega)
  obtain ⟨hb, -, h₀⟩ := hb.newNode hle
  obtain ⟨hb, habs⟩ := hb.createAbs hlo
  simp only [Surgery.newNode_snd, Surgery.newNode_size, Nat.add_assoc, Nat.reduceAdd] at h₀ h₁ h₂ h₃ ⊢
  refine ⟨hb, ?_⟩
  rw [h₃]
  cases less <;>
  simp [Node.value, h₂, h₁, h₀, habs, hf, LibFirm.updateHeaderConditionAdd] <;>
  cases v n <;> cases v cCpy <;> simp

/-- The nodes of `update_header_condition_mul` for the constant `c` compute
`LibFirm.updateHeaderConditionMul` with the exponent `c` taken as the constant's value. -/
theorem Built.mulBoundNodes {header n cCpy factorConst f : Nat} {c : Int} {less : Bool}
    {cv : BitVec w}
    (hb : Built m env (mulBoundNodes s header n cCpy factorConst c less).1.graph g v lo)
    (hlo : lo ≤ s.graph.size) (hf : v factorConst = some (BitVec.ofNat w f))
    (hc : v cCpy = some cv) (he : (c % 2 ^ 64).toNat = constExponent m cv) :
    Built m env s.graph g v lo ∧ v (mulBoundNodes s header n cCpy factorConst c less).2 =
      (v n).bind fun N => LibFirm.updateHeaderConditionMul m N cv f less := by
  rw [mulBoundNodes_eq] at hb ⊢
  dsimp only at hb ⊢
  rw [he] at hb ⊢
  have hP := hlo.trans (createRPow_extends header factorConst (constExponent m cv) s).size_le
  have hD := newDivRes_extends (Ir.createRPow header factorConst (constExponent m cv) s).1 header n
    (Ir.createRPow header factorConst (constExponent m cv) s).2
    (((Ir.createRPow header factorConst (constExponent m cv) s).1.graph.node n).mode)
  cases less
  · simp only [Bool.false_eq_true, if_false] at hb ⊢
    obtain ⟨hb, h₂⟩ := hb.newDivRes (by simp only [Surgery.newNode_size]; have := hD.size_le; omega)
    obtain ⟨hb, -, h₁⟩ := hb.newNode (hP.trans hD.size_le)
    obtain ⟨hb, h₀⟩ := hb.newDivRes hP
    obtain ⟨hb, hpow⟩ := Built.createRPow hf _ hb hlo
    refine ⟨hb, ?_⟩
    rw [h₂, h₁]
    simp only [Node.value, List.getD_cons_zero, List.getD_cons_succ, h₀, hpow, hc]
    cases v n <;> simp [LibFirm.updateHeaderConditionMul, Option.bind_assoc]
  · simp only [if_true] at hb ⊢
    obtain ⟨hb, -, h₂⟩ := hb.newNode (by simp only [Surgery.newNode_size]; have := hD.size_le; omega)
    obtain ⟨hb, -, h₁⟩ := hb.newNode (hP.trans hD.size_le)
    obtain ⟨hb, h₀⟩ := hb.newDivRes hP
    obtain ⟨hb, hpow⟩ := Built.createRPow hf _ hb hlo
    refine ⟨hb, ?_⟩
    rw [Surgery.newNode_snd, h₂]
    simp only [Node.value, List.getD_cons_zero, List.getD_cons_succ, Surgery.newNode_size, h₁, h₀,
      hpow, hc]
    cases v n <;> simp [LibFirm.updateHeaderConditionMul, Option.bind_assoc]

end Built

section Bound

variable {o : Graph} {w factor header cmp n side incr : Nat} {info : LinUnrollInfo} {op : Op}
  {s s' : Surgery}

/-- What a successful `update_header_condition` does once it has found `N` and the increment. -/
theorem updateHeaderCondition_eq_ok (h : updateHeaderCondition o w factor info header s = .ok s')
    (hcmp : info.cmp = some cmp)
    (hside : boundSide info (s.graph.input cmp 0) (s.graph.input cmp 1) = some (n, side))
    (hincr : info.incr = some incr) (hop : info.op = some op) :
    ∃ phiM s₁ cCpy, copyAndRewire s incr header phiM = .ok (s₁, cCpy) ∧
      ∃ r : Surgery × Nat,
        (let s₂ := (s₁.newNode ⟨.const factor, (s₁.graph.node cCpy).mode, constBlock, []⟩).1
         ((op = .add ∨ op = .sub) ∧ r = updateHeaderConditionAdd w s₂ header n cCpy s₁.graph.size
            (isLess s₂.graph info cmp) ∨
          op = .mul ∧ ∃ c, s₂.graph.op cCpy = .const c ∧
            r = mulBoundNodes s₂ header n cCpy s₁.graph.size c (isLess s₂.graph info cmp))) ∧
        s' = r.1.setIrnN cmp side r.2 := by
  unfold updateHeaderCondition at h
  simp only [hcmp, hside, hincr, hop] at h
  split at h
  · rename_i phiM _ _
    obtain ⟨⟨s₁, cCpy⟩, h₁, h⟩ := bind_eq_ok h
    refine ⟨phiM, s₁, cCpy, h₁, ?_⟩
    cases op
    all_goals
      obtain ⟨r, h₂, h⟩ := bind_eq_ok h
      refine ⟨r, ?_, (Except.ok.inj h).symm⟩
    · exact .inl ⟨.inl rfl, (Except.ok.inj h₂).symm⟩
    · exact .inl ⟨.inr rfl, (Except.ok.inj h₂).symm⟩
    · unfold updateHeaderConditionMul at h₂
      split at h₂
      · exact .inr ⟨rfl, _, ‹_›, (Except.ok.inj h₂).symm⟩
      · cases h₂
  · cases h

theorem copyAndRewire_of_const {c : Int} (hc : s.graph.op incr = .const c) (phiM : Nat) :
    copyAndRewire s incr header phiM =
      .ok ({ s with graph := (s.graph.exactCopy incr).1 }, s.graph.size) := by
  simp only [copyAndRewire, Graph.isConstlike, hc, if_true]; rfl

theorem copyAndRewire_of_dominates (hn : s.graph.isConstlike incr = false)
    (hd : s.graph.blockDominates (s.graph.getBlock incr) s.graph.size header = true) (phiM : Nat) :
    copyAndRewire s incr header phiM = .ok (s, incr) := by
  simp only [copyAndRewire, hn, hd, Bool.false_eq_true, if_false, if_true]; rfl

@[simp] theorem Graph.setIrnN_op (g : Graph) (n i x k : Nat) : (g.setIrnN n i x).op k = g.op k := by
  by_cases hk : k = n <;> simp [Graph.setIrnN, Graph.setIrnIn, Graph.op, hk]

theorem Graph.Extends.op_eq {g g' : Graph} (h : g.Extends g') {k : Nat} (hk : k < g.size) :
    g'.op k = g.op k := by
  rw [Graph.op, Graph.op, h.node k hk]

theorem Graph.Evaluates.const {g : Graph} {m : IntMode} {env v : Nat → Option (BitVec w)}
    (hv : g.Evaluates m env v) {k : Nat} {c : Int} (hk : k < g.size) (hc : g.op k = .const c) :
    v k = some (BitVec.ofInt w c) := by
  rw [hv k hk, Graph.nodeValue, Node.value]
  rw [Graph.op] at hc
  simp [hc]

theorem isLess_eq {g : Graph} {r : Relation} (hrel : info.rel = some r) :
    isLess g info cmp = HeaderCmp.isLess ⟨r, info.phi ≠ some (g.input cmp 1)⟩ := by
  simp [isLess, HeaderCmp.isLess, Relation.isLessRel, hrel]; rfl

theorem update_header_condition_computes {m : IntMode} {env v : Nat → Option (BitVec w)}
    {r : Relation} (h : updateHeaderCondition o w factor info header s = .ok s')
    (hcmp : info.cmp = some cmp) (hcmpLt : cmp < s.graph.size)
    (hcmp2 : (s.graph.node cmp).ins.length = 2)
    (hside : boundSide info (s.graph.input cmp 0) (s.graph.input cmp 1) = some (n, side))
    (hop : info.op = some op) (hrel : info.rel = some r)
    (hincr : info.incr = some incr) (hincrLt : incr < s.graph.size)
    (hpre : (∃ c, s.graph.op incr = .const c ∧ m.Fits w c) ∨
      (s.graph.isConstlike incr = false ∧
        s.graph.blockDominates (s.graph.getBlock incr) s.graph.size header = true))
    (hv : s'.graph.Evaluates m env v) :
    v (s'.graph.input cmp side) = (v n).bind fun N => (v incr).bind fun c =>
      LibFirm.updateHeaderCondition m ⟨r, info.phi ≠ some (s.graph.input cmp 1)⟩ op N c factor := by
  obtain ⟨phiM, s₁, cCpy, hcopy, R, hR, rfl⟩ := updateHeaderCondition_eq_ok h hcmp hside hincr hop
  -- the increment is copied as a constant, or used as it is
  have hcp : s.graph.Extends s₁.graph ∧ cCpy < s₁.graph.size ∧ s₁.graph.op cCpy = s.graph.op incr ∧
      (cCpy = incr ∧ s.graph.isConstlike incr = false ∨ ∃ c, s.graph.op incr = .const c ∧ m.Fits w c) := by
    rcases hpre with ⟨c, hc, hfit⟩ | ⟨hn, hd⟩
    · rw [copyAndRewire_of_const hc] at hcopy
      cases hcopy
      exact ⟨s.graph.extends_exactCopy incr, Nat.lt_succ_self _, by simp [Graph.exactCopy, Graph.op],
        .inr ⟨c, hc, hfit⟩⟩
    · rw [copyAndRewire_of_dominates hn hd] at hcopy
      cases hcopy
      exact ⟨.refl _, hincrLt, rfl, .inl ⟨rfl, hn⟩⟩
  obtain ⟨E₁, hcLt, hcOp, hcase⟩ := hcp
  set s₂ := (s₁.newNode ⟨.const factor, (s₁.graph.node cCpy).mode, constBlock, []⟩).1 with hs₂
  have hs2 : s₂.graph.size = s₁.graph.size + 1 := rfl
  have E₂ : s₁.graph.Extends s₂.graph := s₁.extends_newNode _
  have E₃ : s₂.graph.Extends R.1.graph := by
    rcases hR with ⟨-, rfl⟩ | ⟨-, c, -, rfl⟩
    exacts [updateHeaderConditionAdd_extends _ _ _ _ _ _ _, mulBoundNodes_extends _ _ _ _ _ _ _]
  have E := E₁.trans (E₂.trans E₃)
  have h1 := E₁.size_le
  have h3 := E₃.size_le
  have hop' {k : Nat} (hk : k < s₂.graph.size) :
      (R.1.setIrnN cmp side R.2).graph.op k = s₂.graph.op k := by
    simp only [Surgery.setIrnN, Surgery.edit, Graph.setIrnN_op, E₃.op_eq hk]
  have hconst {k : Nat} {c : Int} (hk : k < s₂.graph.size) (hc : s₂.graph.op k = .const c) :
      v k = some (BitVec.ofInt w c) :=
    hv.const (by show _ < R.1.graph.size; omega) ((hop' hk).trans hc)
  -- the factor, the increment and its copy
  have hf : v s₁.graph.size = some (BitVec.ofNat w factor) := by
    rw [@hconst _ factor (by omega) (by simp [hs₂, Surgery.newNode, Graph.op]), BitVec.ofInt_natCast]
  have hinc : v cCpy = v incr := by
    rcases hcase with ⟨rfl, -⟩ | ⟨c, hc, -⟩
    · rfl
    · have e₁ : s₂.graph.op cCpy = .const c := by rw [E₂.op_eq hcLt, hcOp, hc]
      have e₂ : s₂.graph.op incr = .const c := by rw [E₂.op_eq (by omega), E₁.op_eq hincrLt, hc]
      rw [hconst (by omega) e₁, hconst (by omega) e₂]
  -- the final graph holds the new nodes
  have hb : Built m env R.1.graph (R.1.setIrnN cmp side R.2).graph v s₁.graph.size :=
    hv.built le_rfl fun k hk _ => by
      have : k ≠ cmp := by omega
      simp [Surgery.setIrnN, Surgery.edit, Graph.setIrnN, Graph.setIrnIn, this]
  have hin : (R.1.setIrnN cmp side R.2).graph.input cmp side = R.2 := by
    have hs : side < 2 := by
      unfold boundSide at hside; split_ifs at hside <;> cases hside <;> omega
    simp [Surgery.setIrnN, Surgery.edit, Graph.setIrnN, Graph.setIrnIn, Graph.input,
      E.node cmp hcmpLt, hcmp2, hs]
  have hless : isLess s₂.graph info cmp =
      HeaderCmp.isLess ⟨r, info.phi ≠ some (s.graph.input cmp 1)⟩ := by
    rw [isLess_eq hrel, (E₁.trans E₂).input hcmpLt]
  rw [hin]
  rcases hR with ⟨hop2, rfl⟩ | ⟨rfl, c, hc, rfl⟩
  · obtain ⟨-, hval⟩ := hb.updateHeaderConditionAdd (by omega) hf
    rw [hval, hinc, hless]
    rcases hop2 with rfl | rfl <;> cases v n <;> cases v incr <;> rfl
  · obtain ⟨c', hc', hfit⟩ : ∃ c', s.graph.op incr = .const c' ∧ m.Fits w c' := by
      rcases hcase with ⟨rfl, hn⟩ | hc'
      · rw [E₂.op_eq hcLt, hcOp] at hc
        simp [Graph.isConstlike, hc] at hn
      · exact hc'
    have hcc : c = c' := by
      rw [E₂.op_eq hcLt, hcOp, hc'] at hc
      exact (Opcode.const.inj hc).symm
    subst hcc
    have hcv : v cCpy = some (BitVec.ofInt w c) := hconst (by omega) hc
    have he : (c % 2 ^ 64).toNat = constExponent m (BitVec.ofInt w c) := by
      rw [constExponent, show m.val (BitVec.ofInt w c) = c from m.val_cast_of_fits hfit]
    obtain ⟨-, hval⟩ := hb.mulBoundNodes (by omega) hf hcv he
    rw [hval, ← hinc, hcv, hless]
    rfl

end Bound

/-- `for (i = 0; i < N; i += 1)`, as far as `update_header_condition` reads it: block 5 is the
header, with the Phi 6 of `i`, the memory Phi 7 and the `Cmp` 8 of `i` against the argument 3;
the increment is the constant 2. -/
def counterLoop : Graph where
  size := 10
  node := fun
    | 0 => ⟨.block, .other, 0, []⟩
    | 1 => ⟨.const 0, .int, 0, []⟩
    | 2 => ⟨.const 1, .int, 0, []⟩
    | 3 => ⟨.other, .int, 0, []⟩
    | 4 => ⟨.other, .mem, 0, []⟩
    | 5 => ⟨.block, .other, 5, []⟩
    | 6 => ⟨.phi, .int, 5, [1, 9]⟩
    | 7 => ⟨.phi, .mem, 5, [4, 7]⟩
    | 8 => ⟨.cmp .less, .other, 5, [6, 3]⟩
    | _ => ⟨.add, .int, 5, [6, 2]⟩
  nLoops := 1
  loopOuter := fun _ => 0
  loopElements := fun _ => []
  blockLoop := fun _ => none
  idom := fun _ => none

/-- What the recognizer reports for the counter loop. -/
def counterInfo : LinUnrollInfo := ⟨some .add, 1, none, some 8, some .less, some 2, some 6, some 3⟩

/-- `N = 100` and `i = 0` in 8-bit signed integers. -/
def counterEnv : Nat → Option (BitVec 8)
  | 3 => some 100
  | 6 => some 0
  | _ => none

theorem update_header_condition_counter :
    ∃ s', updateHeaderCondition counterLoop 8 4 counterInfo 5 ⟨counterLoop, fun _ => none, [], []⟩ = .ok s' ∧
      let v := s'.graph.value ⟨true⟩ counterEnv 20
      v (s'.graph.input 8 1) = (v 3).bind fun N => (v 2).bind fun c =>
        LibFirm.updateHeaderCondition ⟨true⟩ ⟨.less, counterInfo.phi ≠ some (counterLoop.input 8 1)⟩ .add N c 4 := by
  obtain ⟨s', h, hv⟩ : ∃ s', updateHeaderCondition counterLoop 8 4 counterInfo 5
      ⟨counterLoop, fun _ => none, [], []⟩ = .ok s' ∧
      s'.graph.Evaluates ⟨true⟩ counterEnv (s'.graph.value ⟨true⟩ counterEnv 20) := ⟨_, rfl, by decide⟩
  exact ⟨s', h, update_header_condition_computes h rfl (by decide) rfl rfl rfl rfl rfl (by decide)
    (.inl ⟨1, rfl, by decide⟩) hv⟩

example : (updateHeaderCondition counterLoop 8 4 counterInfo 5 ⟨counterLoop, fun _ => none, [], []⟩).map
    (fun s' => s'.graph.value ⟨true⟩ counterEnv 20 (s'.graph.input 8 1)) = .ok (some 97) := by
  decide

end LibFirm.Ir
