import LibFirm.Ir.DuffRewire

/-!
# The new bound: `update_header_condition`

Last, `update_header_condition` replaces the bound `N` of the header's `Cmp` by the bound for
`factor` iterations at once: it brings the increment `c` into the header (`copy_and_rewire`),
builds the new bound from `N`, the copy and a constant `factor`, and sets it on `N`'s side of
the `Cmp`. New nodes are appended to the graph, constants in the start block, node 0; `w` is the
width of the increment's mode, which the graph does not record.
-/

namespace LibFirm.Ir

/-- The block that holds constants: the start block. -/
def constBlock : Nat := 0

/-- `pn_Div_res`, libfirm's number of the result of a `Div`. -/
def pnDivRes : Nat := 3

namespace Surgery

variable (s : Surgery)

/-- `new_r_*`: a new node, the last one. -/
def newNode (nd : Node) : Surgery × Nat :=
  ({ s with graph := { s.graph with size := s.graph.size + 1,
                                    node := setAt s.graph.node s.graph.size nd } },
    s.graph.size)

theorem keeps_newNode (nd : Node) : s.graph.Keeps (s.newNode nd).1.graph :=
  ⟨Nat.le_succ _, fun m hm => by simp [newNode, Nat.ne_of_lt hm]⟩

@[simp] theorem newNode_node_self (nd : Node) : (s.newNode nd).1.graph.node (s.newNode nd).2 = nd := by
  simp [newNode]

end Surgery

section UpdateHeader

variable (o : Graph)

/-- `recursive_copy_in_loop(node, header)`: the inputs of `node` computed in the loop below the
header are copied into the header, and theirs in turn, except memory and the inputs of a Phi. -/
def recursiveCopyInLoop (header : Nat) : Nat → Surgery → Nat → Except Fault Surgery
  | 0, _, _ => .error .diverges
  | fuel + 1, s, node =>
    (List.range (s.graph.node node).ins.length).foldlM (fun s i =>
      let toCpy := s.graph.input node i
      let toCpyBlock := s.graph.getBlock toCpy
      if toCpyBlock = header ∨ s.graph.blockDominates toCpyBlock s.graph.size header then pure s
      else if (s.graph.node toCpy).mode ≠ .mem ∧ !s.graph.isPhi node then
        recursiveCopyInLoop header fuel (duplicateNode s toCpy header) toCpy
      else pure s) s

/-- The input `next` the copy of a node keeps in `recursive_rewire_in_loop`, or `none` when the
copy reads the input's copy. -/
def rewireInLoopInput (s : Surgery) (header phiM next : Nat) : Option Nat :=
  let nextBlock := s.graph.getBlock next
  if s.graph.blockDominates nextBlock s.graph.size header ∨ nextBlock = header then some next
  else if (s.graph.node next).mode = .mem then some phiM
  else if s.graph.isPhi next then some next
  else none

/-- `recursive_rewire_in_loop(node, header, phi_M)`: the copy of `node` reads the copies of
its inputs, and those copies are rewired in turn. -/
def recursiveRewireInLoop (header phiM : Nat) : Nat → Surgery → Nat → Except Fault Surgery
  | 0, _, _ => .error .diverges
  | fuel + 1, s, node => do
    let (s, newIn) ← (List.range (s.graph.node node).ins.length).foldlM
      (fun (st : Surgery × List Nat) i => do
        let (s, newIn) := st
        let next := s.graph.input node i
        match rewireInLoopInput s header phiM next with
        | some n => pure (s, newIn ++ [n])
        | none =>
          let link := s.link next
          let s ← recursiveRewireInLoop header phiM fuel s next
          -- a `NULL` link has already failed in the call, which sets the inputs of the link
          match link with
          | some l => pure (s, newIn ++ [l])
          | none => .error .nullDeref) (s, [])
    match s.link node with
    | some l => pure (s.setIrnIn l newIn)
    | none => .error .nullDeref

/-- `copy_and_rewire(node, target_block, phi_M)`: a constant is copied; a value computed before
`target_block` is used as it is; otherwise the value is copied into `target_block` with what
it is computed from in the loop. -/
def copyAndRewire (s : Surgery) (node targetBlock phiM : Nat) : Except Fault (Surgery × Nat) :=
  if s.graph.isConstlike node then
    pure ({ s with graph := (s.graph.exactCopy node).1 }, s.graph.size)
  else if s.graph.blockDominates (s.graph.getBlock node) s.graph.size targetBlock then pure (s, node)
  else do
    let cpy := s.graph.size
    let s := duplicateNode s node targetBlock
    let s ← recursiveCopyInLoop targetBlock s.graph.size s cpy
    let s ← recursiveRewireInLoop targetBlock phiM s.graph.size s node
    pure (s, cpy)

/-- `create_abs(block, node)`: `Sub(Eor(Shrs(node, w - 1), node), Shrs(node, w - 1))`. -/
def createAbs (w : Nat) (s : Surgery) (block node : Nat) : Surgery × Nat :=
  let mode := (s.graph.node node).mode
  let (s, bits) := s.newNode ⟨.const (w - 1), .int, constBlock, []⟩
  let (s, shrs) := s.newNode ⟨.shrs, mode, block, [node, bits]⟩
  let (s, eor) := s.newNode ⟨.eor, mode, block, [shrs, node]⟩
  s.newNode ⟨.sub, mode, block, [eor, shrs]⟩

/-- `update_header_condition_add`: `N - |c|·(factor - 1)` for a less-type compare, else
`N + |c|·(factor - 1)`. -/
def updateHeaderConditionAdd (w : Nat) (s : Surgery) (header n cCpy factorConst : Nat)
    (less : Bool) : Surgery × Nat :=
  let (s, cAbs) := createAbs w s header cCpy
  let (s, one) := s.newNode ⟨.const 1, (s.graph.node cAbs).mode, constBlock, []⟩
  let (s, factorOffset) := s.newNode ⟨.sub, (s.graph.node factorConst).mode, header, [factorConst, one]⟩
  let (s, mul) := s.newNode ⟨.mul, (s.graph.node cAbs).mode, header, [cAbs, factorOffset]⟩
  s.newNode ⟨if less then .sub else .add, (s.graph.node n).mode, header, [n, mul]⟩

/-- `create_r_pow(block, base, exp)`: `Mul(base, Mul(base, ... base))` with `exp` factors, or
the constant 1. -/
def createRPow (block base : Nat) : Nat → Surgery → Surgery × Nat
  | 0, s => s.newNode ⟨.const 1, (s.graph.node base).mode, constBlock, []⟩
  | 1, s => (s, base)
  | e + 2, s =>
    let (s, pow) := createRPow block base (e + 1) s
    s.newNode ⟨.mul, (s.graph.node base).mode, block, [base, pow]⟩

/-- `DivRL(Pin(NoMem), a, b)` in `block` and its result, in `mode`: the `Proj`'s mode is
`larger_mode` of `N`'s mode and the `Div`'s, taken to be `N`'s. -/
def newDivRes (s : Surgery) (block a b : Nat) (mode : Mode) : Surgery × Nat :=
  let (s, noMem) := s.newNode ⟨.noMem, .mem, constBlock, []⟩
  let (s, pin) := s.newNode ⟨.pin, .mem, block, [noMem]⟩
  let (s, div) := s.newNode ⟨.div, .other, block, [pin, a, b]⟩
  s.newNode ⟨.proj pnDivRes, mode, block, [div]⟩

/-- The nodes of `update_header_condition_mul` for the constant increment `c`:
`((N / factor^c) * c) * c` for a less-type compare, else `((N / factor^c) * c) / c`. -/
def mulBoundNodes (s : Surgery) (header n cCpy factorConst : Nat) (c : Int) (less : Bool) :
    Surgery × Nat :=
  let (s, pow) := createRPow header factorConst (c % 2 ^ 64).toNat s
  let mode := (s.graph.node n).mode
  let (s, divProj) := newDivRes s header n pow mode
  let (s, newNDivC) := s.newNode ⟨.mul, mode, header, [divProj, cCpy]⟩
  if less then s.newNode ⟨.mul, mode, header, [newNDivC, cCpy]⟩
  else newDivRes s header newNDivC cCpy mode

/-- `update_header_condition_mul`: the increment must be a constant. -/
def updateHeaderConditionMul (s : Surgery) (header n cCpy factorConst : Nat) (less : Bool) :
    Except Fault (Surgery × Nat) :=
  match s.graph.op cCpy with
  | .const c => pure (mulBoundNodes s header n cCpy factorConst c less)
  | _ => .error .assertion

/-- `is_less(info)`: a less-type relation, inverted when the Phi is the right operand of
`info->cmp`. -/
def isLess (g : Graph) (info : LinUnrollInfo) (cmp : Nat) : Bool :=
  xor (info.rel = some .less || info.rel = some .lessEqual) (info.phi = some (g.input cmp 1))

/-- `N` and the side of the `Cmp` it stands on: the operand that is not the Phi, the right one
(1) when the Phi is on the left. -/
def boundSide (info : LinUnrollInfo) (left right : Nat) : Option (Nat × Nat) :=
  if info.phi = some left then some (right, 1)
  else if info.phi = some right then some (left, 0) else none

/-- `update_header_condition(info, factor)` on the header `header`; `phi_M` is found among the
header's out edges in `o`. -/
def updateHeaderCondition (w factor : Nat) (info : LinUnrollInfo) (header : Nat) (s : Surgery) :
    Except Fault Surgery := do
  let some cmp := info.cmp | .error .nullDeref
  let left := s.graph.input cmp 0
  let right := s.graph.input cmp 1
  let some (n, side) := boundSide info left right | .error .assertion
  let some (phiM, _) := (o.outEdges header).find? fun e =>
      s.graph.getBlock e.1 = header && s.graph.isPhi e.1 && (s.graph.node e.1).mode = .mem
    | .error .assertion
  let some incr := info.incr | .error .nullDeref
  let (s, cCpy) ← copyAndRewire s incr header phiM
  let (s, factorConst) := s.newNode ⟨.const factor, (s.graph.node cCpy).mode, constBlock, []⟩
  let less := isLess s.graph info cmp
  let (s, newN) ← match info.op with
    | some .add | some .sub => pure (updateHeaderConditionAdd w s header n cCpy factorConst less)
    | some .mul => updateHeaderConditionMul s header n cCpy factorConst less
    | none => .error .assertion
  pure (s.setIrnN cmp side newN)

/-- `unroll_loop_duff` with the loop fix-up: the rewiring, then `update_header_condition` on the
graph with the analyses `a₃` computed once more. -/
def unrollLoopDuff (g : Graph) (loop factor w : Nat) (info : LinUnrollInfo) (a₁ a₂ a₃ : Analyses) :
    Except Fault (Option Surgery) := do
  let some header ← g.getLoopHeader loop | pure none
  let some cmp := info.cmp | .error .nullDeref
  let some d ← unrollLoopDuffRewire g loop factor cmp a₁ a₂ | pure none
  let g₃ := d.final.graph.withAnalyses a₃
  let s ← updateHeaderCondition g₃ w factor info header { d.final with graph := g₃ }
  pure (some s)

end UpdateHeader

section Frame

variable {s : Surgery}

theorem recursiveCopyInLoop_keeps {header : Nat} :
    ∀ {fuel : Nat} {s s' : Surgery} {node : Nat},
      recursiveCopyInLoop header fuel s node = .ok s' → s.graph.Keeps s'.graph
  | 0, _, _, _, h => by cases h
  | fuel + 1, s, s', node, h => by
    unfold recursiveCopyInLoop at h
    refine foldlM_keeps (fun b i _ b' hb => ?_) h
    dsimp only at hb
    split_ifs at hb
    · cases Except.ok.inj hb; exact Graph.Keeps.refl _
    · exact (duplicateNode_keeps b _ _).trans (recursiveCopyInLoop_keeps hb)
    · cases Except.ok.inj hb; exact Graph.Keeps.refl _

theorem recursiveRewireInLoop_insEdit {header phiM : Nat} :
    ∀ {fuel : Nat} {s s' : Surgery} {node : Nat},
      recursiveRewireInLoop header phiM fuel s node = .ok s' → s.InsEdit s'
  | 0, _, _, _, h => by cases h
  | fuel + 1, s, s', node, h => by
    unfold recursiveRewireInLoop at h
    obtain ⟨⟨s₁, newIn⟩, h₁, h⟩ := bind_eq_ok h
    have e₁ : s.InsEdit s₁ := by
      refine foldlM_rel (fun st st' : Surgery × List Nat => st.1.InsEdit st'.1)
        (fun st => st.1.insEdit_refl) Surgery.InsEdit.trans (fun ⟨b, bs⟩ i _ st' hb => ?_) h₁
      dsimp only at hb
      split at hb
      · cases Except.ok.inj hb; exact b.insEdit_refl
      · obtain ⟨s₂, h₂, hb⟩ := bind_eq_ok hb
        split at hb
        · cases Except.ok.inj hb; exact recursiveRewireInLoop_insEdit h₂
        · cases hb
    refine e₁.trans ?_
    dsimp only at h
    split at h
    · cases Except.ok.inj h; exact Surgery.insEdit_setIrnIn _ _ _
    · cases h

theorem copyAndRewire_keeps {node targetBlock phiM : Nat} {r : Surgery × Nat}
    (h : copyAndRewire s node targetBlock phiM = .ok r) : s.graph.Keeps r.1.graph := by
  unfold copyAndRewire at h
  split_ifs at h
  · cases Except.ok.inj h; exact s.graph.keeps_exactCopy node
  · cases Except.ok.inj h; exact Graph.Keeps.refl _
  · obtain ⟨s₁, h₁, h⟩ := bind_eq_ok h
    obtain ⟨s₂, h₂, h⟩ := bind_eq_ok h
    cases Except.ok.inj h
    exact (duplicateNode_keeps s node targetBlock).trans
      ((recursiveCopyInLoop_keeps h₁).trans (recursiveRewireInLoop_insEdit h₂).keeps)

end Frame

/-- `update_header_condition` fails `assert(phi_M)` on a header with no memory Phi, which the
recognizer never asks for. -/
theorem updateHeaderCondition_of_no_memory_phi {o : Graph} {w factor header cmp n side : Nat}
    {info : LinUnrollInfo} {s : Surgery} (hcmp : info.cmp = some cmp)
    (hside : boundSide info (s.graph.input cmp 0) (s.graph.input cmp 1) = some (n, side))
    (hM : (o.outEdges header).find? (fun e => s.graph.getBlock e.1 = header && s.graph.isPhi e.1 &&
      (s.graph.node e.1).mode = .mem) = none) :
    updateHeaderCondition o w factor info header s = .error .assertion := by
  simp only [updateHeaderCondition, hcmp, hside, hM]

theorem unrollLoopDuff_of_rewire {g : Graph} {loop factor w header cmp : Nat}
    {info : LinUnrollInfo} {a₁ a₂ a₃ : Analyses} {d : DuffRewiring}
    (hh : g.getLoopHeader loop = .ok (some header)) (hcmp : info.cmp = some cmp)
    (hd : unrollLoopDuffRewire g loop factor cmp a₁ a₂ = .ok (some d)) :
    unrollLoopDuff g loop factor w info a₁ a₂ a₃ =
      (updateHeaderCondition (d.final.graph.withAnalyses a₃) w factor info header
        { d.final with graph := d.final.graph.withAnalyses a₃ }).map some := by
  simp only [unrollLoopDuff, hh, hcmp, hd, bind, Except.bind]
  cases updateHeaderCondition (d.final.graph.withAnalyses a₃) w factor info header
    { d.final with graph := d.final.graph.withAnalyses a₃ } <;> rfl

theorem unroll_loop_duff_no_memory_phi (w : Nat) (a₃ : Analyses) :
    let p : Program := ⟨fun _ => doublingLoop, 1, fun _ => none, fun _ => false⟩
    let info : LinUnrollInfo := ⟨some .mul, 1, some [2], some 8, some .less, some 3, some 7, some 4⟩
    ((p.determineLinUnrollInfo 0 1).run ⟨⟨none, 0, none, none, none, none, none, none⟩, []⟩).map
        (fun r => (r.1, r.2.info)) = .ok (⟨true, false⟩, info) ∧
      unrollLoopDuff doublingLoop 1 2 w info doublingLoopFixupAnalyses doublingLoopRewireAnalyses
        a₃ = .error .assertion := by
  obtain ⟨d, hd, hF⟩ := exists_of_map_eq doublingLoop_rewiring_eval
  obtain ⟨hcmp, hM⟩ := Prod.mk.inj_iff.mp (Prod.mk.inj_iff.mp hF).2
  have hh : doublingLoop.getLoopHeader 1 = .ok (some 6) := by decide
  have hside : boundSide ⟨some .mul, 1, some [2], some 8, some .less, some 3, some 7, some 4⟩
      ((d.final.graph.withAnalyses a₃).input 8 0) ((d.final.graph.withAnalyses a₃).input 8 1) =
        some (4, 1) := by
    simp only [Graph.input, Graph.withAnalyses, hcmp]; rfl
  refine ⟨doublingLoop_recognized, ?_⟩
  rw [unrollLoopDuff_of_rewire hh rfl hd, updateHeaderCondition_of_no_memory_phi
    (o := d.final.graph.withAnalyses a₃) (s := { d.final with graph := d.final.graph.withAnalyses a₃ })
    rfl hside (Option.isNone_iff_eq_none.mp hM)]
  rfl

/-- `for (p = a; p < e; p += 4) *p = 0;` over a pointer `p`: block 6 is the header of loop 1,
with the Phi 7 of `p`, the memory Phi 8 and the `Cmp` 9 of `p < e`; block 13 is the body, with
the increment 14 and the `Store` 17; block 19 follows the loop. -/
def memsetLoop : Graph :=
  ⟨24, fun
    | 0 => ⟨.block, .other, 0, []⟩
    | 1 => ⟨.jmp, .ctrl, 0, []⟩
    | 2 => ⟨.other, .other, 0, []⟩
    | 3 => ⟨.const 4, .int, 0, []⟩
    | 4 => ⟨.other, .other, 0, []⟩
    | 5 => ⟨.other, .mem, 0, []⟩
    | 6 => ⟨.block, .other, 6, [1, 15]⟩
    | 7 => ⟨.phi, .other, 6, [2, 14]⟩
    | 8 => ⟨.phi, .mem, 6, [5, 18]⟩
    | 9 => ⟨.cmp .less, .other, 6, [7, 4]⟩
    | 10 => ⟨.cond, .other, 6, [9]⟩
    | 11 => ⟨.proj 0, .ctrl, 6, [10]⟩
    | 12 => ⟨.proj 1, .ctrl, 6, [10]⟩
    | 13 => ⟨.block, .other, 13, [12]⟩
    | 14 => ⟨.add, .other, 13, [7, 3]⟩
    | 15 => ⟨.jmp, .ctrl, 13, []⟩
    | 16 => ⟨.const 0, .int, 0, []⟩
    | 17 => ⟨.store, .other, 13, [8, 7, 16]⟩
    | 18 => ⟨.proj 0, .mem, 13, [17]⟩
    | 19 => ⟨.block, .other, 19, [11]⟩
    | 20 => ⟨.phi, .mem, 19, [8]⟩
    | 21 => ⟨.other, .other, 19, [20]⟩
    | 22 => ⟨.block, .other, 22, [21]⟩
    | _ => ⟨.anchorEnd, .other, 22, []⟩,
    2, fun _ => 0, fun | 0 => [.block 0, .son 1, .block 19, .block 22] | _ => [.block 6, .block 13],
    fun | 6 => some 1 | 13 => some 1 | _ => some 0,
    fun | 6 => some 0 | 13 => some 6 | 19 => some 6 | 22 => some 19 | _ => none⟩

/-- The analyses after the fix-up: the fix-up loop 2 is blocks 24 and 31. -/
def memsetFixupAnalyses : Analyses :=
  ⟨3, fun _ => 0,
    fun | 0 => [.block 0, .son 1, .son 2, .block 19, .block 22] | 1 => [.block 6, .block 13]
        | _ => [.block 24, .block 31],
    fun | 6 => some 1 | 13 => some 1 | 24 => some 2 | 31 => some 2 | _ => some 0,
    fun | 6 => some 0 | 13 => some 6 | 24 => some 6 | 31 => some 24 | 19 => some 24
        | 22 => some 19 | _ => none⟩

/-- The analyses after `rewire_loop`: the copied header and body are blocks 36 and 43. -/
def memsetRewireAnalyses : Analyses :=
  ⟨3, fun _ => 0,
    fun | 0 => [.block 0, .son 1, .son 2, .block 19, .block 22]
        | 1 => [.block 6, .block 13, .block 36, .block 43] | _ => [.block 24, .block 31],
    fun | 6 => some 1 | 13 => some 1 | 36 => some 1 | 43 => some 1 | 24 => some 2
        | 31 => some 2 | _ => some 0,
    fun | 6 => some 0 | 13 => some 6 | 36 => some 13 | 43 => some 36 | 24 => some 6
        | 31 => some 24 | 19 => some 24 | 22 => some 19 | _ => none⟩

theorem unroll_loop_duff_body_without_memory_phi (w : Nat) (a₃ : Analyses) :
    let p : Program := ⟨fun _ => memsetLoop, 1, fun _ => none, fun _ => false⟩
    let info : LinUnrollInfo := ⟨some .add, 1, some [2], some 9, some .less, some 3, some 7, some 4⟩
    ((p.determineLinUnrollInfo 0 1).run ⟨⟨none, 0, none, none, none, none, none, none⟩, []⟩).map
        (fun r => (r.1, r.2.info)) = .ok (⟨true, false⟩, info) ∧
      unrollLoopDuff memsetLoop 1 2 w info memsetFixupAnalyses memsetRewireAnalyses a₃ =
        .error .assertion := by
  have hh : memsetLoop.getLoopHeader 1 = .ok (some 6) := by decide
  have hd : (unrollLoopDuffRewire memsetLoop 1 2 9 memsetFixupAnalyses
      memsetRewireAnalyses).map (fun _ => ()) = .error .assertion := by decide
  refine ⟨by decide, ?_⟩
  simp only [unrollLoopDuff, hh, eq_error_of_map_eq hd]
  rfl

end LibFirm.Ir
