import LibFirm.Ir.Values
import Mathlib.Data.List.GetD

/-!
# The compare chain of the switch fix-up

With the switch fix-up, `create_fixup_switch` makes `factor - 1` straight-line copies of the
loop body and `create_fixup_switch_header` puts a chain of compare blocks before them: after the
loop, `res = |N| - i + |c| - 1` (or `i - |N| + |c| - 1`, plus one for an inclusive compare) is
computed in a new block, and compare block `j` enters copy `j` when
`res >= (factor - 1 - j)·|c|` and the next compare block otherwise, the last one the block after
the loop.

Control leaves a block through its `Jmp`, or through the `Proj` of its `Cond` that the compare
selects, into the block that has that node as an input. In every valuation of the graph the
construction leaves, control enters the chain only from the new block, and compare block `j`
hands it to copy `j` exactly when `res >= (factor - 1 - j)·|c|` holds of the values of the Phi,
of `N` and of `c`.
-/

namespace LibFirm.Ir

variable {w : Nat}

/-- `res` of `create_fixup_switch_header` from the values `i`, `N` and `c`, with `|N|` and `|c|`
built by `create_abs`. -/
def fixupResidue (h : HeaderCmp) (i N c : BitVec w) : BitVec w :=
  let nMinusI := if h.isLess then LibFirm.createAbs N - i else i - LibFirm.createAbs N
  let nMinusI := if h.rel.hasEqual then nMinusI + 1 else nMinusI
  nMinusI + (LibFirm.createAbs c - 1)

/-- `get_in_n_to_header(target, header)`: the first input of `target` computed in `header`, or
`0` when there is none. -/
def getInNToHeader (g : Graph) (target header : Nat) : Nat :=
  ((List.range (g.node target).ins.length).find? fun j => g.getBlock (g.input target j) = header).getD 0

/-- One round of the loop of `create_fixup_switch_header` that builds the compare blocks: block
`i`, entered by `prev_jmp`, tests `res >= (factor - 1 - i)·|c|`; its true `Proj` is
`to_block[i]` and its false one the next `prev_jmp`. -/
def switchCompare (switchHeader res cAbs factor : Nat) (st : Surgery × Nat × List Nat) (i : Nat) :
    Surgery × Nat × List Nat :=
  let (s, prevJmp, toBlock) := st
  let mode := (s.graph.node cAbs).mode
  let (s, constI) := s.newNode ⟨.const ↑(factor - 1 - i), mode, constBlock, []⟩
  let (s, cTimes) := s.newNode ⟨.mul, mode, switchHeader, [constI, cAbs]⟩
  let (s, cmpBlock) := s.newNode ⟨.block, .other, s.graph.size, [prevJmp]⟩
  let (s, cmp) := s.newNode ⟨.cmp .greaterEqual, .other, cmpBlock, [res, cTimes]⟩
  let (s, cond) := s.newNode ⟨.cond, .other, cmpBlock, [cmp]⟩
  let (s, projT) := s.newNode ⟨.proj pnCondTrue, .ctrl, cmpBlock, [cond]⟩
  let (s, projF) := s.newNode ⟨.proj pnCondFalse, .ctrl, cmpBlock, [cond]⟩
  (s, projF, toBlock ++ [projT])

section SwitchHeader

variable (o : Graph)

/-- `N_minus_i` of `create_fixup_switch_header`: `|N| - i` for a less-type compare, else
`i - |N|`, plus one for an inclusive compare. -/
def switchNMinusI (info : LinUnrollInfo) (cmp phi switchHeader nAbs one : Nat) (s : Surgery) :
    Surgery × Nat :=
  let (s, nMinusI) := if isLess s.graph info cmp
    then s.newNode ⟨.sub, (s.graph.node nAbs).mode, switchHeader, [nAbs, phi]⟩
    else s.newNode ⟨.sub, (s.graph.node phi).mode, switchHeader, [phi, nAbs]⟩
  if info.rel = some .lessEqual ∨ info.rel = some .greaterEqual
    then s.newNode ⟨.add, (s.graph.node nMinusI).mode, switchHeader, [nMinusI, one]⟩
    else (s, nMinusI)

/-- The arithmetic of `create_fixup_switch_header` in the switch header: `|N|`, `|c|`,
`N_minus_i`, `c_one = |c| - 1` and `res`. Returns `res` and `c_abs`. -/
def switchResidue (w : Nat) (info : LinUnrollInfo) (cmp phi switchHeader nCpy cCpy : Nat)
    (s : Surgery) : Surgery × Nat × Nat :=
  let (s, nAbs) := createAbs w s switchHeader nCpy
  let (s, cAbs) := createAbs w s switchHeader cCpy
  let (s, one) := s.newNode ⟨.const 1, (s.graph.node cAbs).mode, constBlock, []⟩
  let (s, nMinusI) := switchNMinusI info cmp phi switchHeader nAbs one s
  let (s, cOne) := s.newNode ⟨.sub, (s.graph.node cAbs).mode, switchHeader, [cAbs, one]⟩
  let (s, res) := s.newNode ⟨.add, (s.graph.node nMinusI).mode, switchHeader, [nMinusI, cOne]⟩
  (s, res, cAbs)

/-- The loop body of the wiring: `target_blocks[i]` is entered from compare block `i` in place of
its input from the header. -/
def wireSwitchTarget (header : Nat) (targetBlocks toBlock : List Nat) (s : Surgery) (i : Nat) :
    Surgery :=
  let target := targetBlocks.getD i 0
  s.setIrnN target (getInNToHeader s.graph target header) (toBlock.getD i 0)

/-- The edges into the targets of the compare chain: `target_blocks[0]` is entered from the
first compare block alone, `target_blocks[i]` from compare block `i` in place of its input from
the header, and `after_loop` from the last compare block in place of its input from the
header. -/
def wireSwitchTargets (factor header afterLoop prevJmp : Nat) (targetBlocks toBlock : List Nat)
    (first : Nat) (s : Surgery) : Surgery :=
  let s := s.setIrnIn (targetBlocks.getD 0 0) [first]
  let s := (List.range' 1 (factor - 2)).foldl (wireSwitchTarget header targetBlocks toBlock) s
  s.setIrnN afterLoop (getInNToHeader s.graph afterLoop header) prevJmp

/-- `create_fixup_switch_header(loop, irg, factor, target_blocks, after_loop, info)`: the new
block and its arithmetic, the compare blocks, and the edges into the copies `target_blocks` and
into `after_loop`; the switch header is returned. The block entered from the header's exit is
made from an uninitialised array when `after_loop` has no input from the header. -/
def createFixupSwitchHeader (w factor : Nat) (info : LinUnrollInfo) (loop : Nat)
    (targetBlocks : List Nat) (afterLoop : Nat) (s : Surgery) : Except Fault (Surgery × Nat) := do
  let some header ← s.graph.getLoopHeader loop | .error .undefined
  let some afterIndex := (List.range (s.graph.node afterLoop).ins.length).find? fun i =>
      s.graph.getBlock (s.graph.input afterLoop i) = header
    | .error .undefined
  let (s, switchHeader) :=
    s.newNode ⟨.block, .other, s.graph.size, [s.graph.input afterLoop afterIndex]⟩
  let some (phiM, _) := (o.outEdges header).find? fun e =>
      s.graph.getBlock e.1 = header && s.graph.isPhi e.1 && (s.graph.node e.1).mode = .mem
    | .error .assertion
  let some c := info.incr | .error .nullDeref
  let (s, cCpy) ← if s.graph.isPhi c then pure (s, c) else copyAndRewire s c switchHeader phiM
  let some n := info.bound | .error .nullDeref
  let (s, nCpy) ← if s.graph.isPhi n then pure (s, n) else copyAndRewire s n switchHeader phiM
  -- `is_less(info)` reads `info->cmp` after `|N|`, `|c|` and the constant 1 are built
  let some cmp := info.cmp | .error .nullDeref
  let some phi := info.phi | .error .nullDeref
  let (s, res, cAbs) := switchResidue w info cmp phi switchHeader nCpy cCpy s
  let (s, prevJmp) := s.newNode ⟨.jmp, .ctrl, switchHeader, []⟩
  let (s, prevJmp, toBlock) :=
    (List.range (factor - 1)).foldl (switchCompare switchHeader res cAbs factor) (s, prevJmp, [])
  let some first := toBlock.head? | .error .undefined
  pure (wireSwitchTargets factor header afterLoop prevJmp targetBlocks toBlock first s, switchHeader)

end SwitchHeader

@[simp] theorem Surgery.newNode_node (s : Surgery) (nd : Node) (k : Nat) :
    (s.newNode nd).1.graph.node k = if k = s.graph.size then nd else s.graph.node k := rfl

@[simp] theorem createAbs_size (w : Nat) (s : Surgery) (block node : Nat) :
    (createAbs w s block node).1.graph.size = s.graph.size + 4 := rfl

@[simp] theorem createAbs_snd (w : Nat) (s : Surgery) (block node : Nat) :
    (createAbs w s block node).2 = s.graph.size + 3 := rfl

theorem switchNMinusI_eq (info : LinUnrollInfo) (cmp phi sh nAbs one : Nat) (s : Surgery) :
    switchNMinusI info cmp phi sh nAbs one s =
    let D := if isLess s.graph info cmp
      then s.newNode ⟨.sub, (s.graph.node nAbs).mode, sh, [nAbs, phi]⟩
      else s.newNode ⟨.sub, (s.graph.node phi).mode, sh, [phi, nAbs]⟩
    if info.rel = some .lessEqual ∨ info.rel = some .greaterEqual
      then D.1.newNode ⟨.add, (D.1.graph.node D.2).mode, sh, [D.2, one]⟩ else D := rfl

theorem switchNMinusI_extends (info : LinUnrollInfo) (cmp phi sh nAbs one : Nat) (s : Surgery) :
    s.graph.Extends (switchNMinusI info cmp phi sh nAbs one s).1.graph ∧
      s.graph.size ≤ (switchNMinusI info cmp phi sh nAbs one s).2 ∧
      (switchNMinusI info cmp phi sh nAbs one s).2 < (switchNMinusI info cmp phi sh nAbs one s).1.graph.size := by
  rw [switchNMinusI_eq]
  dsimp only
  split_ifs <;> simp only [Surgery.newNode_snd, Surgery.newNode_size] <;>
    refine ⟨?_, by omega, by omega⟩
  all_goals first
    | exact (Surgery.extends_newNode _ _).trans (Surgery.extends_newNode _ _)
    | exact Surgery.extends_newNode _ _

theorem switchResidue_eq (w : Nat) (info : LinUnrollInfo) (cmp phi sh nCpy cCpy : Nat)
    (s : Surgery) : switchResidue w info cmp phi sh nCpy cCpy s =
    let A := createAbs w s sh nCpy
    let C := createAbs w A.1 sh cCpy
    let O := C.1.newNode ⟨.const 1, (C.1.graph.node C.2).mode, constBlock, []⟩
    let D := switchNMinusI info cmp phi sh A.2 O.2 O.1
    let F := D.1.newNode ⟨.sub, (D.1.graph.node C.2).mode, sh, [C.2, O.2]⟩
    let R := F.1.newNode ⟨.add, (F.1.graph.node D.2).mode, sh, [D.2, F.2]⟩
    (R.1, R.2, C.2) := rfl

theorem switchResidue_extends (w : Nat) (info : LinUnrollInfo) (cmp phi sh nCpy cCpy : Nat)
    (s : Surgery) : s.graph.Extends (switchResidue w info cmp phi sh nCpy cCpy s).1.graph :=
  ((((createAbs_extends w s sh nCpy).trans (createAbs_extends w _ sh cCpy)).trans
    (Surgery.extends_newNode _ _)).trans (switchNMinusI_extends ..).1).trans <|
    (Surgery.extends_newNode _ _).trans (Surgery.extends_newNode _ _)

theorem switchResidue_lt (w : Nat) (info : LinUnrollInfo) (cmp phi sh nCpy cCpy : Nat)
    (s : Surgery) : (switchResidue w info cmp phi sh nCpy cCpy s).2.1 <
        (switchResidue w info cmp phi sh nCpy cCpy s).1.graph.size ∧
      (switchResidue w info cmp phi sh nCpy cCpy s).2.2 <
        (switchResidue w info cmp phi sh nCpy cCpy s).1.graph.size ∧
      (switchResidue w info cmp phi sh nCpy cCpy s).2.2 = s.graph.size + 7 := by
  rw [switchResidue_eq]
  refine ⟨by simp, lt_of_lt_of_le (by simp) ((Surgery.extends_newNode _ _).trans
    ((switchNMinusI_extends _ _ _ _ _ _ _).1.trans
      ((Surgery.extends_newNode _ _).trans (Surgery.extends_newNode _ _)))).size_le, rfl⟩

theorem Graph.Extends.getBlock {g g' : Graph} (h : g.Extends g') {x : Nat} (hx : x < g.size) :
    g'.getBlock x = g.getBlock x := by
  simp only [Graph.getBlock, Graph.op, h.node x hx]

theorem Graph.Extends.keeps {g g' : Graph} (h : g.Extends g') : g.Keeps g' :=
  ⟨h.size_le, fun k hk => by rw [h.node k hk]; exact ⟨rfl, rfl, rfl⟩⟩

/-- Every node refers to nodes of the graph, by its block and by its inputs, and every link
is a node. -/
structure Surgery.WellFormed (s : Surgery) : Prop where
  block_lt : ∀ n < s.graph.size, (s.graph.node n).block < s.graph.size
  ins_lt : ∀ n < s.graph.size, ∀ i ∈ (s.graph.node n).ins, i < s.graph.size
  link_lt : ∀ n l, s.link n = some l → l < s.graph.size

theorem duplicateNode_size (s : Surgery) (node newBlock : Nat) :
    (duplicateNode s node newBlock).graph.size = s.graph.size + 1 := rfl

theorem duplicateNode_node (s : Surgery) (node newBlock k : Nat) :
    (duplicateNode s node newBlock).graph.node k = if k = s.graph.size then
      ⟨(s.graph.node node).op, (s.graph.node node).mode,
        if s.graph.op node = Opcode.block then (s.graph.node node).block else newBlock,
        (s.graph.node node).ins⟩
    else s.graph.node k := by
  by_cases h : k = s.graph.size <;> simp [duplicateNode, Graph.setNodesBlock, Graph.exactCopy, h]

namespace Surgery.WellFormed

variable {s : Surgery}

theorem input_lt (hs : s.WellFormed) {n : Nat} (hn : n < s.graph.size) (i : Nat) :
    s.graph.input n i < s.graph.size := by
  rw [Graph.input]
  by_cases hi : i < (s.graph.node n).ins.length
  · rw [List.getD_eq_getElem _ _ hi]
    exact hs.ins_lt n hn _ (List.getElem_mem hi)
  · rw [List.getD_eq_default _ _ (not_lt.mp hi)]
    omega

theorem getBlock_lt (hs : s.WellFormed) {x : Nat} (hx : x < s.graph.size) :
    s.graph.getBlock x < s.graph.size := by
  unfold Graph.getBlock
  split_ifs
  exacts [hx, hs.block_lt x hx]

theorem newNode (hs : s.WellFormed) {nd : Node} (hb : nd.block ≤ s.graph.size)
    (hi : ∀ i ∈ nd.ins, i < s.graph.size) : (s.newNode nd).1.WellFormed where
  block_lt n hn := by
    simp only [Surgery.newNode, setAt_apply] at hn ⊢
    split_ifs with h
    · omega
    · have := hs.block_lt n (by omega); omega
  ins_lt n hn i hi' := by
    simp only [Surgery.newNode, setAt_apply] at hn hi' ⊢
    split_ifs at hi' with h
    · have := hi i hi'; omega
    · have := hs.ins_lt n (by omega) i hi'; omega
  link_lt n l hl := by have := hs.link_lt n l hl; simp only [Surgery.newNode]; omega

theorem duplicateNode (hs : s.WellFormed) {node newBlock : Nat} (hn : node < s.graph.size)
    (hb : newBlock < s.graph.size) : (duplicateNode s node newBlock).WellFormed where
  block_lt k hk := by
    rw [duplicateNode_size] at hk ⊢
    rw [duplicateNode_node]
    by_cases h₁ : k = s.graph.size
    · simp only [h₁, if_true]
      split_ifs
      · have := hs.block_lt _ hn; omega
      · omega
    · simp only [h₁, if_false]
      have := hs.block_lt k (by omega); omega
  ins_lt k hk i hi := by
    rw [duplicateNode_size] at hk ⊢
    rw [duplicateNode_node] at hi
    by_cases h₁ : k = s.graph.size
    · simp only [h₁, if_true] at hi
      have := hs.ins_lt _ hn i hi; omega
    · simp only [h₁, if_false] at hi
      have := hs.ins_lt k (by omega) i hi; omega
  link_lt k l hl := by
    rw [duplicateNode_size]
    simp only [Ir.duplicateNode, linkCopy] at hl
    split_ifs at hl with h₁ h₂ h₃
    · cases hl; omega
    · cases hl; omega
    · cases hl; omega
    · have := hs.link_lt k l hl; omega

theorem setIrnIn (hs : s.WellFormed) {n : Nat} {ins : List Nat}
    (hi : ∀ i ∈ ins, i < s.graph.size) : (s.setIrnIn n ins).WellFormed where
  block_lt k hk := by
    simp only [Surgery.setIrnIn, Surgery.edit, Graph.setIrnIn, Graph.setNode_node,
      Graph.setNode_size] at hk ⊢
    split_ifs with h
    · subst h; exact hs.block_lt _ hk
    · exact hs.block_lt k hk
  ins_lt k hk i hi' := by
    simp only [Surgery.setIrnIn, Surgery.edit, Graph.setIrnIn, Graph.setNode_node,
      Graph.setNode_size] at hk hi' ⊢
    split_ifs at hi' with h
    · exact hi i hi'
    · exact hs.ins_lt k hk i hi'
  link_lt := hs.link_lt

theorem exactCopy (hs : s.WellFormed) {node : Nat} (hn : node < s.graph.size) :
    ({ s with graph := (s.graph.exactCopy node).1 } : Surgery).WellFormed where
  block_lt k hk := by
    simp only [Graph.exactCopy, setAt_apply] at hk ⊢
    split_ifs
    · have := hs.block_lt _ hn; omega
    · have := hs.block_lt k (by omega); omega
  ins_lt k hk i hi := by
    simp only [Graph.exactCopy, setAt_apply] at hk hi ⊢
    split_ifs at hi
    · have := hs.ins_lt _ hn i hi; omega
    · have := hs.ins_lt k (by omega) i hi; omega
  link_lt n l hl := by have := hs.link_lt n l hl; simp only [Graph.exactCopy]; omega

theorem recursiveCopyInLoop {header : Nat} : ∀ {fuel : Nat} {s s' : Surgery} {node : Nat},
    Ir.recursiveCopyInLoop header fuel s node = .ok s' → s.WellFormed → node < s.graph.size →
      header < s.graph.size → s'.WellFormed
  | 0, _, _, _, h => by cases h
  | fuel + 1, s, s', node, h => fun hs hn hh => by
    unfold Ir.recursiveCopyInLoop at h
    refine (foldlM_invariant (fun b : Surgery => b.WellFormed ∧ node < b.graph.size ∧
      header < b.graph.size) _ (fun b i _ b' hb ⟨hbw, hbn, hbh⟩ => ?_) h ⟨hs, hn, hh⟩).1
    dsimp only at hb
    split_ifs at hb
    · cases Except.ok.inj hb; exact ⟨hbw, hbn, hbh⟩
    · have hk := (recursiveCopyInLoop_keeps hb).size_le
      rw [duplicateNode_size] at hk
      exact ⟨recursiveCopyInLoop hb (hbw.duplicateNode (hbw.input_lt hbn i) hbh)
        (by rw [duplicateNode_size]; exact (hbw.input_lt hbn i).trans (Nat.lt_succ_self _))
        (by rw [duplicateNode_size]; omega), by omega, by omega⟩
    · cases Except.ok.inj hb; exact ⟨hbw, hbn, hbh⟩

theorem rewireInLoopInput_eq {s : Surgery} {header phiM next n : Nat}
    (h : rewireInLoopInput s header phiM next = some n) : n = next ∨ n = phiM := by
  dsimp only [rewireInLoopInput] at h
  split_ifs at h <;> cases h
  exacts [.inl rfl, .inr rfl, .inl rfl]

theorem recursiveRewireInLoop {header phiM : Nat} : ∀ {fuel : Nat} {s s' : Surgery} {node : Nat},
    Ir.recursiveRewireInLoop header phiM fuel s node = .ok s' → s.WellFormed →
      node < s.graph.size → phiM < s.graph.size → s'.WellFormed
  | 0, _, _, _, h => by cases h
  | fuel + 1, s, s', node, h => fun hs hn hp => by
    unfold Ir.recursiveRewireInLoop at h
    obtain ⟨⟨s₁, newIn⟩, h₁, h⟩ := bind_eq_ok h
    obtain ⟨hw₁, hs₁, hi₁⟩ : s₁.WellFormed ∧ s₁.graph.size = s.graph.size ∧
        ∀ x ∈ newIn, x < s.graph.size := by
      refine foldlM_invariant (fun st : Surgery × List Nat => st.1.WellFormed ∧
        st.1.graph.size = s.graph.size ∧ ∀ x ∈ st.2, x < s.graph.size) _ ?_ h₁ ⟨hs, rfl, by simp⟩
      rintro ⟨b, bs⟩ i - st' hb ⟨hbw, hbs, hbi⟩
      dsimp only at hb
      have hnext := hbw.input_lt (hbs ▸ hn) i
      rw [hbs] at hnext
      split at hb
      · cases Except.ok.inj hb
        refine ⟨hbw, hbs, fun x hx => ?_⟩
        rcases List.mem_append.mp hx with hx | hx
        · exact hbi x hx
        · rcases rewireInLoopInput_eq ‹_› with rfl | rfl <;> simp_all
      · obtain ⟨s₂, h₂, hb⟩ := bind_eq_ok hb
        split at hb
        · cases Except.ok.inj hb
          have e := (recursiveRewireInLoop_insEdit h₂).2.2.1
          refine ⟨recursiveRewireInLoop h₂ hbw (hbs ▸ hnext) (hbs ▸ hp), e.trans hbs,
            fun x hx => ?_⟩
          rcases List.mem_append.mp hx with hx | hx
          · exact hbi x hx
          · rw [List.mem_singleton.mp hx, ← hbs]; exact hbw.link_lt _ _ ‹_›
        · cases hb
    dsimp only at h
    split at h
    · cases Except.ok.inj h
      exact hw₁.setIrnIn (by rw [hs₁]; exact hi₁)
    · cases h

/-- `copy_and_rewire` keeps the references inside the graph, and the value it returns is a node
of the graph. -/
theorem copyAndRewire (hs : s.WellFormed) {node target phiM : Nat} {r : Surgery × Nat}
    (h : Ir.copyAndRewire s node target phiM = .ok r) (hn : node < s.graph.size)
    (ht : target < s.graph.size) (hp : phiM < s.graph.size) :
    r.1.WellFormed ∧ r.2 < r.1.graph.size := by
  unfold Ir.copyAndRewire at h
  split_ifs at h
  · cases Except.ok.inj h
    exact ⟨hs.exactCopy hn, Nat.lt_succ_self _⟩
  · cases Except.ok.inj h
    exact ⟨hs, hn⟩
  · obtain ⟨s₁, h₁, h⟩ := bind_eq_ok h
    obtain ⟨s₂, h₂, h⟩ := bind_eq_ok h
    cases Except.ok.inj h
    have hd := hs.duplicateNode hn ht
    have k₁ := (recursiveCopyInLoop_keeps h₁).size_le
    have e₂ := (recursiveRewireInLoop_insEdit h₂).2.2.1
    rw [duplicateNode_size] at k₁
    refine ⟨recursiveRewireInLoop h₂ (recursiveCopyInLoop h₁ hd
      (by rw [duplicateNode_size]; omega) (by rw [duplicateNode_size]; omega))
      (by omega) (by omega), by dsimp only; omega⟩

theorem createAbs (hs : s.WellFormed) {block node : Nat} (hb : block < s.graph.size)
    (hn : node < s.graph.size) : (Ir.createAbs w s block node).1.WellFormed := by
  rw [createAbs_eq]
  refine (((hs.newNode ?_ ?_).newNode ?_ ?_).newNode ?_ ?_).newNode ?_ ?_ <;>
    simp [constBlock] <;> omega

theorem switchNMinusI (hs : s.WellFormed) {info : LinUnrollInfo} {cmp phi sh nAbs one : Nat}
    (hsh : sh < s.graph.size) (hphi : phi < s.graph.size) (hn : nAbs < s.graph.size)
    (ho : one < s.graph.size) : (Ir.switchNMinusI info cmp phi sh nAbs one s).1.WellFormed := by
  rw [switchNMinusI_eq]
  dsimp only
  split_ifs
  all_goals first
    | exact (hs.newNode (by simp; omega) (by simp; omega)).newNode (by simp; omega) (by simp; omega)
    | exact hs.newNode (by simp; omega) (by simp; omega)

theorem switchResidue (hs : s.WellFormed) {info : LinUnrollInfo} {cmp phi sh nCpy cCpy : Nat}
    (hsh : sh < s.graph.size) (hphi : phi < s.graph.size) (hn : nCpy < s.graph.size)
    (hc : cCpy < s.graph.size) : (Ir.switchResidue w info cmp phi sh nCpy cCpy s).1.WellFormed := by
  rw [switchResidue_eq]
  dsimp only
  set C := Ir.createAbs w (Ir.createAbs w s sh nCpy).1 sh cCpy
  set O := C.1.newNode ⟨.const 1, (C.1.graph.node C.2).mode, constBlock, []⟩
  have hC : C.2 = s.graph.size + 7 := rfl
  have hO : O.1.graph.size = s.graph.size + 9 := rfl
  have hO₂ : O.2 = s.graph.size + 8 := rfl
  have wO : O.1.WellFormed := ((hs.createAbs hsh hn).createAbs (by simp; omega) (by simp; omega)).newNode
    (by simp [constBlock]) (by simp only [List.not_mem_nil]; exact fun _ h => h.elim)
  obtain ⟨eD, hD₁, hD₂⟩ := switchNMinusI_extends info cmp phi sh (Ir.createAbs w s sh nCpy).2 O.2 O.1
  have wD : (Ir.switchNMinusI info cmp phi sh (Ir.createAbs w s sh nCpy).2 O.2 O.1).1.WellFormed :=
    wO.switchNMinusI (by omega) (by omega) (by simp; omega) (Nat.lt_succ_self _)
  set D := Ir.switchNMinusI info cmp phi sh (Ir.createAbs w s sh nCpy).2 O.2 O.1
  have := eD.size_le
  clear_value D O C
  refine (wD.newNode ?_ ?_).newNode ?_ ?_
  all_goals simp only [List.forall_mem_cons, Surgery.newNode_snd, Surgery.newNode_size]
  all_goals first | omega | exact ⟨by omega, by omega, nofun⟩

theorem copyAndRewire_op {node target phiM : Nat} {r : Surgery × Nat}
    (h : Ir.copyAndRewire s node target phiM = .ok r) : r.1.graph.op r.2 = s.graph.op node := by
  unfold Ir.copyAndRewire at h
  split_ifs at h
  · cases Except.ok.inj h
    simp [Graph.op, Graph.exactCopy]
  · cases Except.ok.inj h
    rfl
  · obtain ⟨s₁, h₁, h⟩ := bind_eq_ok h
    obtain ⟨s₂, h₂, h⟩ := bind_eq_ok h
    cases Except.ok.inj h
    have k₁ := recursiveCopyInLoop_keeps h₁
    have hop : (Ir.duplicateNode s node target).graph.op s.graph.size = s.graph.op node := by
      simp [Graph.op, duplicateNode_node]
    rw [((recursiveRewireInLoop_insEdit h₂).op _), Graph.op, (k₁.node _ (by
      rw [duplicateNode_size]; omega)).1]
    exact hop

/-- The copy `create_fixup_switch_header` makes of `c` or `N`: the node itself for a Phi, else
what `copy_and_rewire` returns. -/
theorem copyStep {s' : Surgery} {x y sh phiM : Nat}
    (hs : s.WellFormed) (h : if s.graph.isPhi x then (s', y) = (s, x)
      else Ir.copyAndRewire s x sh phiM = .ok (s', y))
    (hx : x < s.graph.size) (hsh : sh < s.graph.size) (hp : phiM < s.graph.size) :
    s'.WellFormed ∧ y < s'.graph.size ∧ s.graph.Keeps s'.graph ∧ s'.graph.op y = s.graph.op x := by
  split_ifs at h
  · cases h
    exact ⟨hs, hx, .refl _, rfl⟩
  · obtain ⟨hw, hy⟩ := hs.copyAndRewire h hx hsh hp
    exact ⟨hw, hy, copyAndRewire_keeps h, copyAndRewire_op h⟩

end Surgery.WellFormed

namespace Graph

variable (g : Graph) (m : IntMode) (v : Nat → Option (BitVec w))

/-- The outcome of the compare `c` in the valuation `v`. -/
def cmpValue (c : Nat) : Option Bool :=
  match g.op c with
  | .cmp r => (v (g.input c 0)).bind fun a => (v (g.input c 1)).map (m.cmp r a)
  | _ => none

/-- Control leaves the block of `x` through `x`: a `Jmp`, or the `Proj` of a `Cond` whose compare
selects it. -/
def Exits (x : Nat) : Prop :=
  g.op x = .jmp ∨ ∃ pn, g.op x = .proj pn ∧ g.op (g.input x 0) = .cond ∧
    g.cmpValue m v (g.input (g.input x 0) 0) = some (decide (pn = pnCondTrue))

/-- Control passes from block `b` to block `t`: one of the inputs of `t` leaves `b`. -/
def Succ (b t : Nat) : Prop :=
  t < g.size ∧ g.op t = .block ∧ ∃ x ∈ (g.node t).ins, g.getBlock x = b ∧ g.Exits m v x

variable {g m v}

theorem cmpValue_of {c : Nat} {r : Relation} {a b : BitVec w} (hc : g.op c = .cmp r)
    (ha : v (g.input c 0) = some a) (hb : v (g.input c 1) = some b) :
    g.cmpValue m v c = some (m.cmp r a b) := by
  simp [cmpValue, hc, ha, hb]

theorem exits_proj_iff {x pn : Nat} (hx : g.op x = .proj pn) (hc : g.op (g.input x 0) = .cond) :
    g.Exits m v x ↔ g.cmpValue m v (g.input (g.input x 0) 0) = some (decide (pn = pnCondTrue)) := by
  simp [Exits, hx, hc]

end Graph

/-- The seven nodes of round `j` of the compare chain, whose `prev_jmp` is node `base + 7 * j`:
the constant `factor - 1 - j`, its product with `|c|`, the compare block, the compare of `res`
with the product, the `Cond`, and its true and false `Proj`s. -/
def ChainRound (g : Graph) (sh res cAbs factor base : Nat) (mode : Mode) (j : Nat) : Prop :=
  let p := base + 7 * j
  g.node (p + 1) = ⟨.const ↑(factor - 1 - j), mode, constBlock, []⟩ ∧
  g.node (p + 2) = ⟨.mul, mode, sh, [p + 1, cAbs]⟩ ∧
  g.node (p + 3) = ⟨.block, .other, p + 3, [p]⟩ ∧
  g.node (p + 4) = ⟨.cmp .greaterEqual, .other, p + 3, [res, p + 2]⟩ ∧
  g.node (p + 5) = ⟨.cond, .other, p + 3, [p + 4]⟩ ∧
  g.node (p + 6) = ⟨.proj pnCondTrue, .ctrl, p + 3, [p + 5]⟩ ∧
  g.node (p + 7) = ⟨.proj pnCondFalse, .ctrl, p + 3, [p + 5]⟩

theorem ChainRound.congr {g g' : Graph} {sh res cAbs factor base j : Nat} {mode : Mode}
    (h : ChainRound g sh res cAbs factor base mode j)
    (he : ∀ k, base < k → k ≤ base + 7 * j + 7 → g'.node k = g.node k) :
    ChainRound g' sh res cAbs factor base mode j := by
  obtain ⟨h₁, h₂, h₃, h₄, h₅, h₆, h₇⟩ := h
  exact ⟨(he _ (by omega) (by omega)).trans h₁, (he _ (by omega) (by omega)).trans h₂,
    (he _ (by omega) (by omega)).trans h₃, (he _ (by omega) (by omega)).trans h₄,
    (he _ (by omega) (by omega)).trans h₅, (he _ (by omega) (by omega)).trans h₆,
    (he _ (by omega) le_rfl).trans h₇⟩

section Chain

variable {sh res cAbs factor base : Nat}

theorem switchCompare_eq (s : Surgery) (p : Nat) (tb : List Nat) (i : Nat) :
    switchCompare sh res cAbs factor (s, p, tb) i =
    let mode := (s.graph.node cAbs).mode
    let n := s.graph.size
    ((((((((s.newNode ⟨.const ↑(factor - 1 - i), mode, constBlock, []⟩).1.newNode
      ⟨.mul, mode, sh, [n, cAbs]⟩).1.newNode ⟨.block, .other, n + 2, [p]⟩).1.newNode
      ⟨.cmp .greaterEqual, .other, n + 2, [res, n + 1]⟩).1.newNode
      ⟨.cond, .other, n + 2, [n + 3]⟩).1.newNode ⟨.proj pnCondTrue, .ctrl, n + 2, [n + 4]⟩).1.newNode
      ⟨.proj pnCondFalse, .ctrl, n + 2, [n + 4]⟩).1, n + 6, tb ++ [n + 5]) := rfl

theorem switchCompare_spec (s : Surgery) (tb : List Nat) {j : Nat}
    (hs : s.graph.size = base + 1 + 7 * j) :
    let st := switchCompare sh res cAbs factor (s, base + 7 * j, tb) j
    st.2.1 = base + 7 * (j + 1) ∧ st.2.2 = tb ++ [base + 7 * j + 6] ∧
      st.1.graph.size = base + 1 + 7 * (j + 1) ∧ s.graph.Extends st.1.graph ∧ st.1.link = s.link ∧
      ChainRound st.1.graph sh res cAbs factor base (s.graph.node cAbs).mode j := by
  rw [switchCompare_eq]
  dsimp only
  refine ⟨by omega, by rw [hs, show base + 1 + 7 * j + 5 = base + 7 * j + 6 by omega],
    by simp only [Surgery.newNode_size]; omega,
    ⟨by simp only [Surgery.newNode_size]; omega, fun k hk => ?_⟩, rfl, ?_⟩
  · simp (disch := omega) only [Surgery.newNode_node, Surgery.newNode_size, if_neg]
  · unfold ChainRound
    generalize hp : base + 7 * j = p
    have hn : s.graph.size = p + 1 := by omega
    simp only [Surgery.newNode_node, Surgery.newNode_size, hn]
    simp

/-- After `k` rounds the chain has `7 * k` nodes after `base`, the `prev_jmp` of round `k`, and the
true `Proj`s of the rounds in order. -/
theorem switchChain (s : Surgery) (hs : s.graph.size = base + 1) (hc : cAbs < s.graph.size) :
    ∀ k, let st := (List.range k).foldl (switchCompare sh res cAbs factor) (s, base, [])
      st.2.1 = base + 7 * k ∧ st.2.2 = (List.range k).map (fun j => base + 7 * j + 6) ∧
        st.1.graph.size = base + 1 + 7 * k ∧ s.graph.Extends st.1.graph ∧ st.1.link = s.link ∧
        ∀ j < k, ChainRound st.1.graph sh res cAbs factor base (s.graph.node cAbs).mode j
  | 0 => ⟨rfl, rfl, hs, .refl _, rfl, fun _ h => absurd h (Nat.not_lt_zero _)⟩
  | k + 1 => by
    obtain ⟨h₁, h₂, h₃, h₄, h₅, h₆⟩ := switchChain s hs hc k
    simp only [List.range_succ, List.foldl_append, List.foldl_cons, List.foldl_nil, List.map_append,
      List.map_cons, List.map_nil]
    generalize (List.range k).foldl (switchCompare sh res cAbs factor) (s, base, []) = st at *
    obtain ⟨s', p, tb⟩ := st
    dsimp only at h₁ h₂ h₃ h₄ h₅ h₆
    subst h₁ h₂
    obtain ⟨e₁, e₂, e₃, e₄, e₅, e₆⟩ := @switchCompare_spec sh res cAbs factor base s' _ k h₃
    rw [h₄.node cAbs hc] at e₆
    refine ⟨e₁, e₂, e₃, h₄.trans e₄, e₅.trans h₅, fun j hj => ?_⟩
    rcases Nat.lt_succ_iff_lt_or_eq.mp hj with hj | rfl
    · exact (h₆ j hj).congr fun k _ hk => e₄.node k (by omega)
    · exact e₆

end Chain

section Wire

variable {header : Nat} {targets toBlock : List Nat}

theorem Surgery.setIrnN_ins (s : Surgery) (n i v t : Nat) :
    ((s.setIrnN n i v).graph.node t).ins =
      if t = n then (s.graph.node n).ins.set i v else (s.graph.node t).ins := by
  by_cases h : t = n <;> simp [Surgery.setIrnN, Surgery.edit, Graph.setIrnN, Graph.setIrnIn, h]

theorem getInNToHeader_lt {g : Graph} {t : Nat} (h : (g.node t).ins ≠ []) :
    getInNToHeader g t header < (g.node t).ins.length := by
  unfold getInNToHeader
  cases hf : (List.range (g.node t).ins.length).find? _ with
  | none => exact List.length_pos.mpr h
  | some j => exact List.mem_range.mp (List.mem_of_find?_eq_some hf)

theorem insEdit_wireSwitchTarget (s : Surgery) (i : Nat) :
    s.InsEdit (wireSwitchTarget header targets toBlock s i) := s.insEdit_setIrnN _ _ _

/-- The loop of the wiring sets inputs of `target_blocks[i]` for the `i` it runs over, to
`to_block[i]`, and keeps their number. -/
theorem wireSwitchTargets_loop (l : List Nat) : ∀ (s : Surgery) (t : Nat),
    let s' := l.foldl (wireSwitchTarget header targets toBlock) s
    (s'.graph.node t).ins.length = (s.graph.node t).ins.length ∧
      (∀ x ∈ (s'.graph.node t).ins, x ∈ (s.graph.node t).ins ∨
        ∃ i ∈ l, t = targets.getD i 0 ∧ x = toBlock.getD i 0) ∧
      ((∀ i ∈ l, targets.getD i 0 ≠ t) → (s'.graph.node t).ins = (s.graph.node t).ins) := by
  induction l with
  | nil => exact fun s t => ⟨rfl, fun x hx => .inl hx, fun _ => rfl⟩
  | cons i l ih =>
    intro s t
    obtain ⟨h₁, h₂, h₃⟩ := ih (wireSwitchTarget header targets toBlock s i) t
    simp only [List.foldl_cons]
    have e := Surgery.setIrnN_ins s (targets.getD i 0)
      (getInNToHeader s.graph (targets.getD i 0) header) (toBlock.getD i 0) t
    refine ⟨by rw [h₁, wireSwitchTarget, e]; split_ifs with h <;> simp [h], fun x hx => ?_,
      fun hne => by
        rw [h₃ fun j hj => hne j (List.mem_cons_of_mem i hj), wireSwitchTarget, e,
          if_neg (Ne.symm (hne i (List.mem_cons_self i l)))]⟩
    rcases h₂ x hx with hx | ⟨j, hj, rfl, rfl⟩
    · rw [wireSwitchTarget, e] at hx
      split_ifs at hx with h
      · rcases List.mem_or_eq_of_mem_set hx with hx | rfl
        · exact .inl (h ▸ hx)
        · exact .inr ⟨i, List.mem_cons_self i l, h, rfl⟩
      · exact .inl hx
    · exact .inr ⟨j, List.mem_cons_of_mem i hj, rfl, rfl⟩

theorem wireSwitchTargets_loop_lands : ∀ (l : List Nat), l.Nodup →
    (∀ i ∈ l, ∀ j ∈ l, targets.getD i 0 = targets.getD j 0 → i = j) → ∀ (s : Surgery), ∀ j ∈ l,
      (s.graph.node (targets.getD j 0)).ins ≠ [] →
      toBlock.getD j 0 ∈ ((l.foldl (wireSwitchTarget header targets toBlock) s).graph.node
        (targets.getD j 0)).ins
  | [], _, _, _, _, hj, _ => absurd hj (List.not_mem_nil _)
  | i :: l, hnd, hdist, s, j, hj, hne => by
    rw [List.foldl_cons]
    obtain ⟨hi, hnd⟩ := List.nodup_cons.mp hnd
    rcases List.mem_cons.mp hj with rfl | hj
    · rw [((wireSwitchTargets_loop l _ _).2.2 fun k hk h => hi (hdist k (List.mem_cons_of_mem _ hk)
        _ (List.mem_cons_self _ _) h ▸ hk)), wireSwitchTarget, Surgery.setIrnN_ins, if_pos rfl]
      exact List.mem_set _ _ (getInNToHeader_lt hne) _
    · refine wireSwitchTargets_loop_lands l hnd (fun a ha b hb => hdist a (List.mem_cons_of_mem _ ha)
        b (List.mem_cons_of_mem _ hb)) _ j hj ?_
      rw [wireSwitchTarget, Surgery.setIrnN_ins, if_neg fun h => ?_]
      · exact hne
      · exact hi (hdist j (List.mem_cons_of_mem _ hj) i (List.mem_cons_self _ _) h ▸ hj)

theorem Surgery.setIrnIn_ins (s : Surgery) (n : Nat) (ins : List Nat) (t : Nat) :
    ((s.setIrnIn n ins).graph.node t).ins = if t = n then ins else (s.graph.node t).ins := by
  by_cases h : t = n <;> simp [Graph.setIrnIn, h]

variable {factor afterLoop prevJmp first : Nat}

theorem insEdit_wireSwitchTargets (s : Surgery) :
    s.InsEdit (wireSwitchTargets factor header afterLoop prevJmp targets toBlock first s) :=
  (s.insEdit_setIrnIn _ _).trans <|
    (foldl_insEdit (fun b i _ => insEdit_wireSwitchTarget b i) _).trans (Surgery.insEdit_setIrnN _ _ _ _)

/-- The wiring gives `target_blocks[0]` the first true `Proj` as its inputs, puts `to_block[i]`
among those of `target_blocks[i]` and the last false `Proj` among those of `after_loop`, and
keeps every other input. -/
theorem mem_wireSwitchTargets {s : Surgery} {t x : Nat}
    (hx : x ∈ ((wireSwitchTargets factor header afterLoop prevJmp targets toBlock first s).graph.node
      t).ins) :
    x ∈ (s.graph.node t).ins ∨ (t = targets.getD 0 0 ∧ x = first) ∨
      (∃ i, 1 ≤ i ∧ i < factor - 1 ∧ t = targets.getD i 0 ∧ x = toBlock.getD i 0) ∨
      (t = afterLoop ∧ x = prevJmp) := by
  unfold wireSwitchTargets at hx
  dsimp only at hx
  set s₁ := s.setIrnIn (targets.getD 0 0) [first]
  have hloop : x ∈ (((List.range' 1 (factor - 2)).foldl (wireSwitchTarget header targets toBlock)
      s₁).graph.node t).ins → x ∈ (s.graph.node t).ins ∨ (t = targets.getD 0 0 ∧ x = first) ∨
        ∃ i, 1 ≤ i ∧ i < factor - 1 ∧ t = targets.getD i 0 ∧ x = toBlock.getD i 0 := fun hx => by
    rcases (wireSwitchTargets_loop _ s₁ t).2.1 x hx with hx | ⟨i, hi, h₁, h₂⟩
    · rw [Surgery.setIrnIn_ins] at hx
      split_ifs at hx with h
      · exact .inr (.inl ⟨h, List.mem_singleton.mp hx⟩)
      · exact .inl hx
    · have := List.mem_range'_1.mp hi
      exact .inr (.inr ⟨i, this.1, by omega, h₁, h₂⟩)
  rw [Surgery.setIrnN_ins] at hx
  split_ifs at hx with h
  · rcases List.mem_or_eq_of_mem_set hx with hx | rfl
    · subst h; exact (hloop hx).elim .inl fun h => .inr (h.imp_right .inl)
    · exact .inr (.inr (.inr ⟨h, rfl⟩))
  · exact (hloop hx).elim .inl fun h => .inr (h.imp_right .inl)

/-- With distinct targets apart from `after_loop`, the edges of the wiring are there: into
`target_blocks[0]` always, and into a later target or `after_loop` when it has an input. -/
theorem wireSwitchTargets_lands {s : Surgery} (hf : 2 ≤ factor)
    (hdist : ∀ i < factor - 1, ∀ j < factor - 1, targets.getD i 0 = targets.getD j 0 → i = j)
    (hna : ∀ j < factor - 1, targets.getD j 0 ≠ afterLoop) :
    let s' := wireSwitchTargets factor header afterLoop prevJmp targets toBlock first s
    (s'.graph.node (targets.getD 0 0)).ins = [first] ∧
      (∀ j, 1 ≤ j → j < factor - 1 → (s'.graph.node (targets.getD j 0)).ins ≠ [] →
        toBlock.getD j 0 ∈ (s'.graph.node (targets.getD j 0)).ins) ∧
      ((s'.graph.node afterLoop).ins ≠ [] → prevJmp ∈ (s'.graph.node afterLoop).ins) := by
  intro s'
  set s₁ := s.setIrnIn (targets.getD 0 0) [first]
  set F := (List.range' 1 (factor - 2)).foldl (wireSwitchTarget header targets toBlock) s₁
  have hs' : ∀ t, (s'.graph.node t).ins =
      if t = afterLoop then (F.graph.node afterLoop).ins.set
        (getInNToHeader F.graph afterLoop header) prevJmp else (F.graph.node t).ins :=
    Surgery.setIrnN_ins F _ _ _
  have hrange : ∀ i ∈ List.range' 1 (factor - 2), 1 ≤ i ∧ i < factor - 1 := fun i hi => by
    have := List.mem_range'_1.mp hi; omega
  refine ⟨?_, fun j hj₁ hj₂ hne => ?_, fun hne => ?_⟩
  · rw [hs', if_neg (hna 0 (by omega)), (wireSwitchTargets_loop _ s₁ _).2.2 fun i hi h =>
      absurd (hdist i (hrange i hi).2 0 (by omega) h) (by have := hrange i hi; omega),
      Surgery.setIrnIn_ins, if_pos rfl]
  · rw [hs', if_neg (hna j hj₂)] at hne ⊢
    refine wireSwitchTargets_loop_lands _ (List.nodup_range' 1 _) (fun a ha b hb =>
      hdist a (hrange a ha).2 b (hrange b hb).2) s₁ j (List.mem_range'_1.mpr ⟨hj₁, by omega⟩) ?_
    rw [← List.length_pos, ← (wireSwitchTargets_loop _ s₁ _).1, List.length_pos]
    exact hne
  · rw [hs', if_pos rfl] at hne ⊢
    rw [← List.length_pos, List.length_set, List.length_pos] at hne
    exact List.mem_set _ _ (getInNToHeader_lt hne) _

theorem Surgery.InsEdit.node_eq {s s' : Surgery} (h : s.InsEdit s') {t : Nat}
    (hins : (s'.graph.node t).ins = (s.graph.node t).ins) : s'.graph.node t = s.graph.node t := by
  obtain ⟨hop, hblk, hmode⟩ := h.2.2.2 t
  revert hop hblk hmode hins
  cases s'.graph.node t
  cases s.graph.node t
  simp_all

theorem wireSwitchTargets_node {s : Surgery} {t : Nat} (hf : 2 ≤ factor)
    (ht : ∀ i < factor - 1, targets.getD i 0 ≠ t) (ha : afterLoop ≠ t) :
    (wireSwitchTargets factor header afterLoop prevJmp targets toBlock first s).graph.node t =
      s.graph.node t := by
  refine (insEdit_wireSwitchTargets s).node_eq ?_
  unfold wireSwitchTargets
  dsimp only
  rw [Surgery.setIrnN_ins, if_neg (Ne.symm ha), (wireSwitchTargets_loop _ _ _).2.2 fun i hi =>
    ht i (by have := List.mem_range'_1.mp hi; omega), Surgery.setIrnIn_ins,
    if_neg (Ne.symm (ht 0 (by omega)))]

end Wire

section Residue

variable {m : IntMode} {env v : Nat → Option (BitVec w)} {g : Graph} {lo : Nat} {s : Surgery}
  {info : LinUnrollInfo} {r : Relation} {cmp phi sh nCpy cCpy : Nat}

/-- The nodes of `nMinusI` compute the distance from the Phi's value to the value of `nAbs`,
plus one for a compare that admits equality. -/
theorem Built.switchNMinusI {nAbs one : Nat} (hrel : info.rel = some r)
    (hb : Built m env (Ir.switchNMinusI info cmp phi sh nAbs one s).1.graph g v lo)
    (hlo : lo ≤ s.graph.size) :
    Built m env s.graph g v lo ∧ (v one = some 1 → v (Ir.switchNMinusI info cmp phi sh nAbs one s).2 =
      (v phi).bind fun I => (v nAbs).map fun A =>
        let h : HeaderCmp := ⟨r, info.phi ≠ some (s.graph.input cmp 1)⟩
        let d := if h.isLess then A - I else I - A
        if h.rel.hasEqual then d + 1 else d) := by
  rw [switchNMinusI_eq, isLess_eq hrel] at hb ⊢
  have hrel' : (info.rel = some .lessEqual ∨ info.rel = some .greaterEqual) ↔ r.hasEqual = true := by
    simp [hrel, Relation.hasEqual]
  set h : HeaderCmp := ⟨r, info.phi ≠ some (s.graph.input cmp 1)⟩
  simp only [hrel'] at hb ⊢
  by_cases he : r.hasEqual = true <;> by_cases hl : h.isLess = true <;>
    simp only [he, hl, if_true, if_false, Bool.false_eq_true, Surgery.newNode_snd,
      Surgery.newNode_size] at hb ⊢
  iterate 2
    obtain ⟨hb, -, hE⟩ := hb.newNode (by simp only [Surgery.newNode_size]; omega)
    simp only [Node.value, List.getD_cons_zero, List.getD_cons_succ, Surgery.newNode_snd,
      Surgery.newNode_size] at hE
    rw [hE]
    rotate_left
  all_goals
    obtain ⟨hb, -, hD⟩ := hb.newNode hlo
    simp only [Node.value, List.getD_cons_zero, List.getD_cons_succ, Surgery.newNode_snd] at hD
    refine ⟨hb, fun hone => ?_⟩
    cases hp : v phi <;> cases hn : v nAbs <;> simp [hD, hone, hp, hn, he, hl]

/-- The nodes of the switch header compute `res = fixupResidue` of the values of the Phi,
of `N` and of `c`, and `|c|`. -/
theorem Built.switchResidue (hrel : info.rel = some r) (hcmp : cmp < s.graph.size)
    (hb : Built m env (Ir.switchResidue w info cmp phi sh nCpy cCpy s).1.graph g v lo)
    (hlo : lo ≤ s.graph.size) :
    Built m env s.graph g v lo ∧
      v (Ir.switchResidue w info cmp phi sh nCpy cCpy s).2.1 = (v phi).bind (fun I =>
        (v nCpy).bind fun N => (v cCpy).map fun C =>
          fixupResidue ⟨r, info.phi ≠ some (s.graph.input cmp 1)⟩ I N C) ∧
      v (Ir.switchResidue w info cmp phi sh nCpy cCpy s).2.2 = (v cCpy).map LibFirm.createAbs := by
  rw [switchResidue_eq] at hb ⊢
  dsimp only at hb ⊢
  set A := Ir.createAbs w s sh nCpy
  set C := Ir.createAbs w A.1 sh cCpy
  set O := C.1.newNode ⟨.const 1, (C.1.graph.node C.2).mode, constBlock, []⟩
  have hext : s.graph.Extends O.1.graph := ((createAbs_extends w s sh nCpy).trans
    (createAbs_extends w _ sh cCpy)).trans (Surgery.extends_newNode _ _)
  obtain ⟨eD, -, hD₂⟩ := switchNMinusI_extends info cmp phi sh A.2 O.2 O.1
  set D := Ir.switchNMinusI info cmp phi sh A.2 O.2 O.1
  have hsO : O.1.graph.size = s.graph.size + 9 := rfl
  have hsC : C.1.graph.size = s.graph.size + 8 := rfl
  have hsA : A.1.graph.size = s.graph.size + 4 := rfl
  have hsD := eD.size_le
  simp only [Surgery.newNode_snd, Surgery.newNode_size] at hb ⊢
  obtain ⟨hb, -, hR⟩ := hb.newNode (by simp only [Surgery.newNode_size]; omega)
  obtain ⟨hb, -, hF⟩ := hb.newNode (by omega)
  obtain ⟨hb, hD⟩ := hb.switchNMinusI hrel (by omega)
  obtain ⟨hb, -, hO⟩ := hb.newNode (by omega)
  obtain ⟨hb, hC⟩ := hb.createAbs (by omega)
  obtain ⟨hb, hA⟩ := hb.createAbs hlo
  simp only [Node.value, List.getD_cons_zero, List.getD_cons_succ, Surgery.newNode_snd,
    Surgery.newNode_size] at hR hF hO
  rw [hD (by rw [show O.2 = C.1.graph.size from rfl, hO]; simp)] at hR
  refine ⟨hb, ?_, hC⟩
  rw [hR, hF, show O.2 = C.1.graph.size from rfl, hO, hC, hA, hext.input hcmp]
  cases v phi <;> cases v nCpy <;> cases v cCpy <;> simp [fixupResidue]
end Residue

/-- The graph from node `base` on: the `Jmp` of the switch header `sh`, then `K` rounds of the
chain; and below `base` no node is in a block from `base` on. -/
structure ChainAt (g : Graph) (sh res cAbs factor base K : Nat) (mode : Mode) : Prop where
  size_eq : g.size = base + 1 + 7 * K
  jmp : g.node base = ⟨.jmp, .ctrl, sh, []⟩
  round : ∀ q < K, ChainRound g sh res cAbs factor base mode q
  sh_lt : sh < base
  getBlock_lt : ∀ x < base, g.getBlock x < base

namespace ChainAt

variable {m : IntMode} {v : Nat → Option (BitVec w)} {g : Graph}
  {sh res cAbs factor base K : Nat} {mode : Mode}

theorem cases_of_ge (hc : ChainAt g sh res cAbs factor base K mode) {x : Nat} (hx : x < g.size)
    (hxb : base < x) : ∃ q < K, x = base + 7 * q + 1 ∨ x = base + 7 * q + 2 ∨
      x = base + 7 * q + 3 ∨ x = base + 7 * q + 4 ∨ x = base + 7 * q + 5 ∨ x = base + 7 * q + 6 ∨
      x = base + 7 * q + 7 := by
  rw [hc.size_eq] at hx
  exact ⟨(x - base - 1) / 7, by omega, by omega⟩

/-- Control leaves compare block `j` through its true `Proj` when its compare holds and through
its false `Proj` when it fails, and through nothing else. -/
theorem exits (hc : ChainAt g sh res cAbs factor base K mode) {j x : Nat} (hj : j < K)
    (hx : x < g.size) :
    g.getBlock x = base + 7 * j + 3 ∧ g.Exits m v x ↔
      (x = base + 7 * j + 6 ∧ g.cmpValue m v (base + 7 * j + 4) = some true) ∨
      (x = base + 7 * j + 7 ∧ g.cmpValue m v (base + 7 * j + 4) = some false) := by
  rcases Nat.lt_or_ge x base with hxb | hxb
  · have := hc.getBlock_lt x hxb
    constructor
    · rintro ⟨h, -⟩; omega
    · rintro (⟨rfl, -⟩ | ⟨rfl, -⟩) <;> omega
  rcases Nat.eq_or_lt_of_le hxb with rfl | hxb
  · have := hc.sh_lt
    simp only [Graph.getBlock, Graph.op, hc.jmp]
    constructor
    · rintro ⟨h, -⟩; simp at h; omega
    · rintro (⟨h, -⟩ | ⟨h, -⟩) <;> omega
  obtain ⟨q, hq, hx | hx | hx | hx | hx | hx | hx⟩ := hc.cases_of_ge hx hxb <;> subst hx <;>
    obtain ⟨h₁, h₂, h₃, h₄, h₅, h₆, h₇⟩ := hc.round q hq
  all_goals
    rcases eq_or_ne q j with rfl | hqj
    · simp [Graph.getBlock, Graph.Exits, Graph.op, Graph.input, h₁, h₂, h₃, h₄, h₅, h₆, h₇,
        pnCondTrue, pnCondFalse]
    · have := hc.sh_lt
      constructor
      · rintro ⟨hb, -⟩
        simp [Graph.getBlock, Graph.op, h₁, h₂, h₃, h₄, h₅, h₆, h₇, constBlock] at hb <;> omega
      · rintro (⟨h, -⟩ | ⟨h, -⟩) <;> omega

theorem ins_of_ge (hc : ChainAt g sh res cAbs factor base K mode) {t : Nat} (ht : t < g.size)
    (htb : base ≤ t) (hblk : g.op t = .block) :
    ∃ q < K, t = base + 7 * q + 3 ∧ (g.node t).ins = [base + 7 * q] := by
  rcases Nat.eq_or_lt_of_le htb with rfl | htb
  · simp [Graph.op, hc.jmp] at hblk
  obtain ⟨q, hq, ht | ht | ht | ht | ht | ht | ht⟩ := hc.cases_of_ge ht htb <;> subst ht <;>
    obtain ⟨h₁, h₂, h₃, h₄, h₅, h₆, h₇⟩ := hc.round q hq <;>
    simp [Graph.op, h₁, h₂, h₃, h₄, h₅, h₆, h₇] at hblk ⊢
  exact hq

/-- With the chain's exits wired into `tgt i` and `after`, control passes from compare block `j`
to `tgt j` when its compare holds, and otherwise to the next compare block or to `after`. -/
theorem succ_iff (hc : ChainAt g sh res cAbs factor base K mode) {tgt : Nat → Nat} {after : Nat}
    (hlow : ∀ t < base, g.op t = .block → ∀ x ∈ (g.node t).ins,
      x < base ∨ (∃ i < K, t = tgt i ∧ x = base + 7 * i + 6) ∨ (t = after ∧ x = base + 7 * K))
    (htgt : ∀ i < K, tgt i < base ∧ g.op (tgt i) = .block ∧ base + 7 * i + 6 ∈ (g.node (tgt i)).ins)
    (haft : after < base ∧ g.op after = .block ∧ base + 7 * K ∈ (g.node after).ins)
    (hdist : ∀ i < K, ∀ j < K, tgt i = tgt j → i = j) {j : Nat} (hj : j < K) (t : Nat) :
    g.Succ m v (base + 7 * j + 3) t ↔
      (g.cmpValue m v (base + 7 * j + 4) = some true ∧ t = tgt j) ∨
      (g.cmpValue m v (base + 7 * j + 4) = some false ∧
        t = if j + 1 < K then base + 7 * (j + 1) + 3 else after) := by
  have hsize := hc.size_eq
  constructor
  · rintro ⟨ht, hblk, x, hx, hgb, hex⟩
    have hxs : x < g.size := by
      rcases Nat.lt_or_ge t base with htb | htb
      · rcases hlow t htb hblk x hx with h | ⟨i, hi, -, rfl⟩ | ⟨-, rfl⟩ <;> omega
      · obtain ⟨q, hq, -, hins⟩ := hc.ins_of_ge ht htb hblk
        rw [hins, List.mem_singleton] at hx
        omega
    rcases (hc.exits hj hxs).mp ⟨hgb, hex⟩ with ⟨rfl, hcv⟩ | ⟨rfl, hcv⟩
    · refine .inl ⟨hcv, ?_⟩
      rcases Nat.lt_or_ge t base with htb | htb
      · rcases hlow t htb hblk _ hx with h | ⟨i, hi, rfl, h⟩ | ⟨-, h⟩
        · omega
        · rw [hdist i hi j hj (congrArg tgt (by omega))]
        · omega
      · obtain ⟨q, -, -, hins⟩ := hc.ins_of_ge ht htb hblk
        rw [hins, List.mem_singleton] at hx
        omega
    · refine .inr ⟨hcv, ?_⟩
      rcases Nat.lt_or_ge t base with htb | htb
      · rcases hlow t htb hblk _ hx with h | ⟨i, hi, -, h⟩ | ⟨rfl, h⟩
        · omega
        · omega
        · rw [if_neg (by omega)]
      · obtain ⟨q, hq, rfl, hins⟩ := hc.ins_of_ge ht htb hblk
        rw [hins, List.mem_singleton] at hx
        rw [if_pos (by omega)]
        omega
  · rintro (⟨hcv, rfl⟩ | ⟨hcv, rfl⟩)
    · obtain ⟨hlt, hblk, hin⟩ := htgt j hj
      exact ⟨by omega, hblk, _, hin, ((hc.exits hj (by omega)).mpr (.inl ⟨rfl, hcv⟩))⟩
    · split_ifs with hnext
      · obtain ⟨-, -, h₃, -⟩ := hc.round (j + 1) hnext
        refine ⟨by omega, by simp [Graph.op, h₃], base + 7 * j + 7, by simp [h₃]; omega,
          (hc.exits hj (by omega)).mpr (.inr ⟨rfl, hcv⟩)⟩
      · obtain ⟨hlt, hblk, hin⟩ := haft
        refine ⟨by omega, hblk, base + 7 * j + 7, by rwa [show K = j + 1 by omega] at hin,
          (hc.exits hj (by omega)).mpr (.inr ⟨rfl, hcv⟩)⟩

theorem cmpValue_eq {env : Nat → Option (BitVec w)} (hc : ChainAt g sh res cAbs factor base K mode)
    (hv : g.Evaluates m env v) {j : Nat} (hj : j < K) :
    g.cmpValue m v (base + 7 * j + 4) = (v res).bind fun a => (v cAbs).map fun C =>
      m.cmp .greaterEqual a (BitVec.ofNat w (factor - 1 - j) * C) := by
  obtain ⟨h₁, h₂, -, h₄, -⟩ := hc.round j hj
  have hsz := hc.size_eq
  have v₁ := hv.const (k := base + 7 * j + 1) (c := ↑(factor - 1 - j)) (by omega)
    (by simp [Graph.op, h₁])
  have v₂ := hv (base + 7 * j + 2) (by omega)
  rw [Graph.nodeValue, h₂] at v₂
  simp only [Graph.cmpValue, Graph.op, Graph.input, h₄, Node.value, List.getD_cons_zero,
    List.getD_cons_succ] at v₂ ⊢
  rw [v₂, v₁]
  cases v res <;> cases v cAbs <;> simp [BitVec.ofInt_natCast]

end ChainAt

theorem Graph.lt_of_mem_outEdges {g : Graph} {n : Nat} {e : Nat × Int} (h : e ∈ g.outEdges n) :
    e.1 < g.size := by
  simp only [Graph.outEdges, List.mem_flatMap, List.mem_range, List.mem_append, List.mem_map] at h
  obtain ⟨k, hk, he | ⟨_, -, rfl⟩⟩ := h
  · split_ifs at he
    · rw [List.mem_singleton.mp he]; exact hk
    · cases he
  · exact hk

theorem bind_ite_eq_ok {α β ε : Type} {p : Prop} [Decidable p] {a : α} {x : Except ε α}
    {k : α → Except ε β} {r : β} (h : (if p then pure a >>= k else x >>= k) = .ok r) :
    ∃ b, (if p then b = a else x = .ok b) ∧ k b = .ok r := by
  split_ifs at h with hp
  · exact ⟨a, by simp [hp], h⟩
  · obtain ⟨b, hb, h⟩ := bind_eq_ok h
    exact ⟨b, by simp [hp, hb], h⟩

theorem or_eq_ite {b : Bool} {t x y : Nat} :
    ((b = true ∧ t = x) ∨ (b = false ∧ t = y)) ↔ t = if b = true then x else y := by
  cases b <;> simp

section Construction

variable {o : Graph} {w factor loop afterLoop sh c n cmp phi : Nat} {info : LinUnrollInfo}
  {targets : List Nat} {s s' : Surgery}

/-- What a successful `create_fixup_switch_header` does: it finds the header and the input of
`after_loop` from it, makes the switch header, copies `c` and `N` into it, builds `res`, the `Jmp`
and the chain, and wires the chain's exits. -/
theorem createFixupSwitchHeader_eq_ok
    (h : createFixupSwitchHeader o w factor info loop targets afterLoop s = .ok (s', sh))
    (hincr : info.incr = some c) (hbound : info.bound = some n) (hcmp : info.cmp = some cmp)
    (hphi : info.phi = some phi) :
    ∃ header afterIndex phiM s₁ cCpy s₂ nCpy,
      (List.range (s.graph.node afterLoop).ins.length).find? (fun i =>
        s.graph.getBlock (s.graph.input afterLoop i) = header) = some afterIndex ∧
      phiM < o.size ∧ sh = s.graph.size ∧
      (let s₀ := (s.newNode ⟨.block, .other, s.graph.size, [s.graph.input afterLoop afterIndex]⟩).1
        if s₀.graph.isPhi c then (s₁, cCpy) = (s₀, c) else copyAndRewire s₀ c sh phiM = .ok (s₁, cCpy)) ∧
      (if s₁.graph.isPhi n then (s₂, nCpy) = (s₁, n) else copyAndRewire s₁ n sh phiM = .ok (s₂, nCpy)) ∧
      let R := switchResidue w info cmp phi sh nCpy cCpy s₂
      let J := R.1.newNode ⟨.jmp, .ctrl, sh, []⟩
      let st := (List.range (factor - 1)).foldl (switchCompare sh R.2.1 R.2.2 factor) (J.1, J.2, [])
      ∃ first, st.2.2.head? = some first ∧
        s' = wireSwitchTargets factor header afterLoop st.2.1 targets st.2.2 first st.1 := by
  unfold createFixupSwitchHeader at h
  obtain ⟨hd, -, h⟩ := bind_eq_ok h
  split at h
  swap
  · cases h
  rename_i header
  split at h
  swap
  · cases h
  rename_i afterIndex hafter
  dsimp only at h
  split at h
  swap
  · cases h
  rename_i phiM _ hphiM
  simp only [hincr, hbound, hcmp, hphi] at h
  obtain ⟨⟨s₁, cCpy⟩, h₁, h⟩ := bind_ite_eq_ok h
  obtain ⟨⟨s₂, nCpy⟩, h₂, h⟩ := bind_ite_eq_ok h
  dsimp only at h
  split at h
  · cases h
    exact ⟨header, afterIndex, phiM, s₁, cCpy, s₂, nCpy, hafter,
      o.lt_of_mem_outEdges (List.mem_of_find?_eq_some hphiM), rfl, h₁, h₂, _, ‹_›, rfl⟩
  · cases h

/-- After the copies, the rest of `create_fixup_switch_header`: `res`, the `Jmp`, the chain and
the wiring. The graph `g` it leaves has the chain after `base`, the nodes of `res` as they were
built, and control routed by the chain's compares. -/
theorem switchTail_spec {s₂ : Surgery} {sh header nCpy cCpy : Nat} {R : Surgery × Nat × Nat}
    {st : Surgery × Nat × List Nat} {first : Nat} {g : Graph}
    (hR : R = switchResidue w info cmp phi sh nCpy cCpy s₂)
    (hst : st = (List.range (factor - 1)).foldl (switchCompare sh R.2.1 R.2.2 factor)
      ((R.1.newNode ⟨.jmp, .ctrl, sh, []⟩).1, R.1.graph.size, []))
    (hfirst : st.2.2.head? = some first)
    (hg : g = (wireSwitchTargets factor header afterLoop st.2.1 targets st.2.2 first st.1).graph)
    (hw : s₂.WellFormed) (hsh : sh < s₂.graph.size) (hn : nCpy < s₂.graph.size)
    (hc : cCpy < s₂.graph.size) (hph : phi < s₂.graph.size) (hf : 2 ≤ factor)
    (htgt : ∀ j < factor - 1, targets.getD j 0 < sh ∧ s₂.graph.op (targets.getD j 0) = .block)
    (haft : afterLoop < sh ∧ s₂.graph.op afterLoop = .block)
    (hdist : ∀ i < factor - 1, ∀ j < factor - 1, targets.getD i 0 = targets.getD j 0 → i = j)
    (hna : ∀ j < factor - 1, targets.getD j 0 ≠ afterLoop) :
    (∃ mode, ChainAt g sh R.2.1 R.2.2 factor R.1.graph.size (factor - 1) mode) ∧
      ((∀ j, 1 ≤ j → j < factor - 1 → (g.node (targets.getD j 0)).ins ≠ []) →
        (g.node afterLoop).ins ≠ [] → ∀ (m : IntMode) (v : Nat → Option (BitVec w)),
        ∀ j < factor - 1, ∀ t, g.Succ m v (R.1.graph.size + 7 * j + 3) t ↔
          (g.cmpValue m v (R.1.graph.size + 7 * j + 4) = some true ∧ t = targets.getD j 0) ∨
          (g.cmpValue m v (R.1.graph.size + 7 * j + 4) = some false ∧
            t = if j + 1 < factor - 1 then R.1.graph.size + 7 * (j + 1) + 3 else afterLoop)) ∧
      (∀ k, s₂.graph.size ≤ k → k < R.1.graph.size → g.node k = R.1.graph.node k) ∧
      (∀ x < s₂.graph.size, (∀ i < factor - 1, targets.getD i 0 ≠ x) → afterLoop ≠ x →
        g.node x = s₂.graph.node x) ∧
      s₂.graph.Keeps g := by
  obtain ⟨hRs, hres, hcAbs⟩ := switchResidue_lt w info cmp phi sh nCpy cCpy s₂
  have eR := switchResidue_extends w info cmp phi sh nCpy cCpy s₂
  have wR : (switchResidue w info cmp phi sh nCpy cCpy s₂).1.WellFormed :=
    hw.switchResidue hsh hph hn hc
  rw [← hR] at hRs hres hcAbs eR wR
  set base := R.1.graph.size with hbase
  obtain ⟨c₁, c₂, c₃, c₄, -, c₆⟩ := @switchChain sh R.2.1 R.2.2 factor base
    (R.1.newNode ⟨.jmp, .ctrl, sh, []⟩).1 rfl (show R.2.2 < base + 1 by omega) (factor - 1)
  rw [← hst] at c₁ c₂ c₃ c₄ c₆
  have hhead : st.2.2.head? = some (base + 6) := by
    obtain ⟨k, hk⟩ : ∃ k, factor - 1 = k + 1 := ⟨factor - 2, by omega⟩
    rw [c₂, hk, List.range_succ_eq_map]
    simp
  obtain rfl : first = base + 6 := Option.some.inj (hfirst.symm.trans hhead)
  have hgetD : ∀ i < factor - 1, st.2.2.getD i 0 = base + 7 * i + 6 := fun i hi => by
    simp [c₂, List.getD_eq_getElem?_getD, hi]
  have hIE : st.1.graph.Keeps g ∧ g.size = st.1.graph.size := by
    have := @insEdit_wireSwitchTargets header targets st.2.2 factor afterLoop st.2.1 (base + 6) st.1
    rw [hg]
    exact ⟨this.keeps, this.2.2.1⟩
  have hRst : R.1.graph.Extends st.1.graph := (Surgery.extends_newNode _ _).trans c₄
  have hframe : ∀ k, (∀ i < factor - 1, targets.getD i 0 ≠ k) → afterLoop ≠ k →
      g.node k = st.1.graph.node k := fun k ht ha => hg ▸ wireSwitchTargets_node hf ht ha
  have hframe' : ∀ k, sh ≤ k → g.node k = st.1.graph.node k := fun k hk =>
    hframe k (fun i hi => by have := (htgt i hi).1; omega) (by omega)
  have hchain : ChainAt g sh R.2.1 R.2.2 factor base (factor - 1)
      ((R.1.newNode ⟨.jmp, .ctrl, sh, []⟩).1.graph.node R.2.2).mode := by
    refine ⟨hIE.2.trans c₃, ?_, fun q hq => (c₆ q hq).congr fun k hk _ => hframe' k (by omega),
      by omega, fun x hx => ?_⟩
    · rw [hframe' base (by omega), c₄.node base (by simp)]
      simp [hbase]
    · have := hIE.1.node x (by omega)
      simp only [Graph.getBlock, Graph.op, this.1, this.2.1, hRst.node x hx]
      exact wR.getBlock_lt hx
  have hlands := @wireSwitchTargets_lands header targets st.2.2 factor afterLoop st.2.1 (base + 6)
    st.1 hf hdist hna
  dsimp only at hlands
  rw [← hg] at hlands
  have hop : ∀ x < s₂.graph.size, g.op x = s₂.graph.op x := fun x hx =>
    ((eR.trans hRst).keeps.trans hIE.1 |>.node x hx).1
  have hlow : ∀ t < base, g.op t = .block → ∀ x ∈ (g.node t).ins, x < base ∨
      (∃ i < factor - 1, t = targets.getD i 0 ∧ x = base + 7 * i + 6) ∨
      (t = afterLoop ∧ x = base + 7 * (factor - 1)) := fun t ht _ x hx => by
    rw [hg] at hx
    rcases mem_wireSwitchTargets hx with hx | ⟨rfl, rfl⟩ | ⟨i, -, hi, rfl, rfl⟩ | ⟨rfl, rfl⟩
    · rw [hRst.node t ht] at hx
      exact .inl (wR.ins_lt t ht x hx)
    · exact .inr (.inl ⟨0, by omega, rfl, rfl⟩)
    · exact .inr (.inl ⟨i, hi, rfl, hgetD i hi⟩)
    · exact .inr (.inr ⟨rfl, c₁⟩)
  refine ⟨⟨_, hchain⟩, fun hk₁ hk₂ m v j hj t => hchain.succ_iff hlow (fun i hi => ?_)
    ⟨by omega, (hop _ (by omega)).trans haft.2, c₁ ▸ hlands.2.2 hk₂⟩ hdist hj t,
    fun k hk₁ hk₂ => (hframe' k (by omega)).trans (hRst.node k hk₂),
    fun x hx ht ha => (hframe x ht ha).trans ((hRst.node x (by omega)).trans (eR.node x hx)),
    (eR.trans hRst).keeps.trans hIE.1⟩
  obtain ⟨hlt, hblk⟩ := htgt i hi
  refine ⟨by omega, (hop _ (by omega)).trans hblk, ?_⟩
  rcases Nat.eq_zero_or_pos i with rfl | hi₁
  · rw [hlands.1]; exact List.mem_singleton_self _
  · rw [← hgetD i hi]; exact hlands.2.1 i hi₁ hi (hk₁ i hi₁ hi)

variable {r : Relation} {m : IntMode} {env v : Nat → Option (BitVec w)}

theorem create_fixup_switch_header_routes
    (h : createFixupSwitchHeader o w factor info loop targets afterLoop s = .ok (s', sh))
    (hs : s.WellFormed) (ho : o.size ≤ s.graph.size) (hf : 2 ≤ factor)
    (hincr : info.incr = some c) (hbound : info.bound = some n) (hcmp : info.cmp = some cmp)
    (hphi : info.phi = some phi) (hrel : info.rel = some r)
    (hlt : c < s.graph.size ∧ n < s.graph.size ∧ cmp < s.graph.size ∧ phi < s.graph.size)
    (hcmpb : s.graph.op cmp ≠ .block)
    (htgt : ∀ j < factor - 1, targets.getD j 0 < s.graph.size ∧
      s.graph.op (targets.getD j 0) = .block)
    (haft : afterLoop < s.graph.size ∧ s.graph.op afterLoop = .block)
    (hdist : ∀ i < factor - 1, ∀ j < factor - 1, targets.getD i 0 = targets.getD j 0 → i = j)
    (hna : ∀ j < factor - 1, targets.getD j 0 ≠ afterLoop)
    (hkeep : (∀ j, 1 ≤ j → j < factor - 1 → (s'.graph.node (targets.getD j 0)).ins ≠ []) ∧
      (s'.graph.node afterLoop).ins ≠ [])
    (hv : s'.graph.Evaluates m env v) :
    ∃ (blk : Nat → Nat) (nCpy cCpy : Nat), nCpy < s'.graph.size ∧ cCpy < s'.graph.size ∧
      s'.graph.op nCpy = s.graph.op n ∧ s'.graph.op cCpy = s.graph.op c ∧
      s'.graph.Succ m v sh (blk 0) ∧
      (∀ b, s'.graph.Succ m v b (blk 0) → b = sh) ∧
      ∀ j < factor - 1, ∀ t, s'.graph.Succ m v (blk j) t ↔ ∃ I N C, v phi = some I ∧
        v nCpy = some N ∧ v cCpy = some C ∧
        t = if m.cmp .greaterEqual (fixupResidue ⟨r, info.phi ≠ some (s'.graph.input cmp 1)⟩ I N C)
            (BitVec.ofNat w (factor - 1 - j) * LibFirm.createAbs C)
          then targets.getD j 0 else if j + 1 < factor - 1 then blk (j + 1) else afterLoop := by
  obtain ⟨hc, hn, hcm, hph⟩ := hlt
  obtain ⟨header, afterIndex, phiM, s₁, cCpy, s₂, nCpy, hafter, hphiM, rfl, h₁, h₂, h⟩ :=
    createFixupSwitchHeader_eq_ok h hincr hbound hcmp hphi
  dsimp only at h₁ h
  have w₀ : (s.newNode ⟨.block, .other, s.graph.size, [s.graph.input afterLoop afterIndex]⟩).1.WellFormed :=
    hs.newNode le_rfl (by simpa using hs.input_lt haft.1 afterIndex)
  obtain ⟨w₁, hc₁, k₁, op₁⟩ := w₀.copyStep h₁ (by simp; omega) (by simp) (by simp; omega)
  have k₁' := k₁.size_le
  simp only [Surgery.newNode_size] at k₁'
  obtain ⟨w₂, hn₂, k₂, op₂⟩ := w₁.copyStep h₂ (by omega) (by omega) (by omega)
  have k₂' := k₂.size_le
  obtain ⟨first, hfirst, hs'⟩ := h
  simp only [Surgery.newNode_snd] at hfirst hs'
  have hne : ∀ t, s.graph.op t = .block → t ≠ cmp := fun t ht h => hcmpb (h ▸ ht)
  have hK₂ : s.graph.Keeps s₂.graph := (s.keeps_newNode _).trans (k₁.trans k₂)
  have hop₂ : ∀ x < s.graph.size, s₂.graph.op x = s.graph.op x := fun x hx => (hK₂.node x hx).1
  obtain ⟨⟨mode, hchain⟩, hroute, hagree, hframe, hK⟩ := switchTail_spec rfl rfl hfirst
    (congrArg Surgery.graph hs') w₂ (by omega) hn₂ (by omega) (by omega) hf
    (fun j hj => ⟨(htgt j hj).1, (hop₂ _ (htgt j hj).1).trans (htgt j hj).2⟩)
    ⟨haft.1, (hop₂ _ haft.1).trans haft.2⟩ hdist hna
  have hsz := hchain.size_eq
  have hB : Built m env (switchResidue w info cmp phi s.graph.size nCpy cCpy s₂).1.graph s'.graph v
      s₂.graph.size := hv.built (by omega) hagree
  obtain ⟨-, hvres, hvcAbs⟩ := hB.switchResidue hrel (show cmp < s₂.graph.size by omega) le_rfl
  have hin : s'.graph.input cmp 1 = s₂.graph.input cmp 1 := by
    simp only [Graph.input]
    rw [hframe cmp (by omega) (fun i hi => hne _ (htgt i hi).2) (hne _ haft.2)]
  obtain ⟨-, -, h₃₀, -⟩ := hchain.round 0 (by omega)
  have hjmp := hchain.jmp
  set base := (switchResidue w info cmp phi s.graph.size nCpy cCpy s₂).1.graph.size
  refine ⟨fun j => base + 7 * j + 3, nCpy, cCpy, lt_of_lt_of_le hn₂ hK.size_le,
    lt_of_lt_of_le hc₁ (k₂.trans hK).size_le, ?_, ?_, ?_, ?_, fun j hj t => ?_⟩
  · exact (hK.node nCpy hn₂).1.trans (op₂.trans ((k₁.node n (by simp; omega)).1.trans
      ((s.keeps_newNode _).node n hn).1))
  · exact ((k₂.trans hK).node cCpy hc₁).1.trans (op₁.trans ((s.keeps_newNode _).node c hc).1)
  · dsimp only
    exact ⟨by omega, by simp [Graph.op, h₃₀], base, by simp [h₃₀],
      by simp [Graph.getBlock, Graph.op, hjmp], .inl (by simp [Graph.op, hjmp])⟩
  · rintro b ⟨-, -, x, hx, rfl, -⟩
    rw [h₃₀, List.mem_singleton] at hx
    subst hx
    simp [Graph.getBlock, Graph.op, hjmp]
  · rw [hroute hkeep.1 hkeep.2 m v j hj t, hchain.cmpValue_eq hv hj, hvres, hvcAbs, hin]
    cases v phi <;> cases v nCpy <;> cases v cCpy <;>
      simp only [Option.none_bind, Option.some_bind, Option.map_none', Option.map_some',
        Option.some.injEq, reduceCtorEq, false_and, or_self, exists_false, exists_eq_left', false_iff,
        true_and, and_false, exists_const, not_false_eq_true]
    rw [or_eq_ite]
    exact ⟨fun h => ⟨_, _, _, rfl, rfl, rfl, h⟩, by rintro ⟨_, _, _, rfl, rfl, rfl, h⟩; exact h⟩

end Construction

end LibFirm.Ir
