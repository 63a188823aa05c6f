import LibFirm.Ir.Surgery

/-!
# Copying the loop body: `rewire_loop`

`rewire_loop(loop, header, factor, link_map)` makes `factor - 1` copies of the blocks of the
loop and chains them: after round `j` the back edges of the original header come from copy `j`,
and copy `j`'s header takes the back edges the original header had before the round. `o` is the
graph as it stood when outs were last computed, and the loops of the source are folds over the
lists they walk.
-/

namespace LibFirm.Ir

section RewireLoop

variable (o : Graph)

/-- The links after `duplicate_node` copies `node` to `newNode`: the original's previous copy
and the original link to the new node, and the new node links back. -/
def linkCopy (link : Nat → Option Nat) (node newNode : Nat) (m : Nat) : Option Nat :=
  if m = newNode then some node
  else if m = node then some newNode
  else if link node = some m then some newNode
  else link m

/-- `duplicate_node`: a copy of `node` in `newBlock`, the node numbered `s.graph.size`. A
block's copy keeps its own block, as the source sets none for it. -/
def duplicateNode (s : Surgery) (node newBlock : Nat) : Surgery :=
  { s with
    graph := (s.graph.exactCopy node).1.setNodesBlock s.graph.size
      (if s.graph.op node = Opcode.block then (s.graph.node node).block else newBlock)
    link := linkCopy s.link node s.graph.size }

/-- `duplicate_block`: the block and the nodes in it; the copy of the block is the node
numbered `s.graph.size`. -/
def duplicateBlock (s : Surgery) (block : Nat) : Except Fault Surgery :=
  let newBlock := s.graph.size
  (o.outEdges block).foldlM (fun s (node, _) =>
    if s.graph.op node = .block then .error .assertion
    else if (s.graph.node node).block ≠ block then pure s
    else pure (duplicateNode s node newBlock)) (duplicateNode s block 0)

/-- `rewire_successor_block(block, n)`: `block` is also entered from the copy of its `n`-th
predecessor, and each of its Phis takes the copy of its `n`-th input, or the input itself. -/
def rewireSuccessorBlock (s : Surgery) (block n : Nat) : Except Fault Surgery :=
  match s.link (s.graph.input block n) with
  | none => .error .assertion
  | some newNode =>
    pure <| (o.outEdges block).foldl (fun s (phi, _) =>
      if s.graph.isPhi phi then
        let pred := s.graph.input phi n
        s.addEdge phi ((s.link pred).getD pred)
      else s) (s.addEdge block newNode)

/-- Input `i` of `node` set to the link of `pred`, where it has one. -/
def setToLink (node : Nat) (s : Surgery) (i pred : Nat) : Surgery :=
  match s.link pred with
  | some newPred => s.setIrnN node i newPred
  | none => s

/-- `rewire_node`: the edges of `node`'s copy. -/
def rewireNode (s : Surgery) (header node : Nat) : Except Fault Surgery := do
  let some newNode := s.link node | .error .assertion
  if (s.graph.node node).ins.length ≠ (s.graph.node newNode).ins.length then .error .assertion
  -- the successors outside the loop
  let s ← (o.outEdges node).foldlM (fun s (succ, n) =>
    if (s.link succ).isNone && s.graph.op succ = .block then
      rewireSuccessorBlock o s succ n.toNat
    else if s.graph.isEnd succ then
      if (s.link succ).isSome then .error .assertion else pure (s.addEndKeepalive succ newNode)
    else pure s) s
  if node = header then
    -- the original is entered from outside and from the last copy, the copy from the original
    let preds := (s.graph.node header).ins
    let s' := preds.enum.foldl (fun s (i, pred) => setToLink node s i pred) s
    pure (s'.setIrnIn newNode (preds.filter fun pred => (s.link pred).isSome))
  else if s.graph.isPhi node && (s.graph.node node).block = header then
    if (s.graph.node node).ins.length ≠ (s.graph.node header).ins.length then .error .assertion
    -- the inputs on the edges that have a copy
    let kept := (s.graph.node node).ins.enum.filter fun (i, _) =>
      (s.link (s.graph.input header i)).isSome
    let s' := kept.foldl (fun s (i, pred) => setToLink node s i pred) s
    pure (s'.setIrnIn newNode (kept.map (·.2)))
  else
    pure <| (List.range (s.graph.node newNode).ins.length).foldl
      (fun s i => setToLink newNode s i (s.graph.input newNode i)) s

/-- `rewire_block`: the block and the nodes in it. -/
def rewireBlock (s : Surgery) (block header : Nat) : Except Fault Surgery := do
  let s ← rewireNode o s header block
  (o.outEdges block).foldlM (fun s (node, _) =>
    if s.graph.op node = .block then .error .assertion
    else if (s.graph.node node).block ≠ block then pure s
    else rewireNode o s header node) s

/-- The block elements of a loop, in order. -/
def loopBlocks (loop : Nat) : List Nat :=
  (o.loopElements loop).filterMap fun | .block b => some b | .son _ => none

/-- One round of `rewire_loop`: copy the blocks, pushing the copies on the stacks, then rewire
them. -/
def rewireRound (loop header : Nat) (s : Surgery) : Except Fault Surgery := do
  let s ← (loopBlocks o loop).foldlM (fun s b => do
    let dup := s.graph.size
    let s ← duplicateBlock o s b
    let s := { s with unrolledNodes := dup :: s.unrolledNodes }
    pure (if b = header then { s with unrolledHeaders := dup :: s.unrolledHeaders } else s)) s
  (loopBlocks o loop).foldlM (fun s b => rewireBlock o s b header) s

/-- `create_link_map` over the nodes `irg_walk_graph` visits: each to its link. -/
def createLinkMap (s : Surgery) (n : Nat) : Option Nat :=
  if n ∈ s.graph.live then s.link n else none

/-- `rewire_loop`: the state and the link map. -/
def rewireLoop (s : Surgery) (loop header factor : Nat) :
    Except Fault (Surgery × (Nat → Option Nat)) := do
  let s := s.clearLinks
  let s := { s with unrolledNodes := (loopBlocks o loop).reverse ++ s.unrolledNodes }
  let s ← (List.range (factor - 1)).foldlM (fun s _ => rewireRound o loop header s) s
  pure (s, createLinkMap s)

end RewireLoop

section Frame

variable {o : Graph} {s s' : Surgery}

theorem duplicateNode_keeps (s : Surgery) (node b : Nat) :
    s.graph.Keeps (duplicateNode s node b).graph :=
  s.graph.keeps_exactCopy_setNodesBlock node _

theorem duplicateBlock_keeps {block : Nat} (h : duplicateBlock o s block = .ok s') :
    s.graph.Keeps s'.graph := by
  refine (duplicateNode_keeps s block 0).trans (foldlM_keeps (fun b e _ b' hb => ?_) h)
  dsimp only at hb
  split_ifs at hb
  · cases Except.ok.inj hb; exact Graph.Keeps.refl _
  · cases Except.ok.inj hb; exact duplicateNode_keeps _ _ _

theorem rewireSuccessorBlock_insEdit {block n : Nat} (h : rewireSuccessorBlock o s block n = .ok s') :
    s.InsEdit s' := by
  unfold rewireSuccessorBlock at h
  split at h
  · cases h
  · cases Except.ok.inj h
    refine (s.insEdit_addEdge _ _).trans (foldl_insEdit (fun b e _ => ?_) _)
    dsimp only
    split_ifs
    exacts [b.insEdit_addEdge _ _, b.insEdit_refl]

theorem setToLink_insEdit (node : Nat) (s : Surgery) (i pred : Nat) :
    s.InsEdit (setToLink node s i pred) := by
  unfold setToLink
  split
  exacts [s.insEdit_setIrnN _ _ _, s.insEdit_refl]

theorem rewireNode_insEdit {header node : Nat} (h : rewireNode o s header node = .ok s') :
    s.InsEdit s' := by
  unfold rewireNode at h
  cases hl : s.link node with
  | none => rw [hl] at h; cases h
  | some newNode =>
    rw [hl] at h
    dsimp only at h
    split at h
    · cases h
    obtain ⟨_, -, h⟩ := bind_eq_ok h
    obtain ⟨s₁, h₁, h⟩ := bind_eq_ok h
    have hs₁ : s.InsEdit s₁ := foldlM_insEdit (fun b e _ b' hb => by
        split_ifs at hb
        · exact rewireSuccessorBlock_insEdit hb
        · cases Except.ok.inj hb; exact b.insEdit_addEdge _ _
        · cases Except.ok.inj hb; exact b.insEdit_refl) h₁
    have hlink (l : List (Nat × Nat)) (t : Nat) (s : Surgery) :
        s.InsEdit (l.foldl (fun s x => setToLink t s x.1 x.2) s) :=
      foldl_insEdit (fun b x _ => setToLink_insEdit t b x.1 x.2) s
    refine hs₁.trans ?_
    by_cases hh : node = header
    · rw [if_pos hh] at h
      cases Except.ok.inj h
      exact (hlink _ _ _).trans (Surgery.insEdit_setIrnIn _ _ _)
    rw [if_neg hh] at h
    split_ifs at h with hphi
    · cases h
    · obtain ⟨_, -, h⟩ := bind_eq_ok h
      cases Except.ok.inj h
      exact (hlink _ _ _).trans (Surgery.insEdit_setIrnIn _ _ _)
    · cases Except.ok.inj h
      exact foldl_insEdit (fun b i _ => setToLink_insEdit _ b i _) _

theorem rewireBlock_insEdit {block header : Nat} (h : rewireBlock o s block header = .ok s') :
    s.InsEdit s' := by
  obtain ⟨s₁, h₁, h⟩ := bind_eq_ok h
  refine (rewireNode_insEdit h₁).trans (foldlM_insEdit (fun b e _ b' hb => ?_) h)
  dsimp only at hb
  split_ifs at hb
  · cases Except.ok.inj hb; exact b.insEdit_refl
  · exact rewireNode_insEdit hb

theorem rewireRound_keeps {loop header : Nat} (h : rewireRound o loop header s = .ok s') :
    s.graph.Keeps s'.graph := by
  obtain ⟨s₁, h₁, h⟩ := bind_eq_ok h
  refine (foldlM_keeps (fun b _ _ b' hb => ?_) h₁).trans
    (foldlM_insEdit (fun _ _ _ _ hb => rewireBlock_insEdit hb) h).keeps
  obtain ⟨b₁, hb₁, hb⟩ := bind_eq_ok hb
  cases Except.ok.inj hb
  split_ifs <;> exact (duplicateBlock_keeps hb₁ :)

theorem rewireLoop_keeps {loop header factor : Nat} {r : Surgery × (Nat → Option Nat)}
    (h : rewireLoop o s loop header factor = .ok r) : s.graph.Keeps r.1.graph := by
  obtain ⟨s₁, h₁, h⟩ := bind_eq_ok h
  cases Except.ok.inj h
  exact (foldlM_keeps (fun _ _ _ _ hb => rewireRound_keeps hb) h₁ :)

end Frame

end LibFirm.Ir
