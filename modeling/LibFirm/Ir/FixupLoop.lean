import LibFirm.Ir.RewireLoop

/-!
# The loop fix-up: `create_fixup_loop`

`create_fixup_loop` copies the blocks of the loop once and puts the copy behind the loop's
exit: the exit edge of the header's `Cond` enters the copied header, and the copy's exit takes
over the old exit edge. Values of the loop used outside it are read from the copy instead.
-/

namespace LibFirm.Ir

section FixupLoop

variable (o : Graph)

/-- `duplicate_original_loop`. -/
def duplicateOriginalLoop (s : Surgery) (loop : Nat) : Except Fault Surgery :=
  (loopBlocks o loop).foldlM (duplicateBlock o) s.clearLinks

/-- `rewire_ins_linked`: the copy of `node` reads the copies of `node`'s inputs, where they
have one. -/
def rewireInsLinked (s : Surgery) (node : Nat) : Except Fault Surgery :=
  match s.link node with
  | none => .error .assertion
  | some link => pure (s.setIrnIn link ((s.graph.node node).ins.map fun n => (s.link n).getD n))

/-- `rewire_left_over_phis`: once `postBlock` has a predecessor in the loop, its Phis are
widened to its arity with their input from the first such predecessor. -/
def rewireLeftOverPhis (s : Surgery) (postBlock loop : Nat) : Surgery :=
  let postIns := (s.graph.node postBlock).ins
  match postIns.findIdx? fun i => s.graph.blockIsInsideLoop (s.graph.getBlock i) loop with
  | none => s
  | some inLoopIndex =>
    (o.outEdges postBlock).foldl (fun s (out, _) =>
      if s.graph.getBlock out ≠ postBlock ∨ !s.graph.isPhi out then s
      else
        let ins := (s.graph.node out).ins
        s.setIrnIn out
          (ins ++ List.replicate (postIns.length - ins.length) (s.graph.input out inLoopIndex))) s

/-- The users of `curr` outside the loop read its copy `currLink` instead (when `node` is the
header) or as well, and `End` keeps the copy alive; the blocks of those users are pushed on
`outBlocks`. -/
def rewireOutOfLoopUsers (loop header node currLink : Nat) (st : Surgery × List Nat)
    (e : Nat × Int) : Surgery × List Nat :=
  let (s, outBlocks) := st
  let (out, indexOut) := e
  let outBlock := s.graph.getBlock out
  if s.graph.isEnd out then (s.addEndKeepalive out currLink, outBlocks)
  else if s.graph.blockIsInsideLoop outBlock loop then st
  else if s.graph.getBlock node = header then
    (s.setIrnN out indexOut.toNat currLink, outBlock :: outBlocks)
  else (s.setIrnIn out ((s.graph.node out).ins ++ [currLink]), outBlock :: outBlocks)

/-- `rewire_duplicated_block`: the copy of block `node` and of the nodes in it read the copies
of their inputs, and users outside the loop read the copies. -/
def rewireDuplicatedBlock (s : Surgery) (node loop header : Nat) : Except Fault Surgery := do
  let newNode := s.link node
  let (s, outBlocks) ← (o.outEdges node).foldlM (fun (st : Surgery × List Nat) (curr, _) => do
    let (s, outBlocks) := st
    if s.graph.op curr = .block then pure st
    else if s.graph.isEnd curr then
      match newNode with
      | some n => pure (s.addEndKeepalive curr n, outBlocks)
      | none => .error .nullDeref
    else
      let s ← rewireInsLinked s curr
      match s.link curr with
      | none => pure (s, outBlocks)
      | some currLink =>
        pure ((o.outEdges curr).foldl (rewireOutOfLoopUsers loop header node currLink)
          (s, outBlocks))) (s, [])
  let s := outBlocks.foldl (fun s b => rewireLeftOverPhis o s b loop) s
  rewireInsLinked s node

/-- The last element first: the rotation that `new_ins_all` makes of `new_ins`. -/
def rotateLast (ins : List Nat) : Option (List Nat) :=
  ins.getLast?.map fun last => last :: ins.dropLast

/-- The inputs `rewire_duplicated_header` gives the copy of header Phi `out`, before it is
widened: the copies of its inputs from inside the loop, and `out` itself when an input comes
from outside or from the header, the last first. -/
def fixupPhiIns (s : Surgery) (loop header out : Nat) : Except Fault (List Nat) := do
  let ins := (s.graph.node out).ins
  let inside (curr : Nat) := s.graph.blockIsInsideLoop (s.graph.getBlock curr) loop
  let copies ← (ins.filter inside).mapM fun curr => match s.link curr with
    | some l => pure l
    | none => .error .nullDeref
  let linkToOut := ins.any fun curr => !inside curr || s.graph.getBlock curr = header
  let newIns := copies ++ if linkToOut then [out] else []
  -- `new_ins` has one slot per input of the Phi
  if ins.length < newIns.length then .error .undefined
  match rotateLast newIns with
  | some newInsAll => pure newInsAll
  | none => .error .undefined

/-- `rewire_duplicated_header`: the copied header is entered from the exit edge of the original
header and from the copies of its back edges, and its Phis are rewired to match. -/
def rewireDuplicatedHeader (s : Surgery) (header loop cmp : Nat) : Except Fault Surgery := do
  let s ← rewireDuplicatedBlock o s header loop header
  let some linkedHeader := s.link header | .error .nullDeref
  let headerIns := (s.graph.node header).ins
  let some (cond, _) := (o.outEdges cmp).head? | .error .undefined
  -- the exit edge: `header_new_ins[0]`, from a zeroed allocation
  let (s, exitProj) ← (o.outEdges cond).foldlM (fun (st : Surgery × Option Nat) (proj, _) =>
    let (s, _) := st
    match (o.outEdges proj).head? with
    | none => .error .undefined
    | some (target, index) =>
      if s.graph.blockIsInsideLoop (s.graph.getBlock target) loop then pure st
      else match s.link proj with
        | some linkedProj => pure (s.setIrnN target index.toNat linkedProj, some proj)
        | none => .error .nullDeref) (s, none)
  let linkedPreds := headerIns.filterMap s.link
  -- `header_new_ins` has one slot per input of the header
  if headerIns.length < linkedPreds.length + 1 then .error .undefined
  let some proj := exitProj | .error .nullDeref
  let s := s.setIrnIn linkedHeader (proj :: linkedPreds)
  (o.outEdges header).foldlM (fun s (out, _) =>
    if !s.graph.isPhi out then pure s
    else match s.link out with
      | none => .error .nullDeref
      | some linked => do
        let ins ← fixupPhiIns s loop header out
        pure (s.setIrnIn linked
          (ins ++ List.replicate (linkedPreds.length + 1 - ins.length) linked))) s

/-- `rewire_duplicated`: the copied blocks, the header last. -/
def rewireDuplicated (s : Surgery) (loop cmp : Nat) : Except Fault Surgery := do
  let some header ← s.graph.getLoopHeader loop | .error .nullDeref
  let s ← (loopBlocks o loop).foldlM (fun s b =>
    if b = header then pure s else rewireDuplicatedBlock o s b loop header) s
  rewireDuplicatedHeader o s header loop cmp

/-- `create_fixup_loop`. -/
def createFixupLoop (s : Surgery) (loop cmp : Nat) : Except Fault Surgery := do
  let s ← duplicateOriginalLoop o s loop
  rewireDuplicated o s loop cmp

end FixupLoop

section Frame

variable {o : Graph} {s s' : Surgery}

theorem duplicateOriginalLoop_keeps {loop : Nat} (h : duplicateOriginalLoop o s loop = .ok s') :
    s.graph.Keeps s'.graph := by
  exact (foldlM_keeps (fun _ _ _ _ hb => duplicateBlock_keeps hb) h :)

theorem rewireInsLinked_insEdit {node : Nat} (h : rewireInsLinked s node = .ok s') :
    s.InsEdit s' := by
  unfold rewireInsLinked at h
  split at h
  · cases h
  · cases Except.ok.inj h; exact s.insEdit_setIrnIn _ _

theorem rewireLeftOverPhis_insEdit (s : Surgery) (postBlock loop : Nat) :
    s.InsEdit (rewireLeftOverPhis o s postBlock loop) := by
  unfold rewireLeftOverPhis
  dsimp only
  split
  · exact s.insEdit_refl
  · refine foldl_insEdit (fun b e _ => ?_) s
    dsimp only
    split_ifs
    exacts [b.insEdit_refl, b.insEdit_setIrnIn _ _]

theorem rewireOutOfLoopUsers_insEdit (loop header node currLink : Nat) (st : Surgery × List Nat)
    (e : Nat × Int) : st.1.InsEdit (rewireOutOfLoopUsers loop header node currLink st e).1 := by
  obtain ⟨s, outBlocks⟩ := st
  unfold rewireOutOfLoopUsers
  dsimp only
  split_ifs
  exacts [s.insEdit_addEdge _ _, s.insEdit_refl, s.insEdit_setIrnN _ _ _, s.insEdit_setIrnIn _ _]

theorem rewireDuplicatedBlock_insEdit {node loop header : Nat}
    (h : rewireDuplicatedBlock o s node loop header = .ok s') : s.InsEdit s' := by
  obtain ⟨⟨s₁, outBlocks⟩, h₁, h⟩ := bind_eq_ok h
  refine Surgery.InsEdit.trans ?_
    ((foldl_insEdit (fun b _ _ => rewireLeftOverPhis_insEdit b _ _) _).trans (rewireInsLinked_insEdit h))
  refine foldlM_rel (fun st st' : Surgery × List Nat => st.1.InsEdit st'.1)
    (fun st => st.1.insEdit_refl) Surgery.InsEdit.trans (fun ⟨b, bs⟩ ⟨curr, _⟩ _ st' hb => ?_) h₁
  dsimp only at hb
  split_ifs at hb
  · cases Except.ok.inj hb; exact b.insEdit_refl
  · split at hb
    · cases Except.ok.inj hb; exact b.insEdit_addEdge _ _
    · cases hb
  · obtain ⟨b₂, hb₂, hb⟩ := bind_eq_ok hb
    refine (rewireInsLinked_insEdit hb₂).trans ?_
    split at hb
    · cases Except.ok.inj hb; exact b₂.insEdit_refl
    · cases Except.ok.inj hb
      exact foldl_rel (fun st st' : Surgery × List Nat => st.1.InsEdit st'.1)
        (fun st => st.1.insEdit_refl) Surgery.InsEdit.trans
        (fun st e _ => rewireOutOfLoopUsers_insEdit _ _ _ _ st e) _

theorem rewireDuplicatedHeader_insEdit {header loop cmp : Nat}
    (h : rewireDuplicatedHeader o s header loop cmp = .ok s') : s.InsEdit s' := by
  obtain ⟨s₁, h₁, h⟩ := bind_eq_ok h
  refine (rewireDuplicatedBlock_insEdit h₁).trans ?_
  dsimp only at h
  split at h
  · split at h
    · obtain ⟨⟨s₂, exitProj⟩, h₂, h⟩ := bind_eq_ok h
      have hs₂ : s₁.InsEdit s₂ := by
        refine foldlM_rel (fun st st' : Surgery × Option Nat => st.1.InsEdit st'.1)
          (fun st => st.1.insEdit_refl) Surgery.InsEdit.trans (fun st e _ st' hb => ?_) h₂
        split at hb
        · cases hb
        · split_ifs at hb
          · cases Except.ok.inj hb; exact st.1.insEdit_refl
          · split at hb
            · cases Except.ok.inj hb; exact st.1.insEdit_setIrnN _ _ _
            · cases hb
      refine hs₂.trans ?_
      dsimp only at h
      split_ifs at h
      · cases h
      · obtain ⟨_, -, h⟩ := bind_eq_ok h
        split at h
        · refine (s₂.insEdit_setIrnIn _ _).trans (foldlM_insEdit (fun b e _ b' hb => ?_) h)
          split_ifs at hb
          · cases Except.ok.inj hb; exact b.insEdit_refl
          · split at hb
            · cases hb
            · obtain ⟨ins, -, hb⟩ := bind_eq_ok hb
              cases Except.ok.inj hb; exact b.insEdit_setIrnIn _ _
        · cases h
    · cases h
  · cases h

theorem rewireDuplicated_insEdit {loop cmp : Nat} (h : rewireDuplicated o s loop cmp = .ok s') :
    s.InsEdit s' := by
  obtain ⟨_, -, h⟩ := bind_eq_ok h
  split at h
  · obtain ⟨s₁, h₁, h⟩ := bind_eq_ok h
    refine (foldlM_insEdit (fun b _ _ b' hb => ?_) h₁).trans (rewireDuplicatedHeader_insEdit h)
    split_ifs at hb
    · cases Except.ok.inj hb; exact b.insEdit_refl
    · exact rewireDuplicatedBlock_insEdit hb
  · cases h

theorem createFixupLoop_keeps {loop cmp : Nat} (h : createFixupLoop o s loop cmp = .ok s') :
    s.graph.Keeps s'.graph := by
  obtain ⟨s₁, h₁, h⟩ := bind_eq_ok h
  exact (duplicateOriginalLoop_keeps h₁).trans (rewireDuplicated_insEdit h).keeps

end Frame

end LibFirm.Ir
