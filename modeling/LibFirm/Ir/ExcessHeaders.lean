import LibFirm.Ir.FixupLoop
import LibFirm.Ir.Recognizer

/-!
# Removing the copied headers: `remove_excess_headers`

After `rewire_loop` every copy of the body runs behind its own copy of the header.
`remove_excess_headers` takes the copied headers out of the cycle: it moves their memory Phis
into the block each leads into, replaces their other Phis (`prune_block`), lets their in-loop
successor take their predecessors, and drops their exit edges; inputs still from a copied header
are then taken from the original header, following the links back. `o` is the graph as it stood
when outs were last computed, on which `get_false_and_true_targets` is read as well.
-/

namespace LibFirm.Ir

section ExcessHeaders

variable (o : Graph)

/-- `remove_node_from_succ_ins`: `node` is dropped from the inputs of its users, and `End`
keeps it alive no longer. -/
def removeNodeFromSuccIns (s : Surgery) (node : Nat) : Except Fault Surgery :=
  (o.outEdges node).foldlM (fun s (succ, _) =>
    if s.graph.isEnd succ then pure (s.removeKeepAlive node)
    else
      let ins := (s.graph.node succ).ins
      let kept := ins.filter (· ≠ node)
      if ins.length = 0 then .error .assertion
      -- `new_ins` has `arity - 1` slots
      else if kept.length ≠ ins.length - 1 then .error .undefined
      else pure (s.setIrnIn succ kept)) s

/-- `rewire_memory_of_execess_header`: the memory Phi of `targetBlock` takes the inputs of the
memory Phis of `linkedHeader`, which are emptied and dropped from their users. -/
def rewireMemoryOfExecessHeader (s : Surgery) (linkedHeader targetBlock : Nat) :
    Except Fault Surgery :=
  let target := (o.outEdges targetBlock).foldl (fun t (out, _) =>
    if s.graph.getBlock out = targetBlock ∧ s.graph.isPhi out ∧ (s.graph.node out).mode = .mem
    then some out else t) none
  (o.outEdges linkedHeader).foldlM (fun s (out, _) =>
    if s.graph.getBlock out ≠ linkedHeader ∨ (s.graph.node out).mode ≠ .mem ∨ !s.graph.isPhi out
    then pure s
    else do
      let s ← removeNodeFromSuccIns o s out
      match target with
      | none => .error .assertion
      | some t => pure ((s.setIrnIn t (s.graph.node out).ins).setIrnIn out [])) s

/-- The one input `prune_block` leaves a user in the loop: the last input of the Phi that is
const-like or comes from a copied block other than a header. -/
def prunedInput (s : Surgery) (phi : Nat) : Option Nat :=
  ((s.graph.node phi).ins.filter fun curr => s.graph.isConstlike curr ||
    (!(s.graph.getBlock curr ∈ s.unrolledHeaders) && s.graph.getBlock curr ∈ s.unrolledNodes)).getLast?

/-- What `prune_block` does to user `target` of `phi`: nothing in a copied header or for a
Phi of the fix-up; outside the copied blocks `phi` is dropped from its inputs; in a copied
block its only input becomes the Phi's value from the loop. -/
def pruneTarget (fixupPhis : List Nat) (phi : Nat) (s : Surgery) (target : Nat) :
    Except Fault Surgery :=
  let targetBlock := s.graph.getBlock target
  let ins := (s.graph.node target).ins
  if targetBlock ∈ s.unrolledHeaders ∨ target ∈ fixupPhis then pure s
  else if !(targetBlock ∈ s.unrolledNodes) then
    if s.graph.isEnd target then
      match ins.indexOf? phi with
      | some k => pure (s.removeEndN target k)
      | none => if ins = [] then pure s else .error .assertion
    else
      let kept := ins.filter (· ≠ phi)
      -- `new_in` has `arity - 1` slots, guarded by an assertion
      if ins = [] then .error .undefined
      else if ins.length ≤ kept.length then .error .assertion
      else if kept.length < ins.length - 1 then .error .undefined
      else pure (s.setIrnIn target kept)
  else match prunedInput s phi with
    | some x => pure (s.setIrnIn target [x])
    | none => .error .undefined

/-- One Phi of `prune_block`: a Phi other than memory goes through its users, and is
emptied. -/
def prunePhi (fixupPhis : List Nat) (s : Surgery) (phi : Nat) : Except Fault Surgery :=
  if !s.graph.isPhi phi then pure s
  else if (s.graph.node phi).mode = .mem then
    if (s.graph.node phi).ins.length ≠ 0 then .error .assertion else pure s
  else do
    let s ← (o.outEdges phi).foldlM (fun s e => pruneTarget fixupPhis phi s e.1) s
    pure (s.setIrnIn phi [])

/-- `prune_block`: the Phis of a copied header, and the block is kept alive no longer. -/
def pruneBlock (fixupPhis : List Nat) (s : Surgery) (block header : Nat) : Except Fault Surgery :=
  if block = header then pure s
  else do
    let s ← (o.outEdges block).foldlM (fun s e => prunePhi o fixupPhis s e.1) s
    pure (s.removeKeepAlive block)

/-- The third loop of `remove_excess_headers`, for the copied header `linkedHeader`: its
in-loop successor takes its predecessors, and its exit edge is dropped. -/
def bypassLinkedHeader (s : Surgery) (linkedHeader : Nat) : Except Fault Surgery := do
  let (some inLoopTarget, some outOfLoopTarget) ← o.getFalseAndTrueTargets linkedHeader
    | .error .assertion
  let inLoopPreds := (s.graph.node linkedHeader).ins
  let s := (s.setIrnIn linkedHeader []).setIrnIn inLoopTarget inLoopPreds
  let outOfLoopBlock := s.graph.getBlock outOfLoopTarget
  let preds := (s.graph.node outOfLoopBlock).ins
  let kept := preds.filter fun pred => s.graph.getBlock pred ≠ linkedHeader
  if preds.length = 0 then .error .assertion
  -- `out_of_loop_preds` has `n - 1` slots, guarded by an assertion
  else if preds.length ≤ kept.length then .error .assertion
  else if kept.length < preds.length - 1 then .error .undefined
  else pure (s.setIrnIn outOfLoopBlock kept)

/-- The `while` loop of `prune_non_loop_variant_links_to_header`: follow the link map from `n`
to a node of the header. -/
def linkToHeader (linkMap : Nat → Option Nat) (header : Nat) : Nat → Nat → Except Fault Nat
  | 0, _ => .error .diverges
  | fuel + 1, n =>
    if o.getBlock n = header then .ok n
    else match linkMap n with
      | some l => linkToHeader linkMap header fuel l
      | none => .error .assertion

/-- `prune_non_loop_variant_links_to_header`: each input from a copied header is replaced by
the node of the header it is linked to. -/
def pruneNonLoopVariantLinksToHeader (linkMap : Nat → Option Nat) (s : Surgery)
    (node header : Nat) : Except Fault Surgery :=
  (List.range (s.graph.node node).ins.length).foldlM (fun s i =>
    let n := s.graph.input node i
    if !(s.graph.getBlock n ∈ s.unrolledHeaders) then pure s
    else do
      let l ← linkToHeader s.graph linkMap header (s.graph.size + 1) n
      pure (s.setIrnN node i l)) s

/-- The loop of `prune_non_loop_variant_links_to_header_switch_header`: an input from a copied
header is removed, and the scan goes on at index 1 (`i = 0` and then `++i`). -/
def pruneSwitchHeaderLinks (node : Nat) : Nat → Nat → Surgery → Except Fault Surgery
  | 0, _, _ => .error .diverges
  | fuel + 1, i, s =>
    if (s.graph.node node).ins.length ≤ i then pure s
    else if !(s.graph.getBlock (s.graph.input node i) ∈ s.unrolledHeaders) then
      pruneSwitchHeaderLinks node fuel (i + 1) s
    else pruneSwitchHeaderLinks node fuel 1 (s.edit (·.removeEdge node i))

/-- `prune_non_loop_variant_links_to_header_switch_header`; every step removes an input or
moves on, so `(arity + 1)²` steps suffice. -/
def pruneNonLoopVariantLinksToHeaderSwitchHeader (s : Surgery) (node : Nat) :
    Except Fault Surgery :=
  let arity := (s.graph.node node).ins.length
  pruneSwitchHeaderLinks node ((arity + 1) * (arity + 1)) 0 s

/-- `remove_excess_headers`. -/
def removeExcessHeaders (s : Surgery) (fixupPhis : List Nat) (header : Nat)
    (switchHeader : Option Nat) (linkMap : Nat → Option Nat) : Except Fault Surgery := do
  let s ← s.unrolledHeaders.foldlM (fun s linkedHeader => do
    let (inLoopTarget, _) ← o.getFalseAndTrueTargets linkedHeader
    match inLoopTarget with
    | some t => rewireMemoryOfExecessHeader o s linkedHeader t
    | none => .error .nullDeref) s
  let s ← s.unrolledHeaders.foldlM (fun s linkedHeader =>
    if linkedHeader = header then pure s else pruneBlock o fixupPhis s linkedHeader header) s
  let s ← s.unrolledHeaders.foldlM (fun s linkedHeader =>
    if linkedHeader = header then pure s else bypassLinkedHeader o s linkedHeader) s
  let s ← s.unrolledNodes.foldlM (fun s block =>
    if block ∈ s.unrolledHeaders then pure s
    else (o.outEdges block).foldlM (fun s (node, _) =>
      if s.graph.getBlock node ≠ block then pure s
      else pruneNonLoopVariantLinksToHeader linkMap s node header) s) s
  match switchHeader with
  | none => pure s
  | some sh => (o.outEdges sh).foldlM (fun s (node, _) =>
      if s.graph.getBlock node ≠ sh then pure s
      else pruneNonLoopVariantLinksToHeaderSwitchHeader s node) s

end ExcessHeaders

section PruneBlock

/-- User `t` is one that `prune_block` leaves with a single input: it lies in a copied block
other than a header, and is not a Phi of the fix-up. -/
def Surgery.InLoopUser (s : Surgery) (fixupPhis : List Nat) (t : Nat) : Prop :=
  s.graph.getBlock t ∈ s.unrolledNodes ∧ s.graph.getBlock t ∉ s.unrolledHeaders ∧ t ∉ fixupPhis

instance (s : Surgery) (fixupPhis : List Nat) (t : Nat) : Decidable (s.InLoopUser fixupPhis t) :=
  inferInstanceAs (Decidable (_ ∧ _ ∧ _))

theorem Surgery.InsEdit.inLoopUser {s s' : Surgery} {fixupPhis : List Nat} {t : Nat}
    (h : s.InsEdit s') : s'.InLoopUser fixupPhis t ↔ s.InLoopUser fixupPhis t := by
  simp only [Surgery.InLoopUser, h.getBlock, h.1, h.2.1]

variable {o : Graph} {fixupPhis : List Nat} {phi t t' : Nat} {s s' : Surgery}

theorem pruneTarget_cases (h : pruneTarget fixupPhis phi s t' = .ok s') :
    s' = s ∨ ∃ ins, s' = s.setIrnIn t' ins := by
  unfold pruneTarget at h
  by_cases h₁ : s.graph.getBlock t' ∈ s.unrolledHeaders ∨ t' ∈ fixupPhis
  · rw [if_pos h₁] at h
    exact .inl (Except.ok.inj h).symm
  rw [if_neg h₁] at h
  by_cases h₂ : s.graph.getBlock t' ∈ s.unrolledNodes
  · rw [if_neg (by simpa using h₂)] at h
    cases hp : prunedInput s phi <;> rw [hp] at h
    · cases h
    · exact .inr ⟨_, (Except.ok.inj h).symm⟩
  rw [if_pos (by simpa using h₂)] at h
  by_cases h₃ : s.graph.isEnd t'
  · rw [if_pos h₃] at h
    cases hk : (s.graph.node t').ins.indexOf? phi <;> rw [hk] at h
    · by_cases h₄ : (s.graph.node t').ins = []
      · rw [if_pos h₄] at h
        exact .inl (Except.ok.inj h).symm
      · rw [if_neg h₄] at h
        cases h
    · exact .inr ⟨_, (Except.ok.inj h).symm⟩
  · rw [if_neg h₃] at h
    simp only at h
    split_ifs at h
    exact .inr ⟨_, (Except.ok.inj h).symm⟩

theorem pruneTarget_of_inLoopUser (h : pruneTarget fixupPhis phi s t = .ok s')
    (huser : s.InLoopUser fixupPhis t) : ∃ x, s' = s.setIrnIn t [x] := by
  obtain ⟨hnodes, hheaders, hfix⟩ := huser
  unfold pruneTarget at h
  rw [if_neg (by simp [hheaders, hfix]), if_neg (by simp [hnodes])] at h
  cases hp : prunedInput s phi <;> rw [hp] at h
  · cases h
  · exact ⟨_, (Except.ok.inj h).symm⟩

theorem pruneTarget_insEdit (h : pruneTarget fixupPhis phi s t' = .ok s') : s.InsEdit s' := by
  rcases pruneTarget_cases h with rfl | ⟨ins, rfl⟩
  · exact Surgery.insEdit_refl _
  · exact Surgery.insEdit_setIrnIn _ _ _

theorem pruneTarget_ins_of_ne (h : pruneTarget fixupPhis phi s t' = .ok s') (hne : t ≠ t') :
    (s'.graph.node t).ins = (s.graph.node t).ins := by
  rcases pruneTarget_cases h with rfl | ⟨ins, rfl⟩
  · rfl
  · exact Surgery.setIrnIn_ins_of_ne _ _ hne

theorem pruneTarget_unary (h : pruneTarget fixupPhis phi s t' = .ok s')
    (huser : s.InLoopUser fixupPhis t) (ht : t' = t ∨ (s.graph.node t).ins.length = 1) :
    (s'.graph.node t).ins.length = 1 := by
  by_cases heq : t' = t
  · subst heq
    obtain ⟨x, rfl⟩ := pruneTarget_of_inLoopUser h huser
    simp [Graph.setIrnIn]
  · rw [pruneTarget_ins_of_ne h (Ne.symm heq)]
    exact ht.resolve_left heq

/-- The users' loop of one Phi leaves a user in the loop with one input, if it had one or is a
user of the Phi. -/
theorem pruneTargets_unary {l : List (Nat × Int)}
    (h : l.foldlM (fun s e => pruneTarget fixupPhis phi s e.1) s = .ok s')
    (huser : s.InLoopUser fixupPhis t) (ht : (s.graph.node t).ins.length = 1 ∨ ∃ j, (t, j) ∈ l) :
    (s'.graph.node t).ins.length = 1 := by
  have hP : ∀ b, ∀ e ∈ l, ∀ b', pruneTarget fixupPhis phi b e.1 = .ok b' →
      s.InsEdit b → s.InsEdit b' := fun _ _ _ _ h hb => hb.trans (pruneTarget_insEdit h)
  have hQ : ∀ b, ∀ e ∈ l, ∀ b', pruneTarget fixupPhis phi b e.1 = .ok b' → s.InsEdit b →
      (b.graph.node t).ins.length = 1 → (b'.graph.node t).ins.length = 1 :=
    fun _ _ _ _ h hb hQ => pruneTarget_unary h (hb.inLoopUser.2 huser) (.inr hQ)
  rcases ht with ht | ⟨j, hj⟩
  · exact (foldlM_invariant (fun b => s.InsEdit b ∧ (b.graph.node t).ins.length = 1) l
      (fun b e he b' h hb => ⟨hP b e he b' h hb.1, hQ b e he b' h hb.1 hb.2⟩) h
      ⟨Surgery.insEdit_refl s, ht⟩).2
  · exact foldlM_reaches hP hQ (fun _ _ h hb => pruneTarget_unary h (hb.inLoopUser.2 huser)
      (.inl rfl)) hj h (Surgery.insEdit_refl s)

/-- What `prune_block` does with one of its nodes: nothing unless it is a Phi other than
memory; otherwise the users' loop, and the Phi is emptied. -/
theorem prunePhi_cases (h : prunePhi o fixupPhis s phi = .ok s') :
    ((s.graph.isPhi phi = false ∨ (s.graph.node phi).mode = .mem) ∧ s' = s) ∨
      (s.graph.isPhi phi = true ∧ (s.graph.node phi).mode ≠ .mem ∧ ∃ s₁,
        (o.outEdges phi).foldlM (fun s e => pruneTarget fixupPhis phi s e.1) s = .ok s₁ ∧
        s' = s₁.setIrnIn phi []) := by
  unfold prunePhi at h
  by_cases hphi : s.graph.isPhi phi
  · rw [if_neg (by simp [hphi])] at h
    by_cases hmem : (s.graph.node phi).mode = .mem
    · rw [if_pos hmem] at h
      split_ifs at h
      exact .inl ⟨.inr hmem, (Except.ok.inj h).symm⟩
    · rw [if_neg hmem] at h
      obtain ⟨s₁, h₁, h₂⟩ := bind_eq_ok h
      exact .inr ⟨hphi, hmem, s₁, h₁, (Except.ok.inj h₂).symm⟩
  · rw [if_pos (by simpa using hphi)] at h
    exact .inl ⟨.inl (by simpa using hphi), (Except.ok.inj h).symm⟩

theorem prunePhi_insEdit (h : prunePhi o fixupPhis s phi = .ok s') : s.InsEdit s' := by
  rcases prunePhi_cases h with ⟨-, rfl⟩ | ⟨-, -, s₁, h₁, rfl⟩
  · exact Surgery.insEdit_refl _
  · exact (foldlM_insEdit (fun _ _ _ _ h => pruneTarget_insEdit h) h₁).trans
      (Surgery.insEdit_setIrnIn _ _ _)

theorem prunePhi_unary (h : prunePhi o fixupPhis s phi = .ok s')
    (huser : s.InLoopUser fixupPhis t) (hne : t ≠ phi)
    (ht : (s.graph.node t).ins.length = 1 ∨ (s.graph.isPhi phi = true ∧
      (s.graph.node phi).mode ≠ .mem ∧ ∃ j, (t, j) ∈ o.outEdges phi)) :
    (s'.graph.node t).ins.length = 1 := by
  rcases prunePhi_cases h with ⟨hskip, rfl⟩ | ⟨-, -, s₁, h₁, rfl⟩
  · refine ht.resolve_right fun ⟨hphi, hmem, _⟩ => ?_
    rcases hskip with hskip | hskip
    · rw [hphi] at hskip; cases hskip
    · exact hmem hskip
  · rw [Surgery.setIrnIn_ins_of_ne _ _ hne]
    exact pruneTargets_unary h₁ huser (ht.imp_right fun h => h.2.2)

theorem pruneBlock_in_loop_user_unary {block header phi target : Nat} {i j : Int}
    (hrun : pruneBlock o fixupPhis s block header = .ok s') (hne : block ≠ header)
    (hphi : (phi, i) ∈ o.outEdges block) (hisPhi : s.graph.isPhi phi = true)
    (hmode : (s.graph.node phi).mode ≠ .mem) (htarget : (target, j) ∈ o.outEdges phi)
    (huser : s.InLoopUser fixupPhis target) (hend : s.graph.isEnd target = false)
    (hblock : ∀ e ∈ o.outEdges block, e.1 ≠ target) :
    (s'.graph.node target).ins.length = 1 := by
  unfold pruneBlock at hrun
  rw [if_neg hne] at hrun
  obtain ⟨s₁, hfold, hs'⟩ := bind_eq_ok hrun
  cases Except.ok.inj hs'
  have hP : ∀ b, ∀ e ∈ o.outEdges block, ∀ b', prunePhi o fixupPhis b e.1 = .ok b' →
      s.InsEdit b → s.InsEdit b' := fun _ _ _ _ h hb => hb.trans (prunePhi_insEdit h)
  have hs₁ : s.InsEdit s₁ := foldlM_insEdit (fun _ _ _ _ h => prunePhi_insEdit h) hfold
  rw [Surgery.removeKeepAlive_ins _ _ (by rw [hs₁.isEnd]; exact hend)]
  refine foldlM_reaches (Q := fun b => (b.graph.node target).ins.length = 1) hP
    (fun b e he b' h hb hQ => prunePhi_unary h (hb.inLoopUser.2 huser)
      (fun heq => hblock e he heq.symm) (.inl hQ))
    (fun b b' h hb => prunePhi_unary h (hb.inLoopUser.2 huser)
      (fun heq => hblock _ hphi heq.symm)
      (.inr ⟨hb.isPhi _ ▸ hisPhi, hb.mode _ ▸ hmode, j, htarget⟩)) hphi hfold
    (Surgery.insEdit_refl s)

/-- Copied header 0, whose Phi 1 is read by the `Add` 4 of the copied body 3: the `Add`
keeps the constant 2 only. -/
theorem pruneBlock_add_loses_operand :
    let s : Surgery :=
      ⟨⟨5, fun
          | 0 => ⟨.block, .other, 0, []⟩
          | 1 => ⟨.phi, .int, 0, [2]⟩
          | 2 => ⟨.const 1, .int, 0, []⟩
          | 3 => ⟨.block, .other, 3, []⟩
          | _ => ⟨.add, .int, 3, [1, 2]⟩,
        1, fun _ => 0, fun _ => [], fun _ => none, fun _ => none⟩, fun _ => none, [0, 3], [0]⟩
    pruneBlock s.graph [] s 0 9 = .ok ((s.setIrnIn 4 [2]).setIrnIn 1 []) ∧
      (((s.setIrnIn 4 [2]).setIrnIn 1 []).graph.node 4).ins.length = 1 := by
  intro s
  have hrun : pruneBlock s.graph [] s 0 9 = .ok ((s.setIrnIn 4 [2]).setIrnIn 1 []) := rfl
  have hphi : ((1 : Nat), (-1 : Int)) ∈ s.graph.outEdges 0 := by decide
  exact ⟨hrun, pruneBlock_in_loop_user_unary (j := 0) hrun (by decide) hphi (by decide)
    (by decide) (by decide) (by decide) (by decide) (by decide)⟩

end PruneBlock

section Frame

variable {o : Graph} {s s' : Surgery}

theorem removeNodeFromSuccIns_insEdit {node : Nat} (h : removeNodeFromSuccIns o s node = .ok s') :
    s.InsEdit s' := by
  refine foldlM_insEdit (fun b e _ b' hb => ?_) h
  dsimp only at hb
  split_ifs at hb
  · cases Except.ok.inj hb; exact b.insEdit_removeKeepAlive _
  · cases Except.ok.inj hb; exact b.insEdit_setIrnIn _ _

theorem rewireMemoryOfExecessHeader_insEdit {linkedHeader targetBlock : Nat}
    (h : rewireMemoryOfExecessHeader o s linkedHeader targetBlock = .ok s') : s.InsEdit s' := by
  refine foldlM_insEdit (fun b e _ b' hb => ?_) h
  dsimp only at hb
  split_ifs at hb
  · cases Except.ok.inj hb; exact b.insEdit_refl
  · obtain ⟨b₁, hb₁, hb⟩ := bind_eq_ok hb
    refine (removeNodeFromSuccIns_insEdit hb₁).trans ?_
    split at hb
    · cases hb
    · cases Except.ok.inj hb; exact (b₁.insEdit_setIrnIn _ _).trans (Surgery.insEdit_setIrnIn _ _ _)

theorem pruneBlock_insEdit {fixupPhis : List Nat} {block header : Nat}
    (h : pruneBlock o fixupPhis s block header = .ok s') : s.InsEdit s' := by
  refine insEdit_of_ite_pure (fun h => ?_) h
  obtain ⟨s₁, h₁, h⟩ := bind_eq_ok h
  cases Except.ok.inj h
  exact (foldlM_insEdit (fun _ _ _ _ hb => prunePhi_insEdit hb) h₁).trans
    (Surgery.insEdit_removeKeepAlive _ _)

theorem bypassLinkedHeader_insEdit {linkedHeader : Nat}
    (h : bypassLinkedHeader o s linkedHeader = .ok s') : s.InsEdit s' := by
  obtain ⟨_, -, h⟩ := bind_eq_ok h
  split at h
  · dsimp only at h
    split_ifs at h
    cases Except.ok.inj h
    exact ((s.insEdit_setIrnIn _ _).trans (Surgery.insEdit_setIrnIn _ _ _)).trans
      (Surgery.insEdit_setIrnIn _ _ _)
  · cases h

theorem pruneNonLoopVariantLinksToHeader_insEdit {linkMap : Nat → Option Nat} {node header : Nat}
    (h : pruneNonLoopVariantLinksToHeader linkMap s node header = .ok s') : s.InsEdit s' :=
  foldlM_insEdit (fun b _ _ b' hb => insEdit_of_ite_pure (fun hb => by
    obtain ⟨_, -, hb⟩ := bind_eq_ok hb
    cases Except.ok.inj hb
    exact b.insEdit_setIrnN _ _ _) hb) h

theorem pruneSwitchHeaderLinks_insEdit {node : Nat} :
    ∀ {fuel i : Nat} {s s' : Surgery}, pruneSwitchHeaderLinks node fuel i s = .ok s' → s.InsEdit s'
  | 0, _, _, _, h => by cases h
  | fuel + 1, i, s, s', h => by
    unfold pruneSwitchHeaderLinks at h
    split_ifs at h
    · cases Except.ok.inj h; exact s.insEdit_refl
    · exact pruneSwitchHeaderLinks_insEdit h
    · exact (s.insEdit_removeEndN _ _).trans (pruneSwitchHeaderLinks_insEdit h)

theorem removeExcessHeaders_insEdit {fixupPhis : List Nat} {header : Nat}
    {switchHeader : Option Nat} {linkMap : Nat → Option Nat}
    (h : removeExcessHeaders o s fixupPhis header switchHeader linkMap = .ok s') : s.InsEdit s' := by
  obtain ⟨s₁, h₁, h⟩ := bind_eq_ok h
  obtain ⟨s₂, h₂, h⟩ := bind_eq_ok h
  obtain ⟨s₃, h₃, h⟩ := bind_eq_ok h
  obtain ⟨s₄, h₄, h⟩ := bind_eq_ok h
  have e₁ : s.InsEdit s₁ := foldlM_insEdit (fun b _ _ b' hb => by
    obtain ⟨⟨_ | _, _⟩, -, hb⟩ := bind_eq_ok hb
    · cases hb
    · exact rewireMemoryOfExecessHeader_insEdit hb) h₁
  have e₂ : s₁.InsEdit s₂ :=
    foldlM_insEdit (fun _ _ _ _ hb => insEdit_of_ite_pure pruneBlock_insEdit hb) h₂
  have e₃ : s₂.InsEdit s₃ :=
    foldlM_insEdit (fun _ _ _ _ hb => insEdit_of_ite_pure bypassLinkedHeader_insEdit hb) h₃
  have e₄ : s₃.InsEdit s₄ := foldlM_insEdit (fun _ _ _ _ hb => insEdit_of_ite_pure
    (foldlM_insEdit fun _ _ _ _ hc => insEdit_of_ite_pure pruneNonLoopVariantLinksToHeader_insEdit hc)
    hb) h₄
  refine e₁.trans (e₂.trans (e₃.trans (e₄.trans ?_)))
  split at h
  · cases Except.ok.inj h; exact Surgery.insEdit_refl _
  · exact foldlM_insEdit (fun _ _ _ _ hb => insEdit_of_ite_pure pruneSwitchHeaderLinks_insEdit hb) h

end Frame

end LibFirm.Ir
