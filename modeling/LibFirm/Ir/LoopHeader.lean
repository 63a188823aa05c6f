import LibFirm.Ir.LoopNest

/-!
# The header of a loop

`get_loop_header` takes the first block element of a loop, climbs the dominator tree while the
immediate dominator is a block of the loop or of a loop nested in it, and returns the block it
stops at if that block dominates every block of the loop and of its nested loops, and `NULL`
otherwise. With dominance information and a loop tree consistent with the control-flow graph,
the climb stops at the block of the loop that dominates the loop whenever there is one, since
every block on the dominator tree between two blocks of the loop lies in the loop.
-/

namespace LibFirm.Ir

namespace Graph

variable (g : Graph)

/-- A control-flow edge from block `p` to block `b`: an input of `b` lies in `p`. -/
def CfEdge (p b : Nat) : Prop := g.op b = .block ∧ ∃ x ∈ (g.node b).ins, g.getBlock x = p

/-- `b` is reachable from the start block. -/
def Reachable (start b : Nat) : Prop := Relation.ReflTransGen g.CfEdge start b

/-- A path of control flow from the start block to `b` that meets no block `a`. -/
inductive Avoids (g : Graph) (start a : Nat) : Nat → Prop
  | start : start ≠ a → Avoids g start a start
  | step {p b : Nat} : Avoids g start a p → g.CfEdge p b → b ≠ a → Avoids g start a b

/-- `a` dominates `b`: every path of control flow from the start block to `b` meets `a`. -/
def Dominates (start a b : Nat) : Prop := ¬ g.Avoids start a b

/-- `a` is `b` or an ancestor of `b` in the dominator tree. -/
def IdomChain (b a : Nat) : Prop := Relation.ReflTransGen (fun x y => g.idom x = some y) b a

/-- Consistent dominance information: the dominator tree gives the dominance of paths on the
reachable blocks, and `get_Block_dom_depth` falls along it. -/
structure DomInfo (start : Nat) : Prop where
  idom_iff : ∀ b, g.Reachable start b → ∀ a, g.IdomChain b a ↔ g.Dominates start a b
  depth : ∃ depth : Nat → Nat, (∀ x < g.size, depth x < g.size) ∧
    ∀ x y, g.idom x = some y → depth y < depth x ∧ y < g.size

/-- A consistent loop tree of the blocks reachable from `start`. -/
structure LoopTree (start : Nat) : Prop where
  outer_lt : ∀ l < g.nLoops, g.loopOuter l < g.nLoops
  /-- A block in a loop is a reachable node of the graph, and every reachable block is in one. -/
  blockLoop_some : ∀ b l, g.blockLoop b = some l → l < g.nLoops ∧ b < g.size ∧ g.Reachable start b
  covers : ∀ b, g.Reachable start b → ∃ l, g.blockLoop b = some l
  /-- A loop lists the blocks whose innermost loop it is and the loops nested directly in it. -/
  block_mem : ∀ l < g.nLoops, ∀ b, .block b ∈ g.loopElements l ↔ g.blockLoop b = some l
  son_mem : ∀ l < g.nLoops, ∀ l', .son l' ∈ g.loopElements l ↔ l' < g.nLoops ∧ g.OuterStep l' l
  /-- `get_loop_depth` is below the number of loops and grows inwards. -/
  depth : ∃ depth : Nat → Nat, ∀ l < g.nLoops, depth l < g.nLoops ∧
    (g.loopOuter l ≠ l → depth (g.loopOuter l) < depth l)
  /-- The root is the one loop that is its own outer loop. -/
  root : ∃ r < g.nLoops, ∀ l < g.nLoops, g.loopOuter l = l ↔ l = r
  /-- The blocks of a loop other than the root are strongly connected among themselves. -/
  connected : ∀ L < g.nLoops, g.loopOuter L ≠ L → ∀ x y, g.InLoop x L → g.InLoop y L →
    Relation.ReflTransGen (fun p q => g.CfEdge p q ∧ g.InLoop q L) x y

section DomTree

variable {g} {depth : Nat → Nat}

theorem IdomChain.depth_le (hd : ∀ x y, g.idom x = some y → depth y < depth x) {b a : Nat}
    (h : g.IdomChain b a) : depth a ≤ depth b ∧ (a ≠ b → depth a < depth b) := by
  induction h with
  | refl => exact ⟨le_rfl, fun h => absurd rfl h⟩
  | tail _ hy ih =>
    have := hd _ _ hy
    exact ⟨by omega, fun _ => by omega⟩

theorem IdomChain.antisymm (hd : ∀ x y, g.idom x = some y → depth y < depth x) {a b : Nat}
    (h₁ : g.IdomChain b a) (h₂ : g.IdomChain a b) : a = b := by
  by_contra hne
  have := (h₁.depth_le hd).2 hne
  have := (h₂.depth_le hd).1
  omega

theorem IdomChain.strict {b a : Nat} (h : g.IdomChain b a) (hne : a ≠ b) :
    ∃ p, g.idom b = some p ∧ g.IdomChain p a := by
  rcases Relation.ReflTransGen.cases_head h with rfl | ⟨p, hp, h⟩
  exacts [absurd rfl hne, ⟨p, hp, h⟩]

theorem IdomChain.total {b x y : Nat} (hx : g.IdomChain b x) (hy : g.IdomChain b y) :
    g.IdomChain x y ∨ g.IdomChain y x := by
  induction hx with
  | refl => exact .inl hy
  | tail _ hxz ih =>
    rcases ih with h | h
    · rcases Relation.ReflTransGen.cases_head h with rfl | ⟨p, hp, h⟩
      · exact .inr (.single hxz)
      · rw [hxz] at hp
        cases hp
        exact .inl h
    · exact .inr (h.tail hxz)

/-- `block_dominates` walks the chain of immediate dominators, with fuel above the depth. -/
theorem blockDominates_iff (hd : ∀ x y, g.idom x = some y → depth y < depth x) (a : Nat) :
    ∀ (fuel b : Nat), depth b < fuel → (g.blockDominates a fuel b = true ↔ g.IdomChain b a)
  | 0, _, h => absurd h (Nat.not_lt_zero _)
  | fuel + 1, b, hfuel => by
    rw [IdomChain, Relation.ReflTransGen.cases_head_iff]
    simp only [blockDominates, Bool.or_eq_true, beq_iff_eq]
    cases hb : g.idom b with
    | none => simp [eq_comm]
    | some p =>
      have := hd b p hb
      rw [blockDominates_iff hd a fuel p (by omega)]
      simp [eq_comm, IdomChain]

end DomTree

section Loops

variable {g} {start : Nat} {ldepth : Nat → Nat}

theorem inLoop_cases (hloop : g.LoopTree start) {b L : Nat} (h : g.InLoop b L) :
    g.blockLoop b = some L ∨ ∃ l < g.nLoops, g.OuterStep l L ∧ g.InLoop b l := by
  obtain ⟨l', hb, hl'⟩ := h
  rcases Relation.ReflTransGen.cases_tail hl' with rfl | ⟨l, hl, hs⟩
  exacts [.inl hb, .inr ⟨l, lt_of_outerSteps hloop.outer_lt (hloop.blockLoop_some b l' hb).1 hl, hs, l', hb, hl⟩]

/-- `block_dominates_loop(block, L)` tests every block of `L` and of its nested loops, with fuel
above the depth of the loop tree below `L`. -/
theorem blockDominatesLoop_iff (hloop : g.LoopTree start)
    (hld : ∀ l < g.nLoops, ldepth l < g.nLoops ∧ (g.loopOuter l ≠ l → ldepth (g.loopOuter l) < ldepth l))
    (block : Nat) : ∀ (fuel L : Nat), L < g.nLoops → g.nLoops ≤ fuel + ldepth L →
      (g.blockDominatesLoop block fuel L = true ↔ ∀ b, g.InLoop b L → g.blockDominates block g.size b = true)
  | 0, L, hL, hfuel => absurd hfuel (by have := (hld L hL).1; omega)
  | fuel + 1, L, hL, hfuel => by
    have hson : ∀ l, l < g.nLoops → g.OuterStep l L → g.nLoops ≤ fuel + ldepth l := fun l hl hs => by
      have := (hld l hl).2 fun h => hs.2 (h.symm.trans hs.1)
      rw [hs.1] at this
      omega
    simp only [blockDominatesLoop, List.all_eq_true]
    constructor
    · intro h b hb
      rcases inLoop_cases hloop hb with hbl | ⟨l, hl, hs, hbl⟩
      · exact h (.block b) ((hloop.block_mem L hL b).mpr hbl)
      · exact (blockDominatesLoop_iff hloop hld block fuel l hl (hson l hl hs)).mp
          (h (.son l) ((hloop.son_mem L hL l).mpr ⟨hl, hs⟩)) b hbl
    · rintro h (b | l) hx
      · exact h b ⟨L, (hloop.block_mem L hL b).mp hx, .refl⟩
      · obtain ⟨hl, hs⟩ := (hloop.son_mem L hL l).mp hx
        exact (blockDominatesLoop_iff hloop hld block fuel l hl (hson l hl hs)).mpr
          fun b ⟨l', hb, hl'⟩ => h b ⟨l', hb, hl'.tail hs⟩

theorem outerSteps_root (hloop : g.LoopTree start)
    (hld : ∀ l < g.nLoops, ldepth l < g.nLoops ∧ (g.loopOuter l ≠ l → ldepth (g.loopOuter l) < ldepth l))
    {L : Nat} (hL : L < g.nLoops) (hroot : g.loopOuter L = L) :
    ∀ (n l : Nat), ldepth l < n → l < g.nLoops → Relation.ReflTransGen g.OuterStep l L
  | 0, _, h, _ => absurd h (Nat.not_lt_zero _)
  | n + 1, l, hn, hl => by
    by_cases hr : g.loopOuter l = l
    · obtain ⟨r, -, hiff⟩ := hloop.root
      rw [(hiff l hl).mp hr, ← (hiff L hL).mp hroot]
    · have := (hld l hl).2 hr
      exact .head ⟨rfl, Ne.symm hr⟩
        (outerSteps_root hloop hld hL hroot n _ (by omega) (hloop.outer_lt l hl))

theorem LoopTree.nesting (hloop : g.LoopTree start) : g.Nesting := by
  obtain ⟨ldepth, hld⟩ := hloop.depth
  obtain ⟨r, hr, hiff⟩ := hloop.root
  have hroot := (hiff r hr).mpr rfl
  exact ⟨hloop.outer_lt, ⟨r, hr, hroot,
    fun l hl => outerSteps_root hloop hld hr hroot _ l (Nat.lt_succ_self _) hl⟩,
    fun b l h => (hloop.blockLoop_some b l h).1⟩

end Loops

section Paths

variable {g} {start : Nat}

theorem reachable_of_dominates {a b : Nat} (hb : g.Reachable start b) (h : g.Dominates start a b) :
    g.Reachable start a := by
  by_contra ha
  refine h ?_
  clear h
  induction hb with
  | refl => exact .start fun e => ha (by rw [← e]; exact .refl)
  | tail hp hq ih => exact .step ih hq fun e => ha (by rw [← e]; exact hp.tail hq)

theorem Avoids.along {P : Nat → Prop} {a x y : Nat} (hx : g.Avoids start a x)
    (h : Relation.ReflTransGen (fun p q => g.CfEdge p q ∧ P q) x y) (hP : ∀ q, P q → q ≠ a) :
    g.Avoids start a y := by
  induction h with
  | refl => exact hx
  | tail _ hq ih => exact .step ih hq.1 (hP _ hq.2)

end Paths

section Header

variable {g} {start : Nat} {depth ldepth : Nat → Nat}

/-- The walk of `get_loop_header` starts from a block of the loop when the loop has a block
element. -/
theorem firstBlock_spec (hloop : g.LoopTree start) {L : Nat} (hL : L < g.nLoops)
    (hblock : ∃ b, .block b ∈ g.loopElements L) : ∃ b₀, g.firstBlock L = some b₀ ∧ g.InLoop b₀ L := by
  obtain ⟨b, hb⟩ := hblock
  cases hf : g.firstBlock L with
  | none => exact absurd (List.findSome?_eq_none_iff.mp hf (.block b) hb) (by simp)
  | some b₀ =>
    obtain ⟨x, hx, hxb⟩ := List.exists_of_findSome?_eq_some hf
    cases x with
    | block b' =>
      simp only [Option.some.injEq] at hxb
      subst hxb
      exact ⟨b', rfl, L, (hloop.block_mem L hL b').mp hx, .refl⟩
    | son _ => cases hxb

/-- The climb of `get_loop_header` from a block of `L` stops at an ancestor whose immediate
dominator, if any, is not in `L`, having passed only blocks of `L`. -/
theorem climbIdom_spec (hnest : g.Nesting) (hd : ∀ x y, g.idom x = some y → depth y < depth x) (L : Nat) :
    ∀ (fuel b : Nat), g.InLoop b L → depth b < fuel → ∃ h, g.climbIdom L fuel b = .ok h ∧
      g.IdomChain b h ∧ (∀ c, g.IdomChain b c → g.IdomChain c h → g.InLoop c L) ∧
      ∀ p, g.idom h = some p → ¬ g.InLoop p L
  | 0, _, _, h => absurd h (Nat.not_lt_zero _)
  | fuel + 1, b, hb, hfuel => by
    have hstay : ∀ c, g.IdomChain b c → g.IdomChain c b → g.InLoop c L := fun c hbc hcb => by
      rw [hbc.antisymm hd hcb]; exact hb
    cases hp : g.idom b with
    | none => exact ⟨b, by simp [climbIdom, hp], .refl, hstay, by simp [hp]⟩
    | some p =>
      by_cases hin : g.InLoop p L
      · have := hd b p hp
        obtain ⟨h, hc, hph, hall, hstop⟩ := climbIdom_spec hnest hd L fuel p hin (by omega)
        refine ⟨h, by simp [climbIdom, hp, (blockIsInsideLoop_iff hnest p L).mpr hin, hc],
          .head hp hph, fun c hbc hch => ?_, hstop⟩
        by_cases hcb : c = b
        · exact hcb ▸ hb
        · obtain ⟨p', hp', hpc⟩ := hbc.strict hcb
          rw [hp, Option.some.injEq] at hp'
          exact hall c (hp' ▸ hpc) hch
      · have hout : g.blockIsInsideLoop p L = false :=
          Bool.eq_false_iff.mpr fun h => hin ((blockIsInsideLoop_iff hnest p L).mp h)
        exact ⟨b, by simp [climbIdom, hp, hout], .refl, hstay,
          fun p' hp' => by rw [hp, Option.some.injEq] at hp'; exact hp' ▸ hin⟩

theorem inLoop_of_idomChain (hdom : g.DomInfo start) (hloop : g.LoopTree start)
    (hld : ∀ l < g.nLoops, ldepth l < g.nLoops ∧ (g.loopOuter l ≠ l → ldepth (g.loopOuter l) < ldepth l))
    (hd : ∀ x y, g.idom x = some y → depth y < depth x) {L h b c : Nat} (hL : L < g.nLoops)
    (hh : g.InLoop h L) (hb : g.InLoop b L) (hbc : g.IdomChain b c) (hch : g.IdomChain c h) : g.InLoop c L := by
  have hreach : ∀ x, g.InLoop x L → g.Reachable start x := fun x ⟨l, hx, _⟩ =>
    (hloop.blockLoop_some x l hx).2.2
  have hcb : g.Dominates start c b := (hdom.idom_iff b (hreach b hb) c).mp hbc
  by_cases hroot : g.loopOuter L = L
  · obtain ⟨l, hl⟩ := hloop.covers c (reachable_of_dominates (hreach b hb) hcb)
    have hlt := (hloop.blockLoop_some c l hl).1
    exact ⟨l, hl, outerSteps_root hloop hld hL hroot _ l (Nat.lt_succ_self _) hlt⟩
  · by_contra hc
    have havoid : g.Avoids start c h := Classical.byContradiction fun hdom' =>
      hc ((((hdom.idom_iff h (hreach h hh) c).mpr hdom').antisymm hd hch) ▸ hh)
    exact hcb (havoid.along (hloop.connected L hL hroot h b hh hb) fun q hq e => hc (e ▸ hq))

theorem get_loop_header_iff (hdom : g.DomInfo start) (hloop : g.LoopTree start) {L : Nat}
    (hL : L < g.nLoops) (hblock : ∃ b, .block b ∈ g.loopElements L) :
    ∃ r, g.getLoopHeader L = .ok r ∧
      ∀ h, r = some h ↔ g.InLoop h L ∧ ∀ b, g.InLoop b L → g.Dominates start h b := by
  obtain ⟨depth, hdsize, hd'⟩ := hdom.depth
  have hd : ∀ x y, g.idom x = some y → depth y < depth x := fun x y h => (hd' x y h).1
  obtain ⟨ldepth, hld⟩ := hloop.depth
  have hreach : ∀ x, g.InLoop x L → g.Reachable start x ∧ x < g.size := fun x ⟨l, hx, _⟩ =>
    ⟨(hloop.blockLoop_some x l hx).2.2, (hloop.blockLoop_some x l hx).2.1⟩
  obtain ⟨b₀, hfirst, hb₀⟩ := firstBlock_spec hloop hL hblock
  obtain ⟨h₀, hclimb, hb₀h₀, hall, hstop⟩ :=
    climbIdom_spec hloop.nesting hd L g.size b₀ hb₀ (hdsize _ (hreach b₀ hb₀).2)
  have hh₀ : g.InLoop h₀ L := hall h₀ hb₀h₀ .refl
  -- `block_dominates_loop` is the dominance of paths over the loop
  have hbdl : g.blockDominatesLoop h₀ g.nLoops L = true ↔
      ∀ b, g.InLoop b L → g.Dominates start h₀ b := by
    rw [blockDominatesLoop_iff hloop hld h₀ g.nLoops L hL (by omega)]
    refine forall₂_congr fun b hb => ?_
    rw [blockDominates_iff hd h₀ g.size b (hdsize b (hreach b hb).2), hdom.idom_iff b (hreach b hb).1]
  -- a block of the loop that dominates it is where the climb stops
  have hunique : ∀ h, g.InLoop h L → (∀ b, g.InLoop b L → g.Dominates start h b) → h = h₀ :=
    fun h hh hdomL => by
      have hb₀h : g.IdomChain b₀ h := (hdom.idom_iff b₀ (hreach b₀ hb₀).1 h).mpr (hdomL b₀ hb₀)
      rcases hb₀h.total hb₀h₀ with hhh₀ | hh₀h
      · exact ((hdom.idom_iff h₀ (hreach h₀ hh₀).1 h).mpr (hdomL h₀ hh₀)).antisymm hd hhh₀
      · by_contra hne
        obtain ⟨p, hp, hph⟩ := hh₀h.strict hne
        exact hstop p hp (inLoop_of_idomChain hdom hloop hld hd hL hh hb₀ (hb₀h₀.tail hp) hph)
  refine ⟨if g.blockDominatesLoop h₀ g.nLoops L then some h₀ else none,
    by simp only [getLoopHeader, hfirst, hclimb, bind, Except.bind, pure, Except.pure], fun h => ?_⟩
  by_cases hdl : g.blockDominatesLoop h₀ g.nLoops L = true
  · simp only [hdl, if_true, Option.some.injEq]
    exact ⟨fun e => e ▸ ⟨hh₀, hbdl.mp hdl⟩, fun ⟨hh, hdomL⟩ => (hunique h hh hdomL).symm⟩
  · simp only [hdl, Bool.false_eq_true, if_false, reduceCtorEq, false_iff]
    exact fun ⟨hh, hdomL⟩ => hdl (hbdl.mpr (hunique h hh hdomL ▸ hdomL))

end Header

end Graph

/-- A `while` loop: the start block 0 jumps to the header 1 (Jmp 3), the header to the body 2
(node 5), and the body back to the header (Jmp 4). The loop tree has the root 0 with block 0
and the loop 1, which lists the body before the header. -/
def whileLoop : Graph where
  size := 6
  node := fun
    | 0 => ⟨.block, .ctrl, 0, []⟩
    | 1 => ⟨.block, .ctrl, 1, [3, 4]⟩
    | 2 => ⟨.block, .ctrl, 2, [5]⟩
    | 3 => ⟨.jmp, .ctrl, 0, []⟩
    | 4 => ⟨.jmp, .ctrl, 2, []⟩
    | 5 => ⟨.jmp, .ctrl, 1, []⟩
    | _ => ⟨.other, .other, 0, []⟩
  nLoops := 2
  loopOuter := fun _ => 0
  loopElements := fun
    | 0 => [.block 0, .son 1]
    | 1 => [.block 2, .block 1]
    | _ => []
  blockLoop := fun
    | 0 => some 0
    | 1 => some 1
    | 2 => some 1
    | _ => none
  idom := fun
    | 1 => some 0
    | 2 => some 1
    | _ => none

namespace WhileLoop

theorem cfEdge_iff {p b : Nat} :
    whileLoop.CfEdge p b ↔ p = 0 ∧ b = 1 ∨ p = 2 ∧ b = 1 ∨ p = 1 ∧ b = 2 := by
  have hmap : (∃ x ∈ (whileLoop.node b).ins, whileLoop.getBlock x = p) ↔
      p ∈ (whileLoop.node b).ins.map whileLoop.getBlock := by simp only [List.mem_map, eq_comm]
  rw [Graph.CfEdge, hmap]
  rcases b with _ | _ | _ | b
  · show _ ∧ p ∈ ([] : List Nat) ↔ _
    simp
  · show Opcode.block = .block ∧ p ∈ [0, 2] ↔ _
    simp
  · show Opcode.block = .block ∧ p ∈ [1] ↔ _
    simp
  · have hop : whileLoop.op (b + 3) ≠ .block := by rcases b with _ | _ | _ | b <;> nofun
    simp only [hop, false_and, false_iff]
    omega

theorem reachable_le {b : Nat} (h : whileLoop.Reachable 0 b) : b ≤ 2 := by
  induction h with
  | refl => exact Nat.zero_le _
  | tail _ he => rcases cfEdge_iff.mp he with ⟨-, rfl⟩ | ⟨-, rfl⟩ | ⟨-, rfl⟩ <;> decide

theorem reachable_of_le {b : Nat} (h : b ≤ 2) : whileLoop.Reachable 0 b := by
  have h₁ : whileLoop.Reachable 0 1 := .single (cfEdge_iff.mpr (.inl ⟨rfl, rfl⟩))
  rcases b with _ | _ | _ | b
  exacts [.refl, h₁, h₁.tail (cfEdge_iff.mpr (.inr (.inr ⟨rfl, rfl⟩))), by omega]

theorem avoids_iff {a b : Nat} :
    whileLoop.Avoids 0 a b ↔ a ≠ 0 ∧ (b = 0 ∨ a ≠ 1 ∧ (b = 1 ∨ a ≠ 2 ∧ b = 2)) := by
  constructor
  · intro h
    induction h with
    | start h => exact ⟨Ne.symm h, .inl rfl⟩
    | step _ he hb ih => rcases cfEdge_iff.mp he with ⟨rfl, rfl⟩ | ⟨rfl, rfl⟩ | ⟨rfl, rfl⟩ <;> omega
  · rintro ⟨ha₀, rfl | ⟨ha₁, rfl | ⟨ha₂, rfl⟩⟩⟩
    · exact .start (Ne.symm ha₀)
    · exact .step (.start (Ne.symm ha₀)) (cfEdge_iff.mpr (.inl ⟨rfl, rfl⟩)) (Ne.symm ha₁)
    · exact .step (.step (.start (Ne.symm ha₀)) (cfEdge_iff.mpr (.inl ⟨rfl, rfl⟩)) (Ne.symm ha₁))
        (cfEdge_iff.mpr (.inr (.inr ⟨rfl, rfl⟩))) (Ne.symm ha₂)

theorem idomChain_iff {b a : Nat} (hb : b ≤ 2) : whileLoop.IdomChain b a ↔ a ≤ b := by
  constructor
  · intro h
    induction h with
    | refl => exact le_rfl
    | tail _ hy ih =>
      rename_i x y _
      rcases x with _ | _ | _ | x <;> cases hy <;> omega
  · intro h
    have h₁ : whileLoop.IdomChain 1 0 := .single rfl
    have h₂ : whileLoop.IdomChain 2 1 := .single rfl
    rcases b with _ | _ | _ | b <;> rcases a with _ | _ | _ | a <;>
      first | omega | exact .refl | exact h₁ | exact h₂ | exact h₂.trans h₁

theorem domInfo : whileLoop.DomInfo 0 where
  idom_iff b hb a := by
    rw [idomChain_iff (reachable_le hb), Graph.Dominates, avoids_iff]
    have := reachable_le hb
    omega
  depth := ⟨id, fun _ h => h, fun x y h => by rcases x with _ | _ | _ | x <;> cases h <;> decide⟩

theorem inLoop_one_iff {x : Nat} : whileLoop.InLoop x 1 ↔ x = 1 ∨ x = 2 := by
  have hsteps : ∀ l, Relation.ReflTransGen whileLoop.OuterStep l 1 ↔ l = 1 := fun l =>
    ⟨fun h => ((Relation.ReflTransGen.cases_tail h).resolve_right
      (by rintro ⟨m, -, h, -⟩; cases h)).symm, fun h => h ▸ .refl⟩
  simp only [Graph.InLoop, hsteps, exists_eq_right]
  rcases x with _ | _ | _ | x
  exacts [by decide, by decide, by decide, iff_of_false nofun (by omega)]

theorem loopTree : whileLoop.LoopTree 0 where
  outer_lt _ _ := Nat.zero_lt_two
  blockLoop_some b l h := by
    rcases b with _ | _ | _ | b <;> cases h <;> exact ⟨by decide, by decide, reachable_of_le (by decide)⟩
  covers b hb := by
    have := reachable_le hb
    rcases b with _ | _ | _ | b
    exacts [⟨0, rfl⟩, ⟨1, rfl⟩, ⟨1, rfl⟩, by omega]
  block_mem l hl b := by
    dsimp only [whileLoop] at hl ⊢
    rcases l with _ | _ | l
    · rcases b with _ | _ | _ | b <;> simp
    · rcases b with _ | _ | _ | b <;> simp
    · omega
  son_mem l hl l' := by
    dsimp only [whileLoop, Graph.OuterStep] at hl ⊢
    rcases l with _ | _ | l <;> simp
    all_goals omega
  depth := ⟨id, fun l hl => ⟨hl, fun h => Nat.pos_of_ne_zero (Ne.symm h)⟩⟩
  root := ⟨0, by decide, fun _ _ => eq_comm⟩
  connected L hL hroot x y hx hy := by
    obtain rfl : L = 1 := by
      dsimp only [whileLoop] at hL hroot
      omega
    have e₁₂ : whileLoop.CfEdge 1 2 ∧ whileLoop.InLoop 2 1 :=
      ⟨cfEdge_iff.mpr (.inr (.inr ⟨rfl, rfl⟩)), inLoop_one_iff.mpr (.inr rfl)⟩
    have e₂₁ : whileLoop.CfEdge 2 1 ∧ whileLoop.InLoop 1 1 :=
      ⟨cfEdge_iff.mpr (.inr (.inl ⟨rfl, rfl⟩)), inLoop_one_iff.mpr (.inl rfl)⟩
    rcases inLoop_one_iff.mp hx with rfl | rfl <;> rcases inLoop_one_iff.mp hy with rfl | rfl
    exacts [.refl, .single e₁₂, .single e₂₁, .refl]

end WhileLoop

/-- The header of the `while` loop, found from its body. -/
theorem get_loop_header_while : whileLoop.DomInfo 0 ∧ whileLoop.LoopTree 0 ∧
    ∃ r, whileLoop.getLoopHeader 1 = .ok r ∧
      ∀ h, r = some h ↔ whileLoop.InLoop h 1 ∧ ∀ b, whileLoop.InLoop b 1 → whileLoop.Dominates 0 h b :=
  ⟨WhileLoop.domInfo, WhileLoop.loopTree,
    whileLoop.get_loop_header_iff WhileLoop.domInfo WhileLoop.loopTree (by decide) ⟨2, by decide⟩⟩

example : whileLoop.getLoopHeader 1 = .ok (some 1) := by decide

end LibFirm.Ir
