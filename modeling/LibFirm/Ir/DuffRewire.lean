import LibFirm.Ir.ExcessHeaders

/-!
# The rewiring of `unroll_loop_duff`

With the loop fix-up, `unroll_loop_duff` runs `create_fixup_loop`, `rewire_loop` and
`remove_excess_headers`, asking for the analyses again between them, and then
`update_header_condition`. The analyses are library code: the loop tree and the dominators they
compute are given with the graph. A graph is well formed, in the spec's words, when every node
has the inputs its opcode asks for and every Phi one per predecessor of its block.
-/

namespace LibFirm.Ir

/-- The number of inputs of an opcode of fixed arity. -/
def Opcode.arity : Opcode → Option Nat
  | .const _ | .address _ | .jmp | .noMem => some 0
  | .proj _ | .conv | .cond | .pin => some 1
  | .load | .add | .sub | .mul | .shrs | .eor | .binop | .cmp _ => some 2
  | .store | .div => some 3
  | .block | .call | .phi | .anchorEnd | .other => none

/-- The loop tree and the dominators, as `assure_irg_properties` computes them. -/
structure Analyses where
  nLoops : Nat
  loopOuter : Nat → Nat
  loopElements : Nat → List LoopElement
  blockLoop : Nat → Option Nat
  idom : Nat → Option Nat

namespace Graph

variable (g : Graph)

/-- Node `n` has the inputs its opcode asks for, and a Phi one per predecessor of its block. -/
def arityOk (n : Nat) : Bool :=
  match (g.op n).arity with
  | some k => (g.node n).ins.length = k
  | none => !g.isPhi n || (g.node n).ins.length = (g.node (g.node n).block).ins.length

def aritiesOk : Bool := g.live.all g.arityOk

def withAnalyses (a : Analyses) : Graph :=
  { g with nLoops := a.nLoops, loopOuter := a.loopOuter, loopElements := a.loopElements,
           blockLoop := a.blockLoop, idom := a.idom }

theorem keeps_withAnalyses (a : Analyses) : g.Keeps (g.withAnalyses a) :=
  ⟨le_rfl, fun _ _ => ⟨rfl, rfl, rfl⟩⟩

end Graph

/-- The graphs `unroll_loop_duff` passes from step to step: the one `rewire_loop` works on, the
one `remove_excess_headers` works on, and the state it leaves. -/
structure DuffRewiring where
  afterFixup : Graph
  afterRewire : Graph
  final : Surgery

/-- `unroll_loop_duff` with the loop fix-up, up to its call of `update_header_condition`: `a₁`
and `a₂` are the analyses after the fix-up and after `rewire_loop`. -/
def unrollLoopDuffRewire (g : Graph) (loop factor cmp : Nat) (a₁ a₂ : Analyses) :
    Except Fault (Option DuffRewiring) := do
  let some header ← g.getLoopHeader loop | pure none
  let s ← createFixupLoop g ⟨g, fun _ => none, [], []⟩ loop cmp
  let g₁ := s.graph.withAnalyses a₁
  let (s, linkMap) ← rewireLoop g₁ { s with graph := g₁ } loop header factor
  let g₂ := s.graph.withAnalyses a₂
  let s ← removeExcessHeaders g₂ { s with graph := g₂ } [] header none linkMap
  pure (some ⟨g₁, g₂, s⟩)

/-- Each step of the rewiring keeps every node of the graph it is given, with its opcode, block
and mode; `remove_excess_headers` adds no node. -/
theorem unrollLoopDuffRewire_keeps {g : Graph} {loop factor cmp : Nat} {a₁ a₂ : Analyses}
    {d : DuffRewiring} (h : unrollLoopDuffRewire g loop factor cmp a₁ a₂ = .ok (some d)) :
    g.Keeps d.afterFixup ∧ d.afterFixup.Keeps d.afterRewire ∧
      d.afterRewire.Keeps d.final.graph ∧ d.afterRewire.size = d.final.graph.size := by
  obtain ⟨_, -, h⟩ := bind_eq_ok h
  split at h
  · obtain ⟨s₁, h₁, h⟩ := bind_eq_ok h
    obtain ⟨⟨s₂, linkMap⟩, h₂, h⟩ := bind_eq_ok h
    obtain ⟨s₃, h₃, h⟩ := bind_eq_ok h
    cases Except.ok.inj h
    have e₃ := removeExcessHeaders_insEdit h₃
    exact ⟨(createFixupLoop_keeps h₁).trans (s₁.graph.keeps_withAnalyses a₁),
      (rewireLoop_keeps h₂).trans (s₂.graph.keeps_withAnalyses a₂), e₃.keeps, e₃.2.2.1.symm⟩
  · cases h

/-- `while (i < n) i *= 2` from `i = 1`: block 6 is the header of loop 1 (Phi 7, `Cmp` 8
against the argument 4), block 12 its body (`Mul` 13), block 15 its exit. -/
def doublingLoop : Graph :=
  ⟨20, fun
    | 0 => ⟨.block, .other, 0, []⟩
    | 1 => ⟨.jmp, .ctrl, 0, []⟩
    | 2 => ⟨.const 1, .int, 0, []⟩
    | 3 => ⟨.const 2, .int, 0, []⟩
    | 4 => ⟨.other, .int, 0, []⟩
    | 5 => ⟨.other, .mem, 0, []⟩
    | 6 => ⟨.block, .other, 6, [1, 14]⟩
    | 7 => ⟨.phi, .int, 6, [2, 13]⟩
    | 8 => ⟨.cmp .less, .other, 6, [7, 4]⟩
    | 9 => ⟨.cond, .other, 6, [8]⟩
    | 10 => ⟨.proj 0, .ctrl, 6, [9]⟩
    | 11 => ⟨.proj 1, .ctrl, 6, [9]⟩
    | 12 => ⟨.block, .other, 12, [11]⟩
    | 13 => ⟨.mul, .int, 12, [7, 3]⟩
    | 14 => ⟨.jmp, .ctrl, 12, []⟩
    | 15 => ⟨.block, .other, 15, [10]⟩
    | 16 => ⟨.phi, .int, 15, [7]⟩
    | 17 => ⟨.other, .other, 15, [5, 16]⟩
    | 18 => ⟨.block, .other, 18, [17]⟩
    | _ => ⟨.anchorEnd, .other, 18, []⟩,
    2, fun _ => 0, fun | 0 => [.block 0, .son 1, .block 15, .block 18] | _ => [.block 6, .block 12],
    fun | 6 => some 1 | 12 => some 1 | _ => some 0,
    fun | 6 => some 0 | 12 => some 6 | 15 => some 6 | 18 => some 15 | _ => none⟩

/-- The analyses after the fix-up: the fix-up loop 2 is blocks 20 and 26. -/
def doublingLoopFixupAnalyses : Analyses :=
  ⟨3, fun _ => 0,
    fun | 0 => [.block 0, .son 1, .son 2, .block 15, .block 18] | 1 => [.block 6, .block 12]
        | _ => [.block 20, .block 26],
    fun | 6 => some 1 | 12 => some 1 | 20 => some 2 | 26 => some 2 | _ => some 0,
    fun | 6 => some 0 | 12 => some 6 | 20 => some 6 | 26 => some 20 | 15 => some 20
        | 18 => some 15 | _ => none⟩

/-- The analyses after `rewire_loop`: the copied header and body are blocks 29 and 35. -/
def doublingLoopRewireAnalyses : Analyses :=
  ⟨3, fun _ => 0,
    fun | 0 => [.block 0, .son 1, .son 2, .block 15, .block 18]
        | 1 => [.block 6, .block 12, .block 29, .block 35] | _ => [.block 20, .block 26],
    fun | 6 => some 1 | 12 => some 1 | 29 => some 1 | 35 => some 1 | 20 => some 2
        | 26 => some 2 | _ => some 0,
    fun | 6 => some 0 | 12 => some 6 | 29 => some 12 | 35 => some 29 | 20 => some 6
        | 26 => some 20 | 15 => some 20 | 18 => some 15 | _ => none⟩

theorem doublingLoop_recognized :
    let p : Program := ⟨fun _ => doublingLoop, 1, fun _ => none, fun _ => false⟩
    ((p.determineLinUnrollInfo 0 1).run ⟨⟨none, 0, none, none, none, none, none, none⟩, []⟩).map
        (fun r => (r.1, r.2.info)) =
      .ok (⟨true, false⟩, ⟨some .mul, 1, some [2], some 8, some .less, some 3, some 7, some 4⟩) := by
  decide

/-- What the counterexamples read off the rewiring of the doubling loop, computed once: whether
each graph keeps the arities, the copied `Mul` 36, the inputs of the header Phi 7 and of the
`Cmp` 8, and that the header has no memory Phi. -/
theorem doublingLoop_rewiring_eval :
    (unrollLoopDuffRewire doublingLoop 1 2 8 doublingLoopFixupAnalyses
        doublingLoopRewireAnalyses).map (Option.map fun d =>
        (([d.afterFixup.aritiesOk, d.afterRewire.aritiesOk, d.final.graph.aritiesOk],
            d.final.graph.node 36, (d.final.graph.node 7).ins), (d.final.graph.node 8).ins,
          ((d.final.graph.outEdges 6).find? fun e => d.final.graph.getBlock e.1 = 6 &&
            d.final.graph.isPhi e.1 && (d.final.graph.node e.1).mode = .mem).isNone)) =
      .ok (some (([true, true, false], ⟨.mul, .int, 35, [13]⟩, [2, 36]), [7, 4], true)) := by
  decide

theorem remove_excess_headers_unary_mul :
    let p : Program := ⟨fun _ => doublingLoop, 1, fun _ => none, fun _ => false⟩
    ((p.determineLinUnrollInfo 0 1).run ⟨⟨none, 0, none, none, none, none, none, none⟩, []⟩).map
        (fun r => (r.1, r.2.info.cmp)) = .ok (⟨true, false⟩, some 8) ∧
      doublingLoop.aritiesOk ∧
      (unrollLoopDuffRewire doublingLoop 1 2 8 doublingLoopFixupAnalyses
          doublingLoopRewireAnalyses).map (Option.map fun d =>
          ([d.afterFixup.aritiesOk, d.afterRewire.aritiesOk, d.final.graph.aritiesOk],
            d.final.graph.node 36, (d.final.graph.node 7).ins)) =
        .ok (some ([true, true, false], ⟨.mul, .int, 35, [13]⟩, [2, 36])) := by
  obtain ⟨d, hd, hF⟩ := exists_of_map_eq doublingLoop_rewiring_eval
  refine ⟨map_comp_of_map_eq (g := fun q => (q.1, q.2.cmp)) doublingLoop_recognized, by decide, ?_⟩
  rw [hd]
  exact congrArg (Except.ok ∘ some) (Prod.mk.inj hF).1

end LibFirm.Ir
