import LibFirm.Ir.SwitchHeader

/-!
# The switch fix-up of a loop left on a true compare

The recognizer accepts a loop whatever `Proj` of the header's `Cond` leaves it, but
`create_fixup_switch_header` computes `res` as for a loop that runs while its compare holds. A
loop `while (!(i >= N))` runs while the compare fails, and on leaving it `res` counts iterations
past the bound, so the switch runs body copies the loop never runs.
-/

namespace LibFirm.Ir

variable {w : Nat}

namespace Graph

variable {g : Graph} {m : IntMode} {v : Nat → Option (BitVec w)}

/-- The control edges that leave block `b`: each block `t` with an input `x` computed in `b`. -/
def blockExits (g : Graph) (b : Nat) : List (Nat × Nat) :=
  (List.range g.size).flatMap fun t =>
    if g.op t = .block then ((g.node t).ins.filter fun x => g.getBlock x = b).map (t, ·) else []

theorem succ_iff_mem_blockExits {b t : Nat} :
    g.Succ m v b t ↔ ∃ x, (t, x) ∈ g.blockExits b ∧ g.Exits m v x := by
  simp only [Succ, blockExits, List.mem_flatMap, List.mem_range]
  constructor
  · rintro ⟨ht, hb, x, hx, hxb, he⟩
    exact ⟨x, ⟨t, ht, by simp [hb, hx, hxb]⟩, he⟩
  · rintro ⟨x, ⟨t', ht', hm⟩, he⟩
    split_ifs at hm with hb
    · obtain ⟨⟨hx, hxb⟩, rfl⟩ : (x ∈ (g.node t').ins ∧ g.getBlock x = b) ∧ t' = t := by
        simpa using hm
      exact ⟨ht', hb, x, hx, hxb, he⟩
    · cases hm

/-- A block left through one `Jmp` has the block it enters as its one successor. -/
theorem succ_iff_of_jmp {b t₀ x₀ : Nat} (h : g.blockExits b = [(t₀, x₀)]) (hx : g.op x₀ = .jmp)
    (t : Nat) : g.Succ m v b t ↔ t = t₀ := by
  rw [succ_iff_mem_blockExits, h]
  simp only [List.mem_singleton, Prod.mk.injEq]
  exact ⟨fun ⟨_, ⟨ht, _⟩, _⟩ => ht, fun ht => ⟨x₀, ⟨ht, rfl⟩, .inl hx⟩⟩

/-- A block left through two edges of which only the second is taken goes where it leads. -/
theorem succ_iff_of_taken {b tF xF tT xT : Nat} (h : g.blockExits b = [(tF, xF), (tT, xT)])
    (hF : ¬ g.Exits m v xF) (hT : g.Exits m v xT) (t : Nat) : g.Succ m v b t ↔ t = tT := by
  rw [succ_iff_mem_blockExits, h]
  constructor
  · rintro ⟨x, hx, he⟩
    simp only [List.mem_cons, Prod.mk.injEq, List.mem_singleton, List.not_mem_nil, or_false] at hx
    rcases hx with ⟨-, rfl⟩ | ⟨rfl, -⟩
    · exact absurd he hF
    · rfl
  · rintro rfl
    exact ⟨xT, by simp, hT⟩

end Graph

/-- `for (i = i₀; !(i >= 10); i++) *p = i;`: block 6 is the header of loop 1, with the Phi 7 of
`i`, the memory Phi 8 and the `Cmp` 9 of `i >= 10`, whose false `Proj` 11 enters the body block
13 and whose true `Proj` 12 the block 19 after the loop. -/
def breakLoop : Graph :=
  ⟨24, fun
    | 0 => ⟨.block, .other, 0, []⟩
    | 1 => ⟨.jmp, .ctrl, 0, []⟩
    | 2 => ⟨.other, .int, 0, []⟩
    | 3 => ⟨.const 1, .int, 0, []⟩
    | 4 => ⟨.const 10, .int, 0, []⟩
    | 5 => ⟨.other, .mem, 0, []⟩
    | 6 => ⟨.block, .other, 6, [1, 15]⟩
    | 7 => ⟨.phi, .int, 6, [2, 14]⟩
    | 8 => ⟨.phi, .mem, 6, [5, 18]⟩
    | 9 => ⟨.cmp .greaterEqual, .other, 6, [7, 4]⟩
    | 10 => ⟨.cond, .other, 6, [9]⟩
    | 11 => ⟨.proj 0, .ctrl, 6, [10]⟩
    | 12 => ⟨.proj 1, .ctrl, 6, [10]⟩
    | 13 => ⟨.block, .other, 13, [11]⟩
    | 14 => ⟨.add, .int, 13, [7, 3]⟩
    | 15 => ⟨.jmp, .ctrl, 13, []⟩
    | 16 => ⟨.address 0, .other, 0, []⟩
    | 17 => ⟨.store, .other, 13, [8, 16, 7]⟩
    | 18 => ⟨.proj 0, .mem, 13, [17]⟩
    | 19 => ⟨.block, .other, 19, [12]⟩
    | 20 => ⟨.phi, .mem, 19, [8]⟩
    | 21 => ⟨.other, .other, 19, [20]⟩
    | 22 => ⟨.block, .other, 22, [21]⟩
    | _ => ⟨.anchorEnd, .other, 22, []⟩,
    2, fun _ => 0, fun | 0 => [.block 0, .son 1, .block 19, .block 22] | _ => [.block 6, .block 13],
    fun | 6 => some 1 | 13 => some 1 | _ => some 0,
    fun | 6 => some 0 | 13 => some 6 | 19 => some 6 | 22 => some 19 | _ => none⟩

/-- The graph `create_fixup_switch` hands to `create_fixup_switch_header` for `breakLoop` with
`factor` 4: the three body copies are blocks 24, 26 and 28, each entered from the in-loop `Proj`
11 and chained by their `Jmp`s, the last into block 19. The copies' nodes are left out, since
the switch header reads none of them. -/
def breakCopies : Graph :=
  ⟨30, fun
    | 0 => ⟨.block, .other, 0, []⟩
    | 1 => ⟨.jmp, .ctrl, 0, []⟩
    | 2 => ⟨.other, .int, 0, []⟩
    | 3 => ⟨.const 1, .int, 0, []⟩
    | 4 => ⟨.const 10, .int, 0, []⟩
    | 5 => ⟨.other, .mem, 0, []⟩
    | 6 => ⟨.block, .other, 6, [1, 15]⟩
    | 7 => ⟨.phi, .int, 6, [2, 14]⟩
    | 8 => ⟨.phi, .mem, 6, [5, 18]⟩
    | 9 => ⟨.cmp .greaterEqual, .other, 6, [7, 4]⟩
    | 10 => ⟨.cond, .other, 6, [9]⟩
    | 11 => ⟨.proj 0, .ctrl, 6, [10]⟩
    | 12 => ⟨.proj 1, .ctrl, 6, [10]⟩
    | 13 => ⟨.block, .other, 13, [11]⟩
    | 14 => ⟨.add, .int, 13, [7, 3]⟩
    | 15 => ⟨.jmp, .ctrl, 13, []⟩
    | 16 => ⟨.address 0, .other, 0, []⟩
    | 17 => ⟨.store, .other, 13, [8, 16, 7]⟩
    | 18 => ⟨.proj 0, .mem, 13, [17]⟩
    | 19 => ⟨.block, .other, 19, [12, 29]⟩
    | 20 => ⟨.phi, .mem, 19, [8, 8]⟩
    | 21 => ⟨.other, .other, 19, [20]⟩
    | 22 => ⟨.block, .other, 22, [21]⟩
    | 23 => ⟨.anchorEnd, .other, 22, []⟩
    | 24 => ⟨.block, .other, 24, [11]⟩
    | 25 => ⟨.jmp, .ctrl, 24, []⟩
    | 26 => ⟨.block, .other, 26, [25, 11]⟩
    | 27 => ⟨.jmp, .ctrl, 26, []⟩
    | 28 => ⟨.block, .other, 28, [27, 11]⟩
    | _ => ⟨.jmp, .ctrl, 28, []⟩,
    2, fun _ => 0,
    fun | 0 => [.block 0, .son 1, .block 19, .block 22, .block 24, .block 26, .block 28]
        | _ => [.block 6, .block 13],
    fun | 6 => some 1 | 13 => some 1 | _ => some 0,
    fun | 6 => some 0 | 13 => some 6 | 19 => some 6 | 22 => some 19 | 24 => some 6 | 26 => some 6
        | 28 => some 6 | _ => none⟩

/-- What `determine_lin_unroll_info` records for `breakLoop`. -/
def breakInfo : LinUnrollInfo :=
  ⟨some .add, 1, some [2], some 9, some .greaterEqual, some 3, some 7, some 4⟩

/-- The values of a run that reaches the header with `i = 16`. -/
def breakEnv : Nat → Option (BitVec 8) := fun n => if n = 7 then some 16#8 else none

/-- What the fix-up graph gives the proof, computed once: the switch header, the nodes the
routing reads, the control edges out of the header, the switch header and the copies, and a
valuation at `i = 16`. -/
theorem breakCopies_switch_eval :
    (createFixupSwitchHeader breakCopies 8 4 breakInfo 1 [24, 26, 28] 19
        ⟨breakCopies, fun _ => none, [], []⟩).map (fun r => decide (r.2 = 30 ∧ r.1.graph.size = 68 ∧
      [4, 9, 10, 11, 12, 25, 27, 29, 46].map r.1.graph.node =
        [⟨.const 10, .int, 0, []⟩, ⟨.cmp .greaterEqual, .other, 6, [7, 4]⟩,
          ⟨.cond, .other, 6, [9]⟩, ⟨.proj 0, .ctrl, 6, [10]⟩, ⟨.proj 1, .ctrl, 6, [10]⟩,
          ⟨.jmp, .ctrl, 24, []⟩, ⟨.jmp, .ctrl, 26, []⟩, ⟨.jmp, .ctrl, 28, []⟩,
          ⟨.jmp, .ctrl, 30, []⟩] ∧
      [6, 30, 24, 26, 28].map r.1.graph.blockExits =
        [[(13, 11), (30, 12)], [(49, 46)], [(26, 25)], [(28, 27)], [(19, 29)]] ∧
      [(r.1.graph.node 26).ins, (r.1.graph.node 28).ins, (r.1.graph.node 19).ins] =
        [[25, 59], [27, 66], [67, 29]] ∧
      r.1.graph.Evaluates ⟨true⟩ breakEnv (r.1.graph.value ⟨true⟩ breakEnv 20) ∧
      r.1.graph.value ⟨true⟩ breakEnv 20 7 = some 16#8)) = .ok true := by
  decide

/-- At `i = 16` the compare `i >= 10` of a header laid out as `breakLoop`'s holds, and control
leaves it through the true `Proj` 12 alone. -/
theorem succ_of_break_header {g : Graph} {env v : Nat → Option (BitVec 8)} {t₀ t₁ : Nat}
    (hv : g.Evaluates ⟨true⟩ env v) (h7 : v 7 = some 16#8) (h4 : 4 < g.size)
    (hn : [4, 9, 10, 11, 12].map g.node = [⟨.const 10, .int, 0, []⟩,
      ⟨.cmp .greaterEqual, .other, 6, [7, 4]⟩, ⟨.cond, .other, 6, [9]⟩, ⟨.proj 0, .ctrl, 6, [10]⟩,
      ⟨.proj 1, .ctrl, 6, [10]⟩])
    (hx : g.blockExits 6 = [(t₀, 11), (t₁, 12)]) (t : Nat) : g.Succ ⟨true⟩ v 6 t ↔ t = t₁ := by
  simp only [List.map_cons, List.map_nil, List.cons.injEq, and_true] at hn
  obtain ⟨n4, n9, n10, n11, n12⟩ := hn
  have h4v : v 4 = some (BitVec.ofInt 8 10) := hv.const (c := 10) h4 (by rw [Graph.op, n4])
  have hc : g.cmpValue ⟨true⟩ v 9 = some true :=
    (Graph.cmpValue_of (r := .greaterEqual) (by rw [Graph.op, n9]) (by rw [Graph.input, n9]; exact h7)
      (by rw [Graph.input, n9]; exact h4v)).trans (by decide)
  have hcond : g.op (g.input 11 0) = .cond ∧ g.op (g.input 12 0) = .cond := by
    simp [Graph.op, Graph.input, n11, n12, n10]
  refine Graph.succ_iff_of_taken hx ?_ ?_ t
  · rw [Graph.exits_proj_iff (show g.op 11 = .proj 0 by rw [Graph.op, n11]) hcond.1]
    simp [Graph.input, n11, n10, hc, pnCondTrue]
  · rw [Graph.exits_proj_iff (show g.op 12 = .proj 1 by rw [Graph.op, n12]) hcond.2]
    simp [Graph.input, n12, n10, hc, pnCondTrue]

theorem create_fixup_switch_header_inverted_loop :
    let p : Program := ⟨fun _ => breakLoop, 1, fun _ => none, fun _ => false⟩
    ((p.determineLinUnrollInfo 0 1).run ⟨⟨none, 0, none, none, none, none, none, none⟩, []⟩).map
        (fun r => (r.1, r.2.info)) = .ok (⟨true, true⟩, breakInfo) ∧
      (∃ env v, breakLoop.Evaluates ⟨true⟩ env v ∧ v 7 = some 16#8) ∧
      (∀ env (v : Nat → Option (BitVec 8)), breakLoop.Evaluates ⟨true⟩ env v → v 7 = some 16#8 →
        ∀ t, breakLoop.Succ ⟨true⟩ v 6 t ↔ t = 19) ∧
      ∃ s' sh, createFixupSwitchHeader breakCopies 8 4 breakInfo 1 [24, 26, 28] 19
          ⟨breakCopies, fun _ => none, [], []⟩ = .ok (s', sh) ∧
        (∃ env v, s'.graph.Evaluates ⟨true⟩ env v ∧ v 7 = some 16#8) ∧
        ∀ env (v : Nat → Option (BitVec 8)), s'.graph.Evaluates ⟨true⟩ env v → v 7 = some 16#8 →
          ∃ blk, (∀ t, s'.graph.Succ ⟨true⟩ v 6 t ↔ t = sh) ∧
            (∀ t, s'.graph.Succ ⟨true⟩ v sh t ↔ t = blk) ∧
            (∀ t, s'.graph.Succ ⟨true⟩ v blk t ↔ t = 24) ∧
            (∀ t, s'.graph.Succ ⟨true⟩ v 24 t ↔ t = 26) ∧
            (∀ t, s'.graph.Succ ⟨true⟩ v 26 t ↔ t = 28) ∧
            (∀ t, s'.graph.Succ ⟨true⟩ v 28 t ↔ t = 19) := by
  obtain ⟨⟨s', sh⟩, hr, hF⟩ := exists_of_map_ok breakCopies_switch_eval
  obtain ⟨rfl, hsz, hn, hx, hins, hev, h7⟩ := of_decide_eq_true hF
  simp only [List.map_cons, List.map_nil, List.cons.injEq, and_true] at hn hx hins
  obtain ⟨n4, n9, n10, n11, n12, n25, n27, n29, n46⟩ := hn
  obtain ⟨x6, x30, x24, x26, x28⟩ := hx
  obtain ⟨i26, i28, i19⟩ := hins
  refine ⟨by decide, ⟨breakEnv, breakLoop.value ⟨true⟩ breakEnv 20, by decide, by decide⟩,
    fun env v hv h7 => succ_of_break_header hv h7 (by decide) (by decide)
      (show breakLoop.blockExits 6 = [(13, 11), (19, 12)] by decide),
    s', 30, hr, ⟨breakEnv, _, hev, h7⟩, fun env v hv h7 => ?_⟩
  have hs : (⟨breakCopies, fun _ => none, [], []⟩ : Surgery).WellFormed :=
    ⟨by decide, by decide, fun _ _ h => nomatch h⟩
  obtain ⟨blk, nCpy, cCpy, hn₁, hc₁, hon, hoc, hsh, -, hroute⟩ :=
    create_fixup_switch_header_routes hr hs le_rfl (by decide) rfl rfl rfl rfl rfl
      ⟨by decide, by decide, by decide, by decide⟩ (by decide) (by decide) ⟨by decide, by decide⟩
      (by decide) (by decide)
      ⟨fun j h1 h2 => by rcases (by omega : j = 1 ∨ j = 2) with rfl | rfl <;> simp [i26, i28],
        by simp [i19]⟩ hv
  have h30 := Graph.succ_iff_of_jmp (m := ⟨true⟩) (v := v) x30 (by simp [Graph.op, n46])
  have hb0 : blk 0 = 49 := (h30 _).mp hsh
  have hvn : v nCpy = some 10#8 := hv.const hn₁ hon
  have hvc : v cCpy = some 1#8 := hv.const hc₁ hoc
  have hin : s'.graph.input 9 1 = 4 := by simp [Graph.input, n9]
  refine ⟨49, succ_of_break_header hv h7 (by dsimp only at hsz; omega) (by simp [n4, n9, n10, n11, n12]) x6, h30,
    fun t => ?_, Graph.succ_iff_of_jmp x24 (by simp [Graph.op, n25]),
    Graph.succ_iff_of_jmp x26 (by simp [Graph.op, n27]),
    Graph.succ_iff_of_jmp x28 (by simp [Graph.op, n29])⟩
  rw [← hb0, hroute 0 (by decide) t]
  simp only [h7, hvn, hvc, hin, Option.some.injEq, exists_and_left, exists_eq_left']
  rw [if_pos (by decide)]
  rfl

end LibFirm.Ir
