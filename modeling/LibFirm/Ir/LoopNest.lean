import LibFirm.Ir.Graph

/-!
# The loop tree

`is_inner_loop` climbs from `inner` by `get_loop_outer_loop` until the climb meets `outer` or
stops moving at the root. On a loop tree the climb stops within as many iterations as there are
loops and answers whether `outer` is a proper ancestor of `inner`, so `block_is_inside_loop`
holds of the blocks of a loop and of the loops nested in it.
-/

namespace LibFirm.Ir

namespace Graph

variable (g : Graph)

/-- A step from a loop to its outer loop, the root excepted. -/
def OuterStep (l l' : Nat) : Prop := g.loopOuter l = l' ∧ l ≠ l'

/-- `b` is a block of loop `L` or of a loop nested in it. -/
def InLoop (b L : Nat) : Prop :=
  ∃ l, g.blockLoop b = some l ∧ Relation.ReflTransGen g.OuterStep l L

/-- The loops form a tree under `get_loop_outer_loop`: the outer loop of a loop is a loop, the
root is its own outer loop and every loop reaches it, and the loop of a block is a loop. -/
structure Nesting : Prop where
  outer_lt : ∀ l < g.nLoops, g.loopOuter l < g.nLoops
  root : ∃ r < g.nLoops, g.loopOuter r = r ∧ ∀ l < g.nLoops, Relation.ReflTransGen g.OuterStep l r
  blockLoop_lt : ∀ b l, g.blockLoop b = some l → l < g.nLoops

section Climb

variable {g} {ldepth : Nat → Nat}

theorem lt_of_outerSteps (houter : ∀ l < g.nLoops, g.loopOuter l < g.nLoops) {l L : Nat}
    (hl : l < g.nLoops) (h : Relation.ReflTransGen g.OuterStep l L) : L < g.nLoops := by
  induction h with
  | refl => exact hl
  | tail _ hs ih => exact hs.1 ▸ houter _ ih

theorem iterate_outer_lt (houter : ∀ l < g.nLoops, g.loopOuter l < g.nLoops) {l : Nat}
    (hl : l < g.nLoops) : ∀ k, g.loopOuter^[k] l < g.nLoops
  | 0 => hl
  | k + 1 => by rw [Function.iterate_succ_apply']; exact houter _ (iterate_outer_lt houter hl k)

theorem exists_iterate_of_outerSteps {l L : Nat} (h : Relation.ReflTransGen g.OuterStep l L) :
    ∃ k, g.loopOuter^[k] l = L := by
  induction h with
  | refl => exact ⟨0, rfl⟩
  | tail _ hs ih =>
    obtain ⟨k, hk⟩ := ih
    exact ⟨k + 1, by rw [Function.iterate_succ_apply', hk, hs.1]⟩

/-- The steps to the root are a depth: below the number of loops, and one less at the outer
loop. -/
theorem Nesting.depth (hnest : g.Nesting) : ∃ depth : Nat → Nat, ∀ l < g.nLoops,
    depth l < g.nLoops ∧ (g.loopOuter l ≠ l → depth (g.loopOuter l) < depth l) ∧
      g.loopOuter^[depth l + 1] l = g.loopOuter^[depth l] l := by
  obtain ⟨r, -, hroot, hreach⟩ := hnest.root
  have hex : ∀ l < g.nLoops, ∃ k, g.loopOuter^[k + 1] l = g.loopOuter^[k] l := fun l hl => by
    obtain ⟨k, hk⟩ := exists_iterate_of_outerSteps (hreach l hl)
    exact ⟨k, by rw [Function.iterate_succ_apply', hk, hroot]⟩
  refine ⟨fun l => if hl : l < g.nLoops then Nat.find (hex l hl) else 0, fun l hl => ?_⟩
  simp only [dif_pos hl]
  have hd := Nat.find_spec (hex l hl)
  refine ⟨?_, fun hne => ?_, hd⟩
  · -- a loop met twice on the climb would make it stand still earlier
    have hinj : Function.Injective fun k : Fin (Nat.find (hex l hl) + 1) =>
        (⟨g.loopOuter^[k] l, iterate_outer_lt hnest.outer_lt hl k⟩ : Fin g.nLoops) := by
      intro i j hij
      simp only [Fin.mk.injEq] at hij
      by_contra hne
      wlog hlt : (i : Nat) < j generalizing i j
      · exact this hij.symm (Ne.symm hne) (lt_of_le_of_ne (not_lt.mp hlt) (Fin.val_ne_of_ne hne).symm)
      have hj := Nat.lt_succ_iff.mp j.isLt
      have hshift : g.loopOuter^[Nat.find (hex l hl) - j + i] l = g.loopOuter^[Nat.find (hex l hl)] l := by
        rw [Function.iterate_add_apply, hij, ← Function.iterate_add_apply, Nat.sub_add_cancel hj]
      refine Nat.find_min (hex l hl) (m := Nat.find (hex l hl) - j + i) (by omega) ?_
      rw [Function.iterate_succ_apply', hshift, ← Function.iterate_succ_apply' g.loopOuter, hd]
    have := Fintype.card_le_of_injective _ hinj
    simp only [Fintype.card_fin] at this
    omega
  · have hlo := hnest.outer_lt l hl
    simp only [dif_pos hlo]
    obtain ⟨d, hdl⟩ : ∃ d, Nat.find (hex l hl) = d + 1 :=
      Nat.exists_eq_succ_of_ne_zero fun h0 => hne (by simpa [h0] using hd)
    rw [hdl, Function.iterate_succ_apply, Function.iterate_succ_apply] at hd
    exact hdl ▸ Nat.lt_succ_of_le (Nat.find_min' _ hd)

/-- `is_inner_loop(outer, inner)` climbs from `inner` over outer loops, with fuel above the
depth. -/
theorem isInnerLoop_iff (houter : ∀ l < g.nLoops, g.loopOuter l < g.nLoops)
    (hld : ∀ l < g.nLoops, ldepth l < g.nLoops ∧ (g.loopOuter l ≠ l → ldepth (g.loopOuter l) < ldepth l))
    (outer : Nat) : ∀ (fuel inner : Nat), inner < g.nLoops → ldepth inner < fuel →
      (g.isInnerLoop outer fuel inner = true ↔ Relation.TransGen g.OuterStep inner outer)
  | 0, _, _, h => absurd h (Nat.not_lt_zero _)
  | fuel + 1, inner, hin, hfuel => by
    rw [Relation.TransGen.head'_iff]
    by_cases hr : g.loopOuter inner = inner
    · simp only [isInnerLoop, hr, if_true, Bool.false_eq_true, false_iff, not_exists, not_and]
      exact fun b hb => absurd (hr.symm.trans hb.1) hb.2
    by_cases ho : g.loopOuter inner = outer
    · have hne : outer ≠ inner := fun h => hr (ho.trans h)
      simp only [isInnerLoop, ho, hne, if_true, if_false, true_iff]
      exact ⟨outer, ⟨ho, Ne.symm hne⟩, .refl⟩
    have hnext := (hld inner hin).2 hr
    simp only [isInnerLoop, hr, ho, if_false]
    rw [isInnerLoop_iff houter hld outer fuel _ (houter _ hin) (by omega)]
    constructor
    · exact fun h => ⟨_, ⟨rfl, Ne.symm hr⟩, h.to_reflTransGen⟩
    · rintro ⟨b, ⟨rfl, -⟩, hb⟩
      exact (Relation.reflTransGen_iff_eq_or_transGen.mp hb).resolve_left (Ne.symm ho)

theorem blockIsInsideLoop_iff (hnest : g.Nesting) (b L : Nat) :
    g.blockIsInsideLoop b L = true ↔ g.InLoop b L := by
  obtain ⟨ldepth, hdepth⟩ := hnest.depth
  have hld l hl := (hdepth l hl).imp_right And.left
  unfold blockIsInsideLoop InLoop
  cases hb : g.blockLoop b with
  | none => simp
  | some l =>
    have hl := hnest.blockLoop_lt b l hb
    show (l == L || g.isInnerLoop L g.nLoops l) = true ↔ _
    rw [Bool.or_eq_true, beq_iff_eq,
      isInnerLoop_iff hnest.outer_lt hld L g.nLoops l hl (hld l hl).1]
    simp only [Option.some.injEq, exists_eq_left', Relation.reflTransGen_iff_eq_or_transGen]
    exact or_congr_left eq_comm

theorem is_inner_loop_proper_ancestor (hnest : g.Nesting) (o : Nat) :
    (∀ l < g.nLoops, (∃ k < g.nLoops,
        g.loopOuter^[k + 1] l = g.loopOuter^[k] l ∨ g.loopOuter^[k + 1] l = o) ∧
      ∀ fuel, g.nLoops ≤ fuel →
        (g.isInnerLoop o fuel l = true ↔ Relation.TransGen g.OuterStep l o)) ∧
    ∀ b, g.blockIsInsideLoop b o = true ↔ g.InLoop b o := by
  obtain ⟨ldepth, hdepth⟩ := hnest.depth
  have hld l hl := (hdepth l hl).imp_right And.left
  refine ⟨fun l hl => ⟨⟨ldepth l, (hdepth l hl).1, .inl (hdepth l hl).2.2⟩, fun fuel hfuel =>
    isInnerLoop_iff hnest.outer_lt hld o fuel l hl (by have := (hld l hl).1; omega)⟩,
    fun b => blockIsInsideLoop_iff hnest b o⟩

end Climb

end Graph

/-- Loops 1 and 3 nested in the root 0, and loop 2 in loop 1; block `b` is in loop `b`. -/
def nest : Graph where
  size := 4
  node := fun b => ⟨.block, .ctrl, b, []⟩
  nLoops := 4
  loopOuter := fun | 2 => 1 | _ => 0
  loopElements := fun _ => []
  blockLoop := fun b => if b < 4 then some b else none
  idom := fun _ => none

theorem nest_nesting : nest.Nesting where
  outer_lt := by decide
  root := ⟨0, by decide, rfl, fun l hl => by
    have h₁ : Relation.ReflTransGen nest.OuterStep 1 0 := .single ⟨rfl, by decide⟩
    rcases l with _ | _ | _ | _ | l
    exacts [.refl, h₁, .head ⟨rfl, by decide⟩ h₁, .single ⟨rfl, by decide⟩,
      absurd hl (by dsimp only [nest]; omega)]⟩
  blockLoop_lt b l h := by
    dsimp only [nest] at h ⊢
    split at h
    · cases h; assumption
    · cases h

theorem is_inner_loop_nest : nest.Nesting ∧
    (∀ l < nest.nLoops, (∃ k < nest.nLoops,
        nest.loopOuter^[k + 1] l = nest.loopOuter^[k] l ∨ nest.loopOuter^[k + 1] l = 1) ∧
      ∀ fuel, nest.nLoops ≤ fuel →
        (nest.isInnerLoop 1 fuel l = true ↔ Relation.TransGen nest.OuterStep l 1)) ∧
    ∀ b, nest.blockIsInsideLoop b 1 = true ↔ nest.InLoop b 1 :=
  ⟨nest_nesting, Graph.is_inner_loop_proper_ancestor nest_nesting 1⟩

example : nest.isInnerLoop 1 4 2 = true ∧ nest.isInnerLoop 2 4 1 = false ∧
    nest.isInnerLoop 1 4 3 = false ∧ nest.isInnerLoop 0 4 0 = false := by decide

end LibFirm.Ir
