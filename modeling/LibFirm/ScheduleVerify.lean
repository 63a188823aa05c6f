import Mathlib.Data.List.Chain
import Mathlib.Data.List.Nodup

/-!
# The schedule verifier

`be_verify_schedule` walks the schedule of each block with `verify_schedule_walker`, and then
every node with `check_schedule`. A schedule is a circular list headed by its block, of time
step 0, so the two loops of the Keep check, which walk it back with `sched_prev`, stop within
one round: the first at the block at the latest, the second at the block or at the Keep. Only
whether a problem was found is kept of the warnings. The blocks with a schedule are those
`irg_block_walk_graph` visits.
-/

namespace LibFirm.Schedule

inductive Kind where
  | phi
  | keep
  | copyKeep
  /-- A control-flow operation, `is_cfop`. -/
  | cfop
  | other
  deriving DecidableEq, Repr

structure Node where
  kind : Kind
  /-- `get_nodes_block`. -/
  block : Nat
  /-- `arch_irn_flag_not_scheduled` in `arch_get_irn_flags`. -/
  flagNotScheduled : Bool
  /-- `arch_is_irn_not_scheduled`, which is not among the sources. -/
  notScheduled : Bool
  /-- `sched_get_time_step`. -/
  timeStep : Nat
  ins : List Nat
  /-- `get_irn_n_edges`. -/
  nEdges : Nat
  /-- The predecessor of a Proj. -/
  projPred : Option Nat
  deriving DecidableEq, Repr

structure Graph where
  node : Nat → Node
  /-- The blocks `irg_block_walk_graph` visits, each with its schedule. -/
  schedules : List (Nat × List Nat)
  /-- The nodes `irg_walk_graph` visits. -/
  reachable : List Nat

inductive Fault where
  | diverges
  deriving DecidableEq, Repr

/-- `problem_found` and the bitset `scheduled`, as the list of nodes set in it. -/
structure Env where
  problem : Bool
  scheduled : List Nat
  deriving DecidableEq, Repr

/-- The locals of `verify_schedule_walker`. -/
structure Local where
  nonPhiFound : Option Nat
  cfchangeFound : Option Nat
  lastTimestep : Nat
  deriving DecidableEq, Repr

namespace Graph

variable (g : Graph)

/-- `skip_Proj`. -/
def skipProj (n : Nat) : Nat := (g.node n).projPred.getD n

/-- `be_is_Keep(n) || be_is_CopyKeep(n)`. -/
def isKeepLike (n : Nat) : Bool := (g.node n).kind == .keep || (g.node n).kind == .copyKeep

def isPhi (n : Nat) : Bool := (g.node n).kind == .phi

/-- `sched_is_scheduled`. -/
def isScheduled (n : Nat) : Bool := g.schedules.any fun p => p.2.contains n

/-- The first loop of the Keep check, over the nodes `sched_prev` passes (`none` for the
block): back over Keeps and CopyKeeps. Past the end of the list it would go round again. -/
def skipKeeps : List (Option Nat) → Except Fault (List (Option Nat))
  | [] => .error .diverges
  | c :: cs => if c.any g.isKeepLike then skipKeeps cs else .ok (c :: cs)

/-- The operand loop of the Keep check: an operand of `keep`, through a Proj, is the node `c`
(`none` for the block `block`). -/
def operandAt (keep block : Nat) (c : Option Nat) : Bool :=
  (g.node keep).ins.any fun arg => g.skipProj arg == c.getD block

/-- The `do`-`while` loop of the Keep check of `keep` in block `block`: is an operand, through
a Proj, the node `prev`, and else on to the one before while that is a Phi. -/
def searchPred (keep block : Nat) : List (Option Nat) → Except Fault Bool
  | [] => .error .diverges
  | c :: cs =>
    if g.operandAt keep block c then .ok true
    else match cs with
      | [] => .error .diverges
      | c' :: _ => if c'.any g.isPhi then searchPred keep block cs else .ok false

/-- The Keep check of node `x` of block `b`, with `pre` the nodes before it from the nearest
back and `rest` the nodes after it. -/
def keepCheck (b x : Nat) (pre rest : List Nat) : Except Fault Bool := do
  let cyc ← g.skipKeeps (pre.map some ++ none :: (rest.reverse.map some ++ [some x]))
  g.searchPred x b cyc

/-- `is_cfop`. -/
def isCfop (n : Nat) : Bool := (g.node n).kind == .cfop

/-- The problems `verify_schedule_walker` finds at node `x` without the Keep check, with
`scheduled` the nodes set in the bitset. -/
def nodeProblem (b : Nat) (scheduled : List Nat) (loc : Local) (x : Nat) : Bool :=
  let nd := g.node x
  scheduled.contains x || nd.block != b || decide (nd.timeStep ≤ loc.lastTimestep) ||
    nd.flagNotScheduled || (g.isPhi x && loc.nonPhiFound.isSome) ||
    (if g.isCfop x then loc.cfchangeFound.isSome
      else loc.cfchangeFound.isSome && nd.kind != .keep) ||
    (!g.isPhi x && nd.ins.any fun arg =>
      (g.node arg).block == b && g.isScheduled arg && decide (nd.timeStep ≤ (g.node arg).timeStep)) ||
    nd.nEdges == 0

def nextLocal (loc : Local) (x : Nat) : Local :=
  ⟨if !g.isPhi x then some x else loc.nonPhiFound,
    if g.isCfop x && loc.cfchangeFound.isNone then some x else loc.cfchangeFound,
    (g.node x).timeStep⟩

def visitNode (b : Nat) (pre : List Nat) (x : Nat) (rest : List Nat) (env : Env) (loc : Local) :
    Except Fault (Env × Local) := do
  let keepFails ← if g.isKeepLike x then (g.keepCheck b x pre rest).map (!·) else pure false
  pure (⟨env.problem || g.nodeProblem b env.scheduled loc x || keepFails, x :: env.scheduled⟩,
    g.nextLocal loc x)

/-- `verify_schedule_walker` on block `b` from the node after `pre` on. -/
def verifyScheduleWalker (b : Nat) : List Nat → List Nat → Env → Local → Except Fault Env
  | _, [], env, _ => .ok env
  | pre, x :: rest, env, loc => do
    let (env, loc) ← g.visitNode b pre x rest env loc
    verifyScheduleWalker b (x :: pre) rest env loc

/-- `check_schedule` over the nodes `irg_walk_graph` visits. -/
def checkSchedule (env : Env) : Bool :=
  g.reachable.any fun n => !(g.node n).notScheduled != env.scheduled.contains n

/-- `be_verify_schedule`. -/
def beVerifySchedule : Except Fault Bool := do
  let env ← g.schedules.foldlM (fun env p => g.verifyScheduleWalker p.1 [] p.2 env ⟨none, none, 0⟩)
    ⟨false, []⟩
  pure !(env.problem || g.checkSchedule env)

theorem isPhi_of_isKeepLike {x : Nat} (h : g.isKeepLike x = true) : g.isPhi x = false := by
  unfold isKeepLike at h; unfold isPhi
  cases hk : (g.node x).kind <;> simp_all

theorem skipKeeps_eq (m : List (Option Nat)) :
    ∀ l : List Nat, g.skipKeeps (l.map some ++ none :: m) =
      .ok ((l.map some ++ none :: m).dropWhile (·.any g.isKeepLike))
  | [] => by simp [skipKeeps]
  | a :: l => by
    by_cases ha : g.isKeepLike a = true
    · simpa [skipKeeps, ha, List.dropWhile_cons] using skipKeeps_eq m l
    · simp [skipKeeps, ha, List.dropWhile_cons]

theorem searchPred_eq (keep block : Nat) :
    ∀ (cs : List (Option Nat)) (c : Option Nat), (∃ c' ∈ cs, c'.any g.isPhi = false) →
      g.searchPred keep block (c :: cs) =
        .ok (g.operandAt keep block c || (cs.takeWhile (·.any g.isPhi)).any (g.operandAt keep block))
  | [], _, h => by simp at h
  | c' :: cs, c, h => by
    unfold searchPred
    by_cases hm : g.operandAt keep block c = true
    · simp only [hm, if_true, Bool.true_or]
    · simp only [hm, Bool.false_eq_true, if_false, Bool.false_or]
      by_cases hp : c'.any g.isPhi = true
      · have h' : ∃ c'' ∈ cs, c''.any g.isPhi = false := by
          obtain ⟨d, hd, hdp⟩ := h
          rcases List.mem_cons.mp hd with rfl | hd
          · simp_all
          · exact ⟨d, hd, hdp⟩
        rw [if_pos hp, searchPred_eq keep block cs c' h', List.takeWhile_cons_of_pos hp,
          List.any_cons]
      · rw [if_neg hp, List.takeWhile_cons_of_neg hp, List.any_nil]

theorem takeWhile_map_some_append {f : Nat → Bool} {c : Option Nat} (hc : c.any f = false)
    (m : List (Option Nat)) :
    ∀ zs : List Nat, (zs.map some ++ c :: m).takeWhile (·.any f) = (zs.takeWhile f).map some
  | [] => by simp [List.takeWhile_cons, hc]
  | z :: zs => by
    by_cases hz : f z = true
    · simp [List.takeWhile_cons, hz, takeWhile_map_some_append hc m zs]
    · simp [List.takeWhile_cons, hz]

section KeepCheck

variable {g} {b x : Nat}

theorem keepCheck_cons_keep {k : Nat} (pre rest : List Nat) (hk : g.isKeepLike k = true) :
    g.keepCheck b x (k :: pre) rest = g.keepCheck b x pre rest := by
  simp only [keepCheck, List.map_cons, List.cons_append, skipKeeps, Option.any_some, hk, if_true,
    List.append_eq]

theorem keepCheck_cons {y : Nat} (zs rest : List Nat) (hy : g.isKeepLike y = false) :
    g.keepCheck b x (y :: zs) rest =
      .ok (g.operandAt x b (some y) || ((zs.takeWhile g.isPhi).map some).any (g.operandAt x b)) := by
  have hstop : (none : Option Nat).any g.isPhi = false := rfl
  simp only [keepCheck, List.map_cons, List.cons_append, skipKeeps, Option.any_some, hy,
    Bool.false_eq_true, if_false, bind, Except.bind, List.append_eq]
  rw [g.searchPred_eq x b _ _ ⟨none, by simp, hstop⟩, takeWhile_map_some_append hstop]

/-- With only Keeps before the node the first loop stops at the block, and the second goes
round to the Phis at the end of the schedule. -/
theorem keepCheck_nil (rest : List Nat) (hx : g.isKeepLike x = true) :
    g.keepCheck b x [] rest =
      .ok (g.operandAt x b none || ((rest.reverse.takeWhile g.isPhi).map some).any (g.operandAt x b)) := by
  have hstop : (some x).any g.isPhi = false := by simpa using g.isPhi_of_isKeepLike hx
  simp only [keepCheck, List.map_nil, List.nil_append, skipKeeps, Option.any_none, Bool.false_eq_true,
    if_false, bind, Except.bind]
  rw [g.searchPred_eq x b _ _ ⟨some x, by simp, hstop⟩, takeWhile_map_some_append hstop]

end KeepCheck

/-- Some operand of `x` is, through a Proj, the nearest node before it that is not a Keep or
CopyKeep, or one of the Phis scheduled directly before that node; `before` lists the nodes
before `x`, nearest first. -/
def KeepOk (x : Nat) (before : List Nat) : Prop :=
  ∃ ks y phis others, before = ks ++ y :: (phis ++ others) ∧ (∀ k ∈ ks, g.isKeepLike k = true) ∧
    g.isKeepLike y = false ∧ (∀ p ∈ phis, g.isPhi p = true) ∧
    ∃ arg ∈ (g.node x).ins, g.skipProj arg = y ∨ g.skipProj arg ∈ phis

section KeepOk

variable {g} {b x : Nat}

theorem operandAt_some (y : Nat) :
    g.operandAt x b (some y) = true ↔ ∃ arg ∈ (g.node x).ins, g.skipProj arg = y := by
  simp [operandAt]

theorem any_operandAt (l : List Nat) :
    (l.map some).any (g.operandAt x b) = true ↔ ∃ arg ∈ (g.node x).ins, g.skipProj arg ∈ l := by
  rw [List.any_eq_true]
  constructor
  · rintro ⟨_, hc, hop⟩
    obtain ⟨y, hy, rfl⟩ := List.mem_map.mp hc
    obtain ⟨arg, ha, rfl⟩ := (operandAt_some y).mp hop
    exact ⟨arg, ha, hy⟩
  · rintro ⟨arg, ha, hm⟩
    exact ⟨_, List.mem_map_of_mem _ hm, (operandAt_some _).mpr ⟨arg, ha, rfl⟩⟩

theorem not_keepOk_nil : ¬ g.KeepOk x [] := by
  rintro ⟨ks, y, phis, others, h, -⟩
  cases ks <;> cases h

theorem keepOk_cons_keep {k : Nat} (before : List Nat) (hk : g.isKeepLike k = true) :
    g.KeepOk x (k :: before) ↔ g.KeepOk x before := by
  constructor
  · rintro ⟨ks, y, phis, others, h, hks, hy, hphis, hop⟩
    cases ks with
    | nil => cases h; simp_all
    | cons k' ks =>
      obtain ⟨-, rfl⟩ := List.cons.inj h
      exact ⟨ks, y, phis, others, rfl, fun k hk => hks k (List.mem_cons_of_mem _ hk), hy, hphis, hop⟩
  · rintro ⟨ks, y, phis, others, rfl, hks, hy, hphis, hop⟩
    refine ⟨k :: ks, y, phis, others, rfl, ?_, hy, hphis, hop⟩
    rintro k' (_ | ⟨_, hk'⟩)
    exacts [hk, hks k' hk']

theorem keepOk_cons {y : Nat} (zs : List Nat) (hy : g.isKeepLike y = false) :
    g.KeepOk x (y :: zs) ↔ ∃ arg ∈ (g.node x).ins, g.skipProj arg = y ∨ g.skipProj arg ∈ zs.takeWhile g.isPhi := by
  constructor
  · rintro ⟨ks, y', phis, others, h, hks, -, hphis, arg, ha, hm⟩
    cases ks with
    | cons k ks => obtain ⟨rfl, -⟩ := List.cons.inj h; simp_all
    | nil =>
      obtain ⟨rfl, rfl⟩ := List.cons.inj h
      refine ⟨arg, ha, hm.imp_right fun hp => ?_⟩
      rw [List.takeWhile_append_of_pos hphis]
      exact List.mem_append_left _ hp
  · rintro ⟨arg, ha, hm⟩
    exact ⟨[], y, zs.takeWhile g.isPhi, zs.dropWhile g.isPhi, by rw [List.takeWhile_append_dropWhile]; rfl,
      by simp, hy, fun p hp => List.mem_takeWhile_imp hp, arg, ha, hm⟩

/-- What the Keep check of `x` finds: the claim's condition, or, with only Keeps before the
node, an operand that is the block or one of the Phis at the end of the schedule. -/
def KeepFound (b x : Nat) (before rest : List Nat) : Prop :=
  g.KeepOk x before ∨ (∀ k ∈ before, g.isKeepLike k = true) ∧
    ∃ arg ∈ (g.node x).ins, g.skipProj arg = b ∨ g.skipProj arg ∈ rest.reverse.takeWhile g.isPhi

theorem keepCheck_spec (rest : List Nat) (hx : g.isKeepLike x = true) :
    ∀ before : List Nat, ∃ r, g.keepCheck b x before rest = .ok r ∧ (r = true ↔ g.KeepFound b x before rest)
  | [] => ⟨_, keepCheck_nil rest hx, by
      rw [KeepFound, Bool.or_eq_true, any_operandAt]
      simp only [operandAt, Option.getD_none, List.any_eq_true, beq_iff_eq, not_keepOk_nil,
        List.not_mem_nil, false_imp_iff, implies_true, true_and, false_or, ← exists_or,
        ← and_or_left]⟩
  | k :: before => by
    by_cases hk : g.isKeepLike k = true
    · obtain ⟨r, hr, hiff⟩ := keepCheck_spec rest hx before
      refine ⟨r, (keepCheck_cons_keep before rest hk).trans hr, hiff.trans ?_⟩
      simp only [KeepFound, keepOk_cons_keep before hk, List.mem_cons, forall_eq_or_imp, hk, true_and]
    · have hk' : g.isKeepLike k = false := by simpa using hk
      refine ⟨_, keepCheck_cons before rest hk', ?_⟩
      simp only [KeepFound, Bool.or_eq_true, operandAt_some, any_operandAt, keepOk_cons before hk',
        List.mem_cons, forall_eq_or_imp, hk', Bool.false_eq_true, false_and, or_false, ← exists_or,
        ← and_or_left]

end KeepOk

/-- The conditions on the schedule `s` of block `b`, which heads it at time step 0. -/
structure BlockOk (b : Nat) (s : List Nat) : Prop where
  inBlock : ∀ x ∈ s, (g.node x).block = b
  increasing : (0 :: s.map fun x => (g.node x).timeStep).Chain' (· < ·)
  notFlagged : ∀ x ∈ s, (g.node x).flagNotScheduled = false
  phisFirst : ∀ pre x rest, s = pre ++ x :: rest → g.isPhi x = true → ∀ y ∈ pre, g.isPhi y = true
  /-- After a control-flow operation only Keeps, so in particular no second one. -/
  oneCfop : ∀ pre x rest, s = pre ++ x :: rest → (∃ c ∈ pre, g.isCfop c = true) →
    (g.node x).kind = .keep
  operands : ∀ x ∈ s, g.isPhi x = false → ∀ arg ∈ (g.node x).ins, (g.node arg).block = b →
    g.isScheduled arg = true → (g.node arg).timeStep < (g.node x).timeStep
  used : ∀ x ∈ s, 0 < (g.node x).nEdges
  /-- The block counts as the node before the first one. -/
  keeps : ∀ pre x rest, s = pre ++ x :: rest → g.isKeepLike x = true →
    g.KeepOk x pre.reverse ∨ (∀ k ∈ pre, g.isKeepLike k = true) ∧ ∃ arg ∈ (g.node x).ins, g.skipProj arg = b

structure ScheduleOk : Prop where
  blocks : ∀ p ∈ g.schedules, g.BlockOk p.1 p.2
  once : (g.schedules.flatMap Prod.snd).Nodup
  /-- Of the nodes the graph walk reaches, exactly those `arch_is_irn_not_scheduled` does not
  hold of are scheduled. -/
  reachable : ∀ n ∈ g.reachable, g.isScheduled n = !(g.node n).notScheduled

/-- The locals of the walker after the nodes `before`, nearest first. -/
def localOf (before : List Nat) : Local :=
  before.foldr (fun x loc => g.nextLocal loc x) ⟨none, none, 0⟩

/-- What the walker checks at node `x` of block `b`: `before` are the nodes before it, nearest
first, `rest` the nodes after it, and `E` the nodes of the blocks walked before. -/
def NodeOk (b : Nat) (E before : List Nat) (x : Nat) (rest : List Nat) : Prop :=
  g.nodeProblem b (before ++ E) (g.localOf before) x = false ∧
    (g.isKeepLike x = true → g.KeepFound b x before rest)

section Walker

variable {g}

@[simp] theorem localOf_nil : g.localOf [] = ⟨none, none, 0⟩ := rfl

@[simp] theorem localOf_cons (x : Nat) (before : List Nat) :
    g.localOf (x :: before) = g.nextLocal (g.localOf before) x := rfl

theorem localOf_nonPhiFound (before : List Nat) :
    (g.localOf before).nonPhiFound.isSome = before.any (!g.isPhi ·) := by
  induction before with
  | nil => rfl
  | cons x before ih => cases h : g.isPhi x <;> simp [nextLocal, h, ih]

theorem localOf_cfchangeFound (before : List Nat) :
    (g.localOf before).cfchangeFound.isSome = before.any g.isCfop := by
  induction before with
  | nil => rfl
  | cons x before ih =>
    cases h : g.isCfop x
    · simp [nextLocal, h, ih]
    · cases hc : (g.localOf before).cfchangeFound <;> simp [nextLocal, h, hc]

theorem localOf_lastTimestep (before : List Nat) :
    (g.localOf before).lastTimestep = (before.head?.map fun y => (g.node y).timeStep).getD 0 := by
  cases before <;> rfl

theorem nodeProblem_eq_false_iff (b : Nat) (sched before : List Nat) (x : Nat) :
    g.nodeProblem b sched (g.localOf before) x = false ↔
      x ∉ sched ∧ (g.node x).block = b ∧
      (before.head?.map fun y => (g.node y).timeStep).getD 0 < (g.node x).timeStep ∧
      (g.node x).flagNotScheduled = false ∧ (g.isPhi x = true → ∀ y ∈ before, g.isPhi y = true) ∧
      ((∃ c ∈ before, g.isCfop c = true) → (g.node x).kind = .keep) ∧
      (g.isPhi x = false → ∀ arg ∈ (g.node x).ins, (g.node arg).block = b →
        g.isScheduled arg = true → (g.node arg).timeStep < (g.node x).timeStep) ∧
      0 < (g.node x).nEdges := by
  have hcf : (if g.isCfop x then (g.localOf before).cfchangeFound.isSome
      else (g.localOf before).cfchangeFound.isSome && (g.node x).kind != .keep) = false ↔
      ((∃ c ∈ before, g.isCfop c = true) → (g.node x).kind = .keep) := by
    rw [localOf_cfchangeFound]
    by_cases hc : g.isCfop x = true
    · have hk : (g.node x).kind ≠ .keep := by simp_all [isCfop]
      simp [hc, hk]
    · simp only [hc, Bool.false_eq_true, if_false, Bool.and_eq_false_imp, List.any_eq_true,
        bne_eq_false_iff_eq, forall_exists_index, and_imp]
  simp only [nodeProblem, Bool.or_eq_false_iff, hcf, localOf_nonPhiFound, localOf_lastTimestep]
  cases g.isPhi x <;> simp only [List.elem_eq_mem, decide_eq_false_iff_not, bne_eq_false_iff_eq,
    not_le, and_assoc, Bool.false_and, Bool.true_and, Bool.not_false, Bool.not_true,
    Bool.not_eq_eq_eq_not, Bool.not_eq_false, List.any_eq_false, Bool.and_eq_true, beq_iff_eq,
    decide_eq_true_eq, not_and, beq_eq_false_iff_ne, forall_exists_index, and_imp, and_true, true_and,
    ne_eq, Bool.false_eq_true, Bool.true_eq_false, IsEmpty.forall_iff, forall_const,
    Nat.pos_iff_ne_zero]

theorem visitNode_spec (b : Nat) (E pre : List Nat) (x : Nat) (rest : List Nat) (p : Bool) :
    ∃ p', g.visitNode b pre x rest ⟨p, pre ++ E⟩ (g.localOf pre) =
        .ok (⟨p', x :: pre ++ E⟩, g.localOf (x :: pre)) ∧
      (p' = false ↔ p = false ∧ g.NodeOk b E pre x rest) := by
  by_cases hk : g.isKeepLike x = true
  · obtain ⟨r, hr, hiff⟩ := keepCheck_spec (b := b) rest hk pre
    refine ⟨_, by simp only [visitNode, hk, if_true, hr]; rfl, ?_⟩
    simp [NodeOk, hk, ← hiff, and_assoc]
  · refine ⟨_, by simp only [visitNode, hk, Bool.false_eq_true, if_false]; rfl, ?_⟩
    simp [NodeOk, hk]

end Walker

section Split

variable {α : Type}

theorem forall_split_cons {P : List α → α → List α → Prop} (y : α) (s : List α) :
    (∀ pre x rest, y :: s = pre ++ x :: rest → P pre x rest) ↔
      P [] y s ∧ ∀ pre x rest, s = pre ++ x :: rest → P (y :: pre) x rest := by
  constructor
  · intro h
    exact ⟨h [] y s rfl, fun pre x rest hs => h (y :: pre) x rest (by rw [hs]; rfl)⟩
  · rintro ⟨h₀, h₁⟩ (_ | ⟨z, pre⟩) x rest hs
    · cases hs; exact h₀
    · simp only [List.cons_append, List.cons.injEq] at hs
      obtain ⟨rfl, rfl⟩ := hs
      exact h₁ pre x rest rfl

theorem forall_split_mem {P : α → Prop} {s : List α} :
    (∀ pre x rest, s = pre ++ x :: rest → P x) ↔ ∀ x ∈ s, P x := by
  constructor
  · intro h x hx
    obtain ⟨pre, rest, hs⟩ := List.append_of_mem hx
    exact h pre x rest hs
  · rintro h pre x rest rfl
    exact h x (by simp)

theorem forall_split_nodup : ∀ s : List α, (∀ pre x rest, s = pre ++ x :: rest → x ∉ pre) ↔ s.Nodup
  | [] => by simp
  | y :: s => by
    rw [forall_split_cons, List.nodup_cons, ← forall_split_nodup s]
    simp only [List.not_mem_nil, not_false_eq_true, List.mem_cons, not_or, true_and]
    simp only [imp_and, forall_and, forall_split_mem (P := fun x => ¬ x = y)]
    simp [eq_comm, List.forall_mem_ne]

theorem forall_split_chain (t : α → Nat) : ∀ (s : List α) (a : Nat),
    (∀ pre x rest, s = pre ++ x :: rest → (pre.getLast?.map t).getD a < t x) ↔
      (a :: s.map t).Chain' (· < ·)
  | [], a => by simp
  | y :: s, a => by
    rw [forall_split_cons, List.map_cons, List.chain'_cons, ← forall_split_chain t s (t y)]
    simp [List.getLast?_cons, Option.getD_map]

end Split

section Run

variable {g}

/-- The walker returns, having set the nodes of the block in the bitset, and flags a problem
exactly when one was flagged before or some node fails its checks. -/
theorem verifyScheduleWalker_spec (b : Nat) (E : List Nat) :
    ∀ (rest pre : List Nat) (p : Bool), ∃ env,
      g.verifyScheduleWalker b pre rest ⟨p, pre ++ E⟩ (g.localOf pre) = .ok env ∧
      env.scheduled = rest.reverse ++ pre ++ E ∧
      (env.problem = false ↔ p = false ∧
        ∀ mid x rest', rest = mid ++ x :: rest' → g.NodeOk b E (mid.reverse ++ pre) x rest')
  | [], pre, p => ⟨_, rfl, rfl, by simp⟩
  | x :: rest, pre, p => by
    obtain ⟨p', hv, hp'⟩ := g.visitNode_spec b E pre x rest p
    obtain ⟨env, hw, hs, hp⟩ := verifyScheduleWalker_spec b E rest (x :: pre) p'
    refine ⟨env, by simp only [verifyScheduleWalker, hv, bind, Except.bind]; exact hw,
      by simp [hs], ?_⟩
    rw [hp, hp', forall_split_cons]
    simp [and_assoc]

theorem phis_after {s pre rest : List Nat} {x : Nat}
    (h : ∀ pre x rest, s = pre ++ x :: rest → g.isPhi x = true → ∀ y ∈ pre, g.isPhi y = true)
    (hs : s = pre ++ x :: rest) (hx : g.isPhi x = false) : rest.reverse.takeWhile g.isPhi = [] := by
  refine List.eq_nil_iff_forall_not_mem.mpr fun y hy => ?_
  obtain ⟨r₁, r₂, rfl⟩ := List.append_of_mem (List.mem_reverse.mp ((List.takeWhile_sublist _).subset hy))
  have := h (pre ++ x :: r₁) y r₂ (by simp [hs]) (List.mem_takeWhile_imp hy) x (by simp)
  simp_all

/-- With no Phi at the end of the schedule, the Keep check finds the claim's operand, the block
counting as the node before the first. -/
theorem keepFound_iff {b x : Nat} {pre rest : List Nat} (h : rest.reverse.takeWhile g.isPhi = []) :
    g.KeepFound b x pre.reverse rest ↔ g.KeepOk x pre.reverse ∨
      (∀ k ∈ pre, g.isKeepLike k = true) ∧ ∃ arg ∈ (g.node x).ins, g.skipProj arg = b := by
  simp [KeepFound, h]

/-- The checks of the walker at every node of a block are the conditions on the block, and that
its nodes are distinct and new. -/
theorem forall_nodeOk_iff (b : Nat) (E s : List Nat) :
    (∀ pre x rest, s = pre ++ x :: rest → g.NodeOk b E pre.reverse x rest) ↔
      g.BlockOk b s ∧ s.Nodup ∧ ∀ x ∈ s, x ∉ E := by
  simp only [NodeOk, nodeProblem_eq_false_iff, List.mem_append, List.mem_reverse, not_or,
    List.head?_reverse, imp_and, forall_and, forall_split_mem, forall_split_nodup,
    forall_split_chain]
  constructor
  · rintro ⟨⟨⟨hnd, hE⟩, hb, ht, hn, hphi, hcf, hop, hu⟩, hk⟩
    refine ⟨⟨hb, ht, hn, hphi, hcf, hop, hu, fun pre x rest hs hx => ?_⟩, hnd, hE⟩
    exact (keepFound_iff (phis_after hphi hs (g.isPhi_of_isKeepLike hx))).mp (hk pre x rest hs hx)
  · rintro ⟨⟨hb, ht, hn, hphi, hcf, hop, hu, hk⟩, hnd, hE⟩
    refine ⟨⟨⟨hnd, hE⟩, hb, ht, hn, hphi, hcf, hop, hu⟩, fun pre x rest hs hx => ?_⟩
    exact (keepFound_iff (phis_after hphi hs (g.isPhi_of_isKeepLike hx))).mpr (hk pre x rest hs hx)

/-- The walkers over the blocks `ps` in turn return, and flag a problem exactly when one was
flagged before or some block, node or schedule fails its conditions. -/
theorem walkBlocks_spec : ∀ (ps : List (Nat × List Nat)) (env : Env), ∃ env',
    ps.foldlM (fun env p => g.verifyScheduleWalker p.1 [] p.2 env ⟨none, none, 0⟩) env = .ok env' ∧
    (∀ n, n ∈ env'.scheduled ↔ n ∈ ps.flatMap Prod.snd ∨ n ∈ env.scheduled) ∧
    (env'.problem = false ↔ env.problem = false ∧ (∀ p ∈ ps, g.BlockOk p.1 p.2) ∧
      (ps.flatMap Prod.snd).Nodup ∧ ∀ n ∈ ps.flatMap Prod.snd, n ∉ env.scheduled)
  | [], env => ⟨env, rfl, by simp, by simp⟩
  | (b, s) :: ps, ⟨p, E⟩ => by
    obtain ⟨env₁, hw, hs, hp⟩ := g.verifyScheduleWalker_spec b E s [] p
    obtain ⟨env', hf, hs', hp'⟩ := walkBlocks_spec ps env₁
    simp only [localOf_nil, List.nil_append, List.append_nil] at hw hs hp
    refine ⟨env', by simp only [List.foldlM_cons, hw, bind, Except.bind]; exact hf, fun n => ?_, ?_⟩
    · simp only [hs', hs, List.flatMap_cons, List.mem_append, List.mem_reverse, or_assoc]
      exact or_left_comm
    · rw [hp', hp, forall_nodeOk_iff, hs]
      simp only [List.forall_mem_cons, List.flatMap_cons, List.nodup_append, List.mem_append,
        List.mem_reverse, not_or, List.disjoint_left]
      constructor
      · rintro ⟨⟨hp, hb, hnd, hE⟩, hbs, hnd', hE'⟩
        exact ⟨hp, ⟨hb, hbs⟩, ⟨hnd, hnd', fun a ha hf => (hE' a hf).1 ha⟩,
          fun n hn => hn.elim (hE n) fun h => (hE' n h).2⟩
      · rintro ⟨hp, ⟨hb, hbs⟩, ⟨hnd, hnd', hdis⟩, hE⟩
        exact ⟨⟨hp, hb, hnd, fun x hx => hE x (.inl hx)⟩, hbs, hnd',
          fun n hn => ⟨fun hs => hdis hs hn, hE n (.inr hn)⟩⟩

theorem isScheduled_iff {n : Nat} : g.isScheduled n = true ↔ n ∈ g.schedules.flatMap Prod.snd := by
  simp [isScheduled, List.mem_flatMap]

theorem checkSchedule_eq_false (env : Env) : g.checkSchedule env = false ↔
    ∀ n ∈ g.reachable, env.scheduled.contains n = !(g.node n).notScheduled := by
  simp only [checkSchedule, List.any_eq_false]
  refine forall₂_congr fun n _ => ?_
  cases (g.node n).notScheduled <;> cases env.scheduled.contains n <;> decide

end Run

/-- `be_verify_schedule` returns, and accepts exactly the schedules that meet `ScheduleOk`. -/
theorem be_verify_schedule_iff : ∃ r, g.beVerifySchedule = .ok r ∧ (r = true ↔ g.ScheduleOk) := by
  obtain ⟨env, hf, hs, hp⟩ := g.walkBlocks_spec g.schedules ⟨false, []⟩
  refine ⟨_, by simp only [beVerifySchedule, hf, bind, Except.bind]; rfl, ?_⟩
  have hmem : ∀ n, env.scheduled.contains n = g.isScheduled n := fun n => by
    rw [Bool.eq_iff_iff]
    simp [hs, isScheduled_iff]
  simp only [Bool.not_eq_true', Bool.or_eq_false_iff, hp, checkSchedule_eq_false, hmem,
    List.not_mem_nil, not_false_eq_true, implies_true, and_true, true_and]
  exact ⟨fun ⟨⟨hb, hnd⟩, hr⟩ => ⟨hb, hnd, hr⟩, fun ⟨hb, hnd, hr⟩ => ⟨⟨hb, hnd⟩, hr⟩⟩

end Graph

/-- The block heads its schedule at time step 0. In block 0 with the one node 1, a node of time
step 0 is rejected, and a Keep whose operand is the block itself is accepted. -/
theorem be_verify_schedule_block_heads_schedule :
    let node (k : Kind) (t : Nat) (ins : List Nat) : Nat → Node := fun
      | 0 => ⟨.other, 0, false, true, 0, [], 1, none⟩
      | _ => ⟨k, 0, false, false, t, ins, 1, none⟩
    Graph.beVerifySchedule ⟨node .other 0 [], [(0, [1])], [0, 1]⟩ = .ok false ∧
      Graph.beVerifySchedule ⟨node .keep 1 [0], [(0, [1])], [0, 1]⟩ = .ok true :=
  ⟨rfl, rfl⟩

end LibFirm.Schedule
