import LibFirm.Interference

/-!
# The spill-slot verifier

`be_verify_spillslots` walks the graph for reloads. From the memory input of each reload,
`collect` follows the memory web back through spills, `MemPerm` outputs and memory Phis,
recording them in `spills`, which doubles as the visited set; then every two recorded nodes
with the same entity must not interfere. The `MemPerm` accessors, in `benode.c` and not among
the sources, assert that their node is a `MemPerm` and the index below its entity arity.
-/

namespace LibFirm.SpillSlots

open Interference

inductive Kind where
  | spill
  | reload
  /-- A `MemPerm` with its input and output entities, as many as its entity arity. -/
  | memPerm (inEntities outEntities : List (Option Nat))
  | proj (num : Nat)
  | phi
  | other
  deriving DecidableEq, Repr

structure Node where
  kind : Kind
  /-- `get_irn_mode(node) == mode_M`. -/
  isMem : Bool
  ins : List Nat
  /-- `get_frame_entity(node)`, for spills and reloads. -/
  frameEntity : Option Nat
  deriving DecidableEq, Repr

structure Graph where
  size : Nat
  node : Nat → Node
  /-- The nodes `irg_walk_graph` visits, in order. -/
  walk : List Nat
  /-- The values and their users, for `my_values_interfere`. -/
  ssa : SsaGraph
  /-- The definition point of a node's value. -/
  point : Nat → Point

inductive Fault where
  | assertion
  | diverges
  deriving DecidableEq, Repr

/-- The recorded nodes with their entities, in the order they were inserted, and
`problem_found`. -/
structure Env where
  spills : List (Nat × Option Nat)
  problem : Bool
  deriving DecidableEq, Repr

def Env.flag (env : Env) (b : Bool) : Env := { env with problem := env.problem || b }

/-- `set_find` of a node in `spills`. -/
def Env.found (env : Env) (n : Nat) : Bool := env.spills.any (·.1 == n)

namespace Graph

variable (g : Graph)

/-- `be_get_MemPerm_out_entity(memperm, out)`, which asserts. -/
def memPermOutEntity (memperm out : Nat) : Except Fault (Option Nat) :=
  match (g.node memperm).kind with
  | .memPerm _ outs => match outs[out]? with
    | some e => .ok e
    | none => .error .assertion
  | _ => .error .assertion

/-- `collect(env, node, reload, ent)` with `collect_spill`, `collect_memperm` and
`collect_memphi`; the reload they are passed only appears in warnings. `fuel` bounds the
depth, and each level but the last records a node not recorded before. -/
def collect : Nat → Env → Nat → Option Nat → Except Fault Env
  | 0, _, _, _ => .error .diverges
  | fuel + 1, env, node, ent =>
    match (g.node node).kind with
    | .spill =>
      let spillent := (g.node node).frameEntity
      let env := if env.found node then env else { env with spills := env.spills ++ [(node, ent)] }
      .ok (env.flag (spillent != ent))
    | .proj out => do
      let memperm := (g.node node).ins.getD 0 0
      let spillent ← g.memPermOutEntity memperm out
      let env := env.flag (spillent != ent)
      if env.found node then return env
      let env := { env with spills := env.spills ++ [(node, spillent)] }
      match (g.node memperm).kind with
      | .memPerm ins _ =>
        (List.range ins.length).foldlM (fun env i =>
          collect fuel env ((g.node memperm).ins.getD i 0) (ins.getD i none)) env
      | _ => .error .assertion
    | .phi =>
      if !(g.node node).isMem then .ok env
      else if env.found node then .ok env
      else
        let env := { env with spills := env.spills ++ [(node, ent)] }
        (g.node node).ins.foldlM (fun env arg => collect fuel env arg ent) env
    | _ => .ok env

/-- `get_memory_edge`: the one memory input of a node, asserting there is at most one. -/
def getMemoryEdge (node : Nat) : Except Fault (Option Nat) :=
  match (g.node node).ins.reverse.filter fun arg => (g.node arg).isMem with
  | [] => .ok none
  | [m] => .ok (some m)
  | _ => .error .assertion

/-- `collect_spills_walker`. -/
def collectSpillsWalker (env : Env) (node : Nat) : Except Fault Env :=
  match (g.node node).kind with
  | .reload => do
    match ← g.getMemoryEdge node with
    | none => pure (env.flag true)
    | some spill => g.collect (g.size + 1) env spill (g.node node).frameEntity
  | _ => .ok env

/-- `check_spillslot_interference`: every two recorded nodes with the same entity. -/
def checkSpillslotInterference (env : Env) : Env :=
  env.flag <| env.spills.enum.any fun (i, sp1) => (env.spills.drop (i + 1)).any fun sp2 =>
    sp1.2 == sp2.2 && g.ssa.myValuesInterfere (g.point sp1.1) (g.point sp2.1)

/-- `be_verify_spillslots`. -/
def beVerifySpillslots : Except Fault Bool := do
  let env ← g.walk.foldlM g.collectSpillsWalker ⟨[], false⟩
  pure !(g.checkSpillslotInterference env).problem

end Graph

/-- A reload whose memory is `NoMem` reaches no spill and is accepted; one whose memory is the
Proj of a `Store` has it taken for a `MemPerm` output. -/
theorem be_verify_spillslots_unchecked_memory :
    let ssa : SsaGraph := ⟨⟨1, 0, fun _ => []⟩, fun _ => []⟩
    let noMem : Graph := ⟨2, fun
      | 0 => ⟨.other, true, [], none⟩
      | _ => ⟨.reload, false, [0], some 5⟩, [0, 1], ssa, fun n => ⟨0, .node n⟩⟩
    let store : Graph := ⟨4, fun
      | 0 => ⟨.other, true, [], none⟩
      | 1 => ⟨.reload, false, [3], some 5⟩
      | 2 => ⟨.other, false, [0], none⟩
      | _ => ⟨.proj 0, true, [2], none⟩, [0, 2, 3, 1], ssa, fun n => ⟨0, .node n⟩⟩
    noMem.beVerifySpillslots = .ok true ∧ store.beVerifySpillslots = .error .assertion :=
  ⟨rfl, rfl⟩

@[simp] theorem Env.flag_spills (env : Env) (b : Bool) : (env.flag b).spills = env.spills := rfl

theorem Env.found_eq_false {env : Env} {n : Nat} :
    env.found n = false ↔ n ∉ env.spills.map Prod.fst := by
  simp only [Env.found, List.any_eq_false, beq_iff_eq, List.mem_map, not_exists, not_and]

/-- The recorded nodes are nodes of the graph, each recorded once. -/
structure Env.Recorded (g : Graph) (env : Env) : Prop where
  nodup : (env.spills.map Prod.fst).Nodup
  lt : ∀ p ∈ env.spills, p.1 < g.size

/-- A run of the collection that returns with `P`, or stops at an assertion. -/
def Settles (P : Env → Prop) : Except Fault Env → Prop
  | .ok env => P env
  | .error e => e = .assertion

section Recorded

variable {g : Graph} {env : Env}

theorem Env.Recorded.flag (h : env.Recorded g) (b : Bool) : (env.flag b).Recorded g :=
  ⟨h.nodup, h.lt⟩

theorem Env.Recorded.insert (h : env.Recorded g) {n : Nat} (e : Option Nat) (hf : env.found n = false)
    (hn : n < g.size) : ({ env with spills := env.spills ++ [(n, e)] } : Env).Recorded g where
  nodup := by
    rw [List.map_append, List.map_singleton, (List.perm_append_singleton _ _).nodup_iff]
    exact List.nodup_cons.mpr ⟨Env.found_eq_false.mp hf, h.nodup⟩
  lt p hp := by
    rcases List.mem_append.mp hp with hp | hp
    exacts [h.lt p hp, (List.mem_singleton.mp hp) ▸ hn]

theorem Env.Recorded.length_le (h : env.Recorded g) : env.spills.length ≤ g.size := by
  have := (List.subperm_of_subset h.nodup fun n hn => List.mem_range.mpr <| by
    obtain ⟨p, hp, rfl⟩ := List.mem_map.mp hn
    exact h.lt p hp).length_le
  simpa using this

end Recorded

theorem Settles.mono {P Q : Env → Prop} (hPQ : ∀ env, P env → Q env) :
    ∀ {r : Except Fault Env}, Settles P r → Settles Q r
  | .ok env, h => hPQ env h
  | .error _, h => h

theorem foldlM_settles {α : Type} {f : Env → α → Except Fault Env} {P : Env → Prop} :
    ∀ (l : List α), (∀ env, ∀ a ∈ l, P env → Settles P (f env a)) → ∀ env, P env →
      Settles P (l.foldlM f env)
  | [], _, _, h => h
  | a :: l, hf, env, h => by
    simp only [List.foldlM_cons, bind, Except.bind]
    have := hf env a (List.mem_cons_self _ _) h
    revert this
    cases f env a with
    | error e => exact id
    | ok env' => exact foldlM_settles l (fun e b hb => hf e b (List.mem_cons_of_mem _ hb)) env'

namespace Graph

variable {g : Graph}

theorem memPermOutEntity_eq_error {m o : Nat} {e : Fault} (h : g.memPermOutEntity m o = .error e) :
    e = .assertion := by
  unfold memPermOutEntity at h
  split at h
  · split at h <;> cases h; rfl
  · cases h; rfl

theorem getMemoryEdge_eq_error {node : Nat} {e : Fault} (h : g.getMemoryEdge node = .error e) :
    e = .assertion := by
  unfold getMemoryEdge at h
  split at h <;> cases h
  rfl

theorem mem_of_getMemoryEdge {node m : Nat} (h : g.getMemoryEdge node = .ok (some m)) :
    m ∈ (g.node node).ins := by
  unfold getMemoryEdge at h
  split at h
  · cases h
  · rename_i hm
    cases h
    exact List.mem_reverse.mp (List.mem_filter.mp (hm ▸ List.mem_singleton_self m)).1
  · cases h

section Inputs

variable (hins : ∀ n < g.size, ∀ m ∈ (g.node n).ins, m < g.size)
include hins

theorem input_lt {n : Nat} (hn : n < g.size) (i : Nat) : (g.node n).ins.getD i 0 < g.size := by
  rw [List.getD_eq_getElem?_getD]
  cases h : (g.node n).ins[i]? with
  | none => exact Nat.zero_lt_of_lt hn
  | some m => exact hins n hn m (List.getElem?_mem h)

/-- Each level of `collect` records a node not recorded before, so a fuel above the nodes not
yet recorded is enough. -/
theorem collect_settles : ∀ (fuel : Nat) (env : Env) (node : Nat) (ent : Option Nat),
    env.Recorded g → node < g.size → g.size + 1 ≤ fuel + env.spills.length →
    Settles (fun env' => env'.Recorded g ∧ env.spills.length ≤ env'.spills.length)
      (g.collect fuel env node ent)
  | 0, env, _, _, h, _, hfuel => absurd h.length_le (by omega)
  | fuel + 1, env, node, ent, h, hn, hfuel => by
    -- the inputs followed after recording `node` are collected with one level less
    have hchildren : ∀ {α : Type} (env₁ : Env) (l : List α) (inp : α → Nat) (ents : α → Option Nat),
        env₁.Recorded g → env.spills.length + 1 ≤ env₁.spills.length → (∀ a ∈ l, inp a < g.size) →
        Settles (fun env' => env'.Recorded g ∧ env.spills.length ≤ env'.spills.length)
          (l.foldlM (fun e a => g.collect fuel e (inp a) (ents a)) env₁) := by
      intro α env₁ l inp ents h₁ hlen hinp
      refine Settles.mono (fun e he => ⟨he.1, by omega⟩) (foldlM_settles
        (P := fun e => e.Recorded g ∧ env₁.spills.length ≤ e.spills.length) l ?_ env₁ ⟨h₁, Nat.le_refl _⟩)
      rintro e a ha ⟨he, hle⟩
      exact Settles.mono (fun e' he' => ⟨he'.1, by omega⟩)
        (collect_settles fuel e _ _ he (hinp a ha) (by omega))
    have hmemperm := input_lt hins hn 0
    cases hk : (g.node node).kind
    case spill =>
      simp only [collect, hk, Settles]
      split
      · exact ⟨h.flag _, Nat.le_refl _⟩
      · exact ⟨(h.insert _ (eq_false_of_ne_true ‹_›) hn).flag _, by simp⟩
    case proj out =>
      simp only [collect, hk, bind, Except.bind]
      cases hm : g.memPermOutEntity ((g.node node).ins.getD 0 0) out with
      | error e => exact memPermOutEntity_eq_error hm
      | ok spillent =>
        simp only
        split
        · exact ⟨h.flag _, Nat.le_refl _⟩
        · simp only [pure, Except.pure]
          split
          · exact hchildren _ _ _ _ ((h.flag _).insert _ (eq_false_of_ne_true ‹_›) hn) (by simp)
              fun i _ => input_lt hins hmemperm i
          · rfl
    case phi =>
      simp only [collect, hk]
      split
      · exact ⟨h, Nat.le_refl _⟩
      split
      · exact ⟨h, Nat.le_refl _⟩
      exact hchildren _ _ id (fun _ => ent) (h.insert _ (eq_false_of_ne_true ‹_›) hn) (by simp)
        fun m hm => hins node hn m hm
    all_goals simp only [collect, hk]; exact ⟨h, Nat.le_refl _⟩

theorem collectSpillsWalker_settles {env : Env} (h : env.Recorded g) {node : Nat}
    (hn : node < g.size) : Settles (Env.Recorded g) (g.collectSpillsWalker env node) := by
  unfold collectSpillsWalker
  cases hk : (g.node node).kind
  case reload =>
    simp only [bind, Except.bind]
    cases hm : g.getMemoryEdge node with
    | error e => exact getMemoryEdge_eq_error hm
    | ok m =>
      cases m with
      | none => exact h.flag true
      | some spill =>
        exact Settles.mono (fun _ h' => h'.1) (collect_settles hins _ _ _ _ h
          (hins node hn spill (mem_of_getMemoryEdge hm)) (Nat.le_add_right _ _))
  all_goals exact h

/-- `be_verify_spillslots` never runs out of fuel, memory Phis in cycles included: it returns,
or stops at an assertion of `get_memory_edge` or of a `MemPerm` accessor. -/
theorem beVerifySpillslots_ne_diverges (hwalk : ∀ n ∈ g.walk, n < g.size) :
    g.beVerifySpillslots ≠ .error .diverges := by
  have := foldlM_settles g.walk (fun env n hn h => collectSpillsWalker_settles hins h (hwalk n hn))
    ⟨[], false⟩ ⟨List.nodup_nil, fun _ h => absurd h (List.not_mem_nil _)⟩
  unfold beVerifySpillslots
  revert this
  cases g.walk.foldlM g.collectSpillsWalker ⟨[], false⟩ with
  | error e => rintro rfl; nofun
  | ok env => intro; nofun

end Inputs

end Graph

/-- A reload of entity 5 whose memory is the memory Phi 2, which reads the spill 1 and itself. -/
def phiCycle : Graph :=
  ⟨4, fun
    | 0 => ⟨.other, true, [], none⟩
    | 1 => ⟨.spill, true, [0], some 5⟩
    | 2 => ⟨.phi, true, [1, 2], none⟩
    | _ => ⟨.reload, false, [2], some 5⟩,
    [0, 1, 2, 3], ⟨⟨1, 0, fun _ => []⟩, fun _ => []⟩, fun n => ⟨0, .node n⟩⟩

theorem phiCycle_ne_diverges : (∀ n < phiCycle.size, ∀ m ∈ (phiCycle.node n).ins, m < phiCycle.size) ∧
    (∀ n ∈ phiCycle.walk, n < phiCycle.size) ∧ phiCycle.beVerifySpillslots ≠ .error .diverges :=
  ⟨by decide, by decide, Graph.beVerifySpillslots_ne_diverges (by decide) (by decide)⟩

example : phiCycle.beVerifySpillslots = .ok true := rfl

end LibFirm.SpillSlots
