import Mathlib.Tactic.Common

/-!
# Checking the cached liveness

`be_liveness_check` computes the liveness afresh and walks the blocks with `lv_check_walker`,
which compares the entry of each block in the cached and in the fresh analysis; a block in which
nothing is live may have no entry. What the walker prints is kept as a report naming the block.
-/

namespace LibFirm.Liveness

/-- `be_lv_info_node_t`: a live node and its three liveness flags. -/
structure Member where
  node : Nat
  flags : Nat
  deriving DecidableEq, Repr

/-- A liveness analysis: the entry `ir_nodehashmap_get` finds for a block. -/
abbrev Lv := Nat → Option (List Member)

inductive Fault where
  | nullDeref
  deriving DecidableEq, Repr

/-- What `lv_check_walker` prints for a block. -/
inductive Report where
  /-- "liveness should be empty but current liveness contains". -/
  | shouldBeEmpty (block : Nat)
  /-- "liveness set sizes differ". -/
  | sizesDiffer (block : Nat) (nCurr nFresh : Nat)
  deriving DecidableEq, Repr

def Report.block : Report → Nat
  | .shouldBeEmpty b => b
  | .sizesDiffer b _ _ => b

/-- `lv_check_walker` on block `bl`, with `given` the cached and `fresh` the new analysis. -/
def lvCheckWalker (given fresh : Lv) (bl : Nat) : Except Fault (Option Report) :=
  let curr := given bl
  let fr := fresh bl
  if fr.isNone && curr.isSome && decide (0 < (curr.getD []).length) then
    .ok (some (.shouldBeEmpty bl))
  else match curr with
    | none => .ok none
    | some c => match fr with
      | none => .error .nullDeref
      | some f => .ok (if c.length ≠ f.length then some (.sizesDiffer bl c.length f.length) else none)

/-- `be_liveness_check`: the walker over the blocks `irg_block_walk_graph` visits. -/
def beLivenessCheck (given fresh : Lv) : List Nat → Except Fault (List Report)
  | [] => .ok []
  | bl :: bls => do
    let r ← lvCheckWalker given fresh bl
    let rs ← beLivenessCheck given fresh bls
    pure (r.toList ++ rs)

/-- The condition under which the walker reports a block: a cached entry that has members
where the fresh analysis has no entry, or a different number of members than the fresh one. -/
def SizeMismatch (given fresh : Lv) (b : Nat) : Prop :=
  ∃ c, given b = some c ∧ (fresh b = none ∧ c ≠ [] ∨ ∃ f, fresh b = some f ∧ c.length ≠ f.length)

/-- The walker faults on a block whose cached entry is empty and which has no fresh entry:
`fr->n_members` is read with `fr` `NULL`. -/
def Dangling (given fresh : Lv) (b : Nat) : Prop := given b = some [] ∧ fresh b = none

section Walker

variable {given fresh : Lv} {b : Nat}

theorem lvCheckWalker_of_given_none (hc : given b = none) : lvCheckWalker given fresh b = .ok none := by
  simp [lvCheckWalker, hc]

theorem lvCheckWalker_of_dangling (hc : given b = some []) (hf : fresh b = none) :
    lvCheckWalker given fresh b = .error .nullDeref := by
  simp [lvCheckWalker, hc, hf]

theorem lvCheckWalker_of_fresh_none {m : Member} {ms : List Member} (hc : given b = some (m :: ms))
    (hf : fresh b = none) : lvCheckWalker given fresh b = .ok (some (.shouldBeEmpty b)) := by
  simp [lvCheckWalker, hc, hf]

theorem lvCheckWalker_of_some {c f : List Member} (hc : given b = some c) (hf : fresh b = some f) :
    lvCheckWalker given fresh b =
      .ok (if c.length ≠ f.length then some (.sizesDiffer b c.length f.length) else none) := by
  simp [lvCheckWalker, hc, hf]

theorem lvCheckWalker_eq_error_iff : (∃ e, lvCheckWalker given fresh b = .error e) ↔ Dangling given fresh b := by
  unfold Dangling
  cases hc : given b with
  | none => simp [lvCheckWalker_of_given_none hc]
  | some c =>
    cases hf : fresh b with
    | none =>
      cases c with
      | nil => exact iff_of_true ⟨_, lvCheckWalker_of_dangling hc hf⟩ ⟨rfl, rfl⟩
      | cons m ms => simp [lvCheckWalker_of_fresh_none hc hf]
    | some f => simp [lvCheckWalker_of_some hc hf]

/-- A report of the walker names its block, and on a block that does not fault the walker
reports exactly on a size mismatch. -/
theorem lvCheckWalker_eq_ok {r : Option Report} (h : lvCheckWalker given fresh b = .ok r) :
    (∀ rep ∈ r, rep.block = b) ∧ (r.isSome ↔ SizeMismatch given fresh b) := by
  unfold SizeMismatch
  cases hc : given b with
  | none => rw [lvCheckWalker_of_given_none hc] at h; cases Except.ok.inj h; simp
  | some c =>
    cases hf : fresh b with
    | none =>
      cases c with
      | nil => rw [lvCheckWalker_of_dangling hc hf] at h; cases h
      | cons m ms =>
        rw [lvCheckWalker_of_fresh_none hc hf] at h; cases Except.ok.inj h; simp [Report.block]
    | some f =>
      rw [lvCheckWalker_of_some hc hf] at h; cases Except.ok.inj h
      split <;> simp_all [Report.block]

theorem beLivenessCheck_reports_iff (blocks : List Nat) :
    match beLivenessCheck given fresh blocks with
    | .ok rs => (∀ b ∈ blocks, ¬ Dangling given fresh b) ∧
        ∀ b, (∃ r ∈ rs, r.block = b) ↔ b ∈ blocks ∧ SizeMismatch given fresh b
    | .error _ => ∃ b ∈ blocks, Dangling given fresh b := by
  induction blocks with
  | nil => simp [beLivenessCheck]
  | cons bl bls ih =>
    simp only [beLivenessCheck, bind, Except.bind]
    cases hr : lvCheckWalker given fresh bl with
    | error e => exact ⟨bl, List.mem_cons_self _ _, lvCheckWalker_eq_error_iff.mp ⟨e, hr⟩⟩
    | ok r =>
      have hnd : ¬ Dangling given fresh bl := fun hd => by
        obtain ⟨e, he⟩ := lvCheckWalker_eq_error_iff.mpr hd; rw [he] at hr; cases hr
      obtain ⟨hblock, hsome⟩ := lvCheckWalker_eq_ok hr
      cases hrs : beLivenessCheck given fresh bls with
      | error e =>
        rw [hrs] at ih
        obtain ⟨b, hb, hd⟩ := ih
        exact ⟨b, List.mem_cons_of_mem _ hb, hd⟩
      | ok rs =>
        rw [hrs] at ih
        -- the walker's own report, if any, is about its block and says that block mismatches
        have hcur : ∀ b, (∃ x ∈ r.toList, x.block = b) ↔ b = bl ∧ SizeMismatch given fresh b := by
          intro b
          cases r with
          | none => exact iff_of_false (by simp) fun ⟨h, hm⟩ => Bool.false_ne_true (hsome.mpr (h ▸ hm))
          | some rep =>
            simp only [Option.toList_some, List.mem_singleton, exists_eq_left, hblock rep rfl]
            exact ⟨fun h => ⟨h.symm, h ▸ hsome.mp rfl⟩, fun ⟨h, _⟩ => h.symm⟩
        refine ⟨fun b hb => ?_, fun b => ?_⟩
        · rcases List.mem_cons.mp hb with rfl | hb
          exacts [hnd, ih.1 b hb]
        · simp only [List.mem_append, or_and_right, exists_or, hcur, ih.2, List.mem_cons]

end Walker

/-- Entries of one size but other members, and an entry only in the fresh analysis, are not
reported; an empty cached entry with no fresh one faults. -/
theorem be_liveness_check_compares_sizes :
    let given : Lv := fun | 0 => some [⟨5, 1⟩] | 2 => some [] | _ => none
    let fresh : Lv := fun | 0 => some [⟨5, 2⟩] | 1 => some [⟨6, 1⟩] | _ => none
    beLivenessCheck given fresh [0, 1] = .ok [] ∧
      beLivenessCheck given fresh [0, 1, 2] = .error .nullDeref :=
  ⟨rfl, rfl⟩

end LibFirm.Liveness
