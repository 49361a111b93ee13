import Decompile.Proofs.Walk
import Decompile.Statement.Navigation

namespace Decompile.Blocks

/-- `b` is `r` or one of the blocks inside it. -/
inductive Below (t : Blocks) (r : BlockId) : BlockId → Prop
  | root : Below t r r
  | child {p c : BlockId} : Below t r p → c ∈ (t.statement p).children → Below t r c

/-- Each block below `r` hangs in one place and knows the block around it. -/
structure IsTree (t : Blocks) (r : BlockId) : Prop where
  outer_root : t.outer r = none
  outer_child : ∀ {p c}, t.Below r p → c ∈ (t.statement p).children → t.outer c = some p
  nodup : ∀ {p}, t.Below r p → (t.statement p).children.Nodup
  lt_size : ∀ {b}, t.Below r b → b.index < t.size

variable {t : Blocks} {r b c p x : BlockId}

theorem Below.trans (h : t.Below r p) (h' : t.Below p b) : t.Below r b := by
  induction h' with
  | root => exact h
  | child _ hc ih => exact .child ih hc

theorem Below.mem_of_closed {l : List BlockId} (hr : r ∈ l)
    (hl : ∀ p ∈ l, ∀ c ∈ (t.statement p).children, c ∈ l) (h : t.Below r b) : b ∈ l := by
  induction h with
  | root => exact hr
  | child _ hc ih => exact hl _ ih _ hc

theorem lt_of_outer (h : t.outer b = some p) : b.index < t.size := by
  by_contra hlt
  have hget : t.get b = default := t.table.get_of_size_le (Nat.le_of_not_lt hlt)
  simp only [outer, hget] at h
  cases h

namespace IsTree

variable (ht : t.IsTree r)
include ht

theorem exists_depth (hb : t.Below r b) : ∃ n, EndsIn t.outer n b ∧ n < t.size := by
  have hends : ∃ n, EndsIn t.outer n b := by
    induction hb with
    | root => exact ⟨0, .stop ht.outer_root⟩
    | child hp hc ih =>
      obtain ⟨n, hn⟩ := ih
      exact ⟨n + 1, .step (ht.outer_child hp hc) hn⟩
  obtain ⟨n, hn⟩ := hends
  exact ⟨n, hn, hn.add_le BlockId.index (fun _ _ h ↦ by cases ‹BlockId›; cases ‹BlockId›; simp_all)
    (fun _ _ ↦ lt_of_outer) (List.nodup_singleton r) (by simpa using ⟨ht.outer_root, ht.lt_size .root⟩)⟩

theorem depth_lt {n : Nat} (hb : t.Below r b) (hn : EndsIn t.outer n b) : n < t.size := by
  obtain ⟨k, hk, hlt⟩ := ht.exists_depth hb
  exact hn.unique hk ▸ hlt

theorem ends_below_child {n : Nat} (hn : EndsIn t.outer n p) (hp : t.Below r p)
    (hc : c ∈ (t.statement p).children) (hx : t.Below c x) : ∃ k, EndsIn t.outer (n + 1 + k) x := by
  induction hx with
  | root => exact ⟨0, .step (ht.outer_child hp hc) hn⟩
  | child hq he ih =>
    obtain ⟨k, hk⟩ := ih
    exact ⟨k + 1, .step (ht.outer_child ((hp.child hc).trans hq) he) hk⟩

theorem not_below_child (hp : t.Below r p) (hc : c ∈ (t.statement p).children) : ¬ t.Below c p := by
  intro h
  obtain ⟨n, hn, -⟩ := ht.exists_depth hp
  obtain ⟨k, hk⟩ := ht.ends_below_child hn hp hc h
  have := hn.unique hk
  omega

theorem child_unique (hp : t.Below r p) (hb : b ∈ (t.statement p).children)
    (hc : c ∈ (t.statement p).children) (hbx : t.Below b x) (hcx : t.Below c x) : b = c := by
  induction hbx with
  | root =>
    cases hcx with
    | root => rfl
    | child hq he =>
      have hout := ht.outer_child ((hp.child hc).trans hq) he
      obtain rfl := Option.some.inj ((ht.outer_child hp hb).symm.trans hout)
      exact absurd hq (ht.not_below_child hp hc)
  | child hq he ih =>
    have hout := ht.outer_child ((hp.child hb).trans hq) he
    cases hcx with
    | root =>
      obtain rfl := Option.some.inj ((ht.outer_child hp hc).symm.trans hout)
      exact absurd hq (ht.not_below_child hp hb)
    | child hq' he' =>
      have hout' := ht.outer_child ((hp.child hc).trans hq') he'
      obtain rfl := Option.some.inj (hout.symm.trans hout')
      exact ih hq'

end IsTree

end Decompile.Blocks
