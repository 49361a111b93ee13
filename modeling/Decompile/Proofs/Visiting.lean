import Decompile.Expression.Operands
import Decompile.Proofs.Tree

/-!
The walks over blocks and over expressions are bounded by the size of the table. They miss nothing,
however the entries are linked: what can be reached at all is reached without meeting an entry twice.
-/

namespace Decompile

section Walk

variable {α : Type} {next : α → List α} {nodes : List α} {x y z : α} {n : Nat}

/-- The entries that paths of fewer than `n` links from `x` meet. -/
def walk (next : α → List α) : Nat → α → List α
  | 0, _ => []
  | n + 1, x => x :: (next x).flatMap (walk next n)

/-- A path to `y` that stays inside `nodes`. -/
inductive Leads (next : α → List α) (nodes : List α) (y : α) : α → Prop
  | here : y ∈ nodes → Leads next nodes y y
  | step {x z : α} : x ∈ nodes → z ∈ next x → Leads next nodes y z → Leads next nodes y x

theorem leads_of_mem_walk (hnodes : ∀ x, next x ≠ [] → x ∈ nodes) (hy : y ∈ nodes)
    (h : y ∈ walk next n x) : Leads next nodes y x := by
  induction n generalizing x with
  | zero => simp [walk] at h
  | succ n ih =>
    rcases List.mem_cons.mp h with rfl | h
    · exact .here hy
    · obtain ⟨z, hz, h⟩ := List.mem_flatMap.mp h
      exact .step (hnodes x (List.ne_nil_of_mem hz)) hz (ih h)

/-- After its last visit to `x` a path does without `x`. -/
theorem Leads.avoid [DecidableEq α] (h : Leads next nodes y z) (x : α) :
    Leads next (nodes.erase x) y z ∨ x = y ∨ ∃ c ∈ next x, Leads next (nodes.erase x) y c := by
  induction h with
  | here hy =>
    by_cases hx : x = y
    · exact .inr (.inl hx)
    · exact .inl (.here ((List.mem_erase_of_ne (Ne.symm hx)).mpr hy))
  | @step w z hw hz _ ih =>
    rcases ih with h | h
    · by_cases hx : x = w
      · subst hx
        exact .inr (.inr ⟨z, hz, h⟩)
      · exact .inl (.step ((List.mem_erase_of_ne (Ne.symm hx)).mpr hw) hz h)
    · exact .inr h

theorem Leads.mem_walk [DecidableEq α] (h : Leads next nodes y x) :
    y ∈ walk next nodes.length x := by
  induction hn : nodes.length generalizing nodes x with
  | zero =>
    rw [List.length_eq_zero_iff] at hn
    cases h <;> simp_all
  | succ n ih =>
    have hx : x ∈ nodes := by cases h <;> assumption
    have hlen : (nodes.erase x).length = n := by rw [List.length_erase_of_mem hx, hn]; rfl
    have hvia : x = y ∨ ∃ c ∈ next x, Leads next (nodes.erase x) y c := by
      cases h with
      | here => exact .inl rfl
      | step _ hz h =>
        rcases h.avoid x with h | h
        · exact .inr ⟨_, hz, h⟩
        · exact h
    rcases hvia with rfl | ⟨c, hc, h⟩
    · exact List.mem_cons_self
    · exact List.mem_cons_of_mem _ (List.mem_flatMap.mpr ⟨c, hc, ih h hlen⟩)

end Walk

namespace Blocks

variable {t : Blocks} {r b c : BlockId} {n : Nat}

theorem subtreeWithin_eq_walk (t : Blocks) (n : Nat) (b : BlockId) :
    t.subtreeWithin n b = walk (fun b ↦ (t.statement b).children) n b := by
  induction n generalizing b with
  | zero => rfl
  | succ n ih => rw [subtreeWithin, walk, funext ih]

theorem mem_subtreeWithin_child (hc : c ∈ (t.statement b).children)
    (h : r ∈ t.subtreeWithin n c) : r ∈ t.subtreeWithin (n + 1) b :=
  List.mem_cons_of_mem _ (List.mem_flatMap.mpr ⟨c, hc, h⟩)

theorem mem_subtree_of_within (h : b ∈ t.subtreeWithin n r) (hb : b.index < t.size) :
    b ∈ t.subtree r := by
  have hmem : ∀ {b : BlockId}, b.index < t.size → b ∈ (List.range t.size).map BlockId.mk :=
    fun {b} hb ↦ List.mem_map.mpr ⟨b.index, List.mem_range.mpr hb, rfl⟩
  rw [subtreeWithin_eq_walk] at h
  have h := (leads_of_mem_walk (fun b hb ↦ hmem ?_) (hmem hb) h).mem_walk
  · rwa [List.length_map, List.length_range, ← subtreeWithin_eq_walk] at h
  · by_contra hlt
    have hget : t.get b = default := t.table.get_of_size_le (Nat.le_of_not_lt hlt)
    rw [statement, hget] at hb
    exact hb rfl

theorem Below.exists_mem (h : t.Below r b) : ∃ n, b ∈ t.subtreeWithin n r := by
  induction h with
  | root => exact ⟨1, List.mem_cons_self⟩
  | @child p c hp hc ih =>
    obtain ⟨n, hn⟩ := ih
    refine ⟨n + 1, ?_⟩
    clear hp
    induction n generalizing r with
    | zero => simp [subtreeWithin] at hn
    | succ n ih =>
      rcases List.mem_cons.mp hn with rfl | hn
      · exact mem_subtreeWithin_child hc List.mem_cons_self
      · obtain ⟨d, hd, hn⟩ := List.mem_flatMap.mp hn
        exact mem_subtreeWithin_child hd (ih hn)

theorem below_of_mem (h : b ∈ t.subtreeWithin n r) : t.Below r b := by
  induction n generalizing r with
  | zero => simp [subtreeWithin] at h
  | succ n ih =>
    rcases List.mem_cons.mp h with rfl | h
    · exact .root
    · obtain ⟨c, hc, h⟩ := List.mem_flatMap.mp h
      exact (Below.child .root hc).trans (ih h)

theorem IsTree.mem_subtree (ht : t.IsTree r) : b ∈ t.subtree r ↔ t.Below r b := by
  refine ⟨below_of_mem, fun h ↦ ?_⟩
  obtain ⟨n, hn⟩ := h.exists_mem
  exact mem_subtree_of_within hn (ht.lt_size h)

end Blocks

namespace Expressions

variable {t : Expressions} {e f : ExprId} {n : Nat} {x : LocalId}

theorem preorderWithin_eq_walk (t : Expressions) (n : Nat) (e : ExprId) :
    t.preorderWithin n e = walk (fun e ↦ (t.get e).children) n e := by
  induction n generalizing e with
  | zero => rfl
  | succ n ih => rw [preorderWithin, walk, funext ih]

theorem mem_preorder_of_within (h : f ∈ t.preorderWithin n e) (hf : f.index < t.size) :
    f ∈ t.preorder e := by
  have hmem : ∀ {e : ExprId}, e.index < t.size → e ∈ (List.range t.size).map ExprId.mk :=
    fun {e} he ↦ List.mem_map.mpr ⟨e.index, List.mem_range.mpr he, rfl⟩
  rw [preorderWithin_eq_walk] at h
  have h := (leads_of_mem_walk (fun e he ↦ hmem ?_) (hmem hf) h).mem_walk
  · rwa [List.length_map, List.length_range, ← preorderWithin_eq_walk] at h
  · by_contra hlt
    have hget : t.get e = default := t.nodes.get_of_size_le (Nat.le_of_not_lt hlt)
    rw [hget] at he
    exact he rfl

theorem mem_localsIn_of_within (h : f ∈ t.preorderWithin n e) (hx : (t.get f).local? = some x) :
    x ∈ t.localsIn e := by
  refine List.mem_filterMap.mpr ⟨f, mem_preorder_of_within h ?_, hx⟩
  by_contra hlt
  rw [get, Table.get_of_size_le _ (Nat.le_of_not_lt hlt)] at hx
  cases hx

end Expressions

end Decompile
