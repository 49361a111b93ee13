import Decompile.Proofs.InstructionGraph

/-!
A switch is lowered to cases in the order of their targets, of which only the last one of each
target jumps. Entered at the case of a value, it leaves by a jump to where the instruction sends the
value.
-/

namespace Decompile

/-- A case of a lowered switch, with the mark that the case before it falls into it. -/
structure Arm where
  value : CaseValue
  body : BlockId
  marked : Bool

namespace Analysis

variable {a a' : Analysis} {cases : List (Int × Nat)} {fallback : Nat}

def arm? (a : Analysis) (c : BlockId) : Option Arm :=
  match a.statement c with
  | .switchCase value body marked => some ⟨value, body, marked⟩
  | _ => none

def arms (a : Analysis) : Statement → List Arm
  | .switch _ cases _ => cases.filterMap a.arm?
  | _ => []

/-- Runs from case to case up to the first body that jumps. -/
def exit? (branches : List (BlockId × Nat)) (arms : List Arm) : Option Nat :=
  arms.findSome? fun x ↦ branches.lookup x.body

/-- Where the switch goes that is entered with a value. -/
def dispatch (a : Analysis) (l : Lowered) (v : Int) : Option Nat :=
  let arms := a.arms l.statement
  exit? l.branches (arms.drop (entryCase v (arms.map fun x ↦ some x.value)))

/-- How cases are lowered: what they hold, where each of them comes to, and which are marked. -/
structure LowersCases (previous : Option Nat) (cs : List (CaseValue × Nat)) (size : Nat)
    (arms : List Arm) (branches : List (BlockId × Nat)) : Prop where
  values : arms.map Arm.value = cs.map (·.1)
  late : ∀ x ∈ arms, size ≤ x.body.index
  exits : ∀ i, exit? branches (arms.drop i) = (cs.map (·.2))[i]?
  marks : arms.map (·.marked) =
    List.zipWith (fun p t ↦ p == some t) (previous :: cs.map fun c ↦ some c.2) (cs.map (·.2))

theorem exit?_cons_of_late {b : BlockId} {t : Nat} {branches : List (BlockId × Nat)} {xs : List Arm}
    (h : ∀ x ∈ xs, x.body ≠ b) : exit? ((b, t) :: branches) xs = exit? branches xs := by
  induction xs with
  | nil => rfl
  | cons x xs ih =>
    rw [List.forall_mem_cons] at h
    simp only [exit?, List.findSome?_cons] at ih ⊢
    rw [List.lookup_cons, beq_false_of_ne h.1, ih h.2]

theorem lowersCases (previous : Option Nat) (cs : List (CaseValue × Nat)) (a : Analysis) :
    LowersCases previous cs a.blocks.size
      ((lowerCases previous cs a).2.1.filterMap (lowerCases previous cs a).1.arm?)
      (lowerCases previous cs a).2.2 := by
  induction cs generalizing previous a with
  | nil => exact ⟨rfl, by simp [lowerCases], fun i ↦ by simp [lowerCases, exit?], rfl⟩
  | cons c cs ih =>
    obtain ⟨v, t⟩ := c
    obtain ⟨kids, -, hs, -⟩ := sprouts_lowerCases (some t) cs (a.addCase v (previous == some t))
    have h := ih (some t) (a.addCase v (previous == some t))
    rw [lowerCases_cons]
    dsimp only
    generalize lowerCases (some t) cs (a.addCase v (previous == some t)) = r at *
    have hsize : (a.addCase v (previous == some t)).blocks.size = a.blocks.size + 2 := by
      simp [addCase]
    rw [hsize] at h
    have harm : r.1.arm? ⟨a.blocks.size + 1⟩ =
        some ⟨v, ⟨a.blocks.size⟩, previous == some t⟩ := by
      have hst := (hs.off.same ⟨a.blocks.size + 1⟩ (by simp [hsize]) not_false).1
      have hcase := (a.blocks.alloc .empty).1.statement_alloc_self
        (.switchCase v (a.blocks.alloc .empty).2 (previous == some t))
      rw [Blocks.size_alloc] at hcase
      rw [arm?, statement, hst.trans hcase, Blocks.id_alloc]
    have hlate : ∀ x ∈ r.2.1.filterMap r.1.arm?, x.body ≠ ⟨a.blocks.size⟩ := by
      intro x hx he
      have := h.late x hx
      rw [he] at this
      simp at this
    have hfresh : r.2.2.lookup ⟨a.blocks.size⟩ = none := by
      rw [List.lookup_eq_none_iff]
      intro p hp
      have := hs.fresh p.1 (hs.inside p hp)
      rw [hsize] at this
      exact bne_iff_ne.mpr fun he ↦ by simp [← he] at this
    rw [List.filterMap_cons_some harm]
    refine ⟨by simp [h.values], ?_, fun i ↦ ?_, by simp [h.marks]⟩
    · rw [List.forall_mem_cons]
      exact ⟨le_rfl, fun x hx ↦ by have := h.late x hx; omega⟩
    · by_cases hshare : (cs.head?.map (·.2) == some t) = true
      · rw [if_pos hshare]
        obtain _ | i := i
        · rw [List.drop_zero, exit?, List.findSome?_cons, hfresh]
          exact (h.exits 0).trans (by simpa [List.head?_eq_getElem?] using hshare)
        · exact h.exits i
      · rw [if_neg hshare]
        obtain _ | i := i
        · simp [exit?]
        · exact (exit?_cons_of_late fun x hx ↦ hlate x (List.mem_of_mem_drop hx)).trans (h.exits i)

theorem nodup_lowerCases (previous : Option Nat) (a : Analysis) {cs : List (CaseValue × Nat)}
    (h : (cs.map (·.2)).Pairwise (· ≤ ·)) : ((lowerCases previous cs a).2.2.map (·.2)).Nodup := by
  induction cs generalizing previous a with
  | nil => exact List.nodup_nil
  | cons c cs ih =>
    obtain ⟨v, t⟩ := c
    rw [List.map_cons, List.pairwise_cons] at h
    rw [lowerCases_cons]
    dsimp only
    split
    next => exact ih _ _ h.2
    next hshare =>
      rw [List.map_cons, List.nodup_cons, targets_lowerCases]
      refine ⟨fun ht ↦ hshare ?_, ih _ _ h.2⟩
      cases cs with
      | nil => simp at ht
      | cons d cs =>
        -- The target lies between itself and that of the next case.
        rw [List.map_cons, List.pairwise_cons] at h
        have hle := h.1 d.2 (by simp)
        have hge : d.2 ≤ t := by
          rcases List.mem_cons.mp ht with rfl | ht
          · exact le_rfl
          · exact h.2.1 t ht
        simp [le_antisymm hge hle]

theorem pairwise_orderedCases (cases : List (Int × Nat)) (fallback : Nat) :
    ((orderedCases cases fallback).map (·.2)).Pairwise (· ≤ ·) := by
  rw [List.pairwise_map]
  refine (List.pairwise_mergeSort ?_ ?_ _).imp fun {x y} h ↦ ?_
  · intro x y z hxy hyz
    simp only [caseLe, Bool.or_eq_true, Bool.and_eq_true, decide_eq_true_eq, beq_iff_eq,
      bne_iff_ne] at *
    grind
  · intro x y
    simp only [caseLe, Bool.or_eq_true, Bool.and_eq_true, decide_eq_true_eq, beq_iff_eq,
      bne_iff_ne] at *
    grind
  · simp only [caseLe, Bool.or_eq_true, Bool.and_eq_true, decide_eq_true_eq, beq_iff_eq] at h
    omega

theorem perm_orderedCases (cases : List (Int × Nat)) (fallback : Nat) :
    (orderedCases cases fallback).Perm
      (cases.map (fun c ↦ (CaseValue.value c.1, c.2)) ++ [(.default, fallback)]) :=
  List.mergeSort_perm ..

theorem target_of_entryCase (hc : (cases.map (·.1)).Nodup) (v : Int) :
    ((orderedCases cases fallback).map (·.2))[entryCase v ((orderedCases cases fallback).map fun c ↦
      some c.1)]? = some ((cases.lookup v).getD fallback) := by
  have hperm := perm_orderedCases cases fallback
  generalize orderedCases cases fallback = cs at *
  have hkeys : (cs.map fun c ↦ some c.1).Nodup := by
    have hvalues := hc.map fun m n (h : some (CaseValue.value m) = some (.value n)) ↦ by
      simpa using h
    rw [(hperm.map _).nodup_iff, List.map_append, List.nodup_append']
    exact ⟨by simpa [Function.comp_def] using hvalues, by simp,
      List.disjoint_singleton.mpr (by simp)⟩
  have hidx {x : CaseValue} {t : Nat} (h : (x, t) ∈ cs) :
      (cs.map (·.2))[(cs.map fun c ↦ some c.1).idxOf (some x)]? = some t := by
    obtain ⟨i, hi, he⟩ := List.mem_iff_getElem.mp h
    have hi' := hkeys.idxOf_getElem i (by simpa using hi)
    simp only [List.getElem_map, he] at hi'
    rw [hi', List.getElem?_map, List.getElem?_eq_getElem hi, he]
    rfl
  have hmem (n : Int) :
      some (CaseValue.value n) ∈ cs.map (fun c ↦ some c.1) ↔ n ∈ cases.map (·.1) := by
    rw [(hperm.map _).mem_iff]
    simp
  rw [entryCase]
  split
  next hv =>
    rw [hmem] at hv
    obtain ⟨t, ht⟩ : ∃ t, cases.lookup v = some t := by
      rw [← Option.ne_none_iff_exists', ne_eq, List.lookup_eq_none_iff]
      obtain ⟨p, hp, rfl⟩ := List.mem_map.mp hv
      exact fun h ↦ absurd (h p hp) (by simp)
    obtain ⟨before, after, rfl, -⟩ := List.lookup_eq_some_iff.mp ht
    rw [ht]
    exact hidx (hperm.mem_iff.mpr (by simp))
  next hv =>
    rw [hmem] at hv
    rw [List.lookup_eq_none_iff.mpr fun p hp ↦ bne_iff_ne.mpr fun he ↦
      hv (List.mem_map.mpr ⟨p, hp, he.symm⟩)]
    exact hidx (hperm.mem_iff.mpr (by simp))

/-- A lowered switch goes where the instruction sends a value. It has one jump for each target, its
cases go by target, and a case is marked just if the one before it has the same target. -/
theorem lower_switch_dispatches (a : Analysis) (hc : (cases.map (·.1)).Nodup) :
    ∃ a' l targets, a.lower (.switch cases fallback) = .ok (a', l) ∧
      (∀ v, a'.dispatch l v = some ((cases.lookup v).getD fallback)) ∧
      (∀ t, t ∈ l.branches.map (·.2) ↔ t ∈ (Opcode.switch cases fallback).controlFlow.targets) ∧
      (l.branches.map (·.2)).Nodup ∧
      (∀ i, exit? l.branches ((a'.arms l.statement).drop i) = targets[i]?) ∧
      targets.Pairwise (· ≤ ·) ∧
      (((a'.arms l.statement).map Arm.value).zip targets).Perm
        (cases.map (fun c ↦ (CaseValue.value c.1, c.2)) ++ [(.default, fallback)]) ∧
      ∀ i x, (a'.arms l.statement)[i]? = some x →
        (x.marked = true ↔ 0 < i ∧ targets[i - 1]? = targets[i]?) := by
  obtain ⟨a', l, hl, harms, hbranches⟩ : ∃ a' l, a.lower (.switch cases fallback) = .ok (a', l) ∧
      a'.arms l.statement = (lowerCases none (orderedCases cases fallback) a).2.1.filterMap
        (lowerCases none (orderedCases cases fallback) a).1.arm? ∧
      l.branches = (lowerCases none (orderedCases cases fallback) a).2.2 := ⟨_, _, rfl, rfl, rfl⟩
  have h := lowersCases none (orderedCases cases fallback) a
  have hsorted := pairwise_orderedCases cases fallback
  have hnodup := nodup_lowerCases none a hsorted
  have hmem (t : Nat) := (targets_lowerCases none (orderedCases cases fallback) a t).trans
    (targets_orderedCases cases fallback t)
  rw [← harms, ← hbranches] at h
  rw [← hbranches] at hnodup hmem
  refine ⟨a', l, (orderedCases cases fallback).map (·.2), hl, fun v ↦ ?_, hmem, hnodup, h.exits,
    hsorted, ?_, fun i x hx ↦ ?_⟩
  · have hvalues : (a'.arms l.statement).map (fun x ↦ some x.value) =
        (orderedCases cases fallback).map fun c ↦ some c.1 := by
      simpa [Function.comp_def] using congrArg (List.map some) h.values
    rw [dispatch, hvalues, h.exits, target_of_entryCase hc]
  · rw [h.values, List.zip_map', List.map_id'' fun _ ↦ rfl]
    exact perm_orderedCases cases fallback
  · have hi := List.getElem?_eq_some_iff.mp hx |>.1
    have hm := congrArg (·[i]?) h.marks
    rw [← List.length_map, h.values, List.length_map] at hi
    simp only [List.getElem?_map, hx, List.getElem?_zipWith] at hm
    obtain _ | i := i
    · simpa [List.getElem?_eq_getElem hi] using hm
    · have hi' := Nat.lt_of_succ_lt hi
      have hx : x.marked = ((orderedCases cases fallback)[i].2 ==
          (orderedCases cases fallback)[i + 1].2) := by
        simpa [List.getElem?_eq_getElem hi, List.getElem?_eq_getElem hi'] using hm
      simp [hx, List.getElem?_eq_getElem hi, List.getElem?_eq_getElem hi']

/-- A switch whose second and third case share a target, and whose first case joins the fallback. -/
theorem lower_switch_dispatches_shared : ∃ a' l,
    (default : Analysis).lower (.switch [(2, 10), (1, 9), (3, 9)] 10) = .ok (a', l) ∧
      a'.dispatch l 3 = some 9 ∧ a'.dispatch l 2 = some 10 ∧ a'.dispatch l 7 = some 10 := by
  obtain ⟨a', l, -, hl, hd, -⟩ := @lower_switch_dispatches [(2, 10), (1, 9), (3, 9)] 10
    default (by decide)
  exact ⟨a', l, hl, hd 3, hd 2, hd 7⟩

end Analysis

end Decompile
