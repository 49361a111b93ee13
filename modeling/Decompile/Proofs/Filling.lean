import Decompile.Proofs.ConditionFolding
import Decompile.Proofs.Declining

/-!
Filling the last free operand of an expression consumes the stack as the two statements did: the
operands that the value takes come in the place of the one that it fills, also after tests against
zero are folded.
-/

namespace Decompile.Expressions

variable {t t' t'' : Expressions} {e f c leaf root value : ExprId} {n m k width : Nat}

/-- Slots that the operands of an expression take from the stack, in the order of their
evaluation. -/
def freeWidths (t : Expressions) (root : ExprId) : List Nat := (t.freeOperands root).map t.freeWidth

def widthsWithin (t : Expressions) (n : Nat) (e : ExprId) : List Nat :=
  (t.freesWithin n e).map t.freeWidth

theorem widthsWithin_succ (h : (t.get e).isFree = false) :
    t.widthsWithin (n + 1) e = (t.get e).children.flatMap (t.widthsWithin n) := by
  rw [widthsWithin, freesWithin_succ h, List.map_flatMap]
  rfl

theorem freesWithin_free (h : (t.get e).isFree) : t.freesWithin (n + 1) e = [e] := by
  have hchildren : (t.get e).children = [] := by
    cases he : t.get e <;> simp [he, Expression.isFree] at h
    rfl
  simp [freesWithin, preorderWithin, hchildren, h]

theorem widthsWithin_mono (h : t.nestsWithin n e) (hnk : n ≤ k) :
    t.widthsWithin k e = t.widthsWithin n e := by
  rw [widthsWithin, freesWithin_mono h hnk, widthsWithin]

theorem widthsWithin_congr (h : t.nestsWithin n e)
    (hget : ∀ f ∈ t.preorderWithin n e, t'.get f = t.get f) (hnk : n ≤ k) :
    t'.nestsWithin k e ∧ t'.widthsWithin k e = t.widthsWithin n e := by
  have h' := nestsWithin_congr h hget
  refine ⟨nestsWithin_mono h' hnk, ?_⟩
  rw [widthsWithin_mono h' hnk, widthsWithin, widthsWithin, freesWithin, freesWithin,
    preorderWithin_congr h le_rfl fun f hf ↦ by rw [hget f hf],
    List.filter_congr fun f hf ↦ by rw [hget f hf]]
  exact List.map_congr_left fun f hf ↦ by
    rw [freeWidth, freeWidth, hget f (List.mem_filter.mp hf).1]

/-! Filling one leaf -/

/-- Each operand keeps its width but the leaf, where now those of the value stand. -/
theorem widthsWithin_set (hleaf : leaf.index < t.size) (hfree : (t.get leaf).isFree)
    (hv : t.nestsWithin m value) (hout : leaf ∉ t.preorderWithin m value)
    (he : t.nestsWithin n e) :
    (t.set leaf (t.get value)).nestsWithin (n + m) e ∧
      (t.set leaf (t.get value)).widthsWithin (n + m) e =
        (t.freesWithin n e).flatMap fun f ↦
          if f = leaf then t.widthsWithin m value else [t.freeWidth f] := by
  have hother : ∀ f, f ≠ leaf → (t.set leaf (t.get value)).get f = t.get f := fun f hf ↦ by
    rw [get_set, if_neg fun h ↦ hf h.1.symm]
  induction n generalizing e with
  | zero => simp [nestsWithin] at he
  | succ n ih =>
    rw [Nat.add_right_comm]
    by_cases hel : e = leaf
    · subst hel
      have hget : (t.set e (t.get value)).get e = t.get value := by simp [get_set, hleaf]
      obtain _ | m := m
      · simp [nestsWithin] at hv
      have hbelow : ∀ c ∈ (t.get value).children,
          (t.set e (t.get value)).nestsWithin (n + (m + 1)) c ∧
            (t.set e (t.get value)).widthsWithin (n + (m + 1)) c = t.widthsWithin m c := by
        refine fun c hc ↦ widthsWithin_congr (nestsWithin_child hv hc) (fun f hf ↦ hother f ?_)
          (by omega)
        rintro rfl
        exact hout (mem_preorderWithin_child hc hf)
      rw [freesWithin_free hfree, List.flatMap_singleton, if_pos rfl]
      refine ⟨?_, ?_⟩
      · rw [nestsWithin, hget, List.all_eq_true]
        exact fun c hc ↦ (hbelow c hc).1
      · by_cases hfv : (t.get value).isFree
        · rw [widthsWithin, freesWithin_free (by rwa [hget]), widthsWithin, freesWithin_free hfv]
          simp [freeWidth, hget]
        · simp only [Bool.not_eq_true] at hfv
          rw [widthsWithin_succ (by rwa [hget]), hget, widthsWithin_succ hfv]
          exact List.flatMap_congr fun c hc ↦ (hbelow c hc).2
    · have hget := hother e hel
      by_cases hfe : (t.get e).isFree
      · have hchildren : (t.get e).children = [] := by
          cases hx : t.get e <;> simp [hx, Expression.isFree] at hfe
          rfl
        rw [nestsWithin, hget, hchildren, widthsWithin, freesWithin_free (by rwa [hget]),
          freesWithin_free hfe]
        simp [hel, freeWidth, hget]
      · simp only [Bool.not_eq_true] at hfe
        have hbelow := fun c (hc : c ∈ (t.get e).children) ↦ ih (nestsWithin_child he hc)
        rw [nestsWithin, hget, List.all_eq_true, widthsWithin_succ (by rwa [hget]), hget,
          freesWithin_succ hfe, List.flatMap_assoc]
        exact ⟨fun c hc ↦ (hbelow c hc).1, List.flatMap_congr fun c hc ↦ (hbelow c hc).2⟩

/-! Folding tests against zero -/

/-- Every expression takes what it took from the stack. -/
structure KeepsWidths (t t' : Expressions) : Prop where
  size_eq : t'.size = t.size
  widthsWithin_eq : ∀ {n e}, t.nestsWithin n e →
    t'.nestsWithin n e ∧ t'.widthsWithin n e = t.widthsWithin n e

theorem KeepsWidths.refl (t : Expressions) : KeepsWidths t t := ⟨rfl, fun h ↦ ⟨h, rfl⟩⟩

theorem KeepsWidths.trans (h : KeepsWidths t t') (h' : KeepsWidths t' t'') : KeepsWidths t t'' where
  size_eq := h'.size_eq.trans h.size_eq
  widthsWithin_eq hn := by
    obtain ⟨hn', heq⟩ := h.widthsWithin_eq hn
    obtain ⟨hn'', heq'⟩ := h'.widthsWithin_eq hn'
    exact ⟨hn'', heq'.trans heq⟩

theorem keepsWidths_set {x : Expression} (hx : x.isFree = false)
    (he : (t.get e).isFree = false) (hchildren : ∀ {n}, t.nestsWithin (n + 1) e →
      (∀ c ∈ x.children, t.nestsWithin n c) ∧
        x.children.flatMap (t.widthsWithin n) = t.widthsWithin (n + 1) e) :
    KeepsWidths t (t.set e x) := by
  refine ⟨size_set t e x, fun {n f} hn ↦ ?_⟩
  induction n generalizing f with
  | zero => simp [nestsWithin] at hn
  | succ n ih =>
    rcases get_set_cases t e x f with hget | ⟨rfl, hget⟩
    · rw [nestsWithin, hget, List.all_eq_true]
      refine ⟨fun c hc ↦ (ih (nestsWithin_child hn hc)).1, ?_⟩
      by_cases hf : (t.get f).isFree
      · rw [widthsWithin, freesWithin_free (by rwa [hget]), widthsWithin, freesWithin_free hf]
        simp [freeWidth, hget]
      · simp only [Bool.not_eq_true] at hf
        rw [widthsWithin_succ (by rwa [hget]), hget, widthsWithin_succ hf]
        exact List.flatMap_congr fun c hc ↦ (ih (nestsWithin_child hn hc)).2
    · obtain ⟨hnest, hwidths⟩ := hchildren hn
      rw [nestsWithin, hget, List.all_eq_true, widthsWithin_succ (by rwa [hget]), hget, ← hwidths]
      exact ⟨fun c hc ↦ (ih (hnest c hc)).1, List.flatMap_congr fun c hc ↦ (ih (hnest c hc)).2⟩

theorem keepsWidths_foldZeroTest (t : Expressions) (e : ExprId) :
    KeepsWidths t (t.foldZeroTest e) := by
  rcases foldZeroTest_cases t e with heq | ⟨op, lhs, rhs, he, hr, hcases⟩
  · rw [heq]
    exact .refl t
  · have hnotFree : (t.get e).isFree = false := by rw [he]; rfl
    have hlhs {n : Nat} (hn : t.nestsWithin (n + 1) e) : t.nestsWithin n lhs :=
      nestsWithin_child hn (by simp [he, Expression.children])
    -- The zero takes nothing from the stack.
    have hwidths {n : Nat} (hn : t.nestsWithin (n + 1) e) :
        t.widthsWithin (n + 1) e = t.widthsWithin n lhs := by
      obtain _ | k := n
      · simpa [nestsWithin] using hlhs hn
      · rw [widthsWithin_succ hnotFree, he]
        have hzero : t.widthsWithin (k + 1) rhs = [] := by
          rw [widthsWithin_succ (by rw [hr]; rfl), hr]
          rfl
        simp [Expression.children, hzero]
    -- What the operand on the left takes is what its own operands take.
    have hbelow {n : Nat} (hn : t.nestsWithin (n + 1) e) (hfree : (t.get lhs).isFree = false) :
        (∀ c ∈ (t.get lhs).children, t.nestsWithin n c) ∧
          (t.get lhs).children.flatMap (t.widthsWithin n) = t.widthsWithin (n + 1) e := by
      rw [hwidths hn]
      have hl := hlhs hn
      obtain _ | k := n
      · simp [nestsWithin] at hl
      · rw [widthsWithin_succ hfree]
        exact ⟨fun c hc ↦ nests_of_child hl hc, List.flatMap_congr fun c hc ↦
          widthsWithin_mono (nestsWithin_child hl hc) (Nat.le_succ k)⟩
    rcases hcases with ⟨a, b, g, hl, heq⟩ | ⟨hl, -, heq⟩ | ⟨-, -, heq⟩ <;> rw [heq]
    · refine keepsWidths_set rfl hnotFree fun hn ↦ ?_
      have h := hbelow hn (by rw [hl]; rfl)
      rwa [hl] at h
    · have hfree : (t.get lhs).isFree = false := by
        cases hx : t.get lhs <;> simp [hx, Expression.isBoolean] at hl <;> rfl
      exact keepsWidths_set hfree hnotFree fun hn ↦ hbelow hn hfree
    · refine keepsWidths_set rfl hnotFree fun hn ↦ ?_
      simp [Expression.children, hlhs hn, hwidths hn]

theorem keepsWidths_simplifyWithin (n : Nat) (root : ExprId) (t : Expressions) :
    KeepsWidths t (simplifyWithin n root t) := by
  induction n generalizing root t with
  | zero => exact .refl t
  | succ n ih =>
    rw [simplifyWithin]
    refine .trans ?_ (keepsWidths_foldZeroTest _ root)
    generalize (t.get root).children = cs
    induction cs generalizing t with
    | nil => exact .refl t
    | cons c cs ihc => exact (ih c t).trans (ihc (simplifyWithin n c t))

theorem freeWidths_simplify (h : t.nestsWithin t.size e) (root : ExprId) :
    (t.simplify root).freeWidths e = t.widthsWithin t.size e := by
  have hkeeps := keepsWidths_simplifyWithin t.size root t
  have hsize : (t.simplify root).size = t.size := hkeeps.size_eq
  rw [freeWidths, freeOperands, preorder, hsize]
  exact (hkeeps.widthsWithin_eq h).2

/-! Trees -/

/-- The nodes below `e` are in the table, each is reached once, and no way down is endless. -/
structure IsTree (t : Expressions) (e : ExprId) : Prop where
  nests : t.nestsWithin t.size e
  nodup : (t.preorder e).Nodup
  bounded : ∀ f ∈ t.preorder e, f.index < t.size

/-- No way down is longer than there are nodes. -/
theorem nestsWithin_length (h : t.nestsWithin n e) :
    t.nestsWithin (t.preorderWithin n e).length e := by
  induction n generalizing e with
  | zero => simp [nestsWithin] at h
  | succ n ih =>
    rw [preorderWithin, List.length_cons, nestsWithin, List.all_eq_true]
    intro c hc
    refine nestsWithin_mono (ih (nestsWithin_child h hc)) ?_
    obtain ⟨l, r, hlr⟩ := List.append_of_mem hc
    rw [hlr]
    simp
    omega

/-- The two trees lie in the table side by side, so that together they are no deeper than the table
is long. -/
theorem IsTree.widthsWithin_fill (hr : t.IsTree root) (hv : t.IsTree value)
    (hd : (t.preorder root).Disjoint (t.preorder value))
    (hlast : (t.freeOperands root).getLast? = some leaf) :
    (t.set leaf (t.get value)).nestsWithin t.size root ∧
      (t.set leaf (t.get value)).widthsWithin t.size root =
        (t.freeWidths root).dropLast ++ t.freeWidths value := by
  obtain ⟨hmem, hfree⟩ := mem_freeOperands.mp (List.mem_of_getLast? hlast)
  have hlength : (t.preorder root).length + (t.preorder value).length ≤ t.size := by
    have hnodup : ((t.preorder root ++ t.preorder value).map ExprId.index).Nodup :=
      (hr.nodup.append hv.nodup hd).map fun x y h ↦ by cases x; cases y; exact congrArg _ h
    have := length_le_of_nodup_of_lt hnodup (m := t.size) fun i hi ↦ by
      obtain ⟨f, hf, rfl⟩ := List.mem_map.mp hi
      exact (List.mem_append.mp hf).elim (hr.bounded f) (hv.bounded f)
    simpa using this
  have hnr : t.nestsWithin (t.preorder root).length root := nestsWithin_length hr.nests
  have hnv : t.nestsWithin (t.preorder value).length value := nestsWithin_length hv.nests
  have hout : leaf ∉ t.preorderWithin (t.preorder value).length value := by
    have hpre : t.preorder value = t.preorderWithin (t.preorder value).length value :=
      preorderWithin_congr hnv (by omega) fun _ _ ↦ rfl
    rw [← hpre]
    exact hd hmem
  obtain ⟨hn, hwidths⟩ := widthsWithin_set (hr.bounded leaf hmem) hfree hnv hout hnr
  refine ⟨nestsWithin_mono hn hlength, ?_⟩
  have hroot : t.freesWithin (t.preorder root).length root = t.freeOperands root :=
    (freesWithin_mono hnr (by omega)).symm
  have hvalue : t.widthsWithin (t.preorder value).length value = t.freeWidths value :=
    (widthsWithin_mono hnv (by omega)).symm
  rw [widthsWithin_mono hn hlength, hwidths, hroot, hvalue]
  obtain ⟨l, hl⟩ := List.getLast?_eq_some_iff.mp hlast
  have hnodup : (t.freeOperands root).Nodup := hr.nodup.filter _
  rw [hl, List.nodup_append] at hnodup
  have hothers : l.flatMap (fun f ↦ if f = leaf then t.freeWidths value else [t.freeWidth f]) =
      l.map t.freeWidth := by
    rw [List.map_eq_flatMap]
    refine List.flatMap_congr fun f hf ↦ if_neg ?_
    exact hnodup.2.2 f hf leaf (List.mem_singleton_self leaf)
  have htaken : t.freeWidths root = (l ++ [leaf]).map t.freeWidth := by rw [freeWidths, hl]
  rw [hl, List.flatMap_append, hothers, htaken]
  simp

/-- A value fills the last free operand of a tree just if that operand is as wide. What the tree then
takes from the stack is what it took without that operand, and then what the value takes. Otherwise
nothing is written. -/
theorem fillLastFree_splices {a : Analysis} (hr : a.exprs.IsTree root) (hv : a.exprs.IsTree value)
    (hd : (a.exprs.preorder root).Disjoint (a.exprs.preorder value)) :
    let r := (Rewrite.fillLastFree root value width).exec a
    (r.1 = some () ↔ (a.exprs.freeWidths root).getLast? = some width) ∧
      (r.1 = some () → r.2.exprs.freeWidths root =
        (a.exprs.freeWidths root).dropLast ++ a.exprs.freeWidths value) ∧
      (r.1 = none → r.2 = a) := by
  dsimp only
  rw [Rewrite.exec_fillLastFree, fillLastFree?, freeWidths, List.getLast?_map]
  cases hlast : (a.exprs.freeOperands root).getLast? with
  | none => simp
  | some leaf =>
    dsimp only [Option.map_some]
    split_ifs with hw
    · refine ⟨by simp [hw], fun _ ↦ ?_, by simp⟩
      obtain ⟨hn, hwidths⟩ := hr.widthsWithin_fill hv hd hlast
      rw [← size_set a.exprs leaf (a.exprs.get value)] at hn hwidths
      exact (freeWidths_simplify hn root).trans hwidths
    · simp [hw]

/-- A test of the top of the stack against zero, and the sign of two values below it. -/
def signOfTwo : Analysis :=
  { exprs := ⟨⟨#[.free 1, .const (.int 0), .compare .lt ⟨0⟩ ⟨1⟩, .free 2, .free 2,
      .threeWay ⟨3⟩ ⟨4⟩ false]⟩⟩
    checked := false
    fuel := 0 }

theorem fillLastFree_splices_signOfTwo :
    let r := (Rewrite.fillLastFree ⟨2⟩ ⟨5⟩ 1).exec signOfTwo
    r.1 = some () ∧ r.2.expr ⟨2⟩ = .compare .lt ⟨3⟩ ⟨4⟩ ∧ r.2.exprs.freeWidths ⟨2⟩ = [2, 2] := by
  have hroot : signOfTwo.exprs.IsTree ⟨2⟩ := ⟨by decide, by decide, by decide⟩
  have hvalue : signOfTwo.exprs.IsTree ⟨5⟩ := ⟨by decide, by decide, by decide⟩
  obtain ⟨hdone, hwidths, -⟩ := @fillLastFree_splices ⟨2⟩ ⟨5⟩ 1 signOfTwo hroot hvalue
    (List.disjoint_left.mpr (by decide))
  have hlast := hdone.mpr (by decide)
  exact ⟨hlast, by decide, (hwidths hlast).trans (by decide)⟩

end Decompile.Expressions
