import Decompile.Lowering
import Decompile.Proofs.Soundness

/-!
What lowering makes of an instruction: a block with new blocks for its branches. Once the blocks
that are to jump hold a jump, control leaves the tree through jumps only.
-/

namespace Decompile

open Proc

variable {selector : ExprId}

namespace Tree

/-- The tree with the jumps that `e` gives to its blocks. -/
def mark (e : BlockId → Option JumpId) : Tree → Tree
  | node i _ k l => node i (e i) k (l.map (mark e))

variable {T : Tree} {e e' : BlockId → Option JumpId} {b : BlockId} {j : JumpId}

theorem mark_node (i : BlockId) (x : Option JumpId) (k : Kind) (l : List Tree) :
    (node i x k l).mark e = node i (e i) k (l.map (mark e)) := by
  rw [mark]

@[simp] theorem id_mark (T : Tree) : (T.mark e).id = T.id := by
  cases T
  rw [mark_node, id_node, id_node]

@[simp] theorem ids_mark (T : Tree) : (T.mark e).ids = T.ids := by
  induction T using Tree.induct with
  | node i x k l ih =>
    rw [mark_node, ids, ids, List.flatMap_map]
    exact congrArg (i :: ·) (List.flatMap_congr ih)

theorem mem_held_mark : (b, j) ∈ (T.mark e).held ↔ b ∈ T.ids ∧ e b = some j := by
  induction T using Tree.induct with
  | node i x k l ih =>
    rw [mark_node, held, ids, List.mem_append, List.mem_cons, List.flatMap_map]
    simp only [List.mem_map, Option.mem_toList, Prod.mk.injEq, List.mem_flatMap]
    constructor
    · rintro (⟨j', hj, rfl, rfl⟩ | ⟨c, hc, h⟩)
      · exact ⟨.inl rfl, hj⟩
      · exact ⟨.inr ⟨c, hc, ((ih c hc).mp h).1⟩, ((ih c hc).mp h).2⟩
    · rintro ⟨rfl | ⟨c, hc, hb⟩, hj⟩
      · exact .inl ⟨j, hj, rfl, rfl⟩
      · exact .inr ⟨c, hc, (ih c hc).mpr ⟨hb, hj⟩⟩

/-- The tree is in order, and control leaves it through jumps only. -/
structure Sealed (T : Tree) : Prop where
  orderly : T.Orderly
  tidy : T.Tidy
  closed : ∀ t destination, T.Closed t destination

variable {x : Option JumpId} {y : Outcome}

section Closed

variable {t : Expressions} {destination : JumpId → FlowId} {k : Kind} {l : List Tree}

theorem closed_of_out
    (h : ∀ y, (act (lax t) b k (l.map caseValue) (l.map (run (lax t) destination))).Yields y → y.IsOut) :
    (node b x k l).Closed t destination := by
  intro y hy
  rw [run_node, map_eq] at hy
  obtain ⟨z, hz, hy⟩ := hy.of_bind
  have hout := h z hz
  rw [yields_pure hy, Outcome.via_of_ne]
  · exact hout
  · rintro rfl
    exact hout

theorem closed_of_jump
    (h : ∀ y, (act (lax t) b k (l.map caseValue) (l.map (run (lax t) destination))).Yields y →
      y = .completes ∨ y.IsOut) : (node b (some j) k l).Closed t destination := by
  intro y hy
  rw [run_node, map_eq] at hy
  obtain ⟨z, hz, hy⟩ := hy.of_bind
  rw [yields_pure hy]
  rcases h z hz with rfl | hout
  · exact trivial
  · rw [Outcome.via_of_ne]
    · exact hout
    · rintro rfl
      exact hout

theorem yields_skip (h : (skip : Proc Unit Empty Outcome).Yields y) : y = .completes :=
  yields_pure h

end Closed

theorem sealed_leaf {k : Kind} (hk : k = .empty ∨ (∃ x n, k = .evaluate x n) ∨ ∃ op, k = .shuffle op) :
    (node b (some j) k []).Sealed where
  orderly := orderly_leaf (by rcases hk with rfl | ⟨_, _, rfl⟩ | ⟨_, rfl⟩ <;> rfl)
    (by rcases hk with rfl | ⟨_, _, rfl⟩ | ⟨_, rfl⟩ <;> simp)
  tidy := tidy_leaf (by rcases hk with rfl | ⟨_, _, rfl⟩ | ⟨_, rfl⟩ <;> simp)
  closed t destination := closed_of_jump fun y hy ↦ by
    rcases hk with rfl | ⟨_, _, rfl⟩ | ⟨_, rfl⟩
    · exact .inl (yields_skip hy)
    all_goals
      obtain ⟨_, -, hy⟩ := hy.of_bind
      exact .inl (yields_pure hy)

theorem sealed_last {k : Kind}
    (hk : (∃ v, k = .returns v) ∨ (∃ v, k = .throws v) ∨ ∃ v, k = .ret v) :
    (node b x k []).Sealed where
  orderly := orderly_leaf (by rcases hk with ⟨_, rfl⟩ | ⟨_, rfl⟩ | ⟨_, rfl⟩ <;> rfl)
    (by rcases hk with ⟨_, rfl⟩ | ⟨_, rfl⟩ | ⟨_, rfl⟩ <;> simp)
  tidy := tidy_leaf (by rcases hk with ⟨_, rfl⟩ | ⟨_, rfl⟩ | ⟨_, rfl⟩ <;> simp)
  closed t destination := closed_of_out fun y hy ↦ by
    rcases hk with ⟨_, rfl⟩ | ⟨_, rfl⟩ | ⟨_, rfl⟩
    · obtain ⟨_, -, hy⟩ := hy.of_bind
      exact yields_pure hy ▸ trivial
    · obtain ⟨_, -, hy⟩ := hy.of_bind
      exact yields_pure hy ▸ trivial
    · obtain ⟨_, _, _, -, h⟩ := hy
      cases h

theorem sealed_conditional {c : ExprId} {taken : BlockId} {i : JumpId} :
    (node b (some j) (.conditional c) [node taken (some i) .empty []]).Sealed where
  orderly := orderly_test
  tidy := tidy_node.mpr ⟨by simp, by simpa using tidy_leaf (by simp)⟩
  closed t destination := closed_of_jump fun y hy ↦ by
    obtain ⟨v, -, hy⟩ := hy.of_bind
    cases v with
    | true =>
      refine .inr ((sealed_leaf (b := taken) (j := i) (.inl rfl)).closed t destination y ?_)
      simpa using hy
    | false => exact .inl (yields_skip (by simpa using hy))

theorem sealed_jsr {y : Option JumpId} {call : BlockId} :
    (node b x .jsr [node call y .empty []]).Sealed where
  orderly := orderly_node.mpr ⟨fits_of_plain rfl (by simp) _, by simp⟩
  tidy := tidy_node.mpr ⟨by simp, by simpa using tidy_leaf (by simp)⟩
  closed t destination := closed_of_out fun y hy ↦ by
    obtain ⟨_, _, _, -, h⟩ := hy
    cases h

/-- Cases as they are lowered: empty, and each jumps unless it falls into the next one. -/
inductive Fallen : List (CaseValue × Nat) → List Tree → Prop
  | nil : Fallen [] []
  | cons {v : CaseValue} {target : Nat} {cs : List (CaseValue × Nat)} {l : List Tree}
      {c b : BlockId} {through : Bool} {x : Option JumpId} :
    (x = none → cs ≠ []) → Fallen cs l →
    Fallen ((v, target) :: cs) (node c none (.switchCase v through) [node b x .empty []] :: l)

section Switch

variable {t : Expressions} {destination : JumpId → FlowId} {l : List Tree}
  {cs : List (CaseValue × Nat)}

theorem Fallen.drop (h : Fallen cs l) (n : Nat) : Fallen (cs.drop n) (l.drop n) := by
  induction n generalizing cs l with
  | zero => exact h
  | succ n ih =>
    cases h with
    | nil => exact .nil
    | cons _ h => exact ih h

theorem Fallen.caseValues (h : Fallen cs l) : l.map caseValue = cs.map fun c ↦ some c.1 := by
  induction h with
  | nil => rfl
  | cons _ _ ih => rw [List.map_cons, List.map_cons, ih, caseValue]

theorem Fallen.isCase (h : Fallen cs l) : ∀ c ∈ l, c.IsCase ∧ c.Orderly ∧ c.Tidy := by
  induction h with
  | nil => simp
  | cons _ _ ih =>
    rw [List.forall_mem_cons]
    refine ⟨⟨⟨_, _, _, _, rfl⟩, by simp, ?_⟩, ih⟩
    exact tidy_node.mpr ⟨by simp, by simpa using tidy_leaf (by simp)⟩

theorem Fallen.isOut (h : Fallen cs l) (hne : cs ≠ [])
    (hy : (inOrder (l.map (run (lax t) destination))).Yields y) : y.IsOut := by
  induction h generalizing y with
  | nil => exact absurd rfl hne
  | @cons _ _ _ _ c b _ x hx _ ih =>
    rw [List.map_cons, inOrder_cons, andThen] at hy
    obtain ⟨z, hz, hy⟩ := hy.of_bind
    have hbody : z = .completes ∧ x = none ∨ z.IsOut := by
      rw [run_node, map_eq] at hz
      obtain ⟨u, hu, hz⟩ := hz.of_bind
      obtain rfl : z = u := by simpa using yields_pure hz
      cases x with
      | none =>
        rw [act, List.map_singleton, List.getD_cons_zero, run_node, map_eq] at hu
        obtain ⟨w, hw, hu⟩ := hu.of_bind
        refine .inl ⟨?_, rfl⟩
        simpa [yields_skip hw] using yields_pure hu
      | some i => exact .inr ((sealed_leaf (b := b) (j := i) (.inl rfl)).closed t destination z hu)
    rcases hbody with ⟨rfl, rfl⟩ | hz
    · exact ih (hx rfl) (by simpa using hy)
    · rw [if_neg] at hy
      · exact yields_pure hy ▸ hz
      · rintro rfl
        exact hz

theorem sealed_switch {labeled : Bool} (h : Fallen cs l) (hd : ∃ target, (.default, target) ∈ cs) :
    (node b x (.switch selector labeled) l).Sealed where
  orderly := orderly_node.mpr
    ⟨⟨fun _ c hc ↦ (h.isCase c hc).1, by simp⟩, fun c hc ↦ (h.isCase c hc).2.1⟩
  tidy := tidy_node.mpr ⟨by simp, fun c hc ↦ (h.isCase c hc).2.2⟩
  closed t destination := closed_of_out fun y hy ↦ by
    obtain ⟨target, hd⟩ := hd
    obtain ⟨n, -, hy⟩ := hy.of_bind
    rw [map_eq] at hy
    obtain ⟨z, hz, hy⟩ := hy.of_bind
    -- There is a default, so that some case is entered.
    have hlt : entryCase n (l.map caseValue) < cs.length := by
      rw [h.caseValues, entryCase, ← List.length_map (f := fun c : CaseValue × Nat ↦ some c.1)]
      split
      next hv => exact List.idxOf_lt_length_of_mem hv
      next => exact List.idxOf_lt_length_of_mem (List.mem_map.mpr ⟨_, hd, rfl⟩)
    rw [← List.map_drop] at hz
    have hout := (h.drop _).isOut (by simpa using hlt) hz
    rw [yields_pure hy, Outcome.caught, if_neg]
    · exact hout
    · rintro rfl
      exact hout

end Switch

end Tree

namespace Blocks

variable {t t' : Blocks} {o : Option BlockId} {T : Tree}

theorem Holds.mark (h : t.Holds o T) (hsize : t.size ≤ t'.size)
    (hs : ∀ b ∈ T.ids, t'.statement b = t.statement b ∧ t'.outer b = t.outer b) :
    t'.Holds o (T.mark t'.jump) := by
  induction h with
  | @node o i x k l hlt hk hc hj ho hl ih =>
    obtain ⟨hst, hout⟩ := hs i (by simp [Tree.ids])
    rw [Tree.mark_node]
    refine .node (hlt.trans_le hsize) (hst ▸ hk) (hst ▸ ?_) rfl (hout ▸ ho) fun c hc' ↦ ?_
    · rw [hc, List.map_map]
      exact List.map_congr_left fun c _ ↦ (Tree.id_mark c).symm
    · obtain ⟨c, hmem, rfl⟩ := List.mem_map.mp hc'
      refine ih c hmem fun b hb ↦ hs b ?_
      simp only [Tree.ids, List.mem_cons, List.mem_flatMap]
      exact .inr ⟨c, hmem, hb⟩

theorem jump_alloc (h : ∀ b, t.jump b = none) (s : Statement) (b : BlockId) :
    (t.alloc s).1.jump b = none := by
  by_cases hb : b = ⟨t.size⟩
  · rw [hb, jump_alloc_self]
  · rw [(get_alloc_of_ne hb).2.1, h]

end Blocks

namespace Analysis

variable {a a' a'' : Analysis} {x : Expression} {w : Nat}

/-- Only expressions and locals have come. -/
structure Furnished (a a' : Analysis) : Prop where
  blocks : a'.blocks = a.blocks
  graph : a'.graph = a.graph
  frame : a'.frame = a.frame
  exprs : a.exprs.size ≤ a'.exprs.size

namespace Furnished

theorem refl (a : Analysis) : Furnished a a := ⟨rfl, rfl, rfl, le_rfl⟩

theorem trans (h : Furnished a a') (h' : Furnished a' a'') : Furnished a a'' :=
  ⟨h'.blocks.trans h.blocks, h'.graph.trans h.graph, h'.frame.trans h.frame,
    h.exprs.trans h'.exprs⟩

theorem allocExpr (h : Furnished a a') (x : Expression) : Furnished a (a'.allocExpr x).1 :=
  h.trans ⟨rfl, rfl, rfl, (Expressions.extends_alloc ..).size_le⟩

theorem addLocal (h : Furnished a a') (kind : LocalKind) (slot : Option Nat) :
    Furnished a (a'.addLocal kind slot).1 :=
  h.trans ⟨rfl, rfl, rfl, le_rfl⟩

theorem allocFrees (h : Furnished a a') (ws : List Nat) : Furnished a (a'.allocFrees ws).1 := by
  induction ws generalizing a' with
  | nil => exact h
  | cons w ws ih => exact ih (h.allocExpr (.free w))

theorem allocObject (h : Furnished a a') (isStatic : Bool) :
    Furnished a (a'.allocObject isStatic).1 := by
  cases isStatic with
  | true => exact h
  | false => exact h.allocExpr (.free 1)

end Furnished

/-- The state has come to hold the trees `kids`, outside every other tree, some blocks of which are
to jump. -/
structure Sprouts (a a' : Analysis) (kids : List Tree) (branches : List (BlockId × Nat)) : Prop where
  graph : a'.graph = a.graph
  frame : a'.frame = a.frame
  exprs : a.exprs.size ≤ a'.exprs.size
  off : Blocks.Off (fun _ ↦ False) a.blocks a'.blocks
  linked : a.blocks.Linked → a'.blocks.Linked
  jumpless : (∀ b, a.blocks.jump b = none) → ∀ b, a'.blocks.jump b = none
  holds : ∀ c ∈ kids, a'.blocks.Holds none c
  nodup : (kids.flatMap Tree.ids).Nodup
  fresh : ∀ b ∈ kids.flatMap Tree.ids, a.blocks.size ≤ b.index
  sources : (branches.map (·.1)).Nodup
  inside : ∀ p ∈ branches, p.1 ∈ kids.flatMap Tree.ids

namespace Sprouts

variable {kids : List Tree} {branches : List (BlockId × Nat)}

theorem none (h : Furnished a a') : Sprouts a a' [] [] where
  graph := h.graph
  frame := h.frame
  exprs := h.exprs
  off := h.blocks ▸ .refl _ _
  linked hl := h.blocks ▸ hl
  jumpless hj := h.blocks ▸ hj
  holds := by simp
  nodup := by simp
  fresh := by simp
  sources := by simp
  inside := by simp

theorem furnish (h : Sprouts a a' kids branches) (h' : Furnished a' a'') :
    Sprouts a a'' kids branches where
  graph := h'.graph.trans h.graph
  frame := h'.frame.trans h.frame
  exprs := h.exprs.trans h'.exprs
  off := h'.blocks ▸ h.off
  linked hl := h'.blocks ▸ h.linked hl
  jumpless hj := h'.blocks ▸ h.jumpless hj
  holds := h'.blocks ▸ h.holds
  nodup := h.nodup
  fresh := h.fresh
  sources := h.sources
  inside := h.inside

theorem branch (h : Furnished a a') (target : Nat) :
    Sprouts a (a'.alloc .empty).1 [.node (a'.alloc .empty).2 Option.none .empty []]
      [((a'.alloc .empty).2, target)] where
  graph := h.graph
  frame := h.frame
  exprs := h.exprs
  off := h.blocks ▸ (Blocks.Off.refl _ _).alloc (by simp [Statement.children])
  linked hl := (h.blocks ▸ hl).alloc _
  jumpless hj := Blocks.jump_alloc (h.blocks ▸ hj) _
  holds := by
    rw [List.forall_mem_singleton]
    exact Blocks.holds_alloc_leaf rfl
  nodup := by simp [Tree.ids]
  fresh := by
    rw [List.flatMap_singleton, Tree.ids, List.flatMap_nil, List.forall_mem_singleton]
    exact (congrArg Blocks.size h.blocks.symm).le
  sources := by simp
  inside := by simp [Tree.ids]

end Sprouts

theorem holds_case (t : Blocks) (v : CaseValue) (through : Bool) :
    ((t.alloc .empty).1.alloc (.switchCase v (t.alloc .empty).2 through)).1.Holds none
      (.node ⟨t.size + 1⟩ none (.switchCase v through) [.node ⟨t.size⟩ none .empty []]) := by
  have hbody : (t.alloc .empty).1.Holds none (.node ⟨t.size⟩ none .empty []) :=
    Blocks.holds_alloc_leaf rfl
  have h := Blocks.holds_alloc (t := (t.alloc .empty).1)
    (s := .switchCase v (t.alloc .empty).2 through) (l := [.node ⟨t.size⟩ none .empty []])
    (by simp [Statement.children]) (by simpa using ⟨_, hbody⟩) (by simp [Tree.ids])
  rwa [Blocks.size_alloc] at h

/-- The state with a new case. -/
def addCase (a : Analysis) (v : CaseValue) (through : Bool) : Analysis :=
  { a with blocks := ((a.blocks.alloc .empty).1.alloc
      (.switchCase v (a.blocks.alloc .empty).2 through)).1 }

theorem lowerCases_cons (previous : Option Nat) (v : CaseValue) (target : Nat)
    (cs : List (CaseValue × Nat)) (a : Analysis) :
    lowerCases previous ((v, target) :: cs) a =
      let r := lowerCases (some target) cs (a.addCase v (previous == some target))
      (r.1, ⟨a.blocks.size + 1⟩ :: r.2.1,
        if (cs.head?.map (·.2)) == some target then r.2.2
        else (⟨a.blocks.size⟩, target) :: r.2.2) := by
  rw [lowerCases]
  simp [addCase, alloc]

variable {target : Nat}

theorem Sprouts.addCase {kids : List Tree} {branches : List (BlockId × Nat)} {v : CaseValue}
    {through shares : Bool} (h : Sprouts (a.addCase v through) a' kids branches) :
    Sprouts a a' (.node ⟨a.blocks.size + 1⟩ Option.none (.switchCase v through)
        [.node ⟨a.blocks.size⟩ Option.none .empty []] :: kids)
      (if shares then branches else (⟨a.blocks.size⟩, target) :: branches) := by
  have hsize : (a.addCase v through).blocks.size = a.blocks.size + 2 := by
    simp [Analysis.addCase]
  have hfresh : ∀ b ∈ kids.flatMap Tree.ids, a.blocks.size + 2 ≤ b.index := fun b hb ↦
    hsize ▸ h.fresh b hb
  have hcase := holds_case a.blocks v through
  constructor
  case graph => exact h.graph
  case frame => exact h.frame
  case exprs => exact h.exprs
  case off =>
    refine (((Blocks.Off.refl _ _).alloc (by simp [Statement.children])).alloc ?_).trans h.off
    simp [Statement.children]
  case linked => exact fun hl ↦ h.linked ((hl.alloc _).alloc _)
  case jumpless => exact fun hj ↦ h.jumpless (Blocks.jump_alloc (Blocks.jump_alloc hj _) _)
  case holds =>
    rw [List.forall_mem_cons]
    refine ⟨hcase.of_same ?_ h.off.size_le fun b hb ↦ ?_, h.holds⟩
    · simp [Tree.ids]
    · exact h.off.same b (hcase.lt_of_mem_ids hb) not_false
  case nodup =>
    rw [List.flatMap_cons, List.nodup_append']
    refine ⟨by simp [Tree.ids], h.nodup, fun b hb hb' ↦ ?_⟩
    have := hfresh b hb'
    simp only [Tree.ids, List.flatMap_cons, List.flatMap_nil, List.append_nil, List.mem_cons,
      List.not_mem_nil, or_false] at hb
    rcases hb with rfl | rfl <;> simp at this
  case fresh =>
    rw [List.flatMap_cons, List.forall_mem_append]
    refine ⟨by simp [Tree.ids], fun b hb ↦ ?_⟩
    have := hfresh b hb
    omega
  case sources =>
    split
    · exact h.sources
    · rw [List.map_cons, List.nodup_cons]
      refine ⟨fun hb ↦ ?_, h.sources⟩
      obtain ⟨p, hp, he⟩ := List.mem_map.mp hb
      have := hfresh _ (h.inside p hp)
      simp [he] at this
  case inside =>
    have hinside : ∀ p ∈ branches, p.1 ∈ (Tree.node ⟨a.blocks.size + 1⟩ Option.none
        (.switchCase v through) [.node ⟨a.blocks.size⟩ Option.none .empty []] :: kids).flatMap
          Tree.ids := fun p hp ↦ by
      rw [List.flatMap_cons, List.mem_append]
      exact .inr (h.inside p hp)
    split
    · exact hinside
    · exact List.forall_mem_cons.mpr ⟨by simp [Tree.ids], hinside⟩

theorem sprouts_lowerCases (previous : Option Nat) (cs : List (CaseValue × Nat)) (a : Analysis) :
    ∃ kids, (lowerCases previous cs a).2.1 = kids.map Tree.id ∧
      Sprouts a (lowerCases previous cs a).1 kids (lowerCases previous cs a).2.2 ∧
      ∀ e : BlockId → Option JumpId, (∀ b ∈ kids.flatMap Tree.ids,
        (e b).isSome ↔ b ∈ (lowerCases previous cs a).2.2.map (·.1)) →
      Tree.Fallen cs (kids.map (Tree.mark e)) := by
  induction cs generalizing previous a with
  | nil => exact ⟨[], rfl, .none (.refl a), fun _ _ ↦ .nil⟩
  | cons c cs ih =>
    obtain ⟨v, target⟩ := c
    rw [lowerCases_cons]
    obtain ⟨kids, hids, hs, hfall⟩ := ih (some target) (a.addCase v (previous == some target))
    refine ⟨_, congrArg (_ :: ·) hids, hs.addCase, fun e he ↦ ?_⟩
    have hsize : ∀ b ∈ kids.flatMap Tree.ids, a.blocks.size + 2 ≤ b.index := by
      intro b hb
      have hfresh := hs.fresh b hb
      simp only [addCase, Blocks.size_alloc] at hfresh
      omega
    simp only [List.flatMap_cons, List.forall_mem_append, Tree.ids, List.flatMap_nil,
      List.append_nil, List.forall_mem_cons] at he
    obtain ⟨⟨hblock, hbody, -⟩, hkids⟩ := he
    have hlate : ∀ n < 2, (⟨a.blocks.size + n⟩ : BlockId) ∉
        (lowerCases (some target) cs (a.addCase v (previous == some target))).2.2.map (·.1) := by
      intro n hn hb
      obtain ⟨p, hp, hpe⟩ := List.mem_map.mp hb
      have := hsize _ (hs.inside p hp)
      rw [hpe] at this
      simp at this
      omega
    have hnone : e ⟨a.blocks.size + 1⟩ = none := by
      rw [← Option.not_isSome_iff_eq_none, hblock]
      split
      · exact hlate 1 (by omega)
      · simpa using hlate 1 (by omega)
    rw [List.map_cons, Tree.mark_node, hnone, List.map_singleton, Tree.mark_node]
    refine .cons (fun hn ↦ ?_) (hfall e fun b hb ↦ ?_)
    · rintro rfl
      simp [hn] at hbody
    · rw [hkids b hb]
      split
      · rfl
      · have := hsize b hb
        rw [List.map_cons, List.mem_cons, or_iff_right]
        rintro rfl
        simp at this

/-- Lowering has made the trees `kids`. Below the statement, with a jump wherever one is asked for,
they are a tree that control leaves through jumps only. -/
structure Lowers (a a' : Analysis) (l : Lowered) (kids : List Tree) : Prop
    extends Sprouts a a' kids l.branches where
  children : l.statement.children = kids.map Tree.id
  isSealed : ∀ (e : BlockId → Option JumpId) (root : BlockId),
    ((e root).isSome ↔ l.continuation.isSome) →
    (∀ b ∈ kids.flatMap Tree.ids, (e b).isSome ↔ b ∈ l.branches.map (·.1)) →
    ((Tree.node root Option.none l.statement.kind kids).mark e).Sealed

namespace Lowers

variable {l : Lowered}

theorem leaf (h : Furnished a a') (hb : l.branches = []) (hc : l.continuation.isSome)
    (hk : l.statement = .empty ∨ (∃ e n, l.statement = .evaluate e n) ∨
      ∃ op, l.statement = .shuffle op) : Lowers a a' l [] where
  toSprouts := hb ▸ .none h
  children := by rcases hk with hk | ⟨_, _, hk⟩ | ⟨_, hk⟩ <;> rw [hk] <;> rfl
  isSealed e root he _ := by
    obtain ⟨j, hj⟩ := Option.isSome_iff_exists.mp (he.mpr hc)
    rw [Tree.mark_node, hj]
    refine Tree.sealed_leaf ?_
    rcases hk with hk | ⟨x, n, hk⟩ | ⟨op, hk⟩ <;> rw [hk]
    · exact .inl rfl
    · exact .inr (.inl ⟨x, n, rfl⟩)
    · exact .inr (.inr ⟨op, rfl⟩)

theorem evaluate {e : ExprId} {n : Nat} (h : Furnished a a') (hb : l.branches = [])
    (hc : l.continuation.isSome) (hk : l.statement = .evaluate e n) : Lowers a a' l [] :=
  .leaf h hb hc (.inr (.inl ⟨e, n, hk⟩))

theorem last (h : Furnished a a') (hb : l.branches = [])
    (hk : (∃ v, l.statement = .returns v) ∨ (∃ v, l.statement = .throws v) ∨
      ∃ v, l.statement = .ret v) : Lowers a a' l [] where
  toSprouts := hb ▸ .none h
  children := by rcases hk with ⟨_, hk⟩ | ⟨_, hk⟩ | ⟨_, hk⟩ <;> rw [hk] <;> rfl
  isSealed e root _ _ := by
    rw [Tree.mark_node]
    refine Tree.sealed_last ?_
    rcases hk with ⟨v, hk⟩ | ⟨v, hk⟩ | ⟨v, hk⟩ <;> rw [hk]
    · exact .inl ⟨v, rfl⟩
    · exact .inr (.inl ⟨v, rfl⟩)
    · exact .inr (.inr ⟨v, rfl⟩)

theorem branch {a₁ : Analysis} (h : Furnished a a₁) (ha : a' = (a₁.alloc .empty).1)
    (hb : l.branches = [((a₁.alloc .empty).2, target)]) (hc : l.continuation.isSome)
    (hk : (∃ c, l.statement = .conditional c (a₁.alloc .empty).2) ∨ l.statement = .jsr (a₁.alloc .empty).2) :
    Lowers a a' l [.node (a₁.alloc .empty).2 Option.none .empty []] where
  toSprouts := hb ▸ ha ▸ .branch h target
  children := by rcases hk with ⟨_, hk⟩ | hk <;> rw [hk] <;> rfl
  isSealed e root hr he := by
    obtain ⟨j, hj⟩ := Option.isSome_iff_exists.mp (hr.mpr hc)
    obtain ⟨i, hi⟩ := Option.isSome_iff_exists.mp
      ((he (a₁.alloc .empty).2 (by simp [Tree.ids])).mpr (by simp [hb]))
    rw [Tree.mark_node, hj, List.map_singleton, Tree.mark_node, hi]
    rcases hk with ⟨c, hk⟩ | hk <;> rw [hk]
    · exact Tree.sealed_conditional
    · exact Tree.sealed_jsr

theorem switch {kids : List Tree} {cs : List (CaseValue × Nat)} (h : Sprouts a a' kids l.branches)
    (hk : l.statement = .switch selector (kids.map Tree.id) false)
    (hd : ∃ target, (.default, target) ∈ cs)
    (hfall : ∀ e : BlockId → Option JumpId, (∀ b ∈ kids.flatMap Tree.ids, (e b).isSome ↔ b ∈ l.branches.map (·.1)) → Tree.Fallen cs (kids.map (Tree.mark e))) :
    Lowers a a' l kids where
  toSprouts := h
  children := by rw [hk, Statement.children]
  isSealed e root _ he := by
    rw [Tree.mark_node, hk]
    exact Tree.sealed_switch (hfall e he) hd

end Lowers

theorem default_mem_orderedCases (cases : List (Int × Nat)) (fallback : Nat) :
    (.default, fallback) ∈ orderedCases cases fallback := by
  rw [orderedCases, List.mem_mergeSort]
  simp

/-- Every instruction that can be lowered is lowered to a tree. -/
theorem lowers_of_lower {opcode : Opcode} {l : Lowered} (h : a.lower opcode = .ok (a', l)) :
    ∃ kids, Lowers a a' l kids := by
  cases opcode with
  | nop | goto => cases h; exact ⟨[], .leaf (.refl a) rfl rfl (.inl rfl)⟩
  | stack op => cases h; exact ⟨[], .leaf (.refl a) rfl rfl (.inr (.inr ⟨op, rfl⟩))⟩
  | ret slot => cases h; exact ⟨[], .last (.addLocal (.refl a) ..) rfl (.inr (.inr ⟨_, rfl⟩))⟩
  | throws => cases h; exact ⟨[], .last (.allocExpr (.refl a) _) rfl (.inr (.inl ⟨_, rfl⟩))⟩
  | returns kind =>
    cases kind with
    | none => cases h; exact ⟨[], .last (.refl a) rfl (.inl ⟨_, rfl⟩)⟩
    | some => cases h; exact ⟨[], .last (.allocExpr (.refl a) _) rfl (.inl ⟨_, rfl⟩)⟩
  | branch op operand target =>
    cases operand <;> cases h <;> refine ⟨_, .branch ?_ rfl rfl rfl (.inl ⟨_, rfl⟩)⟩
    all_goals exact .allocExpr (.allocExpr (.allocExpr (.refl a) _) _) _
  | jsr target => cases h; exact ⟨_, .branch (.refl a) rfl rfl rfl (.inr rfl)⟩
  | switch cases fallback =>
    cases h
    obtain ⟨kids, hids, hs, hfall⟩ := sprouts_lowerCases none (orderedCases cases fallback) a
    exact ⟨kids, .switch (hs.furnish (.allocExpr (.refl _) _))
      (congrArg (Statement.switch _ · false) hids) ⟨_, default_mem_orderedCases cases fallback⟩ hfall⟩
  | invoke kind ref =>
    rw [lower] at h
    dsimp only at h
    split at h
    · cases h
    · cases h
      refine ⟨[], .evaluate ?_ rfl rfl rfl⟩
      exact .allocExpr (.allocFrees (.allocObject (.refl a) _) _) _
  | newArray element dimensions =>
    cases h
    exact ⟨[], .evaluate (.allocExpr (.allocFrees (.refl a) _) _) rfl rfl rfl⟩
  | _ =>
    cases h
    refine ⟨[], .evaluate ?_ rfl rfl rfl⟩
    apply_rules [Furnished.refl, Furnished.allocExpr, Furnished.addLocal, Furnished.allocObject]

end Analysis

end Decompile
