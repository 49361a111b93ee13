import Mathlib.Algebra.GroupWithZero.Nat
import Mathlib.Algebra.Order.BigOperators.Group.List
import Mathlib.Algebra.Order.Monoid.Prod
import Decompile.Proofs.Building
import Decompile.Proofs.Evaluation
import Decompile.Proofs.Storage

/-!
Rewriting comes to an end of itself. A rule that applies to a block leaves fewer stack shuffles in
its tree, or as many and fewer blocks, or as many of both and fewer expression nodes. So a tree can
be rewritten only as often as its number of blocks allows, whatever fuel there is.
-/

namespace Decompile

def Kind.isShuffle : Kind → Bool
  | shuffle _ => true
  | _ => false

/-- The expressions that a block of the kind holds. -/
def Kind.exprs : Kind → List ExprId
  | evaluate expr _ => [expr]
  | returns value => value.toList
  | throws exception => [exception]
  | conditional cond | ifElse cond => [cond]
  | loop _ cond init _ => init.toList ++ [cond]
  | switch selector _ => [selector]
  | synchronized _ object => object.toList
  | _ => []

/-- How often the expression of a statement can still be shortened. -/
def Expression.rank : Expression → Nat
  | assign _ none _ => 2
  | assign _ (some _) _ | call .. => 1
  | _ => 0

def Kind.rank (t : Expressions) : Kind → Nat
  | evaluate expr _ => (t.get expr).rank
  | _ => 0

theorem Kind.rank_le (t : Expressions) (k : Kind) : k.rank t ≤ 2 := by
  cases k with
  | evaluate e w =>
    rw [rank, Expression.rank.eq_def]
    split <;> decide
  | _ => exact Nat.zero_le 2

def Frame.mark (e : BlockId → Option JumpId) (F : Frame) : Frame :=
  ⟨F.id, e F.id, F.kind, F.before.map (Tree.mark e), F.after.map (Tree.mark e)⟩

namespace Tree

variable {T X : Tree} {C : List Frame} {e e' : BlockId → Option JumpId} {k : Kind}

theorem mark_plug (C : List Frame) (T : Tree) :
    (plug C T).mark e = plug (C.map (Frame.mark e)) (T.mark e) := by
  induction C generalizing T with
  | nil => rfl
  | cons F C ih =>
    rw [plug_cons, ih, List.map_cons, plug_cons, Frame.fill, mark_node, List.map_append,
      List.map_cons]
    rfl

@[simp] theorem mark_mark (T : Tree) : (T.mark e).mark e' = T.mark e' := by
  induction T using Tree.induct with
  | node i x k l ih =>
    rw [mark_node, mark_node, mark_node, List.map_map]
    exact congrArg _ (List.map_congr_left ih)

@[simp] theorem mark_plug_mark (C : List Frame) (T : Tree) :
    (plug (C.map (Frame.mark e)) T).mark e' = (plug C T).mark e' := by
  rw [mark_plug, mark_plug, List.map_map]
  refine congrArg (plug · _) (List.map_congr_left fun F _ ↦ ?_)
  simp [Frame.mark, Function.comp_def]

theorem withKind_mark (T : Tree) : (T.mark e).withKind k = (T.withKind k).mark e := by
  cases T
  rw [mark_node, withKind, withKind, mark_node]

theorem map_id_children_mark (T : Tree) : (T.mark e).children.map id = T.children.map id := by
  cases T
  simp [mark_node]

/-- The kinds of the blocks. -/
def kinds (T : Tree) : List Kind := T.nodes.map kind

theorem kinds_node (i : BlockId) (j : Option JumpId) (k : Kind) (l : List Tree) :
    (node i j k l).kinds = k :: l.flatMap kinds := by
  rw [kinds, nodes, List.map_cons, List.map_flatMap]
  rfl

@[simp] theorem kinds_mark (T : Tree) : (T.mark e).kinds = T.kinds := by
  induction T using Tree.induct with
  | node i x k l ih =>
    rw [mark_node, kinds_node, kinds_node, List.flatMap_map]
    exact congrArg (k :: ·) (List.flatMap_congr ih)

theorem kinds_plug (C : List Frame) :
    ∃ rest, C.length ≤ rest.length ∧ ∀ T, (plug C T).kinds.Perm (T.kinds ++ rest) := by
  induction C with
  | nil => exact ⟨[], le_rfl, fun T ↦ by simp⟩
  | cons F C ih =>
    obtain ⟨rest, hlen, hrest⟩ := ih
    refine ⟨F.kind :: (F.before ++ F.after).flatMap kinds ++ rest, ?_, fun T ↦ ?_⟩
    · simp
      omega
    · refine (hrest (F.fill T)).trans ?_
      rw [Frame.fill, kinds_node, ← List.append_assoc]
      refine .append_right rest (List.perm_iff_count.mpr fun x ↦ ?_)
      simp only [List.flatMap_append, List.flatMap_cons, List.count_cons, List.count_append]
      omega

/-- How many of the blocks shuffle the operand stack, and how many blocks there are. -/
def load (T : Tree) : Nat × Nat := (T.kinds.countP Kind.isShuffle, T.kinds.length)

theorem load_plug (C : List Frame) :
    ∃ d : Nat × Nat, C.length ≤ d.2 ∧ ∀ T, (plug C T).load = T.load + d := by
  obtain ⟨rest, hlen, hrest⟩ := kinds_plug C
  refine ⟨(rest.countP Kind.isShuffle, rest.length), hlen, fun T ↦ ?_⟩
  simp [load, (hrest T).countP_eq, (hrest T).length_eq]

theorem load_plug_le (h : T.load ≤ X.load) : (plug C T).load ≤ (plug C X).load := by
  obtain ⟨d, -, hd⟩ := load_plug C
  rw [hd, hd]
  exact add_le_add_left h d

theorem load_plug_lt (h : T.load < X.load) : (plug C T).load < (plug C X).load := by
  obtain ⟨d, -, hd⟩ := load_plug C
  rw [hd, hd]
  exact add_lt_add_left h d

theorem load_lt_plug (hC : C ≠ []) : T.load < (plug C T).load := by
  obtain ⟨d, hlen, hd⟩ := load_plug C
  rw [hd, Prod.lt_iff]
  have := List.length_pos_iff.mpr hC
  exact .inr ⟨Nat.le_add_right .., Nat.lt_add_of_pos_right (by omega)⟩

theorem load_withKind_le (h : k.isShuffle → T.kind.isShuffle) : (T.withKind k).load ≤ T.load := by
  obtain ⟨i, j, k', l⟩ := T
  rw [withKind, load, load, kinds_node, kinds_node, Prod.mk_le_mk, List.countP_cons, List.countP_cons]
  refine ⟨Nat.add_le_add_left ?_ _, le_rfl⟩
  split
  next hk => rw [if_pos (show k'.isShuffle = true from h hk)]
  next => exact Nat.zero_le _

theorem load_leaf_le {i : BlockId} {j : Option JumpId} (h : k.isShuffle = false) :
    (node i j k []).load ≤ T.load := by
  obtain ⟨i, j, k', l⟩ := T
  simp [load, kinds_node, h]

theorem load_leaf_lt {i : BlockId} {j : Option JumpId} (h : k.isShuffle = false)
    (hT : T.kind.isShuffle ∨ T.children ≠ []) : (node i j k []).load < T.load := by
  obtain ⟨i, j, k', l⟩ := T
  rw [Prod.lt_iff]
  rcases hT with hT | hT
  · have hk : k'.isShuffle = true := hT
    exact .inl (by simp [load, kinds_node, h, hk])
  · obtain ⟨⟨i', j', k'', l'⟩, l, rfl⟩ := List.exists_cons_of_ne_nil hT
    exact .inr (by simp [load, kinds_node, h])

theorem load_part_lt {q : BlockId} {j : Option JumpId} {l : List Tree}
    (hl : l = [X, T] ∨ l = [T, X]) : (plug C T).load < (plug C (node q j .sequence l)).load := by
  refine load_plug_lt ?_
  rcases hl with rfl | rfl
  · exact load_lt_plug (C := [⟨q, j, .sequence, [X], []⟩]) (by simp)
  · exact load_lt_plug (C := [⟨q, j, .sequence, [], [X]⟩]) (by simp)

theorem Precedes.load_lt {l : List Tree} (h : Precedes X l T) (hl : l ≠ []) : X.load < T.load := by
  obtain ⟨C, rfl, hC⟩ := h.exists_plug
  exact load_lt_plug fun he ↦ hl (List.length_eq_zero_iff.mp (hC ▸ he ▸ rfl))

end Tree

theorem Statement.isShuffle_setCondition (s : Statement) (c : ExprId) :
    (s.setCondition c).kind.isShuffle = s.kind.isShuffle := by
  cases s <;> rfl

namespace Analysis

variable {a a' a₁ u : Analysis} {L : FlowId → Prop} {X : BlockId → Prop} {f : FlowId}
  {T T' B Y : Tree} {C D E : List Frame} {b n p q x y : BlockId} {k : Kind} {run : List BlockId}
  {l : List Tree} {j : Option JumpId} {S : List (BlockId × Kind)} {r : Analysis × BlockId}
  {s : Statement}

section Jumps

theorem Rejumps.refl (a : Analysis) : Rejumps a a := ⟨rfl, fun _ ↦ ⟨rfl, rfl⟩, rfl, fun _ ↦ rfl⟩

theorem Rejumps.trans (h : Rejumps a a₁) (h' : Rejumps a₁ a') : Rejumps a a' where
  size := h'.size.trans h.size
  blocks b := ⟨(h'.blocks b).1.trans (h.blocks b).1, (h'.blocks b).2.trans (h.blocks b).2⟩
  flows := h'.flows.trans h.flows
  bare f := (h'.bare f).trans (h.bare f)

theorem Rejumps.setJumpOf (a : Analysis) (b : BlockId) (j : Option JumpId) :
    Rejumps a (a.setJumpOf b j) where
  size := Blocks.size_setJump ..
  blocks _ := ⟨Blocks.statement_setJump .., Blocks.outer_setJump ..⟩
  flows := rfl
  bare _ := rfl

theorem Rejumps.moveJump (a : Analysis) (b x : BlockId) : Rejumps a (a.moveJump b x) := by
  rw [Analysis.moveJump]
  split
  · exact (Rejumps.setJumpOf ..).trans ⟨Blocks.size_setJump ..,
      fun _ ↦ ⟨Blocks.statement_setJump .., Blocks.outer_setJump ..⟩, rfl, fun _ ↦ rfl⟩
  · exact .refl a

theorem Rejumps.removeJump (a : Analysis) (f : FlowId) (j : JumpId) :
    Rejumps a (a.removeJump f j) := by
  have hunlink (a : Analysis) : Rejumps a { a with graph := a.graph.unlinkJump f j } :=
    ⟨rfl, fun _ ↦ ⟨rfl, rfl⟩, (FlowGraph.Relinked.unlinkJump a.graph f j).flows_size,
      (FlowGraph.Relinked.unlinkJump a.graph f j).bare⟩
  rw [Analysis.removeJump]
  refine Rejumps.trans ?_ (hunlink _)
  split
  · exact .setJumpOf ..
  · exact .refl a

theorem jumpOf_moveJump (hb : b.index < a.blocks.size) (hx : x.index < a.blocks.size) (hbx : b ≠ x) :
    (a.moveJump b x).jumpOf b = none ∧
      ∀ y, y ≠ b → y ≠ x → (a.moveJump b x).jumpOf y = a.jumpOf y := by
  rw [moveJump]
  split
  next j hj =>
    have hjump (y : BlockId) : ((a.blocks.setJump b none).setJump x (some j)).jump y =
        if y = x then some j else if y = b then none else a.blocks.jump y := by
      rw [Blocks.jump_setJump _ _ _ (by simpa using hx), Blocks.jump_setJump _ _ _ hb]
    refine ⟨(hjump b).trans ?_, fun y hyb hyx ↦ (hjump y).trans ?_⟩
    · rw [if_neg hbx, if_pos rfl]
    · rw [if_neg hyx, if_neg hyb]
      rfl
  next hj => exact ⟨hj, fun _ _ _ ↦ rfl⟩

/-- Before a part of a sequence is removed, its jump and that of the sequence have moved. -/
theorem removeStatement_of_sibling (hs : a.sibling? b = some (q, y)) (hb : b.index < a.blocks.size)
    (hq : q.index < a.blocks.size) (hy : y.index < a.blocks.size) (hqy : q ≠ y) (hby : b ≠ y)
    (hqb : q ≠ b) :
    ∃ u, Rejumps a u ∧ a.removeStatement b = u.removeStatement b ∧ u.jumpOf q = none ∧
      u.jumpOf b = none := by
  have h₁ := Rejumps.moveJump a q y
  have hu := h₁.trans (.moveJump _ b y)
  have hjump := jumpOf_moveJump (a := a.moveJump q y) (h₁.size ▸ hb) (h₁.size ▸ hy) hby
  have hjq := (hjump.2 q hqb hqy).trans (jumpOf_moveJump hq hy hqy).1
  have hs' : ((a.moveJump q y).moveJump b y).sibling? b = some (q, y) := by
    have hst (x : BlockId) : ((a.moveJump q y).moveJump b y).statement x = a.statement x :=
      (hu.blocks x).1
    have hout (x : BlockId) : ((a.moveJump q y).moveJump b y).outer x = a.outer x := (hu.blocks x).2
    simpa only [sibling?, hst, hout] using hs
  refine ⟨_, hu, ?_, hjq, hjump.1⟩
  rw [removeStatement, hs, removeStatement, hs']
  dsimp only
  rw [moveJump_of_none hjq, moveJump_of_none hjump.1]

end Jumps

/-- The tree of `f` is `T`, whatever jumps its blocks hold, and the blocks of `S` have no parts and
stand in no tree. -/
structure Shows (L : FlowId → Prop) (f : FlowId) (T : Tree) (S : List (BlockId × Kind))
    (a : Analysis) : Prop where
  planted : a.Planted L
  tree : a.tree f = T.mark a.blocks.jump
  spare : ∀ x ∈ S, ∃ j, a.Loose L (.node x.1 j x.2 [])

section Shows

theorem Moves.shows (h : Moves X L f T' a a') (hf : L f) (hT : ∀ e, T'.mark e = T.mark e) :
    Shows L f T [] a' where
  planted := h.planted
  tree := by rw [(Rejumps.refl a').tree_eq h.planted hf, h.tree, hT]
  spare := by simp

theorem Planted.shows (h : a.Planted L) (hf : L f) : Shows L f (a.tree f) [] a :=
  ⟨h, (Rejumps.refl a).tree_eq h hf, by simp⟩

variable (h : Shows L f T S a) (hf : L f)
include h hf

theorem Shows.moves {T₁ : Tree} (hm : Moves (fun _ ↦ False) L f T₁ a a')
    (hT : ∀ e, T₁.mark e = T'.mark e) : Shows L f T' S a' where
  planted := hm.planted
  tree := (hm.shows hf hT).tree
  spare x hx := by
    obtain ⟨j, hj⟩ := h.spare x hx
    exact ⟨j, hj.moves hf hm fun _ hb ↦ hb.elim⟩

theorem Shows.rejumps (hu : Rejumps a u) : Shows L f T S u where
  planted := hu.planted h.planted
  tree := by rw [hu.tree_eq h.planted hf, h.tree, Tree.mark_mark]
  spare := by
    rintro ⟨n, k⟩ hx
    obtain ⟨j, hN⟩ := h.spare _ hx
    refine ⟨u.blocks.jump n, ?_⟩
    have hids : (Tree.node n (u.blocks.jump n) k []).ids = (Tree.node n j k []).ids := by
      rw [Tree.ids, Tree.ids]
    constructor
    case holds =>
      obtain ⟨o, ho⟩ := hN.holds
      have hm := ho.mark hu.size.ge fun b _ ↦ hu.blocks b
      rw [Tree.mark_node] at hm
      exact ⟨o, hm⟩
    case nodup => exact hids ▸ hN.nodup
    case apart => exact fun g hg ↦ hids ▸ hu.ids_tree h.planted hg ▸ hN.apart g hg
    case growth => exact fun g hg ↦ hids ▸ hu.growth_eq g ▸ hN.growth g hg
    case root => exact fun g hg ↦ hids ▸ hu.root_eq g ▸ hN.root g (hu.live_iff.mp hg)

theorem Shows.besides (hb : Besides a a') : Shows L f T S a' :=
  h.moves hf (h.planted.beside hf hb.blocks hb.graph hb.frame).toMoves fun e ↦ by simp [h.tree]

theorem Shows.alloc (hs : s.children = []) :
    Shows L f T [(⟨a.blocks.size⟩, s.kind)] (a.alloc s).1 := by
  obtain ⟨hm, hN⟩ := h.planted.alloc hf hs
  exact ⟨hm.planted, (hm.shows hf fun e ↦ by simp [h.tree]).tree, by simpa using ⟨none, hN⟩⟩

end Shows

section Plugged

variable (h : Shows L f (plug C B) S a) (hf : L f)
include h

theorem Shows.tree_eq_plug :
    a.tree f = plug (C.map (Frame.mark a.blocks.jump)) (B.mark a.blocks.jump) := by
  rw [h.tree, Tree.mark_plug]

include hf

theorem Shows.statement : (a.statement B.id).kind = B.kind ∧
    (a.statement B.id).children = B.children.map Tree.id := by
  have hB := (h.planted.at_of_plug hf h.tree_eq_plug).holds
  have hk := hB.kind
  have hc := hB.children
  rw [Tree.id_mark] at hk hc
  refine ⟨hk.trans ?_, hc.trans (Tree.map_id_children_mark B)⟩
  cases B
  rw [Tree.mark_node]
  rfl

theorem Shows.eq_evaluate {e : ExprId} {w : Nat} (hs : a.statement B.id = .evaluate e w) :
    B = .node B.id B.jump (.evaluate e w) [] := by
  obtain ⟨hk, hc⟩ := h.statement hf
  rw [hs] at hk hc
  obtain ⟨b, j, k, l⟩ := B
  obtain rfl : l = [] := List.map_eq_nil_iff.mp hc.symm
  obtain rfl : Kind.evaluate e w = k := hk
  rfl

theorem Shows.setStatement (hs : s.children = B.children.map Tree.id) :
    Shows L f (plug C (B.withKind s.kind)) S (a.setStatement B.id s) := by
  have hr := h.planted.setStatement hf h.tree_eq_plug
    (hs.trans (Tree.map_id_children_mark B).symm)
  rw [Tree.id_mark, Tree.withKind_mark, ← Tree.mark_plug] at hr
  exact h.moves hf hr.toMoves fun e ↦ Tree.mark_mark _

theorem Shows.replaceStatement (hn : (n, k) ∈ S) :
    Shows L f (plug C (.node n none k [])) [] (a.replaceStatement B.id n) := by
  have h' := h.rejumps hf (Rejumps.moveJump a B.id n)
  rw [Analysis.replaceStatement]
  generalize a.moveJump B.id n = u at *
  obtain ⟨j, hN⟩ := h'.spare _ hn
  have hr := h'.planted.replaceBlock hf h'.tree_eq_plug hN
  rw [Tree.id_mark, Tree.id_node] at hr
  have hmem : ∀ b ∈ [B.id], b ∈ (u.tree f).ids := fun b hb ↦ by
    obtain rfl : b = B.id := by simpa using hb
    rw [h'.tree, Tree.ids_mark, mem_ids_plug]
    exact .inl B.id_mem_ids
  have hnew : n ∈ (plug (C.map (Frame.mark u.blocks.jump)) (.node n j k [])).ids :=
    mem_ids_plug.mpr (.inl (Tree.id_mem_ids (.node n j k [])))
  refine (hr.retarget h'.planted hf hmem hnew).toMoves.shows hf fun e ↦ ?_
  rw [Tree.mark_plug_mark, Tree.mark_plug, Tree.mark_plug, Tree.mark_node, Tree.mark_node]

end Plugged

section Sequences

variable (h : Shows L f (plug C (.node q j .sequence l)) S a) (hf : L f)
include h hf

theorem Shows.removeStatement (hl : l = [B, Y] ∨ l = [Y, B]) :
    Shows L f (plug C Y) S (a.removeStatement B.id) := by
  have hT := h.tree_eq_plug
  have hl' (e : BlockId → Option JumpId) : l.map (Tree.mark e) = [B.mark e, Y.mark e] ∨
      l.map (Tree.mark e) = [Y.mark e, B.mark e] :=
    hl.imp (congrArg (List.map (Tree.mark e))) (congrArg (List.map (Tree.mark e)))
  rw [Tree.mark_node] at hT
  have hat := h.planted.at_of_plug hf hT
  obtain ⟨hBl, hYl, hd, hqB⟩ := parts_apart hat.ids_nodup (hl' _)
  have hqY := (parts_apart hat.ids_nodup (hl' _).symm).2.2.2
  have hs := sibling?_eq hat (hl' _)
  rw [Tree.ids_mark] at hqB hqY
  rw [Tree.ids_mark, Tree.ids_mark] at hd
  rw [Tree.id_mark, Tree.id_mark] at hs
  have hB := (hat.holds.child hBl).lt_size
  have hY := (hat.holds.child hYl).lt_size
  rw [Tree.id_mark] at hB hY
  obtain ⟨u, hu, heq, hjq, hjB⟩ := removeStatement_of_sibling hs hB hat.holds.lt_size hY
    (fun he ↦ hqY (he ▸ Y.id_mem_ids)) (fun he ↦ hd B.id_mem_ids (he ▸ Y.id_mem_ids))
    (fun he ↦ hqB (he ▸ B.id_mem_ids))
  have h' := h.rejumps hf hu
  have hT' := h'.tree_eq_plug
  rw [Tree.mark_node, show u.blocks.jump q = none from hjq] at hT'
  have hjB' : (B.mark u.blocks.jump).jump = none := by
    cases B
    rw [Tree.mark_node]
    exact hjB
  have hr := (h'.planted.removeStatement hf hT' (hl' _) hjB').1
  rw [Tree.id_mark, ← Tree.mark_plug] at hr
  exact heq ▸ h'.moves hf hr.toMoves fun e ↦ Tree.mark_mark _

end Sequences

theorem Shows.removeStatements (h : Shows L f (plug E T) S a) (hf : L f)
    (hl : Tree.Precedes Y l T) : Shows L f (plug E Y) S (a.removeStatements (l.map Tree.id)) := by
  induction hl generalizing a with
  | nil => exact h
  | cons q j _ ih => exact ih (h.removeStatement hf (.inl rfl))

theorem Shows.replaceRun (h : Shows L f (plug E T) S a) (hf : L f) (hl : Tree.Precedes (plug D B) l T)
    (hs : s.children = []) :
    Shows L f (plug (D ++ E) (.node ⟨a.blocks.size⟩ none s.kind [])) []
      (a.replaceRun (l.map Tree.id) B.id s).1 := by
  have h₁ := (h.alloc hf hs).removeStatements hf hl
  rw [← plug_append] at h₁
  exact h₁.replaceStatement hf (by simp)

/-- An expression that gives way to one with fewer nodes, in its place or next to the others. -/
inductive Recasts (t : Expressions) (e : ExprId) : Expressions → ExprId → Prop
  | construct {ref : MemberRef} {object : ExprId} {type descriptor : Name}
      {arguments : List ExprId} : t.get e = .call .special ref (some object) arguments →
    Recasts t e (t.alloc (.construct type descriptor arguments)).1 ⟨t.size⟩
  | shorten {x : Expression} : Shortens t (t.get e) x → Recasts t e (t.set e x) e

/-- The tree of `f` has become lighter. -/
def Lightens (L : FlowId → Prop) (f : FlowId) (a a' : Analysis) : Prop :=
  a'.Planted L ∧ (a'.tree f).load < (a.tree f).load

theorem Shows.lightens (h : Shows L f T S a') (hT : T.load < (a.tree f).load) : Lightens L f a a' := by
  refine ⟨h.planted, ?_⟩
  rwa [h.tree, Tree.load, Tree.kinds_mark]

/-- A statement of the tree of `f` evaluates another expression. -/
def Reevaluates (L : FlowId → Prop) (f : FlowId) (a a' : Analysis) : Prop :=
  ∃ C b n j j' e e' w, a.tree f = plug C (.node b j (.evaluate e w) []) ∧
    Shows L f (plug C (.node n j' (.evaluate e' w) [])) [] a' ∧ Recasts a.exprs e a'.exprs e'

section Rules

variable (h : a.Planted L) (hf : L f) (hb : b ∈ (a.tree f).ids)
include h hf hb

theorem Planted.exists_run {m : Nat} (hr : a.blocks.preceding b m = some run) :
    ∃ B E D l T, B.id = b ∧ Shows L f (plug E T) [] a ∧ a.tree f = plug E T ∧
      Tree.Precedes (plug D B) l T ∧ (D = [] ∨ ∃ q j Y, D = [⟨q, j, .sequence, [], [Y]⟩]) ∧
      run = l.map Tree.id ∧ l.length = m := by
  obtain ⟨C, B, hT, rfl⟩ := exists_plug_of_id hb
  obtain ⟨E, D, l, T, he, hl, hD, hrun, hm⟩ := exists_preceding (h.at_of_plug hf hT) hr
  rw [he] at hT
  exact ⟨B, E, D, l, T, rfl, hT ▸ h.shows hf, hT, hl, hD, hrun, hm⟩

theorem Planted.lightens_replaceRun {m : Nat} (ha : Besides a a₁) (hr : a.Ahead b m run)
    (hs : s.kind.Evaluates) (hm : m ≠ 0 ∨ (a.shuffle? b).isSome) :
    Lightens L f a (a₁.replaceRun run b s).1 := by
  obtain ⟨B, E, D, l, T, rfl, h₀, hT, hl, -, rfl, rfl⟩ := h.exists_run hf hb hr.preceding
  refine ((h₀.besides hf ha).replaceRun hf hl (children_of_simple hs.simple)).lightens ?_
  have hk : s.kind.isShuffle = false := by
    generalize s.kind = k at hs
    cases k <;> first | rfl | exact hs.elim
  rw [hT, plug_append]
  refine Tree.load_plug_lt ?_
  obtain rfl | hne := eq_or_ne l []
  · cases hl
    have hB : B.kind.isShuffle := by
      obtain ⟨op, hop⟩ := Option.isSome_iff_exists.mp (hm.resolve_left (by simp))
      rw [← plug_append] at h₀
      rw [← (h₀.statement hf).1, statement_of_shuffle? hop]
      rfl
    exact Tree.load_plug_lt (Tree.load_leaf_lt hk (.inl hB))
  · exact (Tree.load_plug_le (Tree.load_leaf_le hk)).trans_lt (hl.load_lt hne)

theorem Planted.lightens_drop {m : Nat} (ha : Besides a a₁) (hr : a.Ahead b (m + 1) run) :
    Lightens L f a (a₁.removeStatements run) := by
  obtain ⟨B, E, D, l, T, rfl, h₀, hT, hl, -, rfl, hm⟩ := h.exists_run hf hb hr.preceding
  refine ((h₀.besides hf ha).removeStatements hf hl).lightens ?_
  rw [hT]
  exact Tree.load_plug_lt (hl.load_lt (List.ne_nil_of_length_eq_add_one hm))

theorem Planted.lightens_complete {m : Nat} (hr : a.Ahead b (m + 1) run)
    (hc : Completes (a.statement b) s) :
    Lightens L f a ((a.removeStatements run).setStatement b s) := by
  obtain ⟨B, E, D, l, T, rfl, h₀, hT, hl, -, rfl, hm⟩ := h.exists_run hf hb hr.preceding
  obtain ⟨C, rfl, -⟩ := hl.exists_plug
  have hB := h₀
  rw [← plug_append, ← plug_append] at hB
  have hshape : s.children = (a.statement B.id).children ∧ s.kind.isShuffle = false := by
    generalize a.statement B.id = s₀ at hc
    cases hc <;> exact ⟨rfl, rfl⟩
  have h₁ := h₀.removeStatements hf hl
  rw [← plug_append] at h₁
  refine (h₁.setStatement hf (hshape.1.trans (hB.statement hf).2)).lightens ?_
  rw [hT, plug_append]
  refine Tree.load_plug_lt ((Tree.load_plug_le (Tree.load_withKind_le ?_)).trans_lt
    (hl.load_lt (List.ne_nil_of_length_eq_add_one hm)))
  simp [hshape.2]

theorem Planted.lightens_combine (ha : Besides a a₁) (hprev : a.blocks.prevStatement b = some p)
    (g : FlowId) (i : JumpId) (c : ExprId) :
    Lightens L f a (((a₁.removeJump g i).removeStatement p).setCondition b c) := by
  obtain ⟨C, B, hT, rfl⟩ := exists_plug_of_id hb
  obtain ⟨E, D, q, j, P, he, rfl, -⟩ := (h.at_of_plug hf hT).prevStatement hprev
  rw [he] at hT
  have h₀ : Shows L f _ [] a := hT ▸ h.shows hf
  have h₁ := ((h₀.besides hf ha).rejumps hf (.removeJump a₁ g i)).removeStatement hf (.inl rfl)
  rw [← plug_append] at h₁
  generalize (a₁.removeJump g i).removeStatement P.id = a₂ at h₁
  obtain ⟨hk, hc⟩ := h₁.statement hf
  refine (h₁.setStatement (s := (a₂.statement B.id).setCondition c) hf
    ((Statement.children_setCondition ..).trans hc)).lightens ?_
  rw [hT, plug_append]
  refine Tree.load_plug_lt ((Tree.load_plug_le (Tree.load_withKind_le ?_)).trans_lt
    (Tree.load_lt_plug (C := [⟨q, j, .sequence, [P], []⟩]) (by simp)))
  rw [Statement.isShuffle_setCondition, hk]
  exact id

theorem Planted.lightens_removeStatement (hs : (a.sibling? b).isSome) :
    Lightens L f a (a.removeStatement b) := by
  obtain ⟨C, B, hT, rfl⟩ := exists_plug_of_id hb
  obtain ⟨q, j, Y, E, hC⟩ := exists_sequence (h.at_of_plug hf hT) hs
  obtain ⟨l, hl, hT'⟩ : ∃ l, (l = [B, Y] ∨ l = [Y, B]) ∧
      a.tree f = plug E (.node q j .sequence l) := by
    rcases hC with rfl | rfl
    · exact ⟨_, .inl rfl, hT⟩
    · exact ⟨_, .inr rfl, hT⟩
  have h₀ : Shows L f _ [] a := hT' ▸ h.shows hf
  refine (h₀.removeStatement hf hl).lightens ?_
  rw [hT']
  exact Tree.load_part_lt hl

theorem Planted.lightens_swap {first second : BlockId} {v w : ExprId}
    (hr : a.blocks.preceding b 2 = some [first, second])
    (hv : a.statement first = .evaluate v 1) (hw : a.statement second = .evaluate w 1) :
    Lightens L f a (((a.setStatement first (.evaluate w 1)).setStatement second
      (.evaluate v 1)).removeStatement b) := by
  obtain ⟨B, E, D, l, T, rfl, h₀, hT, hl, hD, hids, -⟩ := h.exists_run hf hb hr
  obtain ⟨P, Q, rfl, rfl, rfl⟩ : ∃ P Q, l = [P, Q] ∧ P.id = first ∧ Q.id = second := by
    rcases l with _ | ⟨P, _ | ⟨Q, _ | ⟨_, _⟩⟩⟩ <;> simp_all
  cases hl with | cons q₁ j₁ hl =>
  cases hl with | cons q₂ j₂ hl =>
  cases hl
  have hP := (Shows.statement (C := ⟨q₁, j₁, .sequence, [], [_]⟩ :: E) h₀ hf).2
  have hQ := (Shows.statement (C := ⟨q₂, j₂, .sequence, [], [_]⟩ :: ⟨q₁, j₁, .sequence, [P], []⟩ :: E)
    h₀ hf).2
  rw [hv] at hP
  rw [hw] at hQ
  have h₁ := Shows.setStatement (C := ⟨q₁, j₁, .sequence, [], [_]⟩ :: E) (s := .evaluate w 1) h₀ hf hP
  have h₂ := Shows.setStatement (s := .evaluate v 1)
    (C := ⟨q₂, j₂, .sequence, [], [_]⟩ :: ⟨q₁, j₁, .sequence, [_], []⟩ :: E) h₁ hf hQ
  have hle := (Tree.load_plug_le (T := Q.withKind (.evaluate v 1))
    (C := ⟨q₂, j₂, .sequence, [], [plug D B]⟩ :: ⟨q₁, j₁, .sequence, [_], []⟩ :: E)
    (Tree.load_withKind_le nofun)).trans
      (Tree.load_plug_le (T := P.withKind (.evaluate w 1)) (C := ⟨q₁, j₁, .sequence, [], [_]⟩ :: E)
        (Tree.load_withKind_le nofun))
  rcases hD with rfl | ⟨q, j, Y, rfl⟩
  · refine (Shows.removeStatement (C := ⟨q₁, j₁, .sequence, [_], []⟩ :: E) h₂ hf
      (.inr rfl)).lightens ?_
    rw [hT]
    exact (Tree.load_part_lt (.inr rfl)).trans_le hle
  · refine (Shows.removeStatement (C := ⟨q₂, j₂, .sequence, [_], []⟩ ::
      ⟨q₁, j₁, .sequence, [_], []⟩ :: E) h₂ hf (.inl rfl)).lightens ?_
    rw [hT]
    exact (Tree.load_part_lt (.inl rfl)).trans_le hle

/-- A rule lightens the tree, or makes one of its statements evaluate a smaller expression. -/
theorem Rewrites.lightens_or_reevaluates (hr : Rewrites a b r) :
    Lightens L f a r.1 ∨ Reevaluates L f a r.1 := by
  obtain ⟨C, B, hT, rfl⟩ := exists_plug_of_id hb
  have h₀ : Shows L f (plug C B) [] a := hT ▸ h.shows hf
  cases hr with
  | drop ha hr => exact .inl (h.lightens_drop hf hb ha hr)
  | fold ha hr _ hs hm => exact .inl (h.lightens_replaceRun hf hb ha hr hs hm)
  | @construct e object ref type arguments he hc =>
    have hbe := Besides.allocExpr a (.construct ref.owner ref.descriptor arguments)
    have h₁ := (h₀.besides hf hbe).replaceRun (D := []) (s := .evaluate ⟨a.exprs.size⟩ 0) hf .nil rfl
    have hB := h₀.eq_evaluate hf (statement_of_statementExpr? he)
    refine .inr ⟨C, B.id, _, B.jump, none, e, ⟨a.exprs.size⟩, 0, hB ▸ hT, h₁, ?_⟩
    have hcontent (a : Analysis) (s : Statement) : (a.replaceRun [] B.id s).1.content = a.content := by
      rw [replaceRun]
      simp only [replaceStatement, content_retargetGrowth, content_replaceBlock, content_moveJump]
      rfl
    rw [show (replaceRun _ [] _ _).1.exprs = _ from congrArg Prod.fst (hcontent _ _)]
    exact .construct hc
  | @shorten a₁ e w x hs ha hexprs hx =>
    have hB := h₀.eq_evaluate hf hs
    have hm : Reshapes _ L f _ a (a₁.setExpr e x) := h.beside hf ha.blocks ha.graph ha.frame
    refine .inr ⟨C, B.id, B.id, B.jump, B.jump, e, e, w, hB ▸ hT, ?_, ?_⟩
    · rw [← hB]
      exact h₀.moves hf hm.toMoves fun _ ↦ by rw [hT]
    · exact (congrArg (·.set e x) hexprs : (a₁.setExpr e x).exprs = _) ▸ .shorten hx
  | @ternary a₁ cond e onTrue onFalse x y hs hx hy ha =>
    refine .inl (((h₀.besides hf ha).replaceRun (D := []) hf .nil rfl).lightens ?_)
    rw [hT]
    refine Tree.load_plug_lt (Tree.load_leaf_lt rfl (.inr fun hnil ↦ ?_))
    have hchildren := (h₀.statement hf).2
    rw [hs, hnil] at hchildren
    cases hchildren
  | combine c _ hprev _ _ _ _ ha => exact .inl (h.lightens_combine hf hb ha hprev _ _ c)
  | complete hr hc => exact .inl (h.lightens_complete hf hb hr hc)
  | empty _ _ hcan => exact .inl (h.lightens_removeStatement hf hb (isSome_sibling? hcan))
  | swap _ hr hx hy => exact .inl (h.lightens_swap hf hb hr (statement_of_pushed? hx).1
      (statement_of_pushed? hy).1)

end Rules

namespace Recasts

open Expressions

variable {t t' : Expressions} {e e' c : ExprId} {m n : Nat}

theorem size_le (h : Recasts t e t' e') : t.size ≤ t'.size := by
  cases h <;> simp

theorem mem_preorderWithin_of_nests (h : t.nestsWithin m c) : c ∈ t.preorderWithin m c := by
  cases m with
  | zero => simp [nestsWithin] at h
  | succ m => exact mem_preorderWithin_self t m c

theorem preorderWithin_eq (h : Recasts t e t' e') (hn : t.nestsWithin m c) (hmn : m ≤ n)
    (hc : ∀ x ∈ t.preorderWithin m c, x ≠ e ∧ x.index < t.size) :
    t'.preorderWithin n c = t.preorderWithin m c := by
  refine preorderWithin_congr hn hmn fun x hx ↦ ?_
  obtain ⟨hne, hlt⟩ := hc x hx
  cases h with
  | construct => rw [get_alloc, if_neg hlt.ne]
  | shorten => rw [get_set, if_neg fun he ↦ hne he.1.symm]

theorem length_lt (h : Recasts t e t' e') (hn : t.nestsWithin (m + 1) e)
    (hlt : ∀ x ∈ t.preorderWithin (m + 1) e, x.index < t.size) (hmn : m ≤ n) :
    (t'.preorderWithin (n + 1) e').length < (t.preorderWithin (m + 1) e).length := by
  have hbelow : ∀ c ∈ (t.get e).children, ∀ x ∈ t.preorderWithin m c, x ≠ e ∧ x.index < t.size := by
    refine fun c hc x hx ↦ ⟨?_, hlt x (mem_preorderWithin_child hc hx)⟩
    rintro rfl
    exact notMem_preorderWithin hn hc hx
  have hnests : ∀ c ∈ (t.get e).children, t.nestsWithin m c := fun c hc ↦ nestsWithin_child hn hc
  have hsame : ∀ c ∈ (t.get e).children, t'.preorderWithin n c = t.preorderWithin m c := fun c hc ↦
    h.preorderWithin_eq (hnests c hc) hmn (hbelow c hc)
  have hdeep {c : ExprId} {k : Nat} := h.preorderWithin_eq (c := c) (m := k) (n := n)
  rw [preorderWithin, preorderWithin, List.length_cons, List.length_cons]
  cases h with
  | @construct ref object type descriptor arguments he =>
    have hargs := List.flatMap_congr fun c (hc : c ∈ arguments) ↦
      hsame c (by simp [he, Expression.children, hc])
    have := List.length_pos_of_mem (mem_preorderWithin_of_nests
      (hnests object (by simp [he, Expression.children])))
    rw [get_alloc, if_pos rfl, he]
    simp only [Expression.children, Option.toList_some, List.singleton_append, List.flatMap_cons,
      List.length_append, hargs]
    omega
  | @shorten y hy =>
    rw [get_set, if_pos ⟨rfl, hlt e (mem_preorderWithin_self t m e)⟩]
    generalize t.get e = z at hy hsame hnests hbelow
    cases hy with
    | @compound target value lhs rhs op hvalue =>
      have hin : value ∈ (Expression.assign target none value).children := by
        simp [Expression.children]
      have hrhs : rhs ∈ (t.get value).children := by simp [hvalue, Expression.children]
      have hnv := hnests value hin
      obtain _ | k := m
      · simp [nestsWithin] at hnv
      have hr := hdeep (nestsWithin_child hnv hrhs) ((Nat.le_succ k).trans hmn) fun x hx ↦
        hbelow value hin x (mem_preorderWithin_child hrhs hx)
      have hlen : (t.preorderWithin (k + 1) value).length =
          (t.preorderWithin k lhs).length + (t.preorderWithin k rhs).length + 1 := by
        rw [preorderWithin, hvalue]
        simp [Expression.children]
      simp only [Expression.children, List.flatMap_cons, List.flatMap_nil, List.append_nil,
        List.length_append, hsame target (by simp [Expression.children]), hr, hlen]
      omega
    | @step target value op =>
      have := List.length_pos_of_mem (mem_preorderWithin_of_nests
        (hnests value (by simp [Expression.children])))
      simp only [Expression.children, List.flatMap_cons, List.flatMap_nil, List.append_nil,
        List.length_append, hsame target (by simp [Expression.children])]
      omega

theorem length_preorder_lt (h : Recasts t e t' e') (hn : t.nestsWithin t.size e)
    (hlt : ∀ x ∈ t.preorder e, x.index < t.size) :
    (t'.preorder e').length < (t.preorder e).length := by
  have hsize := h.size_le
  rw [preorder] at hlt
  rw [preorder, preorder]
  generalize t'.size = n at hsize
  generalize ht : t.size = m at *
  obtain _ | m := m
  · simp [nestsWithin] at hn
  obtain ⟨n, rfl⟩ := Nat.exists_eq_add_one_of_ne_zero (Nat.ne_zero_of_lt hsize)
  exact h.length_lt hn (ht ▸ hlt) (Nat.le_of_succ_le_succ hsize)

theorem rank_lt (h : Recasts t e t' e') :
    (t'.get e').rank < (t.get e).rank ∧ ∀ x, (t'.get x).rank ≤ (t.get x).rank := by
  cases h with
  | construct he =>
    refine ⟨?_, fun x ↦ ?_⟩
    · rw [Expressions.get_alloc, if_pos rfl, he]
      exact Nat.zero_lt_one
    · rw [Expressions.get_alloc]
      split
      · exact Nat.zero_le _
      · exact le_rfl
  | @shorten y hy =>
    have hlt : y.rank < (t.get e).rank := by
      generalize t.get e = z at hy
      cases hy with
      | compound => exact Nat.one_lt_two
      | @step target value op =>
        cases op
        · exact Nat.zero_lt_two
        · exact Nat.zero_lt_one
    have hin : e.index < t.size := by
      by_contra hge
      have hdefault : t.get e = default := t.nodes.get_of_size_le (Nat.le_of_not_lt hge)
      rw [hdefault] at hlt
      cases hlt
    refine ⟨?_, fun x ↦ ?_⟩
    · rwa [Expressions.get_set, if_pos ⟨rfl, hin⟩]
    · rw [Expressions.get_set]
      split
      next hx => exact hx.1 ▸ hlt.le
      next => exact le_rfl

end Recasts

section Measure

/-- The expressions that the blocks of the tree hold. -/
def heldExprs (a : Analysis) (f : FlowId) : List ExprId := (a.tree f).kinds.flatMap Kind.exprs

def exprNodes (a : Analysis) (f : FlowId) : List ExprId :=
  (a.heldExprs f).flatMap a.exprs.preorder

/-- The blocks of the flow blocks of `L` are trees, and so are the expressions that they hold. -/
structure TreeShaped (a : Analysis) (L : FlowId → Prop) : Prop where
  planted : a.Planted L
  nests : ∀ f, L f → ∀ e ∈ a.heldExprs f, a.exprs.nestsWithin a.exprs.size e
  range : ∀ f, L f → ∀ e ∈ a.exprNodes f, e.index < a.exprs.size
  nodup : ∀ f, L f → (a.exprNodes f).Nodup

/-- How many stack shuffles, blocks and expression nodes the tree has. -/
def weight (a : Analysis) (f : FlowId) : Nat × Nat × Nat :=
  ((a.tree f).load.1, (a.tree f).load.2, (a.exprNodes f).length)

/-- How often the statements of the tree can still be shortened, at most. -/
def rank (a : Analysis) (f : FlowId) : Nat := ((a.tree f).kinds.map (Kind.rank a.exprs)).sum

theorem rank_le (a : Analysis) (f : FlowId) : a.rank f ≤ 2 * (a.tree f).load.2 := by
  have hle : ∀ n ∈ (a.tree f).kinds.map (Kind.rank a.exprs), n ≤ 2 := by
    intro n hn
    obtain ⟨k, -, rfl⟩ := List.mem_map.mp hn
    exact k.rank_le a.exprs
  simpa [rank, Tree.load, Nat.mul_comm] using List.sum_le_card_nsmul _ 2 hle

namespace Reevaluates

variable (h : Reevaluates L f a a')
include h

theorem exists_rest : ∃ e e' w rest, (a.tree f).kinds.Perm (.evaluate e w :: rest) ∧
    (a'.tree f).kinds.Perm (.evaluate e' w :: rest) ∧ Recasts a.exprs e a'.exprs e' := by
  obtain ⟨C, b, n, j, j', e, e', w, hT, h', hr⟩ := h
  obtain ⟨rest, -, hrest⟩ := Tree.kinds_plug C
  refine ⟨e, e', w, rest, ?_, ?_, hr⟩
  · rw [hT]
    simpa [Tree.kinds_node] using hrest (.node b j (.evaluate e w) [])
  · rw [h'.tree, Tree.kinds_mark]
    simpa [Tree.kinds_node] using hrest (.node n j' (.evaluate e' w) [])

theorem load_eq : (a'.tree f).load = (a.tree f).load := by
  obtain ⟨e, e', w, rest, hp, hp', -⟩ := h.exists_rest
  simp [Tree.load, hp.countP_eq, hp'.countP_eq, hp.length_eq, hp'.length_eq, Kind.isShuffle]

theorem rank_lt : a'.rank f < a.rank f := by
  obtain ⟨e, e', w, rest, hp, hp', hr⟩ := h.exists_rest
  obtain ⟨hlt, hle⟩ := hr.rank_lt
  rw [rank, rank, (hp.map _).sum_eq, (hp'.map _).sum_eq, List.map_cons, List.map_cons,
    List.sum_cons, List.sum_cons]
  refine Nat.add_lt_add_of_lt_of_le hlt (List.sum_le_sum fun k _ ↦ ?_)
  cases k with
  | evaluate c v => exact hle c
  | _ => exact le_rfl

theorem length_exprNodes_lt (hs : a.TreeShaped L) (hf : L f) :
    (a'.exprNodes f).length < (a.exprNodes f).length := by
  obtain ⟨e, e', w, rest, hp, hp', hr⟩ := h.exists_rest
  have hnodes : (a.exprNodes f).Perm
      (a.exprs.preorder e ++ (rest.flatMap Kind.exprs).flatMap a.exprs.preorder) :=
    (hp.flatMap_right _).flatMap_right _
  have hnodes' : (a'.exprNodes f).Perm
      (a'.exprs.preorder e' ++ (rest.flatMap Kind.exprs).flatMap a'.exprs.preorder) :=
    (hp'.flatMap_right _).flatMap_right _
  have hnests : ∀ c ∈ e :: rest.flatMap Kind.exprs, a.exprs.nestsWithin a.exprs.size c := fun c hc ↦
    hs.nests f hf c ((hp.flatMap_right _).mem_iff.mpr hc)
  have hrange : ∀ c ∈ a.exprs.preorder e ++ (rest.flatMap Kind.exprs).flatMap a.exprs.preorder,
      c.index < a.exprs.size := fun c hc ↦ hs.range f hf c (hnodes.mem_iff.mpr hc)
  have hapart := (List.nodup_append'.mp (hnodes.nodup_iff.mp (hs.nodup f hf))).2.2
  have hself : e ∈ a.exprs.preorder e := Recasts.mem_preorderWithin_of_nests (hnests e (by simp))
  have hrest : (rest.flatMap Kind.exprs).flatMap a'.exprs.preorder =
      (rest.flatMap Kind.exprs).flatMap a.exprs.preorder := by
    refine List.flatMap_congr fun c hc ↦ ?_
    have hin : ∀ x ∈ a.exprs.preorder c, x ∈ (rest.flatMap Kind.exprs).flatMap a.exprs.preorder :=
      fun x hx ↦ List.mem_flatMap.mpr ⟨c, hc, hx⟩
    refine hr.preorderWithin_eq (hnests c (by simp [hc])) hr.size_le fun x hx ↦ ⟨?_, ?_⟩
    · rintro rfl
      exact hapart hself (hin x hx)
    · exact hrange x (List.mem_append_right _ (hin x hx))
  rw [hnodes.length_eq, hnodes'.length_eq, List.length_append, List.length_append, hrest]
  refine Nat.add_lt_add_right (hr.length_preorder_lt (hnests e (by simp)) fun c hc ↦ ?_) _
  exact hrange c (List.mem_append_left _ hc)

end Reevaluates

end Measure

section Termination

/-- `n` rules have been applied to blocks of the tree of `f`, with any fuel. -/
inductive Applications (f : FlowId) (a : Analysis) : Nat → Analysis → Prop
  | none (fuel applied : Nat) : Applications f a 0 { a with fuel, applied }
  | apply {n : Nat} {a' : Analysis} {b : BlockId} {rule : Rule} {r : Analysis × BlockId}
      (fuel applied : Nat) : Applications f a n a' → b ∈ (a'.tree f).ids →
    rule.apply a' b = some r → Applications f a (n + 1) { r.1 with fuel, applied }

namespace Applications

theorem refuel {n : Nat} (h : Applications f a n a') (fuel : Nat) :
    Applications f a n { a' with fuel } := by
  cases h with
  | none _ applied => exact .none fuel applied
  | apply _ applied h hb hr => exact .apply fuel applied h hb hr

variable (h : a.Planted L) (hf : L f)
include h hf

theorem planted {n : Nat} (hn : Applications f a n a') : a'.Planted L := by
  have hsame (a : Analysis) (fuel applied : Nat) : Rejumps a { a with fuel, applied } :=
    ⟨rfl, fun _ ↦ ⟨rfl, rfl⟩, rfl, fun _ ↦ rfl⟩
  induction hn with
  | none => exact (hsame ..).planted h
  | apply fuel applied _ hb hr ih =>
    refine (hsame ..).planted ?_
    obtain h' | ⟨_, _, _, _, _, _, _, _, -, h', -⟩ :=
      Rewrites.lightens_or_reevaluates ih hf hb (offers_apply _ _ _ _ hr)
    · exact h'.1
    · exact h'.planted

/-- Each application lowers the number of shuffles and blocks together, or leaves it and lowers the
rank, which is never more than twice the number of blocks. -/
theorem le_bound {n : Nat} (hn : Applications f a n a') :
    (a'.tree f).load ≤ (a.tree f).load ∧
      n + ((a'.tree f).load.1 + (a'.tree f).load.2) * (2 * (a.tree f).load.2 + 1) + a'.rank f ≤
        ((a.tree f).load.1 + (a.tree f).load.2) * (2 * (a.tree f).load.2 + 1) + a.rank f := by
  induction hn with
  | none => exact ⟨le_rfl, (Nat.zero_add _ ▸ le_rfl)⟩
  | @apply n a' b rule r fuel applied hn hb hr ih =>
    obtain ⟨hle, hn'⟩ := ih
    change (r.1.tree f).load ≤ _ ∧ n + 1 + ((r.1.tree f).load.1 + (r.1.tree f).load.2) * _ +
      r.1.rank f ≤ _
    obtain ⟨-, hlt⟩ | hre :=
      Rewrites.lightens_or_reevaluates (hn.planted h hf) hf hb (offers_apply _ _ _ _ hr)
    · refine ⟨hlt.le.trans hle, ?_⟩
      have hrank := r.1.rank_le f
      have hsum : (r.1.tree f).load.1 + (r.1.tree f).load.2 + 1 ≤
          (a'.tree f).load.1 + (a'.tree f).load.2 := by
        rcases Prod.lt_iff.mp hlt with ⟨h₁, h₂⟩ | ⟨h₁, h₂⟩ <;> omega
      have hmul := Nat.mul_le_mul_right (2 * (a.tree f).load.2 + 1) hsum
      rw [Nat.succ_mul] at hmul
      have := (hlt.le.trans hle).2
      omega
    · have hlt := hre.rank_lt
      rw [hre.load_eq]
      exact ⟨hle, by omega⟩

end Applications

theorem applications_fixpoint (h : a.Planted L) (hf : L f) (fuel : Nat) :
    ∃ n, Applications f a n ({ a with fuel }.fixpoint f) := by
  refine fixpoint_induct (P := fun a' ↦ ∃ n, Applications f a n a') ?_ ?_ ⟨0, .none fuel a.applied⟩
  · rintro a' a₁ ⟨n, hn⟩ ht
    exact ⟨n, tick_eq_some ht ▸ hn.refuel _⟩
  · rintro a' b rule r ⟨n, hn⟩ hin hr
    have hp := hn.planted h hf
    rw [← id_tree] at hin
    exact ⟨n + 1, .apply _ _ hn ((hp.holds f hf).mem_ids_of_isWithin hp.linked hin) hr⟩

/-- Each rule lowers the weight of the tree it is applied to. The rules can be applied to a tree
only so often, and whatever fuel there is they are applied no more often to its fixpoint. -/
theorem rewriting_terminates (h : a.TreeShaped L) (hf : L f) :
    (∀ b ∈ (a.tree f).ids, ∀ (rule : Rule) (r : Analysis × BlockId), rule.apply a b = some r →
      Prod.Lex (· < ·) (Prod.Lex (· < ·) (· < ·)) (r.1.weight f) (a.weight f)) ∧
    (∀ n a', Applications f a n a' →
      n ≤ ((a.weight f).1 + (a.weight f).2.1) * (2 * (a.weight f).2.1 + 1) + 2 * (a.weight f).2.1) ∧
    ∀ fuel, ∃ n, Applications f a n ({ a with fuel }.fixpoint f) := by
  refine ⟨fun b hb rule r hr ↦ ?_, fun n a' hn ↦ ?_, applications_fixpoint h.planted hf⟩
  · obtain ⟨-, hlt⟩ | hre :=
      Rewrites.lightens_or_reevaluates h.planted hf hb (offers_apply a b rule r hr)
    · rcases Prod.lt_iff.mp hlt with ⟨h₁, -⟩ | ⟨h₁, h₂⟩
      · exact .left _ _ h₁
      · rw [Prod.lex_def]
        exact h₁.lt_or_eq.imp_right fun he ↦ ⟨he, .left _ _ h₂⟩
    · rw [weight, weight, hre.load_eq]
      exact .right _ (.right _ (hre.length_exprNodes_lt h hf))
  · have := (hn.le_bound h.planted hf).2
    have := a.rank_le f
    dsimp only [weight]
    omega

/-- `x = x + 1` -/
def addAssign : Analysis :=
  { exprs := ⟨⟨#[.var ⟨0⟩, .var ⟨0⟩, .const (.int 1), .binary .add ⟨1⟩ ⟨2⟩, .assign ⟨0⟩ none ⟨3⟩]⟩⟩
    blocks := ⟨⟨#[{ statement := .evaluate ⟨4⟩ 0 }]⟩⟩
    locals := ⟨⟨#[⟨.slot, some 1⟩]⟩, {}⟩
    graph.flows := ⟨#[⟨0, 4, ⟨0⟩, ⟨0⟩, [], [], {}, {}, true⟩]⟩
    checked := false
    fuel := 0 }

theorem tree_addAssign : addAssign.tree ⟨0⟩ = .node ⟨0⟩ none (.evaluate ⟨4⟩ 0) [] := rfl

theorem exprNodes_addAssign :
    addAssign.heldExprs ⟨0⟩ = [⟨4⟩] ∧ addAssign.exprNodes ⟨0⟩ = [⟨4⟩, ⟨0⟩, ⟨3⟩, ⟨1⟩, ⟨2⟩] := by
  rw [exprNodes, heldExprs, tree_addAssign, Tree.kinds_node]
  exact ⟨rfl, by decide⟩

theorem treeShaped_addAssign : addAssign.TreeShaped addAssign.Live := by
  have hlive (f : FlowId) (hf : addAssign.Live f) : f = ⟨0⟩ :=
    congrArg FlowId.mk (Nat.lt_one_iff.mp hf.1)
  have hone {P : FlowId → Prop} (h : P ⟨0⟩) (f : FlowId) (hf : addAssign.Live f) : P f :=
    hlive f hf ▸ h
  constructor
  case planted =>
    constructor
    case live => exact fun _ hf ↦ hf
    case holds => exact hone (.node (by decide) rfl rfl rfl rfl nofun)
    case nodup => exact hone (by simp [tree_addAssign, Tree.ids])
    case apart => exact fun f g hf hg hne ↦ absurd ((hlive f hf).trans (hlive g hg).symm) hne
    case owner => exact fun f g hf hg _ ↦ (hlive g hg).trans (hlive f hf).symm
    case roots => exact hone (by decide)
    case growth => exact fun f g hf hg hne ↦ absurd ((hlive f hf).trans (hlive g hg).symm) hne
    case growths => exact hone (by decide)
    case linked => rintro ⟨_ | n⟩ p ⟨⟩
  case nests => exact hone (by rw [exprNodes_addAssign.1]; decide)
  case range => exact hone (by rw [exprNodes_addAssign.2]; decide)
  case nodup => exact hone (by rw [exprNodes_addAssign.2]; decide)

theorem rewriting_terminates_addAssign : addAssign.weight ⟨0⟩ = (0, 1, 5) ∧
    (∃ r, Rule.compound.apply addAssign ⟨0⟩ = some r ∧
      Prod.Lex (· < ·) (Prod.Lex (· < ·) (· < ·)) (r.1.weight ⟨0⟩) (0, 1, 5)) ∧
    ∀ n a', Applications ⟨0⟩ addAssign n a' → n ≤ 5 := by
  have hw : addAssign.weight ⟨0⟩ = (0, 1, 5) := by
    rw [weight, tree_addAssign, Tree.load, Tree.kinds_node, exprNodes_addAssign.2]
    rfl
  obtain ⟨hlt, hn, -⟩ := rewriting_terminates treeShaped_addAssign (f := ⟨0⟩) ⟨by decide, rfl⟩
  rw [hw] at hlt hn
  have hr : (Rule.compound.apply addAssign ⟨0⟩).isSome := by decide
  obtain ⟨r, hr⟩ := Option.isSome_iff_exists.mp hr
  exact ⟨hw, ⟨r, hr, hlt _ (Tree.id_mem_ids (addAssign.tree ⟨0⟩)) _ r hr⟩, hn⟩

end Termination

end Analysis

end Decompile
