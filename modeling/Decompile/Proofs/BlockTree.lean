import Decompile.Proofs.View
import Decompile.Proofs.Walk
import Mathlib.Data.List.Perm.Subperm

namespace Decompile

/-- What a statement is, its inner blocks aside. -/
inductive Kind
  | empty
  | evaluate (expr : ExprId) (push : Nat)
  | returns (value : Option ExprId)
  | throws (exception : ExprId)
  | sequence
  | conditional (cond : ExprId)
  | ifElse (cond : ExprId)
  | loop (kind : LoopKind) (cond : ExprId) (init : Option ExprId) (labeled : Bool)
  | switch (selector : ExprId) (labeled : Bool)
  | switchCase (value : CaseValue) (fallthrough : Bool)
  | tryCatch
  | catchClause (type : Option Name) (binding : Option LocalId)
  | finallyClause
  | synchronized (monitor : LocalId) (object : Option ExprId)
  | breakTo (target : BlockId) (labeled : Bool)
  | continueTo (target : BlockId) (labeled : Bool)
  | shuffle (op : StackOp)
  | jsr
  | ret (address : LocalId)
  | description (text : String)
  deriving DecidableEq

namespace Statement

def kind : Statement → Kind
  | empty => .empty
  | evaluate expr push => .evaluate expr push
  | returns value => .returns value
  | throws exception => .throws exception
  | sequence _ _ => .sequence
  | conditional cond _ => .conditional cond
  | ifElse cond _ _ => .ifElse cond
  | loop kind cond init _ _ labeled => .loop kind cond init labeled
  | switch selector _ labeled => .switch selector labeled
  | switchCase value _ fallthrough => .switchCase value fallthrough
  | tryCatch _ _ => .tryCatch
  | catchClause type binding _ => .catchClause type binding
  | finallyClause _ => .finallyClause
  | synchronized monitor object _ => .synchronized monitor object
  | breakTo target labeled => .breakTo target labeled
  | continueTo target labeled => .continueTo target labeled
  | shuffle op => .shuffle op
  | jsr _ => .jsr
  | ret address => .ret address
  | description text => .description text

theorem ext_kind {s s' : Statement} (hk : s.kind = s'.kind) (hc : s.children = s'.children) :
    s = s' := by
  cases s <;> cases s' <;> simp_all [kind, children]
  case ifElse.ifElse o _ _ o' => cases o <;> cases o' <;> simp_all
  case loop.loop o _ _ _ _ _ o' _ _ => cases o <;> cases o' <;> simp_all

@[simp] theorem kind_mapChildren (s : Statement) (k : BlockId → BlockId) :
    (s.mapChildren k).kind = s.kind := by
  cases s <;> rfl

end Statement

/-- A tree of blocks, each with the jump that it holds. -/
inductive Tree
  | node (id : BlockId) (jump : Option JumpId) (kind : Kind) (children : List Tree)

namespace Tree

def id : Tree → BlockId
  | node id _ _ _ => id

def jump : Tree → Option JumpId
  | node _ jump _ _ => jump

def kind : Tree → Kind
  | node _ _ kind _ => kind

def children : Tree → List Tree
  | node _ _ _ children => children

section Node

variable (i : BlockId) (j : Option JumpId) (k : Kind) (l : List Tree)

@[simp] theorem id_node : (node i j k l).id = i := rfl

@[simp] theorem jump_node : (node i j k l).jump = j := rfl

@[simp] theorem kind_node : (node i j k l).kind = k := rfl

@[simp] theorem children_node : (node i j k l).children = l := rfl

end Node

/-- The trees below a tree, itself first. -/
def nodes : Tree → List Tree
  | node id jump kind children => node id jump kind children :: children.flatMap nodes

def ids : Tree → List BlockId
  | node id _ _ children => id :: children.flatMap ids

/-- The blocks of a tree that hold a jump, with the jump. -/
def held : Tree → List (BlockId × JumpId)
  | node id jump _ children => jump.toList.map (id, ·) ++ children.flatMap held

@[elab_as_elim, induction_eliminator]
theorem induct {P : Tree → Prop}
    (node : ∀ id jump kind children, (∀ t ∈ children, P t) → P (.node id jump kind children)) :
    ∀ T, P T
  | .node id jump kind children => node id jump kind children fun t _ ↦ induct node t

variable {T s u : Tree} {b : BlockId} {j : JumpId}

theorem mem_nodes : s ∈ T.nodes ↔ s = T ∨ ∃ c ∈ T.children, s ∈ c.nodes := by
  cases T
  simp [nodes]

theorem mem_nodes_self (T : Tree) : T ∈ T.nodes := mem_nodes.mpr (.inl rfl)

theorem nodes_trans (hs : s ∈ T.nodes) (hu : u ∈ s.nodes) : u ∈ T.nodes := by
  induction T with
  | node id jump kind children ih =>
    rcases mem_nodes.mp hs with rfl | ⟨c, hc, hsc⟩
    · exact hu
    · exact mem_nodes.mpr (.inr ⟨c, hc, ih c hc hsc⟩)

theorem ids_eq (T : Tree) : T.ids = T.nodes.map id := by
  induction T with
  | node id jump kind children ih =>
    simp only [ids, nodes, List.map_cons, Tree.id, List.map_flatMap, List.cons.injEq, true_and]
    exact List.flatMap_congr fun c hc ↦ ih c hc

theorem mem_ids : b ∈ T.ids ↔ ∃ s ∈ T.nodes, s.id = b := by
  rw [ids_eq, List.mem_map]

theorem id_mem_ids (T : Tree) : T.id ∈ T.ids := mem_ids.mpr ⟨T, T.mem_nodes_self, rfl⟩

theorem ids_subset (hs : s ∈ T.nodes) : s.ids ⊆ T.ids := fun b hb ↦ by
  obtain ⟨u, hu, rfl⟩ := mem_ids.mp hb
  exact mem_ids.mpr ⟨u, nodes_trans hs hu, rfl⟩

theorem mem_held : (b, j) ∈ T.held ↔ ∃ s ∈ T.nodes, s.id = b ∧ s.jump = some j := by
  induction T with
  | node id jump kind children ih =>
    simp only [held, List.mem_append, List.mem_map, Option.mem_toList, Prod.mk.injEq,
      List.mem_flatMap, nodes, List.mem_cons]
    constructor
    · rintro (⟨i, h, rfl, rfl⟩ | ⟨c, hc, h⟩)
      · exact ⟨_, .inl rfl, rfl, h⟩
      · obtain ⟨s, hs, h⟩ := (ih c hc).mp h
        exact ⟨s, .inr ⟨c, hc, hs⟩, h⟩
    · rintro ⟨s, rfl | ⟨c, hc, hs⟩, h⟩
      · exact .inl ⟨j, h.2, h.1, rfl⟩
      · exact .inr ⟨c, hc, (ih c hc).mpr ⟨s, hs, h⟩⟩

theorem eq_of_id (h : T.ids.Nodup) (hs : s ∈ T.nodes) (hu : u ∈ T.nodes) (he : s.id = u.id) :
    s = u :=
  List.inj_on_of_nodup_map (T.ids_eq ▸ h) hs hu he

theorem nodup_child {id : BlockId} {jump : Option JumpId} {kind : Kind} {children : List Tree}
    (h : (node id jump kind children).ids.Nodup) :
    id ∉ children.flatMap ids ∧ (children.flatMap ids).Nodup := by
  simpa [ids] using h

theorem nodup_node (h : T.ids.Nodup) (hs : s ∈ T.nodes) : s.ids.Nodup := by
  induction T with
  | node id jump kind children ih =>
    rcases mem_nodes.mp hs with rfl | ⟨c, hc, hsc⟩
    · exact h
    · exact ih c hc ((List.nodup_flatMap.mp (nodup_child h).2).1 c hc) hsc

end Tree

/-- A block around a place in a tree, with what hangs there beside the place. -/
structure Frame where
  id : BlockId
  jump : Option JumpId
  kind : Kind
  before : List Tree
  after : List Tree

namespace Frame

def fill (F : Frame) (T : Tree) : Tree := .node F.id F.jump F.kind (F.before ++ T :: F.after)

def ids (F : Frame) : List BlockId := F.id :: (F.before ++ F.after).flatMap Tree.ids

def held (F : Frame) : List (BlockId × JumpId) :=
  F.jump.toList.map (F.id, ·) ++ (F.before ++ F.after).flatMap Tree.held

@[simp] theorem id_fill (F : Frame) (T : Tree) : (F.fill T).id = F.id := rfl

@[simp] theorem jump_fill (F : Frame) (T : Tree) : (F.fill T).jump = F.jump := rfl

@[simp] theorem kind_fill (F : Frame) (T : Tree) : (F.fill T).kind = F.kind := rfl

theorem ids_fill (F : Frame) (T : Tree) : (F.fill T).ids.Perm (T.ids ++ F.ids) := by
  simp only [fill, Tree.ids, ids, List.flatMap_append, List.flatMap_cons]
  refine .trans (.cons _ ?_) List.perm_middle.symm
  exact List.perm_append_comm_assoc ..

theorem held_fill (F : Frame) (T : Tree) : (F.fill T).held.Perm (T.held ++ F.held) := by
  simp only [fill, Tree.held, held, List.flatMap_append, List.flatMap_cons]
  refine .trans (.append_left _ (List.perm_append_comm_assoc ..)) ?_
  exact List.perm_append_comm_assoc ..

end Frame

/-- The tree with `T` in the place that the frames surround, the innermost first. -/
def plug : List Frame → Tree → Tree
  | [], T => T
  | F :: C, T => plug C (F.fill T)

/-- The block around the place. -/
def outerOf (C : List Frame) : Option BlockId := C.head?.map Frame.id

section Plug

variable {C D : List Frame} {F : Frame} {T s : Tree} {b : BlockId}

@[simp] theorem plug_nil (T : Tree) : plug [] T = T := rfl

@[simp] theorem plug_cons (F : Frame) (C : List Frame) (T : Tree) :
    plug (F :: C) T = plug C (F.fill T) := rfl

@[simp] theorem plug_append (C D : List Frame) (T : Tree) :
    plug (C ++ D) T = plug D (plug C T) := by
  induction C generalizing T with
  | nil => rfl
  | cons F C ih => exact ih _

@[simp] theorem outerOf_nil : outerOf [] = none := rfl

@[simp] theorem outerOf_cons (F : Frame) (C : List Frame) : outerOf (F :: C) = some F.id := rfl

theorem ids_plug (C : List Frame) (T : Tree) : (plug C T).ids.Perm (T.ids ++ C.flatMap Frame.ids) := by
  induction C generalizing T with
  | nil => simp
  | cons F C ih =>
    refine (ih _).trans (((F.ids_fill T).append_right _).trans ?_)
    simp

theorem held_plug (C : List Frame) (T : Tree) :
    (plug C T).held.Perm (T.held ++ C.flatMap Frame.held) := by
  induction C generalizing T with
  | nil => simp
  | cons F C ih =>
    refine (ih _).trans (((F.held_fill T).append_right _).trans ?_)
    simp

theorem mem_ids_plug : b ∈ (plug C T).ids ↔ b ∈ T.ids ∨ b ∈ C.flatMap Frame.ids := by
  rw [(ids_plug C T).mem_iff, List.mem_append]

theorem mem_held_plug {x : BlockId × JumpId} :
    x ∈ (plug C T).held ↔ x ∈ T.held ∨ x ∈ C.flatMap Frame.held := by
  rw [(held_plug C T).mem_iff, List.mem_append]

theorem nodup_plug : (plug C T).ids.Nodup ↔
    T.ids.Nodup ∧ (C.flatMap Frame.ids).Nodup ∧ T.ids.Disjoint (C.flatMap Frame.ids) := by
  rw [(ids_plug C T).nodup_iff, List.nodup_append']

theorem mem_nodes_plug : T ∈ (plug C T).nodes := by
  induction C generalizing T with
  | nil => exact T.mem_nodes_self
  | cons F C ih =>
    refine Tree.nodes_trans ih (Tree.mem_nodes.mpr (.inr ⟨T, ?_, T.mem_nodes_self⟩))
    simp [Frame.fill]

theorem exists_plug (h : s ∈ T.nodes) : ∃ C, T = plug C s := by
  induction T with
  | node id jump kind children ih =>
    rcases Tree.mem_nodes.mp h with rfl | ⟨c, hc, hs⟩
    · exact ⟨[], rfl⟩
    · obtain ⟨C, rfl⟩ := ih c hc hs
      obtain ⟨before, after, rfl⟩ := List.append_of_mem hc
      exact ⟨C ++ [⟨id, jump, kind, before, after⟩], by simp [Frame.fill]⟩

theorem exists_plug_of_id (h : b ∈ T.ids) : ∃ C s, T = plug C s ∧ s.id = b := by
  obtain ⟨s, hs, rfl⟩ := Tree.mem_ids.mp h
  obtain ⟨C, rfl⟩ := exists_plug hs
  exact ⟨C, s, rfl, rfl⟩

theorem plug_ne_self (hD : D ≠ []) : plug D T ≠ T := fun he ↦ by
  obtain ⟨F, D, rfl⟩ := List.exists_cons_of_ne_nil hD
  have := (ids_plug (F :: D) T).length_eq
  rw [he] at this
  simp [Frame.ids] at this

theorem append_cons_inj {l₁ l₂ r₁ r₂ : List Tree}
    (hn : ((l₁ ++ T :: r₁).flatMap Tree.ids).Nodup) (he : l₁ ++ T :: r₁ = l₂ ++ s :: r₂)
    (hb : b ∈ T.ids) (hb' : b ∈ s.ids) : l₁ = l₂ ∧ T = s ∧ r₁ = r₂ := by
  induction l₁ generalizing l₂ with
  | nil =>
    cases l₂ with
    | nil => simpa using he
    | cons c l₂ =>
      obtain ⟨rfl, rfl⟩ : T = c ∧ r₁ = l₂ ++ s :: r₂ := by simpa using he
      simp only [List.nil_append, List.flatMap_cons, List.flatMap_append, List.nodup_append'] at hn
      exact absurd (hn.2.2 hb (by simp [hb'])) not_false
  | cons c l₁ ih =>
    cases l₂ with
    | nil =>
      obtain ⟨rfl, rfl⟩ : c = s ∧ l₁ ++ T :: r₁ = r₂ := by simpa using he
      simp only [List.cons_append, List.flatMap_cons, List.flatMap_append, List.nodup_append'] at hn
      exact absurd (hn.2.2 hb' (by simp [hb])) not_false
    | cons d l₂ =>
      simp only [List.cons_append, List.cons.injEq] at he
      obtain ⟨rfl, he⟩ := he
      simp only [List.cons_append, List.flatMap_cons, List.nodup_append'] at hn
      obtain ⟨rfl, h⟩ := ih hn.2.1 he
      exact ⟨rfl, h⟩

theorem plug_inj (h : (plug C T).ids.Nodup) (he : plug C T = plug D s) (hid : T.id = s.id) :
    C = D ∧ T = s := by
  obtain rfl := Tree.eq_of_id h mem_nodes_plug (he ▸ mem_nodes_plug) hid
  refine ⟨?_, rfl⟩
  induction C using List.reverseRecOn generalizing D with
  | nil =>
    by_contra hD
    exact plug_ne_self (Ne.symm hD) he.symm
  | append_singleton C F ih =>
    rcases List.eq_nil_or_concat D with rfl | ⟨D, G, rfl⟩
    · exact absurd he (plug_ne_self (by simp))
    · simp only [List.concat_eq_append, plug_append, plug_cons, plug_nil] at he h ⊢
      have hn := (Tree.nodup_child h).2
      simp only [Frame.fill, Tree.node.injEq] at he
      have hmem : ∀ C, T.id ∈ (plug C T).ids := fun C ↦ mem_ids_plug.mpr (.inl T.id_mem_ids)
      obtain ⟨hbefore, hT, hafter⟩ := append_cons_inj hn he.2.2.2 (hmem C) (hmem D)
      have hplug : (plug C T).ids.Nodup := (List.nodup_flatMap.mp hn).1 _ (by simp)
      rw [ih hplug hT, show F = G from ?_]
      cases F
      cases G
      simp_all

end Plug

namespace Blocks

/-- The table holds the tree, hung below `outer`. -/
inductive Holds (t : Blocks) : Option BlockId → Tree → Prop
  | node {outer : Option BlockId} {id : BlockId} {jump : Option JumpId} {kind : Kind}
      {children : List Tree} :
    id.index < t.size → (t.statement id).kind = kind →
    (t.statement id).children = children.map Tree.id → t.jump id = jump → t.outer id = outer →
    (∀ c ∈ children, Holds t (some id) c) → Holds t outer (.node id jump kind children)

/-- The table holds the frames around a place where the block `hole` hangs. -/
def HoldsAround (t : Blocks) : List Frame → BlockId → Prop
  | [], _ => True
  | F :: C, hole =>
    (F.id.index < t.size ∧ (t.statement F.id).kind = F.kind ∧
      (t.statement F.id).children = F.before.map Tree.id ++ hole :: F.after.map Tree.id ∧
      t.jump F.id = F.jump ∧ t.outer F.id = outerOf C ∧
      ∀ c ∈ F.before ++ F.after, t.Holds (some F.id) c) ∧ t.HoldsAround C F.id

variable {t t' : Blocks} {o o' : Option BlockId} {T N s : Tree} {F : Frame} {C : List Frame}
  {b x : BlockId}

namespace Holds

theorem lt_size (h : t.Holds o T) : T.id.index < t.size := by
  cases h
  assumption

theorem kind (h : t.Holds o T) : (t.statement T.id).kind = T.kind := by
  cases h
  assumption

theorem children (h : t.Holds o T) : (t.statement T.id).children = T.children.map Tree.id := by
  cases h
  assumption

theorem jump (h : t.Holds o T) : t.jump T.id = T.jump := by
  cases h
  assumption

theorem outer (h : t.Holds o T) : t.outer T.id = o := by
  cases h
  assumption

theorem child (h : t.Holds o T) {c : Tree} (hc : c ∈ T.children) : t.Holds (some T.id) c := by
  cases h with
  | node _ _ _ _ _ hchildren => exact hchildren c hc

theorem node' {id : BlockId} {jump : Option JumpId} {kind : Kind} {children : List Tree}
    (h : t.Holds o (.node id jump kind children)) :
    id.index < t.size ∧ (t.statement id).kind = kind ∧
      (t.statement id).children = children.map Tree.id ∧ t.jump id = jump ∧ t.outer id = o ∧
      ∀ c ∈ children, t.Holds (some id) c := by
  cases h
  exact ⟨by assumption, by assumption, by assumption, by assumption, by assumption, by assumption⟩

theorem of_mem (h : t.Holds o T) (hs : s ∈ T.nodes) : ∃ o', t.Holds o' s := by
  induction T generalizing o with
  | node id jump kind children ih =>
    rcases Tree.mem_nodes.mp hs with rfl | ⟨c, hc, hsc⟩
    · exact ⟨o, h⟩
    · exact ih c hc (h.child hc) hsc

theorem lt_of_mem_ids (h : t.Holds o T) (hb : b ∈ T.ids) : b.index < t.size := by
  obtain ⟨s, hs, rfl⟩ := Tree.mem_ids.mp hb
  exact (h.of_mem hs).elim fun _ ↦ lt_size

theorem congr (h : t.Holds o T) (hn : T.ids.Nodup) (hsize : t.size ≤ t'.size)
    (hs : ∀ b ∈ T.ids, t'.statement b = t.statement b ∧ t'.jump b = t.jump b)
    (ho : ∀ b ∈ T.ids, b ≠ T.id → t'.outer b = t.outer b) (hroot : t'.outer T.id = o') :
    t'.Holds o' T := by
  induction T generalizing o o' with
  | node id jump kind children ih =>
    obtain ⟨hlt, hk, hc, hj, hout, hch⟩ := h.node'
    obtain ⟨hself, hnodup⟩ := Tree.nodup_child hn
    have hid := hs id (by simp [Tree.ids])
    refine .node (by omega) (hid.1 ▸ hk) (hid.1 ▸ hc) (hid.2 ▸ hj) hroot fun c hcm ↦ ?_
    have hsub : ∀ b ∈ c.ids, b ∈ (Tree.node id jump kind children).ids := fun b hb ↦ by
      simp only [Tree.ids, List.mem_cons, List.mem_flatMap]
      exact .inr ⟨c, hcm, hb⟩
    have hne : ∀ b ∈ c.ids, b ≠ id := fun b hb he ↦
      hself (he ▸ List.mem_flatMap.mpr ⟨c, hcm, hb⟩)
    refine ih c hcm (hch c hcm) ((List.nodup_flatMap.mp hnodup).1 c hcm)
      (fun b hb ↦ hs b (hsub b hb)) (fun b hb _ ↦ ho b (hsub b hb) (hne b hb)) ?_
    rw [ho c.id (hsub _ c.id_mem_ids) (hne _ c.id_mem_ids)]
    exact (hch c hcm).outer

theorem of_same (h : t.Holds o T) (hn : T.ids.Nodup) (hsize : t.size ≤ t'.size)
    (hs : ∀ b ∈ T.ids, t'.statement b = t.statement b ∧ t'.jump b = t.jump b ∧
      t'.outer b = t.outer b) : t'.Holds o T :=
  h.congr hn hsize (fun b hb ↦ ⟨(hs b hb).1, (hs b hb).2.1⟩) (fun b hb _ ↦ (hs b hb).2.2)
    ((hs _ T.id_mem_ids).2.2.trans h.outer)

end Holds

theorem holds_fill : t.Holds o (F.fill T) ↔
    (F.id.index < t.size ∧ (t.statement F.id).kind = F.kind ∧
      (t.statement F.id).children = F.before.map Tree.id ++ T.id :: F.after.map Tree.id ∧
      t.jump F.id = F.jump ∧ t.outer F.id = o ∧
      ∀ c ∈ F.before ++ F.after, t.Holds (some F.id) c) ∧ t.Holds (some F.id) T := by
  constructor
  · intro h
    obtain ⟨hlt, hk, hc, hj, hout, hch⟩ := h.node'
    refine ⟨⟨hlt, hk, by simpa using hc, hj, hout, fun c hc ↦ hch c ?_⟩, hch T (by simp)⟩
    rcases List.mem_append.mp hc with h | h <;> simp [h]
  · rintro ⟨⟨hlt, hk, hc, hj, hout, hch⟩, hT⟩
    refine .node hlt hk (by simpa using hc) hj hout fun c hc ↦ ?_
    rcases List.mem_append.mp hc with h | h
    · exact hch c (by simp [h])
    · rcases List.mem_cons.mp h with rfl | h
      · exact hT
      · exact hch c (by simp [h])

theorem holds_plug : t.Holds none (plug C T) ↔ t.HoldsAround C T.id ∧ t.Holds (outerOf C) T := by
  induction C generalizing T with
  | nil => simp [HoldsAround]
  | cons F C ih =>
    rw [plug_cons, ih, holds_fill, HoldsAround, Frame.id_fill, outerOf_cons]
    tauto

namespace HoldsAround

theorem congr (h : t.HoldsAround C x) (hn : (C.flatMap Frame.ids).Nodup) (hsize : t.size ≤ t'.size)
    (hs : ∀ b ∈ C.flatMap Frame.ids, t'.statement b = t.statement b ∧ t'.jump b = t.jump b ∧
      t'.outer b = t.outer b) : t'.HoldsAround C x := by
  induction C generalizing x with
  | nil => trivial
  | cons F C ih =>
    obtain ⟨⟨hlt, hk, hc, hj, hout, hch⟩, hC⟩ := h
    simp only [List.flatMap_cons, List.nodup_append'] at hn
    simp only [List.flatMap_cons, List.mem_append] at hs
    have hid := hs F.id (.inl (by simp [Frame.ids]))
    refine ⟨⟨by omega, hid.1 ▸ hk, hid.1 ▸ hc, hid.2.1 ▸ hj, hid.2.2 ▸ hout, fun c hc ↦ ?_⟩,
      ih hC hn.2.1 fun b hb ↦ hs b (.inr hb)⟩
    have hF : ((F.before ++ F.after).flatMap Tree.ids).Nodup := (List.nodup_cons.mp hn.1).2
    refine (hch c hc).of_same ((List.nodup_flatMap.mp hF).1 c hc) hsize fun b hb ↦ hs b (.inl ?_)
    exact List.mem_cons_of_mem _ (List.mem_flatMap.mpr ⟨c, hc, hb⟩)

end HoldsAround

end Blocks

end Decompile
