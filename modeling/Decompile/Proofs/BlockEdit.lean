import Decompile.Proofs.BlockTree
import Decompile.Proofs.Tree

namespace Decompile

namespace Tree

def withJump (jump : Option JumpId) : Tree → Tree
  | node id _ kind children => node id jump kind children

def withKind (kind : Kind) : Tree → Tree
  | node id jump _ children => node id jump kind children

variable (T : Tree) (j : Option JumpId) (k : Kind)

@[simp] theorem id_withJump : (T.withJump j).id = T.id := by cases T; rfl

@[simp] theorem jump_withJump : (T.withJump j).jump = j := by cases T; rfl

@[simp] theorem kind_withJump : (T.withJump j).kind = T.kind := by cases T; rfl

@[simp] theorem children_withJump : (T.withJump j).children = T.children := by cases T; rfl

@[simp] theorem ids_withJump : (T.withJump j).ids = T.ids := by
  cases T
  simp [withJump, ids]

theorem withJump_eq : T.withJump j = node T.id j T.kind T.children := by cases T; rfl

theorem withKind_eq : T.withKind k = node T.id T.jump k T.children := by cases T; rfl

@[simp] theorem withJump_jump : T.withJump T.jump = T := by cases T; rfl

@[simp] theorem id_withKind : (T.withKind k).id = T.id := by cases T; rfl

@[simp] theorem jump_withKind : (T.withKind k).jump = T.jump := by cases T; rfl

@[simp] theorem kind_withKind : (T.withKind k).kind = k := by cases T; rfl

@[simp] theorem children_withKind : (T.withKind k).children = T.children := by cases T; rfl

@[simp] theorem ids_withKind : (T.withKind k).ids = T.ids := by
  cases T
  simp [withKind, ids]

end Tree

namespace Blocks

/-- Every block is a child of the block that it names as its parent. -/
def Linked (t : Blocks) : Prop := ∀ x p, t.outer x = some p → x ∈ (t.statement p).children

def Same (t t' : Blocks) (b : BlockId) : Prop :=
  t'.statement b = t.statement b ∧ t'.jump b = t.jump b ∧ t'.outer b = t.outer b

theorem Same.trans {t t' t'' : Blocks} {b : BlockId} (h : Same t t' b) (h' : Same t' t'' b) :
    Same t t'' b :=
  ⟨h'.1.trans h.1, h'.2.1.trans h.2.1, h'.2.2.trans h.2.2⟩

/-- The blocks outside `S` are as they were, new ones aside. -/
structure Off (S : BlockId → Prop) (t t' : Blocks) : Prop where
  size_le : t.size ≤ t'.size
  same : ∀ b, b.index < t.size → ¬ S b → Same t t' b

variable {t t' : Blocks} {S : BlockId → Prop} {o o' : Option BlockId} {T N : Tree} {F : Frame}
  {C : List Frame} {b x p : BlockId} {s : Statement} {j : Option JumpId}

theorem Off.refl (S : BlockId → Prop) (t : Blocks) : Off S t t :=
  ⟨le_rfl, fun _ _ _ ↦ ⟨rfl, rfl, rfl⟩⟩

theorem Off.trans {t'' : Blocks} (h : Off S t t') (h' : Off S t' t'') : Off S t t'' := by
  refine ⟨h.size_le.trans h'.size_le, fun b hb hS ↦ ?_⟩
  exact (h.same b hb hS).trans (h'.same b (hb.trans_le h.size_le) hS)

theorem Off.mono {S' : BlockId → Prop} (h : Off S t t') (hS : ∀ b, S b → S' b) : Off S' t t' :=
  ⟨h.size_le, fun b hb hn ↦ h.same b hb fun hb ↦ hn (hS b hb)⟩

section Modify

theorem get_modify_of_ne (h : x ≠ b) (k : Block → Block) : (t.modify b k).get x = t.get x := by
  rw [get_modify, if_neg fun h' ↦ h h'.1]

theorem same_modify (h : x ≠ b) (k : Block → Block) : Same t (t.modify b k) x := by
  simp [Same, statement, jump, outer, get_modify_of_ne h]

theorem Off.modify (h : Off S t t') (hb : S b ∨ t.size ≤ b.index) (k : Block → Block) :
    Off S t (t'.modify b k) := by
  refine ⟨by simpa using h.size_le, fun x hx hS ↦ ?_⟩
  have hne : x ≠ b := by
    rintro rfl
    exact hb.elim hS fun h ↦ absurd hx (by omega)
  have := h.same x hx hS
  simpa [Same, statement, jump, outer, get_modify_of_ne hne] using this

theorem Off.setOuter (h : Off S t t') (hb : S b ∨ t.size ≤ b.index) (o : Option BlockId) :
    Off S t (t'.setOuter b o) := h.modify hb _

theorem Off.setJump (h : Off S t t') (hb : S b ∨ t.size ≤ b.index) (j : Option JumpId) :
    Off S t (t'.setJump b j) := h.modify hb _

theorem Off.setStatement (h : Off S t t') (hb : S b ∨ t.size ≤ b.index) (s : Statement) :
    Off S t (t'.setStatement b s) := h.modify hb _

theorem Holds.modify (h : t.Holds o T) (hn : T.ids.Nodup) (hb : b ∉ T.ids) (k : Block → Block) :
    (t.modify b k).Holds o T :=
  h.of_same hn (by simp) fun x hx ↦ same_modify (fun he : x = b ↦ hb (he ▸ hx)) k

theorem HoldsAround.modify (h : t.HoldsAround C x) (hn : (C.flatMap Frame.ids).Nodup)
    (hb : b ∉ C.flatMap Frame.ids) (k : Block → Block) : (t.modify b k).HoldsAround C x :=
  h.congr hn (by simp) fun x hx ↦ same_modify (fun he : x = b ↦ hb (he ▸ hx)) k

theorem Holds.setOuter (h : t.Holds o T) (hn : T.ids.Nodup) (o' : Option BlockId) :
    (t.setOuter T.id o').Holds o' T := by
  refine h.congr hn (by simp) (fun b _ ↦ by simp) (fun b _ hne ↦ ?_) ?_
  · simp [Blocks.setOuter, Blocks.outer, get_modify_of_ne hne]
  · rw [outer_setOuter _ _ _ h.lt_size, if_pos rfl]

theorem Holds.of_top {u : Blocks} (h : t.Holds o T) (hn : T.ids.Nodup) (hsize : t.size ≤ u.size)
    (hsame : ∀ b ∈ T.ids, b ≠ T.id → Same t u b)
    (hchildren : (u.statement T.id).children = T.children.map Tree.id) :
    u.Holds (u.outer T.id)
      (.node T.id (u.jump T.id) (u.statement T.id).kind T.children) := by
  obtain ⟨id, jump, kind, children⟩ := T
  refine .node (h.lt_size.trans_le hsize) rfl hchildren rfl rfl fun c hc ↦ ?_
  obtain ⟨hself, hnodup⟩ := Tree.nodup_child hn
  refine (h.child hc).of_same ((List.nodup_flatMap.mp hnodup).1 c hc) hsize fun b hb ↦ ?_
  have hb' : b ∈ children.flatMap Tree.ids := List.mem_flatMap.mpr ⟨c, hc, hb⟩
  refine hsame b (by simp only [Tree.ids, List.mem_cons, hb', or_true]) fun he ↦ hself ?_
  exact (show b = id from he) ▸ hb'

theorem Holds.setJump (h : t.Holds o T) (hn : T.ids.Nodup) (j : Option JumpId) :
    (t.setJump T.id j).Holds o (T.withJump j) := by
  have := h.of_top hn (u := t.setJump T.id j) (by simp) (fun b _ hne ↦ same_modify hne _)
    (by simpa using h.children)
  rw [jump_setJump _ _ _ h.lt_size, if_pos rfl, statement_setJump, h.kind, outer_setJump,
    h.outer] at this
  rwa [Tree.withJump_eq]

theorem Holds.setStatement (h : t.Holds o T) (hn : T.ids.Nodup)
    (hs : s.children = T.children.map Tree.id) :
    (t.setStatement T.id s).Holds o (T.withKind s.kind) := by
  have hstatement : (t.setStatement T.id s).statement T.id = s := by
    rw [statement_setStatement _ _ _ h.lt_size, if_pos rfl]
  have := h.of_top hn (u := t.setStatement T.id s) (by simp) (fun b _ hne ↦ same_modify hne _)
    (by rw [hstatement]; exact hs)
  rw [hstatement, jump_setStatement, h.jump, outer_setStatement, h.outer] at this
  rwa [Tree.withKind_eq]

end Modify

section Alloc

@[simp] theorem size_foldl_setOuter (l : List BlockId) (o : Option BlockId) (t : Blocks) :
    (l.foldl (fun t child ↦ t.setOuter child o) t).size = t.size := by
  induction l generalizing t with
  | nil => rfl
  | cons c l ih => simp [ih]

theorem statement_foldl_setOuter (l : List BlockId) (o : Option BlockId) (t : Blocks) (x : BlockId) :
    (l.foldl (fun t child ↦ t.setOuter child o) t).statement x = t.statement x ∧
      (l.foldl (fun t child ↦ t.setOuter child o) t).jump x = t.jump x := by
  induction l generalizing t with
  | nil => exact ⟨rfl, rfl⟩
  | cons c l ih => simpa using ih (t.setOuter c o)

theorem outer_foldl_setOuter (l : List BlockId) (o : Option BlockId) (t : Blocks) (x : BlockId) :
    (l.foldl (fun t child ↦ t.setOuter child o) t).outer x =
      if x ∈ l ∧ x.index < t.size then o else t.outer x := by
  induction l generalizing t with
  | nil => simp
  | cons c l ih =>
    rw [List.foldl_cons, ih]
    by_cases hc : x = c
    · subst hc
      by_cases hx : x.index < t.size
      · simp [hx, outer_setOuter]
      · have : (t.setOuter x o).outer x = t.outer x := by
          rw [outer, outer, Blocks.setOuter, get_modify, if_neg fun h ↦ hx h.2]
        simp [hx, this]
    · have : (t.setOuter c o).outer x = t.outer x := by
        rw [outer, outer, Blocks.setOuter, get_modify_of_ne hc]
      simp [hc, this]

theorem get_alloc (t : Blocks) (s : Statement) (x : BlockId) :
    (t.alloc s).1.get x = if x = ⟨t.size⟩ then { statement := s }
      else (s.children.foldl (fun u child ↦ u.setOuter child (some ⟨t.size⟩)) t).get x := by
  obtain ⟨i⟩ := x
  have hsize : (s.children.foldl (fun u child ↦ u.setOuter child (some ⟨t.size⟩)) t).table.size =
      t.size := size_foldl_setOuter s.children (some ⟨t.size⟩) t
  simp only [alloc, get, Table.get_push, hsize, BlockId.mk.injEq]

@[simp] theorem id_alloc (t : Blocks) (s : Statement) : (t.alloc s).2 = ⟨t.size⟩ := rfl

@[simp] theorem size_alloc (t : Blocks) (s : Statement) : (t.alloc s).1.size = t.size + 1 := by
  simp only [alloc, size, Table.size_push]
  exact congrArg (· + 1) (size_foldl_setOuter s.children (some ⟨t.table.size⟩) t)

theorem get_alloc_of_ne (h : x ≠ ⟨t.size⟩) :
    (t.alloc s).1.statement x = t.statement x ∧ (t.alloc s).1.jump x = t.jump x ∧
      (t.alloc s).1.outer x =
        if x ∈ s.children ∧ x.index < t.size then some ⟨t.size⟩ else t.outer x := by
  simp only [statement, jump, outer, get_alloc, if_neg h]
  exact ⟨(statement_foldl_setOuter ..).1, (statement_foldl_setOuter ..).2, outer_foldl_setOuter ..⟩

@[simp] theorem statement_alloc_self (t : Blocks) (s : Statement) :
    (t.alloc s).1.statement ⟨t.size⟩ = s := by
  simp [statement, get_alloc]

@[simp] theorem jump_alloc_self (t : Blocks) (s : Statement) :
    (t.alloc s).1.jump ⟨t.size⟩ = none := by
  simp [jump, get_alloc]

@[simp] theorem outer_alloc_self (t : Blocks) (s : Statement) :
    (t.alloc s).1.outer ⟨t.size⟩ = none := by
  simp [outer, get_alloc]

theorem ne_of_lt_size (h : x.index < t.size) : x ≠ ⟨t.size⟩ := by
  rintro rfl
  simp at h

theorem same_alloc (hx : x.index < t.size) (h : x ∉ s.children) : Same t (t.alloc s).1 x := by
  obtain ⟨hs, hj, ho⟩ := get_alloc_of_ne (ne_of_lt_size hx)
  exact ⟨hs, hj, by simpa [h] using ho⟩

theorem Off.alloc (h : Off S t t') (hs : ∀ c ∈ s.children, S c ∨ t.size ≤ c.index) :
    Off S t (t'.alloc s).1 := by
  refine ⟨by simpa using h.size_le.trans (Nat.le_succ _), fun x hx hS ↦ ?_⟩
  have hx' : x.index < t'.size := hx.trans_le h.size_le
  have hc : x ∉ s.children := fun hc ↦ (hs x hc).elim hS fun h ↦ absurd hx (by omega)
  obtain ⟨hs, hj, ho⟩ := h.same x hx hS
  obtain ⟨hs', hj', ho'⟩ := same_alloc hx' hc
  exact ⟨hs'.trans hs, hj'.trans hj, ho'.trans ho⟩

theorem Holds.alloc (h : t.Holds o T) (hn : T.ids.Nodup) (hs : ∀ c ∈ s.children, c ∉ T.ids) :
    (t.alloc s).1.Holds o T :=
  h.of_same hn (by simp) fun b hb ↦ same_alloc (h.lt_of_mem_ids hb) fun hc ↦ hs b hc hb

theorem HoldsAround.lt_of_mem_ids (h : t.HoldsAround C x) (hb : b ∈ C.flatMap Frame.ids) :
    b.index < t.size := by
  induction C generalizing x with
  | nil => simp at hb
  | cons F C ih =>
    rw [List.flatMap_cons, List.mem_append, Frame.ids, List.mem_cons] at hb
    rcases hb with (rfl | hb) | hb
    · exact h.1.1
    · obtain ⟨c, hc, hb⟩ := List.mem_flatMap.mp hb
      exact (h.1.2.2.2.2.2 c hc).lt_of_mem_ids hb
    · exact ih h.2 hb

theorem HoldsAround.alloc (h : t.HoldsAround C x) (hn : (C.flatMap Frame.ids).Nodup)
    (hs : ∀ c ∈ s.children, c ∉ C.flatMap Frame.ids) : (t.alloc s).1.HoldsAround C x :=
  h.congr hn (by simp) fun b hb ↦ same_alloc (h.lt_of_mem_ids hb) fun hc ↦ hs b hc hb

variable {l : List Tree}

theorem disjoint_of_pairwise {c d : Tree} (h : l.Pairwise (Function.onFun List.Disjoint Tree.ids))
    (hc : c ∈ l) (hd : d ∈ l) (hne : c ≠ d) : c.ids.Disjoint d.ids :=
  have : Std.Symm (Function.onFun List.Disjoint Tree.ids) := ⟨fun _ _ h _ hx hy ↦ h hy hx⟩
  h.forall hc hd hne

theorem holds_alloc (hs : s.children = l.map Tree.id) (hl : ∀ c ∈ l, ∃ o, t.Holds o c)
    (hn : (l.flatMap Tree.ids).Nodup) :
    (t.alloc s).1.Holds none (.node ⟨t.size⟩ none s.kind l) := by
  refine .node (by simp) (by simp) (by simpa using hs) (by simp) (by simp) fun c hc ↦ ?_
  obtain ⟨o, hold⟩ := hl c hc
  obtain ⟨hnodup, hpair⟩ := List.nodup_flatMap.mp hn
  refine hold.congr (hnodup c hc) (by simp) (fun b hb ↦ ?_) (fun b hb hne ↦ ?_) ?_
  · obtain ⟨hs, hj, -⟩ := get_alloc_of_ne (ne_of_lt_size (hold.lt_of_mem_ids hb))
    exact ⟨hs, hj⟩
  · have hb' : b ∉ s.children := fun hb' ↦ by
      obtain ⟨d, hd, rfl⟩ := List.mem_map.mp (hs ▸ hb')
      by_cases he : d = c
      · exact hne (he ▸ rfl)
      · exact disjoint_of_pairwise hpair hd hc he d.id_mem_ids hb
    exact (same_alloc (hold.lt_of_mem_ids hb) hb').2.2
  · obtain ⟨-, -, ho⟩ := get_alloc_of_ne (ne_of_lt_size hold.lt_size)
    rw [ho, if_pos ⟨hs ▸ List.mem_map_of_mem hc, hold.lt_size⟩]

theorem holds_alloc_leaf (hs : s.children = []) :
    (t.alloc s).1.Holds none (.node ⟨t.size⟩ none s.kind []) :=
  holds_alloc (by simp [hs]) (by simp) (by simp)

end Alloc

section Links

theorem lt_of_statement_children (h : x ∈ (t.statement p).children) : p.index < t.size := by
  by_contra hlt
  rw [statement, get_of_size_le _ (Nat.le_of_not_lt hlt)] at h
  exact absurd h (List.not_mem_nil)

theorem of_outer_setOuter (h : (t.setOuter b o).outer x = some p) :
    x = b ∧ o = some p ∨ t.outer x = some p := by
  rw [outer, setOuter, get_modify] at h
  split at h
  next hx => exact .inl ⟨hx.1, h⟩
  next => exact .inr h

theorem Linked.setOuter_none (h : t.Linked) (b : BlockId) : (t.setOuter b none).Linked := by
  intro x p hx
  rw [statement_setOuter]
  rcases of_outer_setOuter hx with ⟨-, hp⟩ | hx
  · simp at hp
  · exact h x p hx

theorem Linked.setOuter (h : t.Linked) (hb : b ∈ (t.statement p).children) :
    (t.setOuter b (some p)).Linked := by
  intro x q hx
  rw [statement_setOuter]
  rcases of_outer_setOuter hx with ⟨rfl, hq⟩ | hx
  · exact Option.some.inj hq ▸ hb
  · exact h x q hx

theorem Linked.setJump (h : t.Linked) (b : BlockId) (j : Option JumpId) :
    (t.setJump b j).Linked := fun x p hx ↦ by
  rw [outer_setJump] at hx
  rw [statement_setJump]
  exact h x p hx

theorem Linked.setStatement (h : t.Linked)
    (hs : ∀ x, t.outer x = some b → x ∈ s.children) : (t.setStatement b s).Linked := by
  intro x p hx
  rw [outer_setStatement] at hx
  by_cases hp : p = b
  · subst hp
    rw [statement_setStatement _ _ _ (lt_of_statement_children (h x p hx)), if_pos rfl]
    exact hs x hx
  · rw [statement, Blocks.setStatement, get_modify_of_ne hp]
    exact h x p hx

theorem Linked.alloc (h : t.Linked) (s : Statement) : (t.alloc s).1.Linked := by
  intro x p hx
  by_cases hxn : x = ⟨t.size⟩
  · simp [hxn] at hx
  obtain ⟨-, -, ho⟩ := get_alloc_of_ne hxn
  rw [ho] at hx
  split at hx
  next hc =>
    obtain rfl : ⟨t.size⟩ = p := by simpa using hx
    simpa using hc.1
  next hc =>
    have hchild := h x p hx
    have hne := ne_of_lt_size (lt_of_statement_children hchild)
    rw [(get_alloc_of_ne hne).1]
    exact hchild

end Links

section Hang

section Adopt

variable {l : List Tree} {R : Tree} {k : Kind}

theorem Holds.adopt (h : t.Holds o (.node b j k l)) (hR : t.Holds o' R)
    (hn : (Tree.node b j k (l ++ [R])).ids.Nodup) (hs : s.children = (l ++ [R]).map Tree.id) :
    ((t.setStatement b s).setOuter R.id (some b)).Holds o (.node b j s.kind (l ++ [R])) := by
  obtain ⟨hlt, -, -, hjump, houter, hl⟩ := h.node'
  obtain ⟨hb, hn⟩ := Tree.nodup_child hn
  have hbR : b ∉ R.ids := fun h ↦ hb (by simp [h])
  have hst : ((t.setStatement b s).setOuter R.id (some b)).statement b = s := by
    simp [statement_setStatement _ _ _ hlt]
  refine .node (by simpa using hlt) (by rw [hst]) (by rw [hst, hs]) (by simpa using hjump) ?_
    fun x hx ↦ ?_
  · have hne : b ≠ R.id := fun he ↦ hbR (he ▸ R.id_mem_ids)
    rw [Blocks.outer, Blocks.setOuter, get_modify_of_ne hne]
    exact (outer_setStatement ..).trans houter
  · have hxn := (List.nodup_flatMap.mp hn).1 x hx
    have hbx : b ∉ x.ids := fun h ↦ hb (List.mem_flatMap.mpr ⟨x, hx, h⟩)
    rcases List.mem_append.mp hx with hx | hx
    · refine ((hl x hx).modify hxn hbx _).modify hxn (fun hR ↦ ?_) _
      rw [List.flatMap_append, List.nodup_append'] at hn
      exact hn.2.2 (List.mem_flatMap.mpr ⟨x, hx, hR⟩) (by simp [R.id_mem_ids])
    · obtain rfl : x = R := by simpa using hx
      exact (hR.modify hxn hbx _).setOuter hxn _

theorem Linked.adopt (hl : t.Linked) (h : t.Holds o (.node b j k l))
    (hs : s.children = (l ++ [R]).map Tree.id) :
    ((t.setStatement b s).setOuter R.id (some b)).Linked := by
  obtain ⟨hlt, -, hchildren, -, -, -⟩ := h.node'
  refine (hl.setStatement fun x hx ↦ ?_).setOuter ?_
  · have := hl x b hx
    rw [hchildren] at this
    rw [hs, List.map_append]
    exact List.mem_append_left _ this
  · rw [statement_setStatement _ _ _ hlt, if_pos rfl, hs]
    simp

end Adopt

/-- Hangs `new` where `old` was, at a place with the given frames around it. -/
def hang (t : Blocks) (C : List Frame) (old new : BlockId) : Blocks :=
  match C with
  | [] => t.setOuter new none
  | F :: _ => t.replaceChild F.id old new

variable {old new : BlockId}

theorem Linked.replaceChild (h : t.Linked) (hold : old ∈ (t.statement p).children) :
    (t.replaceChild p old new).Linked := by
  have hp := lt_of_statement_children hold
  let k : BlockId → BlockId := fun b ↦ if b = old then new else b
  have hchildren : ((t.statement p).mapChildren k).children = (t.statement p).children.map k :=
    Statement.children_mapChildren ..
  let u := t.setStatement p ((t.statement p).mapChildren k)
  let v := if u.outer old = some p then u.setOuter old none else u
  have hv : ∀ x, v.statement x = u.statement x := fun x ↦ by
    simp only [v]
    split <;> simp
  have hvx : ∀ x q, v.outer x = some q → t.outer x = some q ∧ (x = old → q ≠ p) := fun x q hx ↦ by
    simp only [v] at hx
    split at hx
    next he =>
      rcases of_outer_setOuter hx with ⟨-, hq⟩ | hx'
      · simp at hq
      · refine ⟨by simpa [u] using hx', fun hxo hqp ↦ ?_⟩
        subst hxo hqp
        rw [outer_setOuter _ _ _ (lt_of_outer he)] at hx
        simp at hx
    next he => exact ⟨by simpa [u] using hx, fun hxo hqp ↦ he (hxo ▸ hqp ▸ hx)⟩
  have hvl : v.Linked := fun x q hx ↦ by
    obtain ⟨hout, hold'⟩ := hvx x q hx
    have hxq := h x q hout
    rw [hv]
    by_cases hq : q = p
    · subst hq
      have hxo : x ≠ old := fun he ↦ hold' he rfl
      rw [statement_setStatement _ _ _ hp, if_pos rfl, hchildren]
      exact List.mem_map.mpr ⟨x, hxq, if_neg hxo⟩
    · rw [statement_setStatement _ _ _ hp, if_neg hq]
      exact hxq
  refine hvl.setOuter ?_
  rw [hv, statement_setStatement _ _ _ hp, if_pos rfl, hchildren]
  exact List.mem_map.mpr ⟨old, hold, if_pos rfl⟩

theorem Off.replaceChild (h : Off S t t') (hp : S p ∨ t.size ≤ p.index)
    (ho : S old ∨ t.size ≤ old.index) (hn : S new ∨ t.size ≤ new.index) :
    Off S t (t'.replaceChild p old new) := by
  have h' := h.setStatement hp
    ((t'.statement p).mapChildren fun b ↦ if b = old then new else b)
  refine Off.setOuter ?_ hn _
  split
  · exact h'.setOuter ho _
  · exact h'

theorem Linked.hang (h : t.Linked) (hC : t.HoldsAround C old) (new : BlockId) :
    (t.hang C old new).Linked := by
  cases C with
  | nil => exact h.setOuter_none new
  | cons F C => exact h.replaceChild (by simp [hC.1.2.2.1])

theorem Off.hang (h : Off S t t') (hC : ∀ b ∈ C.flatMap Frame.ids, S b ∨ t.size ≤ b.index)
    (ho : S old ∨ t.size ≤ old.index) (hn : S new ∨ t.size ≤ new.index) :
    Off S t (t'.hang C old new) := by
  cases C with
  | nil => exact h.setOuter hn none
  | cons F C => exact h.replaceChild (hC F.id (by simp [Frame.ids])) ho hn

theorem Holds.outer_mem (h : t.Holds o T) (hb : b ∈ T.ids) (hne : b ≠ T.id) :
    ∃ p ∈ T.ids, t.outer b = some p := by
  induction T generalizing o with
  | node id jump kind children ih =>
    obtain ⟨c, hc, hbc⟩ : ∃ c ∈ children, b ∈ c.ids := by
      simpa [Tree.ids, show b ≠ id from hne] using hb
    have hsub : ∀ x ∈ c.ids, x ∈ (Tree.node id jump kind children).ids := fun x hx ↦ by
      simp only [Tree.ids, List.mem_cons, List.mem_flatMap]
      exact .inr ⟨c, hc, hx⟩
    by_cases hbe : b = c.id
    · exact ⟨id, by simp [Tree.ids], hbe ▸ (h.child hc).outer⟩
    · obtain ⟨p, hp, ho⟩ := ih c hc (h.child hc) hbc hbe
      exact ⟨p, hsub p hp, ho⟩

/-- Whatever hung in the place, the new tree hangs there now. -/
theorem holds_hang (hC : t.HoldsAround C old) (hN : t.Holds o N) (hn : (plug C N).ids.Nodup)
    (hold : old ∉ C.flatMap Frame.ids) : (t.hang C old N.id).Holds none (plug C N) := by
  obtain ⟨hNn, hCn, hdisj⟩ := nodup_plug.mp hn
  cases C with
  | nil => exact hN.setOuter hNn none
  | cons F C =>
    obtain ⟨⟨hlt, hkind, hchildren, hjump, houter, hsides⟩, hC⟩ := hC
    rw [List.flatMap_cons, List.nodup_append'] at hCn
    obtain ⟨hFn, hCn, hFC⟩ := hCn
    have hFid : F.id ∉ N.ids := fun h ↦ hdisj h (by simp [Frame.ids])
    obtain ⟨hFself, hFsides⟩ := List.nodup_cons.mp hFn
    have hmem : ∀ b, b ∈ F.ids ∨ b ∈ C.flatMap Frame.ids → b ∈ (F :: C).flatMap Frame.ids :=
      fun b hb ↦ by simpa using hb
    let k : BlockId → BlockId := fun b ↦ if b = old then N.id else b
    let u := t.setStatement F.id ((t.statement F.id).mapChildren k)
    have hu : Off (· = F.id) t u := (Off.refl (· = F.id) t).setStatement (.inl rfl) _
    let v := if u.outer old = some F.id then u.setOuter old none else u
    have hv : Off (fun b ↦ b = F.id ∨ b = old ∧ t.outer old = some F.id) t v := by
      have hu' : Off (fun b ↦ b = F.id ∨ b = old ∧ t.outer old = some F.id) t u :=
        hu.mono fun b hb ↦ .inl hb
      simp only [v]
      split
      next he => exact hu'.setOuter (.inl (.inr ⟨rfl, by simpa [u] using he⟩)) none
      next => exact hu'
    have hvsize : v.size = t.size := by
      simp only [v]
      split <;> simp [u]
    have hvF : v.statement F.id = (t.statement F.id).mapChildren k ∧ v.jump F.id = t.jump F.id ∧
        v.outer F.id = t.outer F.id := by
      have hne : F.id ≠ old := fun he ↦ hold (he ▸ hmem _ (.inl (by simp [Frame.ids])))
      simp only [v]
      split
      · obtain ⟨hs, hj, ho⟩ := same_modify hne ({ · with outer := none })
        exact ⟨hs.trans (by simp [u, statement_setStatement _ _ _ hlt]), hj.trans (by simp [u]),
          ho.trans (by simp [u])⟩
      · simp [u, statement_setStatement _ _ _ hlt]
    -- The new tree itself has at most lost the link of `old`, which it then held as its top.
    have hvN : v.Holds (v.outer N.id) N := by
      refine hN.congr hNn hvsize.ge (fun b hb ↦ ?_) (fun b hb hne ↦ ?_) rfl
      · have hbF : b ≠ F.id := fun he ↦ hFid (he ▸ hb)
        simp only [v]
        split <;> simp [u, statement_setStatement _ _ _ hlt, hbF]
      · obtain ⟨p, hp, ho⟩ := hN.outer_mem hb hne
        refine (hv.same b (hN.lt_of_mem_ids hb) ?_).2.2
        rintro (rfl | ⟨rfl, he⟩)
        · exact hFid hb
        · obtain rfl : p = F.id := by simpa [ho] using he
          exact hFid hp
    have hsame : ∀ b, b ∉ N.ids → b ≠ F.id → b ∈ (F :: C).flatMap Frame.ids → b.index < t.size →
        Same t (v.setOuter N.id (some F.id)) b := fun b hbN hbF hbC hblt ↦ by
      have hbo : b ≠ old := fun he ↦ hold (he ▸ hbC)
      have hbN' : b ≠ N.id := fun he ↦ hbN (he ▸ N.id_mem_ids)
      have h := hv.same b hblt (by rintro (h | ⟨h, -⟩) <;> contradiction)
      have h' := same_modify (t := v) hbN' ({ · with outer := some F.id })
      exact ⟨h'.1.trans h.1, h'.2.1.trans h.2.1, h'.2.2.trans h.2.2⟩
    have hNF : N.id ≠ F.id := fun he ↦ hFid (he ▸ N.id_mem_ids)
    have hstatement : (v.setOuter N.id (some F.id)).statement F.id =
        (t.statement F.id).mapChildren k := by rw [statement_setOuter]; exact hvF.1
    have hsize : t.size ≤ (t.hang (F :: C) old N.id).size := by
      show t.size ≤ (v.setOuter N.id (some F.id)).size
      rw [size_setOuter, hvsize]
    rw [plug_cons, holds_plug, holds_fill]
    refine ⟨?_, ⟨?_, ?_, ?_, ?_, ?_, fun c hc ↦ ?_⟩, ?_⟩
    · refine hC.congr hCn hsize fun b hb ↦ ?_
      exact hsame b (fun h ↦ hdisj h (hmem b (.inr hb)))
        (fun he ↦ hFC (by simp [Frame.ids]) (he ▸ hb)) (hmem b (.inr hb)) (hC.lt_of_mem_ids hb)
    · show F.id.index < (v.setOuter N.id (some F.id)).size
      rw [size_setOuter, hvsize]
      exact hlt
    · show ((v.setOuter N.id (some F.id)).statement F.id).kind = F.kind
      rw [hstatement, Statement.kind_mapChildren, hkind]
    · show ((v.setOuter N.id (some F.id)).statement F.id).children = _
      rw [hstatement, Statement.children_mapChildren, hchildren, List.map_append, List.map_cons]
      have hside : ∀ l : List Tree, (∀ c ∈ l, c ∈ F.before ++ F.after) →
          (l.map Tree.id).map k = l.map Tree.id := fun l hl ↦ by
        rw [List.map_map]
        refine List.map_congr_left fun c hc ↦ if_neg fun he ↦ hold (hmem old (.inl ?_))
        exact he ▸ List.mem_cons_of_mem _ (List.mem_flatMap.mpr ⟨c, hl c hc, c.id_mem_ids⟩)
      rw [hside F.before fun c hc ↦ List.mem_append_left _ hc,
        hside F.after fun c hc ↦ List.mem_append_right _ hc, show k old = N.id from if_pos rfl]
    · show (v.setOuter N.id (some F.id)).jump F.id = F.jump
      rw [jump_setOuter, hvF.2.1, hjump]
    · show (v.setOuter N.id (some F.id)).outer F.id = outerOf C
      rw [outer, Blocks.setOuter, get_modify_of_ne hNF.symm]
      exact hvF.2.2.trans houter
    · have hcn := (List.nodup_flatMap.mp hFsides).1 c hc
      have hcm : ∀ b ∈ c.ids, b ∈ (F.before ++ F.after).flatMap Tree.ids :=
        fun b hb ↦ List.mem_flatMap.mpr ⟨c, hc, hb⟩
      refine (hsides c hc).of_same hcn hsize fun b hb ↦ ?_
      have hbF : b ∈ F.ids := List.mem_cons_of_mem _ (hcm b hb)
      exact hsame b (fun h ↦ hdisj h (hmem b (.inl hbF)))
        (fun he ↦ hFself (he ▸ hcm b hb)) (hmem b (.inl hbF)) ((hsides c hc).lt_of_mem_ids hb)
    · exact hvN.setOuter hNn (some F.id)

end Hang

end Blocks

end Decompile
