import Decompile.Proofs.BlockEdit

namespace Decompile

namespace Kind

def isLoop : Kind → Bool
  | loop .. => true
  | _ => false

def isBreakable : Kind → Bool
  | loop .. | switch .. => true
  | _ => false

def setLabeled : Kind → Kind
  | loop kind cond init _ => loop kind cond init true
  | switch selector _ => switch selector true
  | k => k

def labelIf (labeled : Bool) (k : Kind) : Kind := if labeled then k.setLabeled else k

def setCondition (cond : ExprId) : Kind → Kind
  | conditional _ => conditional cond
  | ifElse _ => ifElse cond
  | loop kind _ init labeled => loop kind cond init labeled
  | k => k

end Kind

namespace Statement

@[simp] theorem kind_setLabeled (s : Statement) : s.setLabeled.kind = s.kind.setLabeled := by
  cases s <;> rfl

@[simp] theorem children_setLabeled (s : Statement) : s.setLabeled.children = s.children := by
  cases s <;> rfl

@[simp] theorem kind_setCondition (s : Statement) (c : ExprId) :
    (s.setCondition c).kind = s.kind.setCondition c := by
  cases s <;> rfl

@[simp] theorem children_setCondition (s : Statement) (c : ExprId) :
    (s.setCondition c).children = s.children := by
  cases s <;> rfl

end Statement

namespace Frame

/-- The normal end of what hangs in the place is the end of the whole block. -/
def Ends (F : Frame) : Prop :=
  match F.kind with
  | .sequence | .switch .. => F.after = []
  | .ifElse _ | .conditional _ | .switchCase .. | .tryCatch | .catchClause .. | .finallyClause
  | .synchronized .. => True
  | _ => False

/-- The place is the rest of a sequence. -/
def IsRest (F : Frame) : Prop := F.kind = .sequence ∧ F.after = [] ∧ ∃ P, F.before = [P]

end Frame

/-- Control that comes to the end of the place comes to the end of the last of the frames, as far
as no jump is taken in between. -/
def Falls : List Frame → Prop
  | [] => True
  | F :: C => F.Ends ∧ (C = [] ∨ F.jump = none) ∧ Falls C

namespace Blocks

variable {t : Blocks} {o : Option BlockId} {T s B : Tree} {F : Frame} {C D : List Frame}
  {b x p : BlockId}

variable {second first q : BlockId} {k : Kind} {n : Nat}

section Shape

theorem isBreakable_statement (h : (t.statement x).kind = k) :
    (t.statement x).isBreakable = k.isBreakable := by
  subst h
  cases t.statement x <;> rfl

theorem isSequence_statement (h : (t.statement x).kind = k) :
    (t.statement x).isSequence = true ↔ k = .sequence := by
  subst h
  cases t.statement x <;> simp [Statement.isSequence, Statement.kind]

theorem Holds.sequence (h : t.Holds o T) (hk : T.kind = .sequence) :
    ∃ X Y, T.children = [X, Y] ∧ t.statement T.id = .sequence X.id Y.id := by
  have hkind := h.kind
  have hchildren := h.children
  rw [hk] at hkind
  generalize hstatement : t.statement T.id = s at hkind hchildren
  cases s with
  | sequence first second =>
    obtain ⟨X, Y, hc⟩ : ∃ X Y, T.children = [X, Y] := List.length_eq_two.mp (by
      simpa [Statement.children] using (congrArg List.length hchildren).symm)
    simp only [hc, Statement.children, List.map_cons, List.map_nil, List.cons.injEq, and_true]
      at hchildren
    exact ⟨X, Y, hc, by rw [hchildren.1, hchildren.2]⟩
  | _ => simp [Statement.kind] at hkind

theorem HoldsAround.sequence (h : t.HoldsAround C x) (hq : outerOf C = some q)
    (hs : t.statement q = .sequence first second) :
    ∃ j C', (∃ Y, C = ⟨q, j, .sequence, [], [Y]⟩ :: C' ∧ first = x ∧ second = Y.id) ∨
      ∃ P, C = ⟨q, j, .sequence, [P], []⟩ :: C' ∧ first = P.id ∧ second = x := by
  cases C with
  | nil => simp at hq
  | cons F C' =>
    obtain ⟨id, jump, kind, before, after⟩ := F
    obtain ⟨⟨_, hkind, hchildren, _, _, _⟩, _⟩ := h
    obtain rfl : id = q := by simpa using hq
    simp only [hs, Statement.kind, Statement.children] at hkind hchildren
    subst hkind
    refine ⟨jump, C', ?_⟩
    rcases before with _ | ⟨P, _ | ⟨_, _⟩⟩
    · rcases after with _ | ⟨Y, _ | ⟨_, _⟩⟩
      · simp at hchildren
      · exact .inl ⟨Y, rfl, by simpa using hchildren⟩
      · simp at hchildren
    · rcases after with _ | ⟨_, _⟩
      · exact .inr ⟨P, rfl, by simpa using hchildren⟩
      · simp at hchildren
    · simp at hchildren

end Shape

section Ancestors

theorem ancestorsWithin_eq (h : t.HoldsAround C x) (hx : t.outer x = outerOf C)
    (hn : C.length ≤ n) : t.ancestorsWithin n x = C.map Frame.id := by
  induction C generalizing n x with
  | nil =>
    cases n with
    | zero => rfl
    | succ n => simp only [ancestorsWithin, hx, outerOf_nil, List.map_nil]
  | cons F C ih =>
    obtain ⟨n, rfl⟩ : ∃ m, n = m + 1 := ⟨n - 1, by simp at hn; omega⟩
    simp only [ancestorsWithin, hx, outerOf_cons, List.map_cons]
    rw [ih h.2 h.1.2.2.2.2.1 (by simpa using hn)]

theorem length_le_size_of_ids {l : List BlockId} (hn : l.Nodup) (h : ∀ b ∈ l, b.index < t.size) :
    l.length ≤ t.size := by
  have hn' : (l.map BlockId.index).Nodup := hn.map fun x y h ↦ by
    cases x
    cases y
    simpa using h
  simpa using length_le_of_nodup_of_lt hn' fun i hi ↦ by
    obtain ⟨b, hb, rfl⟩ := List.mem_map.mp hi
    exact h b hb

theorem id_plug_mem (hC : C ≠ []) : (plug C B).id ∈ C.map Frame.id := by
  induction C generalizing B with
  | nil => contradiction
  | cons F C ih =>
    cases C with
    | nil => simp
    | cons G C => exact List.mem_cons_of_mem _ (ih (List.cons_ne_nil G C))

theorem map_id_sublist (C : List Frame) : (C.map Frame.id).Sublist (C.flatMap Frame.ids) := by
  induction C with
  | nil => simp
  | cons F C ih =>
    rw [List.map_cons, List.flatMap_cons, Frame.ids, List.cons_append]
    exact (ih.trans (List.sublist_append_right ..)).cons_cons _

/-- The facts about a tree seen from one of its places. -/
structure At (t : Blocks) (C : List Frame) (B : Tree) : Prop where
  around : t.HoldsAround C B.id
  holds : t.Holds (outerOf C) B
  nodup : (plug C B).ids.Nodup

theorem At.of_holds (h : t.Holds none (plug C B)) (hn : (plug C B).ids.Nodup) : t.At C B :=
  ⟨(holds_plug.mp h).1, (holds_plug.mp h).2, hn⟩

namespace At

variable (h : t.At C B)
include h

theorem whole : t.Holds none (plug C B) := holds_plug.mpr ⟨h.around, h.holds⟩

theorem ids_nodup : B.ids.Nodup := (nodup_plug.mp h.nodup).1

theorem frames_nodup : (C.flatMap Frame.ids).Nodup := (nodup_plug.mp h.nodup).2.1

theorem disjoint : B.ids.Disjoint (C.flatMap Frame.ids) := (nodup_plug.mp h.nodup).2.2

theorem length_le : C.length ≤ t.size := by
  have := length_le_size_of_ids h.frames_nodup fun b hb ↦ h.around.lt_of_mem_ids hb
  have := (map_id_sublist C).length_le
  simp only [List.length_map] at this
  omega

theorem ancestors : t.ancestors B.id = C.map Frame.id :=
  ancestorsWithin_eq h.around h.holds.outer h.length_le

theorem rootOf : t.rootOf B.id = (plug C B).id := by
  rw [Blocks.rootOf, h.ancestors]
  have (D : List Frame) (T : Tree) : (D.map Frame.id).getLastD T.id = (plug D T).id := by
    induction D generalizing T with
    | nil => rfl
    | cons F D ih => rw [plug_cons, ← ih, List.map_cons, List.getLastD_cons, Frame.id_fill]
  exact this C B

theorem statement_frame (hF : F ∈ C) : (t.statement F.id).kind = F.kind ∧ t.jump F.id = F.jump := by
  obtain ⟨C₁, C₂, rfl⟩ := List.append_of_mem hF
  have := h.whole
  rw [plug_append, plug_cons, holds_plug, holds_fill] at this
  exact ⟨this.2.1.2.1, this.2.1.2.2.2.1⟩

variable {C₁ C₂ : List Frame}

include h in
theorem ne_of_before (hC : C = C₁ ++ F :: C₂) : ∀ G ∈ C₁, G.id ≠ F.id := by
  have hn := (map_id_sublist C).nodup h.frames_nodup
  rw [hC, List.map_append, List.map_cons, List.nodup_append] at hn
  exact fun G hG ↦ hn.2.2 _ (List.mem_map_of_mem hG) _ (List.mem_cons_self ..)

theorem find?_ancestors_ne {p : Statement → Bool} {q : Kind → Bool} (hC : C = C₁ ++ F :: C₂)
    (hp : ∀ s, p s = q s.kind) (hF : q F.kind = true) :
    (t.ancestors B.id).find? (fun x ↦ p (t.statement x)) ≠ some F.id ↔
      C₁.any (q ·.kind) = true := by
  have hq : ∀ G ∈ C, p (t.statement G.id) = q G.kind := fun G hG ↦ by
    rw [hp, (h.statement_frame hG).1]
  have hne := h.ne_of_before hC
  rw [h.ancestors]
  subst hC
  clear h
  induction C₁ with
  | nil => simp [hq F, hF]
  | cons G C₁ ih =>
    have hG := hq G (by simp)
    have ih := ih (fun x hx ↦ hne x (.tail _ hx)) fun x hx ↦ hq x (List.mem_cons_of_mem _ hx)
    cases hk : q G.kind with
    | true => simpa [hG, hk] using hne G (.head _)
    | false => simpa [hG, hk] using ih

theorem innermostBreakable_ne (hC : C = C₁ ++ F :: C₂) (hF : F.kind.isBreakable = true) :
    t.innermostBreakable B.id ≠ some F.id ↔ C₁.any (·.kind.isBreakable) = true :=
  h.find?_ancestors_ne hC (fun s ↦ by cases s <;> rfl) hF

theorem innermostLoop_ne (hC : C = C₁ ++ F :: C₂) (hF : F.kind.isLoop = true) :
    t.innermostLoop B.id ≠ some F.id ↔ C₁.any (·.kind.isLoop) = true :=
  h.find?_ancestors_ne hC (fun s ↦ by cases s <;> rfl) hF

end At

end Ancestors

section Whole

/-- The tree below `b`, no deeper than `n`. -/
def treeWithin (t : Blocks) : Nat → BlockId → Tree
  | 0, b => .node b (t.jump b) (t.statement b).kind []
  | n + 1, b => .node b (t.jump b) (t.statement b).kind
      ((t.statement b).children.map (t.treeWithin n))

/-- The tree below `b`. -/
def tree (t : Blocks) (b : BlockId) : Tree := t.treeWithin t.size b

theorem Holds.length_le (h : t.Holds o T) (hn : T.ids.Nodup) : T.ids.length ≤ t.size :=
  length_le_size_of_ids hn fun _ hb ↦ h.lt_of_mem_ids hb

theorem length_ids_child {c : Tree} {i : BlockId} {j : Option JumpId} {l : List Tree} (hc : c ∈ l) :
    c.ids.length < (Tree.node i j k l).ids.length := by
  have := (List.sublist_flatten_of_mem (List.mem_map_of_mem (f := Tree.ids) hc)).length_le
  simp only [Tree.ids, List.length_cons, List.flatMap_def]
  omega

theorem Holds.treeWithin (h : t.Holds o T) (hn : T.ids.length ≤ n) : t.treeWithin n T.id = T := by
  induction T generalizing n o with
  | node i j k l ih =>
    obtain ⟨n, rfl⟩ : ∃ m, n = m + 1 := ⟨n - 1, by simp [Tree.ids] at hn; omega⟩
    obtain ⟨-, hkind, hchildren, hjump, -, hl⟩ := h.node'
    simp only [Tree.id_node, Blocks.treeWithin, hjump, hkind, hchildren, List.map_map]
    congr
    conv_rhs => rw [← List.map_id l]
    refine List.map_congr_left fun c hc ↦ ih c hc (hl c hc) ?_
    have := length_ids_child (i := i) (j := j) (k := k) hc
    omega

theorem Holds.tree (h : t.Holds o T) (hn : T.ids.Nodup) : t.tree T.id = T :=
  h.treeWithin (h.length_le hn)

end Whole

section Chain

/-- The statements before the place, if it ends a chain. -/
def firsts : List Frame → List Tree
  | [] => []
  | F :: C => firsts C ++ F.before

theorem exists_last (h : t.Holds o T) :
    ∃ C s, T = plug C s ∧ (∀ F ∈ C, F.IsRest) ∧ s.kind ≠ .sequence := by
  induction T generalizing o with
  | node i j k l ih =>
    by_cases hk : k = .sequence
    · obtain ⟨X, Y, hl, -⟩ := h.sequence hk
      obtain rfl : l = [X, Y] := hl
      obtain ⟨C, s, rfl, hC, hs⟩ := ih Y (by simp) (h.child (by simp))
      refine ⟨C ++ [⟨i, j, k, [X], []⟩], s, by simp [Frame.fill], fun F hF ↦ ?_, hs⟩
      rcases List.mem_append.mp hF with hF | hF
      · exact hC F hF
      · obtain rfl : F = _ := by simpa using hF
        exact ⟨hk, rfl, X, rfl⟩
    · exact ⟨[], _, rfl, by simp, hk⟩

theorem chainWithin_plug (h : t.Holds o (plug C s)) (hC : ∀ F ∈ C, F.IsRest)
    (hs : s.kind ≠ .sequence) (hn : C.length ≤ n) :
    t.chainWithin n (plug C s).id = (firsts C).map Tree.id ++ [s.id] := by
  induction C using List.reverseRecOn generalizing n o with
  | nil =>
    cases n with
    | zero => rfl
    | succ n =>
      have hk := h.kind
      simp only [plug_nil] at hk ⊢
      rw [chainWithin]
      split
      next he => simp [he, Statement.kind] at hk; exact absurd hk.symm hs
      next => rfl
  | append_singleton C F ih =>
    obtain ⟨n, rfl⟩ : ∃ m, n = m + 1 := ⟨n - 1, by simp at hn; omega⟩
    obtain ⟨hk, hafter, P, hbefore⟩ := hC F (by simp)
    simp only [plug_append, plug_cons, plug_nil] at h ⊢
    obtain ⟨X, Y, hchildren, hstatement⟩ := h.sequence hk
    simp only [Frame.fill, hafter, hbefore, Tree.children_node, List.cons_append, List.nil_append,
      List.cons.injEq, and_true] at hchildren
    obtain ⟨rfl, rfl⟩ := hchildren
    have hrest : t.Holds (some F.id) (plug C s) := h.child (by simp [Frame.fill])
    rw [chainWithin, hstatement]
    simp only [ih hrest (fun F hF ↦ hC F (by simp [hF])) (by simpa using hn)]
    have : firsts (C ++ [F]) = P :: firsts C := by
      clear * - hbefore
      induction C with
      | nil => simp [firsts, hbefore]
      | cons G C ih => simp [firsts, ih]
    rw [this]
    rfl

theorem length_le_of_holds_plug (h : t.Holds o (plug C s)) (hn : (plug C s).ids.Nodup) :
    C.length ≤ t.size := by
  have h₁ := h.length_le hn
  have h₂ := (ids_plug C s).length_eq
  have h₃ := (map_id_sublist C).length_le
  simp only [List.length_map, List.length_append] at h₂ h₃
  omega

theorem chain_plug (h : t.Holds o (plug C s)) (hn : (plug C s).ids.Nodup) (hC : ∀ F ∈ C, F.IsRest)
    (hs : s.kind ≠ .sequence) : t.chain (plug C s).id = (firsts C).map Tree.id ++ [s.id] :=
  chainWithin_plug h hC hs (length_le_of_holds_plug h hn)

theorem chainTail_plug (h : t.Holds o (plug C s)) (hn : (plug C s).ids.Nodup)
    (hC : ∀ F ∈ C, F.IsRest) (hs : s.kind ≠ .sequence) : t.chainTail (plug C s).id = s.id := by
  rw [chainTail, chain_plug h hn hC hs]
  simp

theorem exists_chainTail (h : t.Holds o T) (hn : T.ids.Nodup) :
    ∃ C s, T = plug C s ∧ (∀ F ∈ C, F.IsRest) ∧ s.kind ≠ .sequence ∧ t.chainTail T.id = s.id := by
  obtain ⟨C, s, rfl, hC, hs⟩ := exists_last h
  exact ⟨C, s, rfl, hC, hs, chainTail_plug h hn hC hs⟩

theorem chainHead_eq (h : t.Holds o T) (hn : T.ids.Nodup) :
    (T.kind ≠ .sequence ∧ t.chainHead T.id = T.id) ∨
      ∃ j X Y, T = .node T.id j .sequence [X, Y] ∧ t.chainHead T.id = X.id := by
  obtain ⟨n, hsize⟩ : ∃ n, t.size = n + 1 := ⟨t.size - 1, by have := h.lt_size; omega⟩
  by_cases hk : T.kind = .sequence
  · obtain ⟨X, Y, hchildren, hstatement⟩ := h.sequence hk
    obtain ⟨i, j, k, l⟩ := T
    simp only [Tree.kind_node, Tree.children_node, Tree.id_node] at hk hchildren hstatement
    subst hk hchildren
    refine .inr ⟨j, X, Y, rfl, ?_⟩
    rw [chainHead, chain, hsize, Tree.id_node, chainWithin, hstatement]
    rfl
  · have hkind := h.kind
    refine .inl ⟨hk, ?_⟩
    rw [chainHead, chain, hsize, chainWithin]
    split
    next he => simp [he, Statement.kind] at hkind; exact absurd hkind.symm hk
    next => rfl

end Chain

section Neighbours

theorem At.up (h : t.At (F :: C) B) : t.At C (F.fill B) :=
  .of_holds h.whole h.nodup

/-- The statement before `B` is the first part of a sequence, the rest of which is `B` or starts
with it. -/
theorem At.prevStatement (h : t.At C B) (hp : t.prevStatement B.id = some p) :
    ∃ C' D q j P, plug C B = plug C' (.node q j .sequence [P, plug D B]) ∧ P.id = p ∧
      (D = [] ∨ ∃ r i Y, D = [⟨r, i, .sequence, [], [Y]⟩]) := by
  rw [Blocks.prevStatement] at hp
  obtain ⟨q, hq, hp⟩ := Option.bind_eq_some_iff.mp hp
  rw [h.holds.outer] at hq
  split at hp
  next first second hs =>
    obtain ⟨j, C', ⟨Y, rfl, rfl, rfl⟩ | ⟨P, rfl, rfl, rfl⟩⟩ := h.around.sequence hq hs
    · have hne : Y.id ≠ B.id := fun he ↦ h.disjoint (he ▸ B.id_mem_ids)
        (by simp [Frame.ids, Y.id_mem_ids])
      rw [if_neg hne] at hp
      obtain ⟨r, hr, hp⟩ := Option.bind_eq_some_iff.mp hp
      have hup := h.up
      rw [show t.outer q = outerOf C' from hup.holds.outer] at hr
      split at hp
      next first' second' hs' =>
        obtain ⟨i, C'', ⟨Z, rfl, he, rfl⟩ | ⟨P, rfl, rfl, he⟩⟩ := hup.around.sequence hr hs'
        · split at hp
          next hz =>
            refine absurd (hup.disjoint (Tree.id_mem_ids _) ?_) not_false
            rw [Frame.id_fill, ← hz]
            simp [Frame.ids, Z.id_mem_ids]
          next => simp at hp
        · obtain rfl : P.id = p := by
            split at hp <;> simp_all
          exact ⟨C'', _, r, i, P, rfl, rfl, .inr ⟨q, j, Y, rfl⟩⟩
      next => simp at hp
    · refine ⟨C', [], q, j, P, rfl, ?_, .inl rfl⟩
      simpa using hp
  next => simp at hp

theorem At.outer_sequence (h : t.At C B) (hq : t.outer B.id = some q)
    (hs : t.statement q = .sequence first second) :
    ∃ j C', (∃ Y, C = ⟨q, j, .sequence, [], [Y]⟩ :: C' ∧ first = B.id ∧ second = Y.id) ∨
      ∃ P, C = ⟨q, j, .sequence, [P], []⟩ :: C' ∧ first = P.id ∧ second = B.id :=
  h.around.sequence (h.holds.outer ▸ hq) hs

theorem At.outer_frame (h : t.At C B) (hp : t.outer B.id = some p) :
    ∃ F C', C = F :: C' ∧ F.id = p := by
  cases C with
  | nil => simp [h.holds.outer] at hp
  | cons F C =>
    rw [h.holds.outer] at hp
    exact ⟨F, C, rfl, by simpa using hp⟩

theorem At.children_frame (h : t.At (F :: C) B) :
    (t.statement F.id).children = F.before.map Tree.id ++ B.id :: F.after.map Tree.id :=
  h.around.1.2.2.1

theorem At.only_child (h : t.At C B) (hp : t.outer B.id = some p)
    (hs : (t.statement p).children = [x]) :
    x = B.id ∧ ∃ j C', C = ⟨p, j, (t.statement p).kind, [], []⟩ :: C' := by
  obtain ⟨F, C, rfl, rfl⟩ := h.outer_frame hp
  have hc := h.children_frame
  have hk := (h.statement_frame (F := F) (by simp)).1
  rw [hs] at hc
  obtain ⟨id, jump, kind, before, after⟩ := F
  cases before <;> cases after <;> simp_all

theorem At.ne_of_mem {c : Tree} (h : t.At (F :: C) B) (hc : c ∈ F.before ++ F.after) :
    c.id ≠ B.id := fun he ↦ by
  refine h.disjoint (he ▸ B.id_mem_ids) ?_
  simp only [List.flatMap_cons, Frame.ids, List.mem_append, List.mem_cons, List.mem_flatMap]
  exact .inl (.inr ⟨c, List.mem_append.mp hc, c.id_mem_ids⟩)

end Neighbours

section Fall

theorem endsWith_iff (h : t.At (F :: C) B) : (t.statement F.id).endsWith B.id = true ↔ F.Ends := by
  obtain ⟨⟨-, hkind, hchildren, -, -, -⟩, -⟩ := h.around
  have hlast : ∀ {l : List BlockId}, l = F.before.map Tree.id ++ B.id :: F.after.map Tree.id →
      (l.getLast? = some B.id ↔ F.after = []) := by
    rintro l rfl
    rcases List.eq_nil_or_concat F.after with ha | ⟨l', c, ha⟩
    · simp [ha]
    · have hne : c.id ≠ B.id := h.ne_of_mem (by simp [ha])
      have : F.before.map Tree.id ++ B.id :: F.after.map Tree.id =
          (F.before.map Tree.id ++ B.id :: l'.map Tree.id) ++ [c.id] := by simp [ha]
      rw [this, List.getLast?_concat]
      simp [ha, hne]
  rw [Frame.Ends, ← hkind]
  cases hs : t.statement F.id with
  | sequence first second =>
    rw [hs] at hchildren
    have := hlast hchildren
    simpa [Statement.endsWith, Statement.kind, Statement.children] using this
  | switch _ cases _ =>
    rw [hs] at hchildren
    have := hlast hchildren
    simpa [Statement.endsWith, Statement.kind, Statement.children] using this
  | _ => simp [Statement.endsWith, Statement.kind]

variable {anc : BlockId}

/-- Control falls from `B` to the end of a block just if that block is around it, every block in
between ends with what it holds of `B`, and none of them jumps away. -/
theorem fallsWithin_iff (h : t.At C B) (hn : C.length ≤ n) :
    t.fallsWithin anc n B.id = true ↔
      ∃ C₁ C₂, C = C₁ ++ C₂ ∧ anc = (plug C₁ B).id ∧ Falls C₁ := by
  induction C generalizing B n with
  | nil =>
    have : t.outer B.id = none := h.holds.outer
    have hbase : t.fallsWithin anc n B.id = true ↔ B.id = anc := by
      cases n <;> simp [fallsWithin, this]
    rw [hbase]
    constructor
    · exact fun he ↦ ⟨[], [], rfl, he.symm, trivial⟩
    · rintro ⟨C₁, C₂, hC, rfl, -⟩
      rw [(List.append_eq_nil_iff.mp hC.symm).1, plug_nil]
  | cons F C ih =>
    obtain ⟨n, rfl⟩ : ∃ m, n = m + 1 := ⟨n - 1, by simp at hn; omega⟩
    have houter : t.outer B.id = some F.id := h.holds.outer
    have hjump : t.jump F.id = F.jump := (h.statement_frame (by simp)).2
    have ih := ih h.up (by simpa using hn)
    rw [Frame.id_fill] at ih
    simp only [fallsWithin, houter, Bool.or_eq_true, beq_iff_eq, Bool.and_eq_true, ih,
      endsWith_iff h, hjump, Option.isNone_iff_eq_none]
    constructor
    · rintro (he | ⟨⟨hends, hj⟩, C₁, C₂, rfl, rfl, hfalls⟩)
      · exact ⟨[], F :: C, rfl, he.symm, trivial⟩
      · refine ⟨F :: C₁, C₂, rfl, rfl, hends, ?_, hfalls⟩
        rcases hj with he | hj
        · refine .inl ?_
          by_contra hne
          have hmem := id_plug_mem (B := F.fill B) hne
          rw [← he] at hmem
          have hup := h.up
          refine hup.disjoint (Tree.id_mem_ids _) ?_
          rw [Frame.id_fill, List.flatMap_append, List.mem_append]
          exact .inl ((map_id_sublist C₁).subset hmem)
        · exact .inr hj
    · rintro ⟨C₁, C₂, hC, rfl, hfalls⟩
      cases C₁ with
      | nil => exact .inl rfl
      | cons G C₁ =>
        obtain ⟨rfl, rfl⟩ : F = G ∧ C = C₁ ++ C₂ := by simpa using hC
        obtain ⟨hends, hj, hfalls⟩ := hfalls
        refine .inr ⟨⟨hends, hj.imp ?_ id⟩, C₁, C₂, rfl, rfl, hfalls⟩
        rintro rfl
        rfl

theorem fallsToEndOf_iff (h : t.At C B) :
    t.fallsToEndOf B.id anc = true ↔
      ∃ C₁ C₂, C = C₁ ++ C₂ ∧ anc = (plug C₁ B).id ∧ Falls C₁ :=
  fallsWithin_iff h h.length_le

end Fall

end Blocks

end Decompile
