import Decompile.Dispatcher
import Decompile.Proofs.Soundness

namespace Decompile

section Selects

/-- The value that an expression `x = value` gives the variable. -/
def Expressions.assigned? (t : Expressions) (x : LocalId) (e : ExprId) : Option Int :=
  match t.get e with
  | .assign target none value =>
    match t.get target, t.get value with
    | .var y, .const (.int n) => if y = x then some n else none
    | _, _ => none
  | _ => none

variable {t t' : Expressions} {x : LocalId} {e : ExprId} {n : Int}

theorem Expressions.assigned?_eq_some : t.assigned? x e = some n ↔
    ∃ target value, t.get e = .assign target none value ∧ t.get target = .var x ∧
      t.get value = .const (.int n) := by
  constructor
  · intro h
    rw [assigned?] at h
    split at h
    next target value he =>
      split at h
      next y m hy hm =>
        split at h
        next hyx =>
          subst hyx
          cases h
          exact ⟨target, value, he, hy, hm⟩
        · cases h
      · cases h
    · cases h
  · rintro ⟨target, value, he, hx, hn⟩
    simp [assigned?, he, hx, hn]

theorem Expressions.Extends.assigned? (h : t.Extends t') (he : t.assigned? x e = some n) :
    t'.assigned? x e = some n := by
  obtain ⟨target, value, he, hx, hn⟩ := Expressions.assigned?_eq_some.mp he
  refine Expressions.assigned?_eq_some.mpr ⟨target, value, h.get_eq he ?_, h.get_eq hx ?_,
    h.get_eq hn ?_⟩
  all_goals exact fun h ↦ by cases h

end Selects

/-- The blocks of a dispatcher. Each region is a case of a switch inside an endless loop. -/
structure Hub where
  selector : LocalId
  /-- The blocks from here on are its own. -/
  base : Nat
  root : BlockId
  init : BlockId
  /-- The assignment of the first number. -/
  start : ExprId
  looped : BlockId
  cond : ExprId
  switch : BlockId
  selected : ExprId
  cases : List (BlockId × FlowId)

namespace Hub

variable {h : Hub} {T T' : FlowId → Tree} {l r : List (BlockId × FlowId)} {c : BlockId}
  {f : FlowId} {labeled : Bool}

def regions (h : Hub) : List FlowId := h.cases.map (·.2)

/-- One case per region, numbered from `n` on. -/
def caseNodes (T : FlowId → Tree) : Nat → List (BlockId × FlowId) → List Tree
  | _, [] => []
  | n, (c, f) :: l => .node c none (.switchCase (.value n) false) [T f] :: caseNodes T (n + 1) l

/-- The tree of the dispatcher, given those of its regions. -/
def tree (h : Hub) (labeled : Bool) (T : FlowId → Tree) : Tree :=
  .node h.root none .sequence
    [.node h.init none (.evaluate h.start 0) [],
      .node h.looped none (.loop .whileLoop h.cond none labeled)
        [.node h.switch none (.switch h.selected false) (caseNodes T 0 h.cases)]]

/-- The way from a region up to the root. -/
def frames (h : Hub) (labeled : Bool) (T : FlowId → Tree) (l : List (BlockId × FlowId))
    (c : BlockId) (r : List (BlockId × FlowId)) : List Frame :=
  [⟨c, none, .switchCase (.value l.length) false, [], []⟩,
    ⟨h.switch, none, .switch h.selected false, caseNodes T 0 l, caseNodes T (l.length + 1) r⟩,
    ⟨h.looped, none, .loop .whileLoop h.cond none labeled, [], []⟩,
    ⟨h.root, none, .sequence, [.node h.init none (.evaluate h.start 0) []], []⟩]

theorem caseNodes_append (n : Nat) :
    caseNodes T n (l ++ r) = caseNodes T n l ++ caseNodes T (n + l.length) r := by
  induction l generalizing n with
  | nil => rfl
  | cons x l ih =>
    rw [List.cons_append, caseNodes, ih, List.length_cons]
    congr 3
    omega

theorem caseNodes_congr (n : Nat) (hT : ∀ f ∈ l.map (·.2), T f = T' f) :
    caseNodes T n l = caseNodes T' n l := by
  induction l generalizing n with
  | nil => rfl
  | cons x l ih =>
    rw [List.map_cons, List.forall_mem_cons] at hT
    rw [caseNodes, caseNodes, ih (n + 1) hT.2, hT.1]

theorem map_id_caseNodes (n : Nat) : (caseNodes T n l).map Tree.id = l.map (·.1) := by
  induction l generalizing n with
  | nil => rfl
  | cons x l ih => rw [caseNodes, List.map_cons, List.map_cons, ih, Tree.id_node]

theorem tree_eq_plug (hc : h.cases = l ++ (c, f) :: r) :
    h.tree labeled T = plug (h.frames labeled T l c r) (T f) := by
  rw [tree, hc, caseNodes_append, Nat.zero_add]
  rfl

theorem tree_update (hc : h.cases = l ++ (c, f) :: r) (hn : h.regions.Nodup) (N : Tree) :
    h.tree labeled (Function.update T f N) = plug (h.frames labeled T l c r) N := by
  have hne : ∀ g ∈ (l ++ r).map (·.2), g ≠ f := by
    rintro g hg rfl
    rw [regions, hc] at hn
    simp only [List.map_append, List.map_cons, List.nodup_append, List.nodup_cons] at hn
    rw [List.map_append, List.mem_append] at hg
    rcases hg with hg | hg
    · exact hn.2.2 g hg g (by simp) rfl
    · exact hn.2.1.1 hg
  have hl : ∀ g ∈ l.map (·.2), Function.update T f N g = T g := fun g hg ↦
    Function.update_of_ne (hne g (by simp only [List.map_append, List.mem_append, hg, true_or])) ..
  have hr : ∀ g ∈ r.map (·.2), Function.update T f N g = T g := fun g hg ↦
    Function.update_of_ne (hne g (by simp only [List.map_append, List.mem_append, hg, or_true])) ..
  rw [tree_eq_plug hc, Function.update_self, frames, caseNodes_congr _ hl, caseNodes_congr _ hr,
    frames]

theorem forall_update {p : FlowId → Tree → Prop} {N : Tree} (hN : p f N)
    (hT : ∀ g ∈ h.regions, g ≠ f → p g (T g)) : ∀ g ∈ h.regions, p g (Function.update T f N g) := by
  intro g hg
  by_cases hgf : g = f
  · subst hgf
    rwa [Function.update_self]
  · rw [Function.update_of_ne hgf]
    exact hT g hg hgf

theorem ids_tree : (h.tree labeled T).ids = (h.tree false T).ids := by
  simp [tree, Tree.ids]

theorem exists_cases (hf : f ∈ h.regions) : ∃ l c r, h.cases = l ++ (c, f) :: r := by
  obtain ⟨⟨c, g⟩, hx, hg⟩ := List.mem_map.mp hf
  obtain rfl : g = f := hg
  obtain ⟨l, r, he⟩ := List.append_of_mem hx
  exact ⟨l, c, r, he⟩

/-- What the expressions of the dispatcher are. -/
structure Reads (h : Hub) (t : Expressions) : Prop where
  start : t.assigned? h.selector h.start = some 0
  cond : t.get h.cond = .const (.bool true)
  selected : t.get h.selected = .var h.selector

theorem Reads.mono {t t' : Expressions} (hr : h.Reads t) (ht : t.Extends t') : h.Reads t' where
  start := ht.assigned? hr.start
  cond := ht.get_eq hr.cond fun h ↦ by cases h
  selected := ht.get_eq hr.selected fun h ↦ by cases h

end Hub

variable {i : BlockId}

namespace Tree

/-- No case of a switch jumps itself, only what is in it may. -/
def CasesFall (T : Tree) : Prop :=
  ∀ s ∈ T.nodes, s.kind.isSwitch → ∀ c ∈ s.children, c.jump = none

variable {T B P : Tree} {C : List Frame} {F : Frame}

theorem Orderly.casesFall (h : T.Orderly) : T.CasesFall := by
  intro s hs hk c hc
  obtain ⟨b, v, through, x, rfl⟩ := (h s hs).1 hk c hc
  rfl

theorem casesFall_node {j : Option JumpId} {k : Kind} {l : List Tree} :
    (node i j k l).CasesFall ↔ (k.isSwitch → ∀ c ∈ l, c.jump = none) ∧ ∀ c ∈ l, c.CasesFall := by
  constructor
  · exact fun h ↦ ⟨h _ (mem_nodes_self _), fun c hc s hs ↦
      h s (mem_nodes.mpr (.inr ⟨c, hc, hs⟩))⟩
  · intro h s hs
    rcases mem_nodes.mp hs with rfl | ⟨c, hc, hs⟩
    · exact h.1
    · exact h.2 c hc s hs

theorem CasesFall.of_mem (h : T.CasesFall) (hB : B ∈ T.nodes) : B.CasesFall :=
  fun s hs ↦ h s (nodes_trans hB hs)

theorem CasesFall.not_switch (h : (plug C B).CasesFall) (hB : B.jump ≠ none) :
    ∀ F ∈ C.head?, F.kind.isSwitch = false := by
  intro F hF
  cases C with
  | nil => cases hF
  | cons G C =>
    obtain rfl : G = F := by simpa using hF
    rw [← Bool.not_eq_true]
    intro hk
    have hG : G.fill B ∈ (plug C (G.fill B)).nodes := mem_nodes_plug
    exact hB (h _ hG hk B (mem_children_fill.mpr (.inl rfl)))

theorem CasesFall.plug (h : (plug C B).CasesFall) (hP : P.CasesFall)
    (hj : P.jump = none ∨ P.jump = B.jump) : (Decompile.plug C P).CasesFall := by
  induction C generalizing B P with
  | nil => exact hP
  | cons F C ih =>
    have hF := h.of_mem (show F.fill B ∈ (Decompile.plug C (F.fill B)).nodes from mem_nodes_plug)
    rw [Frame.fill, casesFall_node] at hF
    refine ih h (casesFall_node.mpr ⟨fun hk c hc ↦ ?_, fun c hc ↦ ?_⟩) (.inr rfl)
    · rw [List.mem_append, List.mem_cons] at hc
      rcases hc with hc | rfl | hc
      · exact hF.1 hk c (by simp [hc])
      · rcases hj with hj | hj
        · exact hj
        · exact hj.trans (hF.1 hk B (by simp))
      · exact hF.1 hk c (by simp [hc])
    · rw [List.mem_append, List.mem_cons] at hc
      rcases hc with hc | rfl | hc
      · exact hF.2 c (by simp [hc])
      · exact hP
      · exact hF.2 c (by simp [hc])

theorem CasesFall.withJump (h : T.CasesFall) (j : Option JumpId) : (T.withJump j).CasesFall := by
  cases T
  exact casesFall_node.mpr (casesFall_node.mp h)

theorem InPlaceOf.casesFall {N : Tree} (h : InPlaceOf N B P) (hN : N.CasesFall) (hB : B.CasesFall) :
    P.CasesFall := by
  cases h with
  | instead => exact hN
  | after =>
    refine casesFall_node.mpr ⟨fun h ↦ (by cases h), fun c hc ↦ ?_⟩
    rw [List.mem_pair] at hc
    rcases hc with rfl | rfl
    · exact hB.withJump none
    · exact hN

/-- What takes the place of a jump: `selector = i; continue;` for one to region `i`, a return for
one out of the method. -/
inductive Dispatch (h : Hub) (t : Expressions) (destination : JumpId → FlowId) :
    JumpId → Tree → Prop
  | select {j : JumpId} {i : Nat} {e : ExprId} {q s c : BlockId} {labeled : Bool} :
    h.regions.idxOf? (destination j) = some i → t.assigned? h.selector e = some (i : Int) →
    h.base ≤ s.index → Dispatch h t destination j (.node q none .sequence
      [.node s none (.evaluate e 0) [], .node c none (.continueTo h.looped labeled) []])
  | leave {j : JumpId} {n : BlockId} : h.regions.idxOf? (destination j) = none →
    h.base ≤ n.index → Dispatch h t destination j (.node n none (.returns none) [])

/-- A number of jumps of the tree have given way to what dispatches them. -/
inductive Redirected (h : Hub) (t : Expressions) (destination : JumpId → FlowId) (T : Tree) :
    Tree → Prop
  | refl : Redirected h t destination T T
  | place {C : List Frame} {B N P : Tree} {j : JumpId} :
    Redirected h t destination T (Decompile.plug C B) → B.jump = some j →
    j ∉ (Decompile.plug C (B.withJump none)).jumps → SameCase C B P → h.looped ∉ C.map Frame.id →
    Dispatch h t destination j N → InPlaceOf N B P →
    Redirected h t destination T (Decompile.plug C P)
  /-- A return does not come to its jump. -/
  | drop {C : List Frame} {B : Tree} {j : JumpId} {value : Option ExprId} :
    Redirected h t destination T (Decompile.plug C B) → B.jump = some j →
    j ∉ (Decompile.plug C (B.withJump none)).jumps → B.kind = .returns value →
    Redirected h t destination T (Decompile.plug C (B.withJump none))

variable {h : Hub} {t t' : Expressions} {destination : JumpId → FlowId} {N T' : Tree} {j : JumpId}

theorem Dispatch.mono (hN : Dispatch h t destination j N) (ht : t.Extends t') :
    Dispatch h t' destination j N := by
  cases hN with
  | select hi he hs => exact .select hi (ht.assigned? he) hs
  | leave hi hn => exact .leave hi hn

theorem Dispatch.held (hN : Dispatch h t destination j N) : N.held = [] := by
  cases hN <;> simp [Tree.held]

theorem Dispatch.tidy (hN : Dispatch h t destination j N) : N.Tidy := by
  cases hN with
  | select =>
    refine tidy_node.mpr ⟨fun _ ↦ ⟨rfl, _, _, rfl, rfl, by simp⟩, fun c hc ↦ ?_⟩
    rw [List.mem_pair] at hc
    rcases hc with rfl | rfl <;> exact tidy_leaf (by simp)
  | leave => exact tidy_leaf (by simp)

theorem Dispatch.casesFall (hN : Dispatch h t destination j N) : N.CasesFall := by
  cases hN <;> simp [casesFall_node]

theorem Dispatch.jump_eq (hN : Dispatch h t destination j N) : N.jump = none := by
  cases hN <;> rfl

theorem Redirected.mono (hr : Redirected h t destination T T') (ht : t.Extends t') :
    Redirected h t' destination T T' := by
  induction hr with
  | refl => exact .refl
  | place _ hj halone hsame hw hN hP ih => exact .place ih hj halone hsame hw (hN.mono ht) hP
  | drop _ hj halone hk ih => exact .drop ih hj halone hk

end Tree

section Parts

/-- The blocks of a tree, each with what it does. -/
def Tree.parts (T : Tree) : List (BlockId × Kind) := T.nodes.map fun s ↦ (s.id, s.kind)

/-- What a dispatcher is made of, apart from its regions. -/
inductive Kind.Dispatches (t : Expressions) (selector : LocalId) : Kind → Prop
  | sequence : Dispatches t selector .sequence
  | loop {c : ExprId} {labeled : Bool} : t.get c = .const (.bool true) →
    Dispatches t selector (.loop .whileLoop c none labeled)
  | switch {e : ExprId} : t.get e = .var selector → Dispatches t selector (.switch e false)
  | switchCase {v : CaseValue} : Dispatches t selector (.switchCase v false)
  | continueTo {b : BlockId} {labeled : Bool} : Dispatches t selector (.continueTo b labeled)
  | select {e : ExprId} {n : Int} : t.assigned? selector e = some n →
    Dispatches t selector (.evaluate e 0)
  | leave : Dispatches t selector (.returns none)

variable {h : Hub} {t : Expressions} {destination : JumpId → FlowId} {T T' B N P : Tree}
  {C : List Frame} {j : JumpId} {x : BlockId × Kind}

theorem Tree.mem_parts_node {j : Option JumpId} {k : Kind} {l : List Tree} :
    x ∈ (node i j k l).parts ↔ x = (i, k) ∨ ∃ c ∈ l, x ∈ c.parts := by
  simp [parts, nodes, List.map_flatMap]

theorem Tree.mem_parts_withJump {j : Option JumpId} : x ∈ (T.withJump j).parts ↔ x ∈ T.parts := by
  cases T
  rw [withJump, mem_parts_node, mem_parts_node]

theorem Tree.mem_parts_plug : x ∈ (plug C T).parts ↔
    x ∈ T.parts ∨ ∃ F ∈ C, x = (F.id, F.kind) ∨ ∃ c ∈ F.before ++ F.after, x ∈ c.parts := by
  induction C generalizing T with
  | nil => simp [plug]
  | cons F C ih =>
    have hfill : x ∈ (F.fill T).parts ↔ x ∈ T.parts ∨ x = (F.id, F.kind) ∨
        ∃ c ∈ F.before ++ F.after, x ∈ c.parts := by
      rw [Frame.fill, mem_parts_node]
      grind
    rw [plug, ih, hfill, or_assoc]
    simp only [List.mem_cons, exists_eq_or_imp]

theorem Tree.Dispatch.dispatches (hN : Dispatch h t destination j N) (hx : x ∈ N.parts) :
    x.2.Dispatches t h.selector := by
  cases hN with
  | select _ he =>
    simp only [mem_parts_node, List.mem_pair, List.not_mem_nil, false_and, exists_false, or_false,
      exists_eq_or_imp, exists_eq_left] at hx
    rcases hx with rfl | rfl | rfl
    · exact .sequence
    · exact .select he
    · exact .continueTo
  | leave =>
    simp only [mem_parts_node, List.not_mem_nil, false_and, exists_false, or_false] at hx
    subst hx
    exact .leave

theorem Tree.Redirected.mem_parts (hr : Redirected h t destination T T') (hx : x ∈ T'.parts) :
    x.2.Dispatches t h.selector ∨ x ∈ T.parts := by
  induction hr with
  | refl => exact .inr hx
  | place _ _ _ _ _ hN hP ih =>
    rcases mem_parts_plug.mp hx with hx | hx
    · cases hP with
      | instead => exact .inl (hN.dispatches hx)
      | after q =>
        simp only [mem_parts_node, List.mem_pair, exists_eq_or_imp, exists_eq_left,
          mem_parts_withJump] at hx
        rcases hx with rfl | hx | hx
        · exact .inl .sequence
        · exact ih (mem_parts_plug.mpr (.inl hx))
        · exact .inl (hN.dispatches hx)
    · exact ih (mem_parts_plug.mpr (.inr hx))
  | drop _ _ _ _ ih =>
    refine ih (mem_parts_plug.mpr ?_)
    rwa [mem_parts_plug, mem_parts_withJump] at hx

theorem Hub.mem_parts_caseNodes {T : FlowId → Tree} {n : Nat} {l : List (BlockId × FlowId)}
    {c : Tree} (hc : c ∈ caseNodes T n l) (hx : x ∈ c.parts) :
    x.2.Dispatches t h.selector ∨ ∃ f ∈ l.map (·.2), x ∈ (T f).parts := by
  induction l generalizing n with
  | nil => cases hc
  | cons y l ih =>
    rw [caseNodes, List.mem_cons] at hc
    rcases hc with rfl | hc
    · rw [Tree.mem_parts_node] at hx
      rcases hx with rfl | ⟨c, hc, hx⟩
      · exact .inl .switchCase
      · rw [List.mem_singleton] at hc
        exact .inr ⟨y.2, List.mem_cons_self, hc ▸ hx⟩
    · exact (ih hc).imp_right fun ⟨f, hf, hx⟩ ↦ ⟨f, List.mem_cons_of_mem _ hf, hx⟩

theorem Hub.Reads.mem_parts_tree {T : FlowId → Tree} {labeled : Bool} (hr : h.Reads t)
    (hx : x ∈ (h.tree labeled T).parts) :
    x.2.Dispatches t h.selector ∨ ∃ f ∈ h.regions, x ∈ (T f).parts := by
  simp only [tree, Tree.mem_parts_node, List.mem_cons, List.not_mem_nil, or_false, exists_eq_or_imp,
    exists_eq_left, false_and, exists_false] at hx
  rcases hx with rfl | rfl | rfl | rfl | ⟨c, hc, hx⟩
  · exact .inl .sequence
  · exact .inl (.select hr.start)
  · exact .inl (.loop hr.cond)
  · exact .inl (.switch hr.selected)
  · exact mem_parts_caseNodes hc hx

theorem Hub.held_tree {T : FlowId → Tree} {labeled : Bool} (hT : ∀ f ∈ h.regions, (T f).held = []) :
    (h.tree labeled T).held = [] := by
  have hcases (n : Nat) (l : List (BlockId × FlowId)) (hl : ∀ f ∈ l.map (·.2), (T f).held = []) :
      (caseNodes T n l).flatMap Tree.held = [] := by
    induction l generalizing n with
    | nil => rfl
    | cons y l ih =>
      rw [List.map_cons, List.forall_mem_cons] at hl
      simp [caseNodes, Tree.held, hl.1, ih (n + 1) hl.2]
  simp [tree, Tree.held, hcases 0 h.cases hT]

end Parts

namespace Blocks

variable {t : Blocks} {s s' : Statement} {o : Option BlockId} {T : Tree}

theorem Holds.alloc_pair (h : t.Holds o T) (hn : T.ids.Nodup) (hs : s.children = [])
    (hs' : s'.children = []) :
    (((t.alloc s).1.alloc s').1.alloc (.sequence ⟨t.size⟩ ⟨t.size + 1⟩)).1.Holds o T := by
  refine ((h.alloc hn (by simp [hs])).alloc hn (by simp [hs'])).alloc hn fun c hc hc' ↦ ?_
  have hlt := h.lt_of_mem_ids hc'
  rcases List.mem_pair.mp hc with rfl | rfl <;> simp at hlt

theorem holds_alloc_pair (hs : s.children = []) (hs' : s'.children = []) :
    (((t.alloc s).1.alloc s').1.alloc (.sequence ⟨t.size⟩ ⟨t.size + 1⟩)).1.Holds none
      (.node ⟨t.size + 2⟩ none .sequence
        [.node ⟨t.size⟩ none s.kind [], .node ⟨t.size + 1⟩ none s'.kind []]) := by
  have h := holds_alloc_leaf (t := t) hs
  have h₁ : ((t.alloc s).1.alloc s').1.Holds none (.node ⟨t.size⟩ none s.kind []) :=
    h.alloc (by simp [Tree.ids]) (by simp [hs'])
  have h₂ := holds_alloc_leaf (t := (t.alloc s).1) hs'
  rw [size_alloc] at h₂
  have h₃ := holds_alloc (t := ((t.alloc s).1.alloc s').1) (s := .sequence ⟨t.size⟩ ⟨t.size + 1⟩)
    (l := [.node ⟨t.size⟩ none s.kind [], .node ⟨t.size + 1⟩ none s'.kind []]) rfl ?_ ?_
  · rw [size_alloc, size_alloc] at h₃
    exact h₃
  · intro c hc
    rw [List.mem_pair] at hc
    rcases hc with rfl | rfl
    · exact ⟨none, h₁⟩
    · exact ⟨none, h₂⟩
  · simp [Tree.ids]

end Blocks

namespace Analysis

variable {a a₀ : Analysis} {C : List Frame} {F : Frame} {B N : Tree} {f g d : FlowId} {j : JumpId}
  {h : Hub} {T : FlowId → Tree}

variable {o : Option BlockId} {t : Blocks} {l : List FlowId}

section Inside

theorem placeOf_inside (hat : a.blocks.At (F :: C) B) (f : FlowId) :
    a.placeOf B.id = placeAt (F :: C) f := by
  have houter : a.outer B.id = some F.id := hat.holds.outer
  rw [placeOf, houter]
  rfl

/-- A loose tree takes the place of a jump below the root of a tree. -/
theorem replaceJumpWith_inside (hat : a.blocks.At C B) (hC : C ≠ []) (hl : a.blocks.Linked)
    (hB : B.jump = some j) (hsource : (a.jump j).source = B.id) (hk : B.kind ≠ .sequence)
    (hN : a.blocks.Holds o N) (hNn : N.ids.Nodup) (hd : N.ids.Disjoint (plug C B).ids)
    (f : FlowId) :
    ∃ P t, Tree.InPlaceOf N B P ∧
      Blocks.Grafted (· ∈ N.ids) (plug C B) (plug C P) a.blocks t ∧
      a.replaceJumpWith f j N.id = { a with blocks := t, graph := a.graph.unlinkJump f j } := by
  obtain ⟨F, C, rfl⟩ := List.exists_cons_of_ne_nil hC
  have hset := hat.setJump hl none
  have hat' := Blocks.At.of_holds hset.holds hset.nodup
  have hids : (plug (F :: C) (B.withJump none)).ids.Perm (plug (F :: C) B).ids := by
    refine (ids_plug _ _).trans (.trans ?_ (ids_plug _ _).symm)
    rw [Tree.ids_withJump]
  have hBN : B.id ∉ N.ids := fun hb ↦
    hd hb (mem_ids_plug.mpr (.inl B.id_mem_ids))
  have hN' : (a.blocks.setJump B.id none).Holds o N := hN.modify hNn hBN _
  have hd' : N.ids.Disjoint (plug (F :: C) (B.withJump none)).ids := fun b hb hb' ↦
    hd hb (hids.mem_iff.mp hb')
  have hid : (B.withJump none).id = B.id := B.id_withJump none
  have hfresh : ∀ {t : Blocks} {P : Tree}, Blocks.Grafted (· ∈ N.ids) (plug (F :: C)
      (B.withJump none)) P (a.blocks.setJump B.id none) t →
      Blocks.Grafted (· ∈ N.ids) (plug (F :: C) B) P a.blocks t := fun hg ↦
    (hset.mono fun _ hb ↦ False.elim hb).trans hg fun _ hb ↦ .inr (.inl hb)
  rw [Analysis.replaceJumpWith, removeJump_eq hat.holds hB hsource f, hsource]
  set a₁ : Analysis := { a.setJumpOf B.id none with graph := a.graph.unlinkJump f j } with ha₁
  have hplace : a₁.placeOf B.id = placeAt (F :: C) f := hid ▸ placeOf_inside hat' f
  have hempty : a₁.statement B.id = .empty ↔ B.kind = .empty ∧ B.children = [] := by
    simpa using statement_eq_empty (a := a₁) hat'.holds
  split
  next he =>
    rw [hempty] at he
    refine ⟨N, _, .instead he.1 he.2, hfresh (hat'.replace hset.linked hN' hNn hd'), ?_⟩
    rw [replaceBlock, hplace, hid]
    rfl
  next he =>
    rw [hempty] at he
    have htail : a₁.blocks.chainTail B.id = B.id :=
      hid ▸ chainTail_eq hat' (by simpa using hk)
    have hjump : a₁.jumpOf B.id = none := hid ▸ hat'.holds.jump.trans (B.jump_withJump none)
    simp only [htail, hjump]
    refine ⟨_, _, .after _ he, hfresh (hat'.append hset.linked hN' hNn hd'), ?_⟩
    rw [wrapSequential, hplace, hid]
    rfl

theorem alloc_eq (a : Analysis) (s : Statement) :
    a.alloc s = ({ a with blocks := (a.blocks.alloc s).1 }, ⟨a.blocks.size⟩) := rfl

theorem alloc_pair (a : Analysis) (s s' : Statement) :
    ((a.alloc s).1.alloc s').1.alloc (.sequence (a.alloc s).2 ((a.alloc s).1.alloc s').2) =
      ({ a with blocks := (((a.blocks.alloc s).1.alloc s').1.alloc
        (.sequence ⟨a.blocks.size⟩ ⟨a.blocks.size + 1⟩)).1 }, ⟨a.blocks.size + 2⟩) := by
  simp only [Analysis.alloc, Blocks.id_alloc, Blocks.size_alloc]

theorem allocSelect_eq (a : Analysis) (x : LocalId) (i : Nat) :
    ∃ t e, a.exprs.Extends t ∧ t.assigned? x e = some (i : Int) ∧
      a.allocSelect x i = { a with exprs := t }.alloc (.evaluate e 0) := by
  let r₁ := a.exprs.alloc (.var x)
  let r₂ := r₁.1.alloc (.const (.int i))
  let r₃ := r₂.1.alloc (.assign r₁.2 none r₂.2)
  have h₁ := Expressions.extends_alloc a.exprs (.var x)
  have h₂ := Expressions.extends_alloc r₁.1 (.const (.int i))
  have h₃ := Expressions.extends_alloc r₂.1 (.assign r₁.2 none r₂.2)
  refine ⟨r₃.1, r₃.2, (h₁.trans h₂).trans h₃, Expressions.assigned?_eq_some.mpr
    ⟨r₁.2, r₂.2, Expressions.get_alloc_self .., ?_, ?_⟩, rfl⟩
  · exact (h₂.trans h₃).get_eq (Expressions.get_alloc_self ..) fun h ↦ by cases h
  · exact h₃.get_eq (Expressions.get_alloc_self ..) fun h ↦ by cases h

end Inside

/-- The regions hang in the dispatcher. Some of their jumps have been redirected, the others are
in the graph. -/
structure Dispatched (h : Hub) (a₀ : Analysis) (T : FlowId → Tree) (a : Analysis) : Prop where
  holds : ∃ labeled, a.blocks.Holds none (h.tree labeled T)
  nodup : (h.tree false T).ids.Nodup
  blocks : a.blocks.Linked
  base : h.base ≤ a.blocks.size
  linked : a.graph.Linked
  relinked : a₀.graph.Relinked a.graph
  frame : a.frame = a₀.frame
  exprs : a₀.exprs.Extends a.exprs
  reads : h.Reads a.exprs
  thinned : ∀ f j, j ∈ a.graph.listed f → j ∈ a₀.graph.listed f
  holding : ∀ f ∈ h.regions, ∀ b j,
    (b, j) ∈ (T f).held ↔ j ∈ a.graph.listed f ∧ (a.jump j).source = b
  tidy : ∀ f ∈ h.regions, (T f).Tidy
  casesFall : ∀ f ∈ h.regions, (T f).CasesFall
  redirected : ∀ f ∈ h.regions,
    Tree.Redirected h a.exprs (fun j ↦ (a₀.jump j).destination) (a₀.tree f) (T f)

namespace Dispatched

variable (hd : Dispatched h a₀ T a) (hs : a₀.Sound) (hlive : ∀ f, f ∈ h.regions ↔ a₀.Live f)
  (hn : h.regions.Nodup)

section Step

include hd

theorem unique_holder (hf : f ∈ h.regions) (hT : T f = plug C B) (hB : B.jump = some j) :
    j ∈ a.graph.listed f ∧ (a.jump j).source = B.id ∧
      (∀ b i, (b, i) ∈ (plug C (B.withJump none)).held ↔ (b, i) ∈ (T f).held ∧ i ≠ j) := by
  have hB' := (hd.holding f hf B.id j).mp
    (Tree.mem_held.mpr ⟨B, hT ▸ mem_nodes_plug, rfl, hB⟩)
  refine ⟨hB'.1, hB'.2, fun b i ↦ ?_⟩
  obtain ⟨l, c, r, hc⟩ := Hub.exists_cases hf
  have hn := hd.nodup
  rw [Hub.tree_eq_plug hc, nodup_plug, hT] at hn
  rw [hT, Tree.mem_held_withJump_none hn.1 hB fun b hb ↦ ?_]
  rw [← hT, hd.holding f hf] at hb
  exact hb.2.symm.trans hB'.2

include hn in
theorem exists_at {labeled : Bool} (hf : f ∈ h.regions) (hT : T f = plug C B)
    (ht : t.Holds none (h.tree labeled T)) :
    ∃ D, t.At (C ++ D) B ∧ h.tree labeled T = plug (C ++ D) B ∧ h.looped ∈ D.flatMap Frame.ids ∧
      ∀ P, h.tree labeled (Function.update T f (plug C P)) = plug (C ++ D) P := by
  obtain ⟨l, c, r, hc⟩ := Hub.exists_cases hf
  have htree : h.tree labeled T = plug (C ++ h.frames labeled T l c r) B := by
    rw [Hub.tree_eq_plug hc, hT, plug_append]
  refine ⟨h.frames labeled T l c r, .of_holds (htree ▸ ht) ?_, htree,
    by simp [Hub.frames, Frame.ids], fun P ↦ by rw [Hub.tree_update hc hn, plug_append]⟩
  rw [← htree, Hub.ids_tree]
  exact hd.nodup

theorem label (p : Prop) [Decidable p] :
    ∃ t labeled, (if p then a.setLabeled h.looped else a) = { a with blocks := t } ∧
      a.blocks.size ≤ t.size ∧ t.Linked ∧ t.Holds none (h.tree labeled T) := by
  obtain ⟨labeled, hholds⟩ := hd.holds
  split
  · let C : List Frame := [⟨h.root, none, .sequence, [.node h.init none (.evaluate h.start 0) []], []⟩]
    let B : Tree := .node h.looped none (.loop .whileLoop h.cond none labeled)
      [.node h.switch none (.switch h.selected false) (Hub.caseNodes T 0 h.cases)]
    have htree : h.tree labeled T = plug C B := rfl
    have hat : a.blocks.At C B := by
      refine .of_holds (htree ▸ hholds) ?_
      rw [← htree, Hub.ids_tree]
      exact hd.nodup
    have hgraft := hat.setStatement hd.blocks
      (s := (a.blocks.statement h.looped).setLabeled) (by
        rw [Statement.children_setLabeled]
        exact hat.holds.children)
    have hkind : (a.blocks.statement h.looped).kind = B.kind := hat.holds.kind
    refine ⟨_, true, rfl, hgraft.off.size_le, hgraft.linked, ?_⟩
    have := hgraft.holds
    rw [Statement.kind_setLabeled, hkind] at this
    exact this
  · exact ⟨a.blocks, labeled, rfl, le_rfl, hd.blocks, hholds⟩

include hs hlive

theorem mem_listed_unlinkJump (hj : j ∈ a.graph.listed f) (hf : f ∈ h.regions) :
    (a.graph.unlinkJump f j).Linked ∧
      ∀ g i, i ∈ (a.graph.unlinkJump f j).listed g ↔ i ∈ a.graph.listed g ∧ i ≠ j := by
  have hf' := (hlive f).mp hf
  have hsize := hd.relinked.flows_size
  obtain ⟨hl, -, hlisted⟩ := hd.linked.mem_listed_unlinkJump (hsize ▸ hf'.1)
    (hs.wellFormed.proper f hf') (by
      rw [hsize, hd.relinked.destination]
      exact hs.wellFormed.range j) hj
  exact ⟨hl, hlisted⟩

variable {u : Analysis}

/-- One jump is out of the graph and of the tree of its region. -/
theorem unlink {P : Tree} {labeled : Bool} (hf : f ∈ h.regions) (hj : j ∈ a.graph.listed f)
    (hu : u.blocks.Holds none (h.tree labeled (Function.update T f P)))
    (hun : (h.tree labeled (Function.update T f P)).ids.Nodup) (hul : u.blocks.Linked)
    (hsize : a.blocks.size ≤ u.blocks.size) (hgraph : u.graph = a.graph.unlinkJump f j)
    (hframe : u.frame = a.frame) (hexprs : a.exprs.Extends u.exprs)
    (hheld : ∀ b i, (b, i) ∈ P.held ↔ (b, i) ∈ (T f).held ∧ i ≠ j) (htidy : P.Tidy)
    (hcases : P.CasesFall)
    (hred : Tree.Redirected h u.exprs (fun j ↦ (a₀.jump j).destination) (a₀.tree f) P) :
    Dispatched h a₀ (Function.update T f P) u := by
  obtain ⟨hl, hlisted⟩ := hd.mem_listed_unlinkJump hs hlive hj hf
  have hre := FlowGraph.Relinked.unlinkJump a.graph f j
  have hsource : ∀ i, (u.jump i).source = (a.jump i).source := fun i ↦ by
    rw [jump, hgraph]
    exact hre.source i
  exact
    { holds := ⟨labeled, hu⟩
      nodup := Hub.ids_tree ▸ hun
      blocks := hul
      base := hd.base.trans hsize
      linked := hgraph ▸ hl
      relinked := hgraph ▸ hd.relinked.trans hre
      frame := hframe.trans hd.frame
      exprs := hd.exprs.trans hexprs
      reads := hd.reads.mono hexprs
      thinned := fun g i hi ↦ by
        rw [hgraph, hlisted] at hi
        exact hd.thinned g i hi.1
      holding := by
        refine Hub.forall_update (p := fun g S ↦ ∀ b i, (b, i) ∈ S.held ↔
          i ∈ u.graph.listed g ∧ (u.jump i).source = b) (fun b i ↦ ?_) fun g hg hgf b i ↦ ?_
        · rw [hheld, hd.holding f hf, hgraph, hlisted, hsource]
          tauto
        · have hij : i ∈ a.graph.listed g → i ≠ j := by
            rintro hi rfl
            exact hgf (hd.linked.own _ _ _ _ i (hd.linked.mem_listed.mp hi)
              (hd.linked.mem_listed.mp hj))
          rw [hd.holding g hg, hgraph, hlisted, hsource]
          tauto
      tidy := Hub.forall_update htidy fun g hg _ ↦ hd.tidy g hg
      casesFall := Hub.forall_update hcases fun g hg _ ↦ hd.casesFall g hg
      redirected := Hub.forall_update hred fun g hg _ ↦ (hd.redirected g hg).mono hexprs }

include hn

/-- A loose tree that dispatches a jump takes its place. -/
theorem replace {labeled : Bool} (hf : f ∈ h.regions) (hT : T f = plug C B) (hB : B.jump = some j)
    (hu : u.blocks.Holds none (h.tree labeled T)) (hul : u.blocks.Linked)
    (hsize : a.blocks.size ≤ u.blocks.size) (hgraph : u.graph = a.graph)
    (hframe : u.frame = a.frame) (hexprs : a.exprs.Extends u.exprs) (hN : u.blocks.Holds o N)
    (hNn : N.ids.Nodup) (hNd : N.ids.Disjoint (h.tree labeled T).ids)
    (hdisp : Tree.Dispatch h u.exprs (fun j ↦ (a₀.jump j).destination) j N) :
    ∃ P, Dispatched h a₀ (Function.update T f P) (u.replaceJumpWith f j N.id) ∧
      (u.replaceJumpWith f j N.id).graph = a.graph.unlinkJump f j := by
  obtain ⟨hj, hsource, hheld⟩ := hd.unique_holder hf hT hB
  obtain ⟨D, hat, htree, hD, htree'⟩ := hd.exists_at hn hf hT hu
  have htidy : (plug C B).Tidy := hT ▸ hd.tidy f hf
  have hfall : (plug C B).CasesFall := hT ▸ hd.casesFall f hf
  have hk : B.kind ≠ .sequence := fun hk ↦ by
    have := (htidy B mem_nodes_plug hk).1
    simp [hB] at this
  have hjump : B.jump ≠ none := by simp [hB]
  have hne : C ++ D ≠ [] := fun hnil ↦ by simp [(List.append_eq_nil_iff.mp hnil).2] at hD
  obtain ⟨P, t, hP, hgraft, heq⟩ := replaceJumpWith_inside hat hne hul hB
    (by rw [jump, hgraph]; exact hsource) hk hN hNn (htree ▸ hNd) f
  rw [heq, hgraph]
  have hheld' : ∀ b i, (b, i) ∈ (plug C P).held ↔ (b, i) ∈ (T f).held ∧ i ≠ j := by
    intro b i
    rw [← hheld, mem_held_plug, mem_held_plug, hP.mem_held hdisp.held]
  have hloop : h.looped ∉ C.map Frame.id := fun hw ↦ by
    have hdis := hat.frames_nodup
    rw [List.flatMap_append, List.nodup_append] at hdis
    exact hdis.2.2 _ ((Blocks.map_id_sublist C).subset hw) h.looped hD rfl
  refine ⟨plug C P, hd.unlink hs hlive hf hj (htree' P ▸ hgraft.holds)
    (htree' P ▸ hgraft.nodup) hgraft.linked (hsize.trans hgraft.off.size_le) rfl hframe hexprs hheld'
    (htidy.plug (hP.tidy hdisp.tidy htidy.of_plug hk) fun hp ↦ absurd hp.1 hjump)
    (hfall.plug (hP.casesFall hdisp.casesFall (hfall.of_mem mem_nodes_plug)) (.inl ?_))
    (.place (hT ▸ (hd.redirected f hf).mono hexprs) hB (fun hmem ↦ ?_) (fun F hF hF' ↦ ?_)
      hloop hdisp hP), rfl⟩
  · cases hP with
    | instead => exact hdisp.jump_eq
    | after => rfl
  · obtain ⟨b, hb⟩ := Tree.mem_jumps.mp hmem
    exact ((hheld b j).mp hb).2 rfl
  · simp [hfall.not_switch hjump F hF] at hF'

theorem drop {value : Option ExprId} (hf : f ∈ h.regions) (hT : T f = plug C B)
    (hB : B.jump = some j) (hk : B.kind = .returns value) :
    ∃ P, Dispatched h a₀ (Function.update T f P) (a.removeJump f j) ∧
      (a.removeJump f j).graph = a.graph.unlinkJump f j := by
  obtain ⟨hj, hsource, hheld⟩ := hd.unique_holder hf hT hB
  obtain ⟨labeled, hholds⟩ := hd.holds
  obtain ⟨D, hat, -, -, htree'⟩ := hd.exists_at hn hf hT hholds
  have htidy : (plug C B).Tidy := hT ▸ hd.tidy f hf
  have hfall : (plug C B).CasesFall := hT ▸ hd.casesFall f hf
  have hgraft := hat.setJump hd.blocks none
  rw [removeJump_eq hat.holds hB hsource f]
  refine ⟨plug C (B.withJump none), hd.unlink hs hlive hf hj
    (htree' (B.withJump none) ▸ hgraft.holds) (htree' (B.withJump none) ▸ hgraft.nodup)
    hgraft.linked hgraft.off.size_le rfl rfl
    (.refl _) hheld (htidy.plug htidy.of_plug.withJump_none fun hp ↦ by simp [Tree.Plain, hB] at hp)
    (hfall.plug ((hfall.of_mem mem_nodes_plug).withJump none) (.inl (B.jump_withJump none)))
    (.drop (hT ▸ hd.redirected f hf) hB (fun hmem ↦ ?_) hk), rfl⟩
  obtain ⟨b, hb⟩ := Tree.mem_jumps.mp hmem
  exact ((hheld b j).mp hb).2 rfl

theorem dispatchJump (hf : f ∈ h.regions) (hj : j ∈ a.graph.jumpsTo f d) :
    ∃ T', Dispatched h a₀ T' (dispatchJump h.regions h.selector h.looped f d a j) ∧
      (dispatchJump h.regions h.selector h.looped f d a j).graph = a.graph.unlinkJump f j := by
  have hlisted := hd.linked.mem_listed_of_mem hj
  have hdest : (a₀.jump j).destination = d :=
    (hd.relinked.destination j).symm.trans (hd.linked.destination hj)
  obtain ⟨B, hB, hid, hjump⟩ := Tree.mem_held.mp ((hd.holding f hf _ j).mpr ⟨hlisted, rfl⟩)
  obtain ⟨C, hC⟩ := exists_plug hB
  rw [Analysis.dispatchJump, ← hid]
  split
  next i hi =>
    obtain ⟨t, labeled, ha, hsize, hl, hholds⟩ :=
      hd.label (a.blocks.innermostLoop B.id ≠ some h.looped)
    obtain ⟨t', e, hexprs, he, hselect⟩ := allocSelect_eq { a with blocks := t } h.selector i
    simp only [ha, hselect, alloc_pair]
    let s' : Statement := .continueTo h.looped (a.blocks.innermostLoop B.id ≠ some h.looped)
    have hn' : (h.tree labeled T).ids.Nodup := Hub.ids_tree ▸ hd.nodup
    have hs' : s'.children = [] := rfl
    have hN := Blocks.holds_alloc_pair (t := t) (s := .evaluate e 0) rfl hs'
    have hapart : (Tree.node ⟨t.size + 2⟩ none .sequence
        [.node ⟨t.size⟩ none (.evaluate e 0) [], .node ⟨t.size + 1⟩ none s'.kind []]).ids.Disjoint
        (h.tree labeled T).ids := by
      intro b hb hb'
      have hlt := hholds.lt_of_mem_ids hb'
      have hb : b = ⟨t.size + 2⟩ ∨ b = ⟨t.size⟩ ∨ b = ⟨t.size + 1⟩ := by simpa [Tree.ids] using hb
      rcases hb with rfl | rfl | rfl <;> simp at hlt
    obtain ⟨P, hP⟩ := hd.replace hs hlive hn hf hC hjump
      (u := { a with
        blocks := (((t.alloc (.evaluate e 0)).1.alloc s').1.alloc
          (.sequence ⟨t.size⟩ ⟨t.size + 1⟩)).1
        exprs := t' })
      (hholds.alloc_pair hn' rfl rfl) (((hl.alloc _).alloc _).alloc _) (by simp; omega) rfl rfl
      hexprs hN (by simp [Tree.ids]) hapart (.select (hdest ▸ hi) he (hd.base.trans hsize))
    exact ⟨_, hP⟩
  next hi =>
    -- The jump leads to no region, so it leads out of the method.
    have hend : d = .endOfMethod := by
      have hkey : d ∈ a₀.graph.keys f := by
        have hj₀ := hs.wellFormed.linked.mem_listed.mp (hd.thinned f j hlisted)
        rw [← hdest]
        exact hs.wellFormed.linked.jumpsTo_ne_nil.mp (List.ne_nil_of_mem hj₀)
      refine (hs.leads f d hkey).resolve_left fun hlive' ↦ ?_
      rw [List.idxOf?_eq_none_iff] at hi
      exact hi ((hlive d).mpr hlive')
    obtain ⟨labeled, hholds⟩ := hd.holds
    have hn' : (h.tree labeled T).ids.Nodup := Hub.ids_tree ▸ hd.nodup
    have hkind : (a.statement B.id).kind = B.kind := by
      obtain ⟨D, hat, -⟩ := hd.exists_at hn hf hC hholds
      exact hat.holds.kind
    split
    · have hapart : (Tree.node ⟨a.blocks.size⟩ none (.returns none) []).ids.Disjoint
          (h.tree labeled T).ids := by
        intro b hb hb'
        have hlt := hholds.lt_of_mem_ids hb'
        obtain rfl : b = ⟨a.blocks.size⟩ := by simpa [Tree.ids] using hb
        simp at hlt
      obtain ⟨P, hP⟩ := hd.replace hs hlive hn hf hC hjump
        (u := (a.alloc (.returns none)).1) (hholds.alloc hn' (by simp [Statement.children]))
        (hd.blocks.alloc _) (by simp [Analysis.alloc]) rfl rfl (.refl _)
        (Blocks.holds_alloc_leaf rfl) (by simp [Tree.ids]) hapart (.leave (hdest ▸ hi) hd.base)
      exact ⟨_, hP⟩
    next hret =>
      obtain ⟨value, hvalue⟩ : ∃ value, a.statement B.id = .returns value := by
        cases hst : a.statement B.id <;> simp [hst, hend, Statement.isReturn] at hret ⊢
      obtain ⟨P, hP⟩ := hd.drop hs hlive hn hf hC hjump
        (show B.kind = .returns value by rw [← hkind, hvalue]; rfl)
      exact ⟨_, hP⟩

theorem dispatchEach {js : List JumpId} (hf : f ∈ h.regions) (hjs : js.Nodup)
    (hto : ∀ j ∈ js, j ∈ a.graph.listed f ∧ (a.jump j).destination = d) :
    let a' := js.foldl (Analysis.dispatchJump h.regions h.selector h.looped f d) a
    ∃ T', Dispatched h a₀ T' a' ∧
      ∀ g i, i ∈ a'.graph.listed g ↔ i ∈ a.graph.listed g ∧ i ∉ js := by
  induction js generalizing a T with
  | nil => exact ⟨T, hd, by simp⟩
  | cons j js ih =>
    rw [List.nodup_cons] at hjs
    rw [List.forall_mem_cons] at hto
    have hj : j ∈ a.graph.jumpsTo f d := hto.1.2 ▸ hd.linked.mem_listed.mp hto.1.1
    obtain ⟨T₁, hd₁, hg⟩ := hd.dispatchJump hs hlive hn hf hj
    obtain ⟨-, hlisted⟩ := hd.mem_listed_unlinkJump hs hlive hto.1.1 hf
    obtain ⟨T₂, hd₂, hl⟩ := ih hd₁ hjs.2 fun i hi ↦ by
      rw [jump, hg, hlisted, (FlowGraph.Relinked.unlinkJump a.graph f j).destination]
      refine ⟨⟨(hto.2 i hi).1, ?_⟩, (hto.2 i hi).2⟩
      rintro rfl
      exact hjs.1 hi
    refine ⟨T₂, hd₂, fun g i ↦ ?_⟩
    rw [List.foldl_cons, hl, hg, hlisted, List.mem_cons]
    tauto

theorem dispatchTo (hf : f ∈ h.regions) (ds : List FlowId) :
    let a' := ds.foldl (fun a d ↦ (a.graph.jumpsTo f d).foldl
      (Analysis.dispatchJump h.regions h.selector h.looped f d) a) a
    ∃ T', Dispatched h a₀ T' a' ∧ (∀ g i, i ∈ a'.graph.listed g → i ∈ a.graph.listed g) ∧
      ∀ i ∈ a'.graph.listed f, (a₀.jump i).destination ∉ ds := by
  induction ds generalizing a T with
  | nil => exact ⟨T, hd, fun _ _ ↦ id, by simp⟩
  | cons d ds ih =>
    obtain ⟨T₁, hd₁, hl₁⟩ := hd.dispatchEach hs hlive hn hf
      (hd.linked.nodup_jumpsTo) fun j hj ↦
        ⟨hd.linked.mem_listed_of_mem hj, hd.linked.destination hj⟩
    obtain ⟨T₂, hd₂, hsub, hgone⟩ := ih hd₁
    refine ⟨T₂, hd₂, fun g i hi ↦ ((hl₁ g i).mp (hsub g i hi)).1, fun i hi ↦ ?_⟩
    rw [List.mem_cons, not_or]
    refine ⟨fun hid ↦ ?_, hgone i hi⟩
    obtain ⟨hi', hne⟩ := (hl₁ f i).mp (hsub f i hi)
    rw [hd.linked.mem_listed, hd.relinked.destination] at hi'
    exact hne (hid ▸ hi')

theorem dispatchJumps (hf : f ∈ h.regions) :
    let a' := Analysis.dispatchJumps h.regions h.selector h.looped a f
    ∃ T', Dispatched h a₀ T' a' ∧ (∀ g i, i ∈ a'.graph.listed g → i ∈ a.graph.listed g) ∧
      a'.graph.listed f = [] := by
  obtain ⟨T', hd', hsub, hgone⟩ := hd.dispatchTo hs hlive hn hf (a.graph.successorsOf f)
  refine ⟨T', hd', hsub, List.eq_nil_iff_forall_not_mem.mpr fun i hi ↦ hgone i hi ?_⟩
  rw [FlowGraph.successorsOf, List.mem_mergeSort, Analysis.jump, ← hd.relinked.destination]
  exact hd.linked.jumpsTo_ne_nil.mp
    (List.ne_nil_of_mem (hd.linked.mem_listed.mp (hsub f i hi)))

theorem dispatchAll (hl : ∀ f ∈ l, f ∈ h.regions) :
    let a' := l.foldl (Analysis.dispatchJumps h.regions h.selector h.looped) a
    ∃ T', Dispatched h a₀ T' a' ∧ (∀ g i, i ∈ a'.graph.listed g → i ∈ a.graph.listed g) ∧
      ∀ f ∈ l, a'.graph.listed f = [] := by
  induction l generalizing a T with
  | nil => exact ⟨T, hd, fun _ _ ↦ id, by simp⟩
  | cons f l ih =>
    rw [List.forall_mem_cons] at hl
    obtain ⟨T₁, hd₁, hsub₁, hgone₁⟩ := hd.dispatchJumps hs hlive hn hl.1
    obtain ⟨T₂, hd₂, hsub₂, hgone₂⟩ := ih hd₁ hl.2
    refine ⟨T₂, hd₂, fun g i hi ↦ hsub₁ g i (hsub₂ g i hi),
      List.forall_mem_cons.mpr ⟨List.eq_nil_iff_forall_not_mem.mpr fun i hi ↦ ?_, hgone₂⟩⟩
    have hi' := hsub₂ f i hi
    rw [hgone₁] at hi'
    cases hi'

end Step

end Dispatched

section Setup

/-- Each region is in a case of its own, and nothing else has changed. -/
theorem exists_allocRegions (n : Nat) (hl : a.blocks.Linked)
    (hT : ∀ f ∈ l, a.blocks.Holds none (T f)) (hroot : ∀ f ∈ l, (T f).id = a.root f)
    (hn : (l.flatMap fun f ↦ (T f).ids).Nodup) :
    ∃ t cs, a.allocRegions n l = ({ a with blocks := t }, cs.map (·.1)) ∧ cs.map (·.2) = l ∧
      a.blocks.size ≤ t.size ∧ t.Linked ∧
      (∀ o X, a.blocks.Holds o X → X.ids.Nodup → (∀ f ∈ l, (T f).id ∉ X.ids) → t.Holds o X) ∧
      (∀ c ∈ Hub.caseNodes T n cs, t.Holds none c) ∧
      ((Hub.caseNodes T n cs).flatMap Tree.ids).Nodup ∧
      ∀ b ∈ (Hub.caseNodes T n cs).flatMap Tree.ids,
        b ∈ l.flatMap (fun f ↦ (T f).ids) ∨ a.blocks.size ≤ b.index := by
  induction l generalizing a n with
  | nil => exact ⟨a.blocks, [], rfl, rfl, le_rfl, hl, fun _ _ h _ _ ↦ h, by simp [Hub.caseNodes],
      by simp [Hub.caseNodes], by simp [Hub.caseNodes]⟩
  | cons f l ih =>
    have hlt : ∀ g ∈ f :: l, ∀ b ∈ (T g).ids, b.index < a.blocks.size := fun g hg b hb ↦
      (hT g hg).lt_of_mem_ids hb
    rw [List.forall_mem_cons] at hT hroot
    rw [List.flatMap_cons, List.nodup_append] at hn
    let s : Statement := .switchCase (.value n) (a.root f) false
    let a₁ := (a.alloc s).1
    have hapart : ∀ g ∈ l, (T f).id ∉ (T g).ids := fun g hg hmem ↦
      hn.2.2 _ (T f).id_mem_ids _ (List.mem_flatMap.mpr ⟨g, hg, hmem⟩) rfl
    have hnodup : ∀ g ∈ l, (T g).ids.Nodup := fun g hg ↦ (List.nodup_flatMap.mp hn.2.1).1 g hg
    have hkeep : ∀ o X, a.blocks.Holds o X → X.ids.Nodup → (T f).id ∉ X.ids →
        a₁.blocks.Holds o X := fun o X hX hXn hf ↦ hX.alloc hXn (by
      simpa [s, Statement.children, ← hroot.1] using hf)
    obtain ⟨t, cs, he, hcs, hsize, hlinked, hrest, hcases, hcn, hfresh⟩ := ih (n + 1)
      (hl.alloc s) (fun g hg ↦ hkeep _ _ (hT.2 g hg) (hnodup g hg) (hapart g hg)) hroot.2 hn.2.1
    have hfirst : a₁.blocks.Holds none
        (.node ⟨a.blocks.size⟩ none (.switchCase (.value n) false) [T f]) :=
      Blocks.holds_alloc (by simp [s, Statement.children, hroot.1])
        (by simpa using ⟨none, hT.1⟩) (by simpa using hn.1)
    have hids : (Tree.node ⟨a.blocks.size⟩ none (.switchCase (.value n) false) [T f]).ids =
        ⟨a.blocks.size⟩ :: (T f).ids := by simp [Tree.ids]
    have hnew : ∀ g ∈ f :: l, ⟨a.blocks.size⟩ ∉ (T g).ids := fun g hg hb ↦ (hlt g hg _ hb).false
    have hfn : (⟨a.blocks.size⟩ :: (T f).ids : List BlockId).Nodup :=
      List.nodup_cons.mpr ⟨hnew f (by simp), hn.1⟩
    have hsize₁ : a₁.blocks.size = a.blocks.size + 1 := Blocks.size_alloc ..
    refine ⟨t, (⟨a.blocks.size⟩, f) :: cs, ?_, by rw [List.map_cons, hcs], by omega, hlinked,
      fun o X hX hXn hX' ↦ ?_, ?_, ?_, ?_⟩
    · simp only [allocRegions]
      rw [show (a.alloc s).1.allocRegions (n + 1) l = _ from he]
      rfl
    · rw [List.forall_mem_cons] at hX'
      exact hrest o X (hkeep o X hX hXn hX'.1) hXn hX'.2
    · refine List.forall_mem_cons.mpr ⟨hrest none _ hfirst (hids ▸ hfn) fun g hg hmem ↦ ?_, hcases⟩
      rw [hids, List.mem_cons] at hmem
      rcases hmem with hmem | hmem
      · exact hnew g (by simp [hg]) (hmem ▸ (T g).id_mem_ids)
      · exact hn.2.2 _ hmem _ (List.mem_flatMap.mpr ⟨g, hg, (T g).id_mem_ids⟩) rfl
    · rw [Hub.caseNodes, List.flatMap_cons, hids, List.nodup_append]
      refine ⟨hfn, hcn, ?_⟩
      rintro b hb b' hb' rfl
      rw [List.mem_cons] at hb
      rcases hb with rfl | hb
      · rcases hfresh _ hb' with hb' | hb'
        · obtain ⟨g, hg, hb'⟩ := List.mem_flatMap.mp hb'
          exact hnew g (by simp [hg]) hb'
        · exact absurd (hsize₁ ▸ hb') (by simp)
      · rcases hfresh b hb' with hb' | hb'
        · exact hn.2.2 b hb b hb' rfl
        · have := hlt f (by simp) b hb
          omega
    · intro b hb
      rw [Hub.caseNodes, List.flatMap_cons, hids, List.mem_append, List.mem_cons] at hb
      rw [List.flatMap_cons, List.mem_append]
      rcases hb with (rfl | hb) | hb
      · exact .inr le_rfl
      · exact .inl (.inl hb)
      · rcases hfresh b hb with hb | hb
        · exact .inl (.inr hb)
        · exact .inr (by omega)

/-- The dispatcher is made from the inside to the outside. -/
theorem holds_hub (hcases : ∀ c ∈ Hub.caseNodes T 0 h.cases, t.Holds none c)
    (hn : ((Hub.caseNodes T 0 h.cases).flatMap Tree.ids).Nodup) (hswitch : h.switch = ⟨t.size⟩)
    (hlooped : h.looped = ⟨t.size + 1⟩) (hinit : h.init = ⟨t.size + 2⟩)
    (hroot : h.root = ⟨t.size + 3⟩) :
    let t₁ := (t.alloc (.switch h.selected (h.cases.map (·.1)) false)).1
    let t₂ := (t₁.alloc (.loop .whileLoop h.cond none none h.switch false)).1
    let t₃ := (t₂.alloc (.evaluate h.start 0)).1
    (t₃.alloc (.sequence h.init h.looped)).1.Holds none (h.tree false T) ∧
      (h.tree false T).ids.Nodup := by
  intro t₁ t₂ t₃
  let B : Tree := .node h.switch none (.switch h.selected false) (Hub.caseNodes T 0 h.cases)
  let W : Tree := .node h.looped none (.loop .whileLoop h.cond none false) [B]
  have hlt : ∀ b ∈ (Hub.caseNodes T 0 h.cases).flatMap Tree.ids, b.index < t.size := fun b hb ↦ by
    obtain ⟨c, hc, hb⟩ := List.mem_flatMap.mp hb
    exact (hcases c hc).lt_of_mem_ids hb
  have hBids : B.ids = ⟨t.size⟩ :: (Hub.caseNodes T 0 h.cases).flatMap Tree.ids := by
    simp [B, Tree.ids, hswitch]
  have hWids : W.ids = ⟨t.size + 1⟩ :: B.ids := by simp [W, Tree.ids, hlooped]
  have hBn : B.ids.Nodup := by
    rw [hBids, List.nodup_cons]
    exact ⟨fun hb ↦ (hlt _ hb).false, hn⟩
  have hWn : W.ids.Nodup := by
    rw [hWids, List.nodup_cons, hBids, List.mem_cons]
    refine ⟨?_, hBids ▸ hBn⟩
    rintro (hb | hb)
    · simp at hb
    · exact absurd (hlt _ hb) (by simp)
  have hWlt : ∀ b ∈ W.ids, b.index < t.size + 2 := fun b hb ↦ by
    rw [hWids, hBids, List.mem_cons, List.mem_cons] at hb
    rcases hb with rfl | rfl | hb
    · simp
    · simp
    · have := hlt b hb
      omega
  have h₁ : t₁.Holds none B := by
    have := Blocks.holds_alloc (s := .switch h.selected (h.cases.map Prod.fst) false)
      (Hub.map_id_caseNodes 0).symm
      (fun c hc ↦ ⟨none, hcases c hc⟩) hn
    rwa [← hswitch] at this
  have h₂ : t₂.Holds none W := by
    have := Blocks.holds_alloc (s := .loop .whileLoop h.cond none none h.switch false)
      (l := [B]) rfl (by simpa using ⟨none, h₁⟩) (by simpa using hBn)
    rwa [Blocks.size_alloc, ← hlooped] at this
  have h₃ : t₃.Holds none (.node h.init none (.evaluate h.start 0) []) := by
    have := Blocks.holds_alloc_leaf (t := t₂) (s := .evaluate h.start 0) rfl
    rwa [Blocks.size_alloc, Blocks.size_alloc, ← hinit] at this
  have hinit' : h.init ∉ W.ids := fun hb ↦ absurd (hinit ▸ hWlt _ hb) (by simp)
  have hroot' : h.root ∉ W.ids := fun hb ↦ absurd (hroot ▸ hWlt _ hb) (by simp)
  have hpair : ([.node h.init none (.evaluate h.start 0) [], W].flatMap Tree.ids).Nodup := by
    simp [Tree.ids, hinit', hWn]
  constructor
  · have := Blocks.holds_alloc (s := .sequence h.init h.looped)
      rfl (by
        intro c hc
        rcases List.mem_pair.mp hc with rfl | rfl
        · exact ⟨none, h₃⟩
        · exact ⟨none, h₂.alloc hWn (by simp [Statement.children])⟩) hpair
    rwa [Blocks.size_alloc, Blocks.size_alloc, Blocks.size_alloc, ← hroot] at this
  · change (Tree.node h.root none .sequence
      [.node h.init none (.evaluate h.start 0) [], W]).ids.Nodup
    have hri : h.root ≠ h.init := by simp [hroot, hinit]
    simp [Tree.ids, hinit', hroot', hWn, hri]

/-- The flow blocks that are left, the entry first. -/
def regions (a : Analysis) : List FlowId := a.entry :: a.graph.live.filter (· ≠ a.entry)

theorem mem_regions (hs : a.Sound) : f ∈ a.regions ↔ a.Live f := by
  rw [regions]
  by_cases hf : f = a.entry
  · simp [hf, hs.entry]
  · simp [hf]

theorem nodup_regions (a : Analysis) : a.regions.Nodup := by
  have hids : a.graph.ids.Nodup := by
    exact List.Nodup.map (fun i j h ↦ by simpa using h) List.nodup_range
  refine List.nodup_cons.mpr ⟨by simp, ?_⟩
  exact ((List.mergeSort_perm ..).nodup_iff.mpr (hids.filter _)).filter _

theorem exists_hub (hs : a.Sound) : ∃ (h : Hub) (u : Analysis), h.regions = a.regions ∧
    h.base = a.blocks.size ∧ h.selector = (a.addLocal .selector none).2 ∧
    a.blocks.size ≤ h.init.index ∧ a.exprs.size ≤ h.selected.index ∧ Dispatched h a a.tree u ∧
    ∃ reads writes, a.degrade =
      let a' := h.regions.foldl (dispatchJumps h.regions h.selector h.looped) u
      let a' := (a.graph.live.filter (· ≠ a.entry)).foldl
        (fun a f ↦ a.modifyFlow f ({ · with alive := false, predecessors := [] })) a'
      (a'.mergeBySlot reads writes).modifyFlow a'.entry fun f ↦
        { f with reads, writes, root := h.root, growth := h.root, predecessors := [.methodEntry] } := by
  have hp := hs.wellFormed.planted
  have hregions : ∀ f ∈ a.regions, a.Live f := fun f hf ↦ (mem_regions hs).mp hf
  let a₁ := (a.addLocal .selector none).1
  let x := (a.addLocal .selector none).2
  have hn : (a.regions.flatMap fun f ↦ (a.tree f).ids).Nodup := by
    refine List.nodup_flatMap.mpr ⟨fun f hf ↦ hp.nodup f (hregions f hf), ?_⟩
    exact a.nodup_regions.imp_of_mem fun hf hg hne ↦ hp.apart _ _ (hregions _ hf) (hregions _ hg) hne
  obtain ⟨t, cs, he, hcs, hsize, hl, hrest, hcases, hcn, hfresh⟩ :=
    exists_allocRegions (a := a₁) 0 hp.linked
      (fun f hf ↦ hp.holds f (hregions f hf)) (fun f _ ↦ a.id_tree f) hn
  let r₁ := a.exprs.alloc (.var x)
  let r₂ := r₁.1.alloc (.const (.bool true))
  let t₁ := (t.alloc (.switch r₁.2 (cs.map Prod.fst) false)).1
  let t₂ := (t₁.alloc (.loop .whileLoop r₂.2 none none ⟨t.size⟩ false)).1
  obtain ⟨t', e, hexprs, he', hselect⟩ :=
    allocSelect_eq { a₁ with blocks := t₂, exprs := r₂.1 } x 0
  let t₃ := (t₂.alloc (.evaluate e 0)).1
  let h : Hub :=
    { selector := x, base := a.blocks.size, root := ⟨t.size + 3⟩, init := ⟨t.size + 2⟩
      start := e, looped := ⟨t.size + 1⟩, cond := r₂.2, switch := ⟨t.size⟩, selected := r₁.2
      cases := cs }
  let u : Analysis :=
    { a₁ with blocks := (t₃.alloc (.sequence h.init h.looped)).1, exprs := t' }
  have hsize' : a.blocks.size ≤ t.size := hsize
  have hhub := holds_hub (h := h) hcases hcn rfl rfl rfl rfl
  have h₁ := Expressions.extends_alloc a.exprs (.var x)
  have h₂ := Expressions.extends_alloc r₁.1 (.const (.bool true))
  refine ⟨h, u, hcs, rfl, rfl, ?_, ?_, ?_, ?_⟩
  · exact hsize'.trans (Nat.le_add_right _ _)
  · exact le_rfl
  · exact
      { holds := ⟨false, hhub.1⟩
        nodup := hhub.2
        blocks := (((hl.alloc _).alloc _).alloc _).alloc _
        base := by
          change a.blocks.size ≤ (t₃.alloc (.sequence h.init h.looped)).1.size
          simp [t₃, t₂, t₁]
          omega
        linked := hs.wellFormed.linked
        relinked := .refl _
        frame := rfl
        exprs := (h₁.trans h₂).trans hexprs
        reads :=
          { start := he'
            cond := hexprs.get_eq (Expressions.get_alloc_self ..) fun h ↦ by cases h
            selected := (h₂.trans hexprs).get_eq (Expressions.get_alloc_self ..) fun h ↦ by cases h }
        thinned := fun _ _ ↦ id
        holding := fun f hf ↦ hs.wellFormed.holding f (hregions f (hcs ▸ hf))
        tidy := fun f hf ↦ hs.wellFormed.tidy f (hregions f (hcs ▸ hf))
        casesFall := fun f hf ↦ (hs.orderly f (hregions f (hcs ▸ hf))).casesFall
        redirected := fun _ _ ↦ .refl }
  · have hr : h.regions = a.regions := hcs
    rw [hr]
    have hmade : (a₁.allocRegions 0 a.regions) = ({ a₁ with blocks := t }, cs.map Prod.fst) := he
    have hselected : { a₁ with blocks := t }.allocExpr (.var x) =
      ({ a₁ with blocks := t, exprs := r₁.1 }, r₁.2) := rfl
    have hcond : { a₁ with blocks := t₁, exprs := r₁.1 }.allocExpr (.const (.bool true)) =
      ({ a₁ with blocks := t₁, exprs := r₂.1 }, r₂.2) := rfl
    have hswitch : ({ a₁ with blocks := t, exprs := r₁.1 }.alloc
        (.switch r₁.2 (cs.map Prod.fst) false)) =
      ({ a₁ with blocks := t₁, exprs := r₁.1 }, ⟨t.size⟩) := rfl
    have hloop : ({ a₁ with blocks := t₁, exprs := r₂.1 }.alloc
        (.loop .whileLoop r₂.2 none none ⟨t.size⟩ false)) =
      ({ a₁ with blocks := t₂, exprs := r₂.1 }, ⟨t.size + 1⟩) := by
      rw [alloc_eq, Blocks.size_alloc]
    have hinit : (({ a₁ with blocks := t₂, exprs := r₂.1 } : Analysis).allocSelect x 0) =
      ({ a₁ with blocks := t₃, exprs := t' }, ⟨t.size + 2⟩) := by
      rw [hselect, alloc_eq, Blocks.size_alloc, Blocks.size_alloc]
    have hrootAlloc : (({ a₁ with blocks := t₃, exprs := t' } : Analysis).alloc
        (.sequence ⟨t.size + 2⟩ ⟨t.size + 1⟩)) = (u, ⟨t.size + 3⟩) := by
      rw [alloc_eq, Blocks.size_alloc, Blocks.size_alloc, Blocks.size_alloc]
    simp only [regions] at hmade
    unfold degrade
    simp only [show a.addLocal .selector none = (a₁, x) from rfl, hmade, hselected, hswitch, hcond,
      hloop, hinit, hrootAlloc]
    exact ⟨_, _, rfl⟩

theorem foldl_bury (l : List FlowId) (a : Analysis) :
    let a' := l.foldl
      (fun a f ↦ a.modifyFlow f ({ · with alive := false, predecessors := [] })) a
    a' = { a with graph := a'.graph } ∧ ∀ g, a'.Live g ↔ a.Live g ∧ g ∉ l := by
  induction l generalizing a with
  | nil => exact ⟨rfl, by simp⟩
  | cons f l ih =>
    obtain ⟨he, hlive⟩ := ih (a.modifyFlow f ({ · with alive := false, predecessors := [] }))
    refine ⟨he, fun g ↦ (hlive g).trans ?_⟩
    rw [Live, List.mem_cons, not_or, ← and_assoc]
    refine and_congr_left fun _ ↦ ?_
    rw [Analysis.modifyFlow, FlowGraph.size_modifyFlow, flow, FlowGraph.flow_modifyFlow]
    split
    next hgf => simp [hgf.1]
    next hgf =>
      refine ⟨fun h ↦ ⟨h, ?_⟩, And.left⟩
      rintro rfl
      exact hgf ⟨rfl, h.1⟩

/-- The dispatcher is the whole method, and none of its regions jumps out of it. -/
structure Degraded (h : Hub) (T : FlowId → Tree) (a d : Analysis) : Prop where
  regions : h.regions = a.regions
  selector : h.selector = (a.addLocal .selector none).2
  base : h.base = a.blocks.size
  init : h.base ≤ h.init.index
  selected : a.exprs.size ≤ h.selected.index
  exprs : a.exprs.Extends d.exprs
  reads : h.Reads d.exprs
  held : ∀ f ∈ a.regions, (T f).held = []
  redirected : ∀ f ∈ a.regions,
    Tree.Redirected h d.exprs (fun j ↦ (a.jump j).destination) (a.tree f) (T f)
  tree : ∃ labeled, d.tree d.entry = h.tree labeled T
  live : ∀ g, d.Live g ↔ g = d.entry

theorem exists_degraded (hs : a.Sound) : ∃ h T, Degraded h T a a.degrade := by
  obtain ⟨h, u, hr, hbase, hsel, hinit, hselected, hd, reads, writes, he⟩ := exists_hub hs
  have hlive : ∀ f, f ∈ h.regions ↔ a.Live f := fun f ↦ hr ▸ mem_regions hs
  obtain ⟨T, hd', -, hgone⟩ := hd.dispatchAll hs hlive (hr ▸ a.nodup_regions) fun f hf ↦ hf
  simp only at he
  generalize h.regions.foldl (dispatchJumps h.regions h.selector h.looped) u = a₁ at *
  obtain ⟨hbury, hburied⟩ := foldl_bury (a.graph.live.filter (· ≠ a.entry)) a₁
  generalize (a.graph.live.filter (· ≠ a.entry)).foldl
    (fun a f ↦ a.modifyFlow f ({ · with alive := false, predecessors := [] })) a₁ = a₂ at *
  rw [mergeBySlot_eq] at he
  have hentry : a₂.entry = a.entry := by
    rw [hbury]
    exact (congrArg Analysis.entry hd'.frame :)
  have hentry' : a.degrade.entry = a.entry := by
    rw [he]
    exact hentry
  have hgraph : a.degrade.graph = a₂.graph.modifyFlow a.entry fun f ↦
      { f with reads, writes, root := h.root, growth := h.root, predecessors := [.methodEntry] } := by
    rw [he, ← hentry]
    rfl
  have hlive₁ : ∀ g, a₁.Live g ↔ a.Live g := fun g ↦ by
    have halive : (a₁.flow g).alive = (a.flow g).alive :=
      (congrArg Flow.alive (hd'.relinked.bare g) :)
    rw [Live, Live, hd'.relinked.flows_size, halive]
  have hlive₂ : ∀ g, a₂.Live g ↔ g = a.entry := fun g ↦ by
    rw [hburied, hlive₁, List.mem_filter, mem_live]
    by_cases hg : g = a.entry
    · simp [hg, hs.entry]
    · simp [hg]
  obtain ⟨labeled, hholds⟩ := hd'.holds
  have hblocks : a.degrade.blocks = a₁.blocks := by
    rw [he]
    change a₂.blocks = _
    rw [hbury]
  have hexprs : a.degrade.exprs = a₁.exprs := by
    rw [he]
    change a₂.exprs = _
    rw [hbury]
  refine ⟨h, T,
    { regions := hr
      selector := hsel
      base := hbase
      init := hbase ▸ hinit
      selected := hselected
      exprs := hexprs ▸ hd'.exprs
      reads := hexprs ▸ hd'.reads
      held := fun f hf ↦ List.eq_nil_iff_forall_not_mem.mpr fun x hx ↦ ?_
      redirected := fun f hf ↦ hexprs ▸ hd'.redirected f (hr ▸ hf)
      tree := ⟨labeled, ?_⟩
      live := fun g ↦ ?_ }⟩
  · obtain ⟨b, j⟩ := x
    rw [hd'.holding f (hr ▸ hf), hgone f (hr ▸ hf)] at hx
    cases hx.1
  · have hroot : a.degrade.root a.degrade.entry = (h.tree labeled T).id := by
      rw [hentry', root, flow, hgraph, FlowGraph.flow_modifyFlow_self _ _ ((hlive₂ _).mpr rfl).1]
      rfl
    rw [tree, hroot, hblocks]
    exact hholds.tree (Hub.ids_tree ▸ hd'.nodup)
  · rw [hentry', ← hlive₂, Live, Live, flow, hgraph, FlowGraph.size_modifyFlow,
      FlowGraph.flow_modifyFlow]
    split <;> rfl

end Setup

end Analysis

end Decompile
