import Decompile.Proofs.LoopClosing
import Decompile.Proofs.Rewriting

namespace Decompile

/-- The hole is the first part of a sequence, or the whole. -/
def AtHead (D : List Frame) : Prop := D = [] ∨ ∃ q Y, D = [⟨q, none, .sequence, [], [Y]⟩]

namespace Tree

variable {T T' T'' X B N P : Tree} {F : Frame} {C : List Frame}

/-- A statement on the operand stack that holds no jump. -/
def Simple (T : Tree) : Prop := T.jump = none ∧ T.kind.Simple ∧ T.children = []

/-- The statements stand right before `X`. -/
inductive Precedes (X : Tree) : List Tree → Tree → Prop
  | nil : Precedes X [] X
  | cons {P T : Tree} {l : List Tree} (q : BlockId) (j : Option JumpId) : Precedes X l T →
    Precedes X (P :: l) (node q j .sequence [P, T])

theorem Precedes.snoc {l : List Tree} {q : BlockId} {j : Option JumpId}
    (h : Precedes (node q j .sequence [P, X]) l T) : Precedes X (l ++ [P]) T := by
  induction h with
  | nil => exact .cons q j .nil
  | cons q j _ ih => exact .cons q j ih

theorem Precedes.exists_plug {l : List Tree} (h : Precedes X l T) :
    ∃ C, T = plug C X ∧ C.length = l.length := by
  induction h with
  | nil => exact ⟨[], rfl, rfl⟩
  | @cons P _ _ q j _ ih =>
    obtain ⟨C, rfl, hC⟩ := ih
    exact ⟨C ++ [⟨q, j, .sequence, [P], []⟩], by simp [Frame.fill], by simp [hC]⟩

theorem Precedes.mem_plug {l : List Tree} (h : Precedes X l T) (hP : P ∈ l) :
    ∃ C q j Y, T = plug C (node q j .sequence [P, Y]) := by
  induction h with
  | nil => simp at hP
  | @cons Q T l q j _ ih =>
    rcases List.mem_cons.mp hP with rfl | hP
    · exact ⟨[], q, j, T, rfl⟩
    · obtain ⟨C, q', j', Y, rfl⟩ := ih hP
      exact ⟨C ++ [⟨q, j, .sequence, [Q], []⟩], q', j', Y, by simp [Frame.fill]⟩

/-- What a rule makes of a tree: statements on the operand stack are dropped and replaced, and the
headers of statements are completed. -/
inductive Folds (destination : JumpId → FlowId) : Tree → Tree → Prop
  | refl (T : Tree) : Folds destination T T
  | trans {T T' T'' : Tree} : Folds destination T T' → Folds destination T' T'' →
    Folds destination T T''
  | dropFirst {C : List Frame} {q : BlockId} {P Y : Tree} : P.Simple →
    Folds destination (plug C (node q none .sequence [P, Y])) (plug C Y)
  | dropLast {C : List Frame} {q b : BlockId} {e : Option JumpId} {k : Kind} {P : Tree} :
    k.Simple → P.Plain →
    Folds destination (plug C (node q none .sequence [P, node b e k []])) (plug C (P.withJump e))
  | leaf {C : List Frame} {b n : BlockId} {e : Option JumpId} {k k' : Kind} : k.Simple →
    k ≠ .empty → k'.Simple →
    Folds destination (plug C (node b e k [])) (plug C (node n e k' []))
  | ternary {C : List Frame} {b n : BlockId} {e : Option JumpId} {c : ExprId} {k : Kind}
      {P Q : Tree} : P.Simple → Q.Simple → k.Simple →
    Folds destination (plug C (node b e (.ifElse c) [P, Q])) (plug C (node n e k []))
  | combine {C D : List Frame} {q p t b u : BlockId} {e : Option JumpId} {i j : JumpId}
      {c c' c'' : ExprId} : AtHead D →
    (destination i = destination j ∨ ∃ k, e = some k ∧ destination i = destination k) →
    Folds destination
      (plug C (node q none .sequence [node p none (.conditional c) [node t (some i) .empty []],
        plug D (node b e (.conditional c') [node u (some j) .empty []])]))
      (plug C (plug D (node b e (.conditional c'') [node u (some j) .empty []])))
  | header {C : List Frame} {b : BlockId} {e : Option JumpId} {c : ExprId}
      {o init : Option ExprId} {l : Bool} {ch : List Tree} :
    Folds destination (plug C (node b e (.loop .possibleFor c o l) ch))
      (plug C (node b e (.loop .forLoop c init l) ch))
  | object {C : List Frame} {b : BlockId} {e : Option JumpId} {m : LocalId} {o : Option ExprId}
      {ch : List Tree} :
    Folds destination (plug C (node b e (.synchronized m none) ch))
      (plug C (node b e (.synchronized m o) ch))

end Tree

namespace FlowGraph

variable {g g' g'' : FlowGraph} {f : FlowId} {j : JumpId}

/-- The flow blocks are the same, and all but `f` keep their jumps. -/
structure Thinned (f : FlowId) (g g' : FlowGraph) : Prop where
  flows_size : g'.flows.size = g.flows.size
  core : ∀ x, (g'.flow x).core = (g.flow x).core
  destination : ∀ i, (g'.jump i).destination = (g.jump i).destination
  other : ∀ x d, x ≠ f → g'.jumpsTo x d = g.jumpsTo x d
  own : ∀ d i, i ∈ g'.jumpsTo f d → i ∈ g.jumpsTo f d
  anchored : g.Anchored g'

namespace Thinned

theorem trans (h : Thinned f g g') (h' : Thinned f g' g'') : Thinned f g g'' where
  flows_size := h'.flows_size.trans h.flows_size
  core x := (h'.core x).trans (h.core x)
  destination i := (h'.destination i).trans (h.destination i)
  other x d hx := (h'.other x d hx).trans (h.other x d hx)
  own d i hi := h.own d i (h'.own d i hi)
  anchored := h.anchored.trans h'.anchored

theorem of_keeps (h : Keeps g g') : Thinned f g g' where
  flows_size := h.flows_size
  core := h.core
  destination := h.destination
  other x d _ := h.jumpsTo x d
  own d _ hi := h.jumpsTo f d ▸ hi
  anchored := .of_eq h.predecessors

end Thinned

end FlowGraph

namespace Analysis

variable {a a' a'' : Analysis} {L : FlowId → Prop} {f : FlowId} {C : List Frame}
  {T X B N P Y : Tree} {b : BlockId} {s : Statement} {j : JumpId} {r : Analysis × BlockId}

theorem WellFormed.thinned_unlinkJump (h : a.WellFormed L) (hf : L f)
    (hj : j ∈ a.graph.listed f) : FlowGraph.Thinned f a.graph (a.graph.unlinkJump f j) := by
  obtain ⟨-, hto, -⟩ := h.mem_listed_unlinkJump hf hj
  have hre := FlowGraph.Relinked.unlinkJump a.graph f j
  refine ⟨hre.flows_size, hre.core, hre.destination, fun x d hx ↦ ?_, fun d i hi ↦ ?_,
    .unlinkJump (h.proper f hf) j⟩
  · rw [hto, if_neg fun hc ↦ hx hc.1]
  · rw [hto] at hi
    split at hi
    · exact (List.mem_filter.mp hi).1
    · exact hi

section Switches

/-- What is no switch does not become one. -/
structure MakesNoSwitch (a a' : Analysis) : Prop where
  isSwitch : ∀ b, (a'.statement b).isSwitch → (a.statement b).isSwitch

namespace MakesNoSwitch

theorem of_statement (h : ∀ b, a'.statement b = a.statement b) : MakesNoSwitch a a' :=
  ⟨fun b hb ↦ h b ▸ hb⟩

theorem of_blocks (h : a'.blocks = a.blocks) : MakesNoSwitch a a' :=
  of_statement fun b ↦ congrArg (·.statement b) h

theorem trans (h : MakesNoSwitch a a') (h' : MakesNoSwitch a' a'') : MakesNoSwitch a a'' :=
  ⟨fun b hb ↦ h.isSwitch b (h'.isSwitch b hb)⟩

theorem setStatement (a : Analysis) {b : BlockId} {s : Statement}
    (hs : s.isSwitch → (a.statement b).isSwitch) : MakesNoSwitch a (a.setStatement b s) := by
  refine ⟨fun x hx ↦ ?_⟩
  by_cases hb : b.index < a.blocks.size
  · rw [statement, Analysis.setStatement, Blocks.statement_setStatement _ _ _ hb] at hx
    split at hx
    next he => exact he ▸ hs hx
    next => exact hx
  · rw [statement, Analysis.setStatement, Blocks.statement, Blocks.setStatement,
      Blocks.get_modify, if_neg fun h ↦ hb h.2] at hx
    exact hx

theorem alloc (a : Analysis) {s : Statement} (hs : s.isSwitch = false) :
    MakesNoSwitch a (a.alloc s).1 := by
  refine ⟨fun b hb ↦ ?_⟩
  by_cases he : b = ⟨a.blocks.size⟩
  · rw [he, statement, (blocks_alloc a s).1, Blocks.statement_alloc_self, hs] at hb
    exact absurd hb Bool.false_ne_true
  · rwa [statement, (blocks_alloc a s).1, (Blocks.get_alloc_of_ne he).1] at hb

end MakesNoSwitch

theorem isSwitch_iff_origin {s : Statement} : s.isSwitch ↔ ∃ e, s.origin = some (some e) := by
  cases s <;> simp [Statement.isSwitch, Statement.origin]

theorem Edits.makesNoSwitch (h : Edits a a') : MakesNoSwitch a a' := by
  induction h with
  | refl => exact .of_blocks rfl
  | tail _ h' ih =>
    refine ih.trans ?_
    cases h' with
    | alloc s hs =>
      refine .alloc _ (Bool.eq_false_iff.mpr fun hsw ↦ ?_)
      simp [isSwitch_iff_origin, hs] at hsw
    | statement b s hs =>
      refine .setStatement _ fun hsw ↦ ?_
      obtain ⟨e, he⟩ := isSwitch_iff_origin.mp hsw
      exact isSwitch_iff_origin.mpr ⟨e, hs _ he⟩
    | outer => exact .of_statement fun _ ↦ Blocks.statement_setOuter ..
    | hold => exact .of_statement fun _ ↦ Blocks.statement_setJump ..
    | _ => exact .of_blocks rfl

end Switches

/-- The tree of `f` has been edited, and nothing else. -/
structure Edited (L : FlowId → Prop) (f : FlowId) (a a' : Analysis) : Prop where
  wellFormed : a'.WellFormed L
  moves : ∃ T, Moves (fun _ ↦ False) L f T a a'
  thinned : FlowGraph.Thinned f a.graph a'.graph
  literal : a.exprs.KeepsLiterals a'.exprs
  switches : a.MakesNoSwitch a'

theorem Edited.trans (h : Edited L f a a') (h' : Edited L f a' a'') : Edited L f a a'' where
  wellFormed := h'.wellFormed
  moves := by
    obtain ⟨T, hT⟩ := h.moves
    obtain ⟨T', hT'⟩ := h'.moves
    exact ⟨T', hT.andThen hT'⟩
  thinned := h.thinned.trans h'.thinned
  literal := h.literal.trans h'.literal
  switches := h.switches.trans h'.switches

theorem Edited.of_keeps (hwf : a'.WellFormed L) (hm : Moves (fun _ ↦ False) L f T a a')
    (hk : a.graph.Keeps a'.graph) (hc : a'.content = a.content) (hs : a.MakesNoSwitch a') :
    Edited L f a a' where
  wellFormed := hwf
  moves := ⟨T, hm⟩
  thinned := .of_keeps hk
  literal e v he := by rwa [show a'.exprs = a.exprs from congrArg Prod.fst hc]
  switches := hs

/-- The tree of `f` has been folded by rules. -/
structure Folded (L : FlowId → Prop) (f : FlowId) (a a' : Analysis) : Prop
    extends Edited L f a a' where
  folds : Tree.Folds (fun i ↦ (a.jump i).destination) (a.tree f) (a'.tree f)

theorem Folded.trans (h : Folded L f a a') (h' : Folded L f a' a'') : Folded L f a a'' where
  toEdited := h.toEdited.trans h'.toEdited
  folds := by
    refine h.folds.trans ?_
    have hd : (fun i ↦ (a'.jump i).destination) = fun i ↦ (a.jump i).destination :=
      funext h.thinned.destination
    exact hd ▸ h'.folds

variable {n : Nat} {E : List Frame}

section Before

variable {t : Blocks} {q : BlockId} {i : Option JumpId} {acc run : List BlockId}

/-- The statement before the first part of a sequence is the first part of the sequence around
it. -/
theorem prev_of_first (h : t.At E (.node q i .sequence [B, Y])) (hp : t.prevStatement B.id = some b) :
    ∃ r j P E', E = ⟨r, j, .sequence, [P], []⟩ :: E' ∧ P.id = b := by
  have hat : t.At (⟨q, i, .sequence, [], [Y]⟩ :: E) B := .of_holds h.whole h.nodup
  obtain ⟨C', D, r, j, P, he, rfl, hD⟩ := hat.prevStatement hp
  rcases hD with rfl | ⟨r', j', Y', rfl⟩
  · have := plug_inj (D := ⟨r, j, .sequence, [P], []⟩ :: C') hat.nodup he rfl
    simp at this
  · have hC := (plug_inj (D := ⟨r', j', .sequence, [], [Y']⟩ :: ⟨r, j, .sequence, [P], []⟩ :: C')
      hat.nodup he rfl).1
    exact ⟨r, j, P, C', (List.cons.inj hC).2, rfl⟩

theorem exists_precedingWithin (h : t.At E (.node q i .sequence [B, Y]))
    (hr : t.precedingWithin n B.id acc = some run) :
    ∃ E' l T, plug E (.node q i .sequence [B, Y]) = plug E' T ∧
      Tree.Precedes (.node q i .sequence [B, Y]) l T ∧ run = l.map Tree.id ++ acc ∧
      l.length = n := by
  induction n generalizing B Y q i E acc with
  | zero =>
    obtain rfl : acc = run := by simpa [Blocks.precedingWithin] using hr
    exact ⟨E, [], _, rfl, .nil, rfl, rfl⟩
  | succ n ih =>
    rw [Blocks.precedingWithin, Option.bind_eq_bind, Option.bind_eq_some_iff] at hr
    obtain ⟨p, hp, hr⟩ := hr
    obtain ⟨r, j, P, E', rfl, rfl⟩ := prev_of_first h hp
    obtain ⟨E'', l, T, hT, hl, rfl, rfl⟩ := ih (B := P) (.of_holds h.whole h.nodup) hr
    exact ⟨E'', l ++ [P], T, hT, hl.snoc, by simp, by simp⟩

/-- The statements before `B` stand right before it, or right before a sequence that starts with
it. -/
theorem exists_preceding (h : t.At C B) (hr : t.preceding B.id n = some run) :
    ∃ E D l T, plug C B = plug E T ∧ Tree.Precedes (plug D B) l T ∧
      (D = [] ∨ ∃ q j Y, D = [⟨q, j, .sequence, [], [Y]⟩]) ∧ run = l.map Tree.id ∧
      l.length = n := by
  cases n with
  | zero =>
    obtain rfl : [] = run := by simpa [Blocks.preceding, Blocks.precedingWithin] using hr
    exact ⟨C, [], [], B, rfl, .nil, .inl rfl, rfl, rfl⟩
  | succ n =>
    rw [Blocks.preceding, Blocks.precedingWithin, Option.bind_eq_bind,
      Option.bind_eq_some_iff] at hr
    obtain ⟨p, hp, hr⟩ := hr
    obtain ⟨E, D, q, j, P, he, rfl, hD⟩ := h.prevStatement hp
    obtain ⟨E', l, T, hT, hl, rfl, rfl⟩ := exists_precedingWithin (B := P)
      (.of_holds (he ▸ h.whole) (he ▸ h.nodup)) hr
    exact ⟨E', D, l ++ [P], T, he.trans hT, hl.snoc, hD, by simp, by simp⟩

theorem WellFormed.atHead (h : a.WellFormed L) (hf : L f) {D : List Frame}
    (hT : a.tree f = plug E (plug D B))
    (hD : D = [] ∨ ∃ q j Y, D = [⟨q, j, .sequence, [], [Y]⟩]) : AtHead D := by
  rcases hD with rfl | ⟨q, j, Y, rfl⟩
  · exact .inl rfl
  · obtain ⟨rfl, -⟩ := h.sequence (C := E) hf hT
    exact .inr ⟨q, Y, rfl⟩

theorem WellFormed.prevStatement (h : a.WellFormed L) (hf : L f) (hT : a.tree f = plug C B)
    (hp : a.blocks.prevStatement B.id = some b) :
    ∃ E D q P, a.tree f = plug E (.node q none .sequence [P, plug D B]) ∧ P.id = b ∧ P.Plain ∧
      AtHead D := by
  obtain ⟨E, D, q, j, P, he, rfl, hD⟩ := (h.planted.at_of_plug hf hT).prevStatement hp
  rw [he] at hT
  obtain ⟨rfl, hP⟩ := h.sequence hf hT
  exact ⟨E, D, q, P, hT, rfl, hP, h.atHead (E := ⟨q, none, .sequence, [P], []⟩ :: E) hf hT hD⟩

end Before

section Drop

variable {q : BlockId} {l : List Tree}

theorem held_of_simple (hP : P.Simple) : P.held = [] := by
  rw [Tree.held_eq, hP.1, hP.2.2]
  rfl

theorem WellFormed.dropFirst (h : a.WellFormed L) (hf : L f)
    (hT : a.tree f = plug C (.node q none .sequence [P, Y])) (hP : P.Simple) :
    Folded L f a (a.removeStatement P.id) ∧ (a.removeStatement P.id).tree f = plug C Y ∧
      (a.removeStatement P.id).content = a.content := by
  obtain ⟨hr, -⟩ := h.planted.removeStatement hf hT (.inl rfl) hP.1
  have hwf : (a.removeStatement P.id).WellFormed L := by
    refine h.reshapes hr (fun x ↦ ?_) ?_
    · rw [hT, mem_held_plug, mem_held_plug]
      simp [Tree.held, held_of_simple hP]
    · have htidy := h.tidy f hf
      rw [hT] at htidy
      exact htidy.plug ((Tree.tidy_node.mp htidy.of_plug).2 Y (by simp)) fun hp ↦ absurd rfl hp.2
  have hc := content_removeStatement a P.id
  refine ⟨⟨.of_keeps hwf hr.toMoves hr.graph hc ((Edits.refl _).removeStatement _).makesNoSwitch, ?_⟩, hr.tree, hc⟩
  rw [hr.tree, hT]
  exact .dropFirst hP

theorem WellFormed.dropRun (h : a.WellFormed L) (hf : L f) (hl : Tree.Precedes X l T)
    (hT : a.tree f = plug E T) (hs : ∀ P ∈ l, P.Simple) :
    Folded L f a (a.removeStatements (l.map Tree.id)) ∧
      (a.removeStatements (l.map Tree.id)).tree f = plug E X ∧
      (a.removeStatements (l.map Tree.id)).content = a.content := by
  induction hl generalizing a with
  | nil =>
    have hr := h.planted.unchanged hf
    exact ⟨⟨.of_keeps h hr.toMoves hr.graph rfl (.of_blocks rfl), .refl _⟩, hT, rfl⟩
  | @cons P T l q j _ ih =>
    obtain ⟨rfl, -⟩ := h.sequence hf hT
    obtain ⟨h₁, hT₁, hc₁⟩ := h.dropFirst hf hT (hs P (by simp))
    obtain ⟨h₂, hT₂, hc₂⟩ := ih h₁.wellFormed hT₁ fun P hP ↦ hs P (by simp [hP])
    exact ⟨h₁.trans h₂, hT₂, hc₂.trans hc₁⟩

theorem removeStatement_moveJump {e : JumpId} (h : a.Planted L) (hf : L f)
    (hT : a.tree f = plug C (.node q none .sequence [P, B]))
    (h₁ : (a.moveJump B.id P.id).Planted L)
    (hT₁ : (a.moveJump B.id P.id).tree f =
      plug C (.node q none .sequence [P.withJump (some e), B.withJump none])) :
    a.removeStatement B.id = (a.moveJump B.id P.id).removeStatement B.id := by
  have hat := h.at_of_plug hf hT
  have hat₁ := h₁.at_of_plug hf hT₁
  have hq : a.jumpOf q = none := hat.holds.jump
  have hq₁ : (a.moveJump B.id P.id).jumpOf q = none := hat₁.holds.jump
  have hB₁ : (a.moveJump B.id P.id).jumpOf B.id = none := by
    have := (hat₁.holds.child (c := B.withJump none) (by simp)).jump
    rwa [Tree.id_withJump, Tree.jump_withJump] at this
  have hs := sibling?_eq hat (.inr rfl)
  have hs₁ := sibling?_eq hat₁ (.inr rfl)
  simp only [Tree.id_withJump] at hs₁
  rw [Analysis.removeStatement, hs, Analysis.removeStatement, hs₁]
  simp only [moveJump_of_none hq, moveJump_of_none hq₁, moveJump_of_none hB₁]

/-- The statement at the end of a sequence goes, and the one before it takes over its jump. -/
theorem WellFormed.dropLast {k : Kind} {e : Option JumpId} (h : a.WellFormed L) (hf : L f)
    (hT : a.tree f = plug C (.node q none .sequence [P, .node b e k []])) (hk : k.Simple) :
    Folded L f a (a.removeStatement b) ∧ (a.removeStatement b).tree f = plug C (P.withJump e) := by
  have htidy := h.tidy f hf
  rw [hT] at htidy
  obtain ⟨-, hP⟩ := h.sequence hf hT
  have hPt : (P.withJump e).Tidy := by
    have := (Tree.tidy_node.mp htidy.of_plug).2 P (by simp)
    cases P with
    | node i j kind l =>
      rw [Tree.tidy_node] at this
      rw [Tree.withJump_eq, Tree.tidy_node]
      exact ⟨fun hk ↦ absurd hk hP.2, this.2⟩
  have htidy' : (plug C (P.withJump e)).Tidy := htidy.plug hPt fun hp ↦ absurd rfl hp.2
  have hc := content_removeStatement a b
  cases e with
  | none =>
    have hPe : P.withJump none = P := by rw [← hP.1, Tree.withJump_jump]
    rw [hPe] at htidy' ⊢
    obtain ⟨hr, -⟩ := h.planted.removeStatement hf hT (.inr rfl) rfl
    have hwf : (a.removeStatement b).WellFormed L := by
      refine h.reshapes hr (fun x ↦ ?_) htidy'
      rw [hT, mem_held_plug, mem_held_plug]
      simp [Tree.held]
    refine ⟨⟨.of_keeps hwf hr.toMoves hr.graph hc ((Edits.refl _).removeStatement _).makesNoSwitch, ?_⟩, hr.tree⟩
    have hfold : Tree.Folds (fun i ↦ (a.jump i).destination)
        (plug C (.node q none .sequence [P, .node b none k []])) (plug C (P.withJump none)) :=
      .dropLast hk hP
    rw [hPe] at hfold
    rw [show (a.removeStatement b).tree f = _ from hr.tree, hT]
    exact hfold
  | some j =>
    obtain ⟨hm, hkeep, hsrc, hjumps, hsourced⟩ := h.shiftJump
      (C := ⟨q, none, .sequence, [P], []⟩ :: C)
      (E := ⟨q, none, .sequence, [], [.node b none k []]⟩ :: C) hf hT rfl rfl hP.1
    obtain ⟨hr, -⟩ := hm.planted.removeStatement
      hf hm.tree
      (.inr rfl) rfl
    have heq := removeStatement_moveJump h.planted hf hT
      hm.planted hm.tree
    have hm' := hm.andThen hr.toMoves
    have hkeep' := hkeep.trans hr.graph
    have hsource := hr.source
    have htree := hr.tree
    simp only [Tree.id_node] at heq hm' hkeep' hsource hsrc htree
    rw [← heq] at hm' hkeep' hsource htree
    have hpart : ∀ x, x ∈ (plug C (P.withJump (some j))).held ↔
        x ∈ (plug (⟨q, none, .sequence, [], [.node b none k []]⟩ :: C)
          (P.withJump (some j))).held := fun x ↦ by
      rw [mem_held_plug, mem_held_plug]
      simp [Frame.held, Tree.held]
    have hwf : (a.removeStatement b).WellFormed L := by
      refine h.rehang hf hm' hkeep' (fun i ↦ ?_) (fun x i hi ↦ ?_) (fun i hi ↦ ?_) htidy'
      · rw [← hjumps, Tree.mem_jumps, Tree.mem_jumps]
        simp only [hpart]
      · rw [hsource]
        exact hsourced x i ((hpart _).mp hi)
      · rw [hsource, hsrc, if_neg (h.ne_of_not_listed
          (C := ⟨q, none, .sequence, [P], []⟩ :: C) hf hT rfl hi)]
    refine ⟨⟨.of_keeps hwf hm' hkeep' hc ((Edits.refl _).removeStatement _).makesNoSwitch, ?_⟩, htree⟩
    rw [htree, hT]
    exact .dropLast hk hP

end Drop

section Replace

/-- A new statement without parts takes the place of one that holds no jump below. -/
theorem WellFormed.replaceStatement {n : BlockId} {k : Kind} (h : a.WellFormed L) (hf : L f)
    (hT : a.tree f = plug C B) (hB : B.children.flatMap Tree.held = [])
    (hN : a.Loose L (.node n none k [])) (hk : k ≠ .sequence) :
    (a.replaceStatement B.id n).WellFormed L ∧
      Moves (· ∈ (Tree.node n none k []).ids) L f (plug C (.node n B.jump k [])) a
        (a.replaceStatement B.id n) ∧
      a.graph.Keeps (a.replaceStatement B.id n).graph ∧
      (a.replaceStatement B.id n).content = a.content := by
  obtain ⟨hm, hkeep, hloose, hsrc⟩ := h.handDown hf hT hN rfl
  have hold : ∀ b ∈ [B.id], b ∈ ((a.moveJump B.id (Tree.node n none k []).id).tree f).ids := by
    intro b hb
    obtain rfl : b = B.id := by simpa using hb
    rw [hm.tree, mem_ids_plug]
    exact .inl (B.ids_withJump none ▸ B.id_mem_ids)
  have hnew : n ∈ (plug C ((Tree.node n none k []).withJump B.jump)).ids :=
    mem_ids_plug.mpr (.inl (Tree.id_mem_ids ((Tree.node n none k []).withJump B.jump)))
  have hr := (hm.planted.replaceBlock hf hm.tree hloose).retarget hm.planted hf hold hnew
  have hm' := hm.trans hr.toMoves fun b hb ↦ .inr (.inl (by simpa using hb))
  have hkeep' := hkeep.trans hr.graph
  have hsource := hr.source
  simp only [Tree.withJump_eq, Tree.id_node, Tree.kind_node, Tree.children_node] at hm' hkeep' hsource hsrc
  have heq : ((a.moveJump B.id n).replaceBlock B.id n).retargetGrowth [B.id] n =
    a.replaceStatement B.id n := rfl
  rw [heq] at hm' hkeep' hsource
  have hat := h.planted.at_of_plug hf hT
  have htidy := h.tidy f hf
  rw [hT] at htidy
  have hheld : ∀ b i, (b, i) ∈ (plug C (.node n B.jump k [])).held ↔
      (b = n ∧ B.jump = some i) ∨ (b, i) ∈ C.flatMap Frame.held := fun b i ↦ by
    rw [mem_held_plug]
    simp [Tree.held, eq_comm, and_comm]
  have hheld' : ∀ b i, (b, i) ∈ (plug C B).held ↔
      (b = B.id ∧ B.jump = some i) ∨ (b, i) ∈ C.flatMap Frame.held := fun b i ↦ by
    rw [mem_held_plug, Tree.held_eq, hB]
    simp [eq_comm, and_comm]
  refine ⟨h.rehang hf hm' hkeep' (fun i ↦ ?_) (fun b i hi ↦ ?_) (fun i hi ↦ ?_) ?_, hm', hkeep',
    ?_⟩
  · rw [hT, Tree.mem_jumps, Tree.mem_jumps]
    simp only [hheld, hheld', exists_or, exists_and_right, exists_eq]
  · rw [hsource, hsrc]
    rcases (hheld b i).mp hi with ⟨rfl, hj⟩ | hj
    · rw [if_pos hj]
    · have hb : (b, i) ∈ (a.tree f).held := hT ▸ (hheld' b i).mpr (.inr hj)
      rw [if_neg, h.sourced hf b i hb]
      intro hBi
      obtain rfl := (h.unique_holder hf hT hBi).2.2 b (hT ▸ hb)
      exact hat.disjoint B.id_mem_ids (Tree.mem_ids_of_held_frames hj)
  · rw [hsource, hsrc, if_neg]
    exact fun hBi ↦ h.ne_of_not_listed hf hT hBi hi rfl
  · refine htidy.plug (Tree.tidy_leaf hk) fun hp ↦ ⟨hp.1, hk⟩
  · rw [← heq, content_retargetGrowth, content_replaceBlock, content_moveJump]

/-- A rule has folded the tree of `f`, and the statement it yields is part of it. -/
structure FoldedAt (L : FlowId → Prop) (f : FlowId) (a : Analysis) (r : Analysis × BlockId) : Prop
    extends Folded L f a r.1 where
  mem : r.2 ∈ (r.1.tree f).ids

theorem Folded.at (h : Folded L f a a') (h' : FoldedAt L f a' r) : FoldedAt L f a r where
  toFolded := h.trans h'.toFolded
  mem := h'.mem

theorem WellFormed.replaceRun {D : List Frame} {l : List Tree} (h : a.WellFormed L) (hf : L f)
    (hl : Tree.Precedes (plug D B) l T) (hT : a.tree f = plug E T) (hs : ∀ P ∈ l, P.Simple)
    (hB : B.children.flatMap Tree.held = []) (hc : s.children = []) (hk : s.kind.Simple)
    (hfold : ∀ n, Tree.Folds (fun i ↦ (a.jump i).destination) (plug E (plug D B)) (plug E (plug D (.node n B.jump s.kind [])))) :
    FoldedAt L f a (a.replaceRun (l.map Tree.id) B.id s) := by
  obtain ⟨hr₁, hloose⟩ := h.planted.alloc hf hc
  have h₁ : (a.alloc s).1.WellFormed L := h.reshapes hr₁ (fun _ ↦ Iff.rfl) (h.tidy f hf)
  have he₁ : Folded L f a (a.alloc s).1 :=
    ⟨.of_keeps h₁ hr₁.toMoves hr₁.graph rfl
      ((Edits.refl a).alloc (origin_of_simple hk)).makesNoSwitch, hr₁.tree ▸ .refl _⟩
  obtain ⟨he₂, hT₂, -⟩ := h₁.dropRun hf hl (hr₁.tree.trans hT) hs
  obtain ⟨T₂, hm₂⟩ := he₂.moves
  have hloose₂ := hloose.moves hf hm₂ fun _ ↦ False.elim
  obtain ⟨h₃, hm₃, hk₃, hc₃⟩ := he₂.wellFormed.replaceStatement hf
    (by rw [hT₂, plug_append]) hB hloose₂ (by rintro hk'; rw [hk'] at hk; exact hk)
  have he := he₁.trans he₂
  have hmoves : Moves (fun _ ↦ False) L f _ a _ :=
    (hr₁.toMoves.andThen hm₂).trans hm₃ fun b hb ↦ .inr (.inr ?_)
  · refine ⟨⟨⟨h₃, ⟨_, hmoves⟩, he.thinned.trans (.of_keeps hk₃), fun e v hv ↦ ?_,
      he.switches.trans ((Edits.refl _).replaceStatement _ _).makesNoSwitch⟩, ?_⟩, ?_⟩
    · rw [show (a.replaceRun (l.map Tree.id) B.id s).1.exprs = _ from congrArg Prod.fst hc₃]
      exact he.literal e v hv
    · rw [show (a.replaceRun (l.map Tree.id) B.id s).1.tree f = _ from hm₃.tree, plug_append]
      refine he.folds.trans ?_
      rw [hT₂]
      exact hfold _
    · rw [show (a.replaceRun (l.map Tree.id) B.id s).1.tree f = _ from hm₃.tree, mem_ids_plug]
      exact .inl (Tree.id_mem_ids _)
  · obtain rfl : b = ⟨a.blocks.size⟩ := by simpa [Tree.ids] using hb
    exact Nat.le_refl _

end Replace

section Rules

theorem WellFormed.simple_of_onStack (h : a.WellFormed L) (hf : L f) (hT : a.tree f = plug C P)
    (hP : P.Plain) (hs : a.OnStack P.id) : P.Simple := by
  have hat := h.planted.at_of_plug hf hT
  have hk : (a.statement P.id).kind = P.kind := hat.holds.kind
  have hc : (a.statement P.id).children = P.children.map Tree.id := hat.holds.children
  rw [children_of_simple hs] at hc
  exact ⟨hP.1, hk ▸ hs, by simpa using hc.symm⟩

theorem WellFormed.eq_push {x : ExprId × Nat} (h : a.WellFormed L) (hf : L f)
    (hT : a.tree f = plug C P) (hx : a.pushed? P.id = some x) :
    P = .node P.id none (.evaluate x.1 x.2) [] := by
  have hat := h.planted.at_of_plug hf hT
  have hk : (a.statement P.id).kind = P.kind := hat.holds.kind
  have hc : (a.statement P.id).children = P.children.map Tree.id := hat.holds.children
  rw [children_of_simple (onStack_of_pushed? hx)] at hc
  rw [pushed?] at hx
  split at hx
  next e w he =>
    split at hx
    next hj =>
      cases hx
      have hPj : P.jump = none := hat.holds.jump.symm.trans (Option.isNone_iff_eq_none.mp hj.2)
      rw [he] at hk
      obtain ⟨b, i, k, ch⟩ := P
      obtain rfl : i = none := hPj
      obtain rfl : Kind.evaluate e w = k := hk
      obtain rfl : ch = [] := by simpa using hc
      rfl
    next => cases hx
  next => cases hx

theorem WellFormed.run (h : a.WellFormed L) (hf : L f) (hb : b ∈ (a.tree f).ids)
    {run : List BlockId} (hr : a.blocks.preceding b n = some run) (hs : ∀ p ∈ run, a.OnStack p) :
    ∃ C E D l T B, a.tree f = plug C B ∧ a.tree f = plug E T ∧
      Tree.Precedes (plug D B) l T ∧ AtHead D ∧ (∀ P ∈ l, P.Simple) ∧ run = l.map Tree.id ∧
      B.id = b := by
  obtain ⟨C, B, hT, rfl⟩ := exists_plug_of_id hb
  obtain ⟨E, D, l, T, he, hl, hD, rfl, -⟩ := exists_preceding (h.planted.at_of_plug hf hT) hr
  have hT' := hT.trans he
  refine ⟨C, E, D, l, T, B, hT, hT', hl, ?_, fun P hP ↦ ?_, rfl, rfl⟩
  · obtain ⟨C', rfl, -⟩ := hl.exists_plug
    exact h.atHead (E := C' ++ E) hf (by rw [hT', plug_append]) hD
  · obtain ⟨C', q, j, Y, rfl⟩ := hl.mem_plug hP
    have hP' : a.tree f = plug (C' ++ E) (.node q j .sequence [P, Y]) := by rw [hT', plug_append]
    exact h.simple_of_onStack (C := ⟨q, j, .sequence, [], [Y]⟩ :: (C' ++ E)) hf hP'
      (h.sequence hf hP').2 (hs _ (List.mem_map_of_mem hP))

theorem WellFormed.rewrite (h : a.WellFormed L) (hf : L f) (hb : a'.blocks = a.blocks)
    (hg : a'.graph = a.graph) (hr : a'.frame = a.frame)
    (hl : a.exprs.KeepsLiterals a'.exprs) : Folded L f a a' ∧ a'.tree f = a.tree f := by
  obtain ⟨hre, hwf⟩ := h.beside hf hb hg hr
  exact ⟨⟨⟨hwf, ⟨_, hre.toMoves⟩, .of_keeps hre.graph, hl, .of_blocks hb⟩, hre.tree ▸ .refl _⟩,
    hre.tree⟩

theorem WellFormed.dropPreceding (h : a.WellFormed L) (hf : L f) (hb : b ∈ (a.tree f).ids)
    {run : List BlockId} (hr : a.blocks.preceding b n = some run) (hs : ∀ p ∈ run, a.OnStack p) :
    FoldedAt L f a (a.removeStatements run, b) := by
  obtain ⟨C, E, D, l, T, B, -, hT, hl, -, hsimple, rfl, rfl⟩ := h.run hf hb hr hs
  obtain ⟨he, hT', -⟩ := h.dropRun hf hl hT hsimple
  refine ⟨he, ?_⟩
  rw [hT', ← plug_append, mem_ids_plug]
  exact .inl B.id_mem_ids

theorem WellFormed.foldRun (h : a.WellFormed L) (hf : L f) (hb : b ∈ (a.tree f).ids)
    {run : List BlockId} (hr : a.blocks.preceding b n = some run) (hs : ∀ p ∈ run, a.OnStack p)
    (hbs : a.OnStack b) (hne : a.statement b ≠ .empty) (hk : s.kind.Simple) :
    FoldedAt L f a (a.replaceRun run b s) := by
  obtain ⟨C, E, D, l, T, B, hB, hT, hl, -, hsimple, rfl, rfl⟩ := h.run hf hb hr hs
  have hat := h.planted.at_of_plug hf hB
  have hkind : (a.statement B.id).kind = B.kind := hat.holds.kind
  have hchildren : B.children = [] := by
    have : (a.statement B.id).children = B.children.map Tree.id := hat.holds.children
    rw [children_of_simple hbs] at this
    simpa using this.symm
  have hsimple' : B.kind.Simple := hkind ▸ hbs
  have hempty : B.kind ≠ .empty := fun hk ↦ hne ((statement_eq_empty hat.holds).mpr ⟨hk, hchildren⟩)
  refine h.replaceRun hf hl hT hsimple (by simp [hchildren]) (children_of_simple hk) hk fun n ↦ ?_
  rw [← plug_append, ← plug_append]
  obtain ⟨x, e, k, ch⟩ := B
  obtain rfl : ch = [] := hchildren
  exact .leaf hsimple' hempty hk

end Rules

end Analysis

end Decompile
