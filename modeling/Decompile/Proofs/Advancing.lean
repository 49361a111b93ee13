import Decompile.Dispatcher
import Decompile.Proofs.Reaching

/-!
How the reduction goes on: one step takes two flow blocks together, closes a loop or applies a rule,
and every step but for the absorption of a flow block is made of edits.
-/

namespace Decompile.Analysis

variable {a a' a'' : Analysis} {b : BlockId} {f succ : FlowId} {j : JumpId}

namespace Edits

variable (h : Edits a a')
include h

section Resolve

theorem exchangeExit (b taken : BlockId) (cond : ExprId) : Edits a (a'.exchangeExit b taken cond) :=
  ((h.moveJump b taken).negate cond).setCondition b _

theorem guardRest (seq first taken rest : BlockId) (cond : ExprId) :
    Edits a (a'.guardRest seq first taken rest cond) :=
  ((((h.negate cond).setOuter rest none).alloc rfl).put _ _ _).retargetGrowth _ _

theorem attachElse (seq ite rest : BlockId) : Edits a (a'.attachElse seq ite rest) :=
  (((h.modifyStatement ite fun s ↦ by cases s <;> rfl).setOuter rest _).put _ _ _).retargetGrowth _ _

theorem breakOut (f : FlowId) (target : BlockId) (j : JumpId) :
    Edits a (a'.breakOut f target j) := by
  exact ((ite (fun _ ↦ h.setLabeled target) fun _ ↦ h).alloc rfl).replaceJumpWith f j _

theorem wrapInBreakable (f : FlowId) : Edits a (a'.wrapInBreakable f).1 :=
  (((h.allocExpr _).alloc rfl).setRoot f _).setGrowth f _

end Resolve

end Edits

section Resolve

open Offers (test)

theorem offers_invertCondition : Offers (Edits a) (a.invertCondition f succ j) := by
  refine .bind fun parent _ ↦ ?_
  split
  case h_2 => exact .none
  refine test fun _ ↦ ?_
  split
  · exact .some (((Edits.refl a).removeJump f j).exchangeExit _ _ _)
  · refine .bind fun seq _ ↦ ?_
    split
    case h_2 => exact .none
    exact test fun _ ↦ .some (((Edits.refl a).removeJump f j).guardRest _ _ _ _ _)

theorem offers_convertToElse : Offers (Edits a) (a.convertToElse f j) := by
  refine .bind fun ite _ ↦ ?_
  split
  case h_2 => exact .none
  refine test fun _ ↦ .bind fun seq _ ↦ ?_
  split
  case h_2 => exact .none
  exact test fun _ ↦
    .some ((((Edits.refl a).removeJump f j).dropIfEmpty _).attachElse _ _ _)

theorem offers_breakToSuccessor : Offers (Edits a) (a.breakToSuccessor f succ j) :=
  .bind fun target _ ↦ .some ((Edits.refl a).breakOut f target j)

theorem offers_resolveJump : Offers (Edits a) (a.resolveJump f succ j) := by
  unfold resolveJump
  dsimp only
  split
  · exact .some (((Edits.refl a).removeJump f j).dropIfEmpty _)
  split
  · exact .none
  · exact offers_invertCondition.orElse (offers_convertToElse.orElse offers_breakToSuccessor)

theorem edits_resolvePass (f succ : FlowId) (js : List JumpId) (a : Analysis) :
    Edits a (resolvePass f succ js a).1 := by
  induction js generalizing a with
  | nil => exact .refl a
  | cons j rest ih =>
    unfold resolvePass
    split
    next a' ha => exact (offers_resolveJump a' ha).trans (ih a')
    next => exact ih a

theorem edits_resolvePending (f succ : FlowId) (js : List JumpId) (a : Analysis) :
    Edits a (resolvePending f succ js a).1 := by
  have hp := edits_resolvePass f succ js a
  rw [resolvePending]
  dsimp only
  split
  · exact hp
  split
  next hlt => exact hp.trans (edits_resolvePending f succ _ _)
  next => exact hp
termination_by js.length

theorem edits_resolveJumpsTo (a : Analysis) (f succ : FlowId) :
    Edits a (a.resolveJumpsTo f succ) := by
  have hp := edits_resolvePending f succ (a.graph.jumpsTo f succ) a
  refine .ite (fun _ ↦ hp) fun _ ↦ ?_
  exact (hp.wrapInBreakable f).foldl (fun a j ↦ (Edits.refl a).breakOut f _ j) _

end Resolve

section Loop

open Offers (test)

theorem edits_sinkJump (f : FlowId) (top : BlockId) (j : JumpId) (n : Nat) (b : BlockId)
    (a : Analysis) : Edits a (sinkJump f top j n b a) := by
  induction n generalizing b with
  | zero => exact (Edits.refl a).moveJump top b
  | succ n ih =>
    unfold sinkJump
    split
    · exact .ite (fun _ ↦ (Edits.refl a).removeJump f j) fun _ ↦ ih _
    · exact (Edits.refl a).moveJump top b

theorem edits_normalizeRootJump (a : Analysis) (f : FlowId) : Edits a (a.normalizeRootJump f) := by
  unfold normalizeRootJump
  dsimp only
  split
  · exact .ite (fun _ ↦ edits_sinkJump _ _ _ _ _ _) fun _ ↦ .refl a
  · exact .refl a

theorem Edits.makeLoop (h : Edits a a') (f : FlowId) (kind : LoopKind) (cond : ExprId)
    (body : BlockId) : Edits a (a'.makeLoop f kind cond body).1 := by
  unfold Analysis.makeLoop
  refine ((Edits.alloc ?_ rfl).setRoot f _)
  split
  · exact (((h.alloc rfl).moveJump _ _).alloc rfl)
  · exact h

theorem Edits.setExit (h : Edits a a') (looped : BlockId) (exit : Option JumpId) :
    Edits a (a'.setExit looped exit) := by
  cases exit with
  | none => exact h
  | some j => exact (h.setJumpOf _ _).setSource _ _

theorem Edits.formDoWhile (h : Edits a a') (f : FlowId) (test : BlockId) (cond : ExprId) :
    Edits a (a'.formDoWhile f test cond).1 := by
  have hset := h.setJumpOf test none
  unfold Analysis.formDoWhile
  dsimp only
  by_cases htest : test = (a'.setJumpOf test none).root f
  · rw [if_pos htest]
    exact ((hset.alloc rfl).makeLoop f _ _ _).setExit _ _
  · rw [if_neg htest]
    exact ((hset.removeStatement test).makeLoop f _ _ _).setExit _ _

theorem offers_closeDoWhile : Offers (fun r ↦ Edits a r.1) (a.closeDoWhile f) := by
  unfold closeDoWhile
  split
  case h_2 => exact .none
  refine .bind fun test _ ↦ ?_
  split
  case h_2 => exact .none
  exact Offers.test fun _ ↦ .some (((Edits.refl a).removeJump f _).formDoWhile f test _)

theorem Edits.formWhile (h : Edits a a') (f : FlowId) (head taken : BlockId) (cond : ExprId) :
    Edits a (a'.formWhile f head taken cond).1 := by
  have hneg := h.negate cond
  unfold Analysis.formWhile
  dsimp only
  by_cases hhead : head = (a'.negate cond).1.root f
  · rw [if_pos hhead]
    exact (((hneg.alloc rfl).moveJump _ _).makeLoop f _ _ _).moveJump _ _
  · rw [if_neg hhead]
    exact ((hneg.removeStatement head).makeLoop f _ _ _).moveJump _ _

theorem offers_closeWhile : Offers (fun r ↦ Edits a r.1) (a.closeWhile f) := by
  unfold closeWhile
  dsimp only
  split
  case h_2 => exact .none
  exact .bind fun _ _ ↦ test fun _ ↦ test fun _ ↦ .some ((Edits.refl a).formWhile f _ _ _)

theorem edits_closeJump (f : FlowId) (looped : BlockId) (a : Analysis) (j : JumpId) :
    Edits a (closeJump f looped a j).1 := by
  unfold closeJump
  split
  case h_2 => exact .refl a
  dsimp only
  split
  · exact ((Edits.refl a).removeJump f j).dropIfEmpty _
  · refine (Edits.alloc ?_ rfl).replaceJumpWith f j _
    exact .ite (fun _ ↦ (Edits.refl a).setLabeled looped) fun _ ↦ .refl a

theorem edits_closeJumps (f : FlowId) (looped : BlockId) (js : List JumpId) (a : Analysis) :
    Edits a (closeJumps f looped js a).1 := by
  induction js generalizing a with
  | nil => exact .refl a
  | cons j rest ih => exact (edits_closeJump f looped a j).trans (ih _)

theorem edits_splitIncrement (a : Analysis) (looped : BlockId) :
    Edits a (a.splitIncrement looped) := by
  unfold splitIncrement
  split
  · exact (((Edits.refl a).removeStatement _).modifyStatement looped fun s ↦ by
      cases s <;> rfl).setOuter _ _
  · exact .refl a

theorem edits_closed (a : Analysis) (f : FlowId) :
    Edits a ((a.closeDoWhile f <|> a.closeWhile f).getD (a.closeForever f)).1 := by
  have hoffer := (offers_closeDoWhile (a := a) (f := f)).orElse (offers_closeWhile (f := f))
  generalize (a.closeDoWhile f <|> a.closeWhile f) = r at hoffer
  cases r with
  | none => exact ((Edits.refl a).allocExpr _).makeLoop f _ _ _
  | some x => exact hoffer x rfl

theorem edits_loopBack (a : Analysis) (f : FlowId) : Edits a (a.loopBack f).1 := by
  have hloop := (edits_normalizeRootJump a f).trans (edits_closed _ f)
  unfold loopBack
  dsimp only
  generalize ((a.normalizeRootJump f).closeDoWhile f <|>
    (a.normalizeRootJump f).closeWhile f).getD ((a.normalizeRootJump f).closeForever f) = r at hloop ⊢
  have hjumps := hloop.trans (edits_closeJumps f r.2 (r.1.graph.jumpsTo f f) r.1)
  have hedge := hjumps.removeEdge f f
  have hsplit := hedge.trans (edits_splitIncrement _ r.2)
  exact ((Edits.ite (fun _ ↦ hedge) fun _ ↦ hsplit).mergeBySlot _ _).setGrowth f r.2

end Loop

section Absorb

theorem Edits.appendTree (h : Edits a a') (f : FlowId) (tail next : BlockId) :
    Edits a (a'.appendTree f tail next) :=
  .ite (fun _ ↦ (h.moveJump next tail).setGrowth f tail)
    fun _ ↦ (h.wrapSequential tail next).setGrowth f next

theorem exists_joinSuccessor (a : Analysis) (f succ : FlowId) :
    ∃ a₁ a₂ edge, Edits a a₁ ∧ Edits { a₁ with graph := a₁.graph.removeEdge f succ } a₂ ∧
      (a.joinSuccessor f succ).1 = a₂.absorb f succ edge :=
  ⟨a.resolveJumpsTo f succ, _, _, edits_resolveJumpsTo a f succ,
    (Edits.refl _).appendTree f _ _, rfl⟩

theorem exists_mergeCase (a : Analysis) (f : FlowId) (switch block body : BlockId) (j : JumpId)
    (target : FlowId) (fellIn : List JumpId) :
    ∃ a₁ a₂ edge, Edits a a₁ ∧ Edits { a₁ with graph := a₁.graph.removeEdge f target } a₂ ∧
      Edits (a₂.absorb f target edge) (a.mergeCase f switch block body j target fellIn) := by
  have hfell : Edits a (fellIn.foldl (fun a other ↦
      (a.removeJump f other).dropIfEmpty (a.jump other).source) a) :=
    (Edits.refl a).foldl (fun a other ↦ ((Edits.refl a).removeJump f other).dropIfEmpty _) fellIn
  refine ⟨_, _, _, hfell.removeJump f j, ?_, ((Edits.refl _).setGrowth f switch).checkpoint⟩
  have hput := (Edits.refl { (fellIn.foldl (fun a other ↦
      (a.removeJump f other).dropIfEmpty (a.jump other).source) a).removeJump f j with
    graph := ((fellIn.foldl (fun a other ↦
      (a.removeJump f other).dropIfEmpty (a.jump other).source) a).removeJump f j).graph.removeEdge
        f target }).put (.child block) body
  exact .ite (fun _ ↦ hput _) fun _ ↦ (hput _).modifyStatement block fun s ↦ by cases s <;> rfl

end Absorb

theorem Edit.core_eq (h : Edit a a') (g : FlowId) : (a'.flow g).core = (a.flow g).core := by
  cases h with
  | source j b => exact (FlowGraph.Keeps.modifyJump a.graph j b).core g
  | unlink f j => exact (FlowGraph.Relinked.unlinkJump a.graph f j).core g
  | dropEdge f d => exact (FlowGraph.Relinked.removeEdge a.graph f d).core g
  | outline f k hk => exact (FlowGraph.Keeps.modifyFlow a.graph f hk).core g
  | _ => rfl

theorem Edits.core_eq (h : Edits a a') (g : FlowId) : (a'.flow g).core = (a.flow g).core := by
  induction h with
  | refl => rfl
  | tail _ h' ih => exact (h'.core_eq g).trans ih

theorem Edits.alive_eq (h : Edits a a') (g : FlowId) : (a'.flow g).alive = (a.flow g).alive :=
  (congrArg Flow.alive (h.core_eq g) :)

theorem Edits.addr_eq (h : Edits a a') (g : FlowId) : (a'.flow g).addr = (a.flow g).addr :=
  (congrArg Flow.addr (h.core_eq g) :)

theorem Edits.stop_eq (h : Edits a a') (g : FlowId) : (a'.flow g).stop = (a.flow g).stop :=
  (congrArg Flow.stop (h.core_eq g) :)

theorem alive_of_modifyFlow {k : Flow → Flow} {g : FlowId}
    (h : ((a.modifyFlow f k).flow g).alive = true)
    (hk : ∀ x, (k x).alive = true → x.alive = true) : (a.flow g).alive = true := by
  rw [modifyFlow, flow, FlowGraph.flow_modifyFlow] at h
  split at h
  · exact hk _ h
  · exact h

/-- The flow block `s`, at `lo` or beyond it, can be put behind or before the tree of `f`. Both take
part in the reduction. -/
structure Borders (P : FlowId → Prop) (lo : Nat) (a : Analysis) (f s : FlowId) : Prop where
  flow : P f
  succ : P s
  ne : s ≠ f
  adjacent : (a.flow s).addr = (a.flow f).stop ∨ (a.flow s).stop = (a.flow f).addr
  pred : (a.flow s).predecessors = [f]
  lo_le : lo ≤ (a.flow s).addr

/-- One step of the reduction, with what has been tested before it. What it absorbs starts at `lo`
or beyond. -/
inductive Advance (P : FlowId → Prop) (lo : Nat) (a : Analysis) : Analysis → Prop
  | tick {a' : Analysis} : a.tick = some a' → Advance P lo a a'
  | check : Advance P lo a a.checkpoint
  | fold {b : BlockId} {rule : Rule} {r : Analysis × BlockId} : rule.apply a b = some r →
    Advance P lo a { r.1 with applied := r.1.applied + 1 }
  | loop {f : FlowId} : P f → f ∈ (a.flow f).predecessors →
    Advance P lo a (a.loopBack f).1
  | join {f s : FlowId} : Borders P lo a f s → Advance P lo a (a.joinSuccessor f s).1
  | merge {f s : FlowId} {w c b : BlockId} {j : JumpId} : Borders P lo a f s →
    Advance P lo a (a.mergeCase f w c b j s ((a.graph.jumpsTo f s).filter (· ≠ j)))

def Advances (P : FlowId → Prop) (lo : Nat) : Analysis → Analysis → Prop :=
  Relation.ReflTransGen (Advance P lo)

/-- The edge from `f` to `s` goes, then `f` absorbs `s`, with edits before and after. -/
def Absorbs (f s : FlowId) (a a' : Analysis) : Prop :=
  ∃ a₁ a₂ edge, Edits a a₁ ∧ Edits { a₁ with graph := a₁.graph.removeEdge f s } a₂ ∧
    Edits (a₂.absorb f s edge) a'

section Advance

variable {P : FlowId → Prop} {lo : Nat} {g s : FlowId}

theorem Advance.edits_or_absorbs (h : Advance P lo a a') :
    Edits a a' ∨ ∃ f s, Borders P lo a f s ∧ Absorbs f s a a' := by
  cases h with
  | tick h => exact .inl ((Edits.refl a).tick h)
  | check => exact .inl (Edits.refl a).checkpoint
  | fold h => exact .inl ((offers_apply a _ _ _ h).edits.step (.count _))
  | @loop f _ _ => exact .inl (edits_loopBack a f)
  | @join f s h =>
    obtain ⟨a₁, a₂, edge, h₁, h₂, he⟩ := exists_joinSuccessor a f s
    exact .inr ⟨f, s, h, a₁, a₂, edge, h₁, h₂, he ▸ .refl _⟩
  | @merge f s w c b j h =>
    exact .inr ⟨f, s, h, exists_mergeCase a f w c b j s _⟩

theorem Absorbs.alive_of (h : Absorbs f s a a') (hg : (a'.flow g).alive = true) :
    (a.flow g).alive = true := by
  obtain ⟨a₁, a₂, edge, h₁, h₂, h₃⟩ := h
  rw [h₃.alive_eq] at hg
  have hg₂ := alive_of_absorb hg
  rwa [((h₁.removeEdge f s).trans h₂).alive_eq] at hg₂

theorem Absorbs.le_addr (h : Absorbs f s a a') (hfs : f ≠ s) (hs : lo ≤ (a.flow s).addr)
    (hg : lo ≤ (a.flow g).addr) : lo ≤ (a'.flow g).addr := by
  obtain ⟨a₁, a₂, edge, h₁, h₂, h₃⟩ := h
  have hedits := (h₁.removeEdge f s).trans h₂
  rw [h₃.addr_eq, (span_absorb a₂ hfs edge g).2.1]
  split
  next hgf =>
    rw [hedits.addr_eq, hedits.addr_eq, ← hgf.1]
    exact le_min hg hs
  next => rwa [hedits.addr_eq]

theorem Advance.alive_of (h : Advance P lo a a') (hg : (a'.flow g).alive = true) :
    (a.flow g).alive = true := by
  obtain h | ⟨f, s, hb, h⟩ := h.edits_or_absorbs
  · rwa [h.alive_eq] at hg
  · exact h.alive_of hg

theorem Advance.le_addr (h : Advance P lo a a') (hg : lo ≤ (a.flow g).addr) :
    lo ≤ (a'.flow g).addr := by
  obtain h | ⟨f, s, hb, h⟩ := h.edits_or_absorbs
  · rwa [h.addr_eq]
  · exact h.le_addr hb.ne.symm hb.lo_le hg

/-- What is alive takes part. -/
def Guarded (P : FlowId → Prop) (a : Analysis) : Prop := ∀ g, (a.flow g).alive = true → P g

namespace Advances

theorem refl (a : Analysis) : Advances P lo a a := Relation.ReflTransGen.refl

theorem trans (h : Advances P lo a a') (h' : Advances P lo a' a'') : Advances P lo a a'' :=
  Relation.ReflTransGen.trans h h'

theorem step (h : Advances P lo a a') (h' : Advance P lo a' a'') : Advances P lo a a'' :=
  Relation.ReflTransGen.tail h h'

theorem alive_of (h : Advances P lo a a') (hg : (a'.flow g).alive = true) :
    (a.flow g).alive = true := by
  induction h with
  | refl => exact hg
  | tail _ h' ih => exact ih (h'.alive_of hg)

theorem guarded (h : Advances P lo a a') (ha : Guarded P a) : Guarded P a' :=
  fun g hg ↦ ha g (h.alive_of hg)

theorem le_addr (h : Advances P lo a a') (hg : lo ≤ (a.flow g).addr) : lo ≤ (a'.flow g).addr := by
  induction h with
  | refl => exact hg
  | tail _ h' ih => exact h'.le_addr ih

end Advances

end Advance

section Reduction

variable {P : FlowId → Prop} {lo : Nat} {reduce : FlowId → Window → Analysis → Analysis × Bool} {w : Window}

theorem advances_foldWithin (P : FlowId → Prop) (lo n : Nat) (b : BlockId) (a : Analysis) :
    Advances P lo a (foldWithin n b a) := by
  induction n generalizing b a with
  | zero => exact .refl a
  | succ n ih =>
    unfold foldWithin
    split
    next => exact .refl a
    next a₁ ht =>
      have htick : Advances P lo a a₁ := (Advances.refl a).step (.tick ht)
      split
      next new a₂ hrule =>
        obtain ⟨rule, -, r, hr, he⟩ := exists_of_applyFirst (applyFirst_of_applyRules hrule)
        obtain ⟨rfl, rfl⟩ := Prod.mk.inj he
        exact (htick.step (.fold hr)).trans (ih _ _)
      next a₂ hrule =>
        obtain rfl := (declined_of_applyRules hrule).2
        split
        · exact htick.trans (ih _ _)
        · exact htick

theorem advances_appendSuccessor {s : FlowId} (h : Borders P lo a f s) :
    Advances P lo a (a.appendSuccessor f s) :=
  (((Advances.refl a).step (.join h)).step .check).trans (advances_foldWithin P lo _ _ _)

theorem advances_closeLoop (hf : P f) (h : a.closeLoop f w = some a') : Advances P lo a a' := by
  unfold closeLoop at h
  split at h
  next hhead =>
    have hself : f ∈ (a.flow f).predecessors := by
      simpa using ((Bool.and_eq_true _ _).mp hhead).1
    obtain rfl := Option.some.inj h
    exact (((Advances.refl a).step (.loop hf hself)).step .check).trans (advances_foldWithin P lo _ _ _)
  next => cases h

/-- The reduction of a flow block that starts at `lo` or beyond, in a window that does. -/
def Forward (P : FlowId → Prop) (lo : Nat)
    (reduce : FlowId → Window → Analysis → Analysis × Bool) : Prop :=
  ∀ f w a, Guarded P a → P f → lo ≤ w.start → lo ≤ (a.flow f).addr →
    Advances P lo a (reduce f w a).1

variable (hr : Forward P lo reduce) (hf : P f) (ha : Guarded P a)
  (hlo : lo ≤ (a.flow f).addr)
include hr hf ha hlo

theorem advances_mergeCases (hw : lo ≤ w.start) {switch : BlockId} {cases : List BlockId}
    {previous : Option BlockId} {changed : Bool} :
    Advances P lo a (mergeCases reduce f w switch cases previous changed a).1 := by
  induction cases generalizing previous changed a with
  | nil => exact .refl a
  | cons c rest ih =>
    rw [mergeCases]
    split
    next => exact ih ha hlo
    next b j s hp =>
      split
      · exact .refl a
      next hs =>
        obtain ⟨hsf, hwin⟩ : s ≠ f ∧ (a.flow s).inWindow w = true := by simpa using hs
        obtain ⟨⟨halive, hstart⟩, -⟩ := inWindow_eq_true.mp hwin
        have hsent := ha s halive
        have hslo : lo ≤ (a.flow s).addr := hw.trans hstart
        extract_lets addr
        have hred := hr s ⟨addr, a.caseBoundary rest addr w.stop⟩ a ha hsent hslo hslo
        generalize reduce s ⟨addr, a.caseBoundary rest addr w.stop⟩ a = r at hred ⊢
        obtain ⟨a', reduced⟩ := r
        dsimp only at hred ⊢
        split
        next hguard =>
          have hb : Borders P lo a' f s :=
            ⟨hf, hsent, hsf, .inl hguard.1, hguard.2.1, hred.le_addr hslo⟩
          have hstep := hred.step (.merge (w := switch) (c := c) (b := b) (j := j) hb)
          exact hstep.trans (ih (hstep.guarded ha) (hstep.le_addr hlo))
        next => exact hred

theorem advances_mergeSwitch (hw : lo ≤ w.start) :
    Advances P lo a (a.mergeSwitch reduce f w).1 := by
  rw [mergeSwitch]
  split
  · exact advances_mergeCases hr hf ha hlo hw
  · exact .refl a

end Reduction

theorem rounds_advances (P : FlowId → Prop) (lo : Nat) : Rounds fun f w a a' ↦ Guarded P a → P f →
    lo ≤ w.start → lo ≤ (a.flow f).addr → Advances P lo a a' where
  refl _ _ a _ _ _ _ := .refl a
  trans h h' ha hf hw hlo := by
    have h := h ha hf hw hlo
    exact h.trans (h' (h.guarded ha) hf hw (h.le_addr hlo))
  tick ht _ _ _ _ := (Advances.refl _).step (.tick ht)
  switch _ _ _ _ hr ha hf hw hlo := advances_mergeSwitch hr hf ha hlo hw
  loop hc _ hf _ _ := advances_closeLoop hf hc
  append _ hsf hwin h hadj hpred ha hf hw hlo := by
    obtain ⟨⟨halive, hstart⟩, -⟩ := inWindow_eq_true.mp hwin
    have h := h ha hf hw hlo
    exact h.trans (advances_appendSuccessor
      ⟨hf, ha _ halive, hsf, hadj, hpred, h.le_addr (hw.trans hstart)⟩)
  inner _ _ _ _ hwin h _ hin ha hf hw hlo := by
    obtain ⟨⟨halive, hstart⟩, -⟩ := inWindow_eq_true.mp hwin
    have h := h ha hf hw hlo
    exact h.trans (hin (h.guarded ha) (ha _ halive) ((h.le_addr hlo).trans (Nat.le_add_right _ _))
      (h.le_addr (hw.trans hstart)))

theorem forward_reduceWithin (P : FlowId → Prop) (lo n : Nat) (changed : Bool) :
    Forward P lo (reduceWithin n changed) :=
  (rounds_advances P lo).reduceWithin n changed

theorem advances_reduce {P : FlowId → Prop} {lo : Nat} {w : Window} (ha : Guarded P a) (hf : P f)
    (hw : lo ≤ w.start) (hlo : lo ≤ (a.flow f).addr) : Advances P lo a (a.reduce f w).1 :=
  forward_reduceWithin P lo _ _ f w a ha hf hw hlo

theorem advances_reduceAll {P : FlowId → Prop} (ha : Guarded P a) (he : P a.entry) :
    Advances P 0 a a.reduceAll.1 :=
  (rounds_advances P 0).reduceAllWithin _ _ _ ha he (Nat.zero_le _) (Nat.zero_le _)

section Handlers

theorem edits_makeCatch (a : Analysis) (handler : FlowId) (type : Option Name) :
    Edits a (a.makeCatch handler type).1 := by
  have hr := Edits.refl a
  refine Edits.alloc ?_ rfl
  split
  · exact hr.discardStatement _
  · exact hr.discardStatement _
  · have hx : Edits a (a.addLocal .exception none).1 := hr.step .catches
    exact ((hx.allocExpr _).alloc rfl).insertBefore _ _

theorem Edits.discardTree (h : Edits a a') (f : FlowId) : Edits a (a'.discardTree f) :=
  (((h.removeJumps f).alloc rfl).setRoot f _).setGrowth f _

theorem Edits.removeCall (h : Edits a a') (b : BlockId) : Edits a (a'.removeCall b) := by
  exact .ite (fun _ ↦ (h.alloc rfl).replaceStatement b _) fun _ ↦ h.discardStatement b

theorem edits_removeCalls (a : Analysis) (f : FlowId) : Edits a (a.removeCalls f) := by
  refine (Edits.refl a).foldl (fun a g ↦ (Edits.refl a).foldl (fun a j ↦ ?_) _) _
  have hj := (Edits.refl a).removeJump g j
  dsimp only
  split
  · exact hj.removeCall _
  · exact hj

theorem edits_removeReleases (a : Analysis) (root : BlockId) (monitor : LocalId) :
    Edits a (a.removeReleases root monitor) := by
  refine (Edits.refl a).foldl (fun a b ↦ ?_) _
  exact .ite (fun _ ↦ (Edits.refl a).discardStatement b) fun _ ↦ .refl a

end Handlers

section Finish

theorem edits_mergeEnd (a : Analysis) (f : FlowId) : Edits a (a.mergeEnd f) := by
  refine Edits.removeEdge ?_ f .endOfMethod
  refine (Edits.refl a).foldl (fun a j ↦ ?_) _
  exact .ite (fun _ ↦ ((Edits.refl a).removeJump f j).dropIfEmpty _)
    fun _ ↦ ((Edits.refl a).alloc rfl).replaceJumpWith f j _

theorem edits_removeTrailingReturn (a : Analysis) (root : BlockId) :
    Edits a (a.removeTrailingReturn root) := by
  exact .ite (fun _ ↦ .ite (fun _ ↦ (Edits.refl a).removeStatement _)
    fun _ ↦ (Edits.refl a).setStatement _ rfl) fun _ ↦ .refl a

theorem edits_restoreIncrements (a : Analysis) (root : BlockId) :
    Edits a (a.restoreIncrements root) := by
  refine (Edits.refl a).foldl (fun a b ↦ ?_) _
  split
  · exact (((Edits.refl a).setOuter _ none).wrapSequential _ _).modifyStatement b
      fun s ↦ by cases s <;> rfl
  · exact .refl a

theorem edits_removeStore? {stores : List StackStore} {reads : List StackRead} {x : LocalId} :
    Offers (Edits a) (a.removeStore? stores reads x) := by
  unfold removeStore?
  split
  next store _ _ =>
    refine .some ?_
    exact .ite (fun _ ↦ (Edits.refl a).setStatement _ rfl) fun _ ↦
      .ite (fun _ ↦ (Edits.refl a).removeStatement _) fun _ ↦ (Edits.refl a).setStatement _ rfl
  next =>
    split
    · exact .some (((Edits.refl a).setExpr _ _).removeStatement _)
    · exact .none
  next => exact .none

theorem offers_inlineOne? : Offers (Edits a) a.inlineOne? := by
  intro a' h
  obtain ⟨x, -, hx⟩ := List.exists_of_findSome?_eq_some h
  exact edits_removeStore? a' hx

end Finish

end Decompile.Analysis
