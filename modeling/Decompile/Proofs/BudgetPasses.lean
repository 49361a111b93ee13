import Decompile.Proofs.Budget

/-!
What the passes over the flow blocks and over the tree do between the steps that they take, and
the passes that take none, do not depend on the budget.
-/

namespace Decompile

namespace Analysis

section Resolve

variable (u : Nat → Nat) (a : Analysis) (b : BlockId) (f succ : FlowId) (j : JumpId)

@[simp] theorem exchangeExit_refuel (taken : BlockId) (cond : ExprId) :
    (a.refuel u).exchangeExit b taken cond = (a.exchangeExit b taken cond).refuel u := by
  simp [exchangeExit]

@[simp] theorem guardRest_refuel (first taken rest : BlockId) (cond : ExprId) :
    (a.refuel u).guardRest b first taken rest cond =
      (a.guardRest b first taken rest cond).refuel u := by
  simp [guardRest]

theorem invertCondition_refuel :
    (a.refuel u).invertCondition f succ j = (a.invertCondition f succ j).map (refuel u) := by
  refine map_bind_of fun parent ↦ ?_
  rw [statement_refuel]
  split
  case h_2 => rfl
  refine map_bind_of fun _ ↦ map_ite_of (fun _ ↦ by simp) fun _ ↦ map_bind_of fun seq ↦ ?_
  rw [statement_refuel]
  split
  case h_2 => rfl
  exact map_bind_of fun _ ↦ by simp

@[simp] theorem attachElse_refuel (ite rest : BlockId) :
    (a.refuel u).attachElse b ite rest = (a.attachElse b ite rest).refuel u := by
  simp [attachElse]

theorem convertToElse_refuel :
    (a.refuel u).convertToElse f j = (a.convertToElse f j).map (refuel u) := by
  refine map_bind_of fun ite ↦ ?_
  rw [statement_refuel]
  split
  case h_2 => rfl
  refine map_bind_of fun _ ↦ map_bind_of fun seq ↦ ?_
  rw [statement_refuel]
  split
  case h_2 => rfl
  exact map_bind_of fun _ ↦ by simp

@[simp] theorem breakOut_refuel : (a.refuel u).breakOut f b j = (a.breakOut f b j).refuel u := by
  unfold breakOut
  by_cases h : a.blocks.innermostBreakable (a.jump j).source = some b <;> simp [h]

theorem breakToSuccessor_refuel :
    (a.refuel u).breakToSuccessor f succ j = (a.breakToSuccessor f succ j).map (refuel u) :=
  map_bind_of fun _ ↦ by simp

theorem resolveJump_refuel :
    (a.refuel u).resolveJump f succ j = (a.resolveJump f succ j).map (refuel u) := by
  refine map_ite_of (fun _ ↦ by simp) fun _ ↦ map_ite_of (fun _ ↦ rfl) fun _ ↦ ?_
  rw [invertCondition_refuel, convertToElse_refuel, breakToSuccessor_refuel, map_orElse,
    map_orElse]

theorem resolvePass_refuel (js : List JumpId) :
    resolvePass f succ js (a.refuel u) = fueled u (resolvePass f succ js a) := by
  induction js generalizing a with
  | nil => rfl
  | cons j js ih =>
    rw [resolvePass, resolvePass, resolveJump_refuel]
    cases a.resolveJump f succ j with
    | some a => exact ih a
    | none => simp only [Option.map_none, ih, fueled]

theorem resolvePending_refuel (js : List JumpId) :
    resolvePending f succ js (a.refuel u) = fueled u (resolvePending f succ js a) := by
  fun_induction resolvePending f succ js a with
  | case1 js a a' kept h hk =>
    rw [resolvePending, resolvePass_refuel, h]
    simp [hk]
  | case2 js a a' kept h hk hlt ih =>
    rw [resolvePending, resolvePass_refuel, h]
    simp only [fueled, hk, hlt]
    exact ih
  | case3 js a a' kept h hk hlt =>
    rw [resolvePending, resolvePass_refuel, h]
    simp [hk, hlt]

theorem exitsWithin_refuel (m : Nat) : (a.refuel u).exitsWithin m b = a.exitsWithin m b := by
  induction m generalizing b with
  | zero => rfl
  | succ m ih => simp only [exitsWithin, statement_refuel, jumpOf_refuel, ih]

@[simp] theorem wrapInBreakable_refuel :
    (a.refuel u).wrapInBreakable f = fueled u (a.wrapInBreakable f) := by
  simp [wrapInBreakable]

@[simp] theorem resolveJumpsTo_refuel :
    (a.refuel u).resolveJumpsTo f succ = (a.resolveJumpsTo f succ).refuel u := by
  unfold resolveJumpsTo
  rw [graph_refuel, resolvePending_refuel]
  generalize resolvePending f succ _ a = r
  obtain ⟨a, pending⟩ := r
  have htail : (a.refuel u).tailExits f = a.tailExits f := exitsWithin_refuel ..
  dsimp only [fueled_mk]
  rw [htail, wrapInBreakable_refuel, apply_ite (refuel u)]
  generalize a.wrapInBreakable f = r
  obtain ⟨a', wrapper⟩ := r
  dsimp only [fueled_mk]
  rw [foldl_refuel u (k := fun a j ↦ a.breakOut f wrapper j)
    fun a j ↦ breakOut_refuel u a wrapper f j]

end Resolve

section Loop

variable (u : Nat → Nat) (a : Analysis) (b : BlockId) (e : ExprId) (f : FlowId) (j : JumpId)

theorem sinkJump_refuel (m : Nat) (top : BlockId) :
    sinkJump f top j m b (a.refuel u) = (sinkJump f top j m b a).refuel u := by
  induction m generalizing b with
  | zero => exact moveJump_refuel ..
  | succ m ih =>
    rw [sinkJump, sinkJump, statement_refuel]
    split
    · simp only [jumpOf_refuel, ih, removeJump_refuel, apply_ite (refuel u)]
    · exact moveJump_refuel ..

@[simp] theorem normalizeRootJump_refuel :
    (a.refuel u).normalizeRootJump f = (a.normalizeRootJump f).refuel u := by
  simp only [normalizeRootJump, root_refuel, jumpOf_refuel]
  split
  · simp only [statement_refuel, blocks_refuel, sinkJump_refuel, apply_ite (refuel u)]
  · rfl

@[simp] theorem makeLoop_refuel (kind : LoopKind) (body : BlockId) :
    (a.refuel u).makeLoop f kind e body = fueled u (a.makeLoop f kind e body) := by
  unfold makeLoop
  by_cases h : ((a.jumpOf body).any fun j ↦ (a.jump j).destination ≠ f) = true
  · have h' : (((a.refuel u).jumpOf body).any fun j ↦
        ((a.refuel u).jump j).destination ≠ f) = true := h
    rw [if_pos h, if_pos h']
    simp
  · have h' : ¬ (((a.refuel u).jumpOf body).any fun j ↦
        ((a.refuel u).jump j).destination ≠ f) = true := h
    rw [if_neg h, if_neg h']
    simp

@[simp] theorem setExit_refuel (exit : Option JumpId) :
    (a.refuel u).setExit b exit = (a.setExit b exit).refuel u := by
  cases exit <;> rfl

@[simp] theorem formDoWhile_refuel :
    (a.refuel u).formDoWhile f b e = fueled u (a.formDoWhile f b e) := by
  unfold formDoWhile
  dsimp only [jumpOf_refuel]
  rw [setJumpOf_refuel, root_refuel]
  generalize a.setJumpOf b none = a'
  by_cases h : b = a'.root f
  · rw [if_pos h, if_pos h]
    simp
  · rw [if_neg h, if_neg h]
    simp

theorem closeDoWhile_refuel : (a.refuel u).closeDoWhile f = (a.closeDoWhile f).map (fueled u) := by
  rw [closeDoWhile, closeDoWhile, graph_refuel]
  split
  case h_2 => rfl
  refine map_bind_of fun test ↦ ?_
  rw [statement_refuel]
  split
  case h_2 => rfl
  exact map_bind_of fun _ ↦ by simp

@[simp] theorem formWhile_refuel (taken : BlockId) :
    (a.refuel u).formWhile f b taken e = fueled u (a.formWhile f b taken e) := by
  unfold formWhile
  rw [negate_refuel]
  generalize a.negate e = r
  obtain ⟨a, negated⟩ := r
  dsimp only
  rw [root_refuel]
  by_cases h : b = a.root f
  · rw [if_pos h, if_pos h]
    simp
  · rw [if_neg h, if_neg h]
    simp

theorem closeWhile_refuel : (a.refuel u).closeWhile f = (a.closeWhile f).map (fueled u) := by
  rw [closeWhile, closeWhile]
  dsimp only [root_refuel, blocks_refuel, statement_refuel]
  split
  case h_2 => rfl
  exact map_bind_of fun _ ↦ map_bind_of fun _ ↦ map_bind_of fun _ ↦ by simp

@[simp] theorem closeForever_refuel :
    (a.refuel u).closeForever f = fueled u (a.closeForever f) := by
  simp [closeForever]

@[simp] theorem closeJump_refuel : closeJump f b (a.refuel u) j = fueled u (closeJump f b a j) := by
  unfold closeJump
  rw [statement_refuel]
  split
  case h_2 => rfl
  next body _ _ =>
    by_cases h : a.blocks.fallsToEndOf (a.jump j).source body
    · simp [h]
    · by_cases h' : a.blocks.innermostLoop (a.jump j).source = some b <;> simp [h, h']

@[simp] theorem splitIncrement_refuel :
    (a.refuel u).splitIncrement b = (a.splitIncrement b).refuel u := by
  have hfound : (a.refuel u).incrementOf? b = a.incrementOf? b := rfl
  rw [splitIncrement, splitIncrement, hfound]
  split <;> simp

theorem closeJumps_refuel (js : List JumpId) :
    closeJumps f b js (a.refuel u) = fueled u (closeJumps f b js a) := by
  induction js generalizing a with
  | nil => rfl
  | cons j js ih => simp only [closeJumps, closeJump_refuel, fueled, ih]

@[simp] theorem loopBack_refuel : (a.refuel u).loopBack f = fueled u (a.loopBack f) := by
  have hclosed (a : Analysis) : ((a.refuel u).closeDoWhile f <|> (a.refuel u).closeWhile f).getD
      ((a.refuel u).closeForever f) =
        fueled u ((a.closeDoWhile f <|> a.closeWhile f).getD (a.closeForever f)) := by
    rw [closeDoWhile_refuel, closeWhile_refuel, map_orElse, closeForever_refuel,
      Option.getD_map]
  unfold loopBack
  dsimp only
  rw [normalizeRootJump_refuel, hclosed]
  generalize ((a.normalizeRootJump f).closeDoWhile f <|> (a.normalizeRootJump f).closeWhile f).getD
    _ = r
  obtain ⟨a', looped⟩ := r
  simp only [fueled_mk, graph_refuel, closeJumps_refuel]
  generalize closeJumps f looped _ a' = r
  obtain ⟨a', continues⟩ := r
  have hgraph : { a'.refuel u with graph := (a'.refuel u).graph.removeEdge f f } =
      ({ a' with graph := a'.graph.removeEdge f f }).refuel u := rfl
  dsimp only [fueled_mk]
  rw [hgraph]
  cases continues <;> simp

end Loop

section Sequence

variable (u : Nat → Nat) (a : Analysis) (b : BlockId) (f succ : FlowId)

@[simp] theorem appendTree_refuel (next : BlockId) :
    (a.refuel u).appendTree f b next = (a.appendTree f b next).refuel u := by
  simp [appendTree, apply_ite (refuel u)]

@[simp] theorem joinSuccessor_refuel :
    (a.refuel u).joinSuccessor f succ = fueled u (a.joinSuccessor f succ) := by
  simp only [joinSuccessor, resolveJumpsTo_refuel]
  generalize a.resolveJumpsTo f succ = a'
  have hgraph : { a'.refuel u with graph := (a'.refuel u).graph.removeEdge f succ } =
      ({ a' with graph := a'.graph.removeEdge f succ }).refuel u := rfl
  rw [hgraph]
  simp

@[simp] theorem mergeEnd_refuel : (a.refuel u).mergeEnd f = (a.mergeEnd f).refuel u := by
  unfold mergeEnd
  rw [foldl_refuel]
  · rfl
  · simp [apply_ite (refuel u)]

@[simp] theorem removeTrailingReturn_refuel :
    (a.refuel u).removeTrailingReturn b = (a.removeTrailingReturn b).refuel u := by
  simp [removeTrailingReturn, apply_ite (refuel u)]

@[simp] theorem restoreIncrements_refuel :
    (a.refuel u).restoreIncrements b = (a.restoreIncrements b).refuel u := by
  refine foldl_refuel u (fun a b ↦ ?_) _ a
  rw [statement_refuel]
  split <;> simp

@[simp] theorem mergeCase_refuel (block body : BlockId) (j : JumpId) (fellIn : List JumpId) :
    (a.refuel u).mergeCase f b block body j succ fellIn =
      (a.mergeCase f b block body j succ fellIn).refuel u := by
  unfold mergeCase
  rw [foldl_refuel u fun a j ↦ by simp]
  generalize fellIn.foldl _ a = a'
  dsimp only
  rw [removeJump_refuel]
  generalize a'.removeJump f j = a'
  have hgraph : { a'.refuel u with graph := (a'.refuel u).graph.removeEdge f succ } =
      ({ a' with graph := a'.graph.removeEdge f succ }).refuel u := rfl
  rw [hgraph]
  simp [← apply_ite (refuel u)]

end Sequence

section Handlers

variable (u : Nat → Nat) (a : Analysis) (b : BlockId) (f handler : FlowId)

@[simp] theorem absorbHandler_refuel :
    (a.refuel u).absorbHandler f handler = (a.absorbHandler f handler).refuel u := by
  simp [absorbHandler]

@[simp] theorem discardTree_refuel : (a.refuel u).discardTree f = (a.discardTree f).refuel u := by
  simp [discardTree]

@[simp] theorem makeCatch_refuel (type : Option Name) :
    (a.refuel u).makeCatch handler type = fueled u (a.makeCatch handler type) := by
  have hstored (b : BlockId) : (a.refuel u).storedException? b = a.storedException? b := rfl
  simp only [makeCatch, root_refuel, blocks_refuel, statement_refuel, hstored]
  generalize a.blocks.chainHead (a.root handler) = first
  cases a.storedException? first with
  | some x => simp [fueled]
  | none => split <;> simp [fueled]

@[simp] theorem removeCall_refuel : (a.refuel u).removeCall b = (a.removeCall b).refuel u := by
  simp [removeCall, apply_ite (refuel u)]

@[simp] theorem removeCalls_refuel : (a.refuel u).removeCalls f = (a.removeCalls f).refuel u := by
  refine foldl_refuel u (fun a g ↦ ?_) _ a
  refine foldl_refuel u (fun a j ↦ ?_) _ a
  simp only [jump_refuel, removeJump_refuel, outer_refuel]
  split <;> simp

@[simp] theorem removeReleases_refuel (monitor : LocalId) :
    (a.refuel u).removeReleases b monitor = (a.removeReleases b monitor).refuel u := by
  refine foldl_refuel u (fun a b ↦ ?_) _ a
  have hreleased : (a.refuel u).releasedMonitor? b = a.releasedMonitor? b := rfl
  simp [hreleased, apply_ite (refuel u)]

end Handlers

section Reachable

variable (u : Nat → Nat) (a : Analysis) (f : FlowId)

theorem strikeReached_refuel (unreached queue : List FlowId) :
    (a.refuel u).strikeReached unreached queue = a.strikeReached unreached queue := by
  fun_induction strikeReached a unreached queue with
  | case1 unreached => rw [strikeReached]
  | case2 unreached f queue h ih =>
    rw [strikeReached, if_pos h]
    exact ih
  | case3 unreached f queue h ih =>
    rw [strikeReached, if_neg h]
    exact ih

@[simp] theorem detach_refuel : (a.refuel u).detach f = (a.detach f).refuel u := by
  unfold detach
  rw [foldl_refuel u fun a pred ↦ by simp [apply_ite (refuel u)]]
  rfl

@[simp] theorem yieldRange_refuel : (a.refuel u).yieldRange f = (a.yieldRange f).refuel u := by
  have hbefore : (a.refuel u).graph.live.find? (fun other ↦
      ((a.refuel u).flow other).stop = ((a.refuel u).flow f).addr) =
        a.graph.live.find? fun other ↦ (a.flow other).stop = (a.flow f).addr := rfl
  have hafter : (a.refuel u).graph.live.find? (fun other ↦
      ((a.refuel u).flow other).addr = ((a.refuel u).flow f).stop) =
        a.graph.live.find? fun other ↦ (a.flow other).addr = (a.flow f).stop := rfl
  simp only [yieldRange, hbefore, hafter]
  split
  · rfl
  · split <;> rfl

@[simp] theorem removeUnreachable_refuel (handlers : List Nat) :
    (a.refuel u).removeUnreachable handlers = (a.removeUnreachable handlers).refuel u := by
  have hdead : (a.refuel u).unreachable handlers = a.unreachable handlers :=
    strikeReached_refuel ..
  unfold removeUnreachable
  rw [hdead]
  dsimp only
  rw [foldl_refuel u fun a f ↦ by simp, foldl_refuel u fun a f ↦ by simp,
    foldl_refuel u fun a f ↦ by simp, checkpoint_refuel]

end Reachable

section Dispatcher

variable (u : Nat → Nat) (a : Analysis) (f : FlowId)

@[simp] theorem allocSelect_refuel (selector : LocalId) (index : Nat) :
    (a.refuel u).allocSelect selector index = fueled u (a.allocSelect selector index) := by
  simp [allocSelect, fueled]

theorem allocRegions_refuel (regions : List FlowId) (index : Nat) :
    (a.refuel u).allocRegions index regions = fueled u (a.allocRegions index regions) := by
  induction regions generalizing a index with
  | nil => rfl
  | cons f rest ih => simp [allocRegions, ih]

theorem dispatchJump_refuel (regions : List FlowId) (selector : LocalId) (looped : BlockId)
    (dest : FlowId) (j : JumpId) :
    dispatchJump regions selector looped f dest (a.refuel u) j =
      (dispatchJump regions selector looped f dest a j).refuel u := by
  simp only [dispatchJump]
  split
  · by_cases h : a.blocks.innermostLoop (a.jump j).source = some looped <;> simp [h]
  · simp [apply_ite (refuel u)]

theorem dispatchJumps_refuel (regions : List FlowId) (selector : LocalId) (looped : BlockId) :
    dispatchJumps regions selector looped (a.refuel u) f =
      (dispatchJumps regions selector looped a f).refuel u := by
  refine foldl_refuel u (fun a dest ↦ ?_) _ a
  exact foldl_refuel u (fun a j ↦ dispatchJump_refuel u a f regions selector looped dest j) _ a

@[simp] theorem degrade_refuel : (a.refuel u).degrade = a.degrade.refuel u := by
  unfold degrade
  rw [entry_refuel, graph_refuel, addLocal_refuel]
  generalize a.graph.live.filter (· ≠ a.entry) = others
  generalize a.addLocal .selector none = r
  obtain ⟨a', selector⟩ := r
  dsimp only
  rw [allocRegions_refuel]
  generalize a'.allocRegions 0 (a.entry :: others) = r
  obtain ⟨a', cases⟩ := r
  simp only [fueled_mk, allocExpr_refuel, alloc_refuel, allocSelect_refuel, fst_fueled]
  generalize (alloc _ (.loop _ _ _ _ _ _)) = looped
  generalize a.entry :: others = regions
  rw [foldl_refuel u fun a f ↦ dispatchJumps_refuel u a f regions selector looped.2]
  rw [foldl_refuel u fun a f ↦ by rfl]
  simp

end Dispatcher

section Stack

variable (u : Nat → Nat)

theorem fill_refuel (a : Analysis) (es : List ExprId) (xs : List LocalId) :
    Mapping.fill (a.refuel u) es xs = (Mapping.fill a es xs).refuel u := by
  induction es generalizing a xs with
  | nil => rfl
  | cons e es ih =>
    cases xs with
    | nil => rfl
    | cons x xs => exact ih (a.setExpr e (.var x)) xs

end Stack

end Analysis

namespace Mapping

variable (u : Nat → Nat) (m : Mapping)

def refuel (u : Nat → Nat) (m : Mapping) : Mapping := { m with analysis := m.analysis.refuel u }

def fueled {α : Type} (u : Nat → Nat) (r : Mapping × α) : Mapping × α := (r.1.refuel u, r.2)

theorem consume_refuel (e : ExprId) (s : OperandStack) :
    (m.refuel u).consume e s = (m.consume e s).map (fueled u) := by
  refine map_except_of fun x ↦ ?_
  obtain ⟨rest, popped⟩ := x
  have hfill := Analysis.fill_refuel u m.analysis (m.analysis.exprs.freeOperands e) popped
  exact congrArg (fun a : Analysis ↦ Except.ok ({ m with analysis := a }, rest)) hfill

theorem consume?_refuel (e : Option ExprId) (s : OperandStack) :
    (m.refuel u).consume? e s = (m.consume? e s).map (fueled u) := by
  cases e with
  | none => rfl
  | some e => exact consume_refuel u m e s

theorem meet_refuel (s t : OperandStack) : (m.refuel u).meet s t = (m.meet s t).map (fueled u) := by
  have hlocals : (m.refuel u).analysis.locals = m.analysis.locals := rfl
  rw [meet, meet, hlocals]
  split <;> rfl

theorem join_refuel (s t : Outgoing) : (m.refuel u).join s t = (m.join s t).map (fueled u) := by
  cases s with
  | none => cases t <;> rfl
  | some s =>
    cases t with
    | none => rfl
    | some t => exact map_except_bind_of (meet_refuel u m s t) fun _ ↦ rfl

theorem joinBreaks_refuel (b : BlockId) (out : Outgoing) :
    (m.refuel u).joinBreaks b out = (m.joinBreaks b out).map (fueled u) :=
  join_refuel u { m with breaks := m.breaks.filter (·.1 ≠ b) } out (m.breaks.lookup b)

variable {map : BlockId → OperandStack → Mapping → Except StackError (Mapping × Outgoing)}

theorem mapCases_refuel (hmap : ∀ b s m, map b s (m.refuel u) = (map b s m).map (fueled u))
    (rest : OperandStack) (cases : List BlockId) (previous : Outgoing) (hasDefault : Bool)
    (m : Mapping) :
    mapCases map rest cases previous hasDefault (m.refuel u) =
      (mapCases map rest cases previous hasDefault m).map (fueled u) := by
  induction cases generalizing previous hasDefault m with
  | nil => rfl
  | cons b cases ih =>
    have hstatement : (m.refuel u).analysis.statement b = m.analysis.statement b := rfl
    rw [mapCases, mapCases, hstatement]
    split
    · exact map_except_bind_of (join_refuel u m _ _) fun _ ↦
        map_except_bind_of (hmap ..) fun _ ↦ ih ..
    · exact ih ..

theorem mapHandlers_refuel (hmap : ∀ b s m, map b s (m.refuel u) = (map b s m).map (fueled u))
    (handlers : List BlockId) (out : Outgoing) (m : Mapping) :
    mapHandlers map handlers out (m.refuel u) =
      (mapHandlers map handlers out m).map (fueled u) := by
  induction handlers generalizing out m with
  | nil => rfl
  | cons b handlers ih =>
    exact map_except_bind_of (hmap ..) fun _ ↦ map_except_bind_of (join_refuel ..) fun _ ↦ ih ..

theorem mapWithin_refuel (k : Nat) (b : BlockId) (s : OperandStack) (m : Mapping) :
    mapWithin k b s (m.refuel u) = (mapWithin k b s m).map (fueled u) := by
  induction k generalizing b s m with
  | zero => rfl
  | succ k ih =>
    have hstatement : (m.refuel u).analysis.statement b = m.analysis.statement b := rfl
    rw [mapWithin, mapWithin, hstatement]
    cases m.analysis.statement b with
    | empty => rfl
    | description text => rfl
    | jsr call => rfl
    | evaluate e push =>
      refine map_except_bind_of (consume_refuel ..) fun x ↦ ?_
      cases push with
      | zero => rfl
      | succ push => rfl
    | returns value => exact map_except_bind_of (consume?_refuel ..) fun _ ↦ rfl
    | throws exception => exact map_except_bind_of (consume_refuel ..) fun _ ↦ rfl
    | shuffle op => exact map_except_of fun _ ↦ rfl
    | ret address => rfl
    | sequence first second =>
      exact map_except_bind_of (ih ..) fun _ ↦ map_except_bind_of (ih ..) fun _ ↦ rfl
    | conditional cond taken =>
      exact map_except_bind_of (consume_refuel ..) fun _ ↦ map_except_bind_of (ih ..) fun _ ↦
        join_refuel ..
    | ifElse cond onTrue onFalse =>
      refine map_except_bind_of (consume_refuel ..) fun _ ↦ map_except_bind_of (ih ..) fun _ ↦ ?_
      cases onFalse with
      | none => exact join_refuel ..
      | some onFalse => exact map_except_bind_of (ih ..) fun _ ↦ join_refuel ..
    | loop kind cond init incr body labeled =>
      refine map_except_bind_of (consume?_refuel ..) fun _ ↦
        map_except_bind_of (consume_refuel ..) fun x ↦ ?_
      obtain ⟨m, entry⟩ := x
      refine map_except_bind_of
        (ih body entry { m with entries := (b, entry) :: m.entries.filter (·.1 ≠ b) }) fun x ↦ ?_
      obtain ⟨m, out⟩ := x
      cases out with
      | none =>
        refine map_except_bind_of rfl fun m ↦ ?_
        cases incr with
        | none => exact joinBreaks_refuel u m b _
        | some incr =>
          exact map_except_bind_of (ih incr entry m) fun x ↦ joinBreaks_refuel u x.1 b _
      | some out =>
        refine map_except_bind_of (meet_refuel u m out entry) fun x ↦
          map_except_bind_of (φ := refuel u) rfl fun m ↦ ?_
        cases incr with
        | none => exact joinBreaks_refuel u m b _
        | some incr =>
          exact map_except_bind_of (ih incr entry m) fun x ↦ joinBreaks_refuel u x.1 b _
    | switch selector cases labeled =>
      exact map_except_bind_of (consume_refuel ..) fun _ ↦
        map_except_bind_of (mapCases_refuel u ih ..) fun _ ↦
          map_except_bind_of (join_refuel ..) fun _ ↦ joinBreaks_refuel ..
    | switchCase value body fallthrough => exact ih ..
    | catchClause type binding body => exact ih ..
    | finallyClause body => exact ih ..
    | synchronized monitor object body =>
      exact map_except_bind_of (consume?_refuel ..) fun _ ↦ ih ..
    | tryCatch body handlers =>
      exact map_except_bind_of (ih ..) fun _ ↦ mapHandlers_refuel u ih ..
    | breakTo target labeled =>
      have hbreaks : (m.refuel u).breaks = m.breaks := rfl
      simp only [hbreaks]
      split
      · exact map_except_bind_of (meet_refuel ..) fun _ ↦ rfl
      · rfl
    | continueTo target labeled =>
      have hentries : (m.refuel u).entries = m.entries := rfl
      simp only [hentries]
      split
      · exact map_except_bind_of (meet_refuel ..) fun _ ↦ rfl
      · rfl

end Mapping

namespace Analysis

section Finishing

variable (u : Nat → Nat) (a : Analysis)

theorem mapStack_refuel : (a.refuel u).mapStack = a.mapStack.map (refuel u) :=
  map_except_bind_of (Mapping.mapWithin_refuel u a.blocks.size (a.root a.entry) {} ⟨a, [], []⟩)
    fun _ ↦ rfl

@[simp] theorem dropStore_refuel (store : StackStore) :
    (a.refuel u).dropStore store = (a.dropStore store).refuel u := by
  simp [dropStore, apply_ite (refuel u)]

theorem removeStore?_refuel (stores : List StackStore) (reads : List StackRead) (x : LocalId) :
    (a.refuel u).removeStore? stores reads x = (a.removeStore? stores reads x).map (refuel u) := by
  unfold removeStore?
  split
  · simp
  · exact map_ite_of (fun _ ↦ by simp) fun _ ↦ rfl
  · rfl

theorem inlineOne?_refuel : (a.refuel u).inlineOne? = a.inlineOne?.map (refuel u) := by
  have hstore (stores : List StackStore) (reads : List StackRead) :
      (a.refuel u).removeStore? stores reads =
        fun x ↦ (a.removeStore? stores reads x).map (refuel u) :=
    funext fun x ↦ removeStore?_refuel u a stores reads x
  simp only [inlineOne?, hstore]
  exact List.map_findSome?.symm

theorem inlineWithin_refuel (k : Nat) :
    inlineWithin k (a.refuel u) = (inlineWithin k a).refuel u := by
  induction k generalizing a with
  | zero => rfl
  | succ k ih =>
    rw [inlineWithin, inlineWithin, inlineOne?_refuel]
    cases a.inlineOne? with
    | none => rfl
    | some a => exact ih a

@[simp] theorem inlineStackLocals_refuel :
    (a.refuel u).inlineStackLocals = a.inlineStackLocals.refuel u :=
  inlineWithin_refuel u a a.blocks.size

@[simp] theorem placeDeclarations_refuel :
    (a.refuel u).placeDeclarations = a.placeDeclarations.refuel u := by
  refine foldl_refuel u (fun a x ↦ ?_) _ { a with blocks := _ }
  exact elim_refuel u rfl fun _ ↦ rfl

end Finishing

section Building

variable (u : Nat → Nat) (a : Analysis) (f : FlowId)

theorem allocFrees_refuel (widths : List Nat) :
    (a.refuel u).allocFrees widths = fueled u (a.allocFrees widths) := by
  induction widths generalizing a with
  | nil => rfl
  | cons width widths ih =>
    have hrest := ih (a.allocFree width).1
    exact congrArg (fun r : Analysis × List ExprId ↦ (r.1, (a.allocFree width).2 :: r.2)) hrest

theorem allocObject_refuel (isStatic : Bool) :
    (a.refuel u).allocObject isStatic = fueled u (a.allocObject isStatic) := by
  cases isStatic <;> rfl

theorem lowerCases_refuel (previous : Option Nat) (cases : List (CaseValue × Nat)) :
    lowerCases previous cases (a.refuel u) = fueled u (lowerCases previous cases a) := by
  induction cases generalizing previous a with
  | nil => rfl
  | cons x rest ih =>
    simp [lowerCases, ih]

theorem lower_refuel (opcode : Opcode) :
    (a.refuel u).lower opcode = (a.lower opcode).map (fueled u) := by
  cases opcode with
  | returns kind => cases kind <;> rfl
  | branch op operand target => cases operand <;> rfl
  | switch cases fallback =>
    simp only [lower, lowerCases_refuel]
    rfl
  | getField isStatic ref => cases isStatic <;> rfl
  | putField isStatic ref => cases isStatic <;> rfl
  | invoke kind ref =>
    simp only [lower]
    split
    · rfl
    · simp only [allocObject_refuel, allocFrees_refuel, fst_fueled]
      rfl
  | newArray element dimensions =>
    simp only [lower, allocFrees_refuel]
    rfl
  | _ => rfl

theorem addInstruction_refuel (i : Instruction) :
    (a.refuel u).addInstruction i = (a.addInstruction i).map (fueled u) :=
  map_except_bind_of (lower_refuel u a i.opcode) fun _ ↦ rfl

theorem addInstructions_refuel (maxLocals : Nat) (code : List Instruction)
    (flows : List (Nat × FlowId)) :
    addInstructions maxLocals code flows (a.refuel u) =
      (addInstructions maxLocals code flows a).map (fueled u) := by
  induction code generalizing flows a with
  | nil => rfl
  | cons i rest ih =>
    have hrest : (a.refuel u).addInstruction i >>= (fun r ↦
        addInstructions maxLocals rest ((i.address, r.2.1) :: flows) r.1 >>= fun s ↦
          pure (s.1, s.2.1, r.2.2 ++ s.2.2)) = (a.addInstruction i >>= fun r ↦
        addInstructions maxLocals rest ((i.address, r.2.1) :: flows) r.1 >>= fun s ↦
          pure (s.1, s.2.1, r.2.2 ++ s.2.2)).map (fueled u) :=
      map_except_bind_of (addInstruction_refuel u a i) fun r ↦
        map_except_bind_of (ih r.1 _) fun _ ↦ rfl
    rw [addInstructions, addInstructions]
    cases i.opcode.localSlot with
    | none => exact hrest
    | some slot =>
      by_cases hslot : maxLocals ≤ slot
      · simp only [hslot]
        rfl
      · simp only [hslot]
        exact hrest

@[simp] theorem addJump_refuel (source : BlockId) (destination : FlowId) :
    (a.refuel u).addJump f source destination = fueled u (a.addJump f source destination) := by
  simp only [addJump, graph_refuel]
  rfl

theorem linkPending_refuel (flows : List (Nat × FlowId)) (pending : List Pending) :
    linkPending flows pending (a.refuel u) = (linkPending flows pending a).map (refuel u) := by
  induction pending generalizing a with
  | nil => rfl
  | cons p rest ih =>
    refine map_except_of fun destination ↦ ?_
    rw [addJump_refuel]
    exact ih _

theorem resolveNext_refuel : (a.refuel u).resolveNext f = (a.resolveNext f).map (refuel u) := by
  simp only [resolveNext, flow_refuel, graph_refuel]
  split
  · rfl
  · split <;> rfl

theorem foldlM_resolveNext_refuel (flows : List FlowId) :
    flows.foldlM resolveNext (a.refuel u) = (flows.foldlM resolveNext a).map (refuel u) := by
  induction flows generalizing a with
  | nil => rfl
  | cons f flows ih => exact map_except_bind_of (resolveNext_refuel u a f) fun a ↦ ih a

/-- The budget has no part in how the flow blocks are made. -/
theorem build_refuel {m : MethodInfo} {code : List Instruction} {o o' : Options}
    (hchecked : o'.checked = o.checked) (hfuel : o'.fuelFor code.length = u (o.fuelFor code.length))
    : build m code o' = (build m code o).map (refuel u) := by
  have hnew : Analysis.new o'.checked (o'.fuelFor code.length) =
      (Analysis.new o.checked (o.fuelFor code.length)).refuel u := by
    rw [hchecked, hfuel]
    rfl
  unfold build
  cases code with
  | nil => rfl
  | cons first rest =>
    simp only [hnew]
    generalize Analysis.new o.checked _ = a
    cases m.returnsVoid? with
    | none => rfl
    | some returnsVoid =>
      cases m.parameters? with
      | none => rfl
      | some parameters =>
        have hbind : parameters.foldl (bindParameter m.isStatic) { a.refuel u with returnsVoid } =
            (parameters.foldl (bindParameter m.isStatic) { a with returnsVoid }).refuel u :=
          foldl_refuel u (fun _ _ ↦ rfl) parameters { a with returnsVoid }
        dsimp only at hbind ⊢
        rw [hbind]
        generalize parameters.foldl _ _ = a
        refine map_except_bind_of (addInstructions_refuel u a _ _ _) fun r ↦ ?_
        refine map_except_bind_of (linkPending_refuel u r.1 _ _) fun a ↦
          map_except_bind_of (foldlM_resolveNext_refuel u a _) fun a ↦ ?_
        have htransfer : a.graph.live.foldl setTransfer (a.refuel u) =
            (a.graph.live.foldl setTransfer a).refuel u :=
          foldl_refuel u (fun _ _ ↦ rfl) a.graph.live a
        dsimp only [graph_refuel]
        rw [htransfer]
        rfl

end Building

end Analysis

end Decompile
