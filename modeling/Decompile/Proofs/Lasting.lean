import Decompile.Proofs.Advancing
import Decompile.Proofs.BudgetPasses
import Decompile.Proofs.Executions

/-!
A budget lasts if no step is refused for want of it and it is never found spent. What follows then
does not depend on the budget: with more of it, the same is done and the rest is kept.
-/

namespace Decompile

namespace Analysis

variable {changed : Bool} {n m : Nat}

section Steps

variable {a a' : Analysis} {k : Nat}

theorem fuel_of_tick (h : a.tick = some a') : a'.fuel + 1 = a.fuel := by
  unfold tick at h
  split at h
  · cases h
  · cases h
    dsimp only
    omega

theorem tick_refuel (h : a.tick = some a') :
    (a.refuel (· + k)).tick = some (a'.refuel (· + k)) := by
  unfold tick at h
  split at h
  · cases h
  · cases h
    have hne : ¬ (a.refuel (· + k)).fuel = 0 := by
      rw [fuel_refuel]
      omega
    rw [tick, if_neg hne]
    have hsub : a.fuel + k - 1 = a.fuel - 1 + k := by omega
    exact congrArg (fun n ↦ some { a with fuel := n }) hsub

theorem isExhausted_refuel (h : a.isExhausted = false) :
    (a.refuel (· + k)).isExhausted = false := by
  have hne : a.fuel ≠ 0 := by simpa [isExhausted] using h
  have hne' : a.fuel + k ≠ 0 := by omega
  simpa [isExhausted] using hne'

theorem fuel_eq_of_refuel {φ : Analysis → Analysis}
    (h : ∀ u a, φ (refuel u a) = (φ a).refuel u) (a : Analysis) : (φ a).fuel = a.fuel := by
  have hfuel := congrArg fuel (h (fun _ ↦ a.fuel) a)
  exact hfuel

theorem fuel_eq_of_fueled {α : Type} {φ : Analysis → Analysis × α}
    (h : ∀ u a, φ (refuel u a) = fueled u (φ a)) (a : Analysis) : (φ a).1.fuel = a.fuel := by
  have hfuel := congrArg (fun r : Analysis × α ↦ r.1.fuel) (h (fun _ ↦ a.fuel) a)
  exact hfuel

theorem fuel_applyFirst {rules : List Rule} {b new : BlockId}
    (h : a.applyFirst rules b = some (a', new)) : a'.fuel = a.fuel := by
  have hmap := applyFirst_refuel (fun _ ↦ a.fuel) a b rules
  have hself : a.refuel (fun _ ↦ a.fuel) = a := rfl
  rw [hself, h] at hmap
  exact congrArg (fun r : Analysis × BlockId ↦ r.1.fuel) (Option.some.inj hmap)

variable {P : FlowId → Prop}

theorem Advance.fuel_le {lo : Nat} (h : Advance P lo a a') : a'.fuel ≤ a.fuel := by
  cases h with
  | tick h =>
    have := fuel_of_tick h
    omega
  | check => exact (fuel_eq_of_refuel checkpoint_refuel a).le
  | @fold b rule r h =>
    have hmap := apply_refuel (fun _ ↦ a.fuel) a b rule
    have hself : a.refuel (fun _ ↦ a.fuel) = a := rfl
    rw [hself, h] at hmap
    exact (congrArg (fun r : Analysis × BlockId ↦ r.1.fuel) (Option.some.inj hmap)).le
  | @loop f =>
    exact (fuel_eq_of_fueled (φ := (loopBack · f)) (fun u a ↦ loopBack_refuel u a f) a).le
  | @join f s =>
    exact (fuel_eq_of_fueled (φ := (joinSuccessor · f s)) (fun u a ↦ joinSuccessor_refuel ..) a).le
  | @merge f s w c b j =>
    exact (fuel_eq_of_refuel (φ := (mergeCase · f w c b j s _)) (fun u a ↦ mergeCase_refuel ..) a).le

theorem Advances.fuel_le {lo : Nat} (h : Advances P lo a a') : a'.fuel ≤ a.fuel := by
  induction h with
  | refl => exact le_rfl
  | tail _ h' ih => exact h'.fuel_le.trans ih

end Steps

section Folding

variable {a : Analysis} {k : Nat} {f : FlowId}

/-- The budget lasts while rules are applied from a statement on. -/
def foldWithinLasts : Nat → BlockId → Analysis → Bool
  | 0, _, _ => true
  | n + 1, b, a =>
    match a.tick with
    | none => false
    | some a =>
      match a.applyFirst Rule.early b with
      | some (a, new) => foldWithinLasts n new a
      | none =>
        match a.blocks.nextStatement b <|> a.blocks.enclosingStatement b with
        | some next => foldWithinLasts n next a
        | none => true

def foldFromLasts (a : Analysis) (f : FlowId) (start : BlockId) : Bool :=
  let root := a.root f
  foldWithinLasts (a.fuel + 1) (if a.blocks.isWithin start root then start else root) a

theorem foldWithin_refuel {b : BlockId} (hn : a.fuel < n) (hm : a.fuel + k < m)
    (h : foldWithinLasts n b a = true) :
    foldWithin m b (a.refuel (· + k)) = (foldWithin n b a).refuel (· + k) := by
  induction n generalizing m b a with
  | zero => omega
  | succ n ih =>
    obtain ⟨m, rfl⟩ : ∃ m', m = m' + 1 := ⟨m - 1, by omega⟩
    rw [foldWithinLasts] at h
    rw [foldWithin, foldWithin]
    cases ht : a.tick with
    | none => simp [ht] at h
    | some a₁ =>
      have h₁ := fuel_of_tick ht
      simp only [ht] at h
      simp only [tick_refuel ht, applyRules_eq, applyFirst_refuel]
      cases happ : a₁.applyFirst Rule.early b with
      | some r =>
        obtain ⟨a₂, new⟩ := r
        have h₂ := fuel_applyFirst happ
        simp only [happ] at h
        exact ih (a := a₂) (by omega) (by omega) h
      | none =>
        simp only [happ, Option.map_none, Rewrite.outcome, blocks_refuel] at h ⊢
        cases hnext : (a₁.blocks.nextStatement b <|> a₁.blocks.enclosingStatement b) with
        | some next =>
          simp only [hnext] at h
          exact ih (by omega) (by omega) h
        | none => rfl

theorem foldFrom_refuel {start : BlockId} (h : a.foldFromLasts f start = true) :
    (a.refuel (· + k)).foldFrom f start = (a.foldFrom f start).refuel (· + k) :=
  foldWithin_refuel (Nat.lt_succ_self _) (Nat.lt_succ_self _) h

/-- The budget lasts for one pass over the given blocks. -/
def foldPassLasts (f : FlowId) : List BlockId → Analysis → Bool
  | [], _ => true
  | b :: rest, a =>
    if a.blocks.isWithin b (a.root f) then
      match a.tick with
      | none => false
      | some a =>
        match a.applyFirst Rule.all b with
        | some (a, _) => foldPassLasts f rest a
        | none => foldPassLasts f rest a
    else foldPassLasts f rest a

variable {bs : List BlockId}

theorem foldPass_refuel (h : foldPassLasts f bs a = true) :
    foldPass f bs changed (a.refuel (· + k)) = fueled (· + k) (foldPass f bs changed a) := by
  induction bs generalizing changed a with
  | nil => rfl
  | cons b rest ih =>
    rw [foldPassLasts] at h
    rw [foldPass, foldPass, blocks_refuel, root_refuel]
    by_cases hin : a.blocks.isWithin b (a.root f)
    · simp only [hin] at h ⊢
      cases ht : a.tick with
      | none => simp [ht] at h
      | some a₁ =>
        simp only [ht] at h
        simp only [tick_refuel ht, applyRules_eq, applyFirst_refuel]
        cases happ : a₁.applyFirst Rule.all b with
        | some r =>
          simp only [happ] at h
          exact ih h
        | none =>
          simp only [happ] at h
          exact ih h
    · simp only [hin] at h ⊢
      exact ih h

theorem fuel_foldPass (f : FlowId) (bs : List BlockId) (changed : Bool) (a : Analysis) :
    (foldPass f bs changed a).1.fuel ≤ a.fuel ∧ ((foldPass f bs changed a).2 = some true →
      changed = true ∨ (foldPass f bs changed a).1.fuel < a.fuel) := by
  fun_induction foldPass f bs changed a with
  | case1 changed a => exact ⟨le_rfl, fun h ↦ .inl (Option.some.inj h)⟩
  | case2 b rest changed a hin ht => exact ⟨le_rfl, nofun⟩
  | case3 b rest changed a hin a₁ ht new a₂ happ ih =>
    have h₁ := fuel_of_tick ht
    have h₂ := fuel_applyFirst (applyFirst_of_applyRules happ)
    exact ⟨by omega, fun _ ↦ .inr (by omega)⟩
  | case4 b rest changed a hin a₁ ht a₂ happ ih =>
    have h₁ := fuel_of_tick ht
    obtain rfl := (declined_of_applyRules happ).2
    exact ⟨by omega, fun h ↦ (ih.2 h).imp_right fun _ ↦ by omega⟩
  | case5 b rest changed a hin ih => exact ih

def fixpointWithinLasts (f : FlowId) : Nat → Analysis → Bool
  | 0, _ => true
  | n + 1, a =>
    let blocks := a.blocks.subtree (a.root f)
    foldPassLasts f blocks a &&
      match foldPass f blocks false a with
      | (a, some true) => fixpointWithinLasts f n a
      | _ => true

/-- The budget lasts until no rule matches. -/
def fixpointLasts (a : Analysis) (f : FlowId) : Bool := fixpointWithinLasts f (a.fuel + 1) a

theorem fixpointWithin_refuel (hn : a.fuel < n) (hm : a.fuel + k < m)
    (h : fixpointWithinLasts f n a = true) :
    fixpointWithin f m (a.refuel (· + k)) = (fixpointWithin f n a).refuel (· + k) := by
  induction n generalizing m a with
  | zero => omega
  | succ n ih =>
    obtain ⟨m, rfl⟩ : ∃ m', m = m' + 1 := ⟨m - 1, by omega⟩
    rw [fixpointWithinLasts, Bool.and_eq_true] at h
    obtain ⟨hpass, h⟩ := h
    rw [fixpointWithin, fixpointWithin, blocks_refuel, root_refuel, foldPass_refuel hpass]
    have hlt := (fuel_foldPass f (a.blocks.subtree (a.root f)) false a).2
    generalize foldPass f (a.blocks.subtree (a.root f)) false a = r at h hlt
    obtain ⟨a₁, done⟩ := r
    cases done with
    | none => rfl
    | some changed =>
      cases changed with
      | false => rfl
      | true =>
        have hlt : a₁.fuel < a.fuel := by simpa using hlt rfl
        exact ih (a := a₁) (by omega) (by omega) h

theorem fixpoint_refuel (h : a.fixpointLasts f = true) :
    (a.refuel (· + k)).fixpoint f = (a.fixpoint f).refuel (· + k) :=
  fixpointWithin_refuel (Nat.lt_succ_self _) (Nat.lt_succ_self _) h

end Folding

section Growing

variable {a : Analysis} {k : Nat} {f succ : FlowId} {w : Window}

/-- The budget lasts while a successor is appended. -/
def appendLasts (a : Analysis) (f succ : FlowId) : Bool :=
  let (a, tail) := a.joinSuccessor f succ
  a.checkpoint.foldFromLasts f tail

theorem appendSuccessor_refuel (h : a.appendLasts f succ = true) :
    (a.refuel (· + k)).appendSuccessor f succ =
      (a.appendSuccessor f succ).refuel (· + k) := by
  rw [appendSuccessor, joinSuccessor_refuel]
  dsimp only [fst_fueled]
  rw [checkpoint_refuel]
  exact foldFrom_refuel h

/-- The budget lasts while a loop is closed. -/
def closeLoopLasts (a : Analysis) (f : FlowId) (w : Window) : Bool :=
  if a.isLoopHead f w then
    let (a, looped) := a.loopBack f
    a.checkpoint.foldFromLasts f looped
  else true

theorem closeLoop_refuel (h : a.closeLoopLasts f w = true) :
    (a.refuel (· + k)).closeLoop f w = (a.closeLoop f w).map (refuel (· + k)) := by
  have hhead : (a.refuel (· + k)).isLoopHead f w = a.isLoopHead f w := rfl
  rw [closeLoopLasts] at h
  rw [closeLoop, closeLoop, hhead]
  by_cases hloop : a.isLoopHead f w
  · simp only [hloop, ↓reduceIte] at h ⊢
    rw [loopBack_refuel]
    dsimp only [fst_fueled, snd_fueled]
    rw [checkpoint_refuel]
    exact congrArg some (foldFrom_refuel h)
  · simp only [hloop]
    rfl

end Growing

/-- With `k` more than a budget that lasts, `reduce'` does what `reduce` does. -/
structure InStep (k bound : Nat) (reduce reduce' : FlowId → Window → Analysis → Analysis × Bool)
    (lasts : FlowId → Window → Analysis → Bool) : Prop where
  spends : ∀ f w a, (reduce f w a).1.fuel ≤ a.fuel
  eq : ∀ f w a, a.fuel < bound → lasts f w a = true →
    reduce' f w (a.refuel (· + k)) = fueled (· + k) (reduce f w a)

section Reducing

variable {reduce reduce' : FlowId → Window → Analysis → Analysis × Bool}
  {lasts : FlowId → Window → Analysis → Bool} {a : Analysis} {k bound : Nat} {f : FlowId}
  {w : Window}

/-- The budget lasts while the cases of a switch are merged. -/
def mergeCasesLasts (reduce : FlowId → Window → Analysis → Analysis × Bool)
    (lasts : FlowId → Window → Analysis → Bool) (f : FlowId) (w : Window) (switch : BlockId) :
    List BlockId → Option BlockId → Analysis → Bool
  | [], _, _ => true
  | block :: rest, previous, a =>
    match a.pendingCase? block with
    | none => mergeCasesLasts reduce lasts f w switch rest (some block) a
    | some (body, j, target) =>
      if target = f || !(a.flow target).inWindow w then true
      else
        let addr := (a.flow target).addr
        let window : Window := ⟨addr, a.caseBoundary rest addr w.stop⟩
        lasts target window a &&
          let (a, _) := reduce target window a
          let fellIn := (a.graph.jumpsTo f target).filter (· ≠ j)
          let fromPrevious (other : JumpId) : Bool :=
            previous.any fun p ↦ a.blocks.fallsToEndOf (a.jump other).source p
          if (a.flow target).addr = (a.flow f).stop ∧ (a.flow target).predecessors = [f] ∧
              fellIn.all fromPrevious then
            mergeCasesLasts reduce lasts f w switch rest (some block)
              (a.mergeCase f switch block body j target fellIn)
          else true

theorem InStep.mergeCases_refuel (hr : InStep k bound reduce reduce' lasts) {switch : BlockId}
    {blocks : List BlockId} {previous : Option BlockId} (hb : a.fuel < bound)
    (h : mergeCasesLasts reduce lasts f w switch blocks previous a = true) :
    mergeCases reduce' f w switch blocks previous changed (a.refuel (· + k)) =
      fueled (· + k) (mergeCases reduce f w switch blocks previous changed a) := by
  induction blocks generalizing previous changed a with
  | nil => rfl
  | cons block rest ih =>
    have hcase : (a.refuel (· + k)).pendingCase? block = a.pendingCase? block := rfl
    rw [mergeCasesLasts] at h
    rw [mergeCases, mergeCases, hcase]
    cases hp : a.pendingCase? block with
    | none =>
      simp only [hp] at h
      exact ih hb h
    | some r =>
      obtain ⟨body, j, target⟩ := r
      simp only [hp] at h
      dsimp only
      by_cases hin : (target = f || !(a.flow target).inWindow w) = true
      · have hin' : (target = f || !((a.refuel (· + k)).flow target).inWindow w) = true := hin
        rw [if_pos hin, if_pos hin']
        rfl
      · have hin' : ¬ (target = f || !((a.refuel (· + k)).flow target).inWindow w) = true := hin
        rw [if_neg hin, Bool.and_eq_true] at h
        obtain ⟨hlasts, h⟩ := h
        have hred := hr.eq _ _ _ hb hlasts
        have hle := hr.spends target
          ⟨(a.flow target).addr, a.caseBoundary rest (a.flow target).addr w.stop⟩ a
        rw [if_neg hin, if_neg hin']
        change reduce' target ⟨((a.refuel (· + k)).flow target).addr, (a.refuel (· + k)).caseBoundary
          rest ((a.refuel (· + k)).flow target).addr w.stop⟩ (a.refuel (· + k)) = _ at hred
        rw [hred]
        generalize reduce target _ a = r at h hle
        obtain ⟨a₁, reduced⟩ := r
        dsimp only [fueled_mk] at h hle ⊢
        by_cases hc : (a₁.flow target).addr = (a₁.flow f).stop ∧
          (a₁.flow target).predecessors = [f] ∧
            ((a₁.graph.jumpsTo f target).filter (· ≠ j)).all fun other ↦
              previous.any fun p ↦ a₁.blocks.fallsToEndOf (a₁.jump other).source p
        · have hmerge := fuel_eq_of_refuel (φ := (mergeCase · f switch block body j target
            ((a₁.graph.jumpsTo f target).filter (· ≠ j)))) (fun u a ↦ mergeCase_refuel ..) a₁
          rw [if_pos hc] at h
          rw [if_pos hc]
          refine Eq.trans (if_pos hc) ?_
          rw [mergeCase_refuel, graph_refuel]
          exact ih (by omega) h
        · rw [if_neg hc]
          exact if_neg hc

def mergeSwitchLasts (reduce : FlowId → Window → Analysis → Analysis × Bool)
    (lasts : FlowId → Window → Analysis → Bool) (f : FlowId) (w : Window) (a : Analysis) : Bool :=
  let switch := (a.flow f).growth
  match a.statement switch with
  | .switch _ cases _ => mergeCasesLasts reduce lasts f w switch cases none a
  | _ => true

theorem InStep.mergeSwitch_refuel (hr : InStep k bound reduce reduce' lasts) (hb : a.fuel < bound)
    (h : mergeSwitchLasts reduce lasts f w a = true) :
    (a.refuel (· + k)).mergeSwitch reduce' f w = fueled (· + k) (a.mergeSwitch reduce f w) := by
  rw [mergeSwitchLasts] at h
  rw [mergeSwitch, mergeSwitch]
  dsimp only [flow_refuel, statement_refuel] at h ⊢
  cases hs : a.statement (a.flow f).growth with
  | switch selector cases labeled =>
    rw [hs] at h
    exact hr.mergeCases_refuel hb h
  | _ => rfl

/-- The budget lasts while one successor is taken in. -/
def growOnceLasts (reduce : FlowId → Window → Analysis → Analysis × Bool)
    (lasts : FlowId → Window → Analysis → Bool) (f : FlowId) (stop : Nat) :
    List FlowId → Analysis → Bool
  | [], _ => true
  | succ :: rest, a =>
    let here := a.flow f
    let there := a.flow succ
    if (there.addr = here.stop ∨ there.stop = here.addr) ∧ there.predecessors = [f] then
      a.appendLasts f succ
    else
      let window : Window := ⟨here.stop, (rest.head?.map fun next ↦ (a.flow next).addr).getD stop⟩
      (if here.stop ≤ there.addr then lasts succ window a else true) &&
        let (a, changed) := if here.stop ≤ there.addr then reduce succ window a else (a, false)
        changed || !a.isExhausted && growOnceLasts reduce lasts f stop rest a

theorem InStep.growOnce_refuel (hr : InStep k bound reduce reduce' lasts) {stop : Nat}
    {succs : List FlowId} (hb : a.fuel < bound)
    (h : growOnceLasts reduce lasts f stop succs a = true) :
    (a.refuel (· + k)).growOnce reduce' f stop succs =
      fueled (· + k) (a.growOnce reduce f stop succs) := by
  induction succs generalizing a with
  | nil => rfl
  | cons succ rest ih =>
    -- What is done after the successor has been reduced, or passed over.
    have hrest {r : Analysis × Bool} (hle : r.1.fuel ≤ a.fuel)
        (h : (r.2 || !r.1.isExhausted && growOnceLasts reduce lasts f stop rest r.1) = true) :
        (if r.2 then (r.1.refuel (· + k), true)
          else if (r.1.refuel (· + k)).isExhausted then (r.1.refuel (· + k), false)
          else (r.1.refuel (· + k)).growOnce reduce' f stop rest) =
        fueled (· + k) (if r.2 then (r.1, true) else if r.1.isExhausted then (r.1, false)
          else r.1.growOnce reduce f stop rest) := by
      obtain ⟨a₁, changed⟩ := r
      cases changed with
      | true => rfl
      | false =>
        rw [Bool.false_or, Bool.and_eq_true, Bool.not_eq_true'] at h
        simp only [Bool.false_eq_true, h.1, isExhausted_refuel h.1]
        exact ih (Nat.lt_of_le_of_lt hle hb) h.2
    rw [growOnceLasts] at h
    rw [growOnce, growOnce]
    by_cases hadj : ((a.flow succ).addr = (a.flow f).stop ∨ (a.flow succ).stop = (a.flow f).addr) ∧
        (a.flow succ).predecessors = [f]
    · rw [if_pos hadj] at h ⊢
      refine Eq.trans (if_pos hadj) ?_
      rw [appendSuccessor_refuel h, fueled_mk]
    · rw [if_neg hadj, Bool.and_eq_true] at h
      obtain ⟨hlasts, h⟩ := h
      rw [if_neg hadj]
      refine Eq.trans (if_neg hadj) ?_
      by_cases hahead : (a.flow f).stop ≤ (a.flow succ).addr
      · simp only [hahead, flow_refuel] at h hlasts ⊢
        rw [hr.eq _ _ _ hb hlasts]
        exact hrest (hr.spends _ _ _) h
      · simp only [hahead, flow_refuel] at h ⊢
        exact hrest (r := (a, false)) (Nat.le_refl _) h

end Reducing

section Reduction

variable {a : Analysis} {k : Nat} {f : FlowId} {w : Window}

def reduceWithinLasts : Nat → FlowId → Window → Analysis → Bool
  | 0, _, _, _ => true
  | n + 1, f, w, a =>
    if a.broken.isSome then true
    else
      match a.tick with
      | none => false
      | some a =>
        mergeSwitchLasts (reduceWithin n false) (reduceWithinLasts n) f w a &&
          match a.mergeSwitch (reduceWithin n false) f w with
          | (a, true) => reduceWithinLasts n f w a
          | (a, false) =>
            a.closeLoopLasts f w &&
              match a.closeLoop f w with
              | some a => reduceWithinLasts n f w a
              | none =>
                let successors := (a.graph.successorsOf f).filter fun succ ↦
                  succ ≠ f && (a.flow succ).inWindow w
                growOnceLasts (reduceWithin n false) (reduceWithinLasts n) f w.stop successors a &&
                  match a.growOnce (reduceWithin n false) f w.stop successors with
                  | (a, true) => reduceWithinLasts n f w a
                  | _ => true

/-- The budget lasts while the flow blocks that `f` reaches inside the window are reduced. -/
def reduceLasts (a : Analysis) (f : FlowId) (w : Window) : Bool :=
  reduceWithinLasts (a.fuel + 1) f w a

/-- A reduction that does anything takes a step. -/
theorem reduceWithin_eq_or_fuel_lt (n : Nat) (changed : Bool) (f : FlowId) (w : Window)
    (a : Analysis) : reduceWithin n changed f w a = (a, changed) ∨
      (reduceWithin n changed f w a).1.fuel < a.fuel := by
  refine ((rounds_advances (fun _ ↦ True) 0).reduceWithin_cases n changed f w a).imp_right ?_
  rintro ⟨a₁, ht, h⟩
  have hle := (h (fun _ _ ↦ trivial) trivial (Nat.zero_le _) (Nat.zero_le _)).fuel_le
  have ht := fuel_of_tick ht
  omega

theorem reduceWithin_refuel (hn : a.fuel < n) (hm : a.fuel + k < m)
    (h : reduceWithinLasts n f w a = true) :
    reduceWithin m changed f w (a.refuel (· + k)) =
      fueled (· + k) (reduceWithin n changed f w a) := by
  induction n generalizing m changed f w a with
  | zero => omega
  | succ n ih =>
    obtain ⟨m, rfl⟩ : ∃ m', m = m' + 1 := ⟨m - 1, by omega⟩
    rw [reduceWithinLasts] at h
    rw [reduceWithin, reduceWithin, broken_refuel]
    by_cases hbroken : a.broken.isSome
    · rw [if_pos hbroken, if_pos hbroken]
      rfl
    · rw [if_neg hbroken] at h
      rw [if_neg hbroken, if_neg hbroken]
      cases ht : a.tick with
      | none => simp [ht] at h
      | some a₁ =>
        have h₁ := fuel_of_tick ht
        have hforward := forward_reduceWithin (fun _ ↦ True) 0 n false
        have hall (a : Analysis) : Guarded (fun _ ↦ True) a := fun _ _ ↦ trivial
        have hr : InStep k (a₁.fuel + 1) (reduceWithin n false) (reduceWithin m false)
            (reduceWithinLasts n) :=
          ⟨fun f w a ↦ (hforward f w a (hall a) trivial (Nat.zero_le _) (Nat.zero_le _)).fuel_le,
            fun f w a hlt hlasts ↦ ih (by omega) (by omega) hlasts⟩
        simp only [ht, Bool.and_eq_true] at h
        obtain ⟨hswitch, h⟩ := h
        simp only [tick_refuel ht, hr.mergeSwitch_refuel (Nat.lt_succ_self _) hswitch]
        have h₂ := (advances_mergeSwitch (f := f) (w := w) hforward trivial (hall a₁)
          (Nat.zero_le _) (Nat.zero_le _)).fuel_le
        generalize a₁.mergeSwitch (reduceWithin n false) f w = r at h h₂
        obtain ⟨a₂, merged⟩ := r
        dsimp only at h₂
        cases merged with
        | true => exact ih (a := a₂) (by omega) (by omega) h
        | false =>
          simp only [Bool.and_eq_true, fueled_mk] at h ⊢
          obtain ⟨hclose, h⟩ := h
          rw [closeLoop_refuel hclose]
          cases hloop : a₂.closeLoop f w with
          | some a₃ =>
            have hclosed : Advances (fun _ ↦ True) 0 a₂ a₃ := advances_closeLoop trivial hloop
            have h₃ := hclosed.fuel_le
            rw [hloop] at h
            exact ih (a := a₃) (by omega) (by omega) h
          | none =>
            simp only [hloop, Bool.and_eq_true] at h ⊢
            obtain ⟨hgrow, h⟩ := h
            have h₃ := ((rounds_advances (fun _ ↦ True) 0).growOnce hforward (List.Subset.refl
              ((a₂.graph.successorsOf f).filter fun succ ↦ succ ≠ f && (a₂.flow succ).inWindow w))
              (fun _ _ _ _ ↦ .refl a₂) (hall a₂) trivial (Nat.zero_le _) (Nat.zero_le _)).fuel_le
            have hstep := hr.growOnce_refuel (by omega) hgrow
            have hsuccs : ((a₂.refuel (· + k)).graph.successorsOf f).filter (fun succ ↦
                succ ≠ f && ((a₂.refuel (· + k)).flow succ).inWindow w) =
                  (a₂.graph.successorsOf f).filter fun succ ↦
                    succ ≠ f && (a₂.flow succ).inWindow w := rfl
            rw [hsuccs, hstep]
            generalize a₂.growOnce (reduceWithin n false) f w.stop _ = r at h h₃
            obtain ⟨a₃, grown⟩ := r
            dsimp only at h₃
            cases grown with
            | true => exact ih (a := a₃) (by omega) (by omega) h
            | false => rfl

theorem reduce_refuel (h : a.reduceLasts f w = true) :
    (a.refuel (· + k)).reduce f w = fueled (· + k) (a.reduce f w) :=
  reduceWithin_refuel (Nat.lt_succ_self _) (Nat.lt_succ_self _) h

def reduceAllWithinLasts (f : FlowId) : Nat → Analysis → Bool
  | 0, _ => true
  | n + 1, a =>
    a.reduceLasts f everywhere &&
      match a.reduce f everywhere with
      | (a, true) => !a.isExhausted && reduceAllWithinLasts f n a
      | _ => true

/-- The budget lasts while everything is reduced. If a single flow block is left, something must be
left of the budget too. -/
def reduceAllLasts (a : Analysis) : Bool :=
  reduceAllWithinLasts a.entry (a.fuel + 1) a &&
    let a := reduceAllWithin a.entry (a.fuel + 1) a
    decide (a.graph.live ≠ [a.entry]) || !a.isExhausted

theorem reduceAllWithin_refuel (hn : a.fuel < n) (hm : a.fuel + k < m)
    (h : reduceAllWithinLasts f n a = true) :
    reduceAllWithin f m (a.refuel (· + k)) = (reduceAllWithin f n a).refuel (· + k) := by
  induction n generalizing m a with
  | zero => omega
  | succ n ih =>
    obtain ⟨m, rfl⟩ : ∃ m', m = m' + 1 := ⟨m - 1, by omega⟩
    rw [reduceAllWithinLasts, Bool.and_eq_true] at h
    obtain ⟨hreduce, h⟩ := h
    rw [reduceAllWithin, reduceAllWithin, reduce_refuel hreduce]
    have hlt := reduceWithin_eq_or_fuel_lt (a.fuel + 1) false f everywhere a
    change a.reduce f everywhere = _ ∨ (a.reduce f everywhere).1.fuel < _ at hlt
    generalize a.reduce f everywhere = r at h hlt
    obtain ⟨a₁, changed⟩ := r
    cases changed with
    | false => rfl
    | true =>
      have hlt : a₁.fuel < a.fuel := by simpa using hlt
      simp only [Bool.and_eq_true, Bool.not_eq_true'] at h
      simp only [fueled_mk, h.1, isExhausted_refuel h.1]
      exact ih (by omega) (by omega) h.2

theorem reduceAll_refuel (h : a.reduceAllLasts = true) :
    (a.refuel (· + k)).reduceAll = fueled (· + k) a.reduceAll := by
  rw [reduceAllLasts, Bool.and_eq_true] at h
  obtain ⟨hwithin, h⟩ := h
  have hstep : reduceAllWithin (a.refuel (· + k)).entry ((a.refuel (· + k)).fuel + 1)
      (a.refuel (· + k)) = (reduceAllWithin a.entry (a.fuel + 1) a).refuel (· + k) :=
    reduceAllWithin_refuel (Nat.lt_succ_self _) (Nat.lt_succ_self _) hwithin
  rw [reduceAll, reduceAll, hstep]
  generalize reduceAllWithin a.entry (a.fuel + 1) a = a₁ at h
  by_cases hlive : a₁.graph.live = [a₁.entry]
  · have hleft : a₁.isExhausted = false := by simpa [hlive] using h
    rw [hleft, isExhausted_refuel hleft]
    rfl
  · have hlive' : ¬ (a₁.refuel (· + k)).graph.live = [(a₁.refuel (· + k)).entry] := hlive
    rw [decide_eq_false hlive, decide_eq_false hlive', fueled_mk, Bool.false_and, Bool.false_and]

end Reduction

section Handlers

variable {a : Analysis} {k : Nat} {body handler : FlowId} {row : ExceptionRow}
  {outer : List ExceptionRow}

/-- The budget lasts while the protected code and the handler of a row are reduced. -/
def reduceRowLasts (a : Analysis) (row : ExceptionRow) (outer : List ExceptionRow) : Bool :=
  match a.startingAt row.start with
  | .error _ => true
  | .ok body =>
    let window : Window := ⟨row.start, max row.stop row.handler⟩
    a.reduceLasts body window &&
      let (a, _) := a.reduce body window
      if (a.flow body).stop < row.stop then true
      else
        match a.startingAt row.handler with
        | .error _ => true
        | .ok handler =>
          if !(a.flow handler).predecessors.isEmpty then true
          else a.reduceLasts handler ⟨row.handler, row.boundary outer⟩

theorem reduceRow_refuel (h : a.reduceRowLasts row outer = true) :
    (a.refuel (· + k)).reduceRow row outer = (a.reduceRow row outer).map (fueled (· + k)) := by
  rw [reduceRowLasts] at h
  have hstart (a : Analysis) (address : Nat) :
      (a.refuel (· + k)).startingAt address = a.startingAt address := rfl
  rw [reduceRow, reduceRow, hstart]
  cases hbody : a.startingAt row.start with
  | error e => rfl
  | ok body =>
    simp only [hbody, Bool.and_eq_true] at h
    obtain ⟨hreduce, h⟩ := h
    dsimp only [bind, Except.bind]
    rw [reduce_refuel hreduce]
    generalize a.reduce body _ = r at h
    obtain ⟨a₁, reduced⟩ := r
    dsimp only [fueled_mk, flow_refuel] at h ⊢
    by_cases hstop : (a₁.flow body).stop < row.stop
    · simp only [hstop]
      rfl
    · simp only [hstop] at h ⊢
      rw [hstart]
      cases hhandler : a₁.startingAt row.handler with
      | error e => rfl
      | ok handler =>
        simp only [hhandler] at h ⊢
        by_cases hpreds : (!(a₁.flow handler).predecessors.isEmpty) = true
        · simp only [hpreds]
          rfl
        · simp only [hpreds] at h ⊢
          simp only [reduce_refuel h, fst_fueled, flow_refuel]
          generalize (a₁.reduce handler _).1 = a₂
          by_cases hadj : (a₂.flow handler).addr = (a₂.flow body).stop
          · simp only [hadj, ne_eq]
            rfl
          · simp only [hadj, ne_eq]
            rfl

/-- The budget lasts while the subroutine of a finally clause is reduced. -/
def makeFinallyLasts (a : Analysis) (handler : FlowId) : Bool :=
  match a.finallySubroutine? handler with
  | none => true
  | some subroutine => a.reduceLasts subroutine ⟨(a.flow subroutine).addr, everywhere.stop⟩

theorem makeFinally_refuel (h : a.makeFinallyLasts handler = true) :
    (a.refuel (· + k)).makeFinally body handler =
      (a.makeFinally body handler).map (Option.map (refuel (· + k))) := by
  have hsub : (a.refuel (· + k)).finallySubroutine? handler = a.finallySubroutine? handler := rfl
  rw [makeFinallyLasts] at h
  rw [makeFinally, makeFinally, hsub]
  cases hs : a.finallySubroutine? handler with
  | none => rfl
  | some subroutine =>
    rw [hs] at h
    dsimp only [flow_refuel]
    rw [reduce_refuel h]
    generalize a.reduce subroutine _ = r
    obtain ⟨a₁, reduced⟩ := r
    have hends : (a₁.refuel (· + k)).subroutineEnds? subroutine = a₁.subroutineEnds? subroutine :=
      rfl
    dsimp only [fueled_mk]
    rw [hends]
    cases a₁.subroutineEnds? subroutine with
    | none => rfl
    | some ends =>
      simp only [removeCalls_refuel, flow_refuel]
      generalize a₁.removeCalls subroutine = a₂
      by_cases hpreds : ((a₂.flow subroutine).predecessors.any fun p ↦ !p.isSentinel) = true
      · simp only [hpreds]
        rfl
      · simp [hpreds, Except.map]

/-- The budget lasts while protected code becomes a synchronized block. -/
def makeSynchronizedLasts (a : Analysis) (body handler : FlowId) : Bool :=
  match a.guardedMonitor? handler with
  | none => true
  | some monitor =>
    let (a, root) := a.wrapSynchronized body monitor
    a.foldFromLasts body root

theorem makeSynchronized_refuel (h : a.makeSynchronizedLasts body handler = true) :
    (a.refuel (· + k)).makeSynchronized body handler =
      (a.makeSynchronized body handler).map (refuel (· + k)) := by
  have hmonitor : (a.refuel (· + k)).guardedMonitor? handler = a.guardedMonitor? handler := rfl
  rw [makeSynchronizedLasts] at h
  rw [makeSynchronized, makeSynchronized, hmonitor]
  cases hm : a.guardedMonitor? handler with
  | none => rfl
  | some monitor =>
    simp only [hm] at h
    have hwrap : (a.refuel (· + k)).wrapSynchronized body monitor =
        fueled (· + k) (a.wrapSynchronized body monitor) := by
      simp [wrapSynchronized]
    dsimp only [bind, Option.bind]
    rw [hwrap]
    generalize a.wrapSynchronized body monitor = r at h
    obtain ⟨a₁, root⟩ := r
    dsimp only [fueled_mk]
    rw [foldFrom_refuel h, discardTree_refuel, absorbHandler_refuel, checkpoint_refuel]
    rfl

end Handlers

end Analysis

namespace Structuring

open Analysis

variable {s : Structuring} {k : Nat} {row : ExceptionRow}

/-- The state of the structuring with the budget changed by `u`. -/
def refuel (u : Nat → Nat) (s : Structuring) : Structuring :=
  { s with analysis := s.analysis.refuel u }

theorem addCatch_refuel (u : Nat → Nat) (s : Structuring) (row : ExceptionRow)
    (body handler : FlowId) (existing : Bool) :
    (s.refuel u).addCatch row body handler existing =
      (s.addCatch row body handler existing).refuel u := by
  have hcatch : (s.refuel u).analysis.makeCatch handler row.type =
      fueled u (s.analysis.makeCatch handler row.type) := makeCatch_refuel ..
  have hroot : (s.refuel u).analysis.root body = s.analysis.root body := rfl
  rw [addCatch, addCatch, hcatch, hroot]
  generalize s.analysis.makeCatch handler row.type = r
  obtain ⟨a, clause⟩ := r
  dsimp only [fueled_mk, statement_refuel]
  split
  · simp [refuel]
  · simp [refuel]

/-- The budget lasts for one row. -/
def addRowLasts (s : Structuring) (row : ExceptionRow) (outer : List ExceptionRow) : Bool :=
  s.analysis.reduceRowLasts row outer &&
    match s.analysis.reduceRow row outer with
    | .error _ => true
    | .ok (a, body, handler) =>
      if row.type.isNone && s.ranges.lookup (a.root body) != some (row.start, row.stop) then
        a.makeFinallyLasts handler &&
          match a.makeFinally body handler with
          | .ok none => a.makeSynchronizedLasts body handler
          | _ => true
      else true

theorem addRow_refuel {outer : List ExceptionRow} (h : s.addRowLasts row outer = true) :
    (s.refuel (· + k)).addRow row outer = (s.addRow row outer).map (refuel (· + k)) := by
  rw [addRowLasts, Bool.and_eq_true] at h
  obtain ⟨hrow, h⟩ := h
  have hreduce : (s.refuel (· + k)).analysis.reduceRow row outer =
      (s.analysis.reduceRow row outer).map (fueled (· + k)) := reduceRow_refuel hrow
  rw [addRow, addRow, hreduce]
  cases hr : s.analysis.reduceRow row outer with
  | error e => rfl
  | ok r =>
    obtain ⟨a, body, handler⟩ := r
    simp only [hr] at h
    have hcatch (existing : Bool) : addCatch ⟨a.refuel (· + k), s.ranges⟩ row body handler existing =
        (addCatch ⟨a, s.ranges⟩ row body handler existing).refuel (· + k) :=
      addCatch_refuel (· + k) ⟨a, s.ranges⟩ row body handler existing
    have hranges : (s.refuel (· + k)).ranges = s.ranges := rfl
    dsimp only [Except.map, bind, Except.bind, fueled_mk]
    simp only [root_refuel, hranges, hcatch]
    rw [bne] at h
    generalize (s.ranges.lookup (a.root body) == some (row.start, row.stop)) = existing at h
    by_cases hnew : (row.type.isNone && !existing) = true
    · simp only [hnew, ↓reduceIte, Bool.and_eq_true] at h ⊢
      obtain ⟨hfinally, h⟩ := h
      rw [makeFinally_refuel hfinally]
      cases hf : a.makeFinally body handler with
      | error e => rfl
      | ok found =>
        cases found with
        | some a' => rfl
        | none =>
          simp only [hf] at h
          simp only [Except.map, makeSynchronized_refuel h]
          cases a.makeSynchronized body handler with
          | some a' => rfl
          | none => rfl
    · simp only [hnew]
      rfl

/-- The budget lasts for all rows. -/
def addRowsLasts (s : Structuring) : List ExceptionRow → Bool
  | [] => true
  | row :: outer =>
    s.addRowLasts row outer &&
      match s.addRow row outer with
      | .error _ => true
      | .ok s => s.addRowsLasts outer

theorem addRows_refuel {rows : List ExceptionRow} (h : s.addRowsLasts rows = true) :
    (s.refuel (· + k)).addRows rows = (s.addRows rows).map (refuel (· + k)) := by
  induction rows generalizing s with
  | nil => rfl
  | cons row outer ih =>
    rw [addRowsLasts, Bool.and_eq_true] at h
    obtain ⟨hrow, h⟩ := h
    rw [addRows, addRows, addRow_refuel hrow]
    cases hs : s.addRow row outer with
    | error e => rfl
    | ok s' =>
      rw [hs] at h
      exact ih h

end Structuring

namespace Analysis

section Pipeline

variable {a : Analysis} {k : Nat} {rows : List ExceptionRow}

/-- The budget lasts while the exception table is structured. -/
def structureHandlersLasts (a : Analysis) (rows : List ExceptionRow) : Bool :=
  Structuring.addRowsLasts ⟨a, []⟩ (ExceptionRow.normalize rows)

theorem structureHandlers_refuel (h : a.structureHandlersLasts rows = true) :
    (a.refuel (· + k)).structureHandlers rows =
      (a.structureHandlers rows).map (refuel (· + k)) := by
  refine map_except_bind_of (Structuring.addRows_refuel h) fun s ↦ ?_
  have hsub : (s.refuel (· + k)).analysis.hasSubroutines = s.analysis.hasSubroutines := rfl
  by_cases hs : s.analysis.hasSubroutines = true
  · simp only [hsub, hs]
    rfl
  · simp only [hsub, hs]
    rfl

/-- The budget lasts until a single tree is made. -/
def structureAllLasts (a : Analysis) (rows : List ExceptionRow) : Bool :=
  let a := a.removeUnreachable (rows.map (·.handler))
  a.structureHandlersLasts rows &&
    match a.structureHandlers rows with
    | .error _ => true
    | .ok a => a.reduceAllLasts

theorem structureAll_refuel {fuel : Nat} (h : a.structureAllLasts rows = true) :
    (a.refuel (· + k)).structureAll rows (fuel + k) =
      (a.structureAll rows fuel).map (fueled (· + k)) := by
  rw [structureAllLasts] at h
  rw [structureAll, structureAll]
  rw [removeUnreachable_refuel]
  generalize a.removeUnreachable (rows.map (·.handler)) = a₁ at h
  rw [Bool.and_eq_true] at h
  obtain ⟨hhandlers, h⟩ := h
  rw [structureHandlers_refuel hhandlers]
  cases hs : a₁.structureHandlers rows with
  | error e => rfl
  | ok a₂ =>
    simp only [hs] at h
    dsimp only [Except.map, Except.mapError, bind, Except.bind]
    rw [reduceAll_refuel h]
    generalize a₂.reduceAll = r
    obtain ⟨a₃, structured⟩ := r
    dsimp only [fueled_mk, broken_refuel]
    cases a₃.broken with
    | some e => rfl
    | none =>
      cases structured with
      | true => rfl
      | false =>
        simp only [degrade_refuel]
        rfl

/-- The budget lasts for what follows once there is a single tree. -/
def finishLasts (a : Analysis) : Bool :=
  (a.mergeEnd a.entry).fixpointLasts a.entry &&
    let a := (a.mergeEnd a.entry).fixpoint a.entry
    let a := a.restoreIncrements (a.root a.entry)
    let a := a.removeTrailingReturn (a.root a.entry)
    match a.mapStack with
    | .error _ => true
    | .ok a => a.inlineStackLocals.fixpointLasts a.entry

theorem finish_refuel (h : a.finishLasts = true) :
    (a.refuel (· + k)).finish = a.finish.map (refuel (· + k)) := by
  rw [finishLasts, Bool.and_eq_true] at h
  obtain ⟨hfold, h⟩ := h
  rw [finish, finish]
  rw [entry_refuel, mergeEnd_refuel, fixpoint_refuel hfold]
  generalize (a.mergeEnd a.entry).fixpoint a.entry = a₁ at h
  simp only [entry_refuel, root_refuel, restoreIncrements_refuel, removeTrailingReturn_refuel,
    mapStack_refuel]
  cases hmap : ((a₁.restoreIncrements (a₁.root a₁.entry)).removeTrailingReturn
      ((a₁.restoreIncrements (a₁.root a₁.entry)).root
        (a₁.restoreIncrements (a₁.root a₁.entry)).entry)).mapStack with
  | error e => rfl
  | ok a₂ =>
    simp only [hmap] at h
    dsimp only [Except.map, Except.mapError, bind, Except.bind]
    rw [entry_refuel, inlineStackLocals_refuel, fixpoint_refuel h]
    simp only [flow_refuel, mergeBySlot_refuel,
      placeDeclarations_refuel]
    rfl

end Pipeline

end Analysis

section Budget

variable {m : MethodInfo} {code : List Instruction} {rows : List ExceptionRow} {o o' : Options}

/-- The budget lasts for the whole method: while it is reduced, no step is refused and the budget is
never found spent, nor does this happen later, where there is a new budget after a dispatcher. -/
def budgetLasts (m : MethodInfo) (code : List Instruction) (rows : List ExceptionRow)
    (o : Options) : Bool :=
  match Analysis.build m code o with
  | .error _ => true
  | .ok a =>
    a.structureAllLasts rows &&
      match a.structureAll rows (o.fuelFor code.length) with
      | .error _ => true
      | .ok (a, _) => a.finishLasts

/-- The method with `k` steps more left over. -/
def MethodBody.refuel (k : Nat) (body : MethodBody) : MethodBody :=
  { body with analysis := body.analysis.refuel (· + k) }

/-- More of a budget that lasts changes nothing: there is the same error, or the same body with the
rest of the budget. -/
theorem analyze_eq_of_budgetLasts (hchecked : o'.checked = o.checked)
    (hle : o.fuelFor code.length ≤ o'.fuelFor code.length) (h : budgetLasts m code rows o = true) :
    analyze m code rows o' = (analyze m code rows o).map
      (MethodBody.refuel (o'.fuelFor code.length - o.fuelFor code.length)) := by
  obtain ⟨k, hk⟩ : ∃ k, o'.fuelFor code.length = o.fuelFor code.length + k :=
    ⟨_, (Nat.add_sub_cancel' hle).symm⟩
  have hsub : o'.fuelFor code.length - o.fuelFor code.length = k := by omega
  rw [budgetLasts] at h
  rw [analyze, analyze, hsub, hk, Analysis.build_refuel (· + k) hchecked hk, hchecked]
  cases hb : Analysis.build m code o with
  | error e => rfl
  | ok a =>
    simp only [hb, Bool.and_eq_true] at h
    obtain ⟨hstruct, h⟩ := h
    dsimp only [Except.map, Except.mapError, bind, Except.bind]
    rw [Analysis.structureAll_refuel hstruct]
    cases hs : a.structureAll rows (o.fuelFor code.length) with
    | error e => rfl
    | ok r =>
      obtain ⟨a₁, degraded⟩ := r
      simp only [hs] at h
      dsimp only [Except.map, Analysis.fueled_mk]
      rw [Analysis.finish_refuel h]
      cases a₁.finish with
      | error e => rfl
      | ok a₂ =>
        dsimp only [Except.map]
        rw [Analysis.broken_refuel, Analysis.checkConsistency_refuel]
        cases a₂.broken with
        | some e => rfl
        | none =>
          cases o.checked with
          | false => rfl
          | true =>
            cases a₂.checkConsistency with
            | error e => rfl
            | ok _ => rfl

open Analysis in
/-- Twenty-two steps are just enough for a loop that counts down. -/
theorem analyze_eq_of_budgetLasts_countdown :
    budgetLasts takesInt countdown [] { fuel := some 22 } = true ∧
      analyze takesInt countdown [] {} =
        (analyze takesInt countdown [] { fuel := some 22 }).map (MethodBody.refuel 11978) := by
  have hlasts : budgetLasts takesInt countdown [] { fuel := some 22 } = true := by cbv
  have hle : Options.fuelFor { fuel := some 22 } countdown.length ≤
      Options.fuelFor {} countdown.length := by decide
  have hchecked : Options.checked {} = Options.checked { fuel := some 22 } := rfl
  exact ⟨hlasts, analyze_eq_of_budgetLasts hchecked hle hlasts⟩

end Budget

end Decompile
