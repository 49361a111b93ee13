import Decompile.Proofs.Lasting
import Decompile.Proofs.Storage
import Decompile.Proofs.Tiling

/-!
Rules that are applied until none matches have nothing left to do. Neither does joining locals give
them anything to match afterwards, nor declaring them.
-/

namespace Decompile

theorem Rule.mem_all (rule : Rule) : rule ∈ Rule.all := by
  cases rule <;> decide

namespace Blocks

variable {t : Blocks} {b : BlockId}

/-- No block declares a local. -/
def Bare (t : Blocks) : Prop := ∀ b, (t.get b).declares = {}

theorem bare_empty : ({} : Blocks).Bare := fun _ ↦ rfl

theorem Bare.modify (ht : t.Bare) {k : Block → Block} (hk : ∀ x, (k x).declares = x.declares) :
    (t.modify b k).Bare := by
  intro c
  rw [get, Blocks.modify, Table.get_modify]
  split
  · rw [hk]
    exact ht c
  · exact ht c

theorem Bare.setStatement (ht : t.Bare) (s : Statement) : (t.setStatement b s).Bare :=
  ht.modify fun _ ↦ rfl

theorem Bare.setOuter (ht : t.Bare) (o : Option BlockId) : (t.setOuter b o).Bare :=
  ht.modify fun _ ↦ rfl

theorem Bare.setJump (ht : t.Bare) (j : Option JumpId) : (t.setJump b j).Bare :=
  ht.modify fun _ ↦ rfl

theorem Bare.alloc (ht : t.Bare) (s : Statement) : (t.alloc s).1.Bare := by
  have hchildren (cs : List BlockId) (t : Blocks) (ht : t.Bare) (o : Option BlockId) :
      (cs.foldl (fun t c ↦ t.setOuter c o) t).Bare := by
    induction cs generalizing t with
    | nil => exact ht
    | cons c cs ih => exact ih _ (ht.setOuter o)
  intro b
  rw [get, Blocks.alloc, Table.get_push]
  split
  · rfl
  · exact hchildren _ t ht _ b

end Blocks

namespace Analysis

variable {a a' : Analysis} {b : BlockId} {f : FlowId}

section Passes

/-- No rule matches a block of `f`. -/
def Settled (a : Analysis) (f : FlowId) : Prop :=
  ∀ b ∈ a.blocks.subtree (a.root f), a.blocks.isWithin b (a.root f) →
    ∀ rule : Rule, rule.apply a b = none

theorem applyFirst_all_eq_none_iff :
    a.applyFirst Rule.all b = none ↔ ∀ rule : Rule, rule.apply a b = none := by
  rw [applyFirst, Option.map_eq_none_iff, List.findSome?_eq_none_iff]
  exact ⟨fun h rule ↦ h rule rule.mem_all, fun h rule _ ↦ h rule⟩

theorem eq_refuel_of_tick (h : a.tick = some a') : a' = a.refuel (· - 1) := by
  unfold tick at h
  split at h
  · cases h
  · exact (Option.some.inj h).symm

theorem fuel_eq_zero_of_tick (h : a.tick = none) : a.fuel = 0 := by
  unfold tick at h
  split at h
  · assumption
  · cases h

theorem applyFirst_refuel_eq_none_iff {u : Nat → Nat} {rules : List Rule} :
    (a.refuel u).applyFirst rules b = none ↔ a.applyFirst rules b = none := by
  rw [applyFirst_refuel, Option.map_eq_none_iff]

theorem fuel_eq_zero_of_foldPass {bs : List BlockId} {changed : Bool}
    (h : (foldPass f bs changed a).2 = none) : (foldPass f bs changed a).1.fuel = 0 := by
  fun_induction foldPass f bs changed a with
  | case1 changed a => cases h
  | case2 b rest changed a hin ht => exact fuel_eq_zero_of_tick ht
  | case3 b rest changed a hin a₁ ht new a₂ happ ih => exact ih h
  | case4 b rest changed a hin a₁ ht a₂ happ ih => exact ih h
  | case5 b rest changed a hin ih => exact ih h

theorem of_foldPass_eq_false {bs : List BlockId} {changed : Bool}
    (h : (foldPass f bs changed a).2 = some false) :
    changed = false ∧ (∃ u, (foldPass f bs changed a).1 = a.refuel u) ∧
      ∀ b ∈ bs, a.blocks.isWithin b (a.root f) → a.applyFirst Rule.all b = none := by
  fun_induction foldPass f bs changed a with
  | case1 changed a => exact ⟨Option.some.inj h, ⟨id, rfl⟩, fun b hb ↦ by cases hb⟩
  | case2 b rest changed a hin ht => cases h
  | case3 b rest changed a hin a₁ ht new a₂ happ ih => cases (ih h).1
  | case4 b rest changed a hin a₁ ht a₂ happ ih =>
    obtain ⟨hchanged, ⟨u, hu⟩, hrest⟩ := ih h
    obtain ⟨happ, rfl⟩ := declined_of_applyRules happ
    obtain rfl := eq_refuel_of_tick ht
    refine ⟨hchanged, ⟨fun n ↦ u (n - 1), hu⟩,
      List.forall_mem_cons.mpr ⟨fun _ ↦ ?_, fun c hc hin ↦ ?_⟩⟩
    · exact applyFirst_refuel_eq_none_iff.mp happ
    · exact applyFirst_refuel_eq_none_iff.mp (hrest c hc hin)
  | case5 b rest changed a hin ih =>
    obtain ⟨hchanged, hu, hrest⟩ := ih h
    exact ⟨hchanged, hu, List.forall_mem_cons.mpr ⟨fun h ↦ absurd h hin, hrest⟩⟩

theorem settled_fixpointWithin {n : Nat} (hn : a.fuel < n) :
    (fixpointWithin f n a).fuel = 0 ∨ (fixpointWithin f n a).Settled f := by
  induction n generalizing a with
  | zero => omega
  | succ n ih =>
    have hlt := (fuel_foldPass f (a.blocks.subtree (a.root f)) false a).2
    have hnone : (foldPass f (a.blocks.subtree (a.root f)) false a).2 = none → _ :=
      fuel_eq_zero_of_foldPass
    have hfalse : (foldPass f (a.blocks.subtree (a.root f)) false a).2 = some false → _ :=
      of_foldPass_eq_false
    rw [fixpointWithin]
    generalize foldPass f (a.blocks.subtree (a.root f)) false a = r at hlt hnone hfalse ⊢
    obtain ⟨a₁, done⟩ := r
    cases done with
    | none => exact .inl (hnone rfl)
    | some changed =>
      cases changed with
      | true =>
        have hlt : a₁.fuel < a.fuel := by simpa using hlt rfl
        exact ih (by omega)
      | false =>
        obtain ⟨-, ⟨u, rfl⟩, hall⟩ := hfalse rfl
        refine .inr fun b hb hin ↦ applyFirst_all_eq_none_iff.mp ?_
        exact applyFirst_refuel_eq_none_iff.mpr (hall b hb hin)

theorem settled_fixpoint (a : Analysis) (f : FlowId) :
    (a.fixpoint f).fuel = 0 ∨ (a.fixpoint f).Settled f :=
  settled_fixpointWithin (Nat.lt_succ_self _)

theorem foldPass_eq_refuel (bs : List BlockId) (u : Nat → Nat)
    (h : u a.fuel = 0 ∨ ∀ b ∈ bs, a.blocks.isWithin b (a.root f) → a.applyFirst Rule.all b = none) :
    ∃ v, foldPass f bs false (a.refuel u) = (a.refuel v, some false) ∨
      foldPass f bs false (a.refuel u) = (a.refuel v, none) := by
  induction bs generalizing u with
  | nil => exact ⟨u, .inl rfl⟩
  | cons b rest ih =>
    rw [foldPass, blocks_refuel, root_refuel]
    by_cases hin : a.blocks.isWithin b (a.root f)
    · rw [if_pos hin]
      cases ht : (a.refuel u).tick with
      | none => exact ⟨u, .inr rfl⟩
      | some a₁ =>
        have hfuel := fuel_of_tick ht
        obtain rfl := eq_refuel_of_tick ht
        obtain h | h := h
        · rw [fuel_refuel, fuel_refuel, h] at hfuel
          omega
        · have happ : ((a.refuel u).refuel (· - 1)).applyFirst Rule.all b = none :=
            applyFirst_refuel_eq_none_iff.mpr
              (applyFirst_refuel_eq_none_iff.mpr (h b List.mem_cons_self hin))
          simp only [applyRules_eq, happ, Rewrite.outcome]
          exact ih (fun n ↦ u n - 1) (.inr fun c hc ↦ h c (List.mem_cons_of_mem b hc))
    · rw [if_neg hin]
      exact ih u (h.imp_right fun h c hc ↦ h c (List.mem_cons_of_mem b hc))

theorem fixpoint_eq_refuel (h : a.fuel = 0 ∨ a.Settled f) : ∃ u, a.fixpoint f = a.refuel u := by
  obtain ⟨v, hv⟩ := foldPass_eq_refuel (f := f) (a.blocks.subtree (a.root f)) id
    (h.imp_right fun h b hb hin ↦ applyFirst_all_eq_none_iff.mpr (h b hb hin))
  have hid : a.refuel id = a := rfl
  rw [hid] at hv
  rw [fixpoint, fixpointWithin]
  obtain hv | hv := hv <;> rw [hv] <;> exact ⟨v, rfl⟩

end Passes

/-- The same state with its locals declared and joined. -/
structure Dresses (a a' : Analysis) : Prop where
  bare : a.blocks.Bare
  exprs : a'.exprs = a.exprs
  graph : a'.graph = a.graph
  entry : a'.entry = a.entry
  fuel : a'.fuel = a.fuel
  blocks : a.blocks.Redeclares a'.blocks
  slot : ∀ x, a'.locals.slot x = a.locals.slot x

namespace Dresses

theorem refl (ha : a.blocks.Bare) : Dresses a a :=
  ⟨ha, rfl, rfl, rfl, rfl, .refl _, fun _ ↦ rfl⟩

variable (h : Dresses a a')
include h

theorem mergeLocals (x y : LocalId) : Dresses a (a'.mergeLocals x y) :=
  { h with slot := fun z ↦ (Locals.slot_merge _ x y z).trans (h.slot z) }

theorem redeclare {t : Blocks} (ht : a.blocks.Redeclares t) : Dresses a { a' with blocks := t } :=
  ⟨h.bare, h.exprs, h.graph, h.entry, h.fuel, ht, h.slot⟩

theorem foldl {α : Type} {k : Analysis → α → Analysis}
    (hk : ∀ a' x, Dresses a a' → Dresses a (k a' x)) (l : List α) : Dresses a (l.foldl k a') :=
  List.foldlRecOn l k h fun a' h x _ ↦ hk a' x h

theorem mergeBySlot (reads writes : VariableSet) : Dresses a (a'.mergeBySlot reads writes) :=
  h.foldl (fun _ read h ↦ h.foldl (fun _ write h ↦ h.mergeLocals read write) _) _

theorem placeDeclarations : Dresses a a'.placeDeclarations := by
  refine (h.redeclare (h.blocks.clear _)).foldl (fun a' x h ↦ ?_) _
  cases a'.scopeOf? _ x with
  | none => exact h
  | some b => exact h.redeclare (h.blocks.setDeclares b _)

theorem settled (ha : a.Settled f) : a'.Settled f := by
  have hlike : Resembles a a' := ⟨h.exprs, h.graph, h.blocks, fun b _ ↦ by rw [h.bare b]; rfl, h.slot⟩
  have hroot : a'.root f = a.root f := by
    rw [Analysis.root, Analysis.flow, h.graph, Analysis.root, Analysis.flow]
  intro b hb hin rule
  rw [h.blocks.subtree, hroot] at hb
  rw [h.blocks.isWithin, hroot] at hin
  exact (hlike.follows b rule).eq_none (ha b hb hin rule)

end Dresses

section Bare

theorem Edit.bare (h : Edit a a') (ha : a.blocks.Bare) : a'.blocks.Bare := by
  cases h with
  | alloc s => exact ha.alloc s
  | statement b s => exact ha.setStatement s
  | outer b o => exact ha.setOuter o
  | hold b j => exact ha.setJump j
  | _ => exact ha

theorem Grows.bare (h : Grows a a') (ha : a.blocks.Bare) : a'.blocks.Bare := by
  induction h with
  | refl => exact ha
  | tail _ h' ih =>
    cases h' with
    | rework h' =>
      cases h' with
      | edit h' => exact h'.bare ih
      | absorb f s edge => rwa [absorb_eq]
    | alloc s => exact ih.alloc s
    | addLocal => exact ih
    | beside hb => exact hb.symm ▸ ih

theorem Edits.bare (h : Edits a a') (ha : a.blocks.Bare) : a'.blocks.Bare := h.grows.bare ha

theorem bare_new (checked : Bool) (fuel : Nat) : (new checked fuel).blocks.Bare :=
  ((Blocks.bare_empty.alloc .empty).alloc .empty).alloc .empty

theorem edits_fixpoint (a : Analysis) (f : FlowId) : Edits a (a.fixpoint f) :=
  fixpoint_induct (fun h ht ↦ h.tick ht)
    (fun h _ hr ↦ (h.trans (offers_apply _ _ _ _ hr).edits).step (.count _)) (.refl a)

theorem edits_inlineStackLocals (a : Analysis) : Edits a a.inlineStackLocals :=
  inlineStackLocals_induct (fun h h₁ ↦ h.trans (offers_inlineOne? _ h₁)) (.refl a)

theorem blocks_fill (es : List ExprId) (xs : List LocalId) (a : Analysis) :
    (Mapping.fill a es xs).blocks = a.blocks := by
  induction es generalizing xs a with
  | nil => cases xs <;> rfl
  | cons e es ih =>
    cases xs with
    | nil => rfl
    | cons x xs => exact ih xs _

theorem Threads.bare {a₀ : Analysis} {pool : List OperandStack} (h : Threads a₀ a pool)
    (h₀ : a₀.blocks.Bare) : a.blocks.Bare := by
  induction h with
  | start => exact h₀
  | consume _ _ _ ih => exact (blocks_fill ..).symm ▸ ih
  | push b e width _ _ ih => exact ih.setStatement _
  | shuffle b _ _ _ ih => exact ih.setStatement _
  | meet _ _ _ ih => exact ih

end Bare

section Finishing

variable {m : MethodInfo} {code : List Instruction} {rows : List ExceptionRow} {o : Options}

theorem settled_finish (ha : a.blocks.Bare) (h : a.finish = .ok a') :
    a'.fuel = 0 ∨ a'.Settled a'.entry := by
  have hbare : (((a.mergeEnd a.entry).fixpoint a.entry).restoreIncrements
      (((a.mergeEnd a.entry).fixpoint a.entry).root
        ((a.mergeEnd a.entry).fixpoint a.entry).entry)).blocks.Bare :=
    (edits_restoreIncrements _ _).bare ((edits_fixpoint _ _).bare ((edits_mergeEnd a _).bare ha))
  obtain ⟨a₁, hmap, h⟩ := ok_of_bind h
  generalize ((a.mergeEnd a.entry).fixpoint a.entry).restoreIncrements _ = a₂ at hbare hmap
  replace hbare := (edits_removeTrailingReturn a₂ (a₂.root a₂.entry)).bare hbare
  generalize a₂.removeTrailingReturn _ = a₃ at hbare hmap
  cases hm : a₃.mapStack with
  | error e => rw [hm] at hmap; cases hmap
  | ok a₄ =>
    rw [hm] at hmap
    obtain rfl := Except.ok.inj hmap
    obtain ⟨pool, hpool⟩ := threads_mapStack hm
    have hedits := (edits_inlineStackLocals a₄).trans (edits_fixpoint _ a₄.entry)
    have hsettled := settled_fixpoint a₄.inlineStackLocals a₄.entry
    generalize a₄.inlineStackLocals.fixpoint a₄.entry = c at hedits hsettled h
    have hdress : Dresses c a' := by
      cases h
      exact ((Dresses.refl (hedits.bare (hpool.bare hbare))).mergeBySlot _ _).placeDeclarations
    rw [hdress.fuel, hdress.entry, hedits.reworks.thins.1]
    exact hsettled.imp_right hdress.settled

theorem settled_analyze {body : MethodBody} (h : analyze m code rows o = .ok body) :
    body.analysis.fuel = 0 ∨ body.analysis.Settled body.analysis.entry := by
  obtain ⟨s, a₁, hs, ha₁, hfinish⟩ := analyze_eq_ok h
  have hgrows := grows_structures hs
  refine settled_finish ?_ hfinish
  rcases ha₁ with rfl | rfl
  · exact hgrows.bare (bare_new _ _)
  · exact (hgrows.trans (grows_degrade _)).bare (bare_new _ _)

/-- Once rules have been applied to a fixpoint, no rule matches any block of the tree, unless the
budget is spent, and applying them again takes from the budget only. The same holds of every
method body. -/
theorem fixpoint_idempotent :
    (∀ (a : Analysis) (f : FlowId), ((a.fixpoint f).fuel = 0 ∨ (a.fixpoint f).Settled f) ∧
      ∃ n, (a.fixpoint f).fixpoint f = { a.fixpoint f with fuel := n }) ∧
    ∀ (m : MethodInfo) (code : List Instruction) (rows : List ExceptionRow) (o : Options)
      (body : MethodBody), analyze m code rows o = .ok body →
        (body.analysis.fuel = 0 ∨ body.analysis.Settled body.analysis.entry) ∧
        ∃ n, body.analysis.fixpoint body.analysis.entry = { body.analysis with fuel := n } := by
  have hagain {a : Analysis} {f : FlowId} (h : a.fuel = 0 ∨ a.Settled f) :
      ∃ n, a.fixpoint f = { a with fuel := n } := by
    obtain ⟨u, hu⟩ := fixpoint_eq_refuel h
    exact ⟨u a.fuel, hu⟩
  constructor
  · intro a f
    exact ⟨settled_fixpoint a f, hagain (settled_fixpoint a f)⟩
  · intro m code rows o body h
    exact ⟨settled_analyze h, hagain (settled_analyze h)⟩

/-- Adds one to the argument by way of the operand stack. -/
def addOne : List Instruction :=
  [⟨0, 1, .load .int 0⟩, ⟨1, 1, .const (.int 1)⟩, ⟨2, 1, .binary .add .int⟩, ⟨3, 1, .store .int 0⟩,
    ⟨4, 1, .returns none⟩]

theorem fixpoint_idempotent_addOne : ∃ body, analyze takesInt addOne [] {} = .ok body ∧
    body.analysis.applied = 4 ∧
    ∃ n, body.analysis.fixpoint body.analysis.entry = { body.analysis with fuel := n } := by
  have h : (analyze takesInt addOne [] {}).toOption.any
      (fun body ↦ body.analysis.applied == 4) := by
    cbv
  obtain ⟨body, hbody, happlied⟩ := exists_analyze h
  exact ⟨body, hbody, beq_iff_eq.mp happlied, (fixpoint_idempotent.2 _ _ _ _ body hbody).2⟩

end Finishing

end Analysis

end Decompile
