import Decompile.Proofs.InstructionGraph
import Decompile.Proofs.Structuring

/-!
Short of a dispatcher, only the code of a method calls subroutines or switches. What can be said of
its calls and switches when they are made can be said of them ever after.
-/

namespace Decompile.Analysis

variable {a a' : Analysis} {P : Nat → Option ExprId → Prop}

/-- All subroutine calls and switches are as `P` says, given the number of expressions. -/
def Originates (P : Nat → Option ExprId → Prop) (a : Analysis) : Prop :=
  ∀ b o, (a.statement b).origin = some o → P a.exprs.size o

/-- What holds of a call or a switch is not lost when expressions come. -/
def Lasts (P : Nat → Option ExprId → Prop) : Prop := ∀ m n o, m ≤ n → P m o → P n o

namespace Originates

variable {s : Statement}

theorem congr (h : a.Originates P) (hP : Lasts P) (hb : ∀ b, a'.statement b = a.statement b)
    (he : a.exprs.size ≤ a'.exprs.size) : a'.Originates P := by
  intro b o ho
  rw [hb] at ho
  exact hP _ _ o he (h b o ho)

theorem furnish (h : a.Originates P) (hP : Lasts P) (hf : Furnished a a') : a'.Originates P :=
  h.congr hP (fun b ↦ congrArg (Blocks.statement · b) hf.blocks) hf.exprs

theorem alloc (h : a.Originates P) (hs : ∀ o, s.origin = some o → P a.exprs.size o) :
    (a.alloc s).1.Originates P := by
  intro b o ho
  by_cases hb : b = ⟨a.blocks.size⟩
  · rw [hb, statement, (blocks_alloc a s).1, Blocks.statement_alloc_self] at ho
    exact hs o ho
  · rw [statement, (blocks_alloc a s).1, (Blocks.get_alloc_of_ne hb).1] at ho
    exact h b o ho

theorem setStatement (h : a.Originates P) (b : BlockId)
    (hs : ∀ o, s.origin = some o → P a.exprs.size o) : (a.setStatement b s).Originates P := by
  intro x o ho
  rw [statement, Analysis.setStatement, Blocks.statement, Blocks.setStatement, Blocks.get_modify] at ho
  split at ho
  · exact hs o ho
  · exact h x o ho

end Originates

section Reworks

theorem Edit.originates (h : Edit a a') (hP : Lasts P) (ha : a.Originates P) : a'.Originates P := by
  cases h with
  | exprs t ht => exact ha.congr hP (fun _ ↦ rfl) ht
  | alloc s hs =>
    refine ha.alloc fun o ho ↦ ?_
    rw [hs] at ho
    cases ho
  | statement b s hs => exact ha.setStatement b fun o ho ↦ ha b o (hs o ho)
  | outer b o => exact ha.congr hP (fun _ ↦ Blocks.statement_setOuter ..) le_rfl
  | hold b j => exact ha.congr hP (fun _ ↦ Blocks.statement_setJump ..) le_rfl
  | _ => exact ha

theorem Edits.originates (h : Edits a a') (hP : Lasts P) (ha : a.Originates P) :
    a'.Originates P := by
  induction h with
  | refl => exact ha
  | tail _ h' ih => exact h'.originates hP ih

theorem Originates.absorb (ha : a.Originates P) (hP : Lasts P) (f s : FlowId) (edge : Edge) :
    (a.absorb f s edge).Originates P := by
  rw [absorb_eq]
  exact ha.congr hP (fun _ ↦ rfl) le_rfl

theorem Reworks.originates (h : Reworks a a') (hP : Lasts P) (ha : a.Originates P) :
    a'.Originates P := by
  induction h with
  | refl => exact ha
  | tail _ h' ih =>
    cases h' with
    | edit h' => exact h'.originates hP ih
    | absorb f s edge => exact ih.absorb hP f s edge

theorem Step.reworks (h : Step a a') : Reworks a a' := by
  cases h with
  | tick => exact (Edits.step (.refl a) (.refuel _)).reworks
  | check => exact (Edits.refl a).checkpoint.reworks
  | @join f s =>
    obtain ⟨a₁, a₂, edge, h₁, h₂, he⟩ := exists_joinSuccessor a f s
    exact he ▸ ((h₁.removeEdge f s).trans h₂).reworks.absorb f s edge
  | @loop f => exact (edits_loopBack a f).reworks
  | @merge f s w c b j =>
    obtain ⟨a₁, a₂, edge, h₁, h₂, h₃⟩ := exists_mergeCase a f w c b j s
      ((a.graph.jumpsTo f s).filter (· ≠ j))
    exact (((h₁.removeEdge f s).trans h₂).reworks.absorb f s edge).edits h₃
  | fold _ _ _ hr => exact ((offers_apply a _ _ _ hr).edits.step (.count _)).reworks

theorem originates_removeUnreachable (h : a.Originates P) (hP : Lasts P) (handlers : List Nat) :
    (a.removeUnreachable handlers).Originates P :=
  removeUnreachable_induction handlers h (fun _ _ he ha ↦ he.originates hP ha) fun _ _ _ _ ha ↦ ha

end Reworks

section Build

variable {m : MethodInfo} {code : List Instruction} {o : Options}
  (hP : Lasts P) (hswitch : ∀ (n : Nat) (e : ExprId), e.index < n → P n (some e))

theorem originates_lowerCases (previous : Option Nat) (cases : List (CaseValue × Nat)) (a : Analysis)
    (h : a.Originates P) : (lowerCases previous cases a).1.Originates P := by
  induction cases generalizing previous a with
  | nil => exact h
  | cons c cases ih =>
    rw [lowerCases_cons]
    refine ih _ _ ?_
    exact Originates.alloc (a := (a.alloc .empty).1) (h.alloc fun o ho ↦ by cases ho)
      fun o ho ↦ by cases ho

include hP hswitch

theorem originates_lower {opcode : Opcode} {l : Lowered} (h : a.lower opcode = .ok (a', l))
    (hcall : ∀ target, opcode = .jsr target → ∀ n, P n none) (ha : a.Originates P) :
    a'.Originates P ∧ ∀ o, l.statement.origin = some o → P a'.exprs.size o := by
  obtain ⟨kids, hk⟩ := lowers_of_lower h
  have hsize := hk.exprs
  cases opcode with
  | jsr target =>
    cases h
    refine ⟨ha.alloc fun o ho ↦ (by cases ho), fun o ho ↦ ?_⟩
    cases ho
    exact hcall target rfl _
  | branch op operand target =>
    cases operand <;> cases h <;> exact ⟨Originates.alloc (ha.congr hP (fun _ ↦ rfl) hsize)
      fun o ho ↦ (by cases ho), fun o ho ↦ by cases ho⟩
  | returns kind =>
    cases kind <;> cases h <;> exact ⟨ha.congr hP (fun _ ↦ rfl) hsize, fun o ho ↦ by cases ho⟩
  | switch cases fallback =>
    cases h
    refine ⟨(originates_lowerCases none (orderedCases cases fallback) a ha).congr hP (fun _ ↦ rfl)
      (Expressions.extends_alloc ..).size_le, fun o ho ↦ ?_⟩
    cases ho
    exact hswitch _ _ (by simp [Expressions.size])
  | getField isStatic | putField isStatic =>
    cases isStatic <;> cases h <;> exact ⟨ha.congr hP (fun _ ↦ rfl) hsize, fun o ho ↦ by cases ho⟩
  | newArray element dimensions =>
    cases h
    exact ⟨ha.furnish hP ((Furnished.allocFrees (.refl a) _).allocExpr _), fun o ho ↦ by cases ho⟩
  | invoke kind ref =>
    rw [lower] at h
    dsimp only at h
    split at h
    · cases h
    · cases h
      exact ⟨ha.furnish hP ((Furnished.allocFrees (.allocObject (.refl a) _) _).allocExpr _),
        fun o ho ↦ by cases ho⟩
  | _ =>
    cases h
    exact ⟨ha.congr hP (fun _ ↦ rfl) hsize, fun o ho ↦ by cases ho⟩

theorem originates_addInstructions {maxLocals : Nat} {flows flows' : List (Nat × FlowId)}
    {ps : List Pending} (h : addInstructions maxLocals code flows a = .ok (a', flows', ps))
    (hcall : ∀ i ∈ code, ∀ target, i.opcode = .jsr target → ∀ n, P n none) (ha : a.Originates P) :
    a'.Originates P := by
  induction code generalizing flows a ps with
  | nil =>
    cases h
    exact ha
  | cons i code ih =>
    rw [List.forall_mem_cons] at hcall
    obtain ⟨-, a₁, f, ps, qs, h₁, h₂, -⟩ := addInstructions_cons_eq_ok.mp h
    obtain ⟨a₂, l, hl, -, hb, he, -⟩ := addInstruction_eq_ok h₁
    obtain ⟨h₃, hs⟩ := originates_lower hP hswitch hl hcall.1 ha
    refine ih h₂ hcall.2 ((h₃.alloc hs).congr hP (fun b ↦ ?_) (congrArg Expressions.size he).ge)
    exact congrArg (Blocks.statement · b) hb

theorem originates_of_build (h : build m code o = .ok a)
    (hcall : ∀ i ∈ code, ∀ target, i.opcode = .jsr target → ∀ n, P n none) : a.Originates P := by
  obtain ⟨first, rest, returnsVoid, parameters, a₀, flows, ps, a₁, a₂, -, -, -, hadd, hlink, hnext,
    ha⟩ := build_eq_ok h
  have hl : a₀.Laid ps := (laid_opening m o code.length returnsVoid parameters).addInstructions hadd
  obtain ⟨-, -, hw⟩ := hl.wired_of_link (fun x hx ↦ live_of_mem_flows hadd hx) hlink hnext
  have hnew : (opening m o code.length returnsVoid parameters).Originates P := by
    have hempty : Originates P { checked := false, fuel := 0 } := fun b x hx ↦ by
      rw [statement, Blocks.statement, Blocks.get_of_size_le _ (Nat.zero_le _)] at hx
      cases hx
    have hthree := ((hempty.alloc (s := .empty) fun x hx ↦ by cases hx).alloc (s := .empty)
      fun x hx ↦ by cases hx).alloc (s := .empty) fun x hx ↦ by cases hx
    refine hthree.congr hP (fun b ↦ ?_) (Nat.zero_le _)
    rw [statement, opening, (bindParameters_eq ..).1]
    rfl
  refine (originates_addInstructions hP hswitch hadd hcall hnew).congr hP (fun b ↦ ?_) ?_
  · rw [ha]
    exact (hw.blocks b).1
  · rw [ha]
    exact (congrArg Expressions.size hw.exprs).ge

end Build

/-- No block calls a subroutine. -/
def CallFree (a : Analysis) : Prop := a.Originates fun _ o ↦ o ≠ none

/-- The selectors of the switches are expressions that there are. -/
def Switches (a : Analysis) : Prop := a.Originates fun n o ↦ ∀ e, o = some e → e.index < n

theorem lasts_callFree : Lasts fun _ o ↦ o ≠ none := fun _ _ _ _ h ↦ h

theorem lasts_switches : Lasts fun n o ↦ ∀ e, o = some e → e.index < n :=
  fun _ _ _ hmn h e he ↦ (h e he).trans_le hmn

theorem callFree_of_build {m : MethodInfo} {code : List Instruction} {o : Options}
    (h : build m code o = .ok a) (hop : ∀ i ∈ code, ∀ target, i.opcode ≠ .jsr target) :
    a.CallFree :=
  originates_of_build lasts_callFree (fun _ _ _ ↦ by simp) h fun i hi target ht ↦
    absurd ht (hop i hi target)

theorem switches_of_build {m : MethodInfo} {code : List Instruction} {o : Options}
    (h : build m code o = .ok a) : a.Switches := by
  refine originates_of_build lasts_switches (fun n e he e' hee' ↦ ?_) h fun _ _ _ _ _ e he ↦ ?_
  · cases hee'
    exact he
  · cases he

theorem Reached.switches {m : MethodInfo} {code : List Instruction} {o : Options}
    (h : Reached m code o a) : a.Switches := by
  induction h with
  | build h => exact switches_of_build h
  | prune h => exact originates_removeUnreachable (switches_of_build h) lasts_switches []
  | step _ hs ih => exact hs.reworks.originates lasts_switches ih

end Decompile.Analysis
