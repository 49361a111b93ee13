import Mathlib
import Decompile.Proofs.Visiting
import Decompile.Rendering.Statement

/-!
Names of variables in a text. No two classes share a name, and a text shows no class that has none.
-/

namespace Decompile

namespace VariableName

variable {m n : VariableName}

/-- What follows the base. -/
def tail (n : VariableName) : List Char :=
  if n.number = 0 then [] else '_' :: (toString n.number).toList

theorem toList_text (n : VariableName) : n.text.toList = n.base.toList ++ n.tail := by
  unfold text tail
  split <;> simp

theorem takeWhile_text (h : '_' ∉ n.base.toList) :
    n.text.toList.takeWhile (· ≠ '_') = n.base.toList := by
  rw [toList_text, List.takeWhile_append_of_pos]
  · unfold tail
    split <;> simp
  · intro c hc
    simpa using fun he : c = '_' ↦ h (he ▸ hc)

theorem number_eq_of_tail (h : m.tail = n.tail) : m.number = n.number := by
  unfold tail at h
  split at h <;> split at h
  · omega
  · cases h
  · cases h
  · exact Nat.repr_injective (String.toList_inj.mp (List.cons.inj h).2)

/-- The first underscore of a name ends its base. -/
theorem eq_of_text (hm : '_' ∉ m.base.toList) (hn : '_' ∉ n.base.toList) (h : m.text = n.text) :
    m = n := by
  have hbase : m.base = n.base := by
    rw [← String.toList_inj, ← takeWhile_text hm, h, takeWhile_text hn]
  have htail : m.tail = n.tail := by
    have := congrArg String.toList h
    rwa [toList_text, toList_text, hbase, List.append_right_inj] at this
  cases m
  cases n
  exact (mk.injEq ..).mpr ⟨hbase, number_eq_of_tail htail⟩

end VariableName

namespace Names

variable {locals : Locals} {names : Names} {x c : LocalId}

/-- A letter, then letters and digits. -/
def IsBase (s : String) : Prop := s.toList.head?.any (·.isAlpha) ∧ ∀ c ∈ s.toList, c.isAlphanum

theorem IsBase.underscore_notMem {s : String} (h : IsBase s) : '_' ∉ s.toList := fun hm ↦
  absurd (h.2 _ hm) (by decide)

theorem isBase_base (locals : Locals) (x : LocalId) : IsBase (base locals x) := by
  have hslot (slot : Nat) : IsBase ("slot" ++ toString slot) := by
    refine ⟨by simp, fun c hc ↦ ?_⟩
    rcases List.mem_append.mp (String.toList_append ▸ hc) with hc | hc
    · exact (by simp : ∀ c ∈ "slot".toList, c.isAlphanum) c hc
    · have hdigit : c ∈ Nat.toDigits 10 slot := by simpa using hc
      simp [Char.isAlphanum, Nat.isDigit_of_mem_toDigits (by decide) (by decide) hdigit]
  have hvar : IsBase "var" := ⟨by decide, by simp⟩
  unfold base
  split
  case h_2 | h_3 =>
    split
    · exact hslot _
    · exact hvar
  all_goals exact ⟨by decide, by simp⟩

theorem add_eq (locals : Locals) (names : Names) (x : LocalId) : names.add locals x =
    if locals.classOf x ∈ names.entries.map (·.1) then names
    else ⟨names.entries ++ [(locals.classOf x, ⟨base locals x,
      names.entries.countP (·.2.base = base locals x)⟩)]⟩ := by
  have hany : names.entries.any (·.1 = locals.classOf x) = true ↔
      locals.classOf x ∈ names.entries.map (·.1) := by
    simp
  simp only [add, hany]

/-- Classes and names correspond, and numbers of one base have been given out in order. -/
structure Distinct (names : Names) : Prop where
  classes : (names.entries.map (·.1)).Nodup
  plain : ∀ e ∈ names.entries, IsBase e.2.base
  below : ∀ e ∈ names.entries, e.2.number < names.entries.countP (·.2.base = e.2.base)
  numbered : (names.entries.map (·.2)).Nodup

theorem Distinct.add (h : names.Distinct) (x : LocalId) : (names.add locals x).Distinct := by
  rw [add_eq]
  split
  next => exact h
  next hclass =>
    generalize hb : Names.base locals x = b
    have hfresh : (⟨b, names.entries.countP (·.2.base = b)⟩ : VariableName) ∉
        names.entries.map (·.2) := by
      intro hm
      obtain ⟨e, he, heq⟩ := List.mem_map.mp hm
      have := h.below e he
      simp only [heq, Nat.lt_irrefl] at this
    refine ⟨?_, ?_, ?_, ?_⟩
    · rw [List.map_append]
      exact h.classes.append (List.nodup_singleton _) (List.disjoint_singleton.mpr hclass)
    · intro e he
      rcases List.mem_append.mp he with he | he
      · exact h.plain e he
      · rw [List.mem_singleton.mp he, ← hb]
        exact isBase_base locals x
    · intro e he
      rw [List.countP_append]
      rcases List.mem_append.mp he with he | he
      · exact Nat.lt_add_right _ (h.below e he)
      · rw [List.mem_singleton.mp he]
        simp
    · rw [List.map_append]
      exact h.numbered.append (List.nodup_singleton _) (List.disjoint_singleton.mpr hfresh)

theorem Distinct.addAll (h : names.Distinct) (xs : List LocalId) :
    (xs.foldl (Names.add locals) names).Distinct := by
  induction xs generalizing names with
  | nil => exact h
  | cons x xs ih => exact ih (h.add x)

theorem Distinct.texts (h : names.Distinct) : (names.entries.map (·.2.text)).Nodup := by
  rw [show names.entries.map (·.2.text) = (names.entries.map (·.2)).map (·.text) by simp]
  refine h.numbered.map_on ?_
  intro m hm n hn htext
  obtain ⟨d, hd, rfl⟩ := List.mem_map.mp hm
  obtain ⟨e, he, rfl⟩ := List.mem_map.mp hn
  exact VariableName.eq_of_text (h.plain d hd).underscore_notMem (h.plain e he).underscore_notMem
    htext

theorem mem_add : c ∈ (names.add locals x).entries.map (·.1) ↔
    c ∈ names.entries.map (·.1) ∨ locals.classOf x = c := by
  rw [add_eq]
  split
  next h => exact ⟨.inl, fun hc ↦ hc.elim id fun hc ↦ hc ▸ h⟩
  next => simp [eq_comm]

theorem mem_addAll {xs : List LocalId} : c ∈ (xs.foldl (Names.add locals) names).entries.map (·.1) ↔
    c ∈ names.entries.map (·.1) ∨ ∃ x ∈ xs, locals.classOf x = c := by
  induction xs generalizing names with
  | nil => simp
  | cons x xs ih => rw [List.foldl_cons, ih, mem_add, or_assoc]; simp

/-- Further names do not change the name of a class that has one. -/
theorem text_append (hx : locals.classOf x ∈ names.entries.map (·.1))
    (more : List (LocalId × VariableName)) :
    text ⟨names.entries ++ more⟩ locals x = names.text locals x := by
  obtain ⟨e, he, hc⟩ := List.mem_map.mp hx
  have hsome : (names.entries.lookup (locals.classOf x)).isSome := by
    rw [List.lookup_isSome_iff]
    exact ⟨e, he, by simp [hc]⟩
  rw [text, text, List.lookup_append, Option.or_of_isSome hsome]

end Names

namespace Rendering

variable {a : Analysis} {N N' : Names} {e c : ExprId} {b : BlockId} {depth n : Nat}

theorem mem_localsIn_child {x : LocalId} (hc : c ∈ (a.expr e).children)
    (hx : x ∈ a.exprs.localsIn c) : x ∈ a.exprs.localsIn e := by
  obtain ⟨f, hf, hfx⟩ := List.mem_filterMap.mp hx
  refine Expressions.mem_localsIn_of_within (n := a.exprs.size + 1) ?_ hfx
  exact List.mem_cons_of_mem _ (List.mem_flatMap.mpr ⟨c, hc, hf⟩)

theorem node_congr {plain plain' operand operand' : ExprId → String} {x : Expression}
    (hc : ∀ c ∈ x.children, plain c = plain' c ∧ operand c = operand' c)
    (hv : ∀ v, x = .var v → N.text a.locals v = N'.text a.locals v) :
    node ⟨a, N⟩ plain operand x = node ⟨a, N'⟩ plain' operand' x := by
  have hlist : ∀ es ⊆ x.children, es.map plain = es.map plain' := fun es hes ↦
    List.map_congr_left fun e he ↦ (hc e (hes he)).1
  cases x with
  | var v => exact hv v rfl
  | newArray _ es =>
    have : es.map (fun e ↦ "[" ++ plain e ++ "]") = es.map fun e ↦ "[" ++ plain' e ++ "]" :=
      List.map_congr_left fun e he ↦ by rw [(hc e he).1]
    simp only [node, this]
  | arrayLiteral _ _ es => simp only [node, hlist es (List.Subset.refl _)]
  | construct _ _ es => simp only [node, hlist es (List.Subset.refl _)]
  | field object =>
    cases object with
    | none => rfl
    | some o => simp only [node, Option.elim_some, (hc o (by simp [Expression.children])).2]
  | call kind _ object es =>
    rw [node, node, hlist es (List.subset_append_right _ _)]
    cases object with
    | none => simp
    | some o =>
      have ho := (hc o (by simp [Expression.children])).2
      by_cases hk : kind = .static <;> simp [hk, ho]
  | _ => simp_all [node, Expression.children]

theorem exprWithin_congr (h : ∀ x ∈ a.exprs.localsIn e, N.text a.locals x = N'.text a.locals x) :
    exprWithin ⟨a, N⟩ n e = exprWithin ⟨a, N'⟩ n e := by
  induction n generalizing e with
  | zero => rfl
  | succ n ih =>
    have hchild : ∀ c ∈ (a.expr e).children, exprWithin ⟨a, N⟩ n c = exprWithin ⟨a, N'⟩ n c :=
      fun c hc ↦ ih fun x hx ↦ h x (mem_localsIn_child hc hx)
    refine node_congr (fun c hc ↦ ⟨hchild c hc, ?_⟩) fun v hv ↦ h v ?_
    · simp only [hchild c hc]
    · exact Expressions.mem_localsIn_of_within (n := 1) List.mem_cons_self
        (congrArg Expression.local? hv)

theorem expr_congr (h : ∀ x ∈ a.exprs.localsIn e, N.text a.locals x = N'.text a.locals x) :
    expr ⟨a, N⟩ e = expr ⟨a, N'⟩ e := exprWithin_congr h

theorem effect_congr (h : ∀ x ∈ a.exprs.localsIn e, N.text a.locals x = N'.text a.locals x) :
    effect ⟨a, N⟩ e = effect ⟨a, N'⟩ e := by
  have htarget : ∀ {target op value}, a.expr e = .assign target op value →
      expr ⟨a, N⟩ target = expr ⟨a, N'⟩ target := fun he ↦
    expr_congr fun x hx ↦ h x (mem_localsIn_child (by simp [he, Expression.children]) hx)
  simp only [effect, expr_congr h]
  split
  next target op hstep =>
    split at hstep
    next he =>
      split at hstep <;> cases hstep <;> rw [htarget he]
    next => cases hstep
  next => rfl

/-- A block and those inside it show only locals on which the names agree. -/
def Alike (a : Analysis) (N N' : Names) (b : BlockId) : Prop :=
  ∀ k, ∀ c ∈ a.blocks.subtreeWithin k b, ∀ x ∈ a.shownLocals c,
    N.text a.locals x = N'.text a.locals x

namespace Alike

variable (h : Alike a N N' b)
include h

theorem child {c : BlockId} (hc : c ∈ (a.statement b).children) : Alike a N N' c :=
  fun k d hd ↦ h (k + 1) d (Blocks.mem_subtreeWithin_child hc hd)

theorem here {x : LocalId} (hx : x ∈ a.shownLocals b) : N.text a.locals x = N'.text a.locals x :=
  h 1 b List.mem_cons_self x hx

theorem header {x : LocalId} (hx : a.headerLocal? b = some x) : name ⟨a, N⟩ x = name ⟨a, N'⟩ x :=
  h.here (by simp [Analysis.shownLocals, hx])

theorem locals {e : ExprId} (he : e ∈ (a.statement b).exprs) :
    ∀ x ∈ a.exprs.localsIn e, N.text a.locals x = N'.text a.locals x := fun _ hx ↦
  h.here (List.mem_append_right _ (List.mem_flatMap.mpr ⟨e, he, hx⟩))

theorem expr {e : ExprId} (he : e ∈ (a.statement b).exprs) :
    Rendering.expr ⟨a, N⟩ e = Rendering.expr ⟨a, N'⟩ e :=
  expr_congr (h.locals he)

theorem effect {e : ExprId} (he : e ∈ (a.statement b).exprs) :
    Rendering.effect ⟨a, N⟩ e = Rendering.effect ⟨a, N'⟩ e :=
  effect_congr (h.locals he)

theorem clause : Rendering.clause ⟨a, N⟩ b = Rendering.clause ⟨a, N'⟩ b := by
  unfold Rendering.clause
  cases hs : a.statement b <;> try rfl
  case catchClause _ binding _ =>
    cases binding with
    | none => rfl
    | some x => simp [h.header (x := x) (by simp [Analysis.headerLocal?, hs])]

theorem clauseBody : Alike a N N' (Rendering.clause ⟨a, N'⟩ b).2 := by
  unfold Rendering.clause
  cases hs : a.statement b <;> first | exact h | exact h.child (by simp [hs, Statement.children])

theorem step {e : ExprId} {incr : Option BlockId} (hi : ∀ c ∈ incr, c ∈ (a.statement b).children)
    (he : e ∈ increment? ⟨a, N⟩ incr) : Rendering.effect ⟨a, N⟩ e = Rendering.effect ⟨a, N'⟩ e := by
  obtain ⟨c, hc, he⟩ := Option.bind_eq_some_iff.mp he
  split at he <;> cases he
  next hs => exact (h.child (hi c hc)).effect (by simp [hs, Statement.exprs])

end Alike

theorem statement_congr {inside inside' : Nat → BlockId → List String} (h : Alike a N N' b)
    (hin : ∀ d c, Alike a N N' c → inside d c = inside' d c) :
    statement ⟨a, N⟩ inside depth b = statement ⟨a, N'⟩ inside' depth b := by
  have hchild : ∀ d, ∀ c ∈ (a.statement b).children, inside d c = inside' d c :=
    fun d c hc ↦ hin d c (h.child hc)
  have hexpr : ∀ e ∈ (a.statement b).exprs, expr ⟨a, N⟩ e = expr ⟨a, N'⟩ e := fun e ↦ h.expr
  unfold statement
  cases hs : a.statement b with
  | evaluate e push =>
    have he : e ∈ (a.statement b).exprs := by simp [hs, Statement.exprs]
    simp only [h.effect he, h.expr he]
  | returns value => cases value <;> simp_all [Statement.exprs]
  | ifElse cond onTrue onFalse =>
    cases onFalse <;> simp_all [Statement.exprs, Statement.children]
  | loop kind cond init incr body labeled =>
    have hcond : expr ⟨a, N⟩ cond = expr ⟨a, N'⟩ cond := hexpr _ (by simp [hs, Statement.exprs])
    have hbody : inside (depth + 1) body = inside' (depth + 1) body :=
      hchild _ _ (by simp [hs, Statement.children])
    have hinit : init.map (expr ⟨a, N⟩) = init.map (expr ⟨a, N'⟩) := Option.map_congr fun e he ↦
      hexpr e (by simp [hs, Statement.exprs, Option.mem_def.mp he])
    have hmem : ∀ c ∈ incr, c ∈ (a.statement b).children := fun c hc ↦ by
      simp [hs, Statement.children, Option.mem_def.mp hc]
    have hincr : incr.map (inside (depth + 1)) = incr.map (inside' (depth + 1)) :=
      Option.map_congr fun c hc ↦ hchild _ c (hmem c hc)
    have hstep : (increment? ⟨a, N⟩ incr).map (effect ⟨a, N⟩) =
        (increment? ⟨a, N'⟩ incr).map (effect ⟨a, N'⟩) := Option.map_congr fun e ↦ h.step hmem
    cases kind <;> simp only [hcond, hbody, hinit, hincr, hstep] <;> rfl
  | switch selector cases labeled =>
    have hcases : cases.flatMap (inside (depth + 1)) = cases.flatMap (inside' (depth + 1)) :=
      List.flatMap_congr fun c hc ↦ hchild _ c (by simpa [hs, Statement.children] using hc)
    simp only [hexpr selector (by simp [hs, Statement.exprs]), hcases]
  | switchCase value => cases value <;> simp_all [Statement.children]
  | tryCatch body handlers =>
    have hclause : ∀ c ∈ handlers, Alike a N N' c := fun c hc ↦
      h.child (by simp [hs, Statement.children, hc])
    have hhandlers : handlers.flatMap (fun c ↦ line depth (clause ⟨a, N⟩ c).1 ::
        inside (depth + 1) (clause ⟨a, N⟩ c).2) = handlers.flatMap fun c ↦
        line depth (clause ⟨a, N'⟩ c).1 :: inside' (depth + 1) (clause ⟨a, N'⟩ c).2 := by
      refine List.flatMap_congr fun c hc ↦ ?_
      rw [(hclause c hc).clause, hin _ _ (hclause c hc).clauseBody]
    simp only [hchild _ body (by simp [hs, Statement.children]), hhandlers]
  | synchronized monitor object body =>
    have hname := h.header (x := monitor) (by simp [Analysis.headerLocal?, hs])
    cases object <;> simp_all [Statement.exprs, Statement.children]
  | ret address =>
    simp only [h.header (x := address) (by simp [Analysis.headerLocal?, hs])]
  | _ => simp_all [Statement.exprs, Statement.children]

theorem linesWithin_congr (h : Alike a N N' b) :
    linesWithin ⟨a, N⟩ n depth b = linesWithin ⟨a, N'⟩ n depth b := by
  induction n generalizing depth b with
  | zero => rfl
  | succ n ih =>
    have hdeclared : (a.blocks.get b).declares.members.map
        (fun x ↦ line depth ("var " ++ name ⟨a, N⟩ x ++ ";")) =
        (a.blocks.get b).declares.members.map fun x ↦
          line depth ("var " ++ name ⟨a, N'⟩ x ++ ";") := by
      refine List.map_congr_left fun x hx ↦ ?_
      rw [name, name, h.here (by simp [Analysis.shownLocals, hx])]
    rw [linesWithin, linesWithin, statement_congr h fun d c hc ↦ ih hc]
    exact congrArg (· ++ _ ++ _) hdeclared

end Rendering

namespace Analysis

theorem distinct_names (a : Analysis) (root : BlockId) : (a.names root).Distinct :=
  (show Names.Distinct {} from ⟨.nil, by simp, by simp, .nil⟩).addAll _

/-- Every class has one name and no other class has it. All classes that the text of a tree shows
have a name: it stays the same whatever further classes are called. -/
theorem names_distinct_and_complete (a : Analysis) (root : BlockId) :
    ((a.names root).entries.map (·.1)).Nodup ∧ ((a.names root).entries.map (·.2.text)).Nodup ∧
      (∀ b ∈ a.blocks.subtree root, ∀ x ∈ a.shownLocals b,
        ((a.names root).entries.lookup (a.locals.classOf x)).isSome) ∧
      ∀ more, Rendering.linesWithin ⟨a, ⟨(a.names root).entries ++ more⟩⟩ a.blocks.size 0 root =
        a.renderLines root := by
  have hd := a.distinct_names root
  have hnamed : ∀ b ∈ a.blocks.subtree root, ∀ x ∈ a.shownLocals b,
      a.locals.classOf x ∈ (a.names root).entries.map (·.1) := fun b hb x hx ↦
    Names.mem_addAll.mpr (.inr ⟨x,
      List.mem_append_right _ (List.mem_flatMap.mpr ⟨b, hb, hx⟩), rfl⟩)
  refine ⟨hd.classes, hd.texts, fun b hb x hx ↦ ?_, fun more ↦ ?_⟩
  · obtain ⟨e, he, hc⟩ := List.mem_map.mp (hnamed b hb x hx)
    exact List.lookup_isSome_iff.mpr ⟨e, he, by simp [hc]⟩
  · refine Rendering.linesWithin_congr fun k c hc x hx ↦ Names.text_append (hnamed c ?_ x hx) more
    refine Blocks.mem_subtree_of_within hc ?_
    by_contra hlt
    have hget : a.blocks.get c = default := a.blocks.table.get_of_size_le (Nat.le_of_not_lt hlt)
    rw [shownLocals, headerLocal?, statement, Blocks.statement, hget] at hx
    exact List.not_mem_nil hx

end Analysis

end Decompile
