import Decompile.Proofs.StackMapping

namespace Decompile

namespace Mapping

variable {a : Analysis} {m m₁ m₂ m₃ m' : Mapping} {r b : BlockId} {s rest : OperandStack}
  {map : Mapper}

/-- The blocks of the trees of some children. -/
def Among (a : Analysis) (cs : List BlockId) (x : BlockId) : Prop :=
  ∃ c ∈ cs, a.blocks.Below c x

theorem Among.cons {c x : BlockId} {cs : List BlockId} (h : Among a cs x) : Among a (c :: cs) x :=
  let ⟨d, hd, hx⟩ := h
  ⟨d, List.mem_cons_of_mem _ hd, hx⟩

theorem Among.head {c x : BlockId} {cs : List BlockId} (h : a.blocks.Below c x) :
    Among a (c :: cs) x :=
  ⟨c, List.mem_cons_self, h⟩

/-- What a successful mapping of the cases `cs` of a switch comes to. Control enters each of them
from the selector with the stack `rest`, and the first of them also from the case before. -/
structure MapsCases (a : Analysis) (cs : List BlockId) (rest : OperandStack) (previous : Outgoing)
    (m m' : Mapping) (out : Outgoing) : Prop where
  effect : Effect a (Among a cs) m m'
  proper : m'.Proper
  outgoing : ∀ t, out = some t → t.Proper m'.analysis.locals
  statement : ∀ c ∈ cs, m'.analysis.statement c = m.analysis.statement c
  typed : ∀ {a' B C O}, Settled a' (Among a cs) m' → Around a' (Among a cs) B C m m' →
    Covers O (out.map (·.shape a')) →
    (∀ T, previous.map (·.shape a') = some T → Typed a a' a'.cellOf B C (.cases cs) T O) ∧
      ∀ i < cs.length, Typed a a' a'.cellOf B C (.cases (cs.drop i)) (rest.shape a') O

theorem mapCases_spec (hw : a.WellFormedTree r) (hb : a.blocks.Below r b) (cs : List BlockId) :
    ∀ {previous out : Outgoing} {known known' : Bool} {m : Mapping}, cs.Nodup →
      (∀ c ∈ cs, c ∈ (a.statement b).children) →
      (∀ c ∈ cs, ∀ value body fall, a.statement c = .switchCase value body fall →
        Correct a map body) →
      Ready a (Among a cs) m → m.Proper → rest.Proper m.analysis.locals →
      (∀ t, previous = some t → t.Proper m.analysis.locals) →
      mapCases map rest cs previous known m = .ok (m', out, known') →
      MapsCases a cs rest previous m m' out ∧
        known' = (known || cs.any fun c ↦ (a.statement c).isDefaultCase) := by
  induction cs with
  | nil =>
    intro previous out known known' m _ _ _ _ hm _ hprev h
    obtain ⟨rfl, h'⟩ := Prod.mk.inj (Except.ok.inj h)
    obtain ⟨rfl, rfl⟩ := Prod.mk.inj h'
    refine ⟨⟨.refl .., hm, hprev, by simp, fun {a' B C O} _ _ hO ↦ ⟨fun T hT ↦ ?_, by simp⟩⟩,
      by simp⟩
    rw [hO T hT]
    exact .noCase
  | cons c cs ih =>
    intro previous out known known' m hnd hcs hmap hr hm hrest hprev h
    obtain ⟨hnot, hnd⟩ := List.nodup_cons.mp hnd
    have hc := hcs c List.mem_cons_self
    have hstc : m.analysis.statement c = a.statement c := hr.statement (.head .root)
    -- The trees of the cases have no block in common.
    have hapart {x : BlockId} (hx : a.blocks.Below c x) : ¬ Among a cs x := by
      rintro ⟨d, hd, hx'⟩
      have := hw.tree.child_unique hb hc (hcs d (List.mem_cons_of_mem _ hd)) hx hx'
      exact hnot (this ▸ hd)
    have hbelow {x : BlockId} (hx : Among a (c :: cs) x) : a.blocks.Below r x := by
      obtain ⟨d, hd, hx⟩ := hx
      exact (hb.child (hcs d hd)).trans hx
    unfold mapCases at h
    split at h
    · next value body fall hst =>
      rw [hstc] at hst
      obtain ⟨⟨m₁, entry⟩, hjoin, h'⟩ := ok_of_bind h
      obtain ⟨⟨m₂, o⟩, hmapped, hcases⟩ := ok_of_bind h'
      dsimp only at hmapped hcases
      obtain ⟨e₁, hm₁, hentry, hst₁, -, hcovers⟩ := join_spec (a := a) (P := fun _ ↦ False) hm
        (fun t ht ↦ Option.some.inj ht ▸ hrest) hprev hjoin
      obtain rfl := eq_of_join hjoin
      have hbody : body ∈ (a.statement c).children := by simp [hst, Statement.children]
      have hin {x : BlockId} (hx : a.blocks.Below body x) : a.blocks.Below c x :=
        (Blocks.Below.child .root hbody).trans hx
      have hr₁ : Ready a (Among a (c :: cs)) m₁ :=
        hr.step hw e₁ (fun _ ↦ hbelow) (fun _ h ↦ h.elim) fun _ h ↦ h.elim
      have M := hmap c List.mem_cons_self value body fall hst
        (hr₁.mono fun _ hx ↦ .head (hin hx)) hm₁ (hentry _ rfl) hmapped
      have hr₂ : Ready a (Among a cs) m₂ :=
        (hr₁.mono fun _ hx ↦ hx.cons).step hw M.effect (fun _ hx ↦ hbelow hx.cons)
          (fun _ hx ↦ hbelow (.head (hin hx))) fun _ hx ↦ hapart (hin hx)
      have hle := e₁.later.locals.size_le.trans M.effect.later.locals.size_le
      obtain ⟨R, hknown⟩ := ih hnd (fun d hd ↦ hcs d (List.mem_cons_of_mem _ hd))
        (fun d hd ↦ hmap d (List.mem_cons_of_mem _ hd)) hr₂ M.proper (hrest.mono hle) M.outgoing hcases
      have hstay (d : BlockId) (hd : d ∈ c :: cs) :
          m₂.analysis.statement d = m.analysis.statement d := by
        rw [M.effect.statement fun hx ↦ ?_, hst₁]
        rcases List.mem_cons.mp hd with rfl | hd'
        · exact hw.tree.not_below_child (hb.child hc) hbody hx
        · exact hapart (hin hx) ⟨d, hd', .root⟩
      have e₂ : Effect a (Among a (c :: cs)) m₁ m₂ := M.effect.mono fun _ hx ↦ .head (hin hx)
      have e₃ : Effect a (Among a (c :: cs)) m₂ m' := R.effect.mono fun _ hx ↦ hx.cons
      have e₁' : Effect a (Among a (c :: cs)) m m₁ := e₁.mono fun _ h ↦ h.elim
      refine ⟨⟨e₁'.trans (e₂.trans e₃), R.proper, R.outgoing, fun d hd ↦ ?_,
        fun {a' B C O} hset hA hO ↦ ?_⟩, ?_⟩
      · rw [← hstay d hd]
        rcases List.mem_cons.mp hd with rfl | hd'
        · exact R.effect.statement (hapart .root)
        · exact R.statement d hd'
      · have hsetbody : Settled a' (a.blocks.Below body) m₂ :=
          hset.back R.effect fun _ hx ↦ ⟨.head (hin hx), hapart (hin hx)⟩
        have T := M.typed hsetbody (hA.within e₁' e₃ fun _ hx ↦ .head (hin hx))
        obtain ⟨hfirst, hrest'⟩ := R.typed (hset.mono fun _ hx ↦ hx.cons)
          (hA.within (e₁'.trans e₂) (.refl ..) fun _ hx ↦ hx.cons) hO
        have hst' : a'.statement c = a.statement c := by
          rw [hset.statement (.head .root), R.effect.statement (hapart .root),
            hstay c List.mem_cons_self, hstc]
        have Tc : Typed a a' a'.cellOf B C (.cases (c :: cs)) (rest.shape a') O :=
          .oneCase hst' hst T hfirst
        refine ⟨fun S hS ↦ ?_, fun i hi ↦ ?_⟩
        · have := (hcovers a' (M.effect.later.trans (R.effect.later.trans hset.later))).2 S hS
          cases this
          exact Tc
        · cases i with
          | zero => exact Tc
          | succ i => exact hrest' i (by simpa using hi)
      · rw [hknown, List.any_cons, Bool.or_assoc, hst]
        cases value <;> rfl
    · next hstray =>
      obtain ⟨R, hknown⟩ := ih hnd (fun d hd ↦ hcs d (List.mem_cons_of_mem _ hd))
        (fun d hd ↦ hmap d (List.mem_cons_of_mem _ hd)) (hr.mono fun _ hx ↦ hx.cons) hm hrest hprev h
      rw [hstc] at hstray
      refine ⟨⟨R.effect.mono fun _ hx ↦ hx.cons, R.proper, R.outgoing, fun d hd ↦ ?_,
        fun {a' B C O} hset hA hO ↦ ⟨fun _ _ ↦ .strayCase hstray, fun i hi ↦ ?_⟩⟩, ?_⟩
      · rcases List.mem_cons.mp hd with rfl | hd'
        · exact R.effect.statement (hapart .root)
        · exact R.statement d hd'
      · cases i with
        | zero => exact .strayCase hstray
        | succ i =>
          exact (R.typed (hset.mono fun _ hx ↦ hx.cons)
            (hA.within (.refl a ..) (.refl a ..) fun _ hx ↦ hx.cons) hO).2 i (by simpa using hi)
      · rw [hknown, List.any_cons]
        have : (a.statement c).isDefaultCase = false := by
          unfold Statement.isDefaultCase
          split
          · next hc => exact absurd hc (hstray _ _ _)
          · rfl
        rw [this, Bool.false_or]

section Blocks

variable {out : Outgoing} (hw : a.WellFormedTree r) (hb : a.blocks.Below r b)
  (hr : Ready a (a.blocks.Below b) m) (hm : m.Proper) (hs : s.Proper m.analysis.locals)
include hw hb hr hm hs

omit hm hs in
theorem Ready.cases {selector : ExprId} {cases : List BlockId} {labeled : Bool}
    (hst : a.statement b = .switch selector cases labeled) :
    selector ∈ (a.statement b).exprs ∧ (a.statement b).children = cases ∧ ¬ Among a cases b ∧
      (∀ x, Among a cases x → a.blocks.Below b x) ∧
      ∀ {m₁}, Effect a (· = b) m m₁ → Ready a (Among a cases) m₁ := by
  have hcs : (a.statement b).children = cases := by simp [hst, Statement.children]
  have hself : ¬ Among a cases b := by
    rintro ⟨c, hc, hx⟩
    exact hw.tree.not_below_child hb (hcs ▸ hc) hx
  have hin (x : BlockId) (hx : Among a cases x) : a.blocks.Below b x := by
    obtain ⟨c, hc, hx⟩ := hx
    exact (Blocks.Below.child .root (hcs ▸ hc)).trans hx
  exact ⟨by simp [hst, Statement.exprs], hcs, hself, hin, fun he ↦ (hr.mono hin).step hw he
    (fun _ hx ↦ hb.trans (hin _ hx)) (fun _ hx ↦ by rw [hx]; exact hb)
    fun _ hx ↦ by rw [hx]; exact hself⟩

theorem maps_switch {selector : ExprId} {cases : List BlockId} {labeled : Bool}
    {previous joined : Outgoing} {known : Bool}
    (hmap : ∀ c ∈ (a.statement b).children, ∀ value body fall,
      a.statement c = .switchCase value body fall → Correct a map body)
    (hst : a.statement b = .switch selector cases labeled)
    (h : m.consume selector s = .ok (m₁, rest))
    (h₁ : mapCases map rest cases none false m₁ = .ok (m₂, previous, known))
    (h₂ : m₂.join previous (if known then none else some rest) = .ok (m₃, joined))
    (h₃ : m₃.joinBreaks b joined = .ok (m', out)) : Maps a b s m m' out := by
  obtain ⟨hsel, hcs, hself, hin, hready⟩ := hr.cases hw hb hst
  have hchild (c : BlockId) (hc : c ∈ cases) : c ∈ (a.statement b).children := by rwa [hcs]
  obtain ⟨e₀, hm₁, hrest, hst₁, -, htakes⟩ := consume_spec hw hb hsel hr hm hs h
  obtain ⟨R, rfl⟩ := mapCases_spec hw hb cases (hcs ▸ hw.nodup_children hb) hchild
    (fun c hc ↦ hmap c (hchild c hc)) (hready e₀) hm₁ hrest (by simp) h₁
  have hrest₂ : rest.Proper m₂.analysis.locals := hrest.mono R.effect.later.locals.size_le
  obtain ⟨e₂, hm₃, hjoined, hst₃, hbreaks, hcovers⟩ := join_spec (a := a) (P := fun _ ↦ False)
    R.proper R.outgoing (fun t ht ↦ by split_ifs at ht; exact Option.some.inj ht ▸ hrest₂) h₂
  obtain ⟨e₃, hm', hout, hst', hcovers'⟩ := joinBreaks_spec (a := a) hm₃ hjoined h₃
  have e₀' : Effect a (a.blocks.Below b) m m₁ := e₀.mono fun _ hx ↦ hx ▸ .root
  have e₁' : Effect a (a.blocks.Below b) m₁ m₂ := R.effect.mono hin
  have e₂' : Effect a (a.blocks.Below b) m₂ m' :=
    (e₂.mono fun _ h ↦ h.elim).trans (e₃.mono fun _ hx ↦ hx ▸ .root)
  refine ⟨e₀'.trans (e₁'.trans e₂'), hm', hout, fun {a' B C} hset hA ↦ ?_⟩
  have hst'' : a'.statement b = a.statement b := by
    rw [hset.statement .root, hst', hst₃, R.effect.statement hself, hst₁, hr.statement .root]
  have hcases (c : BlockId) (hc : c ∈ cases) : a'.statement c = a.statement c := by
    rw [hset.statement (hin _ ⟨c, hc, .root⟩), hst', hst₃, R.statement c hc, hst₁,
      hr.statement (hin _ ⟨c, hc, .root⟩)]
  obtain ⟨hO, hbroken⟩ := hcovers' a' hset.later
  obtain ⟨hprev, hnone⟩ := hcovers a' (e₃.later.trans hset.later)
  have hA' : Around a' (Among a cases)
      (Function.update B b (some ((m₃.breaks.lookup b).map (·.shape a')))) C m₁ m₂ := by
    have hsub := hA.within e₀' e₂' hin
    refine ⟨fun {t o} ht ↦ ?_, hsub.continues⟩
    by_cases htb : t = b
    · subst htb
      rw [Function.update_self] at ht
      cases ht
      exact ⟨hself, fun {u} hu ↦ by rw [hbreaks, hu]; rfl⟩
    · rw [Function.update_of_ne htb] at ht
      exact hsub.breaks ht
  have hset₂ : Settled a' (Among a cases) m₂ := by
    refine ⟨e₂'.later.trans hset.later, fun hx ↦ ?_⟩
    rw [hset.statement (hin _ hx), hst', hst₃]
  obtain ⟨-, hT⟩ := R.typed hset₂ hA' hprev
  refine .switch hst'' hst hcases (htakes a' (R.effect.later.trans (e₂'.later.trans hset.later)))
    (fun i hi ↦ ?_) hO hbroken
  rcases hi with hi | ⟨rfl, hdefault⟩
  · exact hT i hi
  · have : (false || cases.any fun c ↦ (a.statement c).isDefaultCase) = false := by
      simpa using hdefault
    rw [this] at hnone
    rw [List.drop_length, hnone _ rfl]
    exact .noCase

end Blocks

/-- The mapping is right for a block and all that is inside it, if it may nest that deep. -/
theorem mapWithin_correct (hw : a.WellFormedTree r) (hsteady : a.Steady r) (n : Nat) :
    ∀ {b : BlockId} {d : Nat}, a.blocks.Below r b → EndsIn a.blocks.outer d b →
      a.blocks.size ≤ n + d → Correct a (mapWithin n) b := by
  induction n with
  | zero =>
    intro b d hb hd hsize
    have := hw.tree.depth_lt hb hd
    omega
  | succ n ih =>
    intro b d hb hd hsize s m m' out hr hm hs h
    have hmap (c : BlockId) (hc : c ∈ (a.statement b).children) : Correct a (mapWithin n) c :=
      ih (hb.child hc) (.step (hw.tree.outer_child hb hc) hd) (by omega)
    replace h := step_of_mapWithin h
    rw [hr.statement .root] at h
    generalize hst : a.statement b = st at h
    cases h with
    | idle h => exact maps_idle hr hm hs (hst ▸ h)
    | evaluate hc => exact maps_evaluate hw hb hr hm hs hst hc
    | push hwidth hc => exact maps_push hw hb hr hm hs hst hwidth hc
    | leave hleave hc => exact maps_leave hw hb hr hm hs (hst ▸ hleave) hc
    | shuffle hop => exact maps_shuffle hr hm hs hw hb hst hop
    | sequence h₁ h₂ => exact maps_sequence hw hb hr hm hs hmap hst h₁ h₂
    | conditional hc h₁ h₂ =>
      exact maps_branch hw hb hr hm hs hmap (by rw [hst]; rfl) hc h₁ (.inl ⟨rfl, rfl, rfl⟩) (.inr h₂)
    | ifElse hc h₁ h₂ h₃ =>
      exact maps_branch hw hb hr hm hs hmap (by rw [hst]; rfl) hc h₁ h₂ (.inl h₃)
    | loop hinit htest h₁ h₂ h₂' h₃ h₃' h₄ =>
      cases (consume_test hw hb hr hm hs hsteady hst hinit).symm.trans htest
      exact maps_loop hw hb hr hm hs hmap hsteady hst hinit h₁ h₂ h₂' h₃ h₃' h₄
    | switch hsel h₁ h₂ h₃ =>
      refine maps_switch hw hb hr hm hs (fun c hc value body fall hcase ↦ ?_) hst hsel h₁ h₂ h₃
      have hbody : body ∈ (a.statement c).children := by simp [hcase, Statement.children]
      exact @ih _ _ ((hb.child hc).child hbody) (.step (hw.tree.outer_child (hb.child hc) hbody)
        (.step (hw.tree.outer_child hb hc) hd)) (by omega)
    | within hbody hc h₁ => exact maps_within hw hb hr hm hs hmap (hst ▸ hbody) hc h₁
    | breakTo h => exact maps_breakTo hr hm hs hst h
    | continueTo h => exact maps_continueTo hb hr hm hs hsteady hst h
    | tryCatch | jsr | ret => simpa [hst, Statement.isPlain] using hw.plain hb

end Mapping

theorem mapStack_typed {a a' : Analysis} (hl : a.locals.WellFormed)
    (hw : a.WellFormedTree (a.root a.entry)) (hsteady : a.Steady (a.root a.entry))
    (h : a.mapStack = .ok a') :
    ∃ O, Typed a a' a'.cellOf (fun _ ↦ none) (fun _ ↦ none) (.block (a.root a.entry)) [] O := by
  obtain ⟨⟨m, out⟩, hmap, h⟩ := ok_of_bind h
  obtain rfl : m.analysis = a' := Except.ok.inj h
  have M := Mapping.mapWithin_correct hw hsteady a.blocks.size .root (.stop hw.tree.outer_root)
    le_rfl ⟨le_rfl, rfl, fun _ ↦ rfl, fun _ _ _ ↦ rfl⟩ ⟨hl, by simp, by simp⟩
    (by simp [OperandStack.Proper]) hmap
  exact ⟨_, M.typed ⟨.refl _, fun _ ↦ rfl⟩ ⟨by simp, by simp⟩⟩

/-- A tree that passes its values in cells takes the steps of the operand-stack machine, and each
operand reads the value popped for it as long as its cell has not been written since the push. If
the pushed values all differ, it reads another value as soon as the cell has been. -/
theorem mapStack_reads_popped {V : Type} {a a' : Analysis} {evs : List (Event (Item V) V)}
    {s : List (Item V)} {x : Exit} (hl : a.locals.WellFormed)
    (hw : a.WellFormedTree (a.root a.entry)) (hsteady : a.Steady (a.root a.entry))
    (h : a.mapStack = .ok a')
    (hrun : a.program.Exec (stackMachine V a a'.cellOf) (.block (a.root a.entry)) [] evs s x)
    (σ : LocalId → V) :
    ∃ evs' σ', a'.program.Exec (cellMachine V a a') (.block (a.root a.entry)) σ evs' σ' x ∧
      List.Forall₂ (SameStep (pushes evs).Nodup) evs evs' := by
  obtain ⟨O, ht⟩ := mapStack_typed hl hw hsteady h
  obtain ⟨evs', σ', hrun', hsame, -, -⟩ := ht.mirrors (D := (pushes evs).Nodup) (H := []) (σ := σ)
    hrun (by simp) (by simp [Holds])
  exact ⟨evs', σ', hrun', hsame⟩

/-- A value comes from one of two ways and is returned. -/
def oneOfTwo : Analysis where
  exprs := ⟨⟨#[.const (.int 0), .newObject default, .newObject default, .free 1]⟩⟩
  blocks := ⟨⟨#[{ statement := .sequence ⟨1⟩ ⟨4⟩ },
    { statement := .ifElse ⟨0⟩ ⟨2⟩ (some ⟨3⟩), outer := some ⟨0⟩ },
    { statement := .evaluate ⟨1⟩ 1, outer := some ⟨1⟩ },
    { statement := .evaluate ⟨2⟩ 1, outer := some ⟨1⟩ },
    { statement := .returns (some ⟨3⟩), outer := some ⟨0⟩ }]⟩⟩
  graph := ⟨⟨#[{ addr := 0, length := 1, root := ⟨0⟩, growth := ⟨0⟩ }]⟩, {}⟩
  checked := false
  fuel := 0
  entry := ⟨0⟩

theorem oneOfTwo_wellFormed : oneOfTwo.WellFormedTree (oneOfTwo.root oneOfTwo.entry) :=
  .of_list [⟨0⟩, ⟨1⟩, ⟨2⟩, ⟨3⟩, ⟨4⟩] (by decide) (by decide) (by decide +kernel) (by decide +kernel)
    (by decide +kernel)

theorem oneOfTwo_steady : oneOfTwo.Steady (oneOfTwo.root oneOfTwo.entry) :=
  Analysis.Steady.of_list [⟨0⟩, ⟨1⟩, ⟨2⟩, ⟨3⟩, ⟨4⟩] (by decide) (by decide +kernel)

theorem oneOfTwo_run (cell : BlockId → LocalId) :
    oneOfTwo.program.Exec (stackMachine Nat oneOfTwo cell) (.block ⟨0⟩) []
      [.took ⟨0⟩ [], .tested ⟨0⟩ true, .took ⟨1⟩ [], .pushed ⟨2⟩ 7,
        .took ⟨3⟩ [⟨7, 1, cell ⟨2⟩, true⟩]] [] .left := by
  have hcond : Popped oneOfTwo ⟨0⟩ ([] : List (Item Nat)) [] [] := ⟨rfl, by decide +kernel⟩
  have hpush : Popped oneOfTwo ⟨1⟩ ([] : List (Item Nat)) [] [] := ⟨rfl, by decide +kernel⟩
  have hreturn : Popped oneOfTwo ⟨3⟩ [⟨7, 1, cell ⟨2⟩, true⟩] [⟨7, 1, cell ⟨2⟩, true⟩] [] :=
    ⟨rfl, rfl⟩
  have harm : oneOfTwo.program.Exec (stackMachine Nat oneOfTwo cell) (.block ⟨2⟩) []
      [.took ⟨1⟩ [], .pushed ⟨2⟩ 7] [⟨7, 1, cell ⟨2⟩, true⟩] .normal :=
    .perform (StackStep.push Nat.one_ne_zero hpush)
  have hlast : oneOfTwo.program.Exec (stackMachine Nat oneOfTwo cell) (.block ⟨4⟩)
      [⟨7, 1, cell ⟨2⟩, true⟩] [.took ⟨3⟩ [⟨7, 1, cell ⟨2⟩, true⟩]] [] .left :=
    .leave (rfl : Statement.leaves? _ = some (some ⟨3⟩)) ⟨_, hreturn, rfl⟩
  exact .sequence rfl (.onTrue rfl hcond (fun v h ↦ by cases h) harm) hlast

theorem mapStack_reads_popped_oneOfTwo :
    ∃ a', oneOfTwo.mapStack = .ok a' ∧ ∃ evs' σ',
      a'.program.Exec (cellMachine Nat oneOfTwo a') (.block ⟨0⟩) (fun _ ↦ 0) evs' σ' .left ∧
        List.Forall₂ (SameStep [7].Nodup) [.took ⟨0⟩ [], .tested ⟨0⟩ true, .took ⟨1⟩ [],
          .pushed ⟨2⟩ 7, .took ⟨3⟩ [⟨7, 1, a'.cellOf ⟨2⟩, true⟩]] evs' := by
  obtain ⟨a', h⟩ : ∃ a', oneOfTwo.mapStack = .ok a' := ⟨_, rfl⟩
  exact ⟨a', h, mapStack_reads_popped Locals.wellFormed_empty oneOfTwo_wellFormed oneOfTwo_steady h
    (oneOfTwo_run _) fun _ ↦ 0⟩

/-- Two ways on which the same two slots of the stack are filled by one value and by two. -/
def dupMeetsPushes : Analysis where
  exprs := ⟨⟨#[.const (.int 0), .newObject default, .newObject default, .newObject default,
    .free 1, .free 1, .binary .sub ⟨4⟩ ⟨5⟩]⟩⟩
  blocks := ⟨⟨#[{ statement := .sequence ⟨1⟩ ⟨8⟩ },
    { statement := .ifElse ⟨0⟩ ⟨2⟩ (some ⟨5⟩), outer := some ⟨0⟩ },
    { statement := .sequence ⟨3⟩ ⟨4⟩, outer := some ⟨1⟩ },
    { statement := .evaluate ⟨1⟩ 1, outer := some ⟨2⟩ },
    { statement := .shuffle .dup, outer := some ⟨2⟩ },
    { statement := .sequence ⟨6⟩ ⟨7⟩, outer := some ⟨1⟩ },
    { statement := .evaluate ⟨2⟩ 1, outer := some ⟨5⟩ },
    { statement := .evaluate ⟨3⟩ 1, outer := some ⟨5⟩ },
    { statement := .returns (some ⟨6⟩), outer := some ⟨0⟩ }]⟩⟩
  graph := ⟨⟨#[{ addr := 0, length := 1, root := ⟨0⟩, growth := ⟨0⟩ }]⟩, {}⟩
  checked := false
  fuel := 0
  entry := ⟨0⟩

theorem dupMeetsPushes_wellFormed : dupMeetsPushes.WellFormedTree ⟨0⟩ :=
  .of_list [⟨0⟩, ⟨1⟩, ⟨2⟩, ⟨3⟩, ⟨4⟩, ⟨5⟩, ⟨6⟩, ⟨7⟩, ⟨8⟩] (by decide) (by decide) (by decide +kernel)
    (by decide +kernel) (by decide +kernel)

theorem dupMeetsPushes_steady : dupMeetsPushes.Steady ⟨0⟩ :=
  Analysis.Steady.of_list [⟨0⟩, ⟨1⟩, ⟨2⟩, ⟨3⟩, ⟨4⟩, ⟨5⟩, ⟨6⟩, ⟨7⟩, ⟨8⟩] (by decide)
    (by decide +kernel)

theorem dupMeetsPushes_run {cell : BlockId → LocalId} (hcell : cell ⟨6⟩ = cell ⟨7⟩) :
    dupMeetsPushes.program.Exec (stackMachine Nat dupMeetsPushes cell) (.block ⟨0⟩) []
      [.took ⟨0⟩ [], .tested ⟨0⟩ false, .took ⟨2⟩ [], .pushed ⟨6⟩ 1, .took ⟨3⟩ [], .pushed ⟨7⟩ 2,
        .took ⟨6⟩ [⟨1, 1, cell ⟨7⟩, false⟩, ⟨2, 1, cell ⟨7⟩, true⟩]] [] .left := by
  have hcond : Popped dupMeetsPushes ⟨0⟩ ([] : List (Item Nat)) [] [] := ⟨rfl, by decide +kernel⟩
  have hfirst : Popped dupMeetsPushes ⟨2⟩ ([] : List (Item Nat)) [] [] := ⟨rfl, by decide +kernel⟩
  have hsecond : Popped dupMeetsPushes ⟨3⟩ [⟨1, 1, cell ⟨6⟩, true⟩] [] [⟨1, 1, cell ⟨6⟩, true⟩] :=
    ⟨rfl, by decide +kernel⟩
  have hpush₁ : dupMeetsPushes.program.Exec (stackMachine Nat dupMeetsPushes cell) (.block ⟨6⟩) []
      [.took ⟨2⟩ [], .pushed ⟨6⟩ 1] [⟨1, 1, cell ⟨6⟩, true⟩] .normal :=
    .perform (StackStep.push Nat.one_ne_zero hfirst)
  have hpush₂ : dupMeetsPushes.program.Exec (stackMachine Nat dupMeetsPushes cell) (.block ⟨7⟩)
      [⟨1, 1, cell ⟨6⟩, true⟩] [.took ⟨3⟩ [], .pushed ⟨7⟩ 2]
      [⟨1, 1, cell ⟨7⟩, false⟩, ⟨2, 1, cell ⟨7⟩, true⟩] .normal := by
    have h : StackStep dupMeetsPushes cell ⟨7⟩ (.evaluate ⟨3⟩ 1) _ [.took ⟨3⟩ [], .pushed ⟨7⟩ 2] _ :=
      .push Nat.one_ne_zero hsecond
    simp only [overwrite, hcell, List.map_cons, List.map_nil, if_true] at h
    rw [hcell]
    exact .perform h
  have hreturn : Popped dupMeetsPushes ⟨6⟩ [⟨1, 1, cell ⟨7⟩, false⟩, ⟨2, 1, cell ⟨7⟩, true⟩]
      [⟨1, 1, cell ⟨7⟩, false⟩, ⟨2, 1, cell ⟨7⟩, true⟩] [] := ⟨rfl, rfl⟩
  have hlast : dupMeetsPushes.program.Exec (stackMachine Nat dupMeetsPushes cell) (.block ⟨8⟩)
      [⟨1, 1, cell ⟨7⟩, false⟩, ⟨2, 1, cell ⟨7⟩, true⟩]
      [.took ⟨6⟩ [⟨1, 1, cell ⟨7⟩, false⟩, ⟨2, 1, cell ⟨7⟩, true⟩]] [] .left :=
    .leave (rfl : Statement.leaves? _ = some (some ⟨6⟩)) ⟨_, hreturn, rfl⟩
  exact .sequence rfl
    (.onFalse rfl hcond (fun v h ↦ by cases h) (.sequence rfl hpush₁ hpush₂)) hlast

/-- On the second way the values 1 and 2 are popped for the difference, but in the mapped tree both
operands read one cell. -/
theorem dupMeetsPushes_reads_one_cell :
    ∃ a', dupMeetsPushes.mapStack = .ok a' ∧ dupMeetsPushes.WellFormedTree ⟨0⟩ ∧
      dupMeetsPushes.Steady ⟨0⟩ ∧
      dupMeetsPushes.program.Exec (stackMachine Nat dupMeetsPushes a'.cellOf) (.block ⟨0⟩) []
        [.took ⟨0⟩ [], .tested ⟨0⟩ false, .took ⟨2⟩ [], .pushed ⟨6⟩ 1, .took ⟨3⟩ [], .pushed ⟨7⟩ 2,
          .took ⟨6⟩ [⟨1, 1, a'.cellOf ⟨7⟩, false⟩, ⟨2, 1, a'.cellOf ⟨7⟩, true⟩]] [] .left ∧
      ∀ σ : LocalId → Nat, ¬ Loaded dupMeetsPushes a' ⟨6⟩ σ [1, 2] := by
  obtain ⟨a', h⟩ : ∃ a', dupMeetsPushes.mapStack = .ok a' := ⟨_, rfl⟩
  have hfacts : dupMeetsPushes.mapStack.toOption.map
      (fun a ↦ (a.cellOf ⟨6⟩ == a.cellOf ⟨7⟩, a.expr ⟨4⟩, a.expr ⟨5⟩)) =
      some (true, .var ⟨0⟩, .var ⟨0⟩) := by decide +kernel
  rw [h] at hfacts
  obtain ⟨hcell, h₄, h₅⟩ : a'.cellOf ⟨6⟩ = a'.cellOf ⟨7⟩ ∧ a'.expr ⟨4⟩ = .var ⟨0⟩ ∧
      a'.expr ⟨5⟩ = .var ⟨0⟩ := by simpa [Except.toOption] using hfacts
  refine ⟨a', h, dupMeetsPushes_wellFormed, dupMeetsPushes_steady, dupMeetsPushes_run hcell,
    fun σ hσ ↦ ?_⟩
  have hfree : dupMeetsPushes.exprs.freeOperands ⟨6⟩ = [⟨4⟩, ⟨5⟩] := by decide +kernel
  rw [Loaded, hfree] at hσ
  simp [h₄, h₅] at hσ
  omega

end Decompile
