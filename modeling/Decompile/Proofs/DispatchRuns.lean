import Decompile.Proofs.Carrying
import Decompile.Proofs.Dispatching
import Decompile.Proofs.Origins
import Decompile.Proofs.Storage

namespace Decompile

open Proc

variable {σ ε : Type}

section Marked

variable {I : Interp σ ε} {destination : JumpId → FlowId} {T : Tree}

/-- A destination for each jump that no other jump has. -/
def JumpId.mark (j : JumpId) : FlowId := ⟨j.index⟩

def FlowId.marked (d : FlowId) : JumpId := ⟨d.index⟩

@[simp] theorem JumpId.marked_mark (j : JumpId) : j.mark.marked = j := rfl

theorem marked_of_yields {d : FlowId} (h : (T.run I JumpId.mark).Yields (.jumps d)) :
    d.marked ∈ T.jumps := by
  obtain ⟨b, j, hj, rfl⟩ := held_of_yields h
  exact Tree.mem_jumps.mpr ⟨b, hj⟩

theorem run_marked (I : Interp σ ε) (destination : JumpId → FlowId) (T : Tree) :
    T.run I destination =
      T.run I JumpId.mark >>= rescue fun d ↦ pure (.jumps (destination d.marked)) := by
  induction T using Tree.induct with
  | node b e k l ih =>
    have hl : l.map (Tree.run I destination) = (l.map (Tree.run I JumpId.mark)).map
        (· >>= rescue fun d ↦ pure (.jumps (destination d.marked))) := by
      rw [List.map_map]
      exact List.map_congr_left fun c hc ↦ ih c hc
    rw [Tree.run_node, Tree.run_node, hl, act_rescue fun d x hx ↦ by
      rw [yields_pure hx]
      simp [Outcome.Clears]]
    rw [map_eq_pure_bind, map_eq_pure_bind, bind_assoc, bind_assoc]
    congr 1
    funext x
    rw [pure_bind]
    cases x with
    | completes =>
      rw [rescue_of_ne (by simp), pure_bind]
      cases e with
      | none => rw [Option.map_none, rescue_of_ne (by simp), Option.map_none,
          Outcome.via_none]
      | some j => rfl
    | jumps d =>
      rw [Outcome.via_of_ne (by simp), rescue_jumps, pure_bind, Outcome.via_of_ne (by simp)]
    | breaks | continues | leaves =>
      rw [rescue_of_ne (by simp), pure_bind, Outcome.via_of_ne (by simp),
        Outcome.via_of_ne (by simp), rescue_of_ne (by simp)]

end Marked

namespace Hub

variable {J : Interp (σ × Int) ε} {h : Hub} {t : Expressions} {destination : JumpId → FlowId}
  {T T' T₁ : Tree}

/-- What the dispatcher does of a jump. -/
def divert (h : Hub) (d : FlowId) : Proc (σ × Int) ε Outcome :=
  match h.regions.idxOf? d with
  | some i => store (i : Int) >>= fun _ ↦ pure (.continues h.looped)
  | none => pure .leaves

theorem yields_divert {d : FlowId} {x : Outcome}
    (hx : (h.divert d : Proc (σ × Int) ε Outcome).Yields x) :
    x = .continues h.looped ∨ x = .leaves := by
  rw [divert] at hx
  split at hx
  · obtain ⟨_, -, hx⟩ := hx.of_bind
    exact .inl (yields_pure hx)
  · exact .inr (yields_pure hx)

theorem divert_rescue (N : FlowId → Proc (σ × Int) ε Outcome) (d : FlowId) :
    h.divert d >>= rescue N = h.divert d := by
  refine bind_rescue fun d hd ↦ ?_
  rcases yields_divert hd with hx | hx <;> cases hx

/-- How the blocks of the dispatcher act on the selector. -/
structure Serves (h : Hub) (t : Expressions) (J : Interp (σ × Int) ε) : Prop where
  assign : ∀ b e n, h.base ≤ b.index → t.assigned? h.selector e = some n →
    J.leaf b (.evaluate e 0) = store n
  leave : ∀ b, h.base ≤ b.index → J.leaf b (.returns none) = pure ()
  select : J.select h.selected = load
  loop : J.loop h.cond = pure true

theorem Serves.run_dispatch (hJ : h.Serves t J) {j : JumpId} {N : Tree}
    (hN : Tree.Dispatch h t destination j N) (destination' : JumpId → FlowId) :
    N.run J destination' = h.divert (destination j) := by
  cases hN with
  | select hi he hs =>
    rw [divert, hi, run_sequence, Tree.run_node, Tree.run_node]
    simp [act, andThen, hJ.assign _ _ _ hs he]
  | leave hi hn =>
    rw [divert, hi, Tree.run_node]
    simp [act, hJ.leave _ hn]

/-- The jumps that the tree still holds are taken, the others diverted. -/
def redirect (h : Hub) (destination : JumpId → FlowId) (T : Tree) (d : FlowId) :
    Proc (σ × Int) ε Outcome :=
  if d.marked ∈ T.jumps then pure (.jumps d) else h.divert (destination d.marked)

theorem run_redirect : T.run J JumpId.mark >>= rescue (h.redirect destination T) =
    T.run J JumpId.mark :=
  bind_rescue fun d hd ↦ by rw [redirect, if_pos (marked_of_yields hd)]

theorem redirect_comp (hsub : ∀ j ∈ T'.jumps, j ∈ T₁.jumps) (x : Outcome) :
    rescue (h.redirect destination T₁ : FlowId → Proc (σ × Int) ε Outcome) x >>=
      rescue (h.redirect destination T') = rescue (h.redirect destination T') x := by
  cases x with
  | jumps d =>
    rw [rescue_jumps, rescue_jumps, redirect]
    split
    · rw [pure_bind, rescue_jumps]
    next hd =>
      rw [divert_rescue, redirect, if_neg fun hd' ↦ hd (hsub _ hd')]
  | completes | breaks | continues | leaves =>
    rw [rescue_of_ne (by simp), pure_bind]

theorem run_redirect_trans (hsub : ∀ j ∈ T'.jumps, j ∈ T₁.jumps)
    (h₁ : T₁.run J JumpId.mark = T.run J JumpId.mark >>= rescue (h.redirect destination T₁))
    (h₂ : T'.run J JumpId.mark = T₁.run J JumpId.mark >>= rescue (h.redirect destination T')) :
    T'.run J JumpId.mark = T.run J JumpId.mark >>= rescue (h.redirect destination T') := by
  rw [h₂, h₁, bind_assoc]
  congr 1
  funext x
  exact redirect_comp hsub x

section Place

variable {C : List Frame} {B N P : Tree} {j : JumpId}

theorem Serves.run_inPlaceOf (hJ : h.Serves t J) (hB : B.jump = some j)
    (halone : j ∉ (B.withJump none).jumps) (hN : Tree.Dispatch h t destination j N)
    (hP : Tree.InPlaceOf N B P) :
    P.run J JumpId.mark = B.run J JumpId.mark >>= handle j.mark (h.divert (destination j)) := by
  rw [run_jump B, hB, Option.map_some]
  cases hP with
  | instead hk hc =>
    have hrun : (B.withJump none).run J JumpId.mark = skip := by
      rw [Tree.withJump_eq, hk, run_empty]
      rfl
    rw [hJ.run_dispatch hN, hrun, skip, map_pure, pure_bind]
    exact handle_jump.symm
  | after q =>
    rw [run_sequence, hJ.run_dispatch hN, map_eq_pure_bind, bind_assoc]
    refine bind_eq_bind fun x hx ↦ ?_
    rw [pure_bind]
    split
    next hx => rw [hx, Outcome.via_completes, Option.elim_some, handle_jump]
    next hne =>
      rw [Outcome.via_of_ne hne, handle_of_ne]
      rintro rfl
      exact halone (marked_of_yields hx)

theorem mem_jumps_of_ne (hB : B.jump = some j) {i : JumpId} (hi : i ∈ (plug C B).jumps)
    (hij : i ≠ j) : i ∈ (plug C (B.withJump none)).jumps := by
  obtain ⟨b, hb⟩ := Tree.mem_jumps.mp hi
  refine Tree.mem_jumps.mpr ⟨b, ?_⟩
  rw [mem_held_plug] at hb ⊢
  refine hb.imp_left fun hb ↦ ?_
  rw [Tree.held_eq, hB] at hb
  rw [Tree.held_withJump]
  simpa [hij] using hb

theorem jumps_subset {i : JumpId} (hi : i ∈ (plug C (B.withJump none)).jumps) :
    i ∈ (plug C B).jumps := by
  obtain ⟨b, hb⟩ := Tree.mem_jumps.mp hi
  refine Tree.mem_jumps.mpr ⟨b, ?_⟩
  rw [mem_held_plug] at hb ⊢
  refine hb.imp_left fun hb ↦ ?_
  rw [Tree.held_withJump] at hb
  rw [Tree.held_eq, List.mem_append]
  exact .inr (by simpa using hb)

end Place

/-- All that is left of the redirected jumps is what the dispatcher does of them. -/
theorem Serves.run_redirected (hJ : h.Serves t J) (hr : Tree.Redirected h t destination T T') :
    T'.run J JumpId.mark = T.run J JumpId.mark >>= rescue (h.redirect destination T') := by
  induction hr with
  | refl => exact run_redirect.symm
  | @place C B N P j hr hB halone hv hw hN hP ih =>
    have hjumps : ∀ i, i ∈ (plug C P).jumps ↔ i ∈ (plug C (B.withJump none)).jumps := fun i ↦ by
      simp only [Tree.mem_jumps, mem_held_plug, hP.mem_held hN.held]
    have hrun : (plug C P).run J JumpId.mark =
        (plug C B).run J JumpId.mark >>= handle j.mark (h.divert (destination j)) := by
      refine run_plug_of_held (fun F hF x hx ↦ ?_) (fun b i hi ↦ ?_) hv
        (hJ.run_inPlaceOf hB (fun hj ↦ halone ?_) hN hP)
      · have hne : F.id ≠ h.looped := fun he ↦ hw (he ▸ List.mem_map_of_mem hF)
        rcases yields_divert hx with rfl | rfl
        · simp [Outcome.Clears, hne.symm]
        · simp [Outcome.Clears]
      · rintro he
        have hij : i = j := congrArg FlowId.marked he
        subst hij
        exact halone (Tree.mem_jumps.mpr ⟨b, mem_held_plug.mpr (.inr hi)⟩)
      · obtain ⟨b, hb⟩ := Tree.mem_jumps.mp hj
        exact Tree.mem_jumps.mpr ⟨b, mem_held_plug.mpr (.inl hb)⟩
    refine run_redirect_trans (fun i hi ↦ jumps_subset ((hjumps i).mp hi)) ih ?_
    rw [hrun]
    refine bind_eq_bind fun x hx ↦ ?_
    by_cases hj : x = .jumps j.mark
    · rw [hj, handle_jump, rescue_jumps, redirect, JumpId.marked_mark, if_neg]
      rwa [hjumps]
    · rw [handle_of_ne hj]
      cases x with
      | jumps d =>
        have hne : d.marked ≠ j := by
          rintro rfl
          exact hj rfl
        rw [rescue_jumps, redirect,
          if_pos ((hjumps _).mpr (mem_jumps_of_ne hB (marked_of_yields hx) hne))]
      | completes | breaks | continues | leaves => rw [rescue_of_ne (by simp)]
  | @drop C B j value hr hB halone hk ih =>
    have hrun : (plug C (B.withJump none)).run J JumpId.mark = (plug C B).run J JumpId.mark := by
      refine run_plug_congr (fun F _ _ ↦ ?_) ?_
      · obtain ⟨_, _, k, _⟩ := B
        cases k <;> rfl
      rw [run_jump B, Tree.withJump_eq, hk, Tree.run_node]
      simp [act, Outcome.via]
    refine run_redirect_trans (fun i hi ↦ jumps_subset hi) ih ?_
    rw [← hrun, run_redirect]

theorem Serves.run_region (hJ : h.Serves t J) (hr : Tree.Redirected h t destination T T')
    (hheld : T'.held = []) (destination' : JumpId → FlowId) :
    T'.run J destination' = T.run J destination >>= rescue h.divert := by
  have hjumps : ∀ j, j ∉ T'.jumps := fun j hj ↦ by
    obtain ⟨b, hb⟩ := Tree.mem_jumps.mp hj
    simp [hheld] at hb
  rw [run_marked J destination', run_marked J destination, bind_assoc,
    bind_rescue fun d hd ↦ absurd (marked_of_yields hd) (hjumps _), hJ.run_redirected hr]
  congr 1
  funext x
  cases x with
  | jumps d => rw [rescue_jumps, rescue_jumps, redirect, if_neg (hjumps _), pure_bind, rescue_jumps]
  | completes | breaks | continues | leaves =>
    rw [rescue_of_ne (by simp), rescue_of_ne (by simp), pure_bind, rescue_of_ne (by simp)]

section Loop

/-- The numbers of the cases. -/
def values (n k : Nat) : List (Option CaseValue) :=
  (List.range' n k).map fun i : Nat ↦ some (.value (i : Int))

theorem map_caseValue_caseNodes {S : FlowId → Tree} (n : Nat) (l : List (BlockId × FlowId)) :
    (caseNodes S n l).map Tree.caseValue = values n l.length := by
  induction l generalizing n with
  | nil => rfl
  | cons x l ih =>
    rw [caseNodes, List.map_cons, ih]
    rfl

theorem map_run_caseNodes {S : FlowId → Tree} (n : Nat) (l : List (BlockId × FlowId)) :
    (caseNodes S n l).map (Tree.run J destination) =
      (l.map (·.2)).map fun f ↦ (S f).run J destination := by
  induction l generalizing n with
  | nil => rfl
  | cons x l ih =>
    rw [caseNodes, List.map_cons, ih, run_case]
    rfl

theorem entryCase_values {i k : Nat} (hi : i < k) : entryCase i (values 0 k) = i := by
  have hn : (values 0 k).Nodup := by
    refine List.Nodup.map (fun i j h ↦ ?_) List.nodup_range'
    simpa using h
  have hlen : i < (values 0 k).length := by simpa [values] using hi
  have hget : (values 0 k)[i] = some (.value i) := by simp [values]
  rw [entryCase, ← hget, if_pos (List.getElem_mem hlen), hn.idxOf_getElem]

/-- One round of the loop. -/
def round (h : Hub) (P : FlowId → Proc (σ × Int) ε Outcome) (n : Int) :
    Proc (σ × Int) ε (Unit ⊕ Outcome) :=
  (Outcome.caught h.switch <$>
    inOrder ((h.regions.map P).drop (entryCase n (values 0 h.regions.length)))) >>=
      next h.looped (pure (.inl ()))

theorem Serves.run_tree (hJ : h.Serves t J) (hr : h.Reads t) (hinit : h.base ≤ h.init.index)
    (labeled : Bool) (S : FlowId → Tree) :
    (h.tree labeled S).run J destination = store 0 >>= fun _ ↦
      iterate (fun _ : Unit ↦ load >>= h.round fun f ↦ (S f).run J destination) () := by
  have hlen : h.cases.length = h.regions.length := by simp [regions]
  have hfirst : (Tree.node h.init none (.evaluate h.start 0) []).run J destination =
      store 0 >>= fun _ ↦ pure .completes := by
    rw [Tree.run_node]
    simp [act, hJ.assign _ _ _ hinit hr.start]
  have hswitch : (Tree.node h.switch none (.switch h.selected false)
      (caseNodes S 0 h.cases)).run J destination = load >>= fun n ↦ Outcome.caught h.switch <$>
        inOrder ((h.regions.map fun f ↦ (S f).run J destination).drop
          (entryCase n (values 0 h.regions.length))) := by
    rw [Tree.run_node, map_caseValue_caseNodes, map_run_caseNodes, hlen, Option.map_none,
      via_none_map, act, hJ.select]
    rfl
  have hloop : (Tree.node h.looped none (.loop .whileLoop h.cond none labeled)
      [.node h.switch none (.switch h.selected false) (caseNodes S 0 h.cases)]).run J destination =
      iterate (fun _ : Unit ↦ load >>= h.round fun f ↦ (S f).run J destination) () := by
    rw [Tree.run_node, Option.map_none, via_none_map, act, List.map_singleton, hswitch,
      Option.elim_none, pure_bind, looping]
    congr 1
    funext _
    rw [whileStep, hJ.loop, pure_bind, List.getD_cons_zero]
    have hgo : skip >>= next h.looped (pure (.inl ())) =
        (pure (.inl ()) : Proc (σ × Int) ε (Unit ⊕ Outcome)) := by
      simp [skip, next, Outcome.GoesOn]
    rw [List.getD_cons_succ, List.getD_nil, hgo, bind_assoc]
    rfl
  rw [tree, run_sequence, hfirst, hloop, andThen]
  simp

theorem round_eq {P : FlowId → Proc (σ × Int) ε Outcome} {f : FlowId} {i : Nat}
    (hi : h.regions[i]? = some f) (hP : ∀ x, (P f).Yields x → x = .continues h.looped ∨ x = .leaves)
    : h.round P i = P f >>= next h.looped (pure (.inl ())) := by
  obtain ⟨hlt, hget⟩ := List.getElem?_eq_some_iff.mp hi
  have hdrop : (h.regions.map P).drop i = P f :: (h.regions.map P).drop (i + 1) := by
    rw [List.drop_eq_getElem_cons (by simpa using hlt)]
    simp [hget]
  have hthen : ∀ Q, (P f).andThen Q = P f := fun Q ↦ by
    conv_rhs => rw [← bind_pure (P f)]
    refine bind_eq_bind fun x hx ↦ ?_
    rcases hP x hx with rfl | rfl <;> simp
  have hcaught : Outcome.caught h.switch <$> P f = P f := by
    rw [map_eq_pure_bind]
    conv_rhs => rw [← bind_pure (P f)]
    refine bind_eq_bind fun x hx ↦ ?_
    rcases hP x hx with rfl | rfl <;> simp [Outcome.caught]
  rw [round, entryCase_values hlt, hdrop, inOrder_cons, hthen, hcaught]

end Loop

end Hub

/-- The end of the method is left like a return. -/
def Outcome.exit (x : Outcome) : Outcome := if x = .jumps .endOfMethod then .leaves else x

/-- The blocks that a dispatcher adds act on the selector, which is kept beside the state. The
others act as before. -/
def Interp.dispatching (I : Interp σ ε) (a d : Analysis) (selector : LocalId) :
    Interp (σ × Int) ε where
  leaf b k :=
    if b.index < a.blocks.size then (I.leaf b k).widen
    else
      match k with
      | .evaluate e _ => (d.exprs.assigned? selector e).elim (I.leaf b k).widen store
      | .returns none => pure ()
      | k => (I.leaf b k).widen
  start e := (I.start e).widen
  branch e := (I.branch e).widen
  loop e := (I.loop e).widen
  select e :=
    if a.exprs.size ≤ e.index ∧ d.exprs.get e = .var selector then load else (I.select e).widen

namespace Analysis

variable {I : Interp σ ε} {a d : Analysis} {h : Hub} {T : FlowId → Tree} {f : FlowId}
  {destination : JumpId → FlowId}

theorem Degraded.serves (hd : Degraded h T a d) (hI : I.Fits d.exprs) :
    h.Serves d.exprs (I.dispatching a d h.selector) where
  assign b e n hb he := (if_neg (Nat.not_lt.mpr (hd.base ▸ hb))).trans (by simp [he])
  leave b hb := if_neg (Nat.not_lt.mpr (hd.base ▸ hb))
  select := if_pos ⟨hd.selected, hd.reads.selected⟩
  loop := by
    change (I.loop h.cond).widen = _
    rw [hI.literal _ _ hd.reads.cond, widen_pure]

theorem Switches.carries (hw : a.Switches) (hs : a.Sound) (hf : a.Live f) (x : LocalId) :
    I.Carries (I.dispatching a d x) (a.tree f) where
  leaf s hs' := by
    have hlt := (hs.wellFormed.planted.holds f hf).lt_of_mem_ids (Tree.mem_ids.mpr ⟨s, hs', rfl⟩)
    exact if_pos hlt
  start _ := rfl
  branch _ := rfl
  loop _ := rfl
  select s hs' e labeled hk := by
    obtain ⟨o, ho⟩ := (hs.wellFormed.planted.holds f hf).of_mem hs'
    have horigin : (a.statement s.id).origin = some (some e) := by
      have hkind : (a.statement s.id).kind = .switch e labeled := ho.kind.trans hk
      cases hst : a.statement s.id <;> simp_all [Statement.kind, Statement.origin]
    exact if_neg fun hle ↦ absurd (hw _ _ horigin e rfl) (Nat.not_lt.mpr hle.1)

/-- The number of a region in the dispatcher. -/
def place (a : Analysis) (f : FlowId) : Int := (a.regions.idxOf f : Int)

theorem yields_region (hs : a.Sound) (hI : I.Fits a.exprs) (hf : a.Live f) {x : Outcome}
    (hx : ((a.tree f).run I fun j ↦ (a.jump j).destination).Yields x) :
    x = .leaves ∨ x = .jumps .endOfMethod ∨ ∃ d, x = .jumps d ∧ a.Live d := by
  have hout := hs.isOut hf hI hx
  cases x with
  | leaves => exact .inl rfl
  | jumps d =>
    have hkey : d ∈ a.graph.keys f :=
      (hs.wellFormed.linked.pred_iff f d (hs.wellFormed.proper f hf)).mp
        (hs.wellFormed.pred_of_yields hf hx)
    rcases hs.leads f d hkey with hd | rfl
    · exact .inr (.inr ⟨d, rfl, hd⟩)
    · exact .inr (.inl rfl)
  | completes | breaks | continues => cases hout

/-- One round of the loop is one step through the graph. -/
theorem Degraded.round_eq (hd : Degraded h T a d) (hs : a.Sound) (hw : a.Switches)
    (hI : I.Fits d.exprs) (hf : a.Live f) :
    h.round (fun g ↦ (T g).run (I.dispatching a d h.selector) destination) (a.place f) =
      keeping a.place (a.flowStep I f >>=
        Sum.elim (pure ∘ .inl) fun x ↦ .inr <$> pure x.exit) := by
  have hmem : ∀ {g}, a.Live g → g ∈ a.regions := fun hg ↦ (mem_regions hs).mpr hg
  have hJ := hd.serves hI
  have hI' : I.Fits a.exprs := hI.of_extends hd.exprs
  have hrun : (T f).run (I.dispatching a d h.selector) destination =
      ((a.tree f).run I fun j ↦ (a.jump j).destination).widen >>= rescue h.divert := by
    rw [hJ.run_region (hd.redirected f (hmem hf)) (hd.held f (hmem hf)) destination,
      (hw.carries hs hf h.selector).run_eq]
  have hindex : h.regions[a.regions.idxOf f]? = some f := by
    rw [hd.regions, List.getElem?_eq_getElem (List.idxOf_lt_length_of_mem (hmem hf)),
      List.getElem_idxOf]
  have hdivert : ∀ {g}, a.Live g → (h.divert g : Proc (σ × Int) ε Outcome) =
      store (a.place g) >>= fun _ ↦ pure (.continues h.looped) := fun hg ↦ by
    obtain ⟨i, hi⟩ := Option.ne_none_iff_exists'.mp fun hn ↦
      List.idxOf?_eq_none_iff.mp hn (hmem hg)
    rw [Hub.divert, hd.regions, place, List.idxOf_eq_getD_idxOf?, hi, Option.getD_some]
  have hend : (h.divert .endOfMethod : Proc (σ × Int) ε Outcome) = pure .leaves := by
    rw [Hub.divert, hd.regions, List.idxOf?_eq_none_iff.mpr fun he ↦ ?_]
    cases hs.wellFormed.proper _ ((mem_regions hs).mp he)
  rw [place, Hub.round_eq hindex, hrun, bind_assoc, keeping, flowStep, bind_assoc, widen_bind,
    bind_assoc]
  · refine bind_eq_bind fun x hx ↦ ?_
    rcases yields_region hs hI' hf (yields_widen hx) with rfl | rfl | ⟨g, rfl, hg⟩
    · rw [rescue_of_ne (by simp)]
      simp [goOn, next, Outcome.GoesOn, Outcome.caught, Outcome.exit]
    · have hdead : ¬ a.Live .endOfMethod := fun hl ↦ by cases hs.wellFormed.proper _ hl
      rw [rescue_jumps, hend]
      simp [goOn, hdead, next, Outcome.GoesOn, Outcome.caught, Outcome.exit]
    · rw [rescue_jumps, hdivert hg, goOn_eq_inl.mpr ⟨rfl, hg⟩]
      simp [next, Outcome.GoesOn]
  · intro x hx
    rw [hrun] at hx
    obtain ⟨y, hy, hx⟩ := hx.of_bind
    rcases yields_region hs hI' hf (yields_widen hy) with rfl | rfl | ⟨g, rfl, hg⟩
    · exact .inr (yields_pure hx)
    · exact Hub.yields_divert hx
    · exact Hub.yields_divert hx

theorem Degraded.narrow_run (hd : Degraded h T a d) (hs : a.Sound) (hw : a.Switches)
    (hI : I.Fits d.exprs) (n : Int) :
    narrow n ((d.tree d.entry).run (I.dispatching a d h.selector) destination) =
      Outcome.exit <$> a.runFrom I a.entry := by
  obtain ⟨labeled, htree⟩ := hd.tree
  have hzero : a.place a.entry = 0 := by simp [place, Analysis.regions]
  rw [htree, (hd.serves hI).run_tree hd.reads hd.init, narrow_store, ← hzero,
    narrow_iterate (fun f _ g hg ↦ ?_) (fun f hf ↦ hd.round_eq hs hw hI hf) hs.entry,
    runFrom, map_eq_pure_bind, iterate_bind]
  obtain ⟨y, hy, hg⟩ := hg.of_bind
  cases y with
  | inl g' =>
    cases yields_pure hg
    exact (yields_flowStep hy).2
  | inr y =>
    rw [Sum.elim_inr, map_pure] at hg
    cases yields_pure hg

theorem yields_runFrom (hs : a.Sound) (hI : I.Fits a.exprs) {y : Outcome}
    (hy : (a.runFrom I a.entry).Yields y) : y = .leaves ∨ y = .jumps .endOfMethod := by
  obtain ⟨f, hf, hy⟩ := hy.of_iterate_from
    (fun f _ g hg ↦ (yields_flowStep hg).2) hs.entry
  obtain ⟨x, hx, hy⟩ := hy.of_bind
  have hgo : a.goOn x = .inr y := (yields_pure hy).symm
  rcases yields_region hs hI hf hx with rfl | rfl | ⟨g, rfl, hg⟩
  · exact .inl (Sum.inr.inj hgo).symm
  · have hdead : ¬ a.Live .endOfMethod := fun hl ↦ by cases hs.wellFormed.proper _ hl
    rw [goOn, if_neg hdead] at hgo
    exact .inr (Sum.inr.inj hgo).symm
  · rw [goOn_eq_inl.mpr ⟨rfl, hg⟩] at hgo
    cases hgo

theorem Reached.unmixed {m : MethodInfo} {code : List Instruction} {o : Options}
    (h : Reached m code o a) : a.locals.Unmixed := by
  induction h with
  | build h => exact (grows_build h).unmixed Locals.unmixed_empty
  | prune h =>
    exact ((grows_build h).trans (grows_removeUnreachable _ _)).unmixed Locals.unmixed_empty
  | step _ hs ih => exact hs.reworks.grows.unmixed ih

theorem Degraded.mem_parts (hd : Degraded h T a d) (hs : a.Sound) {x : BlockId × Kind}
    (hx : x ∈ (d.tree d.entry).parts) :
    x.2.Dispatches d.exprs h.selector ∨ ∃ f, a.Live f ∧ x ∈ (a.tree f).parts := by
  obtain ⟨labeled, htree⟩ := hd.tree
  rw [htree] at hx
  rcases hd.reads.mem_parts_tree hx with hx | ⟨f, hf, hx⟩
  · exact .inl hx
  · rw [hd.regions] at hf
    exact ((hd.redirected f hf).mem_parts hx).imp_right fun hx ↦ ⟨f, (mem_regions hs).mp hf, hx⟩

/-- The dispatcher runs like the graph that it takes the place of. Its selector is a new local,
whose value is kept beside the state, and no jump is left. -/
theorem run_degrade {m : MethodInfo} {code : List Instruction} {o : Options}
    (hr : Reached m code o a) (hI : I.Fits a.degrade.exprs) (n : Int)
    (destination : JumpId → FlowId) : let d := a.degrade
    let selector := (a.addLocal .selector none).2
    a.locals.size ≤ selector.index ∧ (∀ g, d.Live g ↔ g = d.entry) ∧
      (d.tree d.entry).held = [] ∧
      (∀ x ∈ (d.tree d.entry).parts, x.2.Dispatches d.exprs selector ∨
        ∃ f, a.Live f ∧ x ∈ (a.tree f).parts) ∧
      narrow n ((d.tree d.entry).run (I.dispatching a d selector) destination) =
        Outcome.exit <$> a.runFrom I a.entry ∧
      ∀ y, (a.runFrom I a.entry).Yields y → y = .leaves ∨ y = .jumps .endOfMethod := by
  obtain ⟨h, T, hd⟩ := exists_degraded hr.sound
  have hfresh : (a.addLocal .selector none).2 = ⟨a.locals.size⟩ :=
    hr.unmixed.index_add .selector none
  have hheld : (a.degrade.tree a.degrade.entry).held = [] := by
    obtain ⟨labeled, htree⟩ := hd.tree
    rw [htree]
    exact Hub.held_tree (hd.regions ▸ hd.held)
  refine ⟨by rw [hfresh], hd.live, hheld, fun x hx ↦ ?_, ?_,
    fun y ↦ yields_runFrom hr.sound (hI.of_extends hd.exprs)⟩
  · rw [← hd.selector]
    exact hd.mem_parts hr.sound hx
  · rw [← hd.selector]
    exact hd.narrow_run hr.sound hr.switches hI n

/-- A loop with two entries. -/
def twoEntries : List Instruction :=
  [⟨0, 1, .load .int 0⟩, ⟨1, 3, .branch .eq .zero 7⟩, ⟨4, 3, .iinc 0 1⟩, ⟨7, 3, .iinc 0 2⟩,
    ⟨10, 1, .load .int 0⟩, ⟨11, 3, .branch .eq .zero 4⟩, ⟨14, 1, .returns none⟩]

theorem run_degrade_twoEntries : ∃ a b r n, build takesInt twoEntries {} = .ok a ∧
    a.structureAll [] n = .ok (b, true) ∧ Reached takesInt twoEntries {} r ∧
    b = { r.degrade with fuel := n } ∧
    let d := r.degrade
    let x := (r.addLocal .selector none).2
    (lax d.exprs).Fits d.exprs ∧ (d.tree d.entry).held = [] ∧
      narrow 0 ((d.tree d.entry).run ((lax d.exprs).dispatching r d x) fun _ ↦ .endOfMethod) =
        Outcome.exit <$> r.runFrom (lax d.exprs) r.entry := by
  have hb : (build takesInt twoEntries {}).toOption.any (fun a ↦
      (a.structureAll [] 100).toOption.any (·.2)) = true := by cbv
  obtain ⟨a, ha, hfacts⟩ := exists_build hb
  cases hs : a.structureAll [] 100 with
  | error e =>
    rw [hs] at hfacts
    cases hfacts
  | ok x =>
    obtain ⟨b, degraded⟩ := x
    rw [hs] at hfacts
    obtain rfl : degraded = true := hfacts
    obtain ⟨r, hr, he⟩ := reached_of_structureAll ha hs
    have hI : (lax r.degrade.exprs).Fits r.degrade.exprs := fits_lax fun _ _ ↦ id
    obtain ⟨-, -, hheld, -, hrun, -⟩ := run_degrade hr hI 0 fun _ ↦ .endOfMethod
    exact ⟨a, b, r, 100, ha, hs, hr, he, hI, hheld, hrun⟩

end Analysis

end Decompile
