import Decompile.Proofs.Running

/-!
Runs that carry a value along beside their state. What does not know of the value runs as before,
and a loop that keeps its place in the value runs as one that is told its place.
-/

namespace Decompile

namespace Proc

variable {σ τ ε α β : Type} {P : Proc σ ε α} {s : σ × τ} {es : List ε}

/-- Leaves the value alone. -/
def widen (P : Proc σ ε α) : Proc (σ × τ) ε α where
  does s es r := ∃ q, P.does s.1 es q ∧ r = q.map fun x ↦ (x.1, x.2, s.2)
  idle s := ⟨none, P.idle s.1, rfl⟩
  cut := by
    intro s es r h
    obtain ⟨q, hq, hr⟩ := h
    cases q with
    | none => cases hr
    | some x => exact ⟨none, P.cut hq, rfl⟩

/-- Starts from a value, and drops it in the end. -/
def narrow (n : τ) (P : Proc (σ × τ) ε α) : Proc σ ε α where
  does s es r := ∃ q, P.does (s, n) es q ∧ r = q.map fun x ↦ (x.1, x.2.1)
  idle s := ⟨none, P.idle (s, n), rfl⟩
  cut := by
    intro s es r h
    obtain ⟨q, hq, hr⟩ := h
    cases q with
    | none => cases hr
    | some x => exact ⟨none, P.cut hq, rfl⟩

/-- Sets the value. -/
def store (n : τ) : Proc (σ × τ) ε Unit where
  does s es r := es = [] ∧ (r = none ∨ r = some ((), s.1, n))
  idle _ := ⟨rfl, .inl rfl⟩
  cut h := ⟨h.1, .inl rfl⟩

/-- Reads the value. -/
def load : Proc (σ × τ) ε τ where
  does s es r := es = [] ∧ (r = none ∨ r = some (s.2, s))
  idle _ := ⟨rfl, .inl rfl⟩
  cut h := ⟨h.1, .inl rfl⟩

section Widen

@[simp] theorem does_widen_none :
    (P.widen : Proc (σ × τ) ε α).does s es none ↔ P.does s.1 es none := by
  constructor
  · rintro ⟨q, hq, hr⟩
    cases q with
    | none => exact hq
    | some x => cases hr
  · exact fun h ↦ ⟨none, h, rfl⟩

@[simp] theorem does_widen_some {x : α} {s' : σ × τ} :
    (P.widen : Proc (σ × τ) ε α).does s es (some (x, s')) ↔
      P.does s.1 es (some (x, s'.1)) ∧ s'.2 = s.2 := by
  constructor
  · rintro ⟨q, hq, hr⟩
    cases q with
    | none => cases hr
    | some y =>
      cases hr
      exact ⟨hq, rfl⟩
  · intro h
    obtain ⟨u, n⟩ := s'
    obtain ⟨h, rfl⟩ := h
    exact ⟨_, h, rfl⟩

theorem does_widen {u : σ} {x : α} (h : P.does s.1 es (some (x, u))) :
    P.widen.does s es (some (x, u, s.2)) :=
  does_widen_some.mpr ⟨h, rfl⟩

theorem widen_ext {Q : Proc (σ × τ) ε α} (hnone : ∀ s es, Q.does s es none ↔ P.does s.1 es none)
    (hsome : ∀ s es x s', Q.does s es (some (x, s')) ↔ P.does s.1 es (some (x, s'.1)) ∧ s'.2 = s.2) :
    P.widen = Q := by
  ext s es r
  cases r with
  | none => rw [does_widen_none, hnone]
  | some r => rw [does_widen_some, hsome]

@[simp] theorem widen_pure (x : α) : (pure x : Proc σ ε α).widen = (pure x : Proc (σ × τ) ε α) := by
  refine widen_ext (fun s es ↦ by simp [does_pure]) fun s es y s' ↦ ?_
  obtain ⟨u, n⟩ := s
  obtain ⟨u', n'⟩ := s'
  simp only [does_pure, reduceCtorEq, false_or, Option.some.injEq, Prod.mk.injEq]
  exact and_assoc.symm.trans (by tauto)

theorem widen_bind (P : Proc σ ε α) (k : α → Proc σ ε β) :
    (P >>= k).widen = (P.widen >>= fun x ↦ (k x).widen : Proc (σ × τ) ε β) := by
  refine widen_ext (fun s es ↦ ?_) fun s es y s' ↦ ?_
  · constructor
    · intro h
      cases h with
      | cut h => exact .cut (does_widen_none.mp h)
      | next h h' =>
        obtain ⟨h, -⟩ := does_widen_some.mp h
        exact .next h (does_widen_none.mp h')
    · intro h
      cases h with
      | cut h => exact .cut (does_widen_none.mpr h)
      | @next u _ _ x _ h h' =>
        exact .next (does_widen h) (does_widen_none.mpr h')
  · constructor
    · intro h
      cases h with
      | next h h' =>
        obtain ⟨h, hn⟩ := does_widen_some.mp h
        obtain ⟨h', hn'⟩ := does_widen_some.mp h'
        exact ⟨.next h h', hn'.trans hn⟩
    · rintro ⟨h, hn⟩
      cases h with
      | @next u _ _ x _ h h' =>
        exact .next (does_widen h) (does_widen_some.mpr ⟨h', hn⟩)

theorem widen_map (g : α → β) (P : Proc σ ε α) :
    (g <$> P).widen = (g <$> P.widen : Proc (σ × τ) ε β) := by
  rw [map_eq, map_eq, widen_bind]
  simp only [widen_pure]

theorem widen_iterate (step : α → Proc σ ε (α ⊕ β)) (a : α) :
    (iterate step a).widen = (iterate (fun a ↦ (step a).widen) a : Proc (σ × τ) ε β) := by
  ext s es r
  constructor
  · rintro ⟨q, h, rfl⟩
    obtain ⟨u, n⟩ := s
    change Iterates step a u es q at h
    change Iterates (fun a ↦ (step a).widen) a (u, n) es _
    induction h with
    | idle => exact .idle _ _
    | cut h => exact .cut ⟨none, h, rfl⟩
    | done h => exact .done ⟨_, h, rfl⟩
    | again h _ ih => exact .again ⟨_, h, rfl⟩ ih
  · intro h
    change Iterates (fun a ↦ (step a).widen) a s es r at h
    induction h with
    | idle a s => exact ⟨none, .idle _ _, rfl⟩
    | cut h => exact ⟨none, .cut (does_widen_none.mp h), rfl⟩
    | @done a s s' es b h =>
      obtain ⟨h, hn⟩ := does_widen_some.mp h
      exact does_widen_some.mpr ⟨.done h, hn⟩
    | @again a a' s s' es es' r h _ ih =>
      obtain ⟨h, hn⟩ := does_widen_some.mp h
      obtain ⟨q, h', rfl⟩ := ih
      exact ⟨q, .again h h', by rw [hn]⟩

theorem yields_widen {x : α} (h : (P.widen : Proc (σ × τ) ε α).Yields x) : P.Yields x := by
  obtain ⟨s, es, s', h⟩ := h
  exact ⟨s.1, es, s'.1, (does_widen_some.mp h).1⟩

@[simp] theorem widen_stuck : (stuck : Proc σ ε Outcome).widen = (stuck : Proc (σ × τ) ε Outcome) :=
  widen_ext (fun s es ↦ by simp [stuck]) fun s es x s' ↦ by simp [stuck]

end Widen

theorem narrow_store {P : Proc (σ × τ) ε α} (m n : τ) :
    narrow m (store n >>= fun _ ↦ P) = narrow n P := by
  ext s es r
  constructor
  · rintro ⟨q, h, rfl⟩
    cases h with
    | cut h =>
      obtain ⟨rfl, -⟩ := h
      exact ⟨none, P.idle _, rfl⟩
    | next h h' =>
      obtain ⟨rfl, h | h⟩ := h
      · cases h
      · cases h
        exact ⟨_, h', rfl⟩
  · rintro ⟨q, h, rfl⟩
    exact ⟨q, .silent ⟨rfl, .inr rfl⟩ h, rfl⟩

theorem does_load {P : τ → Proc (σ × τ) ε α} {r : Option (α × σ × τ)} :
    (load >>= P).does s es r ↔ (P s.2).does s es r := by
  constructor
  · intro h
    cases h with
    | cut h =>
      obtain ⟨rfl, -⟩ := h
      exact (P s.2).idle s
    | next h h' =>
      obtain ⟨rfl, h | h⟩ := h
      · cases h
      · cases h
        exact h'
  · intro h
    exact .silent ⟨rfl, .inr rfl⟩ h

section Iterate

variable {step : α → Proc σ ε (α ⊕ β)} {place : α → τ} {a : α} {n : τ} {u : σ}

/-- Takes a step and keeps in the value where it has led. -/
def keeping (place : α → τ) (P : Proc σ ε (α ⊕ β)) : Proc (σ × τ) ε (Unit ⊕ β) :=
  P.widen >>= Sum.elim (fun a ↦ store (place a) >>= fun _ ↦ pure (.inl ())) (pure ∘ .inr)

def kept (place : α → τ) (n : τ) : (α ⊕ β) × σ → (Unit ⊕ β) × σ × τ
  | (.inl a, v) => (.inl (), v, place a)
  | (.inr b, v) => (.inr b, v, n)

theorem does_keeping {P : Proc σ ε (α ⊕ β)} {r : Option ((Unit ⊕ β) × σ × τ)} :
    (keeping place P).does s es r ↔ ∃ q, P.does s.1 es q ∧ r = q.map (kept place s.2) := by
  constructor
  · intro h
    cases h with
    | cut h => exact ⟨none, does_widen_none.mp h, rfl⟩
    | @next v _ es' x _ h h' =>
      obtain ⟨h, hn⟩ := does_widen_some.mp h
      obtain ⟨rfl, hr⟩ : es' = [] ∧ (r = none ∨ r = some (kept place s.2 (x, v.1))) := by
        cases x with
        | inl a =>
          cases h' with
          | cut h' => exact ⟨h'.1, .inl rfl⟩
          | next h' h'' =>
            obtain ⟨rfl, h' | h'⟩ := h'
            · cases h'
            · cases h'
              exact h''
        | inr b => exact hn ▸ h'
      rw [List.append_nil]
      rcases hr with rfl | rfl
      · exact ⟨none, P.cut h, rfl⟩
      · exact ⟨_, h, rfl⟩
  · rintro ⟨_ | ⟨a | b, v⟩, h, rfl⟩
    · exact .cut (does_widen_none.mpr h)
    · exact Then.last (does_widen h) (.silent ⟨rfl, .inr rfl⟩ ⟨rfl, .inr rfl⟩)
    · exact Then.last (does_widen h) ⟨rfl, .inr rfl⟩

/-- A loop that finds its place in the value runs as the steps from that place do. -/
theorem narrow_iterate {p : α → Prop} {round : τ → Proc (σ × τ) ε (Unit ⊕ β)}
    (hp : ∀ a, p a → ∀ a', (step a).Yields (.inl a') → p a')
    (h : ∀ a, p a → round (place a) = keeping place (step a)) (ha : p a) :
    narrow (place a) (iterate (fun _ : Unit ↦ load >>= round) ()) = iterate step a := by
  ext s es r
  constructor
  · rintro ⟨q, hq, rfl⟩
    change Iterates _ () (s, place a) es q at hq
    -- The value tells the place at the start of every round.
    generalize hu : () = u at hq
    generalize hs : (s, place a) = v at hq
    induction hq generalizing a s with
    | idle => exact .idle _ _
    | cut hq =>
      subst hs
      rw [does_load, h a ha] at hq
      obtain ⟨_ | _, hq, he⟩ := does_keeping.mp hq
      · exact .cut hq
      · cases he
    | done hq =>
      subst hs
      rw [does_load, h a ha] at hq
      obtain ⟨_ | ⟨_ | _, _⟩, hq', he⟩ := does_keeping.mp hq <;> cases he
      exact .done hq'
    | again hq _ ih =>
      subst hs
      rw [does_load, h a ha] at hq
      obtain ⟨_ | ⟨a' | _, _⟩, hq', he⟩ := does_keeping.mp hq <;> cases he
      exact .again hq' (ih (hp a ha a' ⟨_, _, _, hq'⟩) _ rfl rfl)
  · intro hr
    change Iterates step a s es r at hr
    induction hr with
    | idle a s => exact ⟨none, .idle _ _, rfl⟩
    | @cut a s es hr =>
      refine ⟨none, .cut ?_, rfl⟩
      rw [does_load, h a ha]
      exact does_keeping.mpr ⟨none, hr, rfl⟩
    | @done a s s' es b hr =>
      refine ⟨some (b, s', place a), .done ?_, rfl⟩
      rw [does_load, h a ha]
      exact does_keeping.mpr ⟨_, hr, rfl⟩
    | @again a a' s s' es es' r hr _ ih =>
      obtain ⟨q, hq, rfl⟩ := ih (hp a ha a' ⟨_, _, _, hr⟩)
      refine ⟨q, .again ?_ hq, rfl⟩
      rw [does_load, h a ha]
      exact does_keeping.mpr ⟨_, hr, rfl⟩

end Iterate

section Blocks

theorem widen_skip : (skip : Proc σ ε Outcome).widen = (skip : Proc (σ × τ) ε Outcome) :=
  widen_pure _

theorem widen_ite {p : Prop} [Decidable p] (P Q : Proc σ ε α) :
    (if p then P else Q).widen = (if p then P.widen else Q.widen : Proc (σ × τ) ε α) := by
  split <;> rfl

theorem inOrder_widen (l : List (Proc σ ε Outcome)) :
    inOrder (l.map widen) = ((inOrder l).widen : Proc (σ × τ) ε Outcome) := by
  induction l with
  | nil => exact widen_skip.symm
  | cons P l ih =>
    rw [List.map_cons, inOrder_cons, inOrder_cons, ih, andThen, andThen, widen_bind]
    simp only [widen_ite, widen_pure]

theorem getD_widen (l : List (Proc σ ε Outcome)) (i : Nat) :
    (l.map widen).getD i skip = ((l.getD i skip).widen : Proc (σ × τ) ε Outcome) := by
  rw [List.getD_eq_getElem?_getD, List.getD_eq_getElem?_getD, List.getElem?_map]
  cases l[i]? with
  | none => exact widen_skip.symm
  | some => rfl

theorem looping_widen (b : BlockId) (kind : LoopKind) (test : Proc σ ε Bool)
    (body incr : Proc σ ε Outcome) :
    looping b kind test.widen body.widen incr.widen =
      ((looping b kind test body incr).widen : Proc (σ × τ) ε Outcome) := by
  have hnext (K : Proc σ ε (Unit ⊕ Outcome)) (x : Outcome) :
      next b K.widen x = ((next b K x).widen : Proc (σ × τ) ε _) := by
    simp only [next, widen_ite, widen_pure]
  rw [looping, looping, widen_iterate]
  congr 1
  funext _
  rw [widen_ite]
  congr 1
  · simp only [doStep, again, widen_bind, ← hnext, widen_pure]
  · simp only [whileStep, widen_bind, widen_ite, ← hnext, widen_pure]

end Blocks

end Proc

section Carries

open Proc

variable {σ τ ε : Type} {I : Interp σ ε} {J : Interp (σ × τ) ε} {destination : JumpId → FlowId}
  {T : Tree} {b : BlockId} {k : Kind}

/-- What the second interpretation does in the tree, the first one does without the value. -/
structure Interp.Carries (I : Interp σ ε) (J : Interp (σ × τ) ε) (T : Tree) : Prop where
  leaf : ∀ s ∈ T.nodes, J.leaf s.id s.kind = (I.leaf s.id s.kind).widen
  start : ∀ e, J.start e = (I.start e).widen
  branch : ∀ e, J.branch e = (I.branch e).widen
  loop : ∀ e, J.loop e = (I.loop e).widen
  select : ∀ s ∈ T.nodes, ∀ e labeled, s.kind = .switch e labeled → J.select e = (I.select e).widen

theorem Interp.Carries.child (h : I.Carries J T) {c : Tree} (hc : c ∈ T.children) :
    I.Carries J c where
  leaf s hs := h.leaf s (Tree.mem_nodes.mpr (.inr ⟨c, hc, hs⟩))
  start := h.start
  branch := h.branch
  loop := h.loop
  select s hs := h.select s (Tree.mem_nodes.mpr (.inr ⟨c, hc, hs⟩))

theorem act_widen (hleaf : J.leaf b k = (I.leaf b k).widen)
    (hstart : ∀ e, J.start e = (I.start e).widen) (hbranch : ∀ e, J.branch e = (I.branch e).widen)
    (hloop : ∀ e, J.loop e = (I.loop e).widen)
    (hselect : ∀ e labeled, k = .switch e labeled → J.select e = (I.select e).widen)
    (vs : List (Option CaseValue)) (l : List (Proc σ ε Outcome)) :
    act J b k vs (l.map widen) = (act I b k vs l).widen := by
  cases k with
  | empty | breakTo | continueTo => exact (widen_pure _).symm
  | evaluate | shuffle | returns | throws => simp only [act, hleaf, widen_bind, widen_pure]
  | sequence => exact inOrder_widen l
  | conditional c | ifElse c => simp only [act, hbranch, widen_bind, getD_widen]
  | loop kind c init labeled =>
    simp only [act, widen_bind, hloop, getD_widen, looping_widen]
    congr 1
    cases init with
    | none => exact (widen_pure _).symm
    | some e => exact hstart e
  | switch selector labeled =>
    simp only [act, hselect selector labeled rfl, widen_bind, widen_map, ← List.map_drop,
      inOrder_widen]
  | switchCase | tryCatch | catchClause | finallyClause | synchronized => exact getD_widen l 0
  | jsr | ret | description => exact widen_stuck.symm

theorem Interp.Carries.run_eq (h : I.Carries J T) :
    T.run J destination = (T.run I destination).widen := by
  induction T using Tree.induct with
  | node b e k l ih =>
    have hmap : l.map (Tree.run J destination) = (l.map (Tree.run I destination)).map widen := by
      rw [List.map_map]
      exact List.map_congr_left fun c hc ↦ ih c hc (h.child hc)
    have hself := Tree.mem_nodes_self (.node b e k l)
    rw [Tree.run_node, Tree.run_node, hmap, widen_map]
    congr 1
    exact act_widen (h.leaf _ hself) h.start h.branch h.loop (h.select _ hself) _ _

end Carries

end Decompile
