import Mathlib.Data.Sum.Basic
import Mathlib.Order.Basic

namespace Decompile

/-- What a run does from a state: what it shows, and the value and state it ends with. A run may be
cut short at any time and then has no value, so endless runs show as their beginnings. -/
structure Proc (σ ε α : Type) where
  does : σ → List ε → Option (α × σ) → Prop
  idle : ∀ s, does s [] none
  cut : ∀ {s es r}, does s es (some r) → does s es none

namespace Proc

variable {σ ε α β γ : Type} {P Q : Proc σ ε α} {k k' : α → Proc σ ε β}

@[ext] theorem ext (h : ∀ s es r, P.does s es r ↔ Q.does s es r) : P = Q := by
  obtain ⟨p, _, _⟩ := P
  obtain ⟨q, _, _⟩ := Q
  obtain rfl : p = q := funext fun s ↦ funext fun es ↦ funext fun r ↦ propext (h s es r)
  rfl

instance : PartialOrder (Proc σ ε α) where
  le P Q := ∀ s es r, P.does s es r → Q.does s es r
  le_refl _ _ _ _ h := h
  le_trans _ _ _ h h' s es r hr := h' s es r (h s es r hr)
  le_antisymm _ _ h h' := ext fun s es r ↦ ⟨h s es r, h' s es r⟩

/-- Ends at once with the value. -/
def ret (x : α) : Proc σ ε α where
  does s es r := es = [] ∧ (r = none ∨ r = some (x, s))
  idle _ := ⟨rfl, .inl rfl⟩
  cut h := ⟨h.1, .inl rfl⟩

/-- Goes on with the value. -/
inductive Then (P : Proc σ ε α) (k : α → Proc σ ε β) : σ → List ε → Option (β × σ) → Prop
  | cut {s : σ} {es : List ε} : P.does s es none → Then P k s es none
  | next {s s' : σ} {es es' : List ε} {x : α} {r : Option (β × σ)} : P.does s es (some (x, s')) →
    (k x).does s' es' r → Then P k s (es ++ es') r

theorem Then.last {s s' : σ} {es : List ε} {x : α} {r : Option (β × σ)}
    (h : P.does s es (some (x, s'))) (hk : (k x).does s' [] r) : Then P k s es r :=
  List.append_nil es ▸ .next h hk

theorem Then.silent {s s' : σ} {es : List ε} {x : α} {r : Option (β × σ)}
    (h : P.does s [] (some (x, s'))) (hk : (k x).does s' es r) : Then P k s es r :=
  .next h hk

instance : Monad (Proc σ ε) where
  pure := ret
  bind P k :=
    { does := Then P k
      idle := fun s ↦ .cut (P.idle s)
      cut := fun h ↦ by
        cases h with
        | next h h' => exact .next h ((k _).cut h') }

theorem does_pure {x : α} {s : σ} {es : List ε} {r : Option (α × σ)} :
    (pure x : Proc σ ε α).does s es r ↔ es = [] ∧ (r = none ∨ r = some (x, s)) := Iff.rfl

instance : LawfulMonad (Proc σ ε) := LawfulMonad.mk' _
  (fun P ↦ by
    ext s es r
    constructor
    · intro h
      cases h with
      | cut h => exact h
      | next h h' =>
        obtain ⟨rfl, rfl | rfl⟩ := h'
        · simpa using P.cut h
        · simpa using h
    · intro h
      cases r with
      | none => exact .cut h
      | some r =>
        exact Then.last h ⟨rfl, .inr rfl⟩)
  (fun x k ↦ by
    ext s es r
    constructor
    · intro h
      cases h with
      | cut h =>
        obtain ⟨rfl, -⟩ := h
        exact (k x).idle s
      | next h h' =>
        obtain ⟨rfl, h | h⟩ := h
        · cases h
        · cases h
          exact h'
    · exact fun h ↦ List.nil_append es ▸ .next ⟨rfl, .inr rfl⟩ h)
  (fun P k m ↦ by
    ext s es r
    constructor
    · intro h
      cases h with
      | cut h =>
        cases h with
        | cut h => exact .cut h
        | next h h' => exact .next h (.cut h')
      | next h h' =>
        cases h with
        | next h h'' =>
          rw [List.append_assoc]
          exact .next h (.next h'' h')
    · intro h
      cases h with
      | cut h => exact .cut (.cut h)
      | next h h' =>
        cases h' with
        | cut h' => exact .cut (.next h h')
        | next h' h'' =>
          rw [← List.append_assoc]
          exact .next (.next h h') h'')

theorem map_eq (f : α → β) (P : Proc σ ε α) : f <$> P = P >>= fun x ↦ pure (f x) := rfl

theorem bind_mono (h : P ≤ Q) (hk : ∀ x, k x ≤ k' x) : P >>= k ≤ Q >>= k' := by
  rintro s es r (hr | ⟨hr, hr'⟩)
  · exact .cut (h _ _ _ hr)
  · exact .next (h _ _ _ hr) (hk _ _ _ _ hr')

/-- A value that some run ends with. -/
def Yields (P : Proc σ ε α) (x : α) : Prop := ∃ s es s', P.does s es (some (x, s'))

theorem yields_pure {x y : α} : (pure x : Proc σ ε α).Yields y → y = x := by
  rintro ⟨s, es, s', -, h | h⟩
  · cases h
  · exact congrArg Prod.fst (Option.some.inj h)

theorem Yields.of_bind {y : β} (h : (P >>= k).Yields y) : ∃ x, P.Yields x ∧ (k x).Yields y := by
  obtain ⟨s, es, s', h⟩ := h
  cases h with
  | next h h' => exact ⟨_, ⟨_, _, _, h⟩, _, _, _, h'⟩

theorem Yields.mono (h : P ≤ Q) {x : α} (hx : P.Yields x) : Q.Yields x := by
  obtain ⟨s, es, s', hx⟩ := hx
  exact ⟨s, es, s', h _ _ _ hx⟩

theorem bind_le_bind (hk : ∀ x, P.Yields x → k x ≤ k' x) : P >>= k ≤ P >>= k' := by
  rintro s es r (hr | ⟨hr, hr'⟩)
  · exact .cut hr
  · exact .next hr (hk _ ⟨_, _, _, hr⟩ _ _ _ hr')

theorem bind_eq_bind (hk : ∀ x, P.Yields x → k x = k' x) : P >>= k = P >>= k' :=
  le_antisymm (bind_le_bind fun x hx ↦ (hk x hx).le) (bind_le_bind fun x hx ↦ (hk x hx).ge)

section Iterate

variable {step step' : α → Proc σ ε (α ⊕ β)} {R : α → Proc σ ε γ} {K : β → Proc σ ε γ} {a : α}

inductive Iterates (step : α → Proc σ ε (α ⊕ β)) : α → σ → List ε → Option (β × σ) → Prop
  | idle (a : α) (s : σ) : Iterates step a s [] none
  | cut {a : α} {s : σ} {es : List ε} : (step a).does s es none → Iterates step a s es none
  | done {a : α} {s s' : σ} {es : List ε} {b : β} : (step a).does s es (some (.inr b, s')) →
    Iterates step a s es (some (b, s'))
  | again {a a' : α} {s s' : σ} {es es' : List ε} {r : Option (β × σ)} :
    (step a).does s es (some (.inl a', s')) → Iterates step a' s' es' r →
    Iterates step a s (es ++ es') r

/-- Takes steps until one of them ends with a result. -/
def iterate (step : α → Proc σ ε (α ⊕ β)) (a : α) : Proc σ ε β where
  does := Iterates step a
  idle := .idle a
  cut h := by
    generalize hr : some _ = r at h
    induction h with
    | idle | cut => cases hr
    | done h => exact .cut ((step _).cut h)
    | again h _ ih => exact .again h (ih hr)

theorem iterate_eq (step : α → Proc σ ε (α ⊕ β)) (a : α) :
    iterate step a = step a >>= Sum.elim (iterate step) pure := by
  ext s es r
  constructor
  · intro h
    cases h with
    | idle => exact .cut ((step a).idle s)
    | cut h => exact .cut h
    | @done _ _ s' _ b h =>
      exact Then.last h ⟨rfl, .inr rfl⟩
    | again h h' => exact .next h h'
  · intro h
    cases h with
    | cut h => exact .cut h
    | @next _ _ _ x _ h h' =>
      cases x with
      | inl a' => exact .again h h'
      | inr b =>
        obtain ⟨rfl, rfl | rfl⟩ := h'
        · rw [List.append_nil]
          exact .cut ((step a).cut h)
        · rw [List.append_nil]
          exact .done h

theorem iterate_bind_le (h : ∀ a, step a >>= Sum.elim R K ≤ R a) (a : α) :
    iterate step a >>= K ≤ R a := by
  have key : ∀ {a s es r}, Iterates step a s es r →
      (r = none → (R a).does s es none) ∧
        ∀ b s' es' r', r = some (b, s') → (K b).does s' es' r' → (R a).does s (es ++ es') r' := by
    intro a s es r hr
    induction hr with
    | idle a s => exact ⟨fun _ ↦ (R a).idle s, by simp⟩
    | cut hr => exact ⟨fun _ ↦ h _ _ _ _ (.cut hr), by simp⟩
    | done hr =>
      refine ⟨by simp, fun b s' es' r' he hK ↦ ?_⟩
      cases he
      exact h _ _ _ _ (.next hr hK)
    | again hr _ ih =>
      refine ⟨fun he ↦ h _ _ _ _ (.next hr (ih.1 he)), fun b s' es' r' he hK ↦ ?_⟩
      rw [List.append_assoc]
      exact h _ _ _ _ (.next hr (ih.2 b s' es' r' he hK))
  rintro s es r (hr | ⟨hr, hr'⟩)
  · exact (key hr).1 rfl
  · exact (key hr).2 _ _ _ _ rfl hr'

theorem iterate_le {R : α → Proc σ ε β} (h : ∀ a, step a >>= Sum.elim R pure ≤ R a) (a : α) :
    iterate step a ≤ R a := by
  have := iterate_bind_le h a
  rwa [bind_pure] at this

theorem iterate_mono (h : ∀ a, step a ≤ step' a) (a : α) : iterate step a ≤ iterate step' a := by
  refine iterate_le (fun a ↦ ?_) a
  rw [iterate_eq step' a]
  exact bind_mono (h a) fun _ ↦ le_rfl

theorem iterate_bind (K : β → Proc σ ε γ) (a : α) :
    iterate step a >>= K =
      iterate (fun a ↦ step a >>= Sum.elim (pure ∘ .inl) fun b ↦ .inr <$> K b) a := by
  have hstep (R : α → Proc σ ε γ) (a : α) :
      (step a >>= Sum.elim (pure ∘ .inl) fun b ↦ .inr <$> K b) >>= Sum.elim R pure =
        step a >>= Sum.elim R K := by
    rw [bind_assoc]
    congr 1
    funext x
    cases x <;> simp
  refine le_antisymm (iterate_bind_le (fun a ↦ ?_) a)
    (iterate_le (R := fun a ↦ iterate step a >>= K) (fun a ↦ ?_) a)
  · rw [iterate_eq _ a, hstep]
  · rw [hstep, iterate_eq step a, bind_assoc]
    refine bind_mono le_rfl fun x ↦ ?_
    cases x <;> simp

theorem iterate_le_on {p : α → Prop} {R : α → Proc σ ε β}
    (hp : ∀ a, p a → ∀ a', (step a).Yields (.inl a') → p a')
    (h : ∀ a, p a → step a >>= Sum.elim R pure ≤ R a) (ha : p a) : iterate step a ≤ R a := by
  intro s es r hr
  induction hr with
  | idle a s => exact (R a).idle s
  | cut hr => exact h _ ha _ _ _ (.cut hr)
  | @done a s s' es b hr =>
    exact h _ ha _ _ _ (Then.last hr ⟨rfl, .inr rfl⟩)
  | again hr _ ih => exact h _ ha _ _ _ (.next hr (ih (hp _ ha _ ⟨_, _, _, hr⟩)))

theorem iterate_congr_on {p : α → Prop} (hp : ∀ a, p a → ∀ a', (step a).Yields (.inl a') → p a')
    (h : ∀ a, p a → step' a = step a) (ha : p a) : iterate step' a = iterate step a := by
  refine le_antisymm (iterate_le_on (fun a ha ↦ ?_) (fun a ha ↦ ?_) ha)
    (iterate_le_on hp (fun a ha ↦ ?_) ha)
  · rw [h a ha]
    exact hp a ha
  · rw [h a ha, ← iterate_eq]
  · rw [← h a ha, ← iterate_eq]

/-- A stop may be taken together with the steps that lead to it. -/
theorem iterate_inline [DecidableEq α] {p : α → Prop} {z : α}
    (hp : ∀ a, p a → ∀ a', (step a).Yields (.inl a') → p a') (hz : ¬ (step z).Yields (.inl z))
    (hpz : p z)
    (h : ∀ a, p a → a ≠ z → step' a =
      step a >>= Sum.elim (fun b ↦ if b = z then step z else pure (.inl b)) (pure ∘ .inr))
    (ha : p a) (haz : a ≠ z) : iterate step' a = iterate step a := by
  have hcont (R : α → Proc σ ε β) (x : α ⊕ β) :
      Sum.elim (fun b ↦ if b = z then step z else pure (.inl b)) (pure ∘ .inr) x >>= Sum.elim R pure =
        Sum.elim (fun b ↦ if b = z then step z >>= Sum.elim R pure else R b) pure x := by
    cases x with
    | inl b =>
      simp only [Sum.elim_inl]
      split <;> simp
    | inr b => simp
  refine le_antisymm ?_ ?_
  · refine iterate_le_on (p := fun a ↦ p a ∧ a ≠ z) (fun a ha b hb ↦ ?_)
      (fun a ha ↦ ?_) ⟨ha, haz⟩
    · rw [h a ha.1 ha.2] at hb
      obtain ⟨x, hx, hb⟩ := hb.of_bind
      cases x with
      | inl c =>
        simp only [Sum.elim_inl] at hb
        split at hb
        next hc =>
          refine ⟨hp z hpz b hb, ?_⟩
          rintro rfl
          exact hz hb
        next hc =>
          obtain rfl := Sum.inl.inj (yields_pure hb)
          exact ⟨hp a ha.1 b hx, hc⟩
      | inr c => exact nomatch yields_pure hb
    · rw [h a ha.1 ha.2, bind_assoc, iterate_eq step a]
      refine bind_mono le_rfl fun x ↦ ?_
      rw [hcont]
      cases x with
      | inl b =>
        simp only [Sum.elim_inl]
        split
        next hb => rw [hb, ← iterate_eq]
        next => exact le_rfl
      | inr b => exact le_rfl
  · have hR := iterate_le_on
      (R := fun a ↦ if a = z then step z >>= Sum.elim (iterate step') pure else iterate step' a)
      hp (fun a ha ↦ ?_) ha
    · rwa [if_neg haz] at hR
    · by_cases haz : a = z
      · subst haz
        rw [if_pos rfl]
        refine bind_le_bind fun x hx ↦ ?_
        cases x with
        | inl b =>
          have hb : b ≠ a := by
            rintro rfl
            exact hz hx
          simp [hb]
        | inr b => exact le_rfl
      · rw [if_neg haz, iterate_eq step' a, h a ha haz, bind_assoc]
        refine bind_mono le_rfl fun x ↦ ?_
        rw [hcont]

/-- A stop that comes back to itself may as well do so on its own. -/
theorem iterate_unroll [DecidableEq α] {z : α}
    (hz : step' z = iterate (fun _ : Unit ↦ step z >>= Sum.elim
      (fun b ↦ pure (if b = z then .inl () else .inr (.inl b))) (pure ∘ .inr ∘ .inr)) ())
    (h : ∀ a, a ≠ z → step' a = step a) (a : α) : iterate step' a = iterate step a := by
  have hstep {γ : Type} (R : Unit → Proc σ ε γ) (K : α ⊕ β → Proc σ ε γ) :
      (step z >>= Sum.elim (fun b ↦ pure (if b = z then .inl () else .inr (.inl b)))
        (pure ∘ .inr ∘ .inr)) >>= Sum.elim R K =
      step z >>= Sum.elim (fun b ↦ if b = z then R () else K (.inl b)) (K ∘ .inr) := by
    rw [bind_assoc]
    congr 1
    funext x
    cases x with
    | inl b =>
      simp only [Sum.elim_inl, pure_bind]
      split <;> rfl
    | inr b => simp
  refine le_antisymm (iterate_le (fun a ↦ ?_) a) (iterate_le (fun a ↦ ?_) a)
  · by_cases ha : a = z
    · subst ha
      rw [hz]
      refine iterate_bind_le (R := fun _ ↦ iterate step a) (fun _ ↦ ?_) ()
      rw [hstep, iterate_eq step a]
      refine bind_mono le_rfl fun x ↦ ?_
      cases x with
      | inl b =>
        simp only [Sum.elim_inl]
        split
        next hb => rw [hb, ← iterate_eq]
        next => exact le_rfl
      | inr b => exact le_rfl
    · rw [h a ha, ← iterate_eq]
  · by_cases ha : a = z
    · subst ha
      rw [iterate_eq step' a, hz, iterate_eq, bind_assoc, bind_assoc (step a)]
      refine bind_mono le_rfl fun x ↦ ?_
      cases x with
      | inl b =>
        simp only [Sum.elim_inl, pure_bind]
        split
        next hb => rw [Sum.elim_inl, hb, iterate_eq step' a, hz]
        next => simp
      | inr b => simp
    · rw [← h a ha, ← iterate_eq]

end Iterate

section Sim

variable {δ : Type} {R R' : α → γ → Prop} {S : β → δ → Prop} {M : Proc σ ε γ} {m : γ → Proc σ ε δ}

/-- Each run of the one is a run of the other, up to a relation between their values. -/
structure Sim (R : α → γ → Prop) (P : Proc σ ε α) (M : Proc σ ε γ) : Prop where
  cut : ∀ {s es}, P.does s es none → M.does s es none
  ends : ∀ {s es x s'}, P.does s es (some (x, s')) → ∃ y, R x y ∧ M.does s es (some (y, s'))

theorem Sim.of_le {R : α → α → Prop} (h : P ≤ Q) (hR : ∀ x, P.Yields x → R x x) :
    Sim R P Q where
  cut := h _ _ _
  ends hx := ⟨_, hR _ ⟨_, _, _, hx⟩, h _ _ _ hx⟩

theorem Sim.le (h : Sim Eq P Q) : P ≤ Q := by
  rintro s es (_ | ⟨x, s'⟩) hr
  · exact h.cut hr
  · obtain ⟨_, rfl, hr⟩ := h.ends hr
    exact hr

theorem Sim.mono (h : Sim R P M) (hR : ∀ x y, P.Yields x → M.Yields y → R x y → R' x y) :
    Sim R' P M where
  cut := h.cut
  ends hx := by
    obtain ⟨y, hy, hM⟩ := h.ends hx
    exact ⟨y, hR _ _ ⟨_, _, _, hx⟩ ⟨_, _, _, hM⟩ hy, hM⟩

theorem Sim.trans {N : Proc σ ε δ} {T : γ → δ → Prop} {U : α → δ → Prop} (h : Sim R P M)
    (h' : Sim T M N) (hU : ∀ x y z, R x y → T y z → U x z) : Sim U P N where
  cut hr := h'.cut (h.cut hr)
  ends hr := by
    obtain ⟨y, hy, hr⟩ := h.ends hr
    obtain ⟨z, hz, hr⟩ := h'.ends hr
    exact ⟨z, hU _ _ _ hy hz, hr⟩

theorem Sim.pure {x : α} {y : γ} (h : R x y) : Sim R (pure x : Proc σ ε α) (pure y) where
  cut := by
    rintro s es ⟨rfl, -⟩
    exact ⟨rfl, .inl rfl⟩
  ends := by
    rintro s es x' s' ⟨rfl, h' | h'⟩
    · cases h'
    · cases h'
      exact ⟨y, h, rfl, .inr rfl⟩

theorem Sim.bind (h : Sim R P M) (hk : ∀ x y, R x y → Sim S (k x) (m y)) :
    Sim S (P >>= k) (M >>= m) where
  cut hr := by
    cases hr with
    | cut hr => exact .cut (h.cut hr)
    | next hr hr' =>
      obtain ⟨y, hy, hr⟩ := h.ends hr
      exact .next hr ((hk _ y hy).cut hr')
  ends hr := by
    cases hr with
    | next hr hr' =>
      obtain ⟨y, hy, hr⟩ := h.ends hr
      obtain ⟨z, hz, hr'⟩ := (hk _ y hy).ends hr'
      exact ⟨z, hz, .next hr hr'⟩

theorem Sim.bind_right {k : α → Proc σ ε β} {m : α → Proc σ ε δ} (P : Proc σ ε α)
    (hk : ∀ x, P.Yields x → Sim S (k x) (m x)) : Sim S (P >>= k) (P >>= m) :=
  Sim.bind (R := fun x y ↦ x = y ∧ P.Yields x)
    ⟨id, fun hx ↦ ⟨_, ⟨rfl, _, _, _, hx⟩, hx⟩⟩ fun x _ ⟨he, hx⟩ ↦ he ▸ hk x hx

theorem Sim.refl {R : α → α → Prop} (hR : ∀ x, R x x) (P : Proc σ ε α) : Sim R P P :=
  .of_le le_rfl fun x _ ↦ hR x

theorem Sim.eq (h : Sim Eq P Q) (h' : Sim Eq Q P) : P = Q := le_antisymm h.le h'.le

theorem Sim.iterate {step : α → Proc σ ε (α ⊕ β)} {step' : γ → Proc σ ε (γ ⊕ δ)}
    (h : ∀ a c, R a c → Sim (Sum.LiftRel R S) (step a) (step' c)) {a : α} {c : γ} (hac : R a c) :
    Sim S (iterate step a) (iterate step' c) := by
  have key : ∀ {a s es r}, Iterates step a s es r → ∀ c, R a c →
      (r = none → Iterates step' c s es none) ∧ ∀ b s', r = some (b, s') →
        ∃ d, S b d ∧ Iterates step' c s es (some (d, s')) := by
    intro a s es r hr
    induction hr with
    | idle a s => exact fun c _ ↦ ⟨fun _ ↦ .idle c s, by simp⟩
    | cut hr => exact fun c hc ↦ ⟨fun _ ↦ .cut ((h _ c hc).cut hr), by simp⟩
    | done hr =>
      refine fun c hc ↦ ⟨by simp, fun b s' he ↦ ?_⟩
      cases he
      obtain ⟨_, hy | hy, hr'⟩ := (h _ c hc).ends hr
      exact ⟨_, hy, .done hr'⟩
    | again hr _ ih =>
      intro c hc
      obtain ⟨_, hy | hy, hr'⟩ := (h _ c hc).ends hr
      refine ⟨fun he ↦ .again hr' ((ih _ hy).1 he), fun b s' he ↦ ?_⟩
      obtain ⟨d, hd, hi⟩ := (ih _ hy).2 b s' he
      exact ⟨d, hd, .again hr' hi⟩
  exact ⟨fun hr ↦ (key hr c hac).1 rfl, fun hr ↦ (key hr c hac).2 _ _ rfl⟩

end Sim

section Alike

variable {R : α → α → Prop} {M : Proc σ ε α}

/-- Each of the two simulates the other. -/
structure Alike (R : α → α → Prop) (P Q : Proc σ ε α) : Prop where
  there : Sim R P Q
  back : Sim R Q P

theorem Alike.of_eq (hR : ∀ x, R x x) (h : P = Q) : Alike R P Q := h ▸ ⟨.refl hR P, .refl hR P⟩

theorem Alike.symm (h : Alike R P Q) : Alike R Q P := ⟨h.back, h.there⟩

theorem Alike.trans (h : Alike R P Q) (h' : Alike R Q M)
    (hR : ∀ x y z, R x y → R y z → R x z) : Alike R P M :=
  ⟨h.there.trans h'.there hR, h'.back.trans h.back hR⟩

theorem Alike.eq (h : Alike Eq P Q) : P = Q := h.there.eq h.back

theorem Alike.bind_right {R : β → β → Prop} {k m : α → Proc σ ε β} (P : Proc σ ε α)
    (h : ∀ x, P.Yields x → Alike R (k x) (m x)) : Alike R (P >>= k) (P >>= m) :=
  ⟨.bind_right P fun x hx ↦ (h x hx).there, .bind_right P fun x hx ↦ (h x hx).back⟩

theorem Alike.bind_eq {m : α → Proc σ ε β} (h : Alike R P Q) (hR : ∀ x y, R x y → R y x)
    (hk : ∀ x y, P.Yields x → Q.Yields y → R x y → k x = m y) : P >>= k = Q >>= m := by
  refine Sim.eq ?_ ?_
  · refine (h.there.mono hk).bind fun x y hxy ↦ ?_
    rw [hxy]
    exact .refl (fun _ ↦ rfl) _
  · refine (h.back.mono fun x y hx hy hxy ↦ hk y x hy hx (hR x y hxy)).bind fun x y hxy ↦ ?_
    rw [hxy]
    exact .refl (fun _ ↦ rfl) _

theorem Alike.pure {x y : α} (h : R x y) (h' : R y x) : Alike R (pure x : Proc σ ε α) (pure y) :=
  ⟨.pure h, .pure h'⟩

end Alike

section Within

variable {σ' ε' : Type} {M : Proc σ' ε' α} {m : α → Proc σ' ε' β}

/-- Each value of the one comes up in every state of the other. -/
def Within (P : Proc σ ε α) (M : Proc σ' ε' α) : Prop :=
  ∀ x, P.Yields x → ∀ s, ∃ es s', M.does s es (some (x, s'))

theorem within_pure (x : α) : Within (pure x : Proc σ ε α) (pure x : Proc σ' ε' α) := by
  intro y hy s
  obtain rfl := yields_pure hy
  exact ⟨[], s, rfl, .inr rfl⟩

theorem Within.bind (h : P.Within M) (hk : ∀ x, P.Yields x → (k x).Within (m x)) :
    (P >>= k).Within (M >>= m) := by
  intro y hy s
  obtain ⟨x, hx, hy⟩ := hy.of_bind
  obtain ⟨es, s', hM⟩ := h x hx s
  obtain ⟨es', s'', hm⟩ := hk x hx y hy s'
  exact ⟨es ++ es', s'', .next hM hm⟩

theorem Within.map (f : α → β) (h : P.Within M) : (f <$> P).Within (f <$> M) :=
  h.bind fun x _ ↦ within_pure (f x)

theorem Within.iterate {step : α → Proc σ ε (α ⊕ β)} {step' : α → Proc σ' ε' (α ⊕ β)}
    (h : ∀ a, (step a).Within (step' a)) (a : α) : (iterate step a).Within (iterate step' a) := by
  rintro y ⟨s, es, s', hy⟩
  generalize hr : some (y, s') = r at hy
  induction hy with
  | idle | cut => cases hr
  | done hy =>
    cases hr
    intro t
    obtain ⟨es', t', hy'⟩ := h _ _ ⟨_, _, _, hy⟩ t
    exact ⟨es', t', .done hy'⟩
  | again hy _ ih =>
    intro t
    obtain ⟨es', t', hy'⟩ := h _ _ ⟨_, _, _, hy⟩ t
    obtain ⟨es'', t'', hi⟩ := ih hr t'
    exact ⟨es' ++ es'', t'', .again hy' hi⟩

end Within

end Proc

end Decompile
