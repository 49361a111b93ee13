import Decompile.Proofs.StackShape
import Decompile.StackMapping

namespace Decompile.Mapping

variable {m m' : Mapping} {b : BlockId} {s : OperandStack} {out : Outgoing} {n : Nat}

abbrev Mapper := BlockId → OperandStack → Mapping → Except StackError (Mapping × Outgoing)

/-- The stack at the test of a loop is known while its body is mapped. -/
def enter (m : Mapping) (b : BlockId) (entry : OperandStack) : Mapping :=
  { m with entries := (b, entry) :: m.entries.filter (·.1 ≠ b) }

/-- What the mapping of a block comes to by its statement, where `map` maps the blocks inside. -/
inductive Step (map : Mapper) (b : BlockId) (s : OperandStack) (m : Mapping) :
    Statement → Mapping → Outgoing → Prop
  | idle {st} : st = .empty ∨ (∃ text, st = .description text) → Step map b s m st m (some s)
  | jsr {call} : Step map b s m (.jsr call) m (some s)
  | ret {address} : Step map b s m (.ret address) m none
  | evaluate {e m₁ rest} : m.consume e s = .ok (m₁, rest) →
    Step map b s m (.evaluate e 0) m₁ (some rest)
  | push {e width m₁ rest} : width ≠ 0 → m.consume e s = .ok (m₁, rest) →
    Step map b s m (.evaluate e width) (m₁.store b e width rest).1
      (some (m₁.store b e width rest).2)
  | leave {st value m₁ rest} : st.leaves? = some value → m.consume? value s = .ok (m₁, rest) →
    Step map b s m st m₁ none
  | shuffle {op t} : s.shuffle op = .ok t →
    Step map b s m (.shuffle op) { m with analysis := m.analysis.setStatement b .empty } (some t)
  | sequence {first second m₁ between m' o} : map first s m = .ok (m₁, between) →
    map second (between.getD {}) m₁ = .ok (m', o) →
    Step map b s m (.sequence first second) m' (if between.isSome then o else none)
  | conditional {cond taken m₁ rest m₂ o m' out} : m.consume cond s = .ok (m₁, rest) →
    map taken rest m₁ = .ok (m₂, o) → m₂.join (some rest) o = .ok (m', out) →
    Step map b s m (.conditional cond taken) m' out
  | ifElse {cond yes no m₁ rest m₂ o m₃ o' m' out} : m.consume cond s = .ok (m₁, rest) →
    map yes rest m₁ = .ok (m₂, o) →
    no = none ∧ m₃ = m₂ ∧ o' = some rest ∨ (∃ c, no = some c ∧ map c rest m₂ = .ok (m₃, o')) →
    m₃.join o o' = .ok (m', out) → Step map b s m (.ifElse cond yes no) m' out
  | loop {kind cond init incr body labeled m₁ rest m₂ entry m₃ back m₄ m₅ m' out} :
    m.consume? init s = .ok (m₁, rest) → m₁.consume cond rest = .ok (m₂, entry) →
    map body entry (m₂.enter b entry) = .ok (m₃, back) →
    (∀ t, back = some t → ∃ t', m₃.meet t entry = .ok (m₄, t')) → (back = none → m₄ = m₃) →
    (∀ i, incr = some i → ∃ o, map i entry m₄ = .ok (m₅, o)) → (incr = none → m₅ = m₄) →
    m₅.joinBreaks b (if m₅.analysis.expr cond = .const (.bool true) then none
      else if kind = .doWhile then back else some entry) = .ok (m', out) →
    Step map b s m (.loop kind cond init incr body labeled) m' out
  | switch {selector cases labeled m₁ rest m₂ previous known m₃ o m' out} :
    m.consume selector s = .ok (m₁, rest) →
    mapCases map rest cases none false m₁ = .ok (m₂, previous, known) →
    m₂.join previous (if known then none else some rest) = .ok (m₃, o) →
    m₃.joinBreaks b o = .ok (m', out) → Step map b s m (.switch selector cases labeled) m' out
  | within {st before body m₁ rest m' out} : st.body? = some (before, body) →
    m.consume? before s = .ok (m₁, rest) → map body rest m₁ = .ok (m', out) →
    Step map b s m st m' out
  | tryCatch {body handlers m₁ o m' out} : map body s m = .ok (m₁, o) →
    mapHandlers map handlers o m₁ = .ok (m', out) →
    Step map b s m (.tryCatch body handlers) m' out
  | breakTo {target labeled m'} :
    (∃ seen t, m.breaks.lookup target = some seen ∧ m.meet seen s = .ok (m', t)) ∨
      m.breaks.lookup target = none ∧ m' = { m with breaks := (target, s) :: m.breaks } →
    Step map b s m (.breakTo target labeled) m' none
  | continueTo {target labeled m'} :
    (∃ entry t, m.entries.lookup target = some entry ∧ m.meet entry s = .ok (m', t)) ∨
      m.entries.lookup target = none ∧ m' = m →
    Step map b s m (.continueTo target labeled) m' none

theorem step_of_mapWithin (h : mapWithin (n + 1) b s m = .ok (m', out)) :
    Step (mapWithin n) b s m (m.analysis.statement b) m' out := by
  unfold mapWithin at h
  generalize m.analysis.statement b = st at h ⊢
  cases st with
  | empty =>
    cases h
    exact .idle (.inl rfl)
  | description text =>
    cases h
    exact .idle (.inr ⟨text, rfl⟩)
  | jsr =>
    cases h
    exact .jsr
  | ret =>
    cases h
    exact .ret
  | evaluate e width =>
    obtain ⟨⟨m₁, rest⟩, hc, h⟩ := ok_of_bind h
    dsimp only at h
    split_ifs at h with hwidth
    · cases h
      exact hwidth ▸ .evaluate hc
    · cases h
      exact .push hwidth hc
  | returns | throws =>
    obtain ⟨⟨m₁, rest⟩, hc, h⟩ := ok_of_bind h
    cases h
    exact .leave rfl hc
  | shuffle op =>
    obtain ⟨t, hop, h⟩ := ok_of_bind h
    cases h
    exact .shuffle hop
  | sequence first second =>
    obtain ⟨⟨m₁, between⟩, h₁, h⟩ := ok_of_bind h
    obtain ⟨⟨m₂, o⟩, h₂, h⟩ := ok_of_bind h
    cases h
    exact .sequence h₁ h₂
  | conditional cond taken =>
    obtain ⟨⟨m₁, rest⟩, hc, h⟩ := ok_of_bind h
    obtain ⟨⟨m₂, o⟩, h₁, h⟩ := ok_of_bind h
    exact .conditional hc h₁ h
  | ifElse cond yes no =>
    obtain ⟨⟨m₁, rest⟩, hc, h⟩ := ok_of_bind h
    obtain ⟨⟨m₂, o⟩, h₁, h⟩ := ok_of_bind h
    cases no with
    | none => exact .ifElse hc h₁ (.inl ⟨rfl, rfl, rfl⟩) h
    | some c =>
      obtain ⟨⟨m₃, o'⟩, h₂, h⟩ := ok_of_bind h
      exact .ifElse hc h₁ (.inr ⟨c, rfl, h₂⟩) h
  | loop kind cond init incr body labeled =>
    obtain ⟨⟨m₁, rest⟩, hinit, h⟩ := ok_of_bind h
    obtain ⟨⟨m₂, entry⟩, htest, h⟩ := ok_of_bind h
    obtain ⟨⟨m₃, back⟩, h₁, h⟩ := ok_of_bind h
    cases back with
    | none =>
      cases incr with
      | none => exact .loop hinit htest h₁ (by simp) (fun _ ↦ rfl) (by simp) (fun _ ↦ rfl) h
      | some i =>
        obtain ⟨_, ⟨⟩, h⟩ := ok_of_bind h
        obtain ⟨⟨m₅, o⟩, h₃, h⟩ := ok_of_bind h
        exact .loop hinit htest h₁ (by simp) (fun _ ↦ rfl) (by rintro _ ⟨⟩; exact ⟨o, h₃⟩) (by simp) h
    | some t =>
      obtain ⟨⟨m₄, t'⟩, h₂, h⟩ := ok_of_bind h
      cases incr with
      | none =>
        exact .loop hinit htest h₁ (by rintro _ ⟨⟩; exact ⟨t', h₂⟩) (by simp) (by simp)
          (fun _ ↦ rfl) h
      | some i =>
        obtain ⟨_, ⟨⟩, h⟩ := ok_of_bind h
        obtain ⟨⟨m₅, o⟩, h₃, h⟩ := ok_of_bind h
        exact .loop hinit htest h₁ (by rintro _ ⟨⟩; exact ⟨t', h₂⟩) (by simp)
          (by rintro _ ⟨⟩; exact ⟨o, h₃⟩) (by simp) h
  | switch selector cases labeled =>
    obtain ⟨⟨m₁, rest⟩, hsel, h⟩ := ok_of_bind h
    obtain ⟨⟨m₂, previous, known⟩, h₁, h⟩ := ok_of_bind h
    obtain ⟨⟨m₃, o⟩, h₂, h⟩ := ok_of_bind h
    exact .switch hsel h₁ h₂ h
  | switchCase | catchClause | finallyClause =>
    exact .within rfl rfl h
  | synchronized lock object body =>
    obtain ⟨⟨m₁, rest⟩, hobj, h⟩ := ok_of_bind h
    exact .within rfl hobj h
  | tryCatch body handlers =>
    obtain ⟨⟨m₁, o⟩, h₁, h⟩ := ok_of_bind h
    exact .tryCatch h₁ h
  | breakTo target labeled =>
    dsimp only at h
    split at h
    next seen hseen =>
      obtain ⟨⟨m₁, t⟩, hmeet, h⟩ := ok_of_bind h
      cases h
      exact .breakTo (.inl ⟨seen, t, hseen, hmeet⟩)
    next hnone =>
      cases h
      exact .breakTo (.inr ⟨hnone, rfl⟩)
  | continueTo target labeled =>
    dsimp only at h
    split at h
    next entry hentry =>
      obtain ⟨⟨m₁, t⟩, hmeet, h⟩ := ok_of_bind h
      cases h
      exact .continueTo (.inl ⟨entry, t, hentry, hmeet⟩)
    next hnone =>
      cases h
      exact .continueTo (.inr ⟨hnone, rfl⟩)

end Decompile.Mapping
