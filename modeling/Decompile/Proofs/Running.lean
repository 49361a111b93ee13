import Decompile.Proofs.Proc
import Decompile.Proofs.Shape

namespace Decompile

/-- How the run of a block ends. -/
inductive Outcome
  | completes
  | jumps (destination : FlowId)
  | breaks (target : BlockId)
  | continues (target : BlockId)
  /-- By a return or an exception. -/
  | leaves
  deriving DecidableEq

namespace Outcome

/-- A block that completes takes its jump. -/
def via (jump : Option FlowId) (x : Outcome) : Outcome :=
  if x = completes then jump.elim completes jumps else x

/-- A break that leads out of the block has arrived behind it. -/
def caught (b : BlockId) (x : Outcome) : Outcome := if x = breaks b then completes else x

/-- Control leaves the tree by a jump, a return or an exception. -/
def IsOut : Outcome → Prop
  | jumps _ | leaves => True
  | _ => False

/-- The block around has nothing to do with how control goes on. -/
def Clears (b : BlockId) (x : Outcome) : Prop := x ≠ completes ∧ x ≠ breaks b ∧ x ≠ continues b

theorem IsOut.clears {x : Outcome} (h : x.IsOut) (b : BlockId) : x.Clears b := by
  cases x with
  | jumps | leaves => simp [Clears]
  | completes | breaks | continues => exact h.elim

/-- The loop goes on. -/
def GoesOn (b : BlockId) (x : Outcome) : Prop := x = completes ∨ x = continues b

instance (b : BlockId) (x : Outcome) : Decidable (x.GoesOn b) := inferInstanceAs (Decidable (_ ∨ _))

@[simp] theorem via_none (x : Outcome) : x.via none = x := by
  rw [via]
  split
  next h => exact h.symm
  next => rfl

@[simp] theorem via_completes (jump : Option FlowId) :
    completes.via jump = jump.elim completes jumps := if_pos rfl

theorem via_of_ne {x : Outcome} (h : x ≠ completes) (jump : Option FlowId) : x.via jump = x := if_neg h

end Outcome

/-- What the statements, conditions and selectors of a method do. -/
structure Interp (σ ε : Type) where
  leaf : BlockId → Kind → Proc σ ε Unit
  /-- The initializer of a loop. -/
  start : ExprId → Proc σ ε Unit
  branch : ExprId → Proc σ ε Bool
  /-- The condition of a loop. -/
  loop : ExprId → Proc σ ε Bool
  select : ExprId → Proc σ ε Int

namespace Proc

variable {σ ε : Type} {P Q : Proc σ ε Outcome} {l l' : List (Proc σ ε Outcome)}

/-- No run gets anywhere. -/
def stuck : Proc σ ε Outcome where
  does _ es r := es = [] ∧ r = none
  idle _ := ⟨rfl, rfl⟩
  cut h := nomatch h.2

def skip : Proc σ ε Outcome := pure .completes

def andThen (P Q : Proc σ ε Outcome) : Proc σ ε Outcome :=
  P >>= fun x ↦ if x = .completes then Q else pure x

/-- One after the other, as long as they complete. -/
def inOrder : List (Proc σ ε Outcome) → Proc σ ε Outcome
  | [] => skip
  | P :: l => P.andThen (inOrder l)

@[simp] theorem inOrder_nil : inOrder ([] : List (Proc σ ε Outcome)) = skip := rfl

@[simp] theorem inOrder_cons : inOrder (P :: l) = P.andThen (inOrder l) := rfl

@[simp] theorem skip_andThen (Q : Proc σ ε Outcome) : skip.andThen Q = Q := by
  rw [skip, andThen, pure_bind, if_pos rfl]

@[simp] theorem andThen_skip (P : Proc σ ε Outcome) : P.andThen skip = P := by
  have : (fun x : Outcome ↦ if x = .completes then skip else pure x) =
      (pure : Outcome → Proc σ ε Outcome) := by
    funext x
    split
    next h => rw [h, skip]
    next => rfl
  rw [andThen, this, bind_pure]

theorem andThen_assoc (P Q R : Proc σ ε Outcome) :
    (P.andThen Q).andThen R = P.andThen (Q.andThen R) := by
  rw [andThen, andThen, bind_assoc]
  congr 1
  funext x
  by_cases hx : x = .completes
  · simp [hx, andThen]
  · simp [hx]

theorem inOrder_append : inOrder (l ++ l') = (inOrder l).andThen (inOrder l') := by
  induction l with
  | nil => simp
  | cons P l ih => rw [List.cons_append, inOrder_cons, ih, inOrder_cons, andThen_assoc]

section Loop

variable (b : BlockId)

/-- Goes on with `K` or is done. -/
def next (K : Proc σ ε (Unit ⊕ Outcome)) (x : Outcome) : Proc σ ε (Unit ⊕ Outcome) :=
  if x.GoesOn b then K else pure (.inr (x.caught b))

/-- Starts over if the test holds. -/
def again (test : Proc σ ε Bool) : Proc σ ε (Unit ⊕ Outcome) :=
  test >>= fun v ↦ pure (if v then .inl () else .inr .completes)

def whileStep (test : Proc σ ε Bool) (body incr : Proc σ ε Outcome) : Proc σ ε (Unit ⊕ Outcome) :=
  test >>= fun v ↦
    if v then body >>= next b (incr >>= next b (pure (.inl ()))) else pure (.inr .completes)

def doStep (test : Proc σ ε Bool) (body : Proc σ ε Outcome) : Proc σ ε (Unit ⊕ Outcome) :=
  body >>= next b (again test)

def looping (kind : LoopKind) (test : Proc σ ε Bool) (body incr : Proc σ ε Outcome) :
    Proc σ ε Outcome :=
  iterate (fun _ : Unit ↦ if kind = .doWhile then doStep b test body
    else whileStep b test body incr) ()

end Loop

end Proc

/-- The number of the case that is entered, the default if there is none for the value. -/
def entryCase (n : Int) (values : List (Option CaseValue)) : Nat :=
  if some (.value n) ∈ values then values.idxOf (some (.value n))
  else values.idxOf (some .default)

section Act

variable {σ ε : Type} (I : Interp σ ε)

/-- What a block does, given what its parts do. -/
def act (b : BlockId) (k : Kind) (values : List (Option CaseValue)) (l : List (Proc σ ε Outcome)) :
    Proc σ ε Outcome :=
  match k with
  | .empty => .skip
  | .evaluate .. | .shuffle _ => I.leaf b k >>= fun _ ↦ pure .completes
  | .returns _ | .throws _ => I.leaf b k >>= fun _ ↦ pure .leaves
  | .sequence => .inOrder l
  | .conditional c | .ifElse c => I.branch c >>= fun v ↦ l.getD (if v then 0 else 1) .skip
  | .loop kind c init _ =>
    init.elim (pure ()) I.start >>= fun _ ↦
      .looping b kind (I.loop c) (l.getD 0 .skip) (l.getD 1 .skip)
  | .switch selector _ =>
    I.select selector >>= fun n ↦ Outcome.caught b <$> .inOrder (l.drop (entryCase n values))
  | .switchCase .. | .tryCatch | .catchClause .. | .finallyClause | .synchronized .. =>
    l.getD 0 .skip
  | .breakTo target _ => pure (.breaks target)
  | .continueTo target _ => pure (.continues target)
  | .jsr | .ret _ | .description _ => .stuck

end Act

namespace Tree

def caseValue : Tree → Option CaseValue
  | node _ _ (.switchCase value _) _ => some value
  | _ => none

/-- What a tree does. -/
def run {σ ε : Type} (I : Interp σ ε) (destination : JumpId → FlowId) : Tree → Proc σ ε Outcome
  | node b e k l =>
    Outcome.via (e.map destination) <$> act I b k (l.map caseValue) (l.map (run I destination))

theorem run_node {σ ε : Type} (I : Interp σ ε) (destination : JumpId → FlowId) (b : BlockId)
    (e : Option JumpId) (k : Kind) (l : List Tree) :
    (node b e k l).run I destination = Outcome.via (e.map destination) <$>
      act I b k (l.map caseValue) (l.map (run I destination)) := by
  rw [run]

end Tree

namespace Frame

/-- An exit of the hole is an exit of the block around it, its jump aside. -/
def Hands (F : Frame) (x z : Outcome) : Prop :=
  match x with
  | .completes => F.Ends ∧ z = .completes
  | .breaks target => z = if F.kind.isBreakable ∧ target = F.id then .completes else .breaks target
  | .continues target => ¬ (F.kind.isLoop ∧ target = F.id) ∧ z = .continues target
  | .jumps d => z = .jumps d
  | .leaves => z = .leaves

/-- Two exits of the hole, as good as each other to what is around. -/
def Agree (F : Frame) (R : Outcome → Outcome → Prop) (x x' : Outcome) : Prop :=
  x = x' ∨ ∃ z z', F.Hands x z ∧ F.Hands x' z' ∧ R z z'

/-- The same, with the jump of the block taken. -/
def Allows (destination : JumpId → FlowId) (F : Frame) (R : Outcome → Outcome → Prop) : Outcome → Outcome → Prop :=
  F.Agree fun z z' ↦ R (z.via (F.jump.map destination)) (z'.via (F.jump.map destination))

variable {F : Frame} {x z : Outcome}

theorem Hands.eq (h : F.Hands x z) (hb : F.kind.isBreakable = false) :
    z = x ∧ (x = .completes → F.Ends) := by
  cases x <;> simp_all [Hands]

theorem isBreakable_of_isLoop (h : F.kind.isLoop = true) : F.kind.isBreakable = true := by
  cases hk : F.kind with
  | loop => rfl
  | _ => simp [hk, Kind.isLoop] at h

theorem not_ends_of_isLoop (h : F.kind.isLoop = true) : ¬ F.Ends := by
  rw [Ends]
  cases hk : F.kind with
  | loop => exact not_false
  | _ => simp [hk, Kind.isLoop] at h

end Frame

variable {kind : LoopKind} {vs : List (Option CaseValue)}

section Fill

open Proc

variable {σ ε : Type} {I : Interp σ ε} {destination : JumpId → FlowId} {F : Frame} {B B' : Tree}
  {R R' : Outcome → Outcome → Prop} {P P' : Proc σ ε Outcome} {bs as : List (Proc σ ε Outcome)} {b : BlockId}

theorem sim_hole (hb : F.kind.isBreakable = false) (hR : ∀ x, R x x) (h : Sim (F.Agree R) P P') :
    Sim R P P' :=
  h.mono fun x x' _ _ hx ↦ by
    rcases hx with rfl | ⟨z, z', hz, hz', hzz⟩
    · exact hR x
    · rwa [(hz.eq hb).1, (hz'.eq hb).1] at hzz

theorem getD_append_cons {α : Type} (bs : List α) (P Q : α) (as : List α) (i : Nat) (d : α) :
    (bs ++ P :: as).getD i d = if i = bs.length then P else (bs ++ Q :: as).getD i d := by
  by_cases h : i = bs.length
  · subst h
    simp
  · rw [if_neg h]
    rcases Nat.lt_or_gt_of_ne h with h | h
    · simp [List.getElem?_append_left h]
    · rw [List.getD, List.getD, List.getElem?_append_right h.le, List.getElem?_append_right h.le]
      obtain ⟨n, hn⟩ := Nat.exists_eq_add_of_lt h
      simp [hn, Nat.add_assoc]

theorem sim_getD (hR : ∀ x, R x x) (h : Sim R P P') (i : Nat) :
    Sim R ((bs ++ P :: as).getD i skip) ((bs ++ P' :: as).getD i skip) := by
  rw [getD_append_cons bs P P' as i]
  split
  next hi => simpa [hi] using h
  next => exact .refl hR _

theorem nil_or_ne {x x' : Outcome} (hx : x = .completes → as = []) (hx' : x' = .completes → as = []) :
    as = [] ∨ x ≠ .completes ∧ x' ≠ .completes := by
  by_cases h : as = []
  · exact .inl h
  · exact .inr ⟨fun hc ↦ h (hx hc), fun hc ↦ h (hx' hc)⟩

theorem sim_inOrder (hR : ∀ x, R x x)
    (h : Sim (fun x x' ↦ x = x' ∨ R x x' ∧ (as = [] ∨ x ≠ .completes ∧ x' ≠ .completes)) P P') :
    Sim R (inOrder (bs ++ P :: as)) (inOrder (bs ++ P' :: as)) := by
  rw [inOrder_append, inOrder_append]
  refine Sim.bind_right _ fun y _ ↦ ?_
  split
  · refine h.bind fun x x' hx ↦ ?_
    rcases hx with rfl | ⟨hx, rfl | ⟨hc, hc'⟩⟩
    · exact .refl hR _
    · have hskip (y : Outcome) : (if y = .completes then inOrder [] else pure y) =
          (pure y : Proc σ ε Outcome) := by
        split
        next hy => rw [hy]; rfl
        next => rfl
      rw [hskip, hskip]
      exact .pure hx
    · rw [if_neg hc, if_neg hc']
      exact .pure hx
  · exact .pure (hR y)

theorem sim_drop (hR : ∀ x, R x x)
    (h : Sim (fun x x' ↦ x = x' ∨ R x x' ∧ (as = [] ∨ x ≠ .completes ∧ x' ≠ .completes)) P P')
    (n : Nat) : Sim R (inOrder ((bs ++ P :: as).drop n)) (inOrder ((bs ++ P' :: as).drop n)) := by
  rcases Nat.lt_or_ge bs.length n with hn | hn
  · obtain ⟨m, rfl⟩ := Nat.exists_eq_add_of_lt hn
    have hdrop (Q : Proc σ ε Outcome) : (bs ++ Q :: as).drop (bs.length + m + 1) = as.drop m := by
      rw [Nat.add_assoc]
      simp
    rw [hdrop, hdrop]
    exact .refl hR _
  · rw [List.drop_append_of_le_length hn, List.drop_append_of_le_length hn]
    exact sim_inOrder hR h

section Loop

variable {K K' : Proc σ ε (Unit ⊕ Outcome)}

theorem sim_next (hk : F.kind.isLoop = true) {x x' : Outcome} (hx : F.Agree R x x') (hR : ∀ x, R x x)
    (hK : Sim (Sum.LiftRel (fun _ _ ↦ True) R) K K') :
    Sim (Sum.LiftRel (fun _ _ ↦ True) R) (next F.id K x) (next F.id K' x') := by
  have hpass : ∀ (K : Proc σ ε (Unit ⊕ Outcome)) x z, F.Hands x z →
      next F.id K x = pure (.inr z) := by
    intro K x z hz
    have hb := Frame.isBreakable_of_isLoop hk
    have he := Frame.not_ends_of_isLoop hk
    cases x <;> simp_all [Frame.Hands, next, Outcome.GoesOn, Outcome.caught]
  rcases hx with rfl | ⟨z, z', hz, hz', hzz⟩
  · rw [next, next]
    split
    · exact hK
    · exact .pure (.inr (hR _))
  · rw [hpass K x z hz, hpass K' x' z' hz']
    exact .pure (.inr hzz)

theorem liftRel_refl (hR : ∀ x, R x x) (x : Unit ⊕ Outcome) : Sum.LiftRel (fun _ _ ↦ True) R x x := by
  cases x with
  | inl => exact .inl trivial
  | inr x => exact .inr (hR x)

theorem sim_looping {test : Proc σ ε Bool} {incr incr' : Proc σ ε Outcome}
    (hk : F.kind.isLoop = true) (hR : ∀ x, R x x) (h : Sim (F.Agree R) P P')
    (hi : Sim (F.Agree R) incr incr') :
    Sim R (looping F.id kind test P incr) (looping F.id kind test P' incr') := by
  refine Sim.iterate (R := fun _ _ ↦ True) (fun _ _ _ ↦ ?_) trivial
  split
  · exact h.bind fun x x' hx ↦ sim_next hk hx hR (.refl (liftRel_refl hR) _)
  · refine Sim.bind_right _ fun v _ ↦ ?_
    split
    · exact h.bind fun x x' hx ↦ sim_next hk hx hR
        (hi.bind fun y y' hy ↦ sim_next hk hy hR (.refl (liftRel_refl hR) _))
    · exact .pure (liftRel_refl hR _)

end Loop

theorem Frame.agree_refl (F : Frame) (R : Outcome → Outcome → Prop) (x : Outcome) : F.Agree R x x := .inl rfl

theorem sim_act (hR : ∀ x, R x x) (has : F.after = [] → as = []) (h : Sim (F.Agree R) P P') :
    Sim R (act I F.id F.kind vs (bs ++ P :: as)) (act I F.id F.kind vs (bs ++ P' :: as)) := by
  have hpart (hb : F.kind.isBreakable = false) (i : Nat) :
      Sim R ((bs ++ P :: as).getD i skip) ((bs ++ P' :: as).getD i skip) :=
    sim_getD hR (sim_hole hb hR h) i
  cases hk : F.kind with
  | sequence =>
    refine sim_inOrder hR (h.mono fun x x' _ _ hx ↦ ?_)
    rcases hx with rfl | ⟨z, z', hz, hz', hzz⟩
    · exact .inl rfl
    · have hb : F.kind.isBreakable = false := by rw [hk]; rfl
      have hends (he : F.Ends) : as = [] := has (by simpa [Frame.Ends, hk] using he)
      obtain ⟨rfl, hx⟩ := hz.eq hb
      obtain ⟨rfl, hx'⟩ := hz'.eq hb
      exact .inr ⟨hzz, nil_or_ne (hends ∘ hx) (hends ∘ hx')⟩
  | conditional c | ifElse c =>
    exact Sim.bind_right _ fun v _ ↦ hpart (by rw [hk]; rfl) _
  | loop kind c init labeled =>
    exact Sim.bind_right _ fun _ _ ↦ sim_looping (by rw [hk]; rfl) hR
      (sim_getD (F.agree_refl R) h 0) (sim_getD (F.agree_refl R) h 1)
  | switch selector labeled =>
    refine Sim.bind_right _ fun n _ ↦ ?_
    have hcaught : Sim (fun x x' ↦ R (x.caught F.id) (x'.caught F.id))
        (inOrder ((bs ++ P :: as).drop (entryCase n vs)))
        (inOrder ((bs ++ P' :: as).drop (entryCase n vs))) := by
      refine sim_drop (R := fun x x' ↦ R (x.caught F.id) (x'.caught F.id)) (fun x ↦ hR _)
        (h.mono fun x x' _ _ hx ↦ ?_) _
      rcases hx with rfl | ⟨z, z', hz, hz', hzz⟩
      · exact .inl rfl
      · have hands {x z : Outcome} (hz : F.Hands x z) :
            z = x.caught F.id ∧ (x = .completes → as = []) := by
          cases x <;>
            simp_all [Frame.Hands, Frame.Ends, Outcome.caught, Kind.isBreakable]
        obtain ⟨rfl, hx⟩ := hands hz
        obtain ⟨rfl, hx'⟩ := hands hz'
        exact .inr ⟨hzz, nil_or_ne hx hx'⟩
    exact hcaught.bind fun x x' hx ↦ .pure hx
  | switchCase | tryCatch | catchClause | finallyClause | synchronized =>
    exact hpart (by rw [hk]; rfl) 0
  | empty | evaluate | returns | throws | breakTo | continueTo | shuffle | jsr | ret
  | description => exact .refl hR _

theorem act_values {vs' : List (Option CaseValue)} {k : Kind} {l : List (Proc σ ε Outcome)}
    (h : k.isSwitch → vs = vs') : act I b k vs l = act I b k vs' l := by
  cases k with
  | switch selector labeled => rw [h rfl]
  | _ => rfl

theorem run_fill (F : Frame) (B : Tree) : (F.fill B).run I destination =
    Outcome.via (F.jump.map destination) <$> act I F.id F.kind
      (F.before.map Tree.caseValue ++ B.caseValue :: F.after.map Tree.caseValue)
      (F.before.map (Tree.run I destination) ++ B.run I destination ::
        F.after.map (Tree.run I destination)) := by
  rw [Frame.fill, Tree.run_node, List.map_append, List.map_cons, List.map_append, List.map_cons]

theorem sim_fill (hR : ∀ x, R x x) (hv : F.kind.isSwitch → B.caseValue = B'.caseValue)
    (h : Sim (F.Allows destination R) (B.run I destination) (B'.run I destination)) :
    Sim R ((F.fill B).run I destination) ((F.fill B').run I destination) := by
  rw [run_fill, run_fill, act_values fun hs ↦ by rw [hv hs]]
  have hnil (he : F.after = []) : F.after.map (Tree.run I destination) = [] := by
    rw [he, List.map_nil]
  exact Sim.bind (sim_act (R := fun z z' ↦ R (z.via (F.jump.map destination))
    (z'.via (F.jump.map destination))) (fun x ↦ hR _) hnil h) fun x x' hx ↦ .pure hx

theorem caseValue_fill (F : Frame) (B B' : Tree) : (F.fill B).caseValue = (F.fill B').caseValue := by
  obtain ⟨id, jump, kind, before, after⟩ := F
  cases kind <;> rfl

/-- Nothing but the value of a case shows in a switch around it. -/
def SameCase (C : List Frame) (B B' : Tree) : Prop :=
  ∀ F ∈ C.head?, F.kind.isSwitch → B.caseValue = B'.caseValue

theorem SameCase.tail {C : List Frame} (F : Frame) (B B' : Tree) :
    SameCase C (F.fill B) (F.fill B') :=
  fun _ _ _ ↦ caseValue_fill F B B'

theorem sim_plug {C : List Frame} (hR : ∀ x, R x x) (hv : SameCase C B B')
    (hC : ∀ F ∈ C, ∀ x x', R x x' → F.Allows destination R x x')
    (h : Sim R (B.run I destination) (B'.run I destination)) :
    Sim R ((plug C B).run I destination) ((plug C B').run I destination) := by
  induction C generalizing B B' with
  | nil => exact h
  | cons F C ih =>
    refine ih (.tail F B B') (fun G hG ↦ hC G (List.mem_cons_of_mem F hG)) ?_
    exact sim_fill hR (hv F rfl) (h.mono fun x x' _ _ hx ↦ hC F List.mem_cons_self x x' hx)

theorem SameCase.symm {C : List Frame} (h : SameCase C B B') : SameCase C B' B :=
  fun F hF hk ↦ (h F hF hk).symm

theorem SameCase.left {C D : List Frame} (h : SameCase (C ++ D) B B') : SameCase C B B' := by
  cases C with
  | nil => exact fun _ hF ↦ nomatch hF
  | cons => exact h

theorem SameCase.right {C D : List Frame} (h : SameCase (C ++ D) B B') :
    SameCase D (plug C B) (plug C B') := by
  induction C generalizing B B' with
  | nil => exact h
  | cons F C ih => exact ih (.tail F B B')

theorem alike_fill (hR : ∀ x, R x x) (hv : F.kind.isSwitch → B.caseValue = B'.caseValue)
    (h : Alike R' (B.run I destination) (B'.run I destination))
    (hF : ∀ x x', R' x x' → F.Allows destination R x x') :
    Alike R ((F.fill B).run I destination) ((F.fill B').run I destination) :=
  ⟨sim_fill hR hv (h.there.mono fun x x' _ _ ↦ hF x x'),
    sim_fill hR (fun hk ↦ (hv hk).symm) (h.back.mono fun x x' _ _ ↦ hF x x')⟩

theorem alike_plug {C : List Frame} (hR : ∀ x, R x x) (hv : SameCase C B B')
    (hC : ∀ F ∈ C, ∀ x x', R x x' → F.Allows destination R x x')
    (h : Alike R (B.run I destination) (B'.run I destination)) :
    Alike R ((plug C B).run I destination) ((plug C B').run I destination) :=
  ⟨sim_plug hR hv hC h.there, sim_plug hR hv.symm hC h.back⟩

theorem run_plug_congr {C : List Frame} (hv : SameCase C B B')
    (h : B.run I destination = B'.run I destination) :
    (plug C B).run I destination = (plug C B').run I destination := by
  induction C generalizing B B' with
  | nil => exact h
  | cons F C ih =>
    refine ih (.tail F B B') ?_
    rw [run_fill, run_fill, act_values fun hs ↦ by rw [hv F rfl hs], h]

end Fill

section Nodes

open Proc

variable {σ ε : Type} {I : Interp σ ε} {destination : JumpId → FlowId} {b q : BlockId}
  {e : Option JumpId} {k : Kind} {c : ExprId} {l : List Tree} {P Q : Tree}

@[simp] theorem via_none_map (M : Proc σ ε Outcome) : Outcome.via none <$> M = M := by
  have hid : Outcome.via none = id := funext Outcome.via_none
  rw [hid, id_map]

@[simp] theorem run_empty : (Tree.node b e .empty l).run I destination =
    pure (Outcome.completes.via (e.map destination)) := by
  rw [Tree.run_node, act, skip, map_pure]

@[simp] theorem run_sequence : (Tree.node q none .sequence [P, Q]).run I destination =
    (P.run I destination).andThen (Q.run I destination) := by
  rw [Tree.run_node, act]
  simp

theorem run_branch (hk : k = .conditional c ∨ k = .ifElse c) :
    (Tree.node b none k l).run I destination = I.branch c >>= fun v ↦
      (l.map (Tree.run I destination)).getD (if v then 0 else 1) skip := by
  rcases hk with rfl | rfl <;> rw [Tree.run_node, act, Option.map_none, via_none_map]

@[simp] theorem run_conditional : (Tree.node b none (.conditional c) [P]).run I destination =
    I.branch c >>= fun v ↦ if v then P.run I destination else skip := by
  rw [run_branch (.inl rfl)]
  congr 1
  funext v
  cases v <;> rfl

@[simp] theorem run_if : (Tree.node b none (.ifElse c) [P]).run I destination =
    I.branch c >>= fun v ↦ if v then P.run I destination else skip := by
  rw [run_branch (.inr rfl)]
  congr 1
  funext v
  cases v <;> rfl

@[simp] theorem run_ifElse : (Tree.node b none (.ifElse c) [P, Q]).run I destination =
    I.branch c >>= fun v ↦ if v then P.run I destination else Q.run I destination := by
  rw [run_branch (.inr rfl)]
  congr 1
  funext v
  cases v <;> rfl

@[simp] theorem run_case {v : CaseValue} {through : Bool} :
    (Tree.node b none (.switchCase v through) [P]).run I destination = P.run I destination := by
  rw [Tree.run_node, Option.map_none, via_none_map]
  rfl

theorem run_withJump (T : Tree) (e : Option JumpId) : (T.withJump e).run I destination =
    Outcome.via (e.map destination) <$> (T.withJump none).run I destination := by
  rw [Tree.withJump_eq, Tree.withJump_eq, Tree.run_node, Tree.run_node, Option.map_none,
    via_none_map]

theorem withJump_self (T : Tree) : T.withJump T.jump = T := by
  cases T
  rfl

theorem run_jump (T : Tree) : T.run I destination =
    Outcome.via (T.jump.map destination) <$> (T.withJump none).run I destination := by
  rw [← run_withJump, withJump_self]

theorem run_test : (Tree.node b e (.conditional c) [P]).run I destination =
    I.branch c >>= fun v ↦ Outcome.via (e.map destination) <$>
      if v then P.run I destination else skip := by
  rw [run_jump]
  change Outcome.via (e.map destination) <$> (Tree.node b none _ _).run I destination = _
  rw [run_conditional, map_bind]

theorem andThen_pure (R : Proc σ ε Outcome) (e : Option FlowId) :
    R.andThen (pure (Outcome.completes.via e)) = Outcome.via e <$> R := by
  rw [andThen, map_eq]
  congr 1
  funext x
  split
  next hx => rw [hx]
  next hx => rw [Outcome.via_of_ne hx]

theorem run_label {labeled : Bool} : (Tree.node b e (k.labelIf labeled) l).run I destination =
    (Tree.node b e k l).run I destination := by
  rw [Tree.run_node, Tree.run_node]
  cases labeled
  · rfl
  · cases k <;> rfl

end Nodes

section Handle

open Proc

variable {σ ε : Type} {I : Interp σ ε} {destination : JumpId → FlowId} {s : FlowId} {b : BlockId}
  {M P Q K : Proc σ ε Outcome} {B B' : Tree} {F : Frame} {C : List Frame}

/-- Goes on with `M` where a jump leads to `s`. -/
def handle (s : FlowId) (M : Proc σ ε Outcome) (x : Outcome) : Proc σ ε Outcome :=
  if x = .jumps s then M else pure x

@[simp] theorem handle_jump : handle s M (.jumps s) = M := if_pos rfl

theorem handle_of_ne {x : Outcome} (h : x ≠ .jumps s) : handle s M x = pure x := if_neg h

theorem bind_handle (h : ¬ P.Yields (.jumps s)) : P >>= handle s M = P := by
  have hp : P >>= pure = P := bind_pure P
  conv_rhs => rw [← hp]
  refine bind_eq_bind fun x hx ↦ handle_of_ne ?_
  rintro rfl
  exact h hx

section Rescue

variable {N : FlowId → Proc σ ε Outcome}

/-- Goes on with `N d` where a jump leads to `d`. -/
def rescue (N : FlowId → Proc σ ε Outcome) : Outcome → Proc σ ε Outcome
  | .jumps d => N d
  | x => pure x

theorem handle_eq_rescue : handle s M = rescue fun d ↦ if d = s then M else pure (.jumps d) := by
  funext x
  cases x with
  | jumps d =>
    rw [rescue]
    split
    next hd => rw [hd, handle_jump]
    next hd => exact handle_of_ne fun hx ↦ hd (Outcome.jumps.inj hx)
  | completes | breaks | continues | leaves => exact handle_of_ne (by simp)

@[simp] theorem rescue_jumps (d : FlowId) : rescue N (.jumps d) = N d := rfl

theorem rescue_of_ne {x : Outcome} (h : ∀ d, x ≠ .jumps d) : rescue N x = pure x := by
  cases x with
  | jumps d => exact absurd rfl (h d)
  | completes | breaks | continues | leaves => rfl

theorem pure_rescue {x : Outcome} (h : ∀ d, x ≠ .jumps d) : pure x >>= rescue N = pure x :=
  (pure_bind ..).trans (rescue_of_ne h)

theorem skip_rescue : skip >>= rescue N = skip := pure_rescue (by simp)

theorem bind_rescue (h : ∀ d, P.Yields (.jumps d) → N d = pure (.jumps d)) :
    P >>= rescue N = P := by
  have hp : P >>= pure = P := bind_pure P
  conv_rhs => rw [← hp]
  refine bind_eq_bind fun x hx ↦ ?_
  cases x with
  | jumps d => exact h d hx
  | completes | breaks | continues | leaves => rfl

theorem getD_rescue (l : List (Proc σ ε Outcome)) (i : Nat) :
    (l.map (· >>= rescue N)).getD i skip = l.getD i skip >>= rescue N := by
  rw [List.getD_eq_getElem?_getD, List.getD_eq_getElem?_getD, List.getElem?_map]
  cases l[i]? with
  | none => exact skip_rescue.symm
  | some => rfl

section Completes

variable (hN : ∀ d x, (N d).Yields x → x ≠ .completes)
include hN

theorem andThen_rescue : (P >>= rescue N).andThen (Q >>= rescue N) = P.andThen Q >>= rescue N := by
  rw [andThen, andThen, bind_assoc, bind_assoc]
  congr 1
  funext x
  cases x with
  | jumps d =>
    rw [if_neg (by simp), pure_bind]
    exact (bind_eq_bind fun y hy ↦ if_neg (hN d y hy)).trans (bind_pure (N d))
  | completes => rw [rescue_of_ne (by simp), pure_bind, if_pos rfl, if_pos rfl]
  | breaks | continues | leaves =>
    rw [rescue_of_ne (by simp), pure_bind]
    exact (pure_rescue (by simp)).symm

theorem inOrder_rescue (l : List (Proc σ ε Outcome)) :
    inOrder (l.map (· >>= rescue N)) = inOrder l >>= rescue N := by
  induction l with
  | nil => exact skip_rescue.symm
  | cons P l ih => rw [List.map_cons, inOrder_cons, inOrder_cons, ih, andThen_rescue hN]

theorem via_rescue {e : Option FlowId} (he : ∀ d, e = some d → N d = pure (.jumps d)) :
    Outcome.via e <$> (P >>= rescue N) = (Outcome.via e <$> P) >>= rescue N := by
  rw [map_eq, map_eq, bind_assoc, bind_assoc]
  congr 1
  funext x
  rw [pure_bind]
  cases x with
  | jumps d =>
    rw [Outcome.via_of_ne (by simp)]
    refine (bind_eq_bind fun y hy ↦ ?_).trans (bind_pure (N d))
    rw [Outcome.via_of_ne (hN d y hy)]
  | completes =>
    rw [rescue_of_ne (by simp), pure_bind]
    cases e with
    | none => rfl
    | some d => exact (he d rfl).symm
  | breaks | continues | leaves =>
    rw [rescue_of_ne (by simp), pure_bind, Outcome.via_of_ne (by simp), rescue_of_ne (by simp)]

end Completes

variable (hN : ∀ d x, (N d).Yields x → x.Clears b)
include hN

theorem next_rescue (K : Proc σ ε (Unit ⊕ Outcome)) (x : Outcome) :
    rescue N x >>= next b (K >>= Sum.elim (pure ∘ .inl) fun x ↦ .inr <$> rescue N x) =
      next b K x >>= Sum.elim (pure ∘ .inl) fun x ↦ .inr <$> rescue N x := by
  cases x with
  | jumps d =>
    have hnext : next b K (.jumps d) = pure (.inr (.jumps d)) := by
      simp [next, Outcome.GoesOn, Outcome.caught]
    rw [hnext, pure_bind, Sum.elim_inr, map_eq]
    refine bind_eq_bind fun y hy ↦ ?_
    obtain ⟨hends, hbreaks, hcontinues⟩ := hN d y hy
    have hgoes : ¬ y.GoesOn b := not_or.mpr ⟨hends, hcontinues⟩
    rw [next, if_neg hgoes, Outcome.caught, if_neg hbreaks]
  | completes | breaks | continues | leaves =>
    rw [rescue_of_ne (by simp), pure_bind, next, next]
    split
    · rfl
    · rw [pure_bind, Sum.elim_inr, rescue_of_ne, map_pure]
      rw [Outcome.caught]
      split <;> simp

theorem looping_rescue {test : Proc σ ε Bool} :
    looping b kind test (P >>= rescue N) (Q >>= rescue N) =
      looping b kind test P Q >>= rescue N := by
  rw [looping, looping, iterate_bind]
  congr 1
  funext u
  split
  · rw [doStep, doStep, bind_assoc, bind_assoc]
    congr 1
    funext x
    rw [← next_rescue hN]
    congr 2
    rw [again, bind_assoc]
    congr 1
    funext v
    cases v
    · simp [rescue]
    · simp
  · refine Eq.trans ?_ (bind_assoc test _ _).symm
    rw [whileStep]
    congr 1
    funext v
    cases v
    · simp [rescue]
    · simp only [if_true, bind_assoc]
      congr 1
      funext x
      rw [← next_rescue hN]
      congr 2
      rw [bind_assoc]
      congr 1
      funext y
      rw [← next_rescue hN, pure_bind]
      rfl

theorem act_rescue (k : Kind) (vs : List (Option CaseValue)) (l : List (Proc σ ε Outcome)) :
    act I b k vs (l.map (· >>= rescue N)) = act I b k vs l >>= rescue N := by
  have hends : ∀ d x, (N d).Yields x → x ≠ .completes := fun d x hx ↦ (hN d x hx).1
  cases k with
  | empty | breakTo | continueTo => exact (pure_rescue (by simp)).symm
  | evaluate | shuffle | returns | throws =>
    simp only [act, bind_assoc]
    congr 1
    funext _
    exact (pure_rescue (by simp)).symm
  | sequence => exact inOrder_rescue hends l
  | conditional c | ifElse c =>
    simp only [act, bind_assoc]
    congr 1
    funext v
    exact getD_rescue l _
  | loop kind c init labeled =>
    simp only [act, bind_assoc]
    congr 1
    funext _
    rw [getD_rescue, getD_rescue, looping_rescue hN]
  | switch selector labeled =>
    simp only [act, bind_assoc]
    congr 1
    funext n
    rw [← List.map_drop, inOrder_rescue hends, map_eq, map_eq, bind_assoc, bind_assoc]
    congr 1
    funext x
    rw [pure_bind]
    cases x with
    | jumps d =>
      rw [Outcome.caught]
      refine (bind_eq_bind fun y hy ↦ ?_).trans (bind_pure (N d))
      rw [Outcome.caught, if_neg (hN d y hy).2.1]
    | completes | breaks | continues | leaves =>
      rw [rescue_of_ne (by simp), pure_bind, rescue_of_ne]
      rw [Outcome.caught]
      split <;> simp
  | switchCase | tryCatch | catchClause | finallyClause | synchronized => exact getD_rescue l 0
  | jsr | ret | description =>
    refine Proc.ext fun t es r ↦ ⟨?_, ?_⟩
    · rintro ⟨rfl, rfl⟩
      exact .cut ⟨rfl, rfl⟩
    · rintro (⟨rfl, -⟩ | ⟨⟨-, h⟩, -⟩)
      · exact ⟨rfl, rfl⟩
      · cases h

end Rescue

theorem run_fill_handle (hM : ∀ x, M.Yields x → x.Clears F.id)
    (hs : ∀ x ∈ F.before ++ F.after, ¬ (x.run I destination).Yields (.jumps s))
    (hj : F.jump.map destination ≠ some s) (hv : F.kind.isSwitch → B.caseValue = B'.caseValue)
    (h : B'.run I destination = B.run I destination >>= handle s M) :
    (F.fill B').run I destination = (F.fill B).run I destination >>= handle s M := by
  have hmap (l : List Tree) (hl : ∀ x ∈ l, ¬ (x.run I destination).Yields (.jumps s)) :
      l.map (Tree.run I destination) = (l.map (Tree.run I destination)).map (· >>= handle s M) := by
    rw [List.map_map]
    exact List.map_congr_left fun x hx ↦ (bind_handle (hl x hx)).symm
  have hN : ∀ d x, (if d = s then M else pure (.jumps d)).Yields x → x.Clears F.id := by
    intro d x hx
    split at hx
    · exact hM x hx
    · rw [yields_pure hx]
      exact Outcome.IsOut.clears (x := .jumps d) trivial F.id
  rw [run_fill, run_fill, handle_eq_rescue, ← via_rescue (fun d x hx ↦ (hN d x hx).1) fun d hd ↦ ?_,
    ← act_rescue hN, ← handle_eq_rescue, List.map_append, List.map_cons,
    ← hmap _ fun x hx ↦ hs x (List.mem_append_left _ hx),
    ← hmap _ fun x hx ↦ hs x (List.mem_append_right _ hx), h,
    act_values fun hk ↦ by rw [← hv hk]]
  exact if_neg fun hds ↦ hj (hd.trans (congrArg some hds))

theorem run_plug_handle (hM : ∀ F ∈ C, ∀ x, M.Yields x → x.Clears F.id)
    (hs : ∀ F ∈ C, ∀ x ∈ F.before ++ F.after, ¬ (x.run I destination).Yields (.jumps s))
    (hj : ∀ F ∈ C, F.jump.map destination ≠ some s) (hv : SameCase C B B')
    (h : B'.run I destination = B.run I destination >>= handle s M) :
    (plug C B').run I destination = (plug C B).run I destination >>= handle s M := by
  induction C generalizing B B' with
  | nil => exact h
  | cons F C ih =>
    refine ih (fun G hG ↦ hM G (List.mem_cons_of_mem F hG))
      (fun G hG ↦ hs G (List.mem_cons_of_mem F hG))
      (fun G hG ↦ hj G (List.mem_cons_of_mem F hG)) (.tail F B B') ?_
    exact run_fill_handle (hM F List.mem_cons_self) (hs F List.mem_cons_self)
      (hj F List.mem_cons_self) (hv F rfl) h

end Handle

section Yields

open Proc

variable {σ ε : Type} {I : Interp σ ε} {destination : JumpId → FlowId} {x : Outcome}

variable {d : FlowId}

theorem Proc.Yields.of_map {α β : Type} {g : α → β} {P : Proc σ ε α} {y : β}
    (h : (g <$> P).Yields y) : ∃ x, P.Yields x ∧ y = g x := by
  obtain ⟨x, hx, hy⟩ := Yields.of_bind h
  exact ⟨x, hx, yields_pure hy⟩

theorem yields_andThen {P Q : Proc σ ε Outcome} (h : P.Yields x) (hx : x ≠ .completes) :
    (P.andThen Q).Yields x := by
  obtain ⟨s, es, s', h⟩ := h
  refine ⟨s, es ++ [], s', .next h ?_⟩
  rw [if_neg hx]
  exact ⟨rfl, .inr rfl⟩

theorem Proc.Yields.of_iterate_from {α β : Type} {step : α → Proc σ ε (α ⊕ β)} {a : α} {y : β}
    {p : α → Prop} (hp : ∀ a, p a → ∀ a', (step a).Yields (.inl a') → p a') (ha : p a)
    (h : (iterate step a).Yields y) : ∃ a, p a ∧ (step a).Yields (.inr y) := by
  obtain ⟨s, es, s', h⟩ := h
  generalize hr : some (y, s') = r at h
  induction h with
  | idle | cut => cases hr
  | done h =>
    cases hr
    exact ⟨_, ha, _, _, _, h⟩
  | again h _ ih => exact ih (hp _ ha _ ⟨_, _, _, h⟩) hr

theorem Proc.Yields.of_iterate {α β : Type} {step : α → Proc σ ε (α ⊕ β)} {a : α} {y : β}
    (h : (iterate step a).Yields y) : ∃ a, (step a).Yields (.inr y) := by
  obtain ⟨a, -, h⟩ := h.of_iterate_from (fun _ _ _ _ ↦ trivial) trivial
  exact ⟨a, h⟩

theorem yields_inOrder {l : List (Proc σ ε Outcome)} (h : (inOrder l).Yields x) :
    x = .completes ∨ ∃ P ∈ l, P.Yields x := by
  induction l with
  | nil => exact .inl (yields_pure h)
  | cons P l ih =>
    obtain ⟨y, hy, hx⟩ := h.of_bind
    split at hx
    · exact (ih hx).imp_right fun ⟨Q, hQ, hx⟩ ↦ ⟨Q, List.mem_cons_of_mem P hQ, hx⟩
    · obtain rfl := yields_pure hx
      exact .inr ⟨P, List.mem_cons_self, hy⟩

theorem yields_getD {l : List (Proc σ ε Outcome)} {i : Nat} (h : (l.getD i skip).Yields x) :
    x = .completes ∨ ∃ P ∈ l, P.Yields x := by
  rw [List.getD_eq_getElem?_getD] at h
  cases hi : l[i]? with
  | none =>
    rw [hi] at h
    exact .inl (yields_pure h)
  | some P =>
    rw [hi] at h
    exact .inr ⟨P, List.mem_of_getElem? hi, h⟩

theorem yields_next {b : BlockId} {K : Proc σ ε (Unit ⊕ Outcome)} {y : Outcome}
    (h : (next b K y).Yields (.inr x)) : K.Yields (.inr x) ∨ x = .completes ∨ x = y := by
  rw [next] at h
  split at h
  · exact .inl h
  · have hx := Sum.inr.inj (yields_pure h)
    rw [Outcome.caught] at hx
    split at hx
    · exact .inr (.inl hx)
    · exact .inr (.inr hx)

theorem yields_looping {b : BlockId} {test : Proc σ ε Bool} {body incr : Proc σ ε Outcome}
    (h : (looping b kind test body incr).Yields x) :
    x = .completes ∨ body.Yields x ∨ incr.Yields x := by
  obtain ⟨_, h⟩ := h.of_iterate
  split at h
  · obtain ⟨y, hy, h⟩ := h.of_bind
    rcases yields_next h with h | rfl | rfl
    · obtain ⟨v, -, h⟩ := h.of_bind
      cases v
      · exact .inl (Sum.inr.inj (yields_pure h))
      · exact nomatch yields_pure h
    · exact .inl rfl
    · exact .inr (.inl hy)
  · obtain ⟨v, -, h⟩ := h.of_bind
    cases v
    · exact .inl (Sum.inr.inj (yields_pure h))
    · obtain ⟨y, hy, h⟩ := h.of_bind
      rcases yields_next h with h | rfl | rfl
      · obtain ⟨z, hz, h⟩ := h.of_bind
        rcases yields_next h with h | rfl | rfl
        · exact nomatch yields_pure h
        · exact .inl rfl
        · exact .inr (.inr hz)
      · exact .inl rfl
      · exact .inr (.inl hy)

theorem yields_act {b : BlockId} {k : Kind} {l : List (Proc σ ε Outcome)}
    (h : (act I b k vs l).Yields (.jumps d)) : ∃ P ∈ l, P.Yields (.jumps d) := by
  cases k with
  | empty | breakTo | continueTo => exact nomatch yields_pure h
  | evaluate | shuffle | returns | throws =>
    obtain ⟨_, -, h⟩ := h.of_bind
    exact nomatch yields_pure h
  | sequence => exact (yields_inOrder h).resolve_left nofun
  | conditional c | ifElse c =>
    obtain ⟨v, -, h⟩ := h.of_bind
    exact (yields_getD h).resolve_left nofun
  | loop kind c init labeled =>
    obtain ⟨_, -, h⟩ := h.of_bind
    rcases (yields_looping h).resolve_left nofun with h | h
    · exact (yields_getD h).resolve_left nofun
    · exact (yields_getD h).resolve_left nofun
  | switch selector labeled =>
    obtain ⟨n, -, h⟩ := h.of_bind
    obtain ⟨y, hy, hd⟩ := Yields.of_map h
    rw [Outcome.caught] at hd
    split at hd
    · cases hd
    · subst hd
      obtain ⟨P, hP, hy⟩ := (yields_inOrder hy).resolve_left nofun
      exact ⟨P, List.mem_of_mem_drop hP, hy⟩
  | switchCase | tryCatch | catchClause | finallyClause | synchronized =>
    exact (yields_getD h).resolve_left nofun
  | jsr | ret | description =>
    obtain ⟨_, _, _, -, h⟩ := h
    cases h

theorem held_of_yields {T : Tree} (h : (T.run I destination).Yields (.jumps d)) :
    ∃ b j, (b, j) ∈ T.held ∧ destination j = d := by
  induction T with
  | node b e k l ih =>
    rw [Tree.run_node] at h
    obtain ⟨y, hy, hd⟩ := Yields.of_map h
    by_cases hc : y = .completes
    · subst hc
      cases e with
      | none => simp at hd
      | some j =>
        obtain rfl : d = destination j := by simpa using hd
        exact ⟨b, j, by simp [Tree.held], rfl⟩
    · rw [Outcome.via_of_ne hc] at hd
      subst hd
      obtain ⟨P, hP, hd⟩ := yields_act hy
      obtain ⟨t, ht, rfl⟩ := List.mem_map.mp hP
      obtain ⟨b', j, hj, rfl⟩ := ih t ht hd
      exact ⟨b', j, by simpa [Tree.held] using .inr ⟨t, ht, hj⟩, rfl⟩

theorem run_plug_of_held {s : FlowId} {M : Proc σ ε Outcome} {B B' : Tree} {C : List Frame}
    (hM : ∀ F ∈ C, ∀ x, M.Yields x → x.Clears F.id)
    (hheld : ∀ b j, (b, j) ∈ C.flatMap Frame.held → destination j ≠ s) (hv : SameCase C B B')
    (h : B'.run I destination = B.run I destination >>= handle s M) :
    (plug C B').run I destination = (plug C B).run I destination >>= handle s M := by
  refine run_plug_handle hM (fun F hF x hx hy ↦ ?_) (fun F hF he ↦ ?_) hv h
  · obtain ⟨b, i, hi, hd⟩ := held_of_yields hy
    refine hheld b i (List.mem_flatMap.mpr ⟨F, hF, ?_⟩) hd
    rw [Frame.held, List.mem_append, List.mem_flatMap]
    exact .inr ⟨x, hx, hi⟩
  · obtain ⟨i, hi, hd⟩ := Option.map_eq_some_iff.mp he
    refine hheld F.id i (List.mem_flatMap.mpr ⟨F, hF, ?_⟩) hd
    simp [Frame.held, hi]

end Yields

section Within

open Proc

variable {σ ε σ' ε' : Type} {I : Interp σ ε} {J : Interp σ' ε'}

/-- Whatever comes up in the one comes up in the other at any time. -/
structure Interp.Within (I : Interp σ ε) (J : Interp σ' ε') : Prop where
  leaf : ∀ b k, (I.leaf b k).Within (J.leaf b k)
  start : ∀ e, (I.start e).Within (J.start e)
  branch : ∀ c, (I.branch c).Within (J.branch c)
  loop : ∀ c, (I.loop c).Within (J.loop c)
  select : ∀ e, (I.select e).Within (J.select e)

variable {l : List (Proc σ ε Outcome)} {l' : List (Proc σ' ε' Outcome)}

theorem within_getD (h : List.Forall₂ Proc.Within l l') (i : Nat) :
    (l.getD i skip).Within (l'.getD i skip) := by
  induction h generalizing i with
  | nil => exact within_pure _
  | cons h _ ih =>
    cases i with
    | zero => exact h
    | succ i => exact ih i

theorem within_inOrder (h : List.Forall₂ Proc.Within l l') : (inOrder l).Within (inOrder l') := by
  induction h with
  | nil => exact within_pure _
  | cons h _ ih =>
    refine h.bind fun x _ ↦ ?_
    split
    · exact ih
    · exact within_pure x

theorem within_next {b : BlockId} {K : Proc σ ε (Unit ⊕ Outcome)} {K' : Proc σ' ε' (Unit ⊕ Outcome)}
    (h : K.Within K') (x : Outcome) : (next b K x).Within (next b K' x) := by
  rw [next, next]
  split
  · exact h
  · exact within_pure _

theorem within_looping {b : BlockId} {test : Proc σ ε Bool} {test' : Proc σ' ε' Bool}
    {body incr : Proc σ ε Outcome} {body' incr' : Proc σ' ε' Outcome} (ht : test.Within test')
    (hb : body.Within body') (hi : incr.Within incr') :
    (looping b kind test body incr).Within (looping b kind test' body' incr') := by
  refine Proc.Within.iterate (fun _ ↦ ?_) ()
  split
  · exact hb.bind fun x _ ↦ within_next (ht.bind fun _ _ ↦ within_pure _) x
  · refine ht.bind fun v _ ↦ ?_
    split
    · exact hb.bind fun x _ ↦ within_next (hi.bind fun y _ ↦ within_next (within_pure _) y) x
    · exact within_pure _

theorem within_act (h : I.Within J) (hl : List.Forall₂ Proc.Within l l') (b : BlockId) (k : Kind)
    (vs : List (Option CaseValue)) : (act I b k vs l).Within (act J b k vs l') := by
  cases k with
  | empty | breakTo | continueTo => exact within_pure _
  | evaluate | shuffle | returns | throws => exact (h.leaf _ _).bind fun _ _ ↦ within_pure _
  | sequence => exact within_inOrder hl
  | conditional c | ifElse c => exact (h.branch c).bind fun v _ ↦ within_getD hl _
  | loop kind c init labeled =>
    refine Proc.Within.bind ?_ fun _ _ ↦
      within_looping (h.loop c) (within_getD hl 0) (within_getD hl 1)
    cases init with
    | none => exact within_pure _
    | some e => exact h.start e
  | switch selector labeled =>
    exact (h.select selector).bind fun n _ ↦ (within_inOrder (List.forall₂_drop _ hl)).map _
  | switchCase | tryCatch | catchClause | finallyClause | synchronized => exact within_getD hl 0
  | jsr | ret | description =>
    rintro x ⟨_, _, _, -, hx⟩
    cases hx

theorem within_run (h : I.Within J) (destination : JumpId → FlowId) (T : Tree) :
    (T.run I destination).Within (T.run J destination) := by
  induction T with
  | node b e k l ih =>
    rw [Tree.run_node, Tree.run_node]
    refine Proc.Within.map _ (within_act h ?_ b k _)
    rw [List.forall₂_map_left_iff, List.forall₂_map_right_iff, List.forall₂_same]
    exact ih

end Within

end Decompile
