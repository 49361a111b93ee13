import Decompile.Proofs.Partition
import Decompile.Proofs.StackTyping

namespace Decompile

variable {α : Type}

theorem ok_of_bind {ε β : Type} {x : Except ε α} {f : α → Except ε β} {y : β}
    (h : (x >>= f) = .ok y) : ∃ v, x = .ok v ∧ f v = .ok y := by
  cases x with
  | error e => cases h
  | ok v => exact ⟨v, rfl, h⟩

theorem eq_nil_of_sum_eq_zero {width : α → Nat} {l : List α} (hpos : ∀ x ∈ l, 0 < width x)
    (h : (l.map width).sum = 0) : l = [] := by
  cases l with
  | nil => rfl
  | cons x l =>
    have hx := hpos x (by simp)
    simp only [List.map_cons, List.sum_cons] at h
    omega

theorem suffix_unique (width : α → Nat) {rest top rest' top' : List α}
    (h : rest ++ top = rest' ++ top') (hpos : ∀ x ∈ rest ++ top, 0 < width x)
    (hsum : (top.map width).sum = (top'.map width).sum) : rest = rest' ∧ top = top' := by
  rcases List.append_eq_append_iff.mp h with ⟨l, rfl, rfl⟩ | ⟨l, rfl, rfl⟩
  · obtain rfl : l = [] :=
      eq_nil_of_sum_eq_zero (fun x hx ↦ hpos x (by simp [hx])) (by simpa using hsum)
    simp
  · obtain rfl : l = [] :=
      eq_nil_of_sum_eq_zero (fun x hx ↦ hpos x (by simp [hx])) (by simpa using hsum.symm)
    simp

namespace OperandStack

/-- The classes and widths of the entries. -/
def shape (a : Analysis) (s : OperandStack) : Shape :=
  s.entries.map fun e ↦ (a.locals.classOf e.value, e.width)

/-- The entries stand for known locals and take up slots. -/
def Proper (locals : Locals) (s : OperandStack) : Prop :=
  ∀ e ∈ s.entries, e.value.index < locals.size ∧ 0 < e.width

variable {a : Analysis} {s t out : OperandStack} {op : StackOp} {locals locals' : Locals}

theorem Proper.mono (h : s.Proper locals) (hl : locals.size ≤ locals'.size) : s.Proper locals' :=
  fun e he ↦ ⟨(h e he).1.trans_le hl, (h e he).2⟩

theorem Proper.subset (h : s.Proper locals) (ht : ∀ e ∈ t.entries, e ∈ s.entries) :
    t.Proper locals := fun e he ↦ h e (ht e he)

theorem dropTop_append_top (s : OperandStack) (n : Nat) :
    (s.dropTop n).entries ++ s.top n = s.entries := List.take_append_drop ..

@[simp] theorem dropTop_zero (s : OperandStack) : s.dropTop 0 = s := by
  simp [dropTop, size]

variable {slots count above : Nat} {l : List StackEntry} {widths : List Nat}

theorem sum_cover {covered : Nat} (h : cover slots l = some (count, covered)) :
    count ≤ l.length ∧ ((l.take count).map (·.width)).sum = covered := by
  induction l generalizing slots count covered with
  | nil =>
    unfold cover at h
    split at h
    · obtain ⟨rfl, rfl⟩ := Prod.mk.inj (Option.some.inj h)
      simp
    · cases h
  | cons e l ih =>
    unfold cover at h
    split at h
    · obtain ⟨rfl, rfl⟩ := Prod.mk.inj (Option.some.inj h)
      simp
    · obtain ⟨⟨n, c⟩, hnc, heq⟩ := Option.map_eq_some_iff.mp h
      obtain ⟨rfl, rfl⟩ := Prod.mk.inj heq
      obtain ⟨hle, hsum⟩ := ih hnc
      rw [List.take_succ_cons, List.map_cons, List.sum_cons, hsum]
      exact ⟨by simpa using hle, rfl⟩

theorem sum_countFor (h : s.countFor op above slots = .ok count) :
    count ≤ (s.dropTop above).size ∧
      (((s.dropTop above).top count).map (·.width)).sum = slots := by
  unfold countFor at h
  split at h
  · cases h
  · next n covered hcover =>
    split at h
    · next hslots =>
      cases h
      obtain ⟨hle, hsum⟩ := sum_cover hcover
      rw [List.length_reverse] at hle
      refine ⟨hle, ?_⟩
      rw [List.take_reverse, List.map_reverse, List.sum_reverse] at hsum
      rw [← hslots, ← hsum]
      rfl
    · cases h

theorem shape_eq (a : Analysis) (s : OperandStack) (n : Nat) :
    s.shape a = (s.dropTop n).shape a ++ shape a ⟨s.top n⟩ := by
  rw [shape, shape, shape, ← List.map_append, dropTop_append_top]

theorem sum_shape (a : Analysis) (l : List StackEntry) :
    ((shape a ⟨l⟩).map Prod.snd).sum = (l.map (·.width)).sum := by
  simp [shape, Function.comp_def]

theorem Proper.shape_pos (h : s.Proper locals) : ∀ x ∈ s.shape a, 0 < x.2 := by
  intro x hx
  obtain ⟨e, he, rfl⟩ := List.mem_map.mp hx
  exact (h e he).2

theorem top_add (s : OperandStack) {m n : Nat} (h : m + n ≤ s.size) :
    s.top (m + n) = (s.dropTop m).top n ++ s.top m := by
  obtain ⟨l⟩ := s
  simp only [size, top, dropTop] at h ⊢
  have hlen : (l.take (l.length - m)).length = l.length - m := by simp
  rw [hlen, ← List.drop_append_of_le_length (by omega), List.take_append_drop]
  congr 1
  omega

theorem size_dropTop (s : OperandStack) (n : Nat) : (s.dropTop n).size = s.size - n := by
  simp [size, dropTop]

theorem shuffle_cases (h : s.shuffle op = .ok out) :
    (∃ slots count, op.poppedSlots = some slots ∧ s.countFor op 0 slots = .ok count ∧
      out = s.dropTop count) ∨
    (∃ copied skipped above under, op.poppedSlots = none ∧ op.dupShape = some (copied, skipped) ∧
      s.countFor op 0 copied = .ok above ∧
      (if skipped = 0 then .ok 0 else s.countFor op above skipped) = .ok under ∧
      out = ⟨(s.dropTop (above + under)).entries ++ s.top above ++ s.top (above + under)⟩) ∨
    (op.poppedSlots = none ∧ op.dupShape = none ∧ 2 ≤ s.size ∧
      (s.top 2).all (·.width = 1) ∧ out = ⟨(s.dropTop 2).entries ++ (s.top 2).reverse⟩) := by
  unfold shuffle at h
  split at h
  · next slots hp =>
    obtain ⟨count, hc, h⟩ := ok_of_bind h
    exact .inl ⟨slots, count, hp, hc, (Except.ok.inj h).symm⟩
  · next copied skipped hp hd =>
    obtain ⟨above, hc, h⟩ := ok_of_bind h
    refine .inr (.inl ?_)
    dsimp only at h
    split at h
    · next h0 => exact ⟨copied, skipped, above, 0, hp, hd, hc, if_pos h0, (Except.ok.inj h).symm⟩
    · next h0 =>
      obtain ⟨under, hu, h⟩ := ok_of_bind h
      exact ⟨copied, skipped, above, under, hp, hd, hc, (if_neg h0).trans hu,
        (Except.ok.inj h).symm⟩
  · next hp hd =>
    obtain ⟨pair, hpair, h⟩ := ok_of_bind h
    unfold peek at hpair
    split at hpair
    · next hle =>
      cases hpair
      split at h
      · cases h
      · next hw => exact .inr (.inr ⟨hp, hd, hle, by simpa using hw, (Except.ok.inj h).symm⟩)
    · cases hpair

theorem split_dup {copied skipped under : Nat} (hc : s.countFor op 0 copied = .ok above)
    (hu : (if skipped = 0 then .ok 0 else s.countFor op above skipped) = .ok under) :
    above + under ≤ s.size ∧ ((s.top above).map (·.width)).sum = copied ∧
      (((s.dropTop above).top under).map (·.width)).sum = skipped := by
  obtain ⟨hle, hsum⟩ := sum_countFor hc
  rw [dropTop_zero] at hle hsum
  split at hu
  · next h0 =>
    cases hu
    exact ⟨by omega, hsum, by simp [h0, top, size]⟩
  · obtain ⟨hle', hsum'⟩ := sum_countFor hu
    rw [size_dropTop] at hle'
    exact ⟨by omega, hsum, hsum'⟩

/-- Whatever a shuffle makes of the values, it makes of the entries that stand for them. -/
theorem shape_shuffle (h : s.shuffle op = .ok out) (hs : s.Proper locals) {S' : Shape}
    (hS : Shuffled Prod.snd op (s.shape a) S') : S' = out.shape a := by
  have hpos : ∀ x ∈ s.shape a, 0 < x.2 := hs.shape_pos
  rcases shuffle_cases h with ⟨slots, count, hp, hc, rfl⟩ |
    ⟨copied, skipped, above, under, hp, hd, hc, hu, rfl⟩ | ⟨hp, hd, hle, hw, rfl⟩
  · obtain ⟨-, hsum⟩ := sum_countFor hc
    generalize hT : s.shape a = T at hS hpos
    cases hS with
    | pop hp' ht =>
      obtain rfl := Option.some.inj (hp.symm.trans hp')
      rw [shape_eq a s count] at hT
      exact (suffix_unique Prod.snd hT (by rwa [hT]) (by rw [sum_shape, ht]; simpa using hsum)).1.symm
    | dup hp' | swap hp' => simp [hp] at hp'
  · obtain ⟨hle, hsum, hunder⟩ := split_dup hc hu
    have hsplit : s.shape a = (s.dropTop (above + under)).shape a ++
        (shape a ⟨(s.dropTop above).top under⟩ ++ shape a ⟨s.top above⟩) := by
      rw [shape_eq a s (above + under), top_add s hle]
      simp [shape]
    generalize hT : s.shape a = T at hS hpos
    cases hS with
    | dup hp' hd' ht hu' =>
      obtain ⟨rfl, rfl⟩ := Prod.mk.inj (Option.some.inj (hd.symm.trans hd'))
      rw [hsplit, ← List.append_assoc, ← List.append_assoc] at hT
      obtain ⟨hT', rfl⟩ := suffix_unique Prod.snd hT
        (by rwa [hT, List.append_assoc]) (by rw [sum_shape, ht, hsum])
      obtain ⟨rfl, rfl⟩ := suffix_unique Prod.snd hT'
        (fun x hx ↦ hpos x (by rw [hT'] at hx; simp at hx ⊢; tauto)) (by rw [sum_shape, hu', hunder])
      rw [top_add s hle]
      simp [shape]
    | pop hp' => simp [hp] at hp'
    | swap _ hd' => simp [hd] at hd'
  · generalize hT : s.shape a = T at hS hpos
    cases hS with
    | swap =>
      rw [shape_eq a s 2] at hT
      obtain ⟨rfl, htop⟩ := List.append_inj' hT (by simp only [size] at hle; simp [shape, top, size]; omega)
      rw [shape, shape, List.map_append, List.map_reverse]
      exact congrArg _ (congrArg List.reverse htop).symm
    | pop hp' => simp [hp] at hp'
    | dup _ hd' => simp [hd] at hd'

theorem mem_of_shuffle (h : s.shuffle op = .ok out) {e : StackEntry} (he : e ∈ out.entries) :
    e ∈ s.entries := by
  have htop {n : Nat} {e : StackEntry} (he : e ∈ s.top n) : e ∈ s.entries := List.mem_of_mem_drop he
  have hdrop {n : Nat} {e : StackEntry} (he : e ∈ (s.dropTop n).entries) : e ∈ s.entries :=
    List.mem_of_mem_take he
  rcases shuffle_cases h with ⟨_, _, _, _, rfl⟩ | ⟨_, _, _, _, _, _, _, _, rfl⟩ | ⟨_, _, _, _, rfl⟩
  · exact hdrop he
  · simp only [List.mem_append] at he
    rcases he with (he | he) | he
    · exact hdrop he
    · exact htop he
    · exact htop he
  · simp only [List.mem_append, List.mem_reverse] at he
    rcases he with he | he
    · exact hdrop he
    · exact htop he

theorem Proper.shuffle (h : s.shuffle op = .ok out) (hs : s.Proper locals) : out.Proper locals :=
  hs.subset fun _ he ↦ mem_of_shuffle h he

theorem widths_eq (h : mismatch? l widths = none) (hlen : l.length = widths.length) :
    l.map (·.width) = widths := by
  induction l generalizing widths with
  | nil => exact (List.length_eq_zero_iff.mp hlen.symm).symm
  | cons e l ih =>
    cases widths with
    | nil => cases hlen
    | cons w widths =>
      unfold mismatch? at h
      split at h
      · next hw => simpa [hw] using ih h (by simpa using hlen)
      · cases h

theorem pop_eq {rest : OperandStack} {xs : List LocalId} (h : s.pop widths = .ok (rest, xs)) :
    ∃ popped, s.entries = rest.entries ++ popped ∧ popped.map (·.width) = widths ∧
      popped.map (·.value) = xs := by
  unfold pop at h
  obtain ⟨popped, hpeek, h⟩ := ok_of_bind h
  unfold peek at hpeek
  split at hpeek
  · next hle =>
    cases hpeek
    split at h
    · cases h
    · next hmis =>
      cases h
      refine ⟨_, (dropTop_append_top s _).symm, ?_, rfl⟩
      have hlen : (s.top widths.length).length = widths.length := by
        simp only [top, size, List.length_drop] at hle ⊢
        omega
      exact widths_eq hmis hlen
  · cases hpeek

theorem mergeEntries_spec {xs ys : List StackEntry} (hlen : xs.length = ys.length)
    (ht : locals.WellFormed) (hx : ∀ e ∈ xs, e.value.index < locals.size)
    (hy : ∀ e ∈ ys, e.value.index < locals.size) (h : mergeEntries xs ys locals = (locals', true)) :
    locals'.WellFormed ∧ Locals.Extends locals locals' ∧ locals'.size = locals.size ∧
      List.Forall₂ (fun x y ↦ locals'.classOf x.value = locals'.classOf y.value ∧
        x.width = y.width) xs ys := by
  induction xs generalizing ys locals with
  | nil =>
    obtain rfl := List.length_eq_zero_iff.mp hlen.symm
    obtain rfl : locals = locals' := (Prod.mk.inj h).1
    exact ⟨ht, .refl _, rfl, .nil⟩
  | cons x xs ih =>
    cases ys with
    | nil => cases hlen
    | cons y ys =>
      unfold mergeEntries at h
      split at h
      · next hw =>
        have hx' := hx x (by simp)
        have hy' := hy y (by simp)
        obtain ⟨hwf, hext, hsize, hall⟩ := ih (by simpa using hlen) (ht.merge hx' hy')
          (by simpa using fun e he ↦ hx e (by simp [he]))
          (by simpa using fun e he ↦ hy e (by simp [he])) h
        exact ⟨hwf, (ht.extends_merge hx' hy').trans hext, by simpa using hsize,
          .cons ⟨hext.classOf_eq (ht.classOf_merge hx' hy'), hw⟩ hall⟩
      · cases (Prod.mk.inj h).2

theorem merge_spec (ht : locals.WellFormed) (hs : s.Proper locals) (ht' : t.Proper locals)
    (h : s.merge t locals = (locals', none)) :
    locals'.WellFormed ∧ Locals.Extends locals locals' ∧ locals'.size = locals.size ∧
      List.Forall₂ (fun x y ↦ locals'.classOf x.value = locals'.classOf y.value ∧
        x.width = y.width) s.entries t.entries := by
  unfold merge at h
  dsimp only at h
  split at h
  · next hsize =>
    split at h
    · next hm =>
      obtain rfl := (Prod.mk.inj h).1
      exact mergeEntries_spec hsize ht (fun e he ↦ (hs e he).1) (fun e he ↦ (ht' e he).1) hm
    · cases (Prod.mk.inj h).2
  · cases (Prod.mk.inj h).2

end OperandStack

end Decompile
