import Decompile.Proofs.StackShape

/-!
The machine shuffles single slots, the analysis whole values. Where no value is cut in two, both
come to the same.
-/

namespace Decompile

namespace StackOp

variable {α : Type} {op : StackOp} {top under rest : List α} {copied skipped slots : Nat}

/-- What the machine does to its slots, listed from the top. -/
def onSlots : StackOp → List α → Option (List α)
  | pop, _ :: s => some s
  | pop2, _ :: _ :: s => some s
  | dup, x :: s => some (x :: x :: s)
  | dupX1, x :: y :: s => some (x :: y :: x :: s)
  | dupX2, x :: y :: z :: s => some (x :: y :: z :: x :: s)
  | dup2, x :: y :: s => some (x :: y :: x :: y :: s)
  | dup2X1, x :: y :: z :: s => some (x :: y :: z :: x :: y :: s)
  | dup2X2, x :: y :: z :: w :: s => some (x :: y :: z :: w :: x :: y :: s)
  | swap, x :: y :: s => some (y :: x :: s)
  | _, _ => none

/-- How many slots from the top on the operation reads or moves. -/
def reach : StackOp → Nat
  | pop | dup => 1
  | pop2 | dup2 | dupX1 | swap => 2
  | dupX2 | dup2X1 => 3
  | dup2X2 => 4

/-- Below how many slots the operation takes the stack apart: below those that it pops or copies,
below those that it skips, and below each of the two that it swaps. -/
def cuts : StackOp → List Nat
  | pop | dup => [1]
  | pop2 | dup2 => [2]
  | dupX1 | swap => [1, 2]
  | dupX2 => [1, 3]
  | dup2X1 => [2, 3]
  | dup2X2 => [2, 4]

theorem onSlots_pop (h : op.poppedSlots = some top.length) :
    op.onSlots (top ++ rest) = some rest := by
  cases op with
  | pop =>
    obtain ⟨x, rfl⟩ := List.length_eq_one_iff.mp (Option.some.inj h).symm
    rfl
  | pop2 =>
    obtain ⟨x, y, rfl⟩ := List.length_eq_two.mp (Option.some.inj h).symm
    rfl
  | _ => cases h

theorem onSlots_dup (h : op.dupShape = some (top.length, under.length)) :
    op.onSlots (top ++ (under ++ rest)) = some (top ++ (under ++ (top ++ rest))) := by
  cases op with
  | pop | pop2 | swap => cases h
  | _ =>
    obtain ⟨htop, hunder⟩ := Prod.mk.inj (Option.some.inj h)
    simp only [eq_comm, List.length_eq_zero_iff, List.length_eq_one_iff, List.length_eq_two]
      at htop hunder
    grind [onSlots]

theorem cuts_of_poppedSlots (h : op.poppedSlots = some slots) :
    op.cuts = [slots] ∧ op.reach = slots := by
  cases op with
  | pop | pop2 =>
    cases h
    exact ⟨rfl, rfl⟩
  | _ => cases h

theorem cuts_of_dupShape (h : op.dupShape = some (copied, skipped)) :
    (∀ depth, depth ∈ op.cuts ↔ depth = copied ∨ depth = skipped + copied) ∧
      op.reach = skipped + copied := by
  cases op with
  | pop | pop2 | swap => cases h
  | _ =>
    obtain ⟨rfl, rfl⟩ := Prod.mk.inj (Option.some.inj h)
    simp [cuts, reach]

theorem eq_swap (hp : op.poppedSlots = none) (hd : op.dupShape = none) : op = swap := by
  cases op with
  | swap => rfl
  | pop | pop2 => cases hp
  | _ => cases hd

end StackOp

namespace OperandStack

variable {s t : OperandStack} {op : StackOp} {l rest top below : List StackEntry}
  {depth slots : Nat}

/-- The slots of a row of entries, listed from the top. Each is known by its value and its number
in it. -/
def flatten (l : List StackEntry) : List (LocalId × Nat) :=
  (l.flatMap fun e ↦ (List.range e.width).map (e.value, ·)).reverse

/-- Some value lies partly above and partly below the end of the top `depth` slots. -/
def CutsValue (s : OperandStack) (depth : Nat) : Prop :=
  ∃ below e above, s.entries = below ++ e :: above ∧ (above.map (·.width)).sum < depth ∧
    depth < e.width + (above.map (·.width)).sum

theorem flatten_append (l l' : List StackEntry) : flatten (l ++ l') = flatten l' ++ flatten l := by
  simp [flatten]

theorem length_flatten (l : List StackEntry) : (flatten l).length = (l.map (·.width)).sum := by
  simp [flatten]

theorem slots_eq (s : OperandStack) : s.slots = (s.entries.map (·.width)).sum := by
  rw [slots, List.sum_eq_foldl, List.foldl_map]

section Cutting

theorem not_cutsValue (h : s.entries = rest ++ top) : ¬ s.CutsValue (top.map (·.width)).sum := by
  rintro ⟨below, e, above, he, hlt, hgt⟩
  rcases List.append_eq_append_iff.mp (h.symm.trans he) with ⟨l, -, rfl⟩ | ⟨l, -, hl⟩
  · simp only [List.map_append, List.map_cons, List.sum_append, List.sum_cons] at hgt
    omega
  · cases l with
    | nil =>
      obtain rfl : e :: above = top := hl
      simp at hgt
    | cons x l =>
      obtain ⟨rfl, rfl⟩ : e = x ∧ above = l ++ top := by simpa using hl
      simp only [List.map_append, List.sum_append] at hlt
      omega

theorem exists_top (hle : depth ≤ (l.map (·.width)).sum) (h : ¬ CutsValue ⟨l⟩ depth) :
    ∃ rest top, l = rest ++ top ∧ (top.map (·.width)).sum = depth := by
  induction l using List.reverseRecOn generalizing depth with
  | nil => exact ⟨[], [], rfl, (Nat.le_zero.mp hle).symm⟩
  | append_singleton l e ih =>
    by_cases hzero : depth = 0
    · exact ⟨l ++ [e], [], by simp, hzero.symm⟩
    · by_cases hlt : depth < e.width
      · exact absurd ⟨l, e, [], rfl, by simp; omega, by simpa using hlt⟩ h
      · simp only [List.map_append, List.sum_append, List.map_cons, List.map_nil, List.sum_cons,
          List.sum_nil] at hle
        obtain ⟨rest, top, rfl, hsum⟩ := @ih (depth - e.width) (by omega) <| by
          rintro ⟨below, x, above, rfl, hlo, hhi⟩
          refine h ⟨below, x, above ++ [e], by simp, ?_, ?_⟩
          · simp; omega
          · simp; omega
        exact ⟨rest, top ++ [e], by simp, by simp [hsum]; omega⟩

end Cutting

section Counting

theorem cover_append (hpos : ∀ e ∈ l, 0 < e.width) (hsum : (l.map (·.width)).sum = slots) :
    cover slots (l ++ below) = some (l.length, slots) := by
  induction l generalizing slots with
  | nil =>
    obtain rfl : 0 = slots := hsum
    cases below <;> rfl
  | cons e l ih =>
    have he := hpos e (by simp)
    simp only [List.map_cons, List.sum_cons] at hsum
    rw [List.cons_append, cover, if_neg (by omega),
      ih (fun x hx ↦ hpos x (by simp [hx])) (by omega : _ = slots - e.width), Option.map_some]
    simp only [List.length_cons, Option.some.injEq, Prod.mk.injEq, true_and]
    omega

theorem countFor_eq_ok {above : Nat} (hs : (s.dropTop above).entries = rest ++ top)
    (hpos : ∀ e ∈ top, 0 < e.width) (hsum : (top.map (·.width)).sum = slots) :
    s.countFor op above slots = .ok top.length := by
  have hcover :
      cover slots (s.dropTop above).entries.reverse = some (top.reverse.length, slots) := by
    rw [hs, List.reverse_append]
    exact cover_append (by simpa using hpos) (by simpa using hsum)
  rw [countFor, hcover]
  simp

theorem dropTop_of_append (h : s.entries = rest ++ top) : s.dropTop top.length = ⟨rest⟩ := by
  simp [dropTop, size, h]

theorem top_of_append (h : s.entries = rest ++ top) : s.top top.length = top := by
  simp [OperandStack.top, size, h]

/-- On entries that take up slots, a shuffle of the stack is a shuffle of its entries. -/
theorem shuffle_eq_ok_iff (hpos : ∀ e ∈ s.entries, 0 < e.width) :
    s.shuffle op = .ok t ↔ Shuffled StackEntry.width op s.entries t.entries := by
  constructor
  · intro h
    rcases shuffle_cases h with ⟨slots, count, hp, hc, rfl⟩ |
      ⟨copied, skipped, above, under, hp, hd, hc, hu, rfl⟩ | ⟨hp, hd, hle, hw, rfl⟩
    · obtain ⟨-, hsum⟩ := sum_countFor hc
      rw [dropTop_zero] at hsum
      rw [← dropTop_append_top s count]
      exact .pop hp hsum
    · obtain ⟨hle, hsum, hunder⟩ := split_dup hc hu
      have hs : s.entries = (s.dropTop (above + under)).entries ++
          ((s.dropTop above).top under ++ s.top above) := by
        rw [← top_add s hle, dropTop_append_top]
      rw [hs, top_add s hle, List.append_assoc]
      exact .dup hp hd hsum hunder
    · have hlen : (s.top 2).length = 2 := by
        simp only [OperandStack.top, size, List.length_drop] at hle ⊢
        omega
      obtain ⟨x, y, hxy⟩ := List.length_eq_two.mp hlen
      rw [← dropTop_append_top s 2, hxy]
      simp only [hxy, List.all_cons, List.all_nil, Bool.and_true, Bool.and_eq_true,
        decide_eq_true_eq] at hw
      exact .swap hp hd hw.1 hw.2
  · intro h
    generalize hs : s.entries = l at h hpos
    generalize ht : t.entries = l' at h
    cases h with
    | @pop slots rest top hp hsum =>
      have hc : s.countFor op 0 slots = .ok top.length :=
        countFor_eq_ok (by rw [dropTop_zero, hs]) (fun e he ↦ hpos e (by simp [he])) hsum
      simp only [shuffle, hp, hc]
      exact congrArg Except.ok ((dropTop_of_append hs).trans (by rw [← ht]))
    | @dup copied skipped rest under top hp hd hsum hunder =>
      have hs' : s.entries = (rest ++ under) ++ top := by rw [hs, List.append_assoc]
      have hc : s.countFor op 0 copied = .ok top.length :=
        countFor_eq_ok (by rw [dropTop_zero, hs']) (fun e he ↦ hpos e (by simp [he])) hsum
      have hpos' : ∀ e ∈ under, 0 < e.width := fun e he ↦ hpos e (by simp [he])
      have hlen : top.length + under.length = (under ++ top).length := by
        rw [List.length_append, Nat.add_comm]
      have hresult : ⟨(s.dropTop (top.length + under.length)).entries ++ s.top top.length ++
          s.top (top.length + under.length)⟩ = t := by
        rw [hlen, dropTop_of_append hs, top_of_append hs, top_of_append hs', List.append_assoc,
          ← ht]
      by_cases h0 : skipped = 0
      · obtain rfl : under = [] := eq_nil_of_sum_eq_zero hpos' (hunder.trans h0)
        simp only [shuffle, hp, hd, hc, h0, bind, Except.bind, if_true]
        exact congrArg Except.ok hresult
      · have hu : s.countFor op top.length skipped = .ok under.length :=
          countFor_eq_ok (congrArg entries (dropTop_of_append hs')) hpos' hunder
        simp only [shuffle, hp, hd, hc, hu, h0, bind, Except.bind, if_false]
        exact congrArg Except.ok hresult
    | @swap rest x y hp hd hx hy =>
      have hpeek : s.peek 2 = .ok [x, y] := by
        have hle : 2 ≤ s.size := by simp [size, hs]
        exact (if_pos hle).trans (congrArg Except.ok (top_of_append hs))
      have hdrop : s.dropTop 2 = ⟨rest⟩ := dropTop_of_append hs
      simp only [shuffle, hp, hd, hpeek, hdrop, bind, Except.bind]
      simp [hx, hy, pure, Except.pure, ← ht]

end Counting

section Flattening

theorem onSlots_of_shuffled {l' : List StackEntry} (h : Shuffled StackEntry.width op l l') :
    op.onSlots (flatten l) = some (flatten l') := by
  cases h with
  | pop hp hsum =>
    rw [flatten_append]
    exact StackOp.onSlots_pop (by rw [hp, length_flatten, hsum])
  | dup hp hd hsum hunder =>
    simp only [flatten_append, List.append_assoc]
    exact StackOp.onSlots_dup (by rw [hd, length_flatten, length_flatten, hsum, hunder])
  | swap hp hd hx hy =>
    obtain rfl := StackOp.eq_swap hp hd
    simp [flatten, hx, hy, StackOp.onSlots]

theorem eq_singleton_of_sum_eq_one (hpos : ∀ e ∈ l, 0 < e.width) (h : (l.map (·.width)).sum = 1) :
    ∃ e, l = [e] ∧ e.width = 1 := by
  cases l with
  | nil => simp at h
  | cons e l =>
    have he := hpos e (by simp)
    simp only [List.map_cons, List.sum_cons] at h
    have hzero : (l.map (·.width)).sum = 0 := by omega
    obtain rfl := eq_nil_of_sum_eq_zero (fun x hx ↦ hpos x (by simp [hx])) hzero
    exact ⟨e, rfl, by simpa using h⟩

theorem exists_under {rest' top' : List StackEntry} (h : rest ++ top = rest' ++ top')
    (hle : (top.map (·.width)).sum ≤ (top'.map (·.width)).sum) :
    ∃ rest₁ under, rest ++ top = rest₁ ++ (under ++ top) ∧
      (under.map (·.width)).sum + (top.map (·.width)).sum = (top'.map (·.width)).sum := by
  rcases List.append_eq_append_iff.mp h with ⟨under, rfl, rfl⟩ | ⟨under, rfl, rfl⟩
  · exact ⟨rest, [], by simp, by simp at hle ⊢; omega⟩
  · exact ⟨rest', under, by simp, by simp⟩

/-- A shuffle succeeds just if the stack has the slots that it needs and it cuts no value. -/
theorem exists_shuffled_iff (hpos : ∀ e ∈ s.entries, 0 < e.width) :
    (∃ l, Shuffled StackEntry.width op s.entries l) ↔
      op.reach ≤ s.slots ∧ ∀ depth ∈ op.cuts, ¬ s.CutsValue depth := by
  rw [slots_eq]
  constructor
  · rintro ⟨l, h⟩
    generalize hs : s.entries = l₀ at h
    cases h with
    | @pop slots rest top hp hsum =>
      obtain ⟨hcuts, hreach⟩ := StackOp.cuts_of_poppedSlots hp
      rw [hcuts, hreach, ← hsum]
      exact ⟨by simp, by simpa using not_cutsValue hs⟩
    | @dup copied skipped rest under top hp hd hsum hunder =>
      obtain ⟨hcuts, hreach⟩ := StackOp.cuts_of_dupShape hd
      refine ⟨by simp [hreach, ← hsum, ← hunder], fun depth hdepth ↦ ?_⟩
      rcases (hcuts depth).mp hdepth with rfl | rfl
      · rw [← hsum]
        exact not_cutsValue (hs.trans (List.append_assoc ..).symm)
      · have hboth := not_cutsValue hs
        rwa [List.map_append, List.sum_append, hsum, hunder] at hboth
    | @swap rest x y hp hd hx hy =>
      obtain rfl := StackOp.eq_swap hp hd
      have hs' : s.entries = (rest ++ [x]) ++ [y] := by simpa using hs
      have hone := not_cutsValue hs'
      have htwo := not_cutsValue hs
      simp only [List.map_cons, List.map_nil, List.sum_cons, List.sum_nil, hx, hy] at hone htwo
      refine ⟨by simp [hx, hy, StackOp.reach], fun depth hdepth ↦ ?_⟩
      simp only [StackOp.cuts, List.mem_cons, List.not_mem_nil, or_false] at hdepth
      rcases hdepth with rfl | rfl
      · exact hone
      · exact htwo
  · rintro ⟨hle, hcuts⟩
    cases hp : op.poppedSlots with
    | some slots =>
      obtain ⟨hcut, hreach⟩ := StackOp.cuts_of_poppedSlots hp
      obtain ⟨rest, top, hs, hsum⟩ := exists_top (hreach ▸ hle) (hcuts slots (by simp [hcut]))
      rw [hs]
      exact ⟨rest, .pop hp hsum⟩
    | none =>
      cases hd : op.dupShape with
      | some shape =>
        obtain ⟨copied, skipped⟩ := shape
        obtain ⟨hcut, hreach⟩ := StackOp.cuts_of_dupShape hd
        obtain ⟨rest, top, hs, hsum⟩ := exists_top (by omega) (hcuts copied (by simp [hcut]))
        obtain ⟨rest', top', hs', hsum'⟩ :=
          exists_top (hreach ▸ hle) (hcuts (skipped + copied) (by simp [hcut]))
        obtain ⟨rest₁, under, hsplit, hunder⟩ := exists_under (hs.symm.trans hs') (by omega)
        have hskipped : (under.map (·.width)).sum = skipped := by omega
        rw [hs, hsplit]
        exact ⟨_, .dup hp hd hsum hskipped⟩
      | none =>
        obtain rfl := StackOp.eq_swap hp hd
        have hle' : 2 ≤ (s.entries.map (·.width)).sum := hle
        obtain ⟨rest, top, hs, hsum⟩ := exists_top (by omega) (hcuts 1 (by simp [StackOp.cuts]))
        obtain ⟨rest', top', hs', hsum'⟩ := exists_top hle' (hcuts 2 (by simp [StackOp.cuts]))
        obtain ⟨rest₁, under, hsplit, hunder⟩ := exists_under (hs.symm.trans hs') (by omega)
        rw [hs, hsplit] at hpos
        obtain ⟨y, rfl, hy⟩ := eq_singleton_of_sum_eq_one (fun e he ↦ hpos e (by simp [he])) hsum
        obtain ⟨x, rfl, hx⟩ : ∃ x, under = [x] ∧ x.width = 1 :=
          eq_singleton_of_sum_eq_one (fun e he ↦ hpos e (by simp [he])) (by omega)
        rw [hs, hsplit]
        exact ⟨_, .swap hp hd hx hy⟩

/-- A shuffle succeeds just if the stack has the slots that it needs and cuts no value in two, and
then it is the one that the machine makes of the slots. -/
theorem shuffle_slots (hpos : ∀ e ∈ s.entries, 0 < e.width) (op : StackOp) :
    ((∃ t, s.shuffle op = .ok t) ↔
      op.reach ≤ s.slots ∧ ∀ depth ∈ op.cuts, ¬ s.CutsValue depth) ∧
    ∀ t, s.shuffle op = .ok t → op.onSlots (flatten s.entries) = some (flatten t.entries) := by
  constructor
  · rw [← exists_shuffled_iff hpos]
    constructor
    · intro ⟨t, h⟩
      exact ⟨t.entries, (shuffle_eq_ok_iff hpos).mp h⟩
    · intro ⟨l, h⟩
      exact ⟨⟨l⟩, (shuffle_eq_ok_iff hpos).mpr h⟩
  · intro t h
    exact onSlots_of_shuffled ((shuffle_eq_ok_iff hpos).mp h)

/-- A wide value is copied below a narrow one. -/
theorem shuffle_slots_dup2X1 :
    let s : OperandStack := ⟨[⟨⟨0⟩, 1⟩, ⟨⟨1⟩, 2⟩]⟩
    (∀ e ∈ s.entries, 0 < e.width) ∧
      (StackOp.reach .dup2X1 ≤ s.slots ∧ ∀ depth ∈ StackOp.cuts .dup2X1, ¬ s.CutsValue depth) ∧
      ∃ t, s.shuffle .dup2X1 = .ok t ∧
        StackOp.onSlots .dup2X1 (flatten s.entries) = some (flatten t.entries) := by
  intro s
  have hpos : ∀ e ∈ s.entries, 0 < e.width := by decide
  have h : s.shuffle .dup2X1 = .ok ⟨[⟨⟨1⟩, 2⟩, ⟨⟨0⟩, 1⟩, ⟨⟨1⟩, 2⟩]⟩ := rfl
  obtain ⟨hiff, hflat⟩ := shuffle_slots hpos .dup2X1
  exact ⟨hpos, hiff.mp ⟨_, h⟩, _, h, hflat _ h⟩

end Flattening

end OperandStack

end Decompile
