import Mathlib.Data.List.Nodup
import Mathlib.Data.List.Range

namespace Decompile

variable {α : Type}

/-- From `x` the links lead on just `n` times. -/
inductive EndsIn (next : α → Option α) : Nat → α → Prop
  | stop {x : α} : next x = none → EndsIn next 0 x
  | step {x y : α} {n : Nat} : next x = some y → EndsIn next n y → EndsIn next (n + 1) x

namespace EndsIn

variable {next : α → Option α} {n m : Nat} {x y : α}

theorem unique (h : EndsIn next n x) (h' : EndsIn next m x) : n = m := by
  induction h generalizing m with
  | stop hx =>
    cases h' with
    | stop => rfl
    | step hy => simp [hx] at hy
  | step hx _ ih =>
    cases h' with
    | stop hy => simp [hx] at hy
    | step hy h' =>
      obtain rfl : _ = _ := Option.some.inj (hx.symm.trans hy)
      rw [ih h']

theorem exists_nodup (h : EndsIn next n x) :
    ∃ l : List α, l.length = n ∧ l.Nodup ∧
      ∀ y ∈ l, (next y).isSome ∧ ∃ k ≤ n, EndsIn next k y := by
  induction h with
  | stop => exact ⟨[], rfl, List.nodup_nil, by simp⟩
  | @step x y n hxy h ih =>
    obtain ⟨l, hlen, hnd, hl⟩ := ih
    refine ⟨x :: l, by simp [hlen], List.nodup_cons.mpr ⟨fun hmem ↦ ?_, hnd⟩, ?_⟩
    · obtain ⟨-, k, hk, hkx⟩ := hl x hmem
      have := (EndsIn.step hxy h).unique hkx
      omega
    · intro z hz
      rcases List.mem_cons.mp hz with rfl | hz
      · exact ⟨by simp [hxy], n + 1, le_rfl, .step hxy h⟩
      · obtain ⟨hp, k, hk, hkz⟩ := hl z hz
        exact ⟨hp, k, by omega, hkz⟩

end EndsIn

theorem length_le_of_nodup_of_lt {l : List Nat} {m : Nat} (hnd : l.Nodup) (h : ∀ i ∈ l, i < m) :
    l.length ≤ m := by
  have hsub : l ⊆ List.range m := fun i hi ↦ List.mem_range.mpr (h i hi)
  simpa using hnd.length_le_of_subset hsub

/-- A walk takes no more steps than there are places at which it could go on. -/
theorem EndsIn.add_le {next : α → Option α} {n m : Nat} {x : α} {s : List α} (h : EndsIn next n x)
    (index : α → Nat) (inj : ∀ y z, index y = index z → y = z)
    (hlt : ∀ y z, next y = some z → index y < m) (hs : s.Nodup)
    (he : ∀ e ∈ s, next e = none ∧ index e < m) : n + s.length ≤ m := by
  obtain ⟨l, rfl, hnd, hl⟩ := h.exists_nodup
  have hd : l.Disjoint s := fun e hel hes ↦ by simpa [(he e hes).1] using (hl e hel).1
  have := length_le_of_nodup_of_lt ((hnd.append hs hd).map fun y z ↦ inj y z) fun i hi ↦ by
    obtain ⟨y, hy, rfl⟩ := List.mem_map.mp hi
    rcases List.mem_append.mp hy with hy | hy
    · obtain ⟨z, hz⟩ := Option.isSome_iff_exists.mp (hl y hy).1
      exact hlt y z hz
    · exact (he y hy).2
  simpa using this

end Decompile
