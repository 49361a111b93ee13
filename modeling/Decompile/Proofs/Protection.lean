import Mathlib.Data.List.SplitBy
import Decompile.Handler.Table

/-!
Which addresses a normalized exception table protects. Rows that continue one another are taken
together first, so that a run of them is dropped as a whole as soon as one of them protects the
handler.
-/

namespace Decompile.ExceptionRow

variable {first last row : ExceptionRow} {rows run rest : List ExceptionRow}

/-- The rows from one to the next that does not continue it. -/
def runs (rows : List ExceptionRow) : List (List ExceptionRow) :=
  rows.splitBy fun row next ↦ next.continues row

/-- Each row continues the one before. -/
def Continuous (run : List ExceptionRow) : Prop :=
  run.IsChain fun row next ↦ next.continues row = true

/-- The row for all of a run. -/
def joined : List ExceptionRow → ExceptionRow
  | [] => default
  | row :: run => { row with stop := (run.getLastD row).stop }

theorem continues_iff {next : ExceptionRow} : next.continues row = true ↔
    row.stop = next.start ∧ row.handler = next.handler ∧ row.type = next.type := by
  simp [continues, and_assoc]

theorem protects_iff {x : Nat} : row.protects x = true ↔ row.start ≤ x ∧ x < row.stop := by
  simp [protects]

theorem coalesceFrom_append (hhandler : last.handler = first.handler) (htype : last.type = first.type)
    (hrun : Continuous (last :: run))
    (hrest : ∀ next ∈ rest.head?, next.continues (run.getLastD last) = false) :
    coalesceFrom { first with stop := last.stop } (run ++ rest) =
      { first with stop := (run.getLastD last).stop } :: coalesce rest := by
  have hsame (next : ExceptionRow) (last : ExceptionRow) (hh : last.handler = first.handler)
      (ht : last.type = first.type) :
      next.continues { first with stop := last.stop } = next.continues last := by
    simp only [continues, hh, ht]
  induction run generalizing last with
  | nil =>
    cases rest with
    | nil => rfl
    | cons next rest =>
      have hnext : next.continues last = false := hrest next rfl
      rw [List.nil_append, coalesceFrom, hsame next last hhandler htype, hnext]
      rfl
  | cons next run ih =>
    obtain ⟨hnext, hrun⟩ := List.isChain_cons_cons.mp hrun
    obtain ⟨-, hh, ht⟩ := continues_iff.mp hnext
    rw [List.cons_append, coalesceFrom, hsame next last hhandler htype, if_pos hnext]
    rw [List.getLastD_cons] at hrest ⊢
    exact ih (hh.symm.trans hhandler) (ht.symm.trans htype) hrun hrest

theorem coalesce_eq_map_joined (rows : List ExceptionRow) :
    coalesce rows = (runs rows).map joined := by
  obtain ⟨hflat, hnil, hcont, hends⟩ := List.splitBy_eq_iff.mp (rfl : runs rows = runs rows)
  generalize runs rows = l at hflat hnil hcont hends ⊢
  induction l generalizing rows with
  | nil => rw [hflat]; rfl
  | cons run l ih =>
    have hrun := hcont run List.mem_cons_self
    cases run with
    | nil => exact absurd List.mem_cons_self hnil
    | cons row run =>
      have htail := ih l.flatten rfl (fun h ↦ hnil (List.mem_cons_of_mem _ h))
        (fun m hm ↦ hcont m (List.mem_cons_of_mem _ hm)) hends.tail
      rw [hflat, List.flatten_cons, List.map_cons, ← htail]
      refine @coalesceFrom_append row row run _ rfl rfl hrun fun next hnext ↦ ?_
      cases l with
      | nil => cases hnext
      | cons run' l =>
        obtain ⟨_, hne, hend⟩ := (List.isChain_cons_cons.mp hends).1
        rw [List.flatten_cons, List.head?_append_of_ne_nil _ hne, List.head?_eq_some_head hne] at hnext
        cases hnext
        rwa [List.getLast_eq_getLastD] at hend

theorem Continuous.stop_le (hrun : Continuous (row :: run))
    (hlt : ∀ r ∈ row :: run, r.start < r.stop) : row.stop ≤ (run.getLastD row).stop := by
  induction run generalizing row with
  | nil => exact le_rfl
  | cons next run ih =>
    obtain ⟨hnext, hrun⟩ := List.isChain_cons_cons.mp hrun
    have hlt' := (List.forall_mem_cons.mp hlt).2
    rw [List.getLastD_cons, (continues_iff.mp hnext).1]
    exact (hlt' next List.mem_cons_self).le.trans (ih hrun hlt')

theorem Continuous.protects_joined (hrun : Continuous (row :: run))
    (hlt : ∀ r ∈ row :: run, r.start < r.stop) (x : Nat) :
    (joined (row :: run)).protects x = true ↔ ∃ r ∈ row :: run, r.protects x = true := by
  induction run generalizing row with
  | nil => simp [joined]
  | cons next run ih =>
    obtain ⟨hnext, hrun⟩ := List.isChain_cons_cons.mp hrun
    obtain ⟨hrow, hlt⟩ := List.forall_mem_cons.mp hlt
    have hmeet := (continues_iff.mp hnext).1
    have hstart := hlt next List.mem_cons_self
    have hstop := Continuous.stop_le hrun hlt
    rw [List.exists_mem_cons_iff, ← ih hrun hlt, protects_iff, protects_iff, protects_iff]
    simp only [joined, List.getLastD_cons]
    omega

theorem Continuous.same (hrun : Continuous (row :: run)) :
    ∀ r ∈ row :: run, r.handler = row.handler ∧ r.type = row.type := by
  induction run generalizing row with
  | nil => simp
  | cons next run ih =>
    obtain ⟨hnext, hrun⟩ := List.isChain_cons_cons.mp hrun
    obtain ⟨-, hhandler, htype⟩ := continues_iff.mp hnext
    refine List.forall_mem_cons.mpr ⟨⟨rfl, rfl⟩, fun r hr ↦ ?_⟩
    rw [hhandler, htype]
    exact ih hrun r hr

theorem joined_of_mem_runs (hrows : ∀ row ∈ rows, row.start < row.stop) (hrun : run ∈ runs rows) :
    (∀ x, (joined run).protects x ↔ ∃ row ∈ run, row.protects x) ∧
      ∀ row ∈ run, row.handler = (joined run).handler ∧ row.type = (joined run).type := by
  have hcont : Continuous run := List.isChain_of_mem_splitBy hrun
  have hlt : ∀ row ∈ run, row.start < row.stop := fun row hrow ↦
    hrows row (List.flatten_splitBy _ rows ▸ List.mem_flatten_of_mem hrun hrow)
  cases run with
  | nil => exact absurd hrun (List.nil_notMem_splitBy _ rows)
  | cons row run => exact ⟨hcont.protects_joined hlt, hcont.same⟩

/-- An address is protected as long as no row of the run around it protects the handler. -/
theorem exists_mem_normalize_iff (hrows : ∀ row ∈ rows, row.start < row.stop) (handler : Nat)
    (type : Option Name) (x : Nat) :
    (∃ row ∈ normalize rows, row.handler = handler ∧ row.type = type ∧ row.protects x) ↔
      ∃ run ∈ runs rows, (∀ row ∈ run, ¬ row.protects row.handler) ∧
        ∃ row ∈ run, row.handler = handler ∧ row.type = type ∧ row.protects x := by
  have hmem (row : ExceptionRow) : row ∈ normalize rows ↔
      (∃ run ∈ runs rows, joined run = row) ∧ ¬ row.protects row.handler := by
    simp [normalize, coalesce_eq_map_joined]
  constructor
  · rintro ⟨row, hrow, rfl, rfl, hx⟩
    obtain ⟨⟨run, hrun, rfl⟩, hself⟩ := (hmem row).mp hrow
    obtain ⟨hprotects, hsame⟩ := joined_of_mem_runs hrows hrun
    obtain ⟨row, hrow, hx⟩ := (hprotects x).mp hx
    refine ⟨run, hrun, fun r hr h ↦ hself ((hprotects _).mpr ⟨r, hr, ?_⟩), row, hrow,
      (hsame row hrow).1, (hsame row hrow).2, hx⟩
    rwa [← (hsame r hr).1]
  · rintro ⟨run, hrun, hself, row, hrow, rfl, rfl, hx⟩
    obtain ⟨hprotects, hsame⟩ := joined_of_mem_runs hrows hrun
    refine ⟨joined run, (hmem _).mpr ⟨⟨run, hrun, rfl⟩, fun h ↦ ?_⟩, (hsame row hrow).1.symm,
      (hsame row hrow).2.symm, (hprotects x).mpr ⟨row, hrow, hx⟩⟩
    obtain ⟨r, hr, h⟩ := (hprotects _).mp h
    exact hself r hr ((hsame r hr).1 ▸ h)

theorem exists_mem_normalize_iff_adjacent :
    ∃ row ∈ normalize [⟨0, 4, 20, none⟩, ⟨4, 8, 20, none⟩, ⟨6, 7, 6, none⟩],
      row.handler = 20 ∧ row.type = none ∧ row.protects 5 := by
  refine (exists_mem_normalize_iff (by decide) 20 none 5).mpr ?_
  decide +kernel

/-- The row at 0 does not protect its handler, but the one that continues it does. -/
theorem normalize_drops_run :
    normalize [⟨0, 6, 6, none⟩, ⟨6, 7, 6, none⟩] = [] ∧
      (⟨0, 6, 6, none⟩ : ExceptionRow).protects 0 ∧
      ¬ (⟨0, 6, 6, none⟩ : ExceptionRow).protects 6 := by
  decide +kernel

end Decompile.ExceptionRow
