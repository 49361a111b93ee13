import Decompile.Descriptor
import Mathlib.Algebra.GroupWithZero.Nat
import Mathlib.Data.List.TakeWhile

/-!
A descriptor is read from the form in which it is written, and from no other text. The slots of its
parameters follow one another.
-/

namespace Decompile

/-! The written form -/

def BaseType.text : BaseType → List Char
  | boolean => ['Z']
  | byte => ['B']
  | short => ['S']
  | int => ['I']
  | long => ['J']
  | float => ['F']
  | double => ['D']
  | char => ['C']
  | object name => 'L' :: (name ++ [';'])

/-- The name of a class is not empty, and a semicolon ends it. -/
def BaseType.Valid : BaseType → Prop
  | object name => name ≠ [] ∧ ';' ∉ name
  | _ => True

def FieldType.text (t : FieldType) : List Char := List.replicate t.dimensions '[' ++ t.base.text

def FieldType.Valid (t : FieldType) : Prop := t.dimensions ≤ 255 ∧ t.base.Valid

def MethodDescriptor.text (d : MethodDescriptor) : List Char :=
  '(' :: (d.parameters.flatMap FieldType.text ++ ')' :: d.result.elim ['V'] FieldType.text)

def MethodDescriptor.Valid (d : MethodDescriptor) : Prop :=
  (∀ t ∈ d.parameters, t.Valid) ∧ ∀ t ∈ d.result, t.Valid

/-! Reading -/

/-- The longest run of characters that pass, and what stops it. -/
theorem takeWhile_dropWhile_iff {p : Char → Bool} {l u r : List Char} {c : Char} :
    l.takeWhile p = u ∧ l.dropWhile p = c :: r ↔
      (∀ x ∈ u, p x) ∧ p c = false ∧ l = u ++ c :: r := by
  constructor
  · rintro ⟨rfl, hdrop⟩
    refine ⟨fun x hx ↦ List.mem_takeWhile_imp hx, ?_, ?_⟩
    · have hne : l.dropWhile p ≠ [] := by simp [hdrop]
      simpa [hdrop] using List.head_dropWhile_not p hne
    · rw [← hdrop, List.takeWhile_append_dropWhile]
  · rintro ⟨hu, hc, rfl⟩
    rw [List.takeWhile_append_of_pos hu, List.dropWhile_append_of_pos hu]
    simp [hc]

theorem BaseType.parse?_eq_some {b : BaseType} {s rest : List Char} :
    parse? s = some (b, rest) ↔ b.Valid ∧ s = b.text ++ rest := by
  constructor
  · intro h
    unfold parse? at h
    split at h
    case h_9 tail =>
      split at h
      next c name c' rest' htake hdrop =>
        cases h
        obtain ⟨hname, hc', rfl⟩ := takeWhile_dropWhile_iff.mp ⟨htake, hdrop⟩
        refine ⟨⟨by simp, fun hmem ↦ by simpa using hname _ hmem⟩, ?_⟩
        simp at hc'
        simp [text, hc']
      next => cases h
    all_goals first | (cases h; exact ⟨trivial, rfl⟩) | cases h
  · rintro ⟨hb, rfl⟩
    cases b with
    | object name =>
      obtain ⟨hne, hsemi⟩ := hb
      have hname : ∀ x ∈ name, decide (x ≠ ';') = true := by
        intro x hx
        simp only [decide_eq_true_eq]
        rintro rfl
        exact hsemi hx
      obtain ⟨htake, hdrop⟩ := takeWhile_dropWhile_iff (c := ';') (r := rest).mpr
        ⟨hname, by decide, rfl⟩
      obtain ⟨c, name, rfl⟩ := List.exists_cons_of_ne_nil hne
      simp only [text, List.cons_append, List.append_assoc, List.nil_append, parse?] at htake hdrop ⊢
      rw [htake, hdrop]
    | _ => rfl

theorem BaseType.text_eq_cons (b : BaseType) :
    ∃ c tail, b.text = c :: tail ∧ c ≠ '[' ∧ c ≠ ')' ∧ c ≠ 'V' := by
  cases b <;> exact ⟨_, _, rfl, by decide, by decide, by decide⟩

namespace FieldType

variable {t : FieldType} {ts : List FieldType} {s rest : List Char}

theorem text_eq_cons (t : FieldType) : ∃ c tail, t.text = c :: tail ∧ c ≠ ')' ∧ c ≠ 'V' := by
  obtain ⟨dimensions, base⟩ := t
  cases dimensions with
  | zero =>
    obtain ⟨c, tail, hb, -, h⟩ := base.text_eq_cons
    exact ⟨c, tail, by simpa [text] using hb, h⟩
  | succ n => exact ⟨'[', _, rfl, by decide, by decide⟩

theorem parse?_eq_some : parse? s = some (t, rest) ↔ t.Valid ∧ s = t.text ++ rest := by
  obtain ⟨dimensions, base⟩ := t
  obtain ⟨c, tail, htext, hc, -⟩ := base.text_eq_cons
  have hparse : parse? s = some (⟨dimensions, base⟩, rest) ↔ dimensions ≤ 255 ∧
      (s.takeWhile (· = '[')).length = dimensions ∧
        BaseType.parse? (s.dropWhile (· = '[')) = some (base, rest) := by
    simp only [parse?]
    split_ifs with hd
    · simp only [false_iff]
      omega
    · simp only [Option.map_eq_some_iff, Prod.exists, Prod.mk.injEq, mk.injEq]
      constructor
      · rintro ⟨_, _, h, ⟨rfl, rfl⟩, rfl⟩
        exact ⟨by omega, rfl, h⟩
      · rintro ⟨-, h, hb⟩
        exact ⟨_, _, hb, ⟨h, rfl⟩, rfl⟩
  rw [hparse, BaseType.parse?_eq_some, htext]
  constructor
  · rintro ⟨hd, hlength, hb, hdrop⟩
    obtain ⟨hall, -, hs⟩ := takeWhile_dropWhile_iff.mp ⟨rfl, hdrop⟩
    refine ⟨⟨hd, hb⟩, ?_⟩
    have hbrackets : s.takeWhile (· = '[') = List.replicate dimensions '[' :=
      List.eq_replicate_iff.mpr ⟨hlength, fun x hx ↦ by simpa using hall x hx⟩
    rw [hs, text, htext, List.append_assoc, hbrackets]
    rfl
  · rintro ⟨⟨hd, hb⟩, rfl⟩
    obtain ⟨htake, hdrop⟩ := takeWhile_dropWhile_iff (p := (· = '[')) (r := tail ++ rest)
      (u := List.replicate dimensions '[').mpr ⟨by simp, by simpa using hc, rfl⟩
    rw [text, htext, List.append_assoc]
    exact ⟨hd, (congrArg List.length htake).trans List.length_replicate, hb, hdrop⟩

theorem parseList?_eq_some : parseList? s = some (ts, rest) ↔
    (∀ t ∈ ts, t.Valid) ∧ s = ts.flatMap text ++ ')' :: rest := by
  constructor
  · intro h
    fun_induction parseList? s generalizing ts with
    | case1 rest' =>
      cases h
      simp
    | case2 => cases h
    | case3 s _ t rest' hparse ih =>
      obtain ⟨⟨ts', rest''⟩, hts, heq⟩ := Option.map_eq_some_iff.mp h
      cases heq
      obtain ⟨ht, rfl⟩ := parse?_eq_some.mp hparse
      obtain ⟨hvalid, rfl⟩ := ih hts
      exact ⟨List.forall_mem_cons.mpr ⟨ht, hvalid⟩, by simp⟩
  · rintro ⟨hvalid, rfl⟩
    induction ts with
    | nil =>
      rw [List.flatMap_nil, List.nil_append, parseList?]
    | cons t ts ih =>
      obtain ⟨ht, hts⟩ := List.forall_mem_cons.mp hvalid
      obtain ⟨c, tail, htext, hc, -⟩ := t.text_eq_cons
      have hparse : parse? (t.text ++ (ts.flatMap text ++ ')' :: rest)) = some (t, _) :=
        parse?_eq_some.mpr ⟨ht, rfl⟩
      rw [List.flatMap_cons, List.append_assoc, parseList?.eq_def]
      split
      next heq =>
        rw [htext] at heq
        exact absurd (List.cons.inj heq).1 hc
      next =>
        split
        next hnone => rw [hparse] at hnone; cases hnone
        next t' rest' hsome =>
          rw [hparse] at hsome
          cases hsome
          rw [ih hts]
          rfl

end FieldType

/-- Reading accepts just the written forms. -/
theorem MethodDescriptor.parse?_eq_some {d : MethodDescriptor} {s : List Char} :
    parse? s = some d ↔ d.Valid ∧ s = d.text := by
  obtain ⟨parameters, result⟩ := d
  constructor
  · intro h
    unfold parse? at h
    split at h
    next s =>
      obtain ⟨⟨ts, rest⟩, hts, hrest⟩ := Option.bind_eq_some_iff.mp h
      clear h
      obtain ⟨hvalid, rfl⟩ := FieldType.parseList?_eq_some.mp hts
      dsimp only at hrest
      split_ifs at hrest with hvoid
      · cases hrest
        exact ⟨⟨hvalid, by simp⟩, by simp [text, hvoid]⟩
      · obtain ⟨⟨t, rest'⟩, ht, hend⟩ := Option.bind_eq_some_iff.mp hrest
        clear hrest
        obtain ⟨hvalid', rfl⟩ := FieldType.parse?_eq_some.mp ht
        dsimp only at hend
        split_ifs at hend with hempty
        cases hend
        obtain rfl := List.isEmpty_iff.mp hempty
        exact ⟨⟨hvalid, by simpa using hvalid'⟩, by simp [text]⟩
    next => cases h
  · rintro ⟨⟨hvalid, hresult⟩, rfl⟩
    have hts := FieldType.parseList?_eq_some.mpr
      ⟨hvalid, rfl (a := parameters.flatMap FieldType.text ++ ')' :: result.elim ['V'] FieldType.text)⟩
    simp only [parse?, text, hts, Option.bind_eq_bind, Option.bind_some]
    cases result with
    | none => rfl
    | some t =>
      obtain ⟨c, tail, htext, -, hc⟩ := t.text_eq_cons
      have ht := FieldType.parse?_eq_some.mpr ⟨hresult t rfl, (List.append_nil t.text).symm⟩
      have hvoid : t.text ≠ ['V'] := by
        rw [htext]
        intro h
        exact hc (List.cons.inj h).1
      simp [hvoid, ht]

/-! Slots -/

/-- Each parameter starts where those before it end. -/
theorem Parameter.layout_spec (ts : List FieldType) (slot : Nat) :
    (layout slot ts).map (·.width) = ts.map (·.width) ∧
      ∀ i p, (layout slot ts)[i]? = some p →
        p.slot = slot + ((ts.map (·.width)).take i).sum ∧
          p.slot + p.width ≤ slot + (ts.map (·.width)).sum := by
  induction ts generalizing slot with
  | nil => simp [layout]
  | cons t ts ih =>
    obtain ⟨hwidths, hslots⟩ := ih (slot + t.width)
    refine ⟨by simp [layout, hwidths], fun i p hp ↦ ?_⟩
    cases i with
    | zero =>
      cases hp
      simp
    | succ i =>
      obtain ⟨hslot, hend⟩ := hslots i p hp
      simp only [List.map_cons, List.take_succ_cons, List.sum_cons]
      omega

theorem FieldType.width_pos (t : FieldType) : 0 < t.width := by
  unfold width
  split <;> decide

namespace MethodInfo

/-- A method's descriptor is decoded alike for its parameters, its result and its calls, and in all
three just if it is the written form of one. -/
theorem descriptor_decodes (m : MethodInfo) :
    (∀ d : MethodDescriptor, d.Valid → m.descriptor.chars = d.text →
      (d.parameters.map (·.width)).sum ≤ 65534 → ∃ shape ps,
        m.descriptor.callShape? = some shape ∧ m.parameters? = some ps ∧
        shape.arguments = d.parameters.map (·.width) ∧ (shape.result = 0 ↔ d.result = none) ∧
        (∀ t ∈ d.result, shape.result = t.width) ∧ m.returnsVoid? = some (shape.result == 0) ∧
        ps.map (·.width) = (if m.isStatic then [] else [1]) ++ shape.arguments ∧
        ∀ i p, ps[i]? = some p →
          p.slot = ((ps.map (·.width)).take i).sum ∧ p.slot + p.width < 2 ^ 16) ∧
    (m.parameters? = none ↔ ¬∃ d : MethodDescriptor, d.Valid ∧ m.descriptor.chars = d.text) ∧
    (m.returnsVoid? = none ↔ m.parameters? = none) ∧
    (m.descriptor.callShape? = none ↔ m.parameters? = none) := by
  refine ⟨fun d hd htext hsum ↦ ?_, ?_, by simp [returnsVoid?, parameters?],
    by simp [Name.callShape?, parameters?]⟩
  · have hparse := MethodDescriptor.parse?_eq_some.mpr ⟨hd, htext⟩
    refine ⟨d.callShape, if m.isStatic then Parameter.layout 0 d.parameters
      else ⟨0, 1⟩ :: Parameter.layout 1 d.parameters, by simp [Name.callShape?, hparse],
      by simp [parameters?, hparse], rfl, ?_, ?_, ?_, ?_, fun i p hp ↦ ?_⟩
    · cases h : d.result with
      | none => simp [MethodDescriptor.callShape, h]
      | some t => simp [MethodDescriptor.callShape, h, t.width_pos.ne']
    · intro t ht
      simp [MethodDescriptor.callShape, Option.mem_def.mp ht]
    · cases h : d.result with
      | none => simp [MethodDescriptor.callShape, returnsVoid?, hparse, h]
      | some t => simp [MethodDescriptor.callShape, returnsVoid?, hparse, h, t.width_pos.ne']
    · split <;> simp [(Parameter.layout_spec d.parameters _).1, MethodDescriptor.callShape]
    · split at hp
      next hs =>
        obtain ⟨hwidths, hslots⟩ := Parameter.layout_spec d.parameters 0
        obtain ⟨hslot, hend⟩ := hslots i p hp
        rw [if_pos hs, hwidths]
        omega
      next hs =>
        obtain ⟨hwidths, hslots⟩ := Parameter.layout_spec d.parameters 1
        rw [if_neg hs, List.map_cons, hwidths]
        cases i with
        | zero =>
          cases hp
          simp
        | succ i =>
          obtain ⟨hslot, hend⟩ := hslots i p hp
          simp only [List.take_succ_cons, List.sum_cons]
          omega
  · rw [parameters?, Option.map_eq_none_iff, ← not_iff_not, not_not, ← ne_eq,
      Option.ne_none_iff_exists']
    exact exists_congr fun d ↦ MethodDescriptor.parse?_eq_some

/-- A `long` takes two slots, an array of them one, and the receiver comes before both. -/
theorem descriptor_decodes_longs :
    let m : MethodInfo := ⟨false, ⟨[0x28, 0x4A, 0x5B, 0x4A, 0x29, 0x56], rfl⟩, 4⟩
    m.descriptor.chars = "(J[J)V".toList ∧ m.returnsVoid? = some true ∧
      ∃ ps, m.parameters? = some ps ∧ ps.map (·.width) = [1, 2, 1] ∧
        ∀ i p, ps[i]? = some p → p.slot = ([1, 2, 1].take i).sum := by
  intro m
  have hchars : m.descriptor.chars = "(J[J)V".toList := by decide
  obtain ⟨shape, ps, -, hps, harguments, hresult, -, hvoid, hwidths, hslots⟩ :=
    (descriptor_decodes m).1 ⟨[⟨0, .long⟩, ⟨1, .long⟩], none⟩
      ⟨by simp [FieldType.Valid, BaseType.Valid], by simp⟩ (hchars.trans (by decide)) (by decide)
  have hwidths' : ps.map (·.width) = [1, 2, 1] := by
    rw [hwidths, harguments]
    rfl
  refine ⟨hchars, by rw [hvoid, hresult.mpr rfl]; rfl, ps, hps, hwidths', fun i p hp ↦ ?_⟩
  rw [(hslots i p hp).1, hwidths']

end MethodInfo

end Decompile
