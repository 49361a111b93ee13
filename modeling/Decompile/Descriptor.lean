import Decompile.Name

namespace Decompile

inductive BaseType
  | boolean | byte | short | int | long | float | double | char
  | object (name : List Char)
  deriving DecidableEq, Inhabited

structure FieldType where
  dimensions : Nat
  base : BaseType
  deriving DecidableEq, Inhabited

/-- Long and double take two slots, arrays of them one. -/
def FieldType.width (t : FieldType) : Nat :=
  if t.dimensions = 0 ∧ (t.base = .long ∨ t.base = .double) then 2 else 1

def BaseType.parse? : List Char → Option (BaseType × List Char)
  | 'Z' :: rest => some (.boolean, rest)
  | 'B' :: rest => some (.byte, rest)
  | 'S' :: rest => some (.short, rest)
  | 'I' :: rest => some (.int, rest)
  | 'J' :: rest => some (.long, rest)
  | 'F' :: rest => some (.float, rest)
  | 'D' :: rest => some (.double, rest)
  | 'C' :: rest => some (.char, rest)
  | 'L' :: rest =>
    match rest.takeWhile (· ≠ ';'), rest.dropWhile (· ≠ ';') with
    | c :: name, _ :: rest => some (.object (c :: name), rest)
    | _, _ => none
  | _ => none

theorem BaseType.length_lt_of_parse? {s rest : List Char} {t : BaseType}
    (h : BaseType.parse? s = some (t, rest)) : rest.length < s.length := by
  unfold BaseType.parse? at h
  split at h
  all_goals try (simp only [Option.some.injEq, Prod.mk.injEq] at h; obtain ⟨_, rfl⟩ := h; simp)
  · rename_i tail
    split at h
    · rename_i hd
      simp only [Option.some.injEq, Prod.mk.injEq] at h
      obtain ⟨_, rfl⟩ := h
      have hl := congrArg List.length hd
      have := (List.dropWhile_sublist (· ≠ ';') (l := tail)).length_le
      simp only [List.length_cons] at hl ⊢
      omega
    · simp at h
  · simp at h

def FieldType.parse? (s : List Char) : Option (FieldType × List Char) :=
  let dimensions := (s.takeWhile (· = '[')).length
  if 255 < dimensions then none
  else (BaseType.parse? (s.dropWhile (· = '['))).map fun (base, rest) ↦ (⟨dimensions, base⟩, rest)

theorem FieldType.length_lt_of_parse? {s rest : List Char} {t : FieldType}
    (h : FieldType.parse? s = some (t, rest)) : rest.length < s.length := by
  simp only [FieldType.parse?] at h
  split at h
  · simp at h
  · obtain ⟨⟨base, r⟩, hb, hr⟩ := Option.map_eq_some_iff.1 h
    have hlt := BaseType.length_lt_of_parse? hb
    have := (List.dropWhile_sublist (· = '[') (l := s)).length_le
    simp only [Prod.mk.injEq] at hr
    obtain ⟨_, rfl⟩ := hr
    omega

def FieldType.parseList? (s : List Char) : Option (List FieldType × List Char) :=
  match s with
  | ')' :: rest => some ([], rest)
  | s =>
    match _h : FieldType.parse? s with
    | none => none
    | some (t, rest) => (parseList? rest).map fun (ts, rest) ↦ (t :: ts, rest)
termination_by s.length
decreasing_by exact FieldType.length_lt_of_parse? _h

structure MethodDescriptor where
  parameters : List FieldType
  result : Option FieldType
  deriving DecidableEq, Inhabited

def MethodDescriptor.parse? : List Char → Option MethodDescriptor
  | '(' :: s => do
    let (parameters, rest) ← FieldType.parseList? s
    if rest = ['V'] then return ⟨parameters, none⟩
    let (result, rest) ← FieldType.parse? rest
    if rest.isEmpty then return ⟨parameters, some result⟩ else none
  | _ => none

/-- Slots that each argument of a call takes, receiver apart, and slots of its result. -/
structure CallShape where
  arguments : List Nat
  result : Nat
  deriving DecidableEq, Inhabited

def MethodDescriptor.callShape (d : MethodDescriptor) : CallShape where
  arguments := d.parameters.map (·.width)
  result := (d.result.map (·.width)).getD 0

def Name.callShape? (n : Name) : Option CallShape :=
  (MethodDescriptor.parse? n.chars).map (·.callShape)

def Name.fieldWidth (n : Name) : Nat := if n.spells "D" || n.spells "J" then 2 else 1

structure MethodInfo where
  isStatic : Bool
  descriptor : Name
  maxLocals : Nat
  deriving DecidableEq, Inhabited

structure Parameter where
  slot : Nat
  width : Nat
  deriving DecidableEq, Inhabited

def Parameter.layout (slot : Nat) : List FieldType → List Parameter
  | [] => []
  | t :: ts => ⟨slot, t.width⟩ :: layout (slot + t.width) ts

namespace MethodInfo

/-- Parameters in declaration order. An instance method takes `this` first, in slot 0. -/
def parameters? (m : MethodInfo) : Option (List Parameter) :=
  (MethodDescriptor.parse? m.descriptor.chars).map fun d ↦
    if m.isStatic then Parameter.layout 0 d.parameters
    else ⟨0, 1⟩ :: Parameter.layout 1 d.parameters

def returnsVoid? (m : MethodInfo) : Option Bool :=
  (MethodDescriptor.parse? m.descriptor.chars).map (·.result.isNone)

end MethodInfo

end Decompile
