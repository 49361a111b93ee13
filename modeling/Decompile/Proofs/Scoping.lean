import Decompile.Declaration
import Decompile.Proofs.Resembling
import Decompile.Proofs.Visiting

/-!
Every variable is declared once, at the lowest block around all its uses.
-/

namespace Decompile

theorem VariableSet.mem_add {s : VariableSet} {x y : LocalId} :
    x ∈ (s.add y).members ↔ x ∈ s.members ∨ x = y := by
  unfold add
  split
  next h =>
    refine ⟨.inl, fun hx ↦ hx.elim id ?_⟩
    rintro rfl
    exact List.contains_iff_mem.mp h
  next => simp

theorem VariableSet.mem_foldl_add {s : VariableSet} {xs : List LocalId} {x : LocalId} :
    x ∈ (xs.foldl add s).members ↔ x ∈ s.members ∨ x ∈ xs := by
  induction xs generalizing s with
  | nil => simp
  | cons y ys ih => rw [List.foldl_cons, ih, mem_add, or_assoc, List.mem_cons]

theorem VariableSet.mem_ofList {xs : List LocalId} {x : LocalId} :
    x ∈ (ofList xs).members ↔ x ∈ xs := by
  rw [ofList, mem_foldl_add]
  simp

namespace Blocks

variable {t t' : Blocks} {r s b c p : BlockId}

section Ancestors

theorem ancestorsWithin_succ {k n : Nat} (h : EndsIn t.outer k b) (hn : k ≤ n) :
    t.ancestorsWithin (n + 1) b = t.ancestorsWithin n b := by
  induction h generalizing n with
  | stop hb => cases n <;> simp [ancestorsWithin, hb]
  | step hb _ ih =>
    cases n with
    | zero => omega
    | succ n => simp only [ancestorsWithin, hb, ← ih (Nat.le_of_succ_le_succ hn)]

variable (ht : t.IsTree r)
include ht

theorem IsTree.eq_of_below (hs : t.Below r s) (h : t.Below s b) (h' : t.Below b s) : b = s := by
  cases h with
  | root => rfl
  | child hq hc => exact absurd (h'.trans hq) (ht.not_below_child (hs.trans hq) hc)

theorem IsTree.ancestors_root : t.ancestors r = [] := by
  rw [ancestors, ← ancestorsWithin_succ (.stop ht.outer_root) (Nat.zero_le _), ancestorsWithin,
    ht.outer_root]

theorem IsTree.ancestors_child (hp : t.Below r p) (hc : c ∈ (t.statement p).children) :
    t.ancestors c = p :: t.ancestors p := by
  obtain ⟨n, hn, hlt⟩ := ht.exists_depth hp
  have hout := ht.outer_child hp hc
  rw [ancestors, ← ancestorsWithin_succ (.step hout hn) hlt, ancestorsWithin, hout, ancestors]

/-- The blocks around `b` and `b` itself are those of the tree that `b` is below. -/
theorem IsTree.mem_path (hb : t.Below r b) :
    s ∈ b :: t.ancestors b ↔ t.Below r s ∧ t.Below s b := by
  induction hb with
  | root =>
    rw [ht.ancestors_root, List.mem_singleton]
    exact ⟨fun h ↦ h ▸ ⟨.root, .root⟩, fun h ↦ (ht.eq_of_below .root h.1 h.2)⟩
  | @child p c hp hc ih =>
    rw [ht.ancestors_child hp hc, List.mem_cons, ih]
    constructor
    · rintro (rfl | ⟨hs, hsp⟩)
      · exact ⟨hp.child hc, .root⟩
      · exact ⟨hs, hsp.child hc⟩
    · rintro ⟨hs, hsc⟩
      cases hsc with
      | root => exact .inl rfl
      | child hq hcq =>
        obtain rfl := Option.some.inj
          ((ht.outer_child hp hc).symm.trans (ht.outer_child (hs.trans hq) hcq))
        exact .inr ⟨hs, hq⟩

theorem IsTree.below_of_path {before after : List BlockId} (hb : t.Below r b)
    (hpath : b :: t.ancestors b = before ++ c :: after) (hs : s ∈ c :: after) : t.Below s c := by
  induction hb generalizing before with
  | root =>
    rw [ht.ancestors_root] at hpath
    cases before with
    | nil =>
      obtain ⟨rfl, rfl⟩ := List.cons.inj hpath
      exact List.mem_singleton.mp hs ▸ .root
    | cons => simp at hpath
  | @child p d hp hd ih =>
    cases before with
    | nil =>
      rw [← show d :: t.ancestors d = c :: after from hpath, ht.mem_path (hp.child hd)] at hs
      exact (List.cons.inj hpath).1 ▸ hs.2
    | cons =>
      rw [ht.ancestors_child hp hd] at hpath
      exact ih (List.cons.inj hpath).2

theorem IsTree.isWithin_iff (hb : t.Below r b) :
    t.isWithin b s = true ↔ t.Below r s ∧ t.Below s b := by
  rw [← ht.mem_path hb, isWithin, Bool.or_eq_true, beq_iff_eq, List.contains_iff_mem,
    List.mem_cons, eq_comm]

/-- The lowest block around two others. -/
theorem IsTree.commonAncestor (hb : t.Below r b) (hc : t.Below r c) :
    t.Below r (t.commonAncestor b c) ∧ ∀ s, t.Below r s →
      (t.Below s (t.commonAncestor b c) ↔ t.Below s b ∧ t.Below s c) := by
  have hroot : ((b :: t.ancestors b).find? (t.isWithin c)).isSome := by
    rw [List.find?_isSome]
    exact ⟨r, (ht.mem_path hb).mpr ⟨.root, hb⟩, (ht.isWithin_iff hc).mpr ⟨.root, hc⟩⟩
  obtain ⟨m, hm⟩ := Option.isSome_iff_exists.mp hroot
  rw [Blocks.commonAncestor, hm, Option.getD_some]
  obtain ⟨hmc, before, after, hpath, hfirst⟩ := List.find?_eq_some_iff_append.mp hm
  rw [ht.isWithin_iff hc] at hmc
  have hmb := (ht.mem_path hb).mp (List.mem_of_find?_eq_some hm)
  refine ⟨hmc.1, fun s hs ↦ ⟨fun h ↦ ⟨h.trans hmb.2, h.trans hmc.2⟩, fun h ↦ ?_⟩⟩
  have hmem := (ht.mem_path hb).mpr ⟨hs, h.1⟩
  rw [hpath, List.mem_append] at hmem
  refine ht.below_of_path hb hpath (hmem.resolve_left fun hs' ↦ ?_)
  simpa [(ht.isWithin_iff hc).mpr ⟨hs, h.2⟩] using hfirst s hs'

theorem IsTree.commonAncestors {bs : List (LocalId × BlockId)} (hb : t.Below r b)
    (hbs : ∀ p ∈ bs, t.Below r p.2) :
    t.Below r (bs.foldl (fun scope (_, b) ↦ t.commonAncestor scope b) b) ∧ ∀ s, t.Below r s →
      (t.Below s (bs.foldl (fun scope (_, b) ↦ t.commonAncestor scope b) b) ↔
        t.Below s b ∧ ∀ p ∈ bs, t.Below s p.2) := by
  induction bs generalizing b with
  | nil => simpa using hb
  | cons p bs ih =>
    rw [List.forall_mem_cons] at hbs
    obtain ⟨hm, hlow⟩ := ht.commonAncestor hb hbs.1
    obtain ⟨hm', hlow'⟩ := ih hm hbs.2
    refine ⟨hm', fun s hs ↦ ?_⟩
    rw [List.foldl_cons, hlow' s hs, hlow s hs, and_assoc, List.forall_mem_cons]

end Ancestors

theorem declares_setDeclares (t : Blocks) (b c : BlockId) (d : VariableSet) :
    ((t.setDeclares b d).get c).declares =
      if c = b ∧ b.index < t.size then d else (t.get c).declares := by
  rw [setDeclares, get_modify]
  split <;> rfl

theorem declares_clear {bs : List BlockId} (hb : b ∈ bs) :
    ((bs.foldl (·.setDeclares · {}) t).get b).declares = {} := by
  have hkeep (t : Blocks) (bs : List BlockId) (h : (t.get b).declares = {}) :
      ((bs.foldl (·.setDeclares · {}) t).get b).declares = {} := by
    induction bs generalizing t with
    | nil => exact h
    | cons c bs ih =>
      refine ih _ ?_
      rw [declares_setDeclares, h, ite_self]
  induction bs generalizing t with
  | nil => cases hb
  | cons c bs ih =>
    rcases List.mem_cons.mp hb with rfl | hb
    · refine hkeep _ bs ?_
      rw [declares_setDeclares]
      split
      next => rfl
      next h =>
        rw [get_of_size_le _ (Nat.le_of_not_lt fun hlt ↦ h ⟨rfl, hlt⟩)]
        rfl
    · exact ih hb

end Blocks

namespace Analysis

variable {a a' : Analysis} {r s b c : BlockId} {x : LocalId}

/-- A variable of the class occurs in the block, children apart: in an expression, or as the monitor
of a block that waits for its object. -/
def Occurs (a : Analysis) (b : BlockId) (x : LocalId) : Prop :=
  (∃ e ∈ (a.statement b).exprs, ∃ y ∈ a.exprs.localsIn e, a.locals.classOf y = x) ∨
    ∃ y body, a.statement b = .synchronized y none body ∧ a.locals.classOf y = x

/-- A catch clause below `r` binds the class. -/
def Caught (a : Analysis) (r : BlockId) (x : LocalId) : Prop :=
  ∃ b type y body, a.blocks.Below r b ∧ a.statement b = .catchClause type (some y) body ∧
    a.locals.classOf y = x

/-- The class is a variable of the tree that no header binds. -/
structure Undeclared (a : Analysis) (r : BlockId) (x : LocalId) : Prop where
  occurs : ∃ b, a.blocks.Below r b ∧ a.Occurs b x
  caught : ¬ a.Caught r x
  parameter : a.locals.kind x ≠ .parameter
  this : a.locals.kind x ≠ .this

theorem mem_occurrences {bs : List BlockId} :
    (x, b) ∈ a.occurrences bs ↔ b ∈ bs ∧ ∃ y ∈ a.occurring b, a.locals.classOf y = x := by
  unfold occurrences
  simp only [List.mem_flatMap, List.mem_map, Prod.mk.injEq]
  constructor
  · rintro ⟨c, hc, y, hy, hx, rfl⟩
    exact ⟨hc, y, hy, hx⟩
  · rintro ⟨hb, y, hy, hx⟩
    exact ⟨b, hb, y, hy, hx, rfl⟩

theorem occurring_iff (hb : (a.statement b).isSubroutine = false) :
    (∃ y ∈ a.occurring b, a.locals.classOf y = x) ↔ a.Occurs b x := by
  have hnamed (y : LocalId) : a.namedLocal? b = some y ↔
      ∃ body, a.statement b = .synchronized y none body := by
    unfold namedLocal?
    split
    next hs => simp [hs]
    next hs =>
      rw [hs] at hb
      cases hb
    next hno _ => simpa using hno y
  simp only [occurring, List.mem_append, Option.mem_toList, hnamed, List.mem_flatMap, Occurs]
  constructor
  · rintro ⟨y, ⟨body, hs⟩ | ⟨e, he, hy⟩, hx⟩
    · exact .inr ⟨y, body, hs, hx⟩
    · exact .inl ⟨e, he, y, hy, hx⟩
  · rintro (⟨e, he, y, hy, hx⟩ | ⟨y, body, hs, hx⟩)
    · exact ⟨y, .inr ⟨e, he, hy⟩, hx⟩
    · exact ⟨y, .inl ⟨body, hs⟩, hx⟩

section Scope

variable {occ : List (LocalId × BlockId)}

theorem mem_filter_class {p : LocalId × BlockId} :
    p ∈ occ.filter (·.1 = x) ↔ p ∈ occ ∧ p.1 = x := by
  rw [List.mem_filter, decide_eq_true_iff]

theorem exists_scopeOf? (h : (x, b) ∈ occ) : ∃ s, a.scopeOf? occ x = some s := by
  have hmem := mem_filter_class.mpr ⟨h, rfl⟩
  unfold scopeOf?
  split
  next he =>
    rw [he] at hmem
    cases hmem
  next => exact ⟨_, rfl⟩

theorem scopeOf?_eq_some (ht : a.blocks.IsTree r) (hocc : ∀ p ∈ occ, a.blocks.Below r p.2)
    (h : a.scopeOf? occ x = some s) : (∃ b, (x, b) ∈ occ) ∧ a.blocks.Below r s ∧
      ∀ c, a.blocks.Below r c →
        (a.blocks.Below c s ↔ ∀ b, (x, b) ∈ occ → a.blocks.Below c b) := by
  unfold scopeOf? at h
  split at h
  next => cases h
  next y b rest he =>
    cases h
    have hmem : ∀ p, p ∈ occ ∧ p.1 = x ↔ p = (y, b) ∨ p ∈ rest := fun p ↦ by
      rw [← mem_filter_class, he, List.mem_cons]
    have hfirst := (hmem (y, b)).mpr (.inl rfl)
    obtain ⟨hs, hlow⟩ := ht.commonAncestors (hocc _ hfirst.1) fun p hp ↦
      hocc p ((hmem p).mpr (.inr hp)).1
    refine ⟨⟨b, hfirst.2 ▸ hfirst.1⟩, hs, fun c hc ↦ (hlow c hc).trans ⟨?_, ?_⟩⟩
    · intro h d hd
      rcases (hmem (x, d)).mp ⟨hd, rfl⟩ with hd | hd
      · cases hd
        exact h.1
      · exact h.2 _ hd
    · intro h
      refine ⟨h b (hfirst.2 ▸ hfirst.1), fun p hp ↦ h p.2 ?_⟩
      have hp' := (hmem p).mpr (.inr hp)
      exact hp'.2 ▸ hp'.1

theorem scopeOf?_redeclares (h : Blocks.Redeclares a.blocks a'.blocks) :
    a'.scopeOf? occ x = a.scopeOf? occ x := by
  simp only [scopeOf?, h.commonAncestor]

theorem mem_declares_declareAll {xs : List LocalId} :
    x ∈ ((xs.foldl (fun a x ↦ (a.scopeOf? occ x).elim a (a.declareAt · x)) a).blocks.get
        s).declares.members ↔ x ∈ (a.blocks.get s).declares.members ∨
      x ∈ xs ∧ a.scopeOf? occ x = some s ∧ s.index < a.blocks.size := by
  induction xs generalizing a with
  | nil => simp
  | cons y ys ih =>
    rw [List.foldl_cons, ih]
    cases hy : a.scopeOf? occ y with
    | none =>
      rw [Option.elim_none, List.mem_cons]
      refine or_congr_right ⟨fun h ↦ ⟨.inr h.1, h.2⟩, fun h ↦ ⟨h.1.resolve_left ?_, h.2⟩⟩
      rintro rfl
      cases hy.symm.trans h.2.1
    | some t =>
      have hr : Blocks.Redeclares a.blocks (a.declareAt t y).blocks :=
        (Blocks.Redeclares.refl _).setDeclares t _
      have hdeclares : x ∈ ((a.declareAt t y).blocks.get s).declares.members ↔
          x ∈ (a.blocks.get s).declares.members ∨ x = y ∧ s = t ∧ t.index < a.blocks.size := by
        rw [declareAt, Blocks.declares_setDeclares]
        split
        next h => rw [h.1, VariableSet.mem_add]; simp [h.2]
        next h => simp [h]
      rw [Option.elim_some, scopeOf?_redeclares hr, hr.size, hdeclares, or_assoc, List.mem_cons]
      refine or_congr_right ⟨?_, ?_⟩
      · rintro (⟨rfl, rfl, hlt⟩ | ⟨hx, h⟩)
        · exact ⟨.inl rfl, hy, hlt⟩
        · exact ⟨.inr hx, h⟩
      · rintro ⟨rfl | hx, hs, hlt⟩
        · cases hy.symm.trans hs
          exact .inl ⟨rfl, rfl, hlt⟩
        · exact .inr ⟨hx, hs, hlt⟩

end Scope

theorem mem_caught (ht : a.blocks.IsTree r) :
    x ∈ (a.blocks.subtree r).filterMap a.caught? ↔ a.Caught r x := by
  have hcaught (b : BlockId) : a.caught? b = some x ↔
      ∃ type y body, a.statement b = .catchClause type (some y) body ∧ a.locals.classOf y = x := by
    unfold caught?
    split
    next hs => simp [hs]
    next hno => simpa using fun type y body hs ↦ (hno type y body hs).elim
  simp only [List.mem_filterMap, ht.mem_subtree, hcaught, Caught]
  constructor
  · rintro ⟨b, hb, type, y, body, hs⟩
    exact ⟨b, type, y, body, hb, hs⟩
  · rintro ⟨b, type, y, body, hb, hs⟩
    exact ⟨b, hb, type, y, body, hs⟩

/-- What the pass declares, in terms of the occurrences it has found. -/
theorem mem_declares_placeDeclarations (ht : a.blocks.IsTree (a.root a.entry))
    (hc : a.blocks.Below (a.root a.entry) c) :
    x ∈ (a.placeDeclarations.blocks.get c).declares.members ↔
      (¬ a.Caught (a.root a.entry) x ∧ a.locals.kind x ≠ .parameter ∧ a.locals.kind x ≠ .this) ∧
        a.scopeOf? (a.occurrences (a.blocks.subtree (a.root a.entry))) x = some c := by
  generalize hbs : a.blocks.subtree (a.root a.entry) = bs
  have hmem : c ∈ bs := hbs ▸ ht.mem_subtree.mpr hc
  have hred := (Blocks.Redeclares.refl a.blocks).clear bs
  have hclear := Blocks.declares_clear (t := a.blocks) hmem
  rw [placeDeclarations, hbs]
  generalize bs.foldl (·.setDeclares · {}) a.blocks = t at hred hclear
  have hstatement (b : BlockId) : ({ a with blocks := t } : Analysis).statement b = a.statement b :=
    hred.statement b
  have hocc : ({ a with blocks := t } : Analysis).occurrences bs = a.occurrences bs := by
    simp only [occurrences, occurring, namedLocal?, hstatement]
  have hcaught : ({ a with blocks := t } : Analysis).caught? = a.caught? := by
    funext b
    simp only [caught?, hstatement]
  have hscope : ({ a with blocks := t } : Analysis).scopeOf? (a.occurrences bs) x =
    a.scopeOf? (a.occurrences bs) x := scopeOf?_redeclares hred
  have hneeds : ({ a with blocks := t } : Analysis).needsDeclaration (bs.filterMap a.caught?) x =
      true ↔ ¬ a.Caught (a.root a.entry) x ∧ a.locals.kind x ≠ .parameter ∧
        a.locals.kind x ≠ .this := by
    rw [← mem_caught ht, hbs]
    simp [needsDeclaration, and_assoc]
  simp only [mem_declares_declareAll, hclear, hocc, hcaught, hscope, List.not_mem_nil, false_or,
    List.mem_filter, List.mem_mergeSort, VariableSet.mem_ofList, hneeds]
  refine ⟨fun h ↦ ⟨h.1.2, h.2.1⟩, fun h ↦ ⟨⟨?_, h.1⟩, h.2, hred.size ▸ ht.lt_size hc⟩⟩
  have hbelow : ∀ p ∈ a.occurrences bs, a.blocks.Below (a.root a.entry) p.2 := fun p hp ↦
    ht.mem_subtree.mp (hbs ▸ (mem_occurrences.mp hp).1)
  obtain ⟨b, hb⟩ := (scopeOf?_eq_some ht hbelow h.2).1
  exact List.mem_map.mpr ⟨_, hb, rfl⟩

/-- A variable that no header binds is declared by one block: the one that is around all its uses
while no block inside it is. Nothing else is declared. Methods with subroutine calls and returns are
rejected before, so that none is left in the tree. -/
theorem placeDeclarations_lowest (a : Analysis) (x : LocalId)
    (ht : a.blocks.IsTree (a.root a.entry))
    (hsub : ∀ b, a.blocks.Below (a.root a.entry) b → (a.statement b).isSubroutine = false) :
    (a.Undeclared (a.root a.entry) x →
      ∃ s, a.blocks.Below (a.root a.entry) s ∧
        (∀ c, a.blocks.Below (a.root a.entry) c →
          (x ∈ (a.placeDeclarations.blocks.get c).declares.members ↔ c = s)) ∧
        (∀ b, a.blocks.Below (a.root a.entry) b → a.Occurs b x → a.blocks.Below s b) ∧
        ∀ c, a.blocks.Below s c → c ≠ s →
          ∃ b, a.blocks.Below (a.root a.entry) b ∧ a.Occurs b x ∧ ¬ a.blocks.Below c b) ∧
      (¬ a.Undeclared (a.root a.entry) x → ∀ c, a.blocks.Below (a.root a.entry) c →
        x ∉ (a.placeDeclarations.blocks.get c).declares.members) := by
  have hdeclared := fun c hc ↦ mem_declares_placeDeclarations (x := x) (c := c) ht hc
  generalize a.root a.entry = r at ht hsub hdeclared ⊢
  have hocc (b : BlockId) : (x, b) ∈ a.occurrences (a.blocks.subtree r) ↔
      a.blocks.Below r b ∧ a.Occurs b x := by
    rw [mem_occurrences, ht.mem_subtree]
    exact and_congr_right fun hb ↦ occurring_iff (hsub b hb)
  have hbelow : ∀ p ∈ a.occurrences (a.blocks.subtree r), a.blocks.Below r p.2 := fun p hp ↦
    ht.mem_subtree.mp (mem_occurrences.mp hp).1
  constructor
  · intro hx
    obtain ⟨b, hb⟩ := hx.occurs
    obtain ⟨s, hs⟩ := exists_scopeOf? (a := a) ((hocc b).mpr hb)
    obtain ⟨-, hrs, hlow⟩ := scopeOf?_eq_some ht hbelow hs
    refine ⟨s, hrs, fun c hc ↦ ?_, fun b hb hx ↦ (hlow s hrs).mp .root b ((hocc b).mpr ⟨hb, hx⟩), ?_⟩
    · rw [hdeclared c hc, hs, Option.some_inj, eq_comm]
      exact and_iff_right ⟨hx.caught, hx.parameter, hx.this⟩
    · intro c hsc hne
      by_contra hall
      push Not at hall
      refine hne (ht.eq_of_below hrs hsc ((hlow c (hrs.trans hsc)).mpr fun b hb ↦ ?_))
      exact hall b ((hocc b).mp hb).1 ((hocc b).mp hb).2
  · intro hx c hc hmem
    obtain ⟨⟨hcaught, hparameter, hthis⟩, hs⟩ := (hdeclared c hc).mp hmem
    obtain ⟨b, hb⟩ := (scopeOf?_eq_some ht hbelow hs).1
    exact hx ⟨⟨b, (hocc b).mp hb⟩, hcaught, hparameter, hthis⟩

/-- A method that assigns its second variable and returns it. -/
def assigning : Analysis where
  exprs := ⟨⟨#[.var ⟨0⟩, .const (.int 7), .assign ⟨0⟩ none ⟨1⟩, .var ⟨1⟩]⟩⟩
  blocks := ⟨⟨#[{ statement := .evaluate ⟨2⟩ 0, outer := some ⟨2⟩ },
    { statement := .returns (some ⟨3⟩), outer := some ⟨2⟩ }, { statement := .sequence ⟨0⟩ ⟨1⟩ }]⟩⟩
  locals := ⟨⟨#[⟨.slot, some 1⟩, ⟨.slot, some 1⟩]⟩, ⟨⟨#[.leader 2, .member 0]⟩⟩⟩
  graph := { flows := ⟨#[⟨0, 3, ⟨2⟩, ⟨1⟩, [], [], {}, {}, true⟩]⟩ }
  checked := true
  fuel := 0
  entry := ⟨0⟩

theorem placeDeclarations_lowest_assigning : ∃ s, assigning.blocks.Below ⟨2⟩ s ∧
    ⟨0⟩ ∈ (assigning.placeDeclarations.blocks.get s).declares.members ∧
    assigning.blocks.Below s ⟨0⟩ ∧ assigning.blocks.Below s ⟨1⟩ := by
  have hmem {b : BlockId} (hb : assigning.blocks.Below ⟨2⟩ b) : b ∈ [⟨2⟩, ⟨0⟩, (⟨1⟩ : BlockId)] :=
    hb.mem_of_closed (by decide) (by decide +kernel)
  have hplain : ∀ p ∈ [⟨2⟩, ⟨0⟩, (⟨1⟩ : BlockId)], (∀ c ∈ (assigning.blocks.statement p).children,
      assigning.blocks.outer c = some p) ∧ (assigning.blocks.statement p).children.Nodup ∧
      p.index < assigning.blocks.size ∧ (assigning.statement p).isSubroutine = false := by
    decide +kernel
  have ht : assigning.blocks.IsTree ⟨2⟩ :=
    ⟨by decide +kernel, fun hp ↦ (hplain _ (hmem hp)).1 _, fun hp ↦ (hplain _ (hmem hp)).2.1,
      fun hp ↦ (hplain _ (hmem hp)).2.2.1⟩
  have hfirst : assigning.blocks.Below ⟨2⟩ ⟨0⟩ := .child .root (by decide +kernel)
  have hsecond : assigning.blocks.Below ⟨2⟩ ⟨1⟩ := .child .root (by decide +kernel)
  have hoccurs : assigning.Occurs ⟨0⟩ ⟨0⟩ :=
    .inl ⟨⟨2⟩, by decide +kernel, ⟨0⟩, by decide +kernel, by decide +kernel⟩
  have hcaught : ¬ assigning.Caught ⟨2⟩ ⟨0⟩ := fun h ↦
    absurd ((mem_caught ht).mpr h) (by decide +kernel)
  obtain ⟨s, hs, hdeclares, haround, -⟩ := (placeDeclarations_lowest assigning ⟨0⟩ ht
    fun b hb ↦ (hplain b (hmem hb)).2.2.2).1
      ⟨⟨_, hfirst, hoccurs⟩, hcaught, by decide +kernel, by decide +kernel⟩
  exact ⟨s, hs, (hdeclares s hs).mpr rfl, haround _ hfirst hoccurs,
    haround _ hsecond (.inl ⟨⟨3⟩, by decide +kernel, ⟨1⟩, by decide +kernel, by decide +kernel⟩)⟩

end Analysis

end Decompile
