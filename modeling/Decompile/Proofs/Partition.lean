import Decompile.Proofs.Walk
import Decompile.Variable.Basic

namespace Decompile

theorem Table.set_get {α : Type} [Inhabited α] (t : Table α) (i : Nat) : t.set i (t.get i) = t := by
  refine congrArg Table.mk (Array.ext (by simp) fun j hj hj' ↦ ?_)
  by_cases h : i = j
  · subst h
    rw [Array.getElem_setIfInBounds hj', if_pos rfl]
    simp [get, Array.getD, hj']
  · rw [Array.getElem_setIfInBounds hj', if_neg h]

namespace Partition

/-- The link of a key that does not lead its class. -/
def parent? (p : Partition) (key : Nat) : Option Nat :=
  match p.nodes.get key with
  | .leader _ => none
  | .member parent => some parent

/-- The links of every key lead to a leader. -/
def WellFormed (p : Partition) : Prop := ∀ key, ∃ n, EndsIn p.parent? n key

variable {p : Partition}

theorem lt_of_parent? {key parent : Nat} (h : p.parent? key = some parent) : key < p.size := by
  by_contra hlt
  have hget : p.nodes.get key = .leader 1 := p.nodes.get_of_size_le (Nat.le_of_not_lt hlt)
  simp [parent?, hget] at h

theorem ends_le {n key : Nat} (h : EndsIn p.parent? n key) : n ≤ p.size :=
  h.add_le id (fun _ _ ↦ id) (fun _ _ ↦ lt_of_parent?) List.nodup_nil nofun

theorem findWithin_of_ends {n key : Nat} (h : EndsIn p.parent? n key) (m : Nat) (hm : n ≤ m) :
    p.findWithin m key = p.findWithin n key := by
  induction h generalizing m with
  | @stop key hn =>
    cases m with
    | zero => rfl
    | succ m =>
      unfold parent? at hn
      unfold findWithin
      split at hn <;> simp_all
  | @step key parent n hk h ih =>
    obtain ⟨m, rfl⟩ : ∃ k, m = k + 1 := ⟨m - 1, by omega⟩
    unfold parent? at hk
    unfold findWithin
    split at hk
    · simp at hk
    · simp_all

theorem find_of_parent?_none {key : Nat} (h : p.parent? key = none) : p.find key = key := by
  unfold find
  rw [findWithin_of_ends (.stop h) _ (Nat.zero_le _)]
  rfl

theorem WellFormed.find_of_parent? (hp : p.WellFormed) {key parent : Nat}
    (h : p.parent? key = some parent) : p.find key = p.find parent := by
  obtain ⟨n, hn⟩ := hp parent
  unfold find
  rw [findWithin_of_ends (.step h hn) _ (ends_le (.step h hn)), findWithin_of_ends hn _ (ends_le hn)]
  unfold parent? at h
  split at h <;> simp_all [findWithin]

theorem WellFormed.parent?_find (hp : p.WellFormed) (key : Nat) : p.parent? (p.find key) = none := by
  obtain ⟨n, hn⟩ := hp key
  induction hn with
  | stop h => rwa [find_of_parent?_none h]
  | step h _ ih => rwa [hp.find_of_parent? h]

theorem WellFormed.find_find (hp : p.WellFormed) (key : Nat) : p.find (p.find key) = p.find key :=
  find_of_parent?_none (hp.parent?_find key)

/-! Pointing a key at a leader -/

/-- The classes with one key made to point straight at another. -/
def point (p : Partition) (key leader : Nat) : Partition := ⟨p.nodes.set key (.member leader)⟩

@[simp] theorem size_point (key leader : Nat) : (p.point key leader).size = p.size := by
  simp [point, size]

theorem parent?_point {key : Nat} (hk : key < p.size) (leader x : Nat) :
    (p.point key leader).parent? x = if x = key then some leader else p.parent? x := by
  unfold parent? point
  rw [Table.get_set]
  by_cases hx : key = x
  · subst hx; simp [show key < p.nodes.size from hk]
  · simp [hx, Ne.symm hx]

/-- Links stay among the keys handed out. -/
def Bounded (p : Partition) : Prop := ∀ key parent, p.parent? key = some parent → parent < p.size

theorem WellFormed.find_lt (hp : p.WellFormed) (hb : p.Bounded) {key : Nat} (hk : key < p.size) :
    p.find key < p.size := by
  obtain ⟨n, hn⟩ := hp key
  induction hn with
  | stop h => rwa [find_of_parent?_none h]
  | step h _ ih =>
    rw [hp.find_of_parent? h]
    exact ih (hb _ _ h)

theorem Bounded.point (hb : p.Bounded) {key leader : Nat} (hk : key < p.size)
    (hl : leader < p.size) : (p.point key leader).Bounded := by
  intro x parent h
  rw [parent?_point hk] at h
  rw [size_point]
  split_ifs at h
  · exact Option.some.inj h ▸ hl
  · exact hb x parent h

section Point

variable {key leader : Nat} (hp : p.WellFormed) (hk : key < p.size)
  (hl : p.parent? leader = none) (hne : leader ≠ key)
include hk hl hne

/-- No way to a leader gets longer by a link that already led somewhere. -/
theorem ends_point {n x : Nat} (hn : EndsIn p.parent? n x) :
    ∃ m, EndsIn (p.point key leader).parent? m x ∧ (p.parent? key ≠ none → m ≤ n) := by
  have hleader : EndsIn (p.point key leader).parent? 0 leader :=
    .stop (by rw [parent?_point hk, if_neg hne]; exact hl)
  induction hn with
  | @stop x hx =>
    by_cases hxk : x = key
    · exact ⟨1, .step (by rw [parent?_point hk, if_pos hxk]) hleader, fun h ↦ absurd (hxk ▸ hx) h⟩
    · exact ⟨0, .stop (by rw [parent?_point hk, if_neg hxk]; exact hx), fun _ ↦ le_rfl⟩
  | @step x y n hx _ ih =>
    by_cases hxk : x = key
    · exact ⟨1, .step (by rw [parent?_point hk, if_pos hxk]) hleader, fun _ ↦ by omega⟩
    · obtain ⟨m, hm, hle⟩ := ih
      exact ⟨m + 1, .step (by rw [parent?_point hk, if_neg hxk]; exact hx) hm,
        fun h ↦ Nat.succ_le_succ (hle h)⟩

include hp

theorem wellFormed_point : (p.point key leader).WellFormed := fun x ↦
  have ⟨_, hn⟩ := hp x
  have ⟨m, hm, _⟩ := ends_point hk hl hne hn
  ⟨m, hm⟩

/-- What a key that did not lead before, or one that did, finds once `key` points at `leader`. -/
theorem find_point (hkey : p.find key = key ∨ p.find key = leader) (x : Nat) :
    (p.point key leader).find x = if p.find x = key then leader else p.find x := by
  have hwf := wellFormed_point hp hk hl hne
  have hleader : (p.point key leader).find leader = leader :=
    find_of_parent?_none (by rw [parent?_point hk, if_neg hne]; exact hl)
  have hself : (p.point key leader).find key = leader := by
    rw [hwf.find_of_parent? (by rw [parent?_point hk, if_pos rfl]), hleader]
  obtain ⟨n, hn⟩ := hp x
  induction hn with
  | @stop x hx =>
    rw [find_of_parent?_none hx]
    by_cases hxk : x = key
    · rw [hxk, hself, if_pos rfl]
    · rw [find_of_parent?_none (by rw [parent?_point hk, if_neg hxk]; exact hx), if_neg hxk]
  | @step x y n hx _ ih =>
    by_cases hxk : x = key
    · rw [hxk, hself]
      rcases hkey with h | h <;> rw [h]
      · rw [if_pos rfl]
      · rw [if_neg hne]
    · rw [hwf.find_of_parent? (by rw [parent?_point hk, if_neg hxk]; exact hx), ih,
        hp.find_of_parent? hx]

end Point

/-! Resolving -/

/-- The same classes with the same leaders, perhaps by shorter ways. -/
structure Regroups (p q : Partition) : Prop where
  wellFormed : q.WellFormed
  size_eq : q.size = p.size
  find_eq : ∀ x, q.find x = p.find x
  bounded : p.Bounded → q.Bounded
  get_eq : ∀ {x}, p.parent? x = none → q.nodes.get x = p.nodes.get x

theorem WellFormed.regroups (hp : p.WellFormed) : Regroups p p :=
  ⟨hp, rfl, fun _ ↦ rfl, id, fun _ ↦ rfl⟩

theorem Regroups.parent? {q : Partition} (h : Regroups p q) {x : Nat} (hx : p.parent? x = none) :
    q.parent? x = none := by
  rw [Partition.parent?, h.get_eq hx]
  exact hx

theorem Regroups.trans {q r : Partition} (h : Regroups p q) (h' : Regroups q r) : Regroups p r where
  wellFormed := h'.wellFormed
  size_eq := h'.size_eq.trans h.size_eq
  find_eq x := (h'.find_eq x).trans (h.find_eq x)
  bounded hb := h'.bounded (h.bounded hb)
  get_eq hx := (h'.get_eq (h.parent? hx)).trans (h.get_eq hx)

theorem WellFormed.regroups_point (hp : p.WellFormed) {key parent : Nat}
    (hkey : p.parent? key = some parent) : Regroups p (p.point key (p.find key)) := by
  have hk := lt_of_parent? hkey
  have hl := hp.parent?_find key
  have hne : p.find key ≠ key := by
    intro h
    rw [h, hkey] at hl
    cases hl
  refine ⟨wellFormed_point hp hk hl hne, size_point _ _, fun x ↦ ?_,
    fun hb ↦ hb.point hk (hp.find_lt hb hk), fun {x} hx ↦ ?_⟩
  · rw [find_point hp hk hl hne (.inr rfl)]
    split_ifs with h
    · rw [← h, hp.find_find]
    · rfl
  · rw [point, Table.get_set, if_neg]
    rintro ⟨rfl, -⟩
    rw [hkey] at hx
    cases hx

theorem regroups_compressWithin (leader n : Nat) :
    ∀ {key : Nat} {p : Partition}, p.WellFormed → p.find key = leader →
      Regroups p (compressWithin leader n key p) := by
  induction n with
  | zero => exact fun hp _ ↦ hp.regroups
  | succ n ih =>
    intro key p hp hf
    unfold compressWithin
    split
    · exact hp.regroups
    · split
      · exact hp.regroups
      · next parent hget =>
        have hparent : p.parent? key = some parent := by simp [parent?, hget]
        have hpoint := hp.regroups_point hparent
        rw [hf] at hpoint
        refine hpoint.trans (ih hpoint.wellFormed ?_)
        rw [hpoint.find_eq, ← hp.find_of_parent? hparent, hf]

theorem WellFormed.regroups_resolve (hp : p.WellFormed) (key : Nat) :
    Regroups p (p.resolve key).1 :=
  regroups_compressWithin (p.find key) p.size hp rfl

/-! Merging -/

/-- The classes with another rank for a leader. -/
def rerank (p : Partition) (leader rank : Nat) : Partition := ⟨p.nodes.set leader (.leader rank)⟩

theorem parent?_rerank {key : Nat} (h : p.parent? key = none) (rank x : Nat) :
    (p.rerank key rank).parent? x = p.parent? x := by
  by_cases hx : key = x
  · subst hx
    rw [h, parent?, rerank, Table.get_set]
    split_ifs
    · rfl
    · exact h
  · simp [parent?, rerank, Table.get_set, hx]

theorem rerank_rank {key : Nat} (h : p.parent? key = none) : p.rerank key (p.rank key) = p := by
  have hget : p.nodes.get key = .leader (p.rank key) := by
    unfold parent? at h
    unfold rank
    split at h
    · next hkey => simp [hkey]
    · cases h
  rw [rerank, ← hget, Table.set_get]

theorem WellFormed.of_parent? (hp : p.WellFormed) {q : Partition}
    (h : ∀ x, q.parent? x = p.parent? x) : q.WellFormed ∧ ∀ x, q.find x = p.find x := by
  have heq : q.parent? = p.parent? := funext h
  have hq : q.WellFormed := fun x ↦ heq ▸ hp x
  refine ⟨hq, fun x ↦ ?_⟩
  obtain ⟨n, hn⟩ := hp x
  induction hn with
  | stop hx => rw [find_of_parent?_none hx, find_of_parent?_none (by rw [h]; exact hx)]
  | @step x y n hx _ ih =>
    rw [hp.find_of_parent? hx, hq.find_of_parent? (by rw [h]; exact hx), ih]

/-- The link that a merge makes: `key` gives way to a leader of at least its rank, which rises if the
ranks are equal. -/
structure Links (p : Partition) (key leader rank : Nat) : Prop where
  parent?_key : p.parent? key = none
  parent?_leader : p.parent? leader = none
  ne : leader ≠ key
  rank_cases : p.rank key < p.rank leader ∧ rank = p.rank leader ∨
    p.rank key = p.rank leader ∧ rank = p.rank leader + 1

/-- A merge first resolves both keys. If their leaders differ, one is then made to point at the
other. -/
theorem WellFormed.merge_cases (hp : p.WellFormed) (a b : Nat) : ∃ q, Regroups p q ∧
    (p.find a = p.find b ∧ p.merge a b = (q, false) ∨
      ∃ key leader rank, (key = p.find a ∧ leader = p.find b ∨ key = p.find b ∧ leader = p.find a) ∧
        q.Links key leader rank ∧ p.merge a b = ((q.rerank leader rank).point key leader, true)) := by
  have h₁ := hp.regroups_resolve a
  have h₂ := h₁.wellFormed.regroups_resolve b
  have hlb : ((p.resolve a).1.resolve b).2 = p.find b := h₁.find_eq b
  have hq := h₁.trans h₂
  refine ⟨_, hq, ?_⟩
  have ha := hq.parent? (hp.parent?_find a)
  have hb := hq.parent? (hp.parent?_find b)
  unfold merge
  simp only [hlb, show (p.resolve a).2 = p.find a from rfl]
  generalize ((p.resolve a).1.resolve b).1 = q at ha hb
  split_ifs with hab hlt heq
  · exact .inl ⟨hab, rfl⟩
  · refine .inr ⟨_, _, _, .inl ⟨rfl, rfl⟩, ⟨ha, hb, Ne.symm hab, .inl ⟨hlt, rfl⟩⟩, ?_⟩
    rw [rerank_rank hb, point]
  · exact .inr ⟨_, _, _, .inr ⟨rfl, rfl⟩, ⟨hb, ha, hab, .inr ⟨heq.symm, rfl⟩⟩, rfl⟩
  · refine .inr ⟨_, _, _, .inr ⟨rfl, rfl⟩, ⟨hb, ha, hab, .inl ⟨by omega, rfl⟩⟩, ?_⟩
    rw [rerank_rank ha, point]

/-- The classes of `a` and `b` are one, led by one of the two leaders, and the others are as they
were. -/
structure Joins (p : Partition) (a b : Nat) (q : Partition) : Prop where
  wellFormed : q.WellFormed
  bounded : q.Bounded
  size_eq : q.size = p.size
  find_eq : ∃ leader, (leader = p.find a ∨ leader = p.find b) ∧
    ∀ x, q.find x = if p.find x = p.find a ∨ p.find x = p.find b then leader else p.find x

theorem Joins.regroups {a b : Nat} {q r : Partition} (h : Joins p a b q) (h' : Regroups q r) :
    Joins p a b r where
  wellFormed := h'.wellFormed
  bounded := h'.bounded h.bounded
  size_eq := h'.size_eq.trans h.size_eq
  find_eq := by
    obtain ⟨leader, hl, hfind⟩ := h.find_eq
    exact ⟨leader, hl, fun x ↦ (h'.find_eq x).trans (hfind x)⟩

theorem Links.find_eq {key leader rank : Nat} (h : p.Links key leader rank) (hp : p.WellFormed)
    (hk : key < p.size) : ((p.rerank leader rank).point key leader).WellFormed ∧
      ∀ x, ((p.rerank leader rank).point key leader).find x =
        if p.find x = key then leader else p.find x := by
  obtain ⟨hwf, hfind⟩ := hp.of_parent? (parent?_rerank h.parent?_leader rank)
  have hk' : key < (p.rerank leader rank).size := by simpa [rerank, size] using hk
  have hl : (p.rerank leader rank).parent? leader = none := by
    rw [parent?_rerank h.parent?_leader]; exact h.parent?_leader
  refine ⟨wellFormed_point hwf hk' hl h.ne, fun x ↦ ?_⟩
  rw [find_point hwf hk' hl h.ne (.inl (by rw [hfind, find_of_parent?_none h.parent?_key])), hfind]

theorem WellFormed.joins_merge (hp : p.WellFormed) (hb : p.Bounded) {a b : Nat} (ha : a < p.size)
    (hb' : b < p.size) : Joins p a b (p.merge a b).1 := by
  obtain ⟨q, hq, ⟨hab, h⟩ | ⟨key, leader, rank, hends, hlinks, h⟩⟩ := hp.merge_cases a b <;> rw [h]
  · refine ⟨hq.wellFormed, hq.bounded hb, hq.size_eq, p.find a, .inl rfl, fun x ↦ ?_⟩
    rw [hq.find_eq]
    split_ifs with hx
    · exact hx.elim id fun hx ↦ hx.trans hab.symm
    · rfl
  · have hla := hp.find_lt hb ha
    have hlb := hp.find_lt hb hb'
    have hlt : key < q.size ∧ leader < q.size := by
      rw [hq.size_eq]
      rcases hends with ⟨rfl, rfl⟩ | ⟨rfl, rfl⟩ <;> exact ⟨by assumption, by assumption⟩
    have hsize : (q.rerank leader rank).size = q.size := by simp [rerank, size]
    obtain ⟨hwf, hfind⟩ := hlinks.find_eq hq.wellFormed hlt.1
    refine ⟨hwf, Bounded.point ?_ (hsize.symm ▸ hlt.1) (hsize.symm ▸ hlt.2), by
      rw [size_point, hsize, hq.size_eq], leader, hends.symm.imp And.right And.right, fun x ↦ ?_⟩
    · intro x parent hx
      rw [parent?_rerank hlinks.parent?_leader] at hx
      exact hsize.symm ▸ hq.bounded hb x parent hx
    · rw [hfind, hq.find_eq]
      rcases hends with ⟨rfl, rfl⟩ | ⟨rfl, rfl⟩ <;> split_ifs <;> simp_all

theorem parent?_add (x : Nat) : p.add.1.parent? x = p.parent? x := by
  by_cases hx : x = p.nodes.size
  · simp [parent?, Partition.add, Table.get_push, hx, p.nodes.get_of_size_le le_rfl]
    rfl
  · simp [parent?, Partition.add, Table.get_push, hx]

theorem WellFormed.add (hp : p.WellFormed) :
    p.add.1.WellFormed ∧ p.add.1.size = p.size + 1 ∧ ∀ x, p.add.1.find x = p.find x := by
  obtain ⟨hwf, hfind⟩ := hp.of_parent? parent?_add
  exact ⟨hwf, by simp [Partition.add, size], hfind⟩

theorem Bounded.add (hb : p.Bounded) : p.add.1.Bounded := by
  intro x parent h
  rw [parent?_add] at h
  have := hb x parent h
  simp only [Partition.add, size, Table.size_push] at this ⊢
  omega

end Partition

namespace Locals

/-- Every local has a class, and the links between them stay among the locals. -/
structure WellFormed (t : Locals) : Prop where
  classes : t.classes.WellFormed
  bounded : t.classes.Bounded
  size_eq : t.classes.size = t.size

theorem wellFormed_empty : ({} : Locals).WellFormed := by
  have hnone (key : Nat) : ({} : Partition).parent? key = none := rfl
  exact ⟨fun key ↦ ⟨0, .stop (hnone key)⟩, fun key _ h ↦ by simp [hnone] at h, rfl⟩

/-- The locals of `t` are locals of `t'`, where those of one class still are of one class. -/
structure Extends (t t' : Locals) : Prop where
  size_le : t.size ≤ t'.size
  slot_eq : ∀ {x}, x.index < t.size → t'.slot x = t.slot x
  classOf_eq : ∀ {x y}, t.classOf x = t.classOf y → t'.classOf x = t'.classOf y

variable {t t' t'' : Locals} {x y : LocalId}

theorem Extends.refl (t : Locals) : Extends t t := ⟨le_rfl, fun _ ↦ rfl, id⟩

theorem Extends.trans (h : Extends t t') (h' : Extends t' t'') : Extends t t'' :=
  ⟨h.size_le.trans h'.size_le,
    fun hx ↦ (h'.slot_eq (lt_of_lt_of_le hx h.size_le)).trans (h.slot_eq hx),
    fun hxy ↦ h'.classOf_eq (h.classOf_eq hxy)⟩

theorem classOf_inj : t.classOf x = t.classOf y ↔ t.classes.find x.index = t.classes.find y.index := by
  simp [classOf]

@[simp] theorem size_merge (t : Locals) (x y : LocalId) : (t.merge x y).1.size = t.size := by
  unfold merge
  dsimp only
  split <;> simp [size]

@[simp] theorem slot_merge (t : Locals) (x y z : LocalId) : (t.merge x y).1.slot z = t.slot z := by
  unfold merge
  dsimp only
  split
  · rw [slot, slot, Table.get_modify]
    split <;> rfl
  · rfl

section Merge

variable (ht : t.WellFormed) (hx : x.index < t.size) (hy : y.index < t.size)
include ht hx hy

theorem WellFormed.joins_merge :
    Partition.Joins t.classes x.index y.index (t.merge x y).1.classes := by
  have hjoins := ht.classes.joins_merge ht.bounded (ht.size_eq.symm ▸ hx) (ht.size_eq.symm ▸ hy)
  unfold merge
  dsimp only
  split
  · exact hjoins.regroups (hjoins.wellFormed.regroups_resolve x.index)
  · exact hjoins

theorem WellFormed.merge : (t.merge x y).1.WellFormed := by
  have h := ht.joins_merge hx hy
  exact ⟨h.wellFormed, h.bounded, by rw [h.size_eq, ht.size_eq, size_merge]⟩

theorem WellFormed.extends_merge : Extends t (t.merge x y).1 := by
  refine ⟨by rw [size_merge], fun _ ↦ slot_merge t x y _, fun h ↦ ?_⟩
  obtain ⟨leader, -, hfind⟩ := (ht.joins_merge hx hy).find_eq
  rw [classOf_inj] at h ⊢
  rw [hfind, hfind, h]

theorem WellFormed.classOf_merge : (t.merge x y).1.classOf x = (t.merge x y).1.classOf y := by
  obtain ⟨leader, -, hfind⟩ := (ht.joins_merge hx hy).find_eq
  rw [classOf_inj, hfind, hfind, if_pos (.inl rfl), if_pos (.inr rfl)]

end Merge

@[simp] theorem size_add (t : Locals) (kind : LocalKind) (slot : Option Nat) :
    (t.add kind slot).1.size = t.size + 1 := by
  simp [add, size]

theorem WellFormed.index_add (ht : t.WellFormed) (kind : LocalKind) (slot : Option Nat) :
    (t.add kind slot).2 = ⟨t.size⟩ := by
  simp [add, Partition.add, ht.size_eq]

theorem slot_add (t : Locals) (kind : LocalKind) (slot : Option Nat) (x : LocalId) :
    (t.add kind slot).1.slot x = if x.index = t.size then slot else t.slot x := by
  by_cases h : x.index = t.infos.size <;> simp [add, Locals.slot, Table.get_push, size, h]

theorem WellFormed.add (ht : t.WellFormed) (kind : LocalKind) (slot : Option Nat) :
    (t.add kind slot).1.WellFormed := by
  obtain ⟨hwf, hs, -⟩ := ht.classes.add
  refine ⟨hwf, ht.bounded.add, ?_⟩
  rw [size_add, ← ht.size_eq]
  exact hs

theorem extends_add (ht : t.classes.WellFormed) (kind : LocalKind) (slot : Option Nat) :
    Extends t (t.add kind slot).1 := by
  obtain ⟨-, -, hfind⟩ := ht.add
  refine ⟨by simp, fun {x} hx ↦ ?_, fun {x y} h ↦ ?_⟩
  · rw [slot_add, if_neg (by omega)]
  · rw [classOf_inj] at h ⊢
    exact (hfind _).trans (h.trans (hfind _).symm)

end Locals

end Decompile
