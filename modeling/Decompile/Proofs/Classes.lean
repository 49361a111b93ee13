import Decompile.Proofs.Partition
import Mathlib.Algebra.Order.Ring.Nat
import Mathlib.Data.Finset.Card
import Mathlib.Data.Finset.Range
import Mathlib.Logic.Relation

/-!
The classes of keys are those of the equivalence that the merged pairs generate, and the strongest
kind that a member was made with is the kind of its class.
-/

namespace Decompile

/-- The node in one signed number: the parent, or the rank below zero. -/
def PartitionNode.word : PartitionNode → Int
  | .leader rank => -rank
  | .member parent => parent

namespace Partition

/-- Some operations on keys that were handed out, and the pairs that they merged. -/
inductive Run : List (Nat × Nat) → Partition → Prop
  | empty : Run [] {}
  | add {pairs p} : Run pairs p → Run pairs p.add.1
  | merge {pairs p a b} : Run pairs p → a < p.size → b < p.size →
    Run ((a, b) :: pairs) (p.merge a b).1
  | resolve {pairs p key} : Run pairs p → key < p.size → Run pairs (p.resolve key).1

/-- One round of the search for the leader. -/
def Climbs (p : Partition) (key parent : Nat) : Prop := p.parent? key = some parent

/-- One round of the loop that points the keys on the way at the leader. -/
def Compresses (leader : Nat) (s s' : Partition × Nat) : Prop :=
  s.2 ≠ leader ∧ s.1.Climbs s.2 s'.2 ∧ s'.1 = s.1.point s.2 leader

/-- The equivalence that the pairs generate. -/
def Related (pairs : List (Nat × Nat)) : Nat → Nat → Prop :=
  Relation.EqvGen fun x y ↦ (x, y) ∈ pairs

/-- The keys that `leader` leads. -/
def members (p : Partition) (leader : Nat) : Finset Nat :=
  (Finset.range p.size).filter fun x ↦ p.find x = leader

variable {p q : Partition} {pairs : List (Nat × Nat)} {a b key : Nat}

/-! Termination -/

theorem WellFormed.climbs_find (hp : p.WellFormed) (key : Nat) :
    Relation.ReflTransGen p.Climbs key (p.find key) := by
  obtain ⟨n, hn⟩ := hp key
  induction hn with
  | stop h => rw [find_of_parent?_none h]
  | step h _ ih =>
    rw [hp.find_of_parent? h]
    exact .head h ih

/-- By induction on the fuel, of which no more is needed than the links are long. -/
theorem compresses_compressWithin {leader n : Nat} (m : Nat) (hp : p.WellFormed)
    (hf : p.find key = leader) (hn : EndsIn p.parent? n key) (hnm : n ≤ m) :
    Relation.ReflTransGen (Compresses leader) (p, key) (compressWithin leader m key p, leader) := by
  induction m generalizing n key p with
  | zero =>
    obtain rfl : n = 0 := by omega
    cases hn with
    | stop h =>
      rw [find_of_parent?_none h] at hf
      rw [hf]
      exact .refl
  | succ m ih =>
    unfold compressWithin
    split_ifs with hkey
    · rw [hkey]
    · cases hn with
      | stop h => exact absurd ((find_of_parent?_none h).symm.trans hf) hkey
      | @step _ parent n hparent hn =>
        have hget : p.nodes.get key = .member parent := by
          unfold parent? at hparent
          split at hparent <;> simp_all
        rw [hget]
        have hpoint := hp.regroups_point hparent
        have hl := hp.parent?_find key
        rw [hf] at hpoint hl
        obtain ⟨k, hk, hle⟩ := ends_point (lt_of_parent? hparent) hl (Ne.symm hkey) hn
        refine .head (b := (p.point key leader, parent)) ⟨hkey, hparent, rfl⟩
          (ih hpoint.wellFormed ?_ hk ?_)
        · rw [hpoint.find_eq, ← hp.find_of_parent? hparent, hf]
        · exact (hle (by simp [hparent])).trans (by omega)

theorem WellFormed.compresses_resolve (hp : p.WellFormed) (key : Nat) :
    Relation.ReflTransGen (Compresses (p.find key)) (p, key) ((p.resolve key).1, p.find key) := by
  obtain ⟨n, hn⟩ := hp key
  exact compresses_compressWithin p.size hp rfl hn (ends_le hn)

/-! The closure -/

theorem Related.cons {c : Nat × Nat} (h : Related pairs a b) : Related (c :: pairs) a b :=
  Relation.EqvGen.mono (fun _ _ ↦ List.mem_cons_of_mem c) _ _ h

theorem Related.apply_eq {f : Nat → Nat} (h : Related pairs a b)
    (hf : ∀ x y, (x, y) ∈ pairs → f x = f y) : f a = f b := by
  induction h with
  | rel x y hxy => exact hf x y hxy
  | refl => rfl
  | symm _ _ _ ih => exact ih.symm
  | trans _ _ _ _ _ ih ih' => exact ih.trans ih'

theorem Joins.find_eq_find (h : Joins p a b q) (x y : Nat) : q.find x = q.find y ↔
    p.find x = p.find y ∨ (p.find x = p.find a ∨ p.find x = p.find b) ∧
      (p.find y = p.find a ∨ p.find y = p.find b) := by
  obtain ⟨leader, rfl | rfl, hfind⟩ := h.find_eq <;> rw [hfind, hfind] <;> split_ifs <;> grind

theorem Joins.find_eq_iff (h : Joins p a b q) (hrel : ∀ x y, p.find x = p.find y ↔ Related pairs x y)
    (x y : Nat) : q.find x = q.find y ↔ Related ((a, b) :: pairs) x y := by
  rw [h.find_eq_find]
  constructor
  · have hab : Related ((a, b) :: pairs) a b := .rel a b List.mem_cons_self
    have hjoined (z : Nat) (hz : p.find z = p.find a ∨ p.find z = p.find b) :
        Related ((a, b) :: pairs) z a := by
      rcases hz with hz | hz
      · exact ((hrel z a).mp hz).cons
      · exact ((hrel z b).mp hz).cons.trans _ _ _ (hab.symm _ _)
    rintro (hxy | ⟨hx, hy⟩)
    · exact ((hrel x y).mp hxy).cons
    · exact (hjoined x hx).trans _ _ _ ((hjoined y hy).symm _ _)
  · intro hxy
    rw [← h.find_eq_find]
    refine hxy.apply_eq fun x y hmem ↦ (h.find_eq_find x y).mpr ?_
    rcases List.mem_cons.mp hmem with heq | hmem
    · obtain ⟨rfl, rfl⟩ := Prod.mk.inj heq
      exact .inr ⟨.inl rfl, .inr rfl⟩
    · exact .inl ((hrel x y).mpr (.rel x y hmem))

/-- What every operation keeps up. -/
structure Sound (pairs : List (Nat × Nat)) (p : Partition) : Prop where
  wellFormed : p.WellFormed
  bounded : p.Bounded
  find_eq_iff : ∀ x y, p.find x = p.find y ↔ Related pairs x y
  rank_le : ∀ {leader rank}, leader < p.size → p.nodes.get leader = .leader rank →
    0 < rank ∧ 2 ^ (rank - 1) ≤ (p.members leader).card

theorem parent?_eq_none {rank : Nat} (h : p.nodes.get key = .leader rank) : p.parent? key = none := by
  rw [parent?, h]

theorem Sound.regroups (h : Sound pairs p) (hq : Regroups p q) : Sound pairs q where
  wellFormed := hq.wellFormed
  bounded := hq.bounded h.bounded
  find_eq_iff x y := by rw [hq.find_eq, hq.find_eq, h.find_eq_iff]
  rank_le {leader rank} hlt hget := by
    have hself : p.find leader = leader := by
      rw [← hq.find_eq, find_of_parent?_none (parent?_eq_none hget)]
    have hlead : p.parent? leader = none := hself ▸ h.wellFormed.parent?_find leader
    rw [hq.get_eq hlead] at hget
    have hmembers : q.members leader = p.members leader := by
      simp only [members, hq.find_eq, hq.size_eq]
    rw [hmembers]
    exact h.rank_le (hq.size_eq ▸ hlt) hget

theorem find_of_size_le (h : p.size ≤ key) : p.find key = key :=
  find_of_parent?_none (by rw [parent?, p.nodes.get_of_size_le h]; rfl)

theorem Sound.add (h : Sound pairs p) : Sound pairs p.add.1 := by
  obtain ⟨hwf, hsize, hfind⟩ := h.wellFormed.add
  refine ⟨hwf, h.bounded.add, fun x y ↦ by rw [hfind, hfind, h.find_eq_iff],
    fun {leader rank} hlt hget ↦ ?_⟩
  have hget' : p.add.1.nodes.get leader = if leader = p.size then .leader 1 else p.nodes.get leader :=
    p.nodes.get_push _ _
  have hsub : p.members leader ⊆ p.add.1.members leader := by
    intro x hx
    simp only [members, Finset.mem_filter, Finset.mem_range, hfind, hsize] at hx ⊢
    exact ⟨by omega, hx.2⟩
  rw [hget'] at hget
  split_ifs at hget with hnew
  · obtain rfl : 1 = rank := by simpa using hget
    refine ⟨one_pos, Finset.card_pos.mpr ⟨leader, ?_⟩⟩
    simp only [members, Finset.mem_filter, Finset.mem_range, hfind]
    exact ⟨hlt, find_of_size_le hnew.ge⟩
  · obtain ⟨hpos, hle⟩ := h.rank_le (by omega) hget
    exact ⟨hpos, hle.trans (Finset.card_le_card hsub)⟩

theorem Sound.rank_le_of_parent? (h : Sound pairs p) (hlt : key < p.size)
    (hkey : p.parent? key = none) : 0 < p.rank key ∧ 2 ^ (p.rank key - 1) ≤ (p.members key).card := by
  refine h.rank_le hlt ?_
  unfold parent? at hkey
  unfold rank
  split at hkey
  · next hget => simp [hget]
  · cases hkey

/-- Between equal ranks the classes are both as large as the old rank says, so that they are large
enough together. -/
theorem Sound.rank_le_link {leader rank : Nat} (h : Sound pairs p) (hlinks : p.Links key leader rank)
    (hk : key < p.size) (hl : leader < p.size) {l r : Nat} (hlt : l < p.size)
    (hget : ((p.rerank leader rank).point key leader).nodes.get l = .leader r) :
    0 < r ∧ 2 ^ (r - 1) ≤ (((p.rerank leader rank).point key leader).members l).card := by
  obtain ⟨-, hfind⟩ := hlinks.find_eq h.wellFormed hk
  have hsize : ((p.rerank leader rank).point key leader).size = p.size := by
    simp [rerank, size, point]
  have hne := hlinks.ne
  have hget' : ((p.rerank leader rank).point key leader).nodes.get l =
      if l = key then .member leader else if l = leader then .leader rank else p.nodes.get l := by
    simp only [point, rerank, Table.get_set, Table.size_set]
    by_cases h₁ : l = key
    · simp [h₁, show key < p.nodes.size from hk]
    · by_cases h₂ : l = leader
      · simp [h₂, hne, hne.symm, show leader < p.nodes.size from hl]
      · simp [h₁, h₂, Ne.symm h₁, Ne.symm h₂]
  rw [hget'] at hget
  split_ifs at hget with h₁ h₂
  · obtain rfl : rank = r := by simpa using hget
    subst h₂
    obtain ⟨hkpos, hkle⟩ := h.rank_le_of_parent? hk hlinks.parent?_key
    obtain ⟨hlpos, hlle⟩ := h.rank_le_of_parent? hl hlinks.parent?_leader
    have hunion : ((p.rerank l rank).point key l).members l = p.members l ∪ p.members key := by
      ext x
      simp only [members, Finset.mem_filter, Finset.mem_range, Finset.mem_union, hsize, hfind]
      split_ifs <;> simp_all
    have hdisjoint : Disjoint (p.members l) (p.members key) := by
      refine Finset.disjoint_left.mpr fun x hx hx' ↦ hne ?_
      rw [← (Finset.mem_filter.mp hx).2, (Finset.mem_filter.mp hx').2]
    rw [hunion, Finset.card_union_of_disjoint hdisjoint]
    rcases hlinks.rank_cases with ⟨-, rfl⟩ | ⟨heq, rfl⟩
    · exact ⟨hlpos, by omega⟩
    · obtain ⟨k, hk⟩ := Nat.exists_eq_add_of_lt hlpos
      rw [heq] at hkle
      rw [hk] at hkle hlle ⊢
      simp only [Nat.zero_add, Nat.add_sub_cancel, pow_succ] at hkle hlle ⊢
      omega
  · obtain ⟨hpos, hle⟩ := h.rank_le hlt hget
    refine ⟨hpos, hle.trans (Finset.card_le_card fun x hx ↦ ?_)⟩
    simp only [members, Finset.mem_filter, Finset.mem_range, hsize, hfind] at hx ⊢
    rw [if_neg (by rw [hx.2]; exact h₁)]
    exact hx

theorem Sound.merge (h : Sound pairs p) (ha : a < p.size) (hb : b < p.size) :
    Sound ((a, b) :: pairs) (p.merge a b).1 ∧ ((p.merge a b).2 = true ↔ ¬Related pairs a b) := by
  have hjoins := h.wellFormed.joins_merge h.bounded ha hb
  have hiff := hjoins.find_eq_iff h.find_eq_iff
  have hla := h.wellFormed.find_lt h.bounded ha
  have hlb := h.wellFormed.find_lt h.bounded hb
  obtain ⟨q, hq, ⟨hab, heq⟩ | ⟨key, leader, rank, hends, hlinks, heq⟩⟩ :=
    h.wellFormed.merge_cases a b <;> rw [heq] at hjoins hiff ⊢
  · refine ⟨⟨hjoins.wellFormed, hjoins.bounded, hiff, (h.regroups hq).rank_le⟩, ?_⟩
    simp [← h.find_eq_iff, hab]
  · have hlt : key < q.size ∧ leader < q.size := by
      rw [hq.size_eq]
      rcases hends with ⟨rfl, rfl⟩ | ⟨rfl, rfl⟩
      · exact ⟨hla, hlb⟩
      · exact ⟨hlb, hla⟩
    have hne : p.find a ≠ p.find b := by
      rcases hends with ⟨rfl, rfl⟩ | ⟨rfl, rfl⟩
      · exact hlinks.ne.symm
      · exact hlinks.ne
    refine ⟨⟨hjoins.wellFormed, hjoins.bounded, hiff, fun hl hget ↦ ?_⟩, ?_⟩
    · rw [hjoins.size_eq, ← hq.size_eq] at hl
      exact (h.regroups hq).rank_le_link hlinks hlt.1 hlt.2 hl hget
    · simp [← h.find_eq_iff, hne]

theorem Run.sound (h : Run pairs p) : Sound pairs p := by
  induction h with
  | empty =>
    have hfind (x : Nat) : ({} : Partition).find x = x := rfl
    refine ⟨fun key ↦ ⟨0, .stop rfl⟩, fun _ _ h ↦ (by cases h), fun x y ↦ ?_, fun h ↦ (by cases h)⟩
    rw [hfind, hfind]
    exact ⟨fun h ↦ h ▸ .refl x, fun h ↦ h.apply_eq (f := id) fun _ _ h ↦ (by cases h)⟩
  | add _ ih => exact ih.add
  | merge _ ha hb ih => exact (ih.merge ha hb).1
  | resolve _ _ ih => exact ih.regroups (ih.wellFormed.regroups_resolve _)

/-- After any operations, both loops end, two keys have one leader just if the merged pairs relate
them, a merge says whether they were unrelated, resolving changes no leader, and a leader of rank `r`
leads `2 ^ (r - 1)` keys or more. With fewer than `2 ^ 31` keys, every node fits a signed word of 32
bits, in which just the leaders are negative. -/
theorem same_iff_related (h : Run pairs p) (hsize : p.size < 2 ^ 31) :
    (∀ key < p.size, Relation.ReflTransGen p.Climbs key (p.find key) ∧
      p.parent? (p.find key) = none ∧ Relation.ReflTransGen (Compresses (p.find key)) (p, key)
        ((p.resolve key).1, (p.resolve key).2) ∧ (p.resolve key).2 = p.find key ∧
      ∀ x, (p.resolve key).1.find x = p.find x) ∧
    (∀ a < p.size, ∀ b < p.size, (p.same a b = true ↔ Related pairs a b) ∧
      ((p.merge a b).2 = true ↔ ¬Related pairs a b)) ∧
    ∀ key < p.size, -2 ^ 31 ≤ (p.nodes.get key).word ∧ (p.nodes.get key).word < 2 ^ 31 ∧
      ((p.nodes.get key).word < 0 ↔ p.find key = key) ∧
      ∀ r : Nat, 0 < r → (p.nodes.get key).word = -r → 2 ^ (r - 1) ≤ (p.members key).card := by
  have hs := h.sound
  refine ⟨fun key _ ↦ ⟨hs.wellFormed.climbs_find key, hs.wellFormed.parent?_find key,
    hs.wellFormed.compresses_resolve key, rfl, (hs.wellFormed.regroups_resolve key).find_eq⟩,
    fun a ha b hb ↦ ⟨?_, (hs.merge ha hb).2⟩, fun key hkey ↦ ?_⟩
  · rw [same, beq_iff_eq, hs.find_eq_iff]
  · cases hget : p.nodes.get key with
    | leader rank =>
      obtain ⟨hpos, hle⟩ := hs.rank_le hkey hget
      have hcard : (p.members key).card ≤ p.size :=
        (Finset.card_filter_le _ _).trans (Finset.card_range _).le
      have hlt : rank - 1 < 31 :=
        (Nat.pow_lt_pow_iff_right one_lt_two).mp (hle.trans_lt (hcard.trans_lt hsize))
      have hself := find_of_parent?_none (parent?_eq_none hget)
      simp only [PartitionNode.word, hself, iff_true]
      refine ⟨by omega, by omega, by omega, fun r _ hr ↦ ?_⟩
      obtain rfl : rank = r := by omega
      exact hle
    | member parent =>
      have hparent : p.parent? key = some parent := by rw [parent?, hget]
      have hlt := hs.bounded key parent hparent
      have hne : p.find key ≠ key := by
        intro heq
        have hnone := hs.wellFormed.parent?_find key
        rw [heq, hparent] at hnone
        cases hnone
      simp only [PartitionNode.word, hne, iff_false]
      exact ⟨by omega, by omega, by omega, fun r hr heq ↦ by omega⟩

/-- Four keys, merged in pairs and then all together. -/
def fourMerged : Partition :=
  let p : Partition := ({} : Partition).add.1.add.1.add.1.add.1
  ((p.merge 0 1).1.merge 2 3).1.merge 1 3 |>.1

theorem same_iff_related_fourMerged :
    (fourMerged.same 0 2 = true ↔ Related [(1, 3), (2, 3), (0, 1)] 0 2) ∧
      (fourMerged.nodes.get 0).word = -3 ∧ 2 ^ (3 - 1) ≤ (fourMerged.members 0).card := by
  have hrun : Run [(1, 3), (2, 3), (0, 1)] fourMerged :=
    .merge (.merge (.merge (.add (.add (.add (.add .empty)))) (by decide) (by decide))
      (by decide) (by decide)) (by decide) (by decide)
  obtain ⟨-, hsame, hrank⟩ := same_iff_related hrun (by decide)
  have hword : (fourMerged.nodes.get 0).word = -3 := by decide
  exact ⟨(hsame 0 (by decide) 2 (by decide)).1, hword,
    (hrank 0 (by decide)).2.2.2 3 (by decide) hword⟩

end Partition

theorem LocalKind.strength_inj {k k' : LocalKind} (h : k.strength = k'.strength) : k = k' := by
  cases k <;> cases k' <;> first | rfl | cases h

namespace Locals

/-- The locals made by some operations: what each was made with, and the pairs that were merged. -/
inductive Made : List LocalInfo → List (LocalId × LocalId) → Locals → Prop
  | empty : Made [] [] {}
  | add {infos pairs t} (kind : LocalKind) (slot : Option Nat) :
    Made infos pairs t → Made (infos ++ [⟨kind, slot⟩]) pairs (t.add kind slot).1
  | merge {infos pairs t x y} : Made infos pairs t → x.index < t.size → y.index < t.size →
    Made infos ((x, y) :: pairs) (t.merge x y).1

/-- The equivalence that the pairs generate. -/
def Related (pairs : List (LocalId × LocalId)) (x y : LocalId) : Prop :=
  Partition.Related (pairs.map fun c ↦ (c.1.index, c.2.index)) x.index y.index

variable {t t' : Locals} {infos : List LocalInfo} {pairs pairs' : List (LocalId × LocalId)}
  {x y : LocalId}

/-- The kind is the strongest of those that the members of a class were made with. -/
def Strongest (infos : List LocalInfo) (pairs : List (LocalId × LocalId)) (x : LocalId)
    (kind : LocalKind) : Prop :=
  (∃ y info, Related pairs x y ∧ infos[y.index]? = some info ∧ info.kind = kind) ∧
    ∀ y info, Related pairs x y → infos[y.index]? = some info → info.kind.strength ≤ kind.strength

theorem WellFormed.find_index_lt (ht : t.WellFormed) (hx : x.index < t.size) :
    t.classes.find x.index < t.size :=
  ht.size_eq ▸ ht.classes.find_lt ht.bounded (ht.size_eq.symm ▸ hx)

/-- The new leader has the stronger kind of the two classes, and all others keep theirs. -/
theorem WellFormed.kind_merge (ht : t.WellFormed) (hx : x.index < t.size) (hy : y.index < t.size)
    (z : LocalId) : (t.merge x y).1.kind z =
      if t.classes.find z.index = t.classes.find x.index ∨
          t.classes.find z.index = t.classes.find y.index then (t.kind x).strongest (t.kind y)
      else t.kind z := by
  obtain ⟨leader, hends, hfind⟩ := (ht.joins_merge hx hy).find_eq
  have hlt : leader < t.infos.size := by
    rcases hends with rfl | rfl
    · exact ht.find_index_lt hx
    · exact ht.find_index_lt hy
  have hkind (l : Nat) : ((t.merge x y).1.infos.get l).kind =
      if leader = l then (t.kind x).strongest (t.kind y) else (t.infos.get l).kind := by
    have hlx := (hfind x.index).trans (if_pos (.inl rfl))
    unfold Locals.merge at hlx ⊢
    dsimp only at hlx ⊢
    split at hlx
    next hmerged =>
      have hwf := (ht.classes.joins_merge ht.bounded (ht.size_eq.symm ▸ hx)
        (ht.size_eq.symm ▸ hy)).wellFormed
      rw [(hwf.regroups_resolve x.index).find_eq] at hlx
      rw [if_pos hmerged, Table.get_modify, Partition.resolve, hlx]
      by_cases hl : leader = l
      · subst hl
        simp [hlt]
      · simp [hl]
    next hmerged =>
      rw [if_neg hmerged]
      obtain ⟨q, -, ⟨hxy, -⟩ | ⟨_, _, _, -, -, h⟩⟩ := ht.classes.merge_cases x.index y.index
      · split_ifs with hl
        · obtain rfl : leader = t.classes.find x.index := hends.elim id fun h ↦ h.trans hxy.symm
          have hsame : t.kind y = t.kind x := by rw [kind, kind, classOf, classOf, hxy]
          rw [hsame, LocalKind.strongest, if_pos le_rfl, ← hl, kind, classOf]
        · rfl
      · rw [h] at hmerged
        exact absurd rfl hmerged
  rw [kind, classOf, hkind, hfind]
  split_ifs with hz hl hl
  · rfl
  · exact absurd rfl hl
  · exact absurd (hends.imp (hl.symm.trans) (hl.symm.trans)) hz
  · rfl

/-- What every operation keeps up. -/
structure Sound (infos : List LocalInfo) (pairs : List (LocalId × LocalId)) (t : Locals) : Prop where
  wellFormed : t.WellFormed
  length_eq : infos.length = t.size
  slot_eq : ∀ {x info}, infos[x.index]? = some info → t.slot x = info.slot
  find_eq_iff : ∀ x y, t.classes.find x.index = t.classes.find y.index ↔ Related pairs x y
  strongest : ∀ {x}, x.index < t.size → Strongest infos pairs x (t.kind x)

theorem Sound.lt_size (h : Sound infos pairs t) {info : LocalInfo}
    (hx : infos[x.index]? = some info) : x.index < t.size :=
  h.length_eq ▸ (List.getElem?_eq_some_iff.mp hx).1

theorem Sound.add (h : Sound infos pairs t) (kind : LocalKind) (slot : Option Nat) :
    Sound (infos ++ [⟨kind, slot⟩]) pairs (t.add kind slot).1 := by
  have hclasses : (t.add kind slot).1.classes = t.classes.add.1 := rfl
  obtain ⟨-, -, hfind⟩ := h.wellFormed.classes.add
  have hinfo (y : LocalId) : (infos ++ [⟨kind, slot⟩])[y.index]? =
      if y.index = t.size then some ⟨kind, slot⟩ else infos[y.index]? := by
    rw [List.getElem?_append, h.length_eq]
    split_ifs with hlt heq heq
    · omega
    · rfl
    · simp [heq]
    · rw [List.getElem?_eq_none (by simp; omega), List.getElem?_eq_none (by rw [h.length_eq]; omega)]
  have hkind (y : LocalId) : (t.add kind slot).1.kind y =
      if t.classes.find y.index = t.size then kind else t.kind y := by
    rw [Locals.kind, classOf, hclasses, hfind]
    change ((t.infos.push ⟨kind, slot⟩).get _).kind = _
    rw [Table.get_push]
    split_ifs <;> first | rfl | contradiction
  refine ⟨h.wellFormed.add kind slot, by simp [h.length_eq], fun {x info} hx ↦ ?_, fun x y ↦ ?_,
    fun {x} hx ↦ ?_⟩
  · rw [hinfo] at hx
    rw [slot_add]
    split_ifs at hx ⊢
    · exact congrArg LocalInfo.slot (Option.some.inj hx)
    · exact h.slot_eq hx
  · rw [hclasses, hfind, hfind, h.find_eq_iff]
  · have hself : t.classes.find t.size = t.size := Partition.find_of_size_le h.wellFormed.size_eq.le
    rw [hkind]
    split_ifs with hnew
    · have hx' : x.index = t.size := by
        by_contra hne
        have := h.wellFormed.find_index_lt (x := x) (by rw [size_add] at hx; omega)
        omega
      refine ⟨⟨x, ⟨kind, slot⟩, (h.find_eq_iff x x).mp rfl, by rw [hinfo, if_pos hx'], rfl⟩,
        fun y info hrel hy ↦ ?_⟩
      rw [hinfo] at hy
      split_ifs at hy with hy'
      · rw [← Option.some.inj hy]
      · have := h.wellFormed.find_index_lt (h.lt_size hy)
        rw [← (h.find_eq_iff x y).mpr hrel] at this
        omega
    · have hx' : x.index < t.size := by
        rw [size_add] at hx
        by_contra hge
        exact hnew (by rw [show x.index = t.size by omega, hself])
      obtain ⟨⟨y, info, hrel, hy, hk⟩, hle⟩ := h.strongest hx'
      refine ⟨⟨y, info, hrel, ?_, hk⟩, fun y info hrel hy ↦ ?_⟩
      · rw [hinfo, if_neg (h.lt_size hy).ne, hy]
      · rw [hinfo, if_neg] at hy
        · exact hle y info hrel hy
        · intro hy'
          rw [(h.find_eq_iff x y).mpr hrel, hy', hself] at hnew
          exact hnew rfl

theorem Sound.merge (h : Sound infos pairs t) (hx : x.index < t.size) (hy : y.index < t.size) :
    Sound infos ((x, y) :: pairs) (t.merge x y).1 := by
  have hjoins := h.wellFormed.joins_merge hx hy
  have hiff (u v : LocalId) : (t.merge x y).1.classes.find u.index =
      (t.merge x y).1.classes.find v.index ↔ Related ((x, y) :: pairs) u v :=
    hjoins.find_eq_iff (fun u v ↦ h.find_eq_iff ⟨u⟩ ⟨v⟩) u.index v.index
  refine ⟨h.wellFormed.merge hx hy, by rw [h.length_eq, size_merge],
    fun hz ↦ by rw [slot_merge, h.slot_eq hz], hiff, fun {z} hz ↦ ?_⟩
  rw [size_merge] at hz
  rw [h.wellFormed.kind_merge hx hy]
  have hrel (u : LocalId) : Related ((x, y) :: pairs) z u ↔ _ :=
    (hiff z u).symm.trans (hjoins.find_eq_find z.index u.index)
  split_ifs with hclass
  · obtain ⟨⟨ux, ix, hux, hix, hkx⟩, hlx⟩ := h.strongest hx
    obtain ⟨⟨uy, iy, huy, hiy, hky⟩, hly⟩ := h.strongest hy
    have hstrength : ((t.kind x).strongest (t.kind y)).strength =
        max (t.kind x).strength (t.kind y).strength := by
      unfold LocalKind.strongest
      split <;> omega
    refine ⟨?_, fun u info hu hinfo ↦ ?_⟩
    · rw [LocalKind.strongest]
      split
      · exact ⟨uy, iy, (hrel uy).mpr (.inr ⟨hclass, .inr ((h.find_eq_iff y uy).mpr huy).symm⟩),
          hiy, hky⟩
      · exact ⟨ux, ix, (hrel ux).mpr (.inr ⟨hclass, .inl ((h.find_eq_iff x ux).mpr hux).symm⟩),
          hix, hkx⟩
    · have hu' : t.classes.find u.index = t.classes.find x.index ∨
          t.classes.find u.index = t.classes.find y.index := by
        rcases (hrel u).mp hu with hzu | ⟨-, hu⟩
        · rwa [← hzu]
        · exact hu
      rw [hstrength]
      rcases hu' with hu' | hu'
      · exact (hlx u info ((h.find_eq_iff x u).mp hu'.symm) hinfo).trans (le_max_left _ _)
      · exact (hly u info ((h.find_eq_iff y u).mp hu'.symm) hinfo).trans (le_max_right _ _)
  · have hsame (u : LocalId) : Related ((x, y) :: pairs) z u ↔ Related pairs z u := by
      rw [hrel, ← h.find_eq_iff]
      exact or_iff_left fun hin ↦ hclass hin.1
    simpa only [Strongest, hsame] using h.strongest hz

theorem Made.sound (h : Made infos pairs t) : Sound infos pairs t := by
  induction h with
  | empty =>
    refine ⟨wellFormed_empty, rfl, fun hx ↦ ?_, fun x y ↦ Partition.Run.empty.sound.find_eq_iff _ _,
      fun hx ↦ ?_⟩
    · simp at hx
    · cases hx
  | add kind slot _ ih => exact ih.add kind slot
  | merge _ hx hy ih => exact ih.merge hx hy

theorem Strongest.unique {kind kind' : LocalKind} (h : Strongest infos pairs x kind)
    (h' : Strongest infos pairs x kind') : kind = kind' := by
  obtain ⟨⟨y, info, hrel, hget, rfl⟩, hle⟩ := h
  obtain ⟨⟨y', info', hrel', hget', rfl⟩, hle'⟩ := h'
  exact LocalKind.strength_inj (le_antisymm (hle' y info hrel hget) (hle y' info' hrel' hget'))

/-- After any operations, the locals of one class are those that the merges relate, the kind of a
local is the strongest that a member of its class was made with, and its slot is the one it was made
with. The same locals merged in another order have the same kinds. -/
theorem kind_strongest (h : Made infos pairs t) (hx : x.index < t.size) :
    (∀ y, t.same x y = true ↔ Related pairs x y) ∧ Strongest infos pairs x (t.kind x) ∧
      infos[x.index]?.map (·.slot) = some (t.slot x) ∧
      ∀ pairs' t', pairs'.Perm pairs → Made infos pairs' t' → t'.kind x = t.kind x := by
  have hs := h.sound
  refine ⟨fun y ↦ ?_, hs.strongest hx, ?_, fun pairs' t' hperm h' ↦ ?_⟩
  · rw [same, Partition.same, beq_iff_eq, hs.find_eq_iff]
  · have hlt : x.index < infos.length := hs.length_eq ▸ hx
    rw [List.getElem?_eq_getElem hlt, hs.slot_eq (List.getElem?_eq_getElem hlt)]
    rfl
  · have hrel (y : LocalId) : Related pairs' x y ↔ Related pairs x y := by
      have hmem : (fun u v ↦ (u, v) ∈ pairs'.map fun c ↦ (c.1.index, c.2.index)) =
          fun u v ↦ (u, v) ∈ pairs.map fun c ↦ (c.1.index, c.2.index) := by
        funext u v
        exact propext (hperm.map _).mem_iff
      rw [Related, Related, Partition.Related, Partition.Related, hmem]
    have hkind := h'.sound.strongest (x := x) (by rw [← h'.sound.length_eq, hs.length_eq]; exact hx)
    simp only [Strongest, hrel] at hkind
    exact Strongest.unique hkind (hs.strongest hx)

/-- A parameter joined with another local of its slot, and that one with a value of the stack. -/
theorem kind_strongest_parameter :
    let t := (({} : Locals).add .parameter (some 1)).1.add .slot (some 1) |>.1.add .stack none |>.1
    let t' := ((t.merge ⟨2⟩ ⟨1⟩).1.merge ⟨1⟩ ⟨0⟩).1
    t'.kind ⟨2⟩ = .parameter ∧ Strongest [⟨.parameter, some 1⟩, ⟨.slot, some 1⟩, ⟨.stack, none⟩]
      [(⟨1⟩, ⟨0⟩), (⟨2⟩, ⟨1⟩)] ⟨2⟩ (t'.kind ⟨2⟩) := by
  intro t t'
  have hmade : Made [⟨.parameter, some 1⟩, ⟨.slot, some 1⟩, ⟨.stack, none⟩]
      [(⟨1⟩, ⟨0⟩), (⟨2⟩, ⟨1⟩)] t' :=
    .merge (.merge (.add _ _ (.add _ _ (.add _ _ .empty))) (by decide) (by decide))
      (by decide) (by decide)
  exact ⟨by decide, (kind_strongest hmade (by decide)).2.1⟩

end Locals

end Decompile
