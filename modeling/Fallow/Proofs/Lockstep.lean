import Fallow.Proofs.Buckets
import Fallow.Proofs.Order
import Mathlib.Data.List.Forall2
import Mathlib.Data.List.Perm.Subperm

/-!
# Two collections side by side

Collections that agree value by value up to a relation stay so when related values are inserted in
both and when both are changed alike, and so do their sorted listings. What is left out of a list
before a stable sort is merely missing afterwards.
-/

namespace Fallow

theorem exists_of_forall₂_of_mem {α β : Type} {R : α → β → Prop} {l : List α} {l' : List β}
    (h : List.Forall₂ R l l') {b : β} (hb : b ∈ l') : ∃ a ∈ l, R a b := by
  induction h with
  | nil => cases hb
  | @cons a c l l' hac _ ih =>
      rcases List.mem_cons.1 hb with rfl | hb
      · exact ⟨a, List.mem_cons_self, hac⟩
      · obtain ⟨d, hd, hdb⟩ := ih hb
        exact ⟨d, List.mem_cons_of_mem _ hd, hdb⟩

section Lists

variable {α : Type} {R : α → α → Prop} {l l' : List α}

theorem eq_of_forall₂ (hR : ∀ a b, R a b → R b a → a = b) (h : List.Forall₂ R l l')
    (h' : List.Forall₂ R l' l) : l = l' := by
  induction h with
  | nil => rfl
  | cons hab _ ih =>
      cases h' with
      | cons hba h' => rw [hR _ _ hab hba, ih h']

/-- A stricter choice from related values is part of the other choice. -/
theorem filter_sublist_of_forall₂ {p q : α → Bool}
    (hR : ∀ a b, R a b → q b = true → a = b ∧ p a = true) (h : List.Forall₂ R l l') :
    (l'.filter q).Sublist (l.filter p) := by
  induction h with
  | nil => simp
  | @cons a b l l' hab _ ih =>
      by_cases hq : q b = true
      · obtain ⟨rfl, hp⟩ := hR a b hab hq
        rw [List.filter_cons_of_pos hq, List.filter_cons_of_pos hp]
        exact ih.cons_cons a
      · rw [List.filter_cons_of_neg hq]
        exact ih.trans ((List.sublist_cons_self a l).filter p)

theorem forall₂_sortedBy {cmp : α → α → Ordering}
    (hcmp : ∀ a a' b b', R a a' → R b b' → cmp a b = cmp a' b') (h : List.Forall₂ R l l') :
    List.Forall₂ R (sortedBy cmp l) (sortedBy cmp l') := by
  -- both lists are read off one sorted list of pairs
  have hpair : ∀ p ∈ l.zip l', R p.1 p.2 := fun p hp => List.forall₂_zip h hp
  have hleft : sortedBy cmp l =
      ((l.zip l').mergeSort fun p q => (cmp p.1 q.1).isLE).map Prod.fst := by
    rw [List.map_mergeSort (s := fun a b => (cmp a b).isLE) fun _ _ _ _ => rfl,
      List.map_fst_zip (Nat.le_of_eq h.length_eq)]
    rfl
  have hright : sortedBy cmp l' =
      ((l.zip l').mergeSort fun p q => (cmp p.1 q.1).isLE).map Prod.snd := by
    rw [List.map_mergeSort (s := fun a b => (cmp a b).isLE),
      List.map_snd_zip (Nat.le_of_eq h.length_eq.symm)]
    · rfl
    · intro p hp q hq
      rw [hcmp _ _ _ _ (hpair p hp) (hpair q hq)]
  rw [hleft, hright, List.forall₂_map_left_iff, List.forall₂_map_right_iff, List.forall₂_same]
  intro p hp
  exact hpair p (List.mem_mergeSort.1 hp)

theorem sublist_sortedBy {cmp : α → α → Ordering} [Std.TransCmp cmp] (hn : l.Nodup)
    (h : l'.Sublist l) : (sortedBy cmp l').Sublist (sortedBy cmp l) := by
  -- either list is sorted, with ties as they stand in the longer one
  let before : α → α → Prop := fun a b => (cmp a b).isLE ∧ (cmp a b = .eq → [a, b].Sublist l)
  have hlong : (sortedBy cmp l).Pairwise before :=
    pairwise_sortedBy_of_nodup hn (List.pairwise_iff_forall_sublist.2 id)
  have hshort : (sortedBy cmp l').Pairwise before :=
    pairwise_sortedBy_of_nodup (hn.sublist h)
      (List.pairwise_iff_forall_sublist.2 fun hab => hab.trans h)
  obtain ⟨m, hperm, hsub⟩ : (sortedBy cmp l').Subperm (sortedBy cmp l) :=
    ((perm_sortedBy cmp l').subperm.trans h.subperm).trans (perm_sortedBy cmp l).symm.subperm
  have hm : m = sortedBy cmp l' := by
    apply hperm.eq_of_pairwise _ (hlong.sublist hsub) hshort
    intro a b _ _ hab hba
    have htie : cmp a b = .eq := Std.OrientedCmp.isLE_antisymm hab.1 hba.1
    exact absurd (hba.2 (Std.OrientedCmp.eq_comm.1 htie))
      (not_pair_sublist_of_nodup hn (hab.2 htie))
  exact hm ▸ hsub

end Lists

namespace Buckets

variable {α : Type} {R : α → α → Prop} {same : α → α → Bool} {b b' : Buckets α}

/-- The same names in the same order, and under each of them related values. -/
def Rel (R : α → α → Prop) (b b' : Buckets α) : Prop :=
  List.Forall₂ (fun g g' => g.1 = g'.1 ∧ List.Forall₂ R g.2 g'.2) b.groups b'.groups

theorem forall₂_addTo (hsame : ∀ a a' c c', R a a' → R c c' → same a c = same a' c') {a a' : α}
    (ha : R a a') {group group' : List α} (h : List.Forall₂ R group group') :
    List.Forall₂ R (addTo same a group) (addTo same a' group') := by
  have hany : group.any (same a) = group'.any (same a') := by
    induction h with
    | nil => rfl
    | cons hcd _ ih => rw [List.any_cons, List.any_cons, ih, hsame _ _ _ _ ha hcd]
  unfold addTo
  rw [hany]
  split
  · exact h
  · exact List.rel_append h (.cons ha .nil)

namespace Rel

theorem values (h : b.Rel R b') : List.Forall₂ R b.values b'.values :=
  List.rel_flatMap h fun _ _ hg => hg.2

theorem insert (hsame : ∀ a a' c c', R a a' → R c c' → same a c = same a' c')
    (h : b.Rel R b') (name : String) {a a' : α} (ha : R a a') :
    (b.insert same name a).Rel R (b'.insert same name a') := by
  obtain ⟨groups⟩ := b
  obtain ⟨groups'⟩ := b'
  simp only [Rel, Buckets.insert] at h ⊢
  induction h with
  | nil => exact .cons ⟨rfl, .cons ha .nil⟩ .nil
  | @cons g g' rest rest' hg hrest ih =>
      obtain ⟨key, group⟩ := g
      obtain ⟨key', group'⟩ := g'
      obtain ⟨rfl, hgroup⟩ : key = key' ∧ List.Forall₂ R group group' := hg
      by_cases hk : key = name
      · simp only [insertInto, hk, if_true]
        exact .cons ⟨rfl, forall₂_addTo hsame ha hgroup⟩ hrest
      · simp only [insertInto, hk, if_false]
        exact .cons ⟨rfl, hgroup⟩ ih

theorem mapWith {f f' : String → α → α} (hf : ∀ key a a', R a a' → R (f key a) (f' key a'))
    (h : b.Rel R b') : (b.mapWith f).Rel R (b'.mapWith f') := by
  apply List.rel_map _ h
  rintro ⟨key, group⟩ ⟨key', group'⟩ ⟨rfl, hgroup⟩
  exact ⟨rfl, List.rel_map (fun a a' => hf key a a') hgroup⟩

theorem antisymm (hR : ∀ a c, R a c → R c a → a = c) (h : b.Rel R b') (h' : b'.Rel R b) :
    b = b' := by
  obtain ⟨groups⟩ := b
  obtain ⟨groups'⟩ := b'
  congr 1
  apply eq_of_forall₂ _ h h'
  rintro ⟨key, group⟩ ⟨key', group'⟩ ⟨rfl, hgroup⟩ ⟨_, hgroup'⟩
  exact congrArg (Prod.mk key) (eq_of_forall₂ hR hgroup hgroup')

end Rel
end Buckets
end Fallow
