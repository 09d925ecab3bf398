import Fallow.Definition
import Fallow.Reference

/-!
# Orders of listings

Texts, locations, definitions and references are compared part by part. Two references that
compare as equal are one; two definitions that do are the same definition, whatever its bare name.
A sorted list depends only on what it holds as long as its order leaves no ties, and a stable sort
keeps ties in the order in which they came. The first member of a list that has a property is
found from the front.
-/

namespace Fallow

open Std

instance : TransCmp textOrder :=
  inferInstanceAs (TransCmp (Ord.compare : String → String → Ordering))

instance : LawfulEqCmp textOrder :=
  inferInstanceAs (LawfulEqCmp (Ord.compare : String → String → Ordering))

theorem lt_of_isLE_textOrder {a b : String} (h : (textOrder a b).isLE) (hne : a ≠ b) : a < b := by
  unfold textOrder compareOfLessAndEq at h
  by_cases hlt : a < b
  · exact hlt
  · rw [if_neg hlt, if_neg hne] at h
    cases h

/-- Values compared through a part of theirs inherit its laws. -/
theorem transCmp_on {α β : Type} (f : β → α) (cmp : α → α → Ordering) [TransCmp cmp] :
    TransCmp (fun a b => cmp (f a) (f b)) where
  eq_swap := OrientedCmp.eq_swap
  isLE_trans := TransCmp.isLE_trans

namespace Location

theorem compare_eq_compareLex : Location.compare =
    compareLex (compareOn Location.file) (compareLex (compareOn startLine)
      (compareLex (compareOn startColumn)
        (compareLex (compareOn endLine) (compareOn endColumn)))) := rfl

instance : TransCmp Location.compare := by
  rw [compare_eq_compareLex]
  infer_instance

theorem compare_eq_then (a b : Location) : a.compare b =
    (textOrder a.file b.file).then ((Ord.compare a.startLine b.startLine).then
      ((Ord.compare a.startColumn b.startColumn).then
        ((Ord.compare a.endLine b.endLine).then (Ord.compare a.endColumn b.endColumn)))) := rfl

theorem eq_of_compare {a b : Location} (h : a.compare b = .eq) : a = b := by
  simp only [compare_eq_then, Ordering.then_eq_eq] at h
  obtain ⟨hfile, hline, hcolumn, hline', hcolumn'⟩ := h
  rw [LawfulEqCmp.compare_eq_iff_eq] at hfile hline hcolumn hline' hcolumn'
  cases a
  cases b
  simp_all

instance : LawfulEqCmp Location.compare where
  compare_self := ReflCmp.compare_self
  eq_of_compare := eq_of_compare

end Location

namespace Definition

theorem Kind.text_injective {k l : Kind} (h : k.text = l.text) : k = l := by
  cases k <;> cases l <;> simp [Kind.text] at h ⊢

theorem same_iff {a b : Definition} :
    a.same b = true ↔ a.kind = b.kind ∧ a.fullName = b.fullName ∧ a.location = b.location := by
  simp [same, and_assoc]

theorem same_comm (a b : Definition) : a.same b = b.same a := by
  rw [Bool.eq_iff_iff, same_iff, same_iff]
  constructor
  · rintro ⟨hk, hn, hl⟩
    exact ⟨hk.symm, hn.symm, hl.symm⟩
  · rintro ⟨hk, hn, hl⟩
    exact ⟨hk.symm, hn.symm, hl.symm⟩

theorem same_trans {a b c : Definition} (hab : a.same b = true) (hbc : b.same c = true) :
    a.same c = true := by
  rw [same_iff] at *
  exact ⟨hab.1.trans hbc.1, hab.2.1.trans hbc.2.1, hab.2.2.trans hbc.2.2⟩

theorem compare_eq_compareLex : Definition.compare =
    compareLex (fun a b => a.location.compare b.location)
      (compareLex (fun a b => textOrder a.kind.text b.kind.text)
        (fun a b => textOrder a.fullName b.fullName)) := rfl

theorem comparePlace_eq_compareLex : comparePlace =
    compareLex (fun a b => a.location.compare b.location)
      (fun a b => textOrder a.fullName b.fullName) := rfl

instance : TransCmp Definition.compare := by
  rw [compare_eq_compareLex]
  have hl := transCmp_on Definition.location Location.compare
  have hk := transCmp_on (fun d : Definition => d.kind.text) textOrder
  have hn := transCmp_on Definition.fullName textOrder
  infer_instance

instance : TransCmp comparePlace := by
  rw [comparePlace_eq_compareLex]
  have hl := transCmp_on Definition.location Location.compare
  have hn := transCmp_on Definition.fullName textOrder
  infer_instance

/-- The order of listings ties exactly the definitions that are the same. -/
theorem compare_eq_eq_iff {a b : Definition} : a.compare b = .eq ↔ a.same b = true := by
  rw [same_iff]
  simp only [Definition.compare, Ordering.then_eq_eq, LawfulEqCmp.compare_eq_iff_eq]
  constructor
  · rintro ⟨hl, hk, hn⟩
    exact ⟨Kind.text_injective hk, hn, hl⟩
  · rintro ⟨hk, hn, hl⟩
    exact ⟨hl, congrArg Kind.text hk, hn⟩

end Definition

namespace Reference

theorem compare_eq_compareLex : Reference.compare =
    compareLex (fun a b => a.location.compare b.location)
      (compareLex (fun a b => textOrder a.name b.name)
        (fun a b => textOrder a.origin.text b.origin.text)) := rfl

instance : TransCmp Reference.compare := by
  rw [compare_eq_compareLex]
  have hl := transCmp_on Reference.location Location.compare
  have hn := transCmp_on Reference.name textOrder
  have ho := transCmp_on (fun r : Reference => r.origin.text) textOrder
  infer_instance

theorem eq_of_compare {a b : Reference} (h : a.compare b = .eq) : a = b := by
  simp only [Reference.compare, Ordering.then_eq_eq, LawfulEqCmp.compare_eq_iff_eq] at h
  obtain ⟨hl, hn, ho⟩ := h
  have hor : a.origin = b.origin := by
    cases ha : a.origin <;> cases hb : b.origin <;> simp [ha, hb, Origin.text] at ho ⊢
  cases a
  cases b
  simp_all

end Reference

section Sorting

variable {α : Type} {cmp : α → α → Ordering} [TransCmp cmp]

omit [TransCmp cmp] in
@[simp] theorem mem_sortedBy {a : α} {l : List α} : a ∈ sortedBy cmp l ↔ a ∈ l :=
  (perm_sortedBy cmp l).mem_iff

theorem isLE_or_isLE (a b : α) : ((cmp a b).isLE || (cmp b a).isLE) = true := by
  have hswap : cmp a b = (cmp b a).swap := OrientedCmp.eq_swap
  rw [hswap]
  cases cmp b a <;> rfl

theorem isLE_trans (a b c : α) (hab : (cmp a b).isLE) (hbc : (cmp b c).isLE) :
    (cmp a c).isLE :=
  TransCmp.isLE_trans hab hbc

theorem pairwise_sortedBy (l : List α) : (sortedBy cmp l).Pairwise fun a b => (cmp a b).isLE :=
  List.pairwise_mergeSort isLE_trans isLE_or_isLE l

/-- Sorting forgets the order of a list whose members the order tells apart. -/
theorem sortedBy_eq_of_perm {l l' : List α} (hp : l.Perm l')
    (htie : ∀ a ∈ l, ∀ b ∈ l, cmp a b = .eq → a = b) : sortedBy cmp l = sortedBy cmp l' := by
  have hperm : (sortedBy cmp l).Perm (sortedBy cmp l') :=
    ((perm_sortedBy cmp l).trans hp).trans (perm_sortedBy cmp l').symm
  apply hperm.eq_of_pairwise _ (pairwise_sortedBy l) (pairwise_sortedBy l')
  intro a b ha hb hab hba
  exact htie a (mem_sortedBy.1 ha) b (hp.mem_iff.2 (mem_sortedBy.1 hb))
    (OrientedCmp.isLE_antisymm hab hba)

omit [TransCmp cmp] in
theorem not_pair_sublist_of_nodup {a b : α} {l : List α} (hn : l.Nodup) (h : [a, b].Sublist l) :
    ¬ [b, a].Sublist l := by
  induction l with
  | nil => simp at h
  | cons c rest ih =>
      obtain ⟨hc, hrest⟩ := List.nodup_cons.1 hn
      intro h'
      cases h with
      | cons _ h =>
          cases h' with
          | cons _ h' => exact ih hrest h h'
          | cons_cons _ h' => exact hc (h.subset (by simp))
      | cons_cons _ h =>
          cases h' with
          | cons _ h' => exact hc (h'.subset (by simp))
          | cons_cons _ h' => exact hc (h.subset (by simp))

/-- A stable sort puts members that it ties in the order in which they stood. -/
theorem pairwise_sortedBy_of_nodup {R : α → α → Prop} {l : List α} (hn : l.Nodup)
    (hR : l.Pairwise R) :
    (sortedBy cmp l).Pairwise fun a b => (cmp a b).isLE ∧ (cmp a b = .eq → R a b) := by
  have hnodup : (sortedBy cmp l).Nodup := (perm_sortedBy cmp l).nodup_iff.2 hn
  rw [List.pairwise_iff_forall_sublist]
  intro a b hab
  refine ⟨List.pairwise_iff_forall_sublist.1 (pairwise_sortedBy l) hab, fun htie => ?_⟩
  have ha : a ∈ l := mem_sortedBy.1 (hab.subset (by simp))
  have hb : b ∈ l := mem_sortedBy.1 (hab.subset (by simp))
  have hne : a ≠ b := by
    rintro rfl
    exact not_pair_sublist_of_nodup hnodup hab hab
  obtain ⟨s, t, rfl⟩ := List.append_of_mem ha
  have hbst : b ∈ s ∨ b ∈ t := by simpa [hne.symm] using hb
  rcases hbst with hs | ht
  · -- the other way round the two would keep that order
    exfalso
    have hba : [b, a].Sublist (s ++ a :: t) :=
      (List.singleton_sublist.2 hs).append (List.singleton_sublist.2 (by simp))
    have hle : (cmp b a).isLE := by rw [OrientedCmp.eq_comm.1 htie]; rfl
    exact not_pair_sublist_of_nodup hnodup hab
      (List.pair_sublist_mergeSort isLE_trans isLE_or_isLE hle hba)
  · have hat : [a, b].Sublist (s ++ a :: t) :=
      ((List.singleton_sublist.2 ht).cons_cons a).trans (List.sublist_append_right s _)
    exact List.pairwise_iff_forall_sublist.1 hR hat

end Sorting

theorem nodup_eraseDups {l : List String} : l.eraseDups.Nodup := by
  induction hk : l.length using Nat.strongRecOn generalizing l with
  | ind k ih =>
      cases l with
      | nil => simp
      | cons a rest =>
          have hlt : (rest.filter fun b => !b == a).length < k := by
            have hle := List.length_filter_le (fun b => !b == a) rest
            simp only [List.length_cons] at hk
            omega
          rw [List.eraseDups_cons, List.nodup_cons]
          refine ⟨?_, ih _ hlt rfl⟩
          simp [List.mem_eraseDups]

theorem eraseDups_eq_self {l : List String} (h : l.Nodup) : l.eraseDups = l := by
  induction l with
  | nil => rfl
  | cons a l ih =>
      obtain ⟨ha, hl⟩ := List.nodup_cons.1 h
      have hfilter : l.filter (!· == a) = l := by
        rw [List.filter_eq_self]
        intro b hb
        simpa using fun heq : b = a => ha (heq ▸ hb)
      rw [List.eraseDups_cons, hfilter, ih hl]

/-- Texts sorted without repetition increase strictly. -/
theorem pairwise_sortedBy_eraseDups (l : List String) :
    (sortedBy textOrder l.eraseDups).Pairwise (· < ·) := by
  have hsorted := @pairwise_sortedBy _ textOrder _ l.eraseDups
  have hnodup : (sortedBy textOrder l.eraseDups).Nodup :=
    (perm_sortedBy _ _).nodup_iff.2 nodup_eraseDups
  exact (hsorted.and hnodup).imp fun h => lt_of_isLE_textOrder h.1 h.2

/-- Texts sorted without repetition depend only on which texts there are. -/
theorem sortedBy_eraseDups_congr {l l' : List String} (h : ∀ a, a ∈ l ↔ a ∈ l') :
    sortedBy textOrder l.eraseDups = sortedBy textOrder l'.eraseDups := by
  have hperm : l.eraseDups.Perm l'.eraseDups := by
    rw [List.perm_ext_iff_of_nodup nodup_eraseDups nodup_eraseDups]
    simpa only [List.mem_eraseDups] using h
  exact sortedBy_eq_of_perm hperm fun a _ b _ heq => LawfulEqCmp.eq_of_compare heq

section Firsts

variable {α β : Type} {p q : α → Prop} {a b : α} {l : List α}

/-- The first member of a list that has a property. -/
def First (p : α → Prop) (l : List α) (a : α) : Prop :=
  ∃ before after, l = before ++ a :: after ∧ p a ∧ ∀ b ∈ before, ¬ p b

theorem not_first_nil : ¬ First p [] a := by
  rintro ⟨before, after, heq, -⟩
  simp at heq

theorem first_cons_of_pos (h : p b) : First p (b :: l) a ↔ a = b := by
  constructor
  · rintro ⟨before, after, heq, -, hbefore⟩
    cases before with
    | nil => exact (List.cons.inj heq).1.symm
    | cons c before =>
        cases heq
        exact absurd h (hbefore b List.mem_cons_self)
  · rintro rfl
    exact ⟨[], l, rfl, h, by simp⟩

theorem first_cons_of_neg (h : ¬ p b) : First p (b :: l) a ↔ First p l a := by
  constructor
  · rintro ⟨before, after, heq, ha, hbefore⟩
    cases before with
    | nil =>
        cases heq
        exact absurd ha h
    | cons c before =>
        cases heq
        exact ⟨before, after, rfl, ha, (List.forall_mem_cons.1 hbefore).2⟩
  · rintro ⟨before, after, rfl, ha, hbefore⟩
    exact ⟨b :: before, after, rfl, ha, List.forall_mem_cons.2 ⟨h, hbefore⟩⟩

theorem exists_first_iff : (∃ a, First p l a) ↔ ∃ a ∈ l, p a := by
  induction l with
  | nil => simp [not_first_nil]
  | cons b l ih =>
      by_cases hb : p b
      · simp [first_cons_of_pos hb, hb]
      · simp [first_cons_of_neg hb, hb, ih]

theorem First.mem (h : First p l a) : a ∈ l := by
  obtain ⟨before, after, rfl, -⟩ := h
  simp

theorem First.prop (h : First p l a) : p a := by
  obtain ⟨before, after, -, ha, -⟩ := h
  exact ha

/-- A narrower property has the same first member if it holds of the first member of the wider. -/
theorem first_iff_of_imp (himp : ∀ a, p a → q a) (hfirst : ∀ a, First q l a → p a) :
    First p l a ↔ First q l a := by
  induction l with
  | nil => simp [not_first_nil]
  | cons b l ih =>
      by_cases hq : q b
      · have hp : p b := hfirst b ((first_cons_of_pos hq).2 rfl)
        rw [first_cons_of_pos hp, first_cons_of_pos hq]
      · have hp : ¬ p b := fun hp => hq (himp b hp)
        rw [first_cons_of_neg hp, first_cons_of_neg hq]
        exact ih fun a ha => hfirst a ((first_cons_of_neg hq).2 ha)

theorem first_map {p : β → Prop} {f : α → β} {b : β} :
    First p (l.map f) b ↔ ∃ a, First (fun a => p (f a)) l a ∧ f a = b := by
  induction l with
  | nil => simp [not_first_nil]
  | cons c l ih =>
      rw [List.map_cons]
      by_cases hc : p (f c)
      · simp [first_cons_of_pos hc, @first_cons_of_pos _ (fun a => p (f a)) _ _ _ hc, eq_comm]
      · simp [first_cons_of_neg hc, @first_cons_of_neg _ (fun a => p (f a)) _ _ _ hc, ih]

theorem first_filter {keep : α → Bool} :
    First p (l.filter keep) a ↔ First (fun a => keep a = true ∧ p a) l a := by
  induction l with
  | nil => simp [not_first_nil]
  | cons b l ih =>
      by_cases hkeep : keep b = true
      · rw [List.filter_cons_of_pos hkeep]
        by_cases hb : p b
        · rw [first_cons_of_pos hb, first_cons_of_pos ⟨hkeep, hb⟩]
        · rw [first_cons_of_neg hb, first_cons_of_neg fun h => hb h.2, ih]
      · rw [List.filter_cons_of_neg hkeep, first_cons_of_neg fun h => hkeep h.1, ih]

/-- A search gives what it sees at the first member where it sees anything. -/
theorem findSome?_eq_some_iff_first {f : α → Option β} {b : β} :
    l.findSome? f = some b ↔ ∃ a, First (fun a => (f a).isSome) l a ∧ f a = some b := by
  rw [List.findSome?_eq_some_iff]
  constructor
  · rintro ⟨before, a, after, rfl, ha, hbefore⟩
    exact ⟨a, ⟨before, after, rfl, by simp [ha], fun b hb => by simp [hbefore b hb]⟩, ha⟩
  · rintro ⟨a, ⟨before, after, rfl, -, hbefore⟩, ha⟩
    exact ⟨before, a, after, rfl, ha, fun b hb => by simpa using hbefore b hb⟩

end Firsts

end Fallow
