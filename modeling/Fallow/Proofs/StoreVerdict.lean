import Fallow.Proofs.Store
import Fallow.Proofs.Verdict

/-!
# Verdicts on the indexes of a store

The verdict on an index accuses the objects in it that are neither ignored nor referred to. Marks
and references only ever come in, so that an object which the verdict on an index has once passed
over stays cleared there.

Merging keeps the first of several objects that are the same. Two indexes with the same definition,
ignored in one of them only, thus give another verdict when they are merged in the other order; all
other indexes give the same.
-/

namespace Fallow

namespace Store

variable {s s' : Store} {i j : String} {k l : Nat}

/-- The verdict on an index names an object that the index holds. -/
def Accuses (s : Store) (i : String) (k : Nat) : Prop :=
  k ∈ (s.shelf i).definitions.values ∧ ∃ l, (s.index i).unused = .ok l ∧ s.object k ∈ l

/-- Every object has a bare name. -/
def Named (s : Store) : Prop :=
  ∀ k < s.objects.length, (s.object k).name ≠ ""

theorem mem_listing_index {d : Definition} : d ∈ (s.index i).listing ↔
    ∃ k ∈ (s.shelf i).definitions.values, s.object k = d := by
  rw [Index.mem_listing, index, Buckets.values_map, List.mem_map]

theorem Sound.exists_unused (h : s.Sound) (hnamed : s.Named) (i : String) :
    ∃ l, (s.index i).unused = .ok l := by
  apply Index.exists_unused_eq_ok
  intro d hd
  obtain ⟨k, hk, rfl⟩ := mem_listing_index.1 hd
  exact hnamed k (h.known i k hk)

theorem isUnused_index_iff {d : Definition} : (s.index i).isUnused d = true ↔
    d.ignored = false ∧ (s.shelf i).references.get d.name = [] := by
  simp [Index.isUnused, Index.isReferenced, Index.referencesFor, index]

theorem Sound.accuses_iff (h : s.Sound) (hnamed : s.Named) : s.Accuses i k ↔
    k ∈ (s.shelf i).definitions.values ∧ (s.object k).ignored = false ∧
      (s.shelf i).references.get (s.object k).name = [] := by
  rw [Accuses, ← isUnused_index_iff]
  apply and_congr_right
  intro hk
  obtain ⟨l, hl⟩ := h.exists_unused hnamed i
  have hlisting : s.object k ∈ (s.index i).listing := mem_listing_index.2 ⟨k, hk, rfl⟩
  have hmem : s.object k ∈ l ↔ (s.index i).isUnused (s.object k) = true := by
    rw [Index.eq_of_unused_eq_ok hl, mem_sortedBy, List.mem_filter, and_iff_right hlisting]
  rw [← hmem]
  constructor
  · rintro ⟨l', hl', hk⟩
    rw [hl] at hl'
    cases hl'
    exact hk
  · exact fun hk => ⟨l, hl, hk⟩

/-! ### Names -/

theorem Sound.named_perform? (h : s.Sound) (hnamed : s.Named) {op : Operation}
    (hop : s.perform? op = some s') (hnew : ∀ handle d, op = .create handle d → d.name ≠ "") :
    s'.Named := by
  have hlater := (h.effect hop).later
  intro k hk
  by_cases hold : k < s.objects.length
  · rw [(hlater.alike k hold).1]
    exact hnamed k hold
  · -- only a new object can be one that was not there
    cases op with
    | create handle d =>
        cases hop
        have hlast : k = s.objects.length := by
          rw [List.length_append, List.length_singleton] at hk
          omega
        rw [object, hlast, List.getD_eq_getElem?_getD, List.getElem?_concat_length]
        exact hnew handle d rfl
    | addReference | merge =>
        cases hop
        exact absurd hk hold
    | addDefinition _ handle | ignore handle | mark handle =>
        cases hnumber : s.number? handle with
        | none => simp [perform?, hnumber] at hop
        | some number =>
            simp only [perform?, hnumber, bind, Option.bind, pure, Option.some.injEq] at hop
            subst hop
            exact absurd (by simpa [setShelf, changeObject] using hk) hold

theorem Sound.named_run? (h : s.Sound) (hnamed : s.Named) {ops : List Operation}
    (hops : s.run? ops = some s') (hnew : ∀ handle d, .create handle d ∈ ops → d.name ≠ "") :
    s'.Named := by
  induction ops generalizing s with
  | nil =>
      cases hops
      exact hnamed
  | cons op rest ih =>
      rw [run?_cons, Option.bind_eq_some_iff] at hops
      obtain ⟨t, ht, hrest⟩ := hops
      have hfirst : ∀ handle d, op = .create handle d → d.name ≠ "" := by
        rintro handle d rfl
        exact hnew handle d List.mem_cons_self
      exact ih ((h.effect ht).sound h) (h.named_perform? hnamed ht hfirst) hrest
        fun handle d hd => hnew handle d (List.mem_cons_of_mem _ hd)

theorem Named.empty : Named {} := by
  intro k hk
  simp at hk

/-! ### Merging -/

/-- The store after one index is merged into another. -/
def merged (s : Store) (i j : String) : Store :=
  s.setShelf i {
    definitions := (s.shelf i).definitions.merge s.sameObject (s.shelf j).definitions
    references := (s.shelf i).references.merge (· == ·) (s.shelf j).references }

theorem perform?_merge (s : Store) (i j : String) :
    s.perform? (.merge i j) = some (s.merged i j) := rfl

@[simp] theorem object_merged (s : Store) (i j : String) : (s.merged i j).object = s.object := rfl

theorem shelf_merged_self (s : Store) (i j : String) : (s.merged i j).shelf i =
    { definitions := (s.shelf i).definitions.merge s.sameObject (s.shelf j).definitions
      references := (s.shelf i).references.merge (· == ·) (s.shelf j).references } := by
  rw [merged, shelf_setShelf, if_pos rfl]

theorem shelf_merged_of_ne (s : Store) {i h : String} (j : String) (hne : h ≠ i) :
    (s.merged i j).shelf h = s.shelf h := by
  rw [merged, shelf_setShelf, if_neg hne]

theorem Sound.merged (h : s.Sound) (i j : String) : (s.merged i j).Sound :=
  (h.effect (perform?_merge s i j)).sound h

theorem Sound.references_merged (h : s.Sound) {name : String} :
    ((s.merged i j).shelf i).references.get name = [] ↔
      (s.shelf i).references.get name = [] ∧ (s.shelf j).references.get name = [] := by
  rw [shelf_merged_self]
  exact (h.references j).get_merge_eq_nil_iff

/-- Once an object is stored it is accused later only if it is accused now. -/
theorem Sound.accuses_of_later (h : s.Sound) (hnamed : s.Named) (h' : s'.Sound)
    (hnamed' : s'.Named) (hlater : s.Later s') (hk : k ∈ (s.shelf i).definitions.values)
    (haccuses : s'.Accuses i k) : s.Accuses i k := by
  obtain ⟨_, hignored, hreferences⟩ := (h'.accuses_iff hnamed').1 haccuses
  have hlength := h.known i k hk
  rw [(hlater.alike k hlength).1] at hreferences
  refine (h.accuses_iff hnamed).2 ⟨hk, ?_, ?_⟩
  · rw [← Bool.not_eq_true]
    intro hd
    rw [hlater.ignored k hlength hd] at hignored
    cases hignored
  · have hprefix := hlater.referred i (s.object k).name
    rw [hreferences] at hprefix
    exact List.prefix_nil.1 hprefix

theorem Sound.accuses_of_merged (h : s.Sound) (hnamed : s.Named)
    (haccuses : (s.merged i j).Accuses i k) : s.Accuses i k ∨ s.Accuses j k := by
  have hnamed' : (s.merged i j).Named := hnamed
  obtain ⟨hk, hignored, hreferences⟩ := ((h.merged i j).accuses_iff hnamed').1 haccuses
  obtain ⟨hi, hj⟩ := h.references_merged.1 hreferences
  rw [shelf_merged_self] at hk
  rcases Buckets.of_mem_values_merge hk with hk | hk
  · exact .inl ((h.accuses_iff hnamed).2 ⟨hk, hignored, hi⟩)
  · exact .inr ((h.accuses_iff hnamed).2 ⟨hk, hignored, hj⟩)

/-- What the verdict on an index has passed over it never accuses later, whatever is done to the
store in between; and a merge brings no accusation that neither of its sides makes. -/
theorem not_accuses_of_cleared (ops more : List Operation) (s s' : Store)
    (hs : ({} : Store).run? ops = some s) (hs' : s.run? more = some s')
    (hnames : ∀ handle d, .create handle d ∈ ops ++ more → d.name ≠ "") :
    (∀ i, ∃ l, (s'.index i).unused = .ok l) ∧
    (∀ i, ∀ k ∈ (s.shelf i).definitions.values, ¬ s.Accuses i k → ¬ s'.Accuses i k) ∧
    ∀ i j, ∃ t, s'.perform? (.merge i j) = some t ∧
      ∀ k, t.Accuses i k → s'.Accuses i k ∨ s'.Accuses j k := by
  obtain ⟨hsound, _⟩ := Sound.empty.run? hs
  obtain ⟨hsound', hlater⟩ := hsound.run? hs'
  have hnamed : s.Named := Sound.empty.named_run? .empty hs fun handle d hd =>
    hnames handle d (List.mem_append_left _ hd)
  have hnamed' : s'.Named := hsound.named_run? hnamed hs' fun handle d hd =>
    hnames handle d (List.mem_append_right _ hd)
  refine ⟨hsound'.exists_unused hnamed', fun i k hk hclear haccuses => ?_, fun i j => ?_⟩
  · exact hclear (hsound.accuses_of_later hnamed hsound' hnamed' hlater hk haccuses)
  · exact ⟨_, perform?_merge s' i j, fun k => hsound'.accuses_of_merged hnamed'⟩

/-- A method that is called from another file. -/
def calledOperations : List Operation :=
  [.create "called" (twin .pub), .addDefinition "x" "called",
    .addReference "x" ⟨"run", ⟨"b.rb", 1, 0, 1, 3⟩, .syntactic⟩]

/-- The method is read again into another index, and the two are merged both ways. -/
def calledFollowUp : List Operation :=
  [.create "copy" (twin .priv), .addDefinition "y" "copy", .merge "x" "y", .merge "y" "x",
    .mark "called" .priv]

theorem not_accuses_of_cleared_called : ∃ s s', ({} : Store).run? calledOperations = some s ∧
    s.run? calledFollowUp = some s' ∧ 0 ∈ (s.shelf "x").definitions.values ∧
    ¬ s.Accuses "x" 0 ∧ ¬ s'.Accuses "x" 0 := by
  have hnames : ∀ handle d, .create handle d ∈ calledOperations ++ calledFollowUp →
      d.name ≠ "" := by
    intro handle d hd
    simp only [calledOperations, calledFollowUp, List.cons_append, List.nil_append, List.mem_cons,
      Operation.create.injEq, reduceCtorEq, List.not_mem_nil, false_or, or_false] at hd
    rcases hd with ⟨_, rfl⟩ | ⟨_, rfl⟩ <;> decide
  obtain ⟨_, hcleared, _⟩ :=
    not_accuses_of_cleared calledOperations calledFollowUp _ _ rfl rfl hnames
  have hrun : ({} : Store).run? calledOperations = some _ := rfl
  obtain ⟨hsound, _⟩ := Sound.empty.run? hrun
  have hnamed := Sound.empty.named_run? .empty hrun fun handle d hd =>
    hnames handle d (List.mem_append_left _ hd)
  have hclear := mt (hsound.accuses_iff (i := "x") (k := 0) hnamed).1 fun h => by cases h.2.2
  exact ⟨_, _, rfl, rfl, List.mem_cons_self, hclear, hcleared "x" 0 List.mem_cons_self hclear⟩

end Store

/-! ### The order of merges -/

namespace Definition

/-- What a definition is told apart by. -/
def identity (d : Definition) : Kind × String × Location :=
  (d.kind, d.fullName, d.location)

theorem alike_iff {a b : Definition} : a.Alike b ↔ (a.name, a.identity) = (b.name, b.identity) := by
  rw [Alike, same_iff, Prod.mk.injEq, identity, identity, Prod.mk.injEq, Prod.mk.injEq]

/-- The order of verdicts, on what definitions are told apart by. -/
def compareIdentity (a b : Kind × String × Location) : Ordering :=
  (a.2.2.compare b.2.2).then <| (textOrder a.2.1 b.2.1).then (textOrder a.1.text b.1.text)

theorem compareIdentity_eq_compareLex : compareIdentity =
    compareLex (fun a b => a.2.2.compare b.2.2)
      (compareLex (fun a b => textOrder a.2.1 b.2.1)
        (fun a b => textOrder a.1.text b.1.text)) := rfl

instance : Std.TransCmp compareIdentity := by
  rw [compareIdentity_eq_compareLex]
  have hl := transCmp_on (fun a : Kind × String × Location => a.2.2) Location.compare
  have hn := transCmp_on (fun a : Kind × String × Location => a.2.1) textOrder
  have hk := transCmp_on (fun a : Kind × String × Location => a.1.text) textOrder
  infer_instance

theorem eq_of_compareIdentity {a b : Kind × String × Location}
    (hab : (compareIdentity a b).isLE) (hba : (compareIdentity b a).isLE) : a = b := by
  have htie : compareIdentity a b = .eq := Std.OrientedCmp.isLE_antisymm hab hba
  simp only [compareIdentity, Ordering.then_eq_eq, Std.LawfulEqCmp.compare_eq_iff_eq] at htie
  obtain ⟨hlocation, hname, hkind⟩ := htie
  exact Prod.ext (Kind.text_injective hkind) (Prod.ext hname hlocation)

end Definition

namespace Index

variable {x y : Index} {l l' : List Definition}

theorem Tidy.nodup_of_unused (h : x.Tidy) (hl : x.unused = .ok l) :
    (l.map fun d => (d.name, d.identity)).Nodup := by
  rw [eq_of_unused_eq_ok hl]
  have hlisting : ∀ d ∈ sortedBy Definition.comparePlace (x.listing.filter x.isUnused),
      d ∈ x.definitions.values := fun d hd =>
    mem_listing.1 (List.mem_of_mem_filter (mem_sortedBy.1 hd))
  apply List.Nodup.map_on
  · intro d hd e he heq
    exact h.eq_of_alike (hlisting d hd) (hlisting e he) (Definition.alike_iff.2 heq)
  · exact (perm_sortedBy _ _).nodup_iff.2 (h.nodup_listing.filter _)

theorem Tidy.pairwise_of_unused (h : x.Tidy) (hl : x.unused = .ok l) :
    (l.map Definition.identity).Pairwise fun a b => (Definition.compareIdentity a b).isLE := by
  rw [eq_of_unused_eq_ok hl, List.pairwise_map]
  exact h.pairwise_compareReport _

theorem unused_singleton (name : String) {d : Definition} (hd : d.name ≠ "") :
    ({ definitions := ⟨[(name, [d])]⟩ } : Index).unused =
      .ok (if d.ignored then [] else [d]) := by
  have hlisting : ({ definitions := ⟨[(name, [d])]⟩ } : Index).listing = [d] := by
    simp [listing, sortedBy, Buckets.values]
  rw [unused_eq, hlisting]
  cases hignored : d.ignored <;>
    simp [hd, hignored, isUnused, isReferenced, referencesFor, Buckets.get, sortedBy]

/-- Verdicts that name the same definitions name them in the same order. -/
theorem map_identity_eq (hx : x.Tidy) (hy : y.Tidy) (hl : x.unused = .ok l)
    (hl' : y.unused = .ok l') (h : ∀ d, (∃ e ∈ l, e.Alike d) ↔ ∃ e ∈ l', e.Alike d) :
    l.map Definition.identity = l'.map Definition.identity := by
  have hkeys : (l.map fun d => (d.name, d.identity)).Perm (l'.map fun d => (d.name, d.identity)) := by
    rw [List.perm_ext_iff_of_nodup (hx.nodup_of_unused hl) (hy.nodup_of_unused hl')]
    rintro ⟨name, kind, fullName, location⟩
    have hd := h ⟨kind, name, fullName, location, .pub, false⟩
    simp only [Definition.alike_iff] at hd
    rw [List.mem_map, List.mem_map]
    exact hd
  have hperm : (l.map Definition.identity).Perm (l'.map Definition.identity) := by
    have hsnd := hkeys.map Prod.snd
    rwa [List.map_map, List.map_map] at hsnd
  apply hperm.eq_of_pairwise _ (hx.pairwise_of_unused hl) (hy.pairwise_of_unused hl')
  intro a b _ _ hab hba
  exact Definition.eq_of_compareIdentity hab hba

end Index

namespace Store

variable {s : Store} {i j t a b : String} {k l : Nat} {d : Definition}

theorem holds_index_iff : (s.index i).holds d = true ↔
    ∃ k ∈ (s.shelf i).definitions.get d.name, d.same (s.object k) = true := by
  rw [Index.holds, Index.definitionsFor, index, Buckets.get_map, List.any_map, List.any_eq_true]
  rfl

theorem Sound.mem_values_iff (h : s.Sound) : k ∈ (s.shelf i).definitions.values ↔
    k ∈ (s.shelf i).definitions.get (s.object k).name :=
  (h.definitions i).mem_values

theorem Sound.holds_of_mem (h : s.Sound) (hk : k ∈ (s.shelf i).definitions.values) :
    (s.index i).holds (s.object k) = true :=
  holds_index_iff.2 ⟨k, h.mem_values_iff.1 hk, Definition.same_refl _⟩

/-- A merge takes over the objects of which the receiving index has not the same. -/
theorem Sound.mem_values_merged (h : s.Sound) :
    k ∈ ((s.merged i j).shelf i).definitions.values ↔ k ∈ (s.shelf i).definitions.values ∨
      k ∈ (s.shelf j).definitions.values ∧ (s.index i).holds (s.object k) = false := by
  have hany : (s.index i).holds (s.object k) =
      ((s.shelf i).definitions.get (s.object k).name).any (s.sameObject k) := by
    rw [Index.holds, Index.definitionsFor, index, Buckets.get_map, List.any_map]
    rfl
  rw [(h.merged i j).mem_values_iff, h.mem_values_iff, h.mem_values_iff, shelf_merged_self,
    object_merged, (h.definitions j).mem_get_merge, hany]

theorem Sound.holds_merged (h : s.Sound) : ((s.merged i j).index i).holds d = true ↔
    (s.index i).holds d = true ∨ (s.index j).holds d = true := by
  simp only [holds_index_iff, shelf_merged_self, object_merged, (h.definitions j).mem_get_merge]
  constructor
  · rintro ⟨k, hk | ⟨hk, _⟩, hsame⟩
    · exact .inl ⟨k, hk, hsame⟩
    · exact .inr ⟨k, hk, hsame⟩
  · rintro (⟨k, hk, hsame⟩ | ⟨k, hk, hsame⟩)
    · exact ⟨k, .inl hk, hsame⟩
    · cases hany : ((s.shelf i).definitions.get d.name).any (s.sameObject k) with
      | false => exact ⟨k, .inr ⟨hk, hany⟩, hsame⟩
      | true =>
          -- what keeps the object out stands for it
          obtain ⟨l, hl, hkl⟩ := List.any_eq_true.1 hany
          exact ⟨l, .inl hl, Definition.same_trans hsame hkl⟩

/-- The store after two indexes are merged into a third, one after the other. -/
def mergedTwice (s : Store) (t a b : String) : Store :=
  (s.merged t a).merged t b

theorem Sound.mem_values_mergedTwice (h : s.Sound) :
    k ∈ ((s.mergedTwice t a b).shelf t).definitions.values ↔
      k ∈ (s.shelf t).definitions.values ∨ (s.index t).holds (s.object k) = false ∧
        (k ∈ (s.shelf a).definitions.values ∨
          k ∈ (s.shelf b).definitions.values ∧ (s.index a).holds (s.object k) = false) := by
  have hself : k ∈ (s.shelf t).definitions.values → (s.index t).holds (s.object k) = true :=
    h.holds_of_mem
  have hboth : ((s.merged t a).index t).holds (s.object k) = false ↔
      (s.index t).holds (s.object k) = false ∧ (s.index a).holds (s.object k) = false := by
    simp only [← Bool.not_eq_true, h.holds_merged, not_or]
  rw [mergedTwice, (h.merged t a).mem_values_merged, object_merged, hboth]
  by_cases hbt : b = t
  · subst hbt
    rw [h.mem_values_merged]
    grind
  · rw [shelf_merged_of_ne s a hbt, h.mem_values_merged]
    grind

theorem Sound.references_mergedTwice (h : s.Sound) {name : String} :
    ((s.mergedTwice t a b).shelf t).references.get name = [] ↔
      (s.shelf t).references.get name = [] ∧ (s.shelf a).references.get name = [] ∧
        (s.shelf b).references.get name = [] := by
  rw [mergedTwice, (h.merged t a).references_merged, h.references_merged, and_assoc]
  by_cases hbt : b = t
  · subst hbt
    rw [h.references_merged]
    tauto
  · rw [shelf_merged_of_ne s a hbt]

/-- Two indexes have the same definition, ignored in one of them only, and the mark decides: nothing
refers to its name, and the third index does not have it. -/
structure Clash (s : Store) (t a b : String) (k l : Nat) : Prop where
  first : k ∈ (s.shelf a).definitions.values
  second : l ∈ (s.shelf b).definitions.values
  alike : (s.object k).Alike (s.object l)
  absent : (s.index t).holds (s.object k) = false
  unreferenced : ∀ i ∈ [t, a, b], (s.index i).isReferenced (s.object k).name = false
  marks : (s.object k).ignored ≠ (s.object l).ignored

theorem isReferenced_index_eq_false_iff {name : String} :
    (s.index i).isReferenced name = false ↔ (s.shelf i).references.get name = [] := by
  simp [Index.isReferenced, Index.referencesFor, index]

theorem Clash.symm (h : s.Clash t a b k l) : s.Clash t b a l k where
  first := h.second
  second := h.first
  alike := h.alike.symm
  absent := by
    rw [Index.holds_congr _ h.alike.symm]
    exact h.absent
  unreferenced := by
    intro i hi
    rw [← h.alike.1]
    apply h.unreferenced
    grind
  marks := h.marks.symm

theorem Sound.accuses_mergedTwice (h : s.Sound) (hnamed : s.Named) :
    (s.mergedTwice t a b).Accuses t k ↔
      (k ∈ (s.shelf t).definitions.values ∨ (s.index t).holds (s.object k) = false ∧
        (k ∈ (s.shelf a).definitions.values ∨
          k ∈ (s.shelf b).definitions.values ∧ (s.index a).holds (s.object k) = false)) ∧
      (s.object k).ignored = false ∧
      ∀ i ∈ [t, a, b], (s.index i).isReferenced (s.object k).name = false := by
  have hsound : (s.mergedTwice t a b).Sound := (h.merged t a).merged t b
  have hnamed' : (s.mergedTwice t a b).Named := hnamed
  rw [hsound.accuses_iff hnamed', h.mem_values_mergedTwice, h.references_mergedTwice]
  simp only [isReferenced_index_eq_false_iff, List.mem_cons, List.not_mem_nil, or_false,
    forall_eq_or_imp, forall_eq]
  rfl

theorem exists_accuses_iff {ds : List Definition}
    (hds : (s.index i).unused = .ok ds) :
    (∃ e ∈ ds, e.Alike d) ↔ ∃ k, s.Accuses i k ∧ (s.object k).Alike d := by
  constructor
  · rintro ⟨e, he, halike⟩
    have hlisting : e ∈ (s.index i).listing := by
      rw [Index.eq_of_unused_eq_ok hds, mem_sortedBy] at he
      exact List.mem_of_mem_filter he
    obtain ⟨k, hk, rfl⟩ := mem_listing_index.1 hlisting
    exact ⟨k, ⟨hk, ds, hds, he⟩, halike⟩
  · rintro ⟨k, ⟨_, ds', hds', hk⟩, halike⟩
    rw [hds] at hds'
    cases hds'
    exact ⟨s.object k, hk, halike⟩

/-- Without a clash the definitions that are accused after the merges in one order are accused after
those in the other. -/
theorem Sound.exists_accuses_mergedTwice (h : s.Sound) (hnamed : s.Named)
    (hclash : ∀ k l, ¬ s.Clash t a b k l) (hk : (s.mergedTwice t a b).Accuses t k) :
    ∃ l, (s.mergedTwice t b a).Accuses t l ∧ (s.object l).Alike (s.object k) := by
  obtain ⟨hmem, hignored, hreferences⟩ := (h.accuses_mergedTwice hnamed).1 hk
  have hreferences' : ∀ i ∈ [t, b, a], (s.index i).isReferenced (s.object k).name = false := by
    intro i hi
    apply hreferences
    grind
  have hstay : (k ∈ (s.shelf t).definitions.values ∨ (s.index t).holds (s.object k) = false ∧
      (k ∈ (s.shelf b).definitions.values ∨ k ∈ (s.shelf a).definitions.values ∧
        (s.index b).holds (s.object k) = false)) →
      ∃ l, (s.mergedTwice t b a).Accuses t l ∧ (s.object l).Alike (s.object k) := fun hmem =>
    ⟨k, (h.accuses_mergedTwice hnamed).2 ⟨hmem, hignored, hreferences'⟩, .refl _⟩
  rcases hmem with hmem | ⟨habsent, hmem | ⟨hmem, _⟩⟩
  · exact hstay (.inl hmem)
  · cases hholds : (s.index b).holds (s.object k) with
    | false => exact hstay (.inr ⟨habsent, .inr ⟨hmem, hholds⟩⟩)
    | true =>
        -- the other index has the same definition, and without a clash the same mark
        obtain ⟨l, hl, hsame⟩ := holds_index_iff.1 hholds
        have hname : (s.object l).name = (s.object k).name := (h.definitions b).named _ l hl
        have halike : (s.object k).Alike (s.object l) := ⟨hname.symm, hsame⟩
        have hlmem : l ∈ (s.shelf b).definitions.values := Buckets.mem_values_of_mem_get hl
        have hmarks : (s.object k).ignored = (s.object l).ignored := by
          by_contra hne
          exact hclash k l ⟨hmem, hlmem, halike, habsent, hreferences, hne⟩
        refine ⟨l, (h.accuses_mergedTwice hnamed).2 ⟨.inr ⟨?_, .inl hlmem⟩, ?_, ?_⟩, halike.symm⟩
        · rw [Index.holds_congr _ halike.symm]
          exact habsent
        · rw [← hmarks]
          exact hignored
        · rw [hname]
          exact hreferences'
  · exact hstay (.inr ⟨habsent, .inl hmem⟩)

/-- In a clash the first merge decides. -/
theorem Clash.exists_accuses_iff (h : s.Sound) (hnamed : s.Named) (hclash : s.Clash t a b k l) :
    (∃ m, (s.mergedTwice t a b).Accuses t m ∧ (s.object m).Alike (s.object k)) ↔
      (s.object k).ignored = false := by
  have hsound : (s.mergedTwice t a b).Sound := (h.merged t a).merged t b
  have hmem : k ∈ ((s.mergedTwice t a b).shelf t).definitions.values :=
    h.mem_values_mergedTwice.2 (.inr ⟨hclash.absent, .inl hclash.first⟩)
  constructor
  · rintro ⟨m, hm, halike⟩
    obtain rfl : m = k := (hsound.definitions t).eq_of_same (fun _ _ => Definition.same_comm _ _)
      hm.1 hmem halike.1 halike.2
    exact ((h.accuses_mergedTwice hnamed).1 hm).2.1
  · intro hignored
    refine ⟨k, (h.accuses_mergedTwice hnamed).2 ⟨?_, hignored, hclash.unreferenced⟩, .refl _⟩
    exact .inr ⟨hclash.absent, .inl hclash.first⟩

/-- Merging two indexes into a third gives the same verdict in either order, unless they have the
same definition with different marks: such a definition is accused after one of the orders only. -/
theorem unused_merge_order (ops : List Operation) (s : Store)
    (hs : ({} : Store).run? ops = some s)
    (hnames : ∀ handle d, .create handle d ∈ ops → d.name ≠ "") (t a b : String) :
    ∃ s₁ s₂ l₁ l₂, s.run? [.merge t a, .merge t b] = some s₁ ∧
      s.run? [.merge t b, .merge t a] = some s₂ ∧
      (s₁.index t).unused = .ok l₁ ∧ (s₂.index t).unused = .ok l₂ ∧
      ((∀ k l, ¬ s.Clash t a b k l) →
        l₁.map Definition.identity = l₂.map Definition.identity) ∧
      ∀ k l, s.Clash t a b k l →
        ((∃ d ∈ l₁, d.Alike (s.object k)) ↔ ¬ ∃ d ∈ l₂, d.Alike (s.object k)) := by
  obtain ⟨hsound, _⟩ := Sound.empty.run? hs
  have hnamed : s.Named := Sound.empty.named_run? .empty hs hnames
  have hsound₁ : (s.mergedTwice t a b).Sound := (hsound.merged t a).merged t b
  have hsound₂ : (s.mergedTwice t b a).Sound := (hsound.merged t b).merged t a
  obtain ⟨l₁, hl₁⟩ := hsound₁.exists_unused hnamed t
  obtain ⟨l₂, hl₂⟩ := hsound₂.exists_unused hnamed t
  refine ⟨s.mergedTwice t a b, s.mergedTwice t b a, l₁, l₂, rfl, rfl, hl₁, hl₂, fun hclash => ?_,
    fun k l hclash => ?_⟩
  · have hclash' : ∀ k l, ¬ s.Clash t b a k l := fun k l h => hclash l k h.symm
    apply Index.map_identity_eq (hsound₁.tidy_index t) (hsound₂.tidy_index t) hl₁ hl₂
    intro d
    rw [exists_accuses_iff hl₁, exists_accuses_iff hl₂]
    constructor
    · rintro ⟨k, hk, halike⟩
      obtain ⟨l, hl, hlk⟩ := hsound.exists_accuses_mergedTwice hnamed hclash hk
      exact ⟨l, hl, hlk.trans halike⟩
    · rintro ⟨k, hk, halike⟩
      obtain ⟨l, hl, hlk⟩ := hsound.exists_accuses_mergedTwice hnamed hclash' hk
      exact ⟨l, hl, hlk.trans halike⟩
  · have hother : (∃ m, (s.mergedTwice t b a).Accuses t m ∧ (s.object m).Alike (s.object k)) ↔
        (s.object l).ignored = false := by
      rw [← hclash.symm.exists_accuses_iff hsound hnamed]
      apply exists_congr
      intro m
      apply and_congr_right
      exact fun _ => ⟨fun h => h.trans hclash.alike, fun h => h.trans hclash.alike.symm⟩
    have hmarks := hclash.marks
    rw [exists_accuses_iff hl₁, exists_accuses_iff hl₂]
    change (∃ m, _ ∧ (s.object m).Alike _) ↔ ¬ ∃ m, _ ∧ (s.object m).Alike _
    rw [hclash.exists_accuses_iff hsound hnamed, hother]
    cases hk : (s.object k).ignored <;> cases hl : (s.object l).ignored <;> simp_all

/-- One definition in two indexes, ignored in the first. -/
def clashOperations : List Operation :=
  [.create "seen" (twin .pub), .create "spared" (twin .pub), .ignore "spared",
    .addDefinition "a" "spared", .addDefinition "b" "seen"]

theorem unused_merge_order_twins : ∃ s s₁ s₂ l₁ l₂, ({} : Store).run? clashOperations = some s ∧
    s.Clash "t" "a" "b" 1 0 ∧ s.run? [.merge "t" "a", .merge "t" "b"] = some s₁ ∧
    s.run? [.merge "t" "b", .merge "t" "a"] = some s₂ ∧
    (s₁.index "t").unused = .ok l₁ ∧ (s₂.index "t").unused = .ok l₂ ∧
    ((∃ d ∈ l₁, d.Alike (s.object 1)) ↔ ¬ ∃ d ∈ l₂, d.Alike (s.object 1)) ∧
    l₁.map Definition.identity = [] ∧ l₂.map Definition.identity = [(twin .pub).identity] := by
  have hnames : ∀ handle d, .create handle d ∈ clashOperations → d.name ≠ "" := by
    intro handle d hd
    simp only [clashOperations, List.mem_cons, Operation.create.injEq, reduceCtorEq,
      List.not_mem_nil, or_false] at hd
    rcases hd with ⟨_, rfl⟩ | ⟨_, rfl⟩ <;> decide
  obtain ⟨s, hs⟩ : ∃ s, ({} : Store).run? clashOperations = some s := ⟨_, rfl⟩
  have hclash : s.Clash "t" "a" "b" 1 0 := by
    cases hs
    exact ⟨List.mem_singleton_self 1, List.mem_singleton_self 0, ⟨rfl, rfl⟩, rfl, by decide,
      by decide⟩
  obtain ⟨s₁, s₂, l₁, l₂, h₁, h₂, hl₁, hl₂, _, hdiffer⟩ :=
    unused_merge_order clashOperations s hs hnames "t" "a" "b"
  refine ⟨s, s₁, s₂, l₁, l₂, hs, hclash, h₁, h₂, hl₁, hl₂, hdiffer 1 0 hclash, ?_⟩
  cases hs
  cases h₁
  cases h₂
  have hspared := Index.unused_singleton "run" (d := (twin .pub).ignore) (by decide)
  have hseen := Index.unused_singleton "run" (d := twin .pub) (by decide)
  cases hl₁.symm.trans hspared
  cases hl₂.symm.trans hseen
  exact ⟨rfl, rfl⟩

end Store
end Fallow
