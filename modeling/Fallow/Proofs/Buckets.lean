import Fallow.Index.Buckets
import Mathlib.Data.List.Nodup
import Mathlib.Data.List.Pairwise

/-!
# Contents of buckets

What every operation on buckets does to the group under each name and to the list of names. Buckets
are tidy when no name stands twice, no group is empty, every value stands under its own name and no
group holds the same value twice; all operations keep them so.

Merging buckets amounts to inserting their entries one by one. This makes it commute with inserting
and with changes that leave the receiving side alone, and makes the contents of a merge the union
of the contents when values that count as the same are equal. In general a merge takes over those
values of which the receiving side has not the same already.
-/

namespace Fallow.Buckets

variable {α : Type} {same : α → α → Bool}

def keys (b : Buckets α) : List String :=
  b.groups.map (·.1)

/-- The values with the names they stand under. -/
def entries (b : Buckets α) : List (String × α) :=
  b.groups.flatMap fun g => g.2.map (g.1, ·)

/-- Changes every value in a way that may depend on the name it stands under. -/
def mapWith (f : String → α → α) (b : Buckets α) : Buckets α :=
  ⟨b.groups.map fun g => (g.1, g.2.map (f g.1))⟩

theorem map_eq_mapWith (f : α → α) (b : Buckets α) : b.map f = b.mapWith fun _ => f := rfl

theorem mapAt_eq_mapWith (name : String) (f : α → α) (b : Buckets α) :
    b.mapAt name f = b.mapWith fun key => if key = name then f else id := by
  unfold mapAt mapWith
  congr 1
  apply List.map_congr_left
  rintro ⟨key, group⟩ _
  by_cases h : key = name <;> simp [h]

/-! ### Groups and names -/

theorem mem_addTo {a c : α} {group : List α} :
    c ∈ addTo same a group ↔ c ∈ group ∨ c = a ∧ group.any (same a) = false := by
  unfold addTo
  split
  · rename_i h
    simp [h]
  · rename_i h
    simp [h, List.mem_append]

theorem addTo_ne_nil (a : α) (group : List α) : addTo same a group ≠ [] := by
  unfold addTo
  split
  · rintro rfl
    simp_all
  · simp

theorem get_cons (key name : String) (group : List α) (rest : List (String × List α)) :
    get ⟨(key, group) :: rest⟩ name = if name = key then group else get ⟨rest⟩ name := by
  by_cases h : name = key
  · simp [get, h]
  · have hbeq : (name == key) = false := by simpa using h
    simp [get, List.lookup_cons, hbeq, h]

theorem get_insert (b : Buckets α) (name key : String) (a : α) :
    (b.insert same name a).get key =
      if key = name then addTo same a (b.get name) else b.get key := by
  obtain ⟨groups⟩ := b
  unfold insert
  induction groups with
  | nil => simp [insertInto, get_cons, addTo]
  | cons head rest ih =>
      obtain ⟨other, group⟩ := head
      by_cases ho : other = name
      · subst ho
        simp only [insertInto, if_true, get_cons]
        split <;> simp
      · simp only [insertInto, ho, if_false, get_cons, ih, Ne.symm ho]
        by_cases h : key = other
        · simp [h, ho]
        · simp [h]

theorem keys_insert (b : Buckets α) (name : String) (a : α) :
    (b.insert same name a).keys = if name ∈ b.keys then b.keys else b.keys ++ [name] := by
  obtain ⟨groups⟩ := b
  simp only [insert, keys]
  induction groups with
  | nil => simp [insertInto]
  | cons head rest ih =>
      obtain ⟨other, group⟩ := head
      by_cases ho : other = name
      · simp [insertInto, ho]
      · simp only [insertInto, ho, if_false, List.map_cons, List.mem_cons, Ne.symm ho, false_or]
        rw [ih]
        by_cases hr : name ∈ rest.map (·.1) <;> simp only [hr, if_true, if_false, List.cons_append]

theorem get_mapWith (f : String → α → α) (b : Buckets α) (key : String) :
    (b.mapWith f).get key = (b.get key).map (f key) := by
  obtain ⟨groups⟩ := b
  unfold mapWith
  induction groups with
  | nil => simp
  | cons head rest ih =>
      obtain ⟨other, group⟩ := head
      by_cases h : key = other
      · simp [get_cons, h]
      · simpa [get_cons, h] using ih

@[simp] theorem keys_mapWith (f : String → α → α) (b : Buckets α) :
    (b.mapWith f).keys = b.keys := by
  simp [mapWith, keys, Function.comp_def]

theorem get_eq_nil_of_not_mem_keys {b : Buckets α} {name : String} (h : name ∉ b.keys) :
    b.get name = [] := by
  have hnone : b.groups.lookup name = none := by
    rw [List.lookup_eq_none_iff]
    intro g hg
    have hne : name ≠ g.1 := by
      rintro rfl
      exact h (List.mem_map_of_mem hg)
    simpa using hne
  simp [get, hnone]

theorem get_eq_of_mem_groups {b : Buckets α} (hn : b.keys.Nodup) {name : String} {group : List α}
    (hg : (name, group) ∈ b.groups) : b.get name = group := by
  obtain ⟨groups⟩ := b
  induction groups with
  | nil => simp at hg
  | cons head rest ih =>
      obtain ⟨other, first⟩ := head
      obtain ⟨hother, hrest⟩ : other ∉ rest.map (·.1) ∧ (rest.map (·.1)).Nodup :=
        List.nodup_cons.1 hn
      rw [get_cons]
      rcases List.mem_cons.1 hg with he | hr
      · cases he
        simp
      · have hne : name ≠ other := by
          rintro rfl
          exact hother (List.mem_map.2 ⟨(name, group), hr, rfl⟩)
        rw [if_neg hne]
        exact ih hrest hr

theorem exists_mem_groups_of_mem_keys {b : Buckets α} {name : String} (h : name ∈ b.keys) :
    ∃ group, (name, group) ∈ b.groups := by
  obtain ⟨g, hg, rfl⟩ := List.mem_map.1 h
  exact ⟨g.2, hg⟩

theorem mem_keys_of_mem_get {b : Buckets α} {name : String} {a : α} (h : a ∈ b.get name) :
    name ∈ b.keys := by
  by_contra hk
  simp [get_eq_nil_of_not_mem_keys hk] at h

theorem mem_entries_iff {b : Buckets α} (hn : b.keys.Nodup) {name : String} {a : α} :
    (name, a) ∈ b.entries ↔ a ∈ b.get name := by
  simp only [entries, List.mem_flatMap, List.mem_map, Prod.mk.injEq]
  constructor
  · rintro ⟨⟨key, group⟩, hg, c, hc, rfl, rfl⟩
    rwa [get_eq_of_mem_groups hn hg]
  · intro ha
    obtain ⟨group, hg⟩ := exists_mem_groups_of_mem_keys (mem_keys_of_mem_get ha)
    exact ⟨(name, group), hg, a, by rwa [get_eq_of_mem_groups hn hg] at ha, rfl, rfl⟩

theorem mem_values_iff_mem_entries {b : Buckets α} {a : α} :
    a ∈ b.values ↔ ∃ name, (name, a) ∈ b.entries := by
  simp only [values, entries, List.mem_flatMap, List.mem_map, Prod.mk.injEq]
  constructor
  · rintro ⟨g, hg, ha⟩
    exact ⟨g.1, g, hg, a, ha, rfl, rfl⟩
  · rintro ⟨name, g, hg, c, hc, rfl, rfl⟩
    exact ⟨g, hg, hc⟩

/-! ### Tidy buckets -/

/-- Every value stands once and under its own name; the names are those under which something
stands. -/
structure Tidy (nameOf : α → String) (same : α → α → Bool) (b : Buckets α) : Prop where
  keys_nodup : b.keys.Nodup
  filled : ∀ name ∈ b.keys, b.get name ≠ []
  named : ∀ name, ∀ a ∈ b.get name, nameOf a = name
  apart : ∀ name, (b.get name).Pairwise fun a c => same c a = false

namespace Tidy

variable {nameOf : α → String} {b : Buckets α}

theorem empty : Tidy nameOf same ⟨[]⟩ where
  keys_nodup := List.nodup_nil
  filled := by simp [keys]
  named := by simp
  apart := by simp

theorem insert (h : b.Tidy nameOf same) (a : α) :
    (b.insert same (nameOf a) a).Tidy nameOf same where
  keys_nodup := by
    rw [keys_insert]
    split
    · exact h.keys_nodup
    · rename_i hk
      exact List.nodup_append.2 ⟨h.keys_nodup, by simp, by grind⟩
  filled := by
    intro name hname
    rw [get_insert]
    split
    · exact addTo_ne_nil _ _
    · rename_i hne
      rw [keys_insert] at hname
      apply h.filled
      split at hname
      · exact hname
      · simpa [hne] using hname
  named := by
    intro name c hc
    rw [get_insert] at hc
    split at hc
    · rename_i he
      rcases mem_addTo.1 hc with hc | ⟨rfl, _⟩
      · rw [he, h.named _ c hc]
      · exact he.symm
    · exact h.named name c hc
  apart := by
    intro name
    rw [get_insert]
    split
    · unfold addTo
      split
      · exact h.apart _
      · rename_i hany
        refine List.pairwise_append.2 ⟨h.apart _, by simp, ?_⟩
        intro c hc d hd
        rw [List.mem_singleton.1 hd]
        simp only [List.any_eq_true, not_exists, not_and, Bool.not_eq_true] at hany
        exact hany c hc
    · exact h.apart name

theorem mapWith (h : b.Tidy nameOf same) {f : String → α → α}
    (hname : ∀ key a, nameOf (f key a) = nameOf a)
    (hsame : ∀ key a c, same (f key a) (f key c) = same a c) :
    (b.mapWith f).Tidy nameOf same where
  keys_nodup := by simpa using h.keys_nodup
  filled := by
    intro name hname'
    rw [get_mapWith]
    have hne := h.filled name (by simpa using hname')
    simpa using hne
  named := by
    intro name c hc
    rw [get_mapWith] at hc
    obtain ⟨a, ha, rfl⟩ := List.mem_map.1 hc
    rw [hname, h.named name a ha]
  apart := by
    intro name
    rw [get_mapWith, List.pairwise_map]
    exact (h.apart name).imp fun hac => by rw [hsame, hac]

theorem mem_values (h : b.Tidy nameOf same) {a : α} :
    a ∈ b.values ↔ a ∈ b.get (nameOf a) := by
  rw [mem_values_iff_mem_entries]
  constructor
  · rintro ⟨name, ha⟩
    have hget := (mem_entries_iff h.keys_nodup).1 ha
    rwa [h.named name a hget]
  · intro ha
    exact ⟨nameOf a, (mem_entries_iff h.keys_nodup).2 ha⟩

/-- Values under one name are told apart by `same`, values under two names by their names. -/
theorem nodup_values (h : b.Tidy nameOf same) (hrefl : ∀ a, same a a = true) :
    b.values.Nodup := by
  unfold values
  refine List.pairwise_flatMap.2 ⟨?_, ?_⟩
  · rintro ⟨name, group⟩ hg
    have hapart := h.apart name
    rw [get_eq_of_mem_groups h.keys_nodup hg] at hapart
    apply hapart.imp
    rintro a c hac rfl
    simp [hrefl] at hac
  · have hkeys : b.groups.Pairwise fun g g' => g.1 ≠ g'.1 := List.pairwise_map.1 h.keys_nodup
    rw [List.pairwise_iff_forall_sublist] at hkeys ⊢
    rintro ⟨name, group⟩ ⟨name', group'⟩ hsub a ha c hc rfl
    have hg : (name, group) ∈ b.groups := hsub.subset (by simp)
    have hg' : (name', group') ∈ b.groups := hsub.subset (by simp)
    apply hkeys hsub
    have hn := h.named name a (by rwa [get_eq_of_mem_groups h.keys_nodup hg])
    have hn' := h.named name' a (by rwa [get_eq_of_mem_groups h.keys_nodup hg'])
    exact hn.symm.trans hn'

theorem eq_of_same (h : b.Tidy nameOf same) (hcomm : ∀ a c, same a c = same c a) {a c : α}
    (ha : a ∈ b.values) (hc : c ∈ b.values) (hname : nameOf a = nameOf c)
    (hsame : same a c = true) : a = c := by
  rw [h.mem_values] at ha hc
  rw [← hname] at hc
  have hsymm : Std.Symm fun a c => same c a = false := ⟨fun a c hac => by rwa [hcomm]⟩
  by_contra hne
  have hapart := (h.apart (nameOf a)).forall hc ha (Ne.symm hne)
  rw [hsame] at hapart
  exact Bool.noConfusion hapart

end Tidy

/-! ### Inserting several entries -/

def insertAll (same : α → α → Bool) (b : Buckets α) (es : List (String × α)) : Buckets α :=
  es.foldl (fun b e => b.insert same e.1 e.2) b

@[simp] theorem insertAll_nil (b : Buckets α) : b.insertAll same [] = b := rfl

@[simp] theorem insertAll_cons (b : Buckets α) (name : String) (a : α) (es : List (String × α)) :
    b.insertAll same ((name, a) :: es) = (b.insert same name a).insertAll same es := rfl

theorem insertAll_append (b : Buckets α) (es fs : List (String × α)) :
    b.insertAll same (es ++ fs) = (b.insertAll same es).insertAll same fs :=
  List.foldl_append

theorem merge_eq_insertAll (b other : Buckets α) :
    b.merge same other = b.insertAll same other.entries := by
  obtain ⟨groups⟩ := other
  unfold merge entries insertAll
  induction groups generalizing b with
  | nil => rfl
  | cons head rest ih =>
      rw [List.foldl_cons, ih, List.flatMap_cons, List.foldl_append, List.foldl_map]

theorem Tidy.insertAll {nameOf : α → String} {b : Buckets α} (h : b.Tidy nameOf same)
    {es : List (String × α)} (hes : ∀ e ∈ es, nameOf e.2 = e.1) :
    (b.insertAll same es).Tidy nameOf same := by
  induction es generalizing b with
  | nil => exact h
  | cons e rest ih =>
      obtain ⟨name, a⟩ := e
      obtain rfl : nameOf a = name := hes _ List.mem_cons_self
      exact ih (h.insert a) fun e he => hes e (List.mem_cons_of_mem _ he)

theorem Tidy.named_entries {nameOf : α → String} {b : Buckets α} (h : b.Tidy nameOf same) :
    ∀ e ∈ b.entries, nameOf e.2 = e.1 :=
  fun _ he => h.named _ _ ((mem_entries_iff h.keys_nodup).1 he)

theorem mem_get_insert_of_mem {b : Buckets α} {name key : String} {a c : α}
    (h : c ∈ b.get key) : c ∈ (b.insert same name a).get key := by
  rw [get_insert]
  split
  · rename_i he
    exact mem_addTo.2 (Or.inl (he ▸ h))
  · exact h

theorem mem_get_insertAll_of_mem {b : Buckets α} {key : String} {c : α}
    (es : List (String × α)) (h : c ∈ b.get key) : c ∈ (b.insertAll same es).get key := by
  induction es generalizing b with
  | nil => exact h
  | cons e rest ih => exact ih (mem_get_insert_of_mem h)

/-- What is inserted is there in the end, or something that counts as the same is. -/
theorem exists_same_mem_get_insertAll (hrefl : ∀ a, same a a = true) {b : Buckets α}
    {name : String} {a : α} {es : List (String × α)} (h : (name, a) ∈ es) :
    ∃ c ∈ (b.insertAll same es).get name, same a c = true := by
  induction es generalizing b with
  | nil => simp at h
  | cons e rest ih =>
      rcases List.mem_cons.1 h with rfl | hr
      · have hstart : ∃ c ∈ (b.insert same name a).get name, same a c = true := by
          rw [get_insert, if_pos rfl]
          by_cases hany : (b.get name).any (same a) = true
          · obtain ⟨c, hc, hac⟩ := List.any_eq_true.1 hany
            exact ⟨c, mem_addTo.2 (Or.inl hc), hac⟩
          · exact ⟨a, mem_addTo.2 (Or.inr ⟨rfl, by simpa using hany⟩), hrefl a⟩
        obtain ⟨c, hc, hac⟩ := hstart
        exact ⟨c, mem_get_insertAll_of_mem rest hc, hac⟩
      · exact ih hr

theorem mem_values_of_mem_get {b : Buckets α} {name : String} {a : α} (h : a ∈ b.get name) :
    a ∈ b.values := by
  obtain ⟨groups⟩ := b
  induction groups with
  | nil => simp at h
  | cons head rest ih =>
      obtain ⟨key, group⟩ := head
      rw [get_cons] at h
      rw [values, List.flatMap_cons, List.mem_append]
      split at h
      · exact .inl h
      · exact .inr (ih h)

theorem mem_values_insert_of_mem {b : Buckets α} {name : String} {a c : α} (h : c ∈ b.values) :
    c ∈ (b.insert same name a).values := by
  obtain ⟨groups⟩ := b
  simp only [insert, values] at *
  induction groups with
  | nil => simp at h
  | cons head rest ih =>
      obtain ⟨key, group⟩ := head
      rw [List.flatMap_cons, List.mem_append] at h
      rw [insertInto]
      split
      · rw [List.flatMap_cons, List.mem_append]
        exact h.imp_left fun hc => mem_addTo.2 (.inl hc)
      · rw [List.flatMap_cons, List.mem_append]
        exact h.imp_right ih

theorem of_mem_values_insert {b : Buckets α} {name : String} {a c : α}
    (h : c ∈ (b.insert same name a).values) : c ∈ b.values ∨ c = a := by
  obtain ⟨groups⟩ := b
  simp only [insert, values] at *
  induction groups with
  | nil => exact .inr (by simpa [insertInto] using h)
  | cons head rest ih =>
      obtain ⟨key, group⟩ := head
      rw [List.flatMap_cons, List.mem_append]
      rw [insertInto] at h
      split at h
      · rw [List.flatMap_cons, List.mem_append, mem_addTo] at h
        rcases h with (h | h) | h
        · exact .inl (.inl h)
        · exact .inr h.1
        · exact .inl (.inr h)
      · rw [List.flatMap_cons, List.mem_append] at h
        rcases h with h | h
        · exact .inl (.inl h)
        · exact (ih h).imp_left .inr

theorem mem_values_insertAll_of_mem {b : Buckets α} {c : α} (es : List (String × α))
    (h : c ∈ b.values) : c ∈ (b.insertAll same es).values := by
  induction es generalizing b with
  | nil => exact h
  | cons e rest ih => exact ih (mem_values_insert_of_mem h)

theorem of_mem_values_insertAll {b : Buckets α} {c : α} {es : List (String × α)}
    (h : c ∈ (b.insertAll same es).values) : c ∈ b.values ∨ ∃ name, (name, c) ∈ es := by
  induction es generalizing b with
  | nil => exact .inl h
  | cons e rest ih =>
      obtain ⟨name, a⟩ := e
      rcases ih h with h | ⟨key, h⟩
      · rcases of_mem_values_insert h with h | rfl
        · exact .inl h
        · exact .inr ⟨name, List.mem_cons_self⟩
      · exact .inr ⟨key, List.mem_cons_of_mem _ h⟩

/-- Nothing that is inserted gets lost when only equal values count as the same. -/
theorem mem_values_insertAll [BEq α] [LawfulBEq α] {b : Buckets α} {c : α}
    {es : List (String × α)} :
    c ∈ (b.insertAll (· == ·) es).values ↔ c ∈ b.values ∨ ∃ name, (name, c) ∈ es := by
  constructor
  · exact of_mem_values_insertAll
  · rintro (h | ⟨name, h⟩)
    · exact mem_values_insertAll_of_mem es h
    · obtain ⟨d, hd, hcd⟩ := exists_same_mem_get_insertAll (b := b) (fun _ => BEq.rfl) h
      rw [eq_of_beq hcd]
      exact mem_values_of_mem_get hd

theorem mem_get_insert [BEq α] [LawfulBEq α] {b : Buckets α} {name key : String} {a c : α} :
    c ∈ (b.insert (· == ·) name a).get key ↔ c ∈ b.get key ∨ (key, c) = (name, a) := by
  rw [get_insert]
  by_cases hkey : key = name
  · subst hkey
    rw [if_pos rfl, mem_addTo]
    constructor
    · rintro (hc | ⟨rfl, _⟩)
      · exact .inl hc
      · exact .inr rfl
    · rintro (hc | hc)
      · exact .inl hc
      · obtain ⟨_, rfl⟩ := Prod.mk.inj hc
        by_cases hmem : c ∈ b.get key
        · exact .inl hmem
        · have hnew : (b.get key).any (c == ·) = false := by
            rw [List.any_eq_false]
            intro d hd heq
            exact hmem (eq_of_beq heq ▸ hd)
          exact .inr ⟨rfl, hnew⟩
  · have hne : (key, c) ≠ (name, a) := fun h => hkey (Prod.mk.inj h).1
    simp only [if_neg hkey, hne, or_false]

theorem mem_get_insertAll [BEq α] [LawfulBEq α] {b : Buckets α} {key : String} {c : α}
    {es : List (String × α)} :
    c ∈ (b.insertAll (· == ·) es).get key ↔ c ∈ b.get key ∨ (key, c) ∈ es := by
  induction es generalizing b with
  | nil => simp
  | cons e rest ih =>
      obtain ⟨name, a⟩ := e
      rw [insertAll_cons, ih, mem_get_insert, or_assoc, List.mem_cons]

theorem mem_values_merge_of_mem {b : Buckets α} {c : α} (other : Buckets α) (h : c ∈ b.values) :
    c ∈ (b.merge same other).values := by
  rw [merge_eq_insertAll]
  exact mem_values_insertAll_of_mem _ h

theorem of_mem_values_merge {b other : Buckets α} {c : α}
    (h : c ∈ (b.merge same other).values) : c ∈ b.values ∨ c ∈ other.values := by
  rw [merge_eq_insertAll] at h
  rw [mem_values_iff_mem_entries (b := other)]
  exact of_mem_values_insertAll h

/-! ### Merging and other operations -/

theorem insert_eq_self {b : Buckets α} {name : String} {a : α}
    (h : (b.get name).any (same a) = true) : b.insert same name a = b := by
  obtain ⟨groups⟩ := b
  unfold insert
  congr 1
  induction groups with
  | nil => simp at h
  | cons head rest ih =>
      obtain ⟨other, group⟩ := head
      rw [get_cons] at h
      by_cases ho : other = name
      · subst ho
        rw [if_pos rfl] at h
        simp [insertInto, addTo, h]
      · rw [if_neg (Ne.symm ho)] at h
        simp [insertInto, ho, ih h]

/-- Values go to two names in either order once one of the names is there. -/
theorem insert_insert_comm {b : Buckets α} {name other : String} {a c : α} (hne : name ≠ other)
    (hk : name ∈ b.keys) : (b.insert same name a).insert same other c =
      (b.insert same other c).insert same name a := by
  obtain ⟨groups⟩ := b
  unfold insert
  congr 1
  induction groups with
  | nil => simp [keys] at hk
  | cons head rest ih =>
      obtain ⟨key, group⟩ := head
      by_cases hn : key = name
      · subst hn
        simp [insertInto, hne]
      · have hr : name ∈ (⟨rest⟩ : Buckets α).keys := by
          simpa [keys, Ne.symm hn] using hk
        by_cases ho : key = other
        · subst ho
          simp [insertInto, hn]
        · simp [insertInto, hn, ho, ih hr]

theorem mem_keys_insert {b : Buckets α} {name key : String} {a : α} :
    key ∈ (b.insert same name a).keys ↔ key ∈ b.keys ∨ key = name := by
  rw [keys_insert]
  split
  · rename_i h
    constructor
    · exact Or.inl
    · rintro (hk | rfl)
      · exact hk
      · exact h
  · simp

theorem insertAll_insert_comm {b : Buckets α} {name : String} {a : α} {es : List (String × α)}
    (hk : name ∈ b.keys) (hes : ∀ e ∈ es, name ≠ e.1) :
    (b.insert same name a).insertAll same es = (b.insertAll same es).insert same name a := by
  induction es generalizing b with
  | nil => rfl
  | cons e rest ih =>
      obtain ⟨other, c⟩ := e
      rw [insertAll_cons, insertAll_cons, insert_insert_comm (hes _ List.mem_cons_self) hk]
      exact ih (mem_keys_insert.2 (Or.inl hk)) fun e he => hes e (List.mem_cons_of_mem _ he)

theorem insertInto_append {name : String} {a : α} {before rest : List (String × List α)}
    (h : name ∉ before.map (·.1)) :
    insertInto same name a (before ++ rest) = before ++ insertInto same name a rest := by
  induction before with
  | nil => rfl
  | cons head before ih =>
      obtain ⟨key, group⟩ := head
      simp only [List.map_cons, List.mem_cons, not_or] at h
      simp [insertInto, Ne.symm h.1, ih h.2]

/-- Names that are there before stay there. -/
theorem mem_keys_insertAll {b : Buckets α} {name : String} {es : List (String × α)} :
    name ∈ (b.insertAll same es).keys ↔ name ∈ b.keys ∨ ∃ a, (name, a) ∈ es := by
  induction es generalizing b with
  | nil => simp
  | cons e rest ih =>
      obtain ⟨key, c⟩ := e
      rw [insertAll_cons, ih, mem_keys_insert]
      simp only [List.mem_cons, Prod.mk.injEq]
      grind

theorem entries_append (gs hs : List (String × List α)) :
    entries ⟨gs ++ hs⟩ = entries ⟨gs⟩ ++ entries ⟨hs⟩ :=
  List.flatMap_append

theorem entries_cons (name : String) (group : List α) (gs : List (String × List α)) :
    entries ⟨(name, group) :: gs⟩ = group.map (name, ·) ++ entries ⟨gs⟩ :=
  List.flatMap_cons

/-- A new value comes right after the values under its name, before the names that follow. -/
theorem exists_entries_insert {b : Buckets α} (hn : b.keys.Nodup)
    (hf : ∀ name ∈ b.keys, b.get name ≠ []) {name : String} {a : α}
    (hany : (b.get name).any (same a) = false) :
    ∃ es fs, b.entries = es ++ fs ∧ (b.insert same name a).entries = es ++ (name, a) :: fs ∧
      (fs ≠ [] → ∃ c, (name, c) ∈ es) ∧ ∀ e ∈ fs, name ≠ e.1 := by
  obtain ⟨groups⟩ := b
  by_cases hk : name ∈ keys ⟨groups⟩
  · obtain ⟨group, hg⟩ := exists_mem_groups_of_mem_keys hk
    have hget : get ⟨groups⟩ name = group := get_eq_of_mem_groups hn hg
    rw [hget] at hany
    obtain ⟨c, rest, hgroup⟩ := List.exists_cons_of_ne_nil (hget ▸ hf name hk)
    obtain ⟨before, after, rfl⟩ := List.append_of_mem hg
    have hapart : name ∉ before.map (·.1) ∧ name ∉ after.map (·.1) := by
      simp only [keys, List.map_append, List.map_cons, List.nodup_append, List.nodup_cons] at hn
      exact ⟨fun h => hn.2.2 _ h _ List.mem_cons_self rfl, hn.2.1.1⟩
    have hadd : addTo same a group = group ++ [a] := by simp [addTo, hany]
    refine ⟨entries ⟨before⟩ ++ group.map (name, ·), entries ⟨after⟩, ?_, ?_, ?_, ?_⟩
    · simp [entries_append, entries_cons]
    · simp [insert, insertInto_append hapart.1, insertInto, hadd, entries_append, entries_cons]
    · exact fun _ => ⟨c, by simp [hgroup]⟩
    · rintro ⟨key, d⟩ he rfl
      obtain ⟨g, hafter, hd⟩ := List.mem_flatMap.1 he
      obtain ⟨_, _, heq⟩ := List.mem_map.1 hd
      cases heq
      exact hapart.2 (List.mem_map_of_mem hafter)
  · refine ⟨entries ⟨groups⟩, [], by simp, ?_, by simp, by simp⟩
    have happend : groups = groups ++ [] := by simp
    unfold insert
    rw [happend, insertInto_append hk, List.append_nil]
    simp [insertInto, entries]

/-- Merging takes over a value as if it were inserted afterwards. -/
theorem merge_insert (hrefl : ∀ a, same a a = true)
    (htrans : ∀ a c d, same a c = true → same c d = true → same a d = true)
    (b : Buckets α) {other : Buckets α} (hn : other.keys.Nodup)
    (hf : ∀ name ∈ other.keys, other.get name ≠ []) (name : String) (a : α) :
    b.merge same (other.insert same name a) = (b.merge same other).insert same name a := by
  by_cases hany : (other.get name).any (same a) = true
  · -- nothing is inserted on either side: what stops it in `other` has come over, or the same has
    obtain ⟨c, hc, hac⟩ := List.any_eq_true.1 hany
    obtain ⟨d, hd, hcd⟩ : ∃ d ∈ (b.insertAll same other.entries).get name, same c d = true :=
      exists_same_mem_get_insertAll hrefl ((mem_entries_iff hn).2 hc)
    rw [insert_eq_self hany, merge_eq_insertAll, insert_eq_self]
    exact List.any_eq_true.2 ⟨d, hd, htrans a c d hac hcd⟩
  · -- the new entry stands before `fs`, whose entries bear other names
    obtain ⟨es, fs, hold, hnew, hopen, hfs⟩ :=
      exists_entries_insert hn hf (Bool.not_eq_true _ ▸ hany)
    rw [merge_eq_insertAll, merge_eq_insertAll, hold, hnew, insertAll_append, insertAll_append,
      insertAll_cons]
    by_cases hnil : fs = []
    · simp [hnil]
    · exact insertAll_insert_comm (mem_keys_insertAll.2 (Or.inr (hopen hnil))) hfs

theorem mapWith_insert {f : String → α → α}
    (hsame : ∀ key a c, same (f key a) (f key c) = same a c) (b : Buckets α) (name : String)
    (a : α) :
    (b.insert same name a).mapWith f = (b.mapWith f).insert same name (f name a) := by
  obtain ⟨groups⟩ := b
  unfold insert mapWith
  congr 1
  induction groups with
  | nil => simp [insertInto]
  | cons head rest ih =>
      obtain ⟨key, group⟩ := head
      by_cases hk : key = name
      · subst hk
        have hadd : (addTo same a group).map (f key) = addTo same (f key a) (group.map (f key)) := by
          unfold addTo
          simp only [List.any_map, Function.comp_def, hsame]
          split <;> simp
        simp [insertInto, hadd]
      · simpa [insertInto, hk] using ih

theorem mapWith_insertAll {f : String → α → α}
    (hsame : ∀ key a c, same (f key a) (f key c) = same a c) (b : Buckets α)
    (es : List (String × α)) :
    (b.insertAll same es).mapWith f =
      (b.mapWith f).insertAll same (es.map fun e => (e.1, f e.1 e.2)) := by
  induction es generalizing b with
  | nil => rfl
  | cons e rest ih =>
      obtain ⟨name, a⟩ := e
      rw [insertAll_cons, ih, mapWith_insert hsame, List.map_cons, insertAll_cons]

theorem entries_mapWith (f : String → α → α) (b : Buckets α) :
    (b.mapWith f).entries = b.entries.map fun e => (e.1, f e.1 e.2) := by
  simp [mapWith, entries, List.flatMap_map, List.map_flatMap, Function.comp_def]

theorem exists_of_mem_values_mapWith {f : String → α → α} {b : Buckets α} {a : α}
    (h : a ∈ (b.mapWith f).values) : ∃ name, ∃ c ∈ b.values, a = f name c := by
  obtain ⟨name, h⟩ := mem_values_iff_mem_entries.1 h
  rw [entries_mapWith] at h
  obtain ⟨⟨key, c⟩, hc, he⟩ := List.mem_map.1 h
  cases he
  exact ⟨key, c, mem_values_iff_mem_entries.2 ⟨key, hc⟩, rfl⟩

theorem Tidy.mem_values_mapWith {nameOf : α → String} {b : Buckets α} (h : b.Tidy nameOf same)
    {f : String → α → α} {c : α} :
    c ∈ (b.mapWith f).values ↔ ∃ a ∈ b.values, f (nameOf a) a = c := by
  rw [mem_values_iff_mem_entries, entries_mapWith]
  constructor
  · rintro ⟨key, hc⟩
    obtain ⟨e, he, heq⟩ := List.mem_map.1 hc
    obtain ⟨rfl, rfl⟩ := Prod.mk.inj heq
    refine ⟨e.2, mem_values_iff_mem_entries.2 ⟨e.1, he⟩, ?_⟩
    rw [h.named_entries e he]
  · rintro ⟨a, ha, rfl⟩
    obtain ⟨key, he⟩ := mem_values_iff_mem_entries.1 ha
    have hkey : nameOf a = key := h.named_entries _ he
    exact ⟨key, List.mem_map.2 ⟨(key, a), he, by rw [hkey]⟩⟩

/-- A change of the values commutes with merging. -/
theorem mapWith_merge {f : String → α → α}
    (hsame : ∀ key a c, same (f key a) (f key c) = same a c) (b other : Buckets α) :
    (b.merge same other).mapWith f = (b.mapWith f).merge same (other.mapWith f) := by
  rw [merge_eq_insertAll, merge_eq_insertAll, mapWith_insertAll hsame, entries_mapWith]

theorem mapWith_eq_self {f : String → α → α} {b : Buckets α}
    (h : ∀ key, ∀ a ∈ b.values, f key a = a) : b.mapWith f = b := by
  obtain ⟨groups⟩ := b
  unfold mapWith
  congr 1
  conv_rhs => rw [← List.map_id groups]
  apply List.map_congr_left
  rintro ⟨key, group⟩ hg
  have hmap : group.map (f key) = group := by
    conv_rhs => rw [← List.map_id group]
    apply List.map_congr_left
    intro a ha
    exact h key a (List.mem_flatMap.2 ⟨_, hg, ha⟩)
  simp [hmap]

/-! ### Merging several collections -/

def mergeAll (same : α → α → Bool) (bs : List (Buckets α)) : Buckets α :=
  bs.foldl (merge same) {}

theorem mergeAll_eq_insertAll (bs : List (Buckets α)) :
    mergeAll same bs = insertAll same {} (bs.flatMap entries) := by
  have hfold : ∀ b : Buckets α, bs.foldl (merge same) b = b.insertAll same (bs.flatMap entries) := by
    induction bs with
    | nil => exact fun b => rfl
    | cons c rest ih =>
        intro b
        rw [List.foldl_cons, ih, merge_eq_insertAll, List.flatMap_cons, insertAll_append]
  exact hfold {}

section MergeAll

variable {nameOf : α → String} {bs : List (Buckets α)}
  (htidy : ∀ b ∈ bs, b.Tidy nameOf same)
include htidy

theorem mem_flatMap_entries {name : String} {a : α} :
    (name, a) ∈ bs.flatMap entries ↔ nameOf a = name ∧ ∃ b ∈ bs, a ∈ b.values := by
  rw [List.mem_flatMap]
  constructor
  · rintro ⟨b, hb, ha⟩
    exact ⟨(htidy b hb).named_entries _ ha, b, hb, mem_values_iff_mem_entries.2 ⟨name, ha⟩⟩
  · rintro ⟨rfl, b, hb, ha⟩
    exact ⟨b, hb, (mem_entries_iff (htidy b hb).keys_nodup).2 ((htidy b hb).mem_values.1 ha)⟩

theorem Tidy.mergeAll : (mergeAll same bs).Tidy nameOf same := by
  rw [mergeAll_eq_insertAll]
  exact Tidy.empty.insertAll fun e he => ((mem_flatMap_entries htidy).1 he).1

omit htidy in
theorem of_mem_values_mergeAll {a : α} (h : a ∈ (mergeAll same bs).values) :
    ∃ b ∈ bs, a ∈ b.values := by
  rw [mergeAll_eq_insertAll] at h
  rcases of_mem_values_insertAll h with h | ⟨name, h⟩
  · simp at h
  · obtain ⟨b, hb, ha⟩ := List.mem_flatMap.1 h
    exact ⟨b, hb, mem_values_iff_mem_entries.2 ⟨name, ha⟩⟩

/-- Of every value a merge keeps one that counts as the same. -/
theorem exists_same_mem_values_mergeAll (hrefl : ∀ a, same a a = true) {b : Buckets α}
    (hb : b ∈ bs) {a : α} (ha : a ∈ b.values) :
    ∃ c ∈ (mergeAll same bs).values, nameOf c = nameOf a ∧ same a c = true := by
  have hentry : (nameOf a, a) ∈ bs.flatMap entries :=
    (mem_flatMap_entries htidy).2 ⟨rfl, b, hb, ha⟩
  have hmerge := Tidy.mergeAll htidy
  rw [mergeAll_eq_insertAll] at hmerge ⊢
  obtain ⟨c, hc, hsame⟩ := exists_same_mem_get_insertAll hrefl (b := {}) hentry
  have hname : nameOf c = nameOf a := hmerge.named _ c hc
  exact ⟨c, hmerge.mem_values.2 (hname ▸ hc), hname, hsame⟩

/-- Merging loses nothing when values that count as the same are equal. -/
theorem mem_values_mergeAll (hrefl : ∀ a, same a a = true)
    (heq : ∀ b ∈ bs, ∀ b' ∈ bs, ∀ a ∈ b.values, ∀ c ∈ b'.values, nameOf a = nameOf c →
      same a c = true → a = c) {a : α} :
    a ∈ (mergeAll same bs).values ↔ ∃ b ∈ bs, a ∈ b.values := by
  constructor
  · exact of_mem_values_mergeAll
  · rintro ⟨b, hb, ha⟩
    obtain ⟨c, hc, hname, hsame⟩ := exists_same_mem_values_mergeAll htidy hrefl hb ha
    obtain ⟨b', hb', hcb⟩ := of_mem_values_mergeAll hc
    rwa [heq b hb b' hb' a ha c hcb hname.symm hsame]

end MergeAll

/-! ### Values that are told apart -/

theorem get_prefix_insertAll (b : Buckets α) (es : List (String × α)) (key : String) :
    b.get key <+: (b.insertAll same es).get key := by
  induction es generalizing b with
  | nil => exact List.prefix_rfl
  | cons e rest ih =>
      obtain ⟨name, a⟩ := e
      have hinsert : b.get key <+: (b.insert same name a).get key := by
        rw [get_insert]
        split
        · rename_i hkey
          unfold addTo
          rw [hkey]
          split
          · exact List.prefix_rfl
          · exact List.prefix_append _ _
        · exact List.prefix_rfl
      exact hinsert.trans (ih (b.insert same name a))

theorem any_addTo {a c : α} {group : List α} (hca : same c a = false) :
    (addTo same a group).any (same c) = group.any (same c) := by
  unfold addTo
  split
  · rfl
  · simp [hca]

/-- Values that are told apart from each other come in unless the same is there before. -/
theorem mem_get_insertAll_of_apart {b : Buckets α} {key : String} {c : α}
    {es : List (String × α)}
    (hes : es.Pairwise fun e f => e.1 = f.1 → same f.2 e.2 = false) :
    c ∈ (b.insertAll same es).get key ↔
      c ∈ b.get key ∨ (key, c) ∈ es ∧ (b.get key).any (same c) = false := by
  induction es generalizing b with
  | nil => simp
  | cons e rest ih =>
      obtain ⟨name, a⟩ := e
      obtain ⟨hfirst, hrest⟩ := List.pairwise_cons.1 hes
      rw [insertAll_cons, ih hrest, get_insert, List.mem_cons, Prod.mk.injEq]
      by_cases hkey : key = name
      · subst hkey
        rw [if_pos rfl, mem_addTo]
        have hany : (key, c) ∈ rest →
            (addTo same a (b.get key)).any (same c) = (b.get key).any (same c) :=
          fun hc => any_addTo (hfirst _ hc rfl)
        grind
      · rw [if_neg hkey]
        simp [hkey]

theorem Tidy.entries_apart {nameOf : α → String} {b : Buckets α} (h : b.Tidy nameOf same) :
    b.entries.Pairwise fun e f => e.1 = f.1 → same f.2 e.2 = false := by
  refine List.pairwise_flatMap.2 ⟨?_, ?_⟩
  · rintro ⟨name, group⟩ hg
    have hapart := h.apart name
    rw [get_eq_of_mem_groups h.keys_nodup hg] at hapart
    rw [List.pairwise_map]
    apply hapart.imp
    intro a c hac _
    exact hac
  · have hkeys : b.groups.Pairwise fun g g' => g.1 ≠ g'.1 := List.pairwise_map.1 h.keys_nodup
    apply hkeys.imp
    intro g g' hne e he f hf heq
    obtain ⟨a, _, rfl⟩ := List.mem_map.1 he
    obtain ⟨c, _, rfl⟩ := List.mem_map.1 hf
    exact absurd heq hne

/-- A merge takes over what the receiving side does not have. -/
theorem Tidy.mem_get_merge {nameOf : α → String} {b other : Buckets α}
    (h : other.Tidy nameOf same) {key : String} {c : α} : c ∈ (b.merge same other).get key ↔
      c ∈ b.get key ∨ c ∈ other.get key ∧ (b.get key).any (same c) = false := by
  rw [merge_eq_insertAll, mem_get_insertAll_of_apart h.entries_apart,
    mem_entries_iff h.keys_nodup]

theorem Tidy.get_merge_eq_nil_iff {nameOf : α → String} {b other : Buckets α}
    (h : other.Tidy nameOf same) {key : String} :
    (b.merge same other).get key = [] ↔ b.get key = [] ∧ other.get key = [] := by
  simp only [List.eq_nil_iff_forall_not_mem, h.mem_get_merge]
  constructor
  · intro hnone
    have hb : ∀ a, a ∉ b.get key := fun a ha => hnone a (.inl ha)
    refine ⟨hb, fun c hc => hnone c (.inr ⟨hc, ?_⟩)⟩
    rw [List.eq_nil_iff_forall_not_mem.2 hb]
    rfl
  · rintro ⟨hb, hother⟩ c (hc | ⟨hc, _⟩)
    · exact hb c hc
    · exact hother c hc

/-! ### Values of another type -/

variable {β : Type}

theorem get_map (f : α → β) (b : Buckets α) (name : String) :
    (b.map f).get name = (b.get name).map f := by
  obtain ⟨groups⟩ := b
  unfold map
  induction groups with
  | nil => simp
  | cons head rest ih =>
      obtain ⟨key, group⟩ := head
      by_cases h : name = key
      · simp [get_cons, h]
      · simpa [get_cons, h] using ih

@[simp] theorem keys_map (f : α → β) (b : Buckets α) : (b.map f).keys = b.keys := by
  simp [map, keys, Function.comp_def]

theorem values_map (f : α → β) (b : Buckets α) : (b.map f).values = b.values.map f := by
  simp [map, values, List.flatMap_map, List.map_flatMap]

theorem Tidy.map {nameOf : β → String} {same' : β → β → Bool} {f : α → β} {b : Buckets α}
    (h : b.Tidy (fun a => nameOf (f a)) (fun a c => same' (f a) (f c))) :
    (b.map f).Tidy nameOf same' where
  keys_nodup := by simpa using h.keys_nodup
  filled := by
    intro name hname
    have hne := h.filled name (by simpa using hname)
    rw [get_map]
    simpa using hne
  named := by
    intro name c hc
    rw [get_map] at hc
    obtain ⟨a, ha, rfl⟩ := List.mem_map.1 hc
    exact h.named name a ha
  apart := by
    intro name
    rw [get_map, List.pairwise_map]
    exact h.apart name

/-- Only the names and the sameness of the values that are there matter. -/
theorem Tidy.congr {nameOf nameOf' : α → String} {same' : α → α → Bool} {b : Buckets α}
    (h : b.Tidy nameOf same) (hname : ∀ a ∈ b.values, nameOf' a = nameOf a)
    (hsame : ∀ a ∈ b.values, ∀ c ∈ b.values, same' a c = same a c) : b.Tidy nameOf' same' where
  keys_nodup := h.keys_nodup
  filled := h.filled
  named := by
    intro name a ha
    rw [hname a (mem_values_of_mem_get ha), h.named name a ha]
  apart := by
    intro name
    apply (h.apart name).imp_of_mem
    intro a c ha hc hac
    rwa [hsame c (mem_values_of_mem_get hc) a (mem_values_of_mem_get ha)]

end Fallow.Buckets
