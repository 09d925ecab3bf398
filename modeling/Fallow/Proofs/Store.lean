import Fallow.Index.Store
import Fallow.Proofs.Record

/-!
# Stores that share definitions

An operation on a store does one of three things: it creates an object, it retouches an object, or
it inserts entries into one index. None of them takes anything away. So every index of a store stays
tidy however the operations follow each other and however the indexes share their objects, and what
an index holds it holds for good.

`Store.Sound` is what every reachable store satisfies, `Store.Later` is how it can differ from an
earlier one.
-/

namespace Fallow

/-- Definitions are retouched: at most the visibility changes, and the mark may be set. -/
structure Definition.Touch (f : Definition → Definition) : Prop where
  alike : ∀ d, (f d).Alike d
  ignored : ∀ d, d.ignored = true → (f d).ignored = true

theorem Definition.touch_ignore : Touch ignore :=
  ⟨alike_ignore, fun _ _ => rfl⟩

theorem Definition.touch_mark (visibility : Visibility) : Touch (mark visibility) :=
  ⟨alike_mark visibility, fun _ h => h⟩

namespace Store

variable {s s' s'' : Store}

/-! ### Objects and shelves -/

theorem lookup_filter_ne {β : Type} (l : List (String × β)) {key name : String} (h : key ≠ name) :
    (l.filter (·.1 != name)).lookup key = l.lookup key := by
  induction l with
  | nil => rfl
  | cons head rest ih =>
      obtain ⟨other, b⟩ := head
      by_cases ho : other = name
      · have hkey : (key == other) = false := by simpa [ho] using h
        rw [List.filter_cons_of_neg (by simp [ho]), ih, List.lookup_cons, hkey]
      · rw [List.filter_cons_of_pos (by simpa using ho), List.lookup_cons, List.lookup_cons, ih]

theorem shelf_setShelf (s : Store) (index other : String) (shelf : Shelf) :
    (s.setShelf index shelf).shelf other = if other = index then shelf else s.shelf other := by
  unfold setShelf Store.shelf
  by_cases h : other = index
  · simp [h]
  · have hkey : (other == index) = false := by simpa using h
    rw [List.lookup_cons, hkey, if_neg h]
    simp only [lookup_filter_ne _ h]

theorem object_changeObject (s : Store) (number : Nat) (f : Definition → Definition) {k : Nat}
    (hk : k < s.objects.length) : (s.changeObject number f).object k =
      if k = number then f (s.object k) else s.object k := by
  simp only [object, changeObject, List.getD_eq_getElem?_getD, List.getElem?_modify]
  by_cases h : k = number
  · simp [h, h ▸ hk]
  · simp [h, Ne.symm h, hk]

theorem sameObject_eq {a b a' b' : Nat} {t : Store} (ha : (s.object a).Alike (t.object a'))
    (hb : (s.object b).Alike (t.object b')) : s.sameObject a b = t.sameObject a' b' :=
  ha.same_eq hb

/-! ### What holds in every store -/

/-- Handles and indexes refer to objects that exist, and every index is tidy. -/
structure Sound (s : Store) : Prop where
  handles : ∀ handle, ∀ k ∈ s.number? handle, k < s.objects.length
  known : ∀ i, ∀ k ∈ (s.shelf i).definitions.values, k < s.objects.length
  definitions : ∀ i, (s.shelf i).definitions.Tidy (fun k => (s.object k).name) s.sameObject
  references : ∀ i, (s.shelf i).references.Tidy Reference.name (· == ·)

/-- A store after some more operations: objects are retouched at most, and the groups of every index
are continued. -/
structure Later (s s' : Store) : Prop where
  length_le : s.objects.length ≤ s'.objects.length
  alike : ∀ k < s.objects.length, (s'.object k).Alike (s.object k)
  ignored : ∀ k < s.objects.length, (s.object k).ignored = true → (s'.object k).ignored = true
  stored : ∀ i name, (s.shelf i).definitions.get name <+: (s'.shelf i).definitions.get name
  referred : ∀ i name, (s.shelf i).references.get name <+: (s'.shelf i).references.get name

theorem Later.refl (s : Store) : s.Later s :=
  ⟨Nat.le_refl _, fun _ _ => .refl _, fun _ _ => id, fun _ _ => List.prefix_rfl,
    fun _ _ => List.prefix_rfl⟩

theorem Later.trans (h : s.Later s') (h' : s'.Later s'') : s.Later s'' where
  length_le := Nat.le_trans h.length_le h'.length_le
  alike := fun k hk => (h'.alike k (Nat.lt_of_lt_of_le hk h.length_le)).trans (h.alike k hk)
  ignored := fun k hk hd => h'.ignored k (Nat.lt_of_lt_of_le hk h.length_le) (h.ignored k hk hd)
  stored := fun i name => (h.stored i name).trans (h'.stored i name)
  referred := fun i name => (h.referred i name).trans (h'.referred i name)

theorem Sound.empty : Sound {} where
  handles := by simp [number?]
  known := by simp [shelf, Buckets.values]
  definitions := fun _ => .empty
  references := fun _ => .empty

/-! ### One operation -/

/-- The three things that an operation can do. -/
inductive Effect (s : Store) : Store → Prop
  | create (handle : String) (d : Definition) :
    Effect s { s with
      objects := s.objects ++ [d]
      handles := (handle, s.objects.length) :: s.handles }
  | retouch (number : Nat) {f : Definition → Definition} (hf : Definition.Touch f) :
    Effect s (s.changeObject number f)
  | insert (i : String) {es : List (String × Nat)} {rs : List (String × Reference)}
    (hes : ∀ e ∈ es, (s.object e.2).name = e.1 ∧ e.2 < s.objects.length)
    (hrs : ∀ e ∈ rs, e.2.name = e.1) :
    Effect s (s.setShelf i ⟨(s.shelf i).definitions.insertAll s.sameObject es,
      (s.shelf i).references.insertAll (· == ·) rs⟩)

theorem Sound.effect (h : s.Sound) {op : Operation} (hop : s.perform? op = some s') :
    s.Effect s' := by
  cases op with
  | create handle d =>
      cases hop
      exact .create handle d
  | addDefinition i handle =>
      cases hnumber : s.number? handle with
      | none => simp [perform?, hnumber] at hop
      | some k =>
          simp only [perform?, hnumber, bind, Option.bind, pure, Option.some.injEq] at hop
          subst hop
          have hes : ∀ e ∈ [((s.object k).name, k)], (s.object e.2).name = e.1 ∧
              e.2 < s.objects.length := by
            intro e he
            rw [List.mem_singleton.1 he]
            exact ⟨rfl, h.handles handle k hnumber⟩
          exact @Effect.insert s i _ [] hes (by simp)
  | addReference i r =>
      cases hop
      have hrs : ∀ e ∈ [(r.name, r)], e.2.name = e.1 := by simp
      exact @Effect.insert s i [] _ (by simp) hrs
  | merge i j =>
      simp only [perform?, Option.some.injEq, Buckets.merge_eq_insertAll] at hop
      subst hop
      refine .insert i (fun e he => ⟨?_, ?_⟩) (h.references j).named_entries
      · exact (h.definitions j).named_entries e he
      · exact h.known j e.2 (Buckets.mem_values_iff_mem_entries.2 ⟨e.1, he⟩)
  | ignore handle =>
      cases hnumber : s.number? handle with
      | none => simp [perform?, hnumber] at hop
      | some k =>
          simp only [perform?, hnumber, bind, Option.bind, pure, Option.some.injEq] at hop
          subst hop
          exact .retouch k Definition.touch_ignore
  | mark handle visibility =>
      cases hnumber : s.number? handle with
      | none => simp [perform?, hnumber] at hop
      | some k =>
          simp only [perform?, hnumber, bind, Option.bind, pure, Option.some.injEq] at hop
          subst hop
          exact .retouch k (Definition.touch_mark visibility)

theorem Effect.later (h : s.Effect s') : s.Later s' := by
  cases h with
  | create handle d =>
      have hobject : ∀ k < s.objects.length, (s.objects ++ [d]).getD k default = s.object k := by
        intro k hk
        rw [object, List.getD_eq_getElem?_getD, List.getElem?_append_left hk,
          List.getD_eq_getElem?_getD]
      refine ⟨by simp, fun k hk => ?_, fun k hk hd => ?_, fun _ _ => List.prefix_rfl,
        fun _ _ => List.prefix_rfl⟩
      · rw [object, hobject k hk]
        exact .refl _
      · rw [object, hobject k hk]
        exact hd
  | retouch number hf =>
      refine ⟨by simp [changeObject], fun k hk => ?_, fun k hk hd => ?_,
        fun _ _ => List.prefix_rfl, fun _ _ => List.prefix_rfl⟩
      · rw [object_changeObject s number _ hk]
        split
        · exact hf.alike _
        · exact .refl _
      · rw [object_changeObject s number _ hk]
        split
        · exact hf.ignored _ hd
        · exact hd
  | insert i hes hrs =>
      refine ⟨Nat.le_refl _, fun _ _ => .refl _, fun _ _ => id, fun j name => ?_, fun j name => ?_⟩
      · rw [shelf_setShelf]
        split
        · rename_i hj
          rw [hj]
          exact Buckets.get_prefix_insertAll _ _ _
        · exact List.prefix_rfl
      · rw [shelf_setShelf]
        split
        · rename_i hj
          rw [hj]
          exact Buckets.get_prefix_insertAll _ _ _
        · exact List.prefix_rfl

/-- A store whose indexes are left alone stays sound when its objects stay alike. -/
theorem Sound.of_shelves_eq (h : s.Sound) (hlater : s.Later s') (hshelves : s'.shelves = s.shelves)
    (hhandles : ∀ handle, ∀ k ∈ s'.number? handle, k < s'.objects.length) : s'.Sound := by
  have hshelf : ∀ i, s'.shelf i = s.shelf i := fun i => by rw [shelf, shelf, hshelves]
  refine ⟨hhandles, fun i k hk => ?_, fun i => ?_, fun i => ?_⟩
  · rw [hshelf] at hk
    exact Nat.lt_of_lt_of_le (h.known i k hk) hlater.length_le
  · rw [hshelf]
    apply (h.definitions i).congr
    · intro k hk
      exact (hlater.alike k (h.known i k hk)).1
    · intro k hk l hl
      exact sameObject_eq (hlater.alike k (h.known i k hk)) (hlater.alike l (h.known i l hl))
  · rw [hshelf]
    exact h.references i

theorem Effect.sound (h : s.Effect s') (hs : s.Sound) : s'.Sound := by
  have hlater := h.later
  cases h with
  | create handle d =>
      apply hs.of_shelves_eq hlater rfl
      intro other k hk
      rw [number?, List.lookup_cons] at hk
      rw [List.length_append, List.length_singleton]
      split at hk
      · cases hk
        omega
      · have := hs.handles other k hk
        omega
  | retouch number hf =>
      apply hs.of_shelves_eq hlater rfl
      intro handle k hk
      have hlength := hs.handles handle k hk
      simpa [changeObject] using hlength
  | @insert i es rs hes hrs =>
      refine ⟨hs.handles, fun j k hk => ?_, fun j => ?_, fun j => ?_⟩
      · rw [shelf_setShelf] at hk
        split at hk
        · rcases Buckets.of_mem_values_insertAll hk with hk | ⟨name, hk⟩
          · exact hs.known i k hk
          · exact (hes _ hk).2
        · exact hs.known j k hk
      · rw [shelf_setShelf]
        split
        · exact (hs.definitions i).insertAll fun e he => (hes e he).1
        · exact hs.definitions j
      · rw [shelf_setShelf]
        split
        · exact (hs.references i).insertAll hrs
        · exact hs.references j

/-! ### All operations -/

theorem run?_cons (s : Store) (op : Operation) (rest : List Operation) :
    s.run? (op :: rest) = (s.perform? op).bind (·.run? rest) := by
  rw [run?, List.foldlM_cons]
  rfl

theorem Sound.run? (h : s.Sound) {ops : List Operation} (hops : s.run? ops = some s') :
    s'.Sound ∧ s.Later s' := by
  induction ops generalizing s with
  | nil =>
      cases hops
      exact ⟨h, .refl _⟩
  | cons op rest ih =>
      rw [run?_cons, Option.bind_eq_some_iff] at hops
      obtain ⟨t, ht, hrest⟩ := hops
      have heffect := h.effect ht
      obtain ⟨hsound, hlater⟩ := ih (heffect.sound h) hrest
      exact ⟨hsound, heffect.later.trans hlater⟩

/-- An index of a sound store holds every object once, under its own name. -/
theorem Sound.tidy_index (h : s.Sound) (i : String) : (s.index i).Tidy :=
  ⟨(h.definitions i).map, h.references i⟩

end Store

/-- No two references of a tidy index stand at the same place of its listing. -/
theorem Index.Tidy.pairwise_referenceListing {x : Index} (h : x.Tidy) :
    x.referenceListing.Pairwise fun a b => a.compare b = .lt := by
  have hnodup : x.referenceListing.Nodup :=
    (perm_sortedBy _ _).nodup_iff.2 (h.references.nodup_values (by simp))
  apply ((pairwise_sortedBy x.references.values).and hnodup).imp
  rintro a b ⟨hle, hne⟩
  cases hcompare : a.compare b with
  | lt => rfl
  | eq => exact absurd (Reference.eq_of_compare hcompare) hne
  | gt => simp [hcompare] at hle

namespace Store

/-- However operations follow each other, every index is tidy and lists what it holds in order; and
nothing that is stored is ever removed, replaced or made another definition. -/
theorem run?_keeps (ops more : List Operation) (s s' : Store)
    (hs : ({} : Store).run? ops = some s) (hs' : s.run? more = some s') :
    (∀ i, (s.index i).Tidy ∧ (s.index i).size = (s.index i).listing.length ∧
      (s.index i).listing.Pairwise (fun a b => (a.compare b).isLE) ∧
      (s.index i).referenceListing.Pairwise (fun a b => a.compare b = .lt)) ∧
    s.Later s' ∧
    ∀ i name, ∀ k ∈ (s.shelf i).definitions.get name, ∀ l ∈ (s'.shelf i).definitions.get name,
      s'.sameObject k l = true → l = k := by
  obtain ⟨hsound, _⟩ := Sound.empty.run? hs
  obtain ⟨hsound', hlater⟩ := hsound.run? hs'
  refine ⟨fun i => ?_, hlater, fun i name k hk l hl hsame => ?_⟩
  · have htidy := hsound.tidy_index i
    exact ⟨htidy, (perm_sortedBy _ _).length_eq.symm, pairwise_sortedBy _,
      htidy.pairwise_referenceListing⟩
  · have hkeep : k ∈ (s'.shelf i).definitions.get name := (hlater.stored i name).subset hk
    have hname := (hsound'.definitions i).named name
    apply (hsound'.definitions i).eq_of_same (fun a c => Definition.same_comm _ _)
      (Buckets.mem_values_of_mem_get hl) (Buckets.mem_values_of_mem_get hkeep)
    · rw [hname l hl, hname k hkeep]
    · rw [sameObject, Definition.same_comm]
      exact hsame

/-- A method that is read twice, as two objects. -/
def twin (visibility : Visibility) : Definition :=
  ⟨.methodDef, "run", "A#run", ⟨"a.rb", 1, 0, 2, 3⟩, visibility, false⟩

def twinOperations : List Operation :=
  [.create "first" (twin .pub), .create "second" (twin .priv), .addDefinition "x" "first",
    .addDefinition "y" "second", .merge "x" "y", .merge "x" "x"]

def twinFollowUp : List Operation :=
  [.ignore "second", .mark "first" .prot,
    .addReference "x" ⟨"run", ⟨"b.rb", 1, 0, 1, 3⟩, .syntactic⟩, .merge "y" "x"]

theorem run?_keeps_twins : ∃ s s', ({} : Store).run? twinOperations = some s ∧
    s.run? twinFollowUp = some s' ∧ (s.index "x").Tidy ∧ s.Later s' ∧
    (s'.shelf "x").definitions.get "run" = [0] ∧ (s'.shelf "y").definitions.get "run" = [1] ∧
    s'.sameObject 0 1 = true := by
  obtain ⟨hindex, hlater, _⟩ := run?_keeps twinOperations twinFollowUp _ _ rfl rfl
  exact ⟨_, _, rfl, rfl, (hindex "x").1, hlater, rfl, rfl, rfl⟩

end Store
end Fallow
