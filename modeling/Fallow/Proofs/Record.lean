import Fallow.Proofs.Buckets
import Fallow.Proofs.Deeds
import Fallow.Proofs.Order

/-!
# What deeds leave in an index

A deed inserts references, and it inserts one definition or retouches definitions of its own file:
it changes their visibility or ignores them, never their kind, names or location. So an index that
is filled by deeds stays tidy, and up to visibility and mark its definitions are those of the
deeds that define something.
-/

namespace Fallow

namespace Definition

/-- The same definition under the same bare name; visibility and mark may differ. -/
def Alike (a b : Definition) : Prop :=
  a.name = b.name ∧ a.same b = true

theorem Alike.refl (d : Definition) : d.Alike d :=
  ⟨rfl, same_refl d⟩

theorem Alike.symm {a b : Definition} (h : a.Alike b) : b.Alike a :=
  ⟨h.1.symm, by rw [same_comm]; exact h.2⟩

theorem Alike.trans {a b c : Definition} (hab : a.Alike b) (hbc : b.Alike c) : a.Alike c :=
  ⟨hab.1.trans hbc.1, same_trans hab.2 hbc.2⟩

theorem Alike.location_eq {a b : Definition} (h : a.Alike b) : a.location = b.location :=
  (same_iff.1 h.2).2.2

theorem Alike.kind_eq {a b : Definition} (h : a.Alike b) : a.kind = b.kind :=
  (same_iff.1 h.2).1

theorem Alike.fullName_eq {a b : Definition} (h : a.Alike b) : a.fullName = b.fullName :=
  (same_iff.1 h.2).2.1

theorem alike_ignore (d : Definition) : d.ignore.Alike d :=
  ⟨rfl, same_refl d⟩

theorem alike_mark (visibility : Visibility) (d : Definition) : (d.mark visibility).Alike d :=
  ⟨rfl, same_refl d⟩

theorem Alike.same_eq {a b c d : Definition} (hab : a.Alike b) (hcd : c.Alike d) :
    a.same c = b.same d := by
  rw [Bool.eq_iff_iff]
  constructor
  · intro h
    exact same_trans (same_trans hab.symm.2 h) hcd.2
  · intro h
    exact same_trans (same_trans hab.2 h) hcd.symm.2

end Definition

theorem Plugin.ignores_ignore (p : Plugin) (d : Definition) : p.ignores d.ignore = p.ignores d :=
  rfl

/-- A definition is ignored as soon as one of the plugins ignores it. -/
theorem Walk.judged_eq (plugins : List Plugin) (d : Definition) :
    Walk.judged plugins d = if plugins.any (·.ignores d) then d.ignore else d := by
  unfold Walk.judged
  induction plugins generalizing d with
  | nil => rfl
  | cons p rest ih =>
      rw [List.foldl_cons, ih, List.any_cons]
      by_cases hp : p.ignores d = true
      · simp only [hp, if_true, Plugin.ignores_ignore, Bool.true_or]
        split <;> rfl
      · simp [hp]

theorem Walk.alike_judged (plugins : List Plugin) (d : Definition) :
    (Walk.judged plugins d).Alike d := by
  rw [Walk.judged_eq]
  split
  · exact Definition.alike_ignore d
  · exact .refl d

/-- The plugins leave modules, accessors and constants alone. -/
def Definition.Kind.isIgnorable : Definition.Kind → Bool
  | .classDef | .methodDef | .singletonDef => true
  | .moduleDef | .accessorDef | .constantDef => false

theorem Plugin.isIgnorable_of_ignores {p : Plugin} {d : Definition} (h : p.ignores d = true) :
    d.kind.isIgnorable = true := by
  unfold Plugin.ignores at h
  cases hk : d.kind <;> simp [hk, Definition.Kind.isIgnorable] at h ⊢

theorem Plugin.isIgnorable_of_isAction {p : Plugin} {closed d : Definition}
    (h : p.isAction closed d = true) : d.kind.isIgnorable = true := by
  cases p with
  | actionPack =>
      simp only [Plugin.isAction, Bool.and_eq_true, decide_eq_true_eq] at h
      rw [h.1.1.2]
      rfl
  | _ => simp [Plugin.isAction] at h

theorem Walk.ignored_judged (plugins : List Plugin) (d : Definition)
    (h : (Walk.judged plugins d).ignored = true) :
    d.ignored = true ∨ d.kind.isIgnorable = true := by
  rw [Walk.judged_eq] at h
  split at h
  · rename_i hany
    obtain ⟨p, _, hp⟩ := List.any_eq_true.1 hany
    exact .inr (Plugin.isIgnorable_of_ignores hp)
  · exact .inl h

/-- A change of definitions that touches visibility and mark only, and only in one file. -/
structure Retouch (path : String) (f : String → Definition → Definition) : Prop where
  alike : ∀ key d, (f key d).Alike d
  foreign : ∀ key d, d.location.file ≠ path → f key d = d
  ignored : ∀ key d, (f key d).ignored = true → d.ignored = true ∨ d.kind.isIgnorable = true

theorem Retouch.same_eq {path : String} {f : String → Definition → Definition}
    (hf : Retouch path f) (key : String) (a b : Definition) :
    (f key a).same (f key b) = a.same b :=
  (hf.alike key a).same_eq (hf.alike key b)

namespace Deed

/-- The references that a deed adds. -/
def references (plugins : List Plugin) : Deed → List Reference
  | refer name location => [⟨name, location, .syntactic⟩]
  | send s => sendReferences plugins s
  | _ => []

theorem foldl_addReference (rs : List Reference) (x : Index) :
    rs.foldl Index.addReference x = { x with
      references := x.references.insertAll (· == ·) (rs.map fun r => (r.name, r)) } := by
  induction rs generalizing x with
  | nil => rfl
  | cons r rest ih =>
      rw [List.foldl_cons, ih]
      rfl

theorem change_references (setting : Walk.Setting) (x : Index) (d : Deed) :
    (d.change setting x).references = x.references.insertAll (· == ·)
      ((d.references setting.plugins).map fun r => (r.name, r)) := by
  cases d with
  | send s =>
      rw [change, foldl_addReference]
      rfl
  | _ => rfl

/-- A name is used, and nothing is recorded or marked. -/
def IsUse : Deed → Prop
  | refer _ _ | send _ => True
  | define _ | remark _ _ _ | close _ => False

theorem IsUse.change_definitions {setting : Walk.Setting} {d : Deed} (h : d.IsUse) (x : Index) :
    (d.change setting x).definitions = x.definitions := by
  cases d with
  | refer name location => rfl
  | send s => rw [change, foldl_addReference]
  | define d | remark visibility name fullName | close d => exact h.elim

/-- A deed inserts a definition, or it retouches what is there. -/
theorem change_definitions (setting : Walk.Setting) (d : Deed) :
    (∃ e, d = .define e ∧ ∀ x, (d.change setting x).definitions =
      x.definitions.insert Definition.same e.name (Walk.judged setting.plugins e)) ∨
    (∀ e, d ≠ .define e) ∧ ∃ f, Retouch setting.path f ∧
      ∀ x, (d.change setting x).definitions = x.definitions.mapWith f := by
  have huntouched : Retouch setting.path fun _ => id :=
    ⟨fun _ d => .refl d, fun _ _ _ => rfl, fun _ _ => .inl⟩
  have hid : ∀ b : Buckets Definition, b.mapWith (fun _ => id) = b := fun b =>
    Buckets.mapWith_eq_self fun _ _ _ => rfl
  cases d with
  | refer name location => exact .inr ⟨by simp, _, huntouched, fun x => (hid _).symm⟩
  | send s =>
      refine .inr ⟨by simp, _, huntouched, fun x => ?_⟩
      rw [change, foldl_addReference, hid]
  | define e =>
      refine .inl ⟨e, rfl, fun x => ?_⟩
      rw [change, Index.addDefinition, (Walk.alike_judged _ e).1]
  | remark visibility name fullName =>
      refine .inr ⟨by simp, _, ⟨fun key d => ?_, fun key d hd => ?_, fun key d h => ?_⟩,
        fun x => Buckets.mapAt_eq_mapWith name _ _⟩
      · by_cases hk : key = name
        · simp only [hk, if_true]
          split
          · exact Definition.alike_mark visibility d
          · exact .refl d
        · simp only [hk, if_false]
          exact .refl d
      · by_cases hk : key = name <;> simp [hk, hd]
      · left
        by_cases hk : key = name
        · simp only [hk, if_true] at h
          split at h <;> exact h
        · simpa [hk] using h
  | close e =>
      refine .inr ⟨by simp, _, ⟨fun key d => ?_, fun key d hd => ?_, fun key d h => ?_⟩,
        fun x => Buckets.map_eq_mapWith _ _⟩
      · split
        · exact Definition.alike_ignore d
        · exact .refl d
      · simp [hd]
      · split at h
        · rename_i hclose
          rw [Bool.and_eq_true, List.any_eq_true] at hclose
          obtain ⟨_, p, _, hp⟩ := hclose
          exact .inr (Plugin.isIgnorable_of_isAction hp)
        · exact .inl h

end Deed

theorem Index.mem_listing {x : Index} {d : Definition} :
    d ∈ x.listing ↔ d ∈ x.definitions.values :=
  mem_sortedBy

theorem Index.mem_referenceListing {x : Index} {r : Reference} :
    r ∈ x.referenceListing ↔ r ∈ x.references.values :=
  mem_sortedBy

theorem Index.holds_congr (x : Index) {d e : Definition} (h : d.Alike e) : x.holds d = x.holds e := by
  have hsame : d.same = e.same := funext fun c => h.same_eq (.refl c)
  rw [holds, holds, h.1, hsame]

/-- Both halves of an index are tidy. -/
structure Index.Tidy (x : Index) : Prop where
  definitions : x.definitions.Tidy Definition.name Definition.same
  references : x.references.Tidy Reference.name (· == ·)

namespace Index.Tidy

theorem empty : Index.Tidy {} :=
  ⟨.empty, .empty⟩

theorem change {x : Index} (h : x.Tidy) (setting : Walk.Setting) (d : Deed) :
    (d.change setting x).Tidy where
  definitions := by
    rcases Deed.change_definitions setting d with ⟨e, _, he⟩ | ⟨_, f, hf, he⟩
    · rw [he x, ← (Walk.alike_judged setting.plugins e).1]
      exact h.definitions.insert _
    · rw [he x]
      exact h.definitions.mapWith (fun key a => (hf.alike key a).1) hf.same_eq
  references := by
    rw [Deed.change_references]
    apply h.references.insertAll
    intro e he
    obtain ⟨r, _, rfl⟩ := List.mem_map.1 he
    rfl

theorem changeAll {x : Index} (h : x.Tidy) (setting : Walk.Setting) (ds : List Deed) :
    (Deed.changeAll setting x ds).Tidy := by
  induction ds generalizing x with
  | nil => exact h
  | cons d rest ih => exact ih (h.change setting d)

end Index.Tidy

namespace Deed

variable {setting : Walk.Setting} {x : Index} {ds : List Deed} {name : String} {d : Definition}

theorem of_mem_get_change {e : Deed} (h : d ∈ (e.change setting x).definitions.get name) :
    (∃ c ∈ x.definitions.get name, d.Alike c) ∨ ∃ c, e = .define c ∧ d.Alike c := by
  rcases change_definitions setting e with ⟨c, rfl, hc⟩ | ⟨_, f, hf, hc⟩
  · rw [hc x, Buckets.get_insert] at h
    split at h
    · rename_i hname
      subst hname
      rcases Buckets.mem_addTo.1 h with h | ⟨rfl, _⟩
      · exact .inl ⟨d, h, .refl d⟩
      · exact .inr ⟨c, rfl, Walk.alike_judged _ c⟩
    · exact .inl ⟨d, h, .refl d⟩
  · rw [hc x, Buckets.get_mapWith] at h
    obtain ⟨c, hmem, rfl⟩ := List.mem_map.1 h
    exact .inl ⟨c, hmem, hf.alike name c⟩

theorem exists_mem_get_change {e : Deed} (h : d ∈ x.definitions.get name) :
    ∃ c ∈ (e.change setting x).definitions.get name, c.Alike d := by
  rcases change_definitions setting e with ⟨_, _, hc⟩ | ⟨_, f, hf, hc⟩
  · rw [hc x]
    exact ⟨d, Buckets.mem_get_insert_of_mem h, .refl d⟩
  · rw [hc x, Buckets.get_mapWith]
    exact ⟨f name d, List.mem_map_of_mem h, hf.alike name d⟩

theorem exists_mem_get_define (x : Index) (d : Definition) (hx : x.Tidy) :
    ∃ c ∈ ((Deed.define d).change setting x).definitions.get d.name, c.Alike d := by
  rcases change_definitions setting (.define d) with ⟨e, he, hc⟩ | ⟨hne, _⟩
  · cases he
    rw [hc x, Buckets.get_insert, if_pos rfl]
    by_cases hany : (x.definitions.get d.name).any
        (Walk.judged setting.plugins d).same = true
    · obtain ⟨c, hmem, hsame⟩ := List.any_eq_true.1 hany
      have hname : c.name = d.name := hx.definitions.named _ c hmem
      refine ⟨c, Buckets.mem_addTo.2 (.inl hmem), hname, ?_⟩
      rw [Definition.same_comm]
      exact Definition.same_trans (Walk.alike_judged setting.plugins d).symm.2 hsame
    · exact ⟨_, Buckets.mem_addTo.2 (.inr ⟨rfl, by simpa using hany⟩), Walk.alike_judged _ d⟩
  · exact absurd rfl (hne d)

/-- Definitions of an index come from before or from a deed. -/
theorem of_mem_get_changeAll (h : d ∈ (changeAll setting x ds).definitions.get name) :
    (∃ c ∈ x.definitions.get name, d.Alike c) ∨ ∃ c, .define c ∈ ds ∧ d.Alike c := by
  induction ds generalizing x with
  | nil => exact .inl ⟨d, h, .refl d⟩
  | cons e rest ih =>
      rcases ih h with ⟨c, hc, hdc⟩ | ⟨c, hc, hdc⟩
      · rcases of_mem_get_change hc with ⟨b, hb, hcb⟩ | ⟨b, rfl, hcb⟩
        · exact .inl ⟨b, hb, hdc.trans hcb⟩
        · exact .inr ⟨b, List.mem_cons_self, hdc.trans hcb⟩
      · exact .inr ⟨c, List.mem_cons_of_mem _ hc, hdc⟩

theorem exists_mem_get_changeAll (h : d ∈ x.definitions.get name) :
    ∃ c ∈ (changeAll setting x ds).definitions.get name, c.Alike d := by
  induction ds generalizing x d with
  | nil => exact ⟨d, h, .refl d⟩
  | cons e rest ih =>
      obtain ⟨c, hc, hcd⟩ := exists_mem_get_change h
      obtain ⟨b, hb, hbc⟩ := ih hc
      exact ⟨b, hb, hbc.trans hcd⟩

/-- Only methods and classes are ever ignored. -/
theorem isIgnorable_of_mem_get_change {e : Deed}
    (hx : ∀ name, ∀ c ∈ x.definitions.get name, c.ignored = true → c.kind.isIgnorable = true)
    (he : ∀ c, e = .define c → c.ignored = false)
    (h : d ∈ (e.change setting x).definitions.get name) (hd : d.ignored = true) :
    d.kind.isIgnorable = true := by
  rcases change_definitions setting e with ⟨c, rfl, hc⟩ | ⟨_, f, hf, hc⟩
  · rw [hc x, Buckets.get_insert] at h
    split at h
    · rcases Buckets.mem_addTo.1 h with h | ⟨rfl, _⟩
      · exact hx _ d h hd
      · rw [(Walk.alike_judged _ c).kind_eq]
        rcases Walk.ignored_judged _ c hd with hignored | hkind
        · simp [he c rfl] at hignored
        · exact hkind
    · exact hx _ d h hd
  · rw [hc x, Buckets.get_mapWith] at h
    obtain ⟨c, hmem, rfl⟩ := List.mem_map.1 h
    rw [(hf.alike name c).kind_eq]
    rcases hf.ignored name c hd with hignored | hkind
    · exact hx name c hmem hignored
    · exact hkind

theorem isIgnorable_of_mem_get_changeAll
    (hx : ∀ name, ∀ c ∈ x.definitions.get name, c.ignored = true → c.kind.isIgnorable = true)
    (hds : ∀ c, .define c ∈ ds → c.ignored = false)
    (h : d ∈ (changeAll setting x ds).definitions.get name) (hd : d.ignored = true) :
    d.kind.isIgnorable = true := by
  induction ds generalizing x with
  | nil => exact hx name d h hd
  | cons e rest ih =>
      apply ih _ (fun c hc => hds c (List.mem_cons_of_mem _ hc)) h
      intro key c hc hignored
      apply isIgnorable_of_mem_get_change hx _ hc hignored
      rintro c rfl
      exact hds c List.mem_cons_self

/-- What a deed defines is in the index at the end. -/
theorem exists_mem_get_of_define (hx : x.Tidy) (h : .define d ∈ ds) :
    ∃ c ∈ (changeAll setting x ds).definitions.get d.name, c.Alike d := by
  induction ds generalizing x with
  | nil => simp at h
  | cons e rest ih =>
      rcases List.mem_cons.1 h with rfl | h
      · obtain ⟨c, hc, hcd⟩ := exists_mem_get_define x d hx
        obtain ⟨b, hb, hbc⟩ := exists_mem_get_changeAll hc
        exact ⟨b, hb, hbc.trans hcd⟩
      · exact ih (hx.change setting e) h

end Deed

namespace Walk

/-- The deeds of a whole file. -/
def fileDeeds (src : Source) (root : Syntax.Node) : List Deed :=
  Act.deedsAll (src.outline false root) {}

theorem run_index (src : Source) (plugins : List Plugin) (root : Syntax.Node) (x : Index) :
    (run src plugins root x).index = Deed.changeAll ⟨src.path, plugins⟩ x (fileDeeds src root) := by
  unfold run visit
  rw [act_eq]
  rfl

theorem run_trace (src : Source) (plugins : List Plugin) (root : Syntax.Node) (x : Index) :
    (run src plugins root x).trace =
      (Deed.momentsAll ⟨src.path, plugins⟩ x (fileDeeds src root)).reverse := by
  unfold run visit
  rw [act_eq]
  exact List.append_nil _

theorem tidy_run_index (src : Source) (plugins : List Plugin) (root : Syntax.Node) :
    (run src plugins root).index.Tidy := by
  rw [run_index]
  exact Index.Tidy.empty.changeAll _ _

theorem exists_define_of_mem_run {src : Source} {plugins : List Plugin} {root : Syntax.Node}
    {d : Definition} (h : d ∈ (run src plugins root).index.definitions.values) :
    ∃ c, .define c ∈ fileDeeds src root ∧ d.Alike c := by
  rw [(tidy_run_index src plugins root).definitions.mem_values, run_index] at h
  rcases Deed.of_mem_get_changeAll h with ⟨c, hc, _⟩ | hc
  · simp at hc
  · exact hc

end Walk
end Fallow
