import Fallow.Proofs.Record

/-!
# References of a walk

The references in the index after a walk are those that were there before and those of its deeds.
More plugins add references of their own; what is written in the source is referred to with any.
-/

namespace Fallow

namespace Deed

variable {setting : Walk.Setting} {plugins plugins' : List Plugin} {x : Index} {r : Reference}

theorem mem_references_change {d : Deed} : r ∈ (d.change setting x).references.values ↔
    r ∈ x.references.values ∨ r ∈ d.references setting.plugins := by
  rw [change_references, Buckets.mem_values_insertAll]
  apply or_congr_right
  constructor
  · rintro ⟨name, h⟩
    obtain ⟨s, hs, he⟩ := List.mem_map.1 h
    cases he
    exact hs
  · exact fun h => ⟨r.name, List.mem_map.2 ⟨r, h, rfl⟩⟩

theorem mem_references_changeAll {ds : List Deed} :
    r ∈ (changeAll setting x ds).references.values ↔
      r ∈ x.references.values ∨ ∃ d ∈ ds, r ∈ d.references setting.plugins := by
  induction ds generalizing x with
  | nil => simp
  | cons d rest ih =>
      rw [changeAll_cons, ih, mem_references_change, or_assoc]
      simp

/-- Deeds insert their references one after the other and do nothing else to the references. -/
theorem changeAll_references (setting : Walk.Setting) (x : Index) (ds : List Deed) :
    (changeAll setting x ds).references = x.references.insertAll (· == ·)
      ((ds.flatMap (·.references setting.plugins)).map fun r => (r.name, r)) := by
  induction ds generalizing x with
  | nil => rfl
  | cons d rest ih =>
      rw [changeAll_cons, ih, change_references, List.flatMap_cons, List.map_append,
        Buckets.insertAll_append]

/-- More plugins refer to more. -/
theorem references_subset (h : plugins ⊆ plugins') (d : Deed) :
    d.references plugins ⊆ d.references plugins' := by
  cases d with
  | send s =>
      apply List.cons_subset_cons
      apply List.map_subset
      intro name hname
      obtain ⟨p, hp, hname⟩ := List.mem_flatMap.1 hname
      exact List.mem_flatMap.2 ⟨p, h hp, hname⟩
  | _ => exact fun _ => id

/-- What is written in the source is referred to whatever the plugins are. -/
theorem mem_references_of_syntactic {d : Deed} (hr : r.origin = .syntactic)
    (h : r ∈ d.references plugins) : r ∈ d.references plugins' := by
  cases d with
  | send s =>
      rcases List.mem_cons.1 h with rfl | h
      · exact List.mem_cons_self
      · obtain ⟨name, _, rfl⟩ := List.mem_map.1 h
        cases hr
  | _ => exact h

end Deed

namespace Walk

variable {src : Source} {plugins : List Plugin} {root : Syntax.Node} {r : Reference}

theorem mem_referenceListing_run : r ∈ (run src plugins root).index.referenceListing ↔
    ∃ d ∈ fileDeeds src root, r ∈ d.references plugins := by
  rw [Index.mem_referenceListing, run_index, Deed.mem_references_changeAll]
  simp

end Walk

namespace Index.Tidy

variable {x y : Index} (hx : x.Tidy) (hy : y.Tidy)
  (h : ∀ r, r ∈ x.referenceListing ↔ r ∈ y.referenceListing)
include hx hy h

/-- Tidy indexes with the same references list them in the same order. -/
theorem referenceListing_eq : x.referenceListing = y.referenceListing := by
  have hperm : x.references.values.Perm y.references.values := by
    rw [List.perm_ext_iff_of_nodup (hx.references.nodup_values (by simp))
      (hy.references.nodup_values (by simp))]
    intro r
    rw [← mem_referenceListing, ← mem_referenceListing, h]
  exact sortedBy_eq_of_perm hperm fun r _ r' _ htie => Reference.eq_of_compare htie

/-- Under every name they hold the same references, though perhaps not in the same order. -/
theorem perm_referencesFor (name : String) :
    (x.referencesFor name).Perm (y.referencesFor name) := by
  have hnodup : ∀ {z : Index}, z.Tidy → (z.referencesFor name).Nodup := by
    intro z hz
    apply (hz.references.apart name).imp
    rintro r s hrs rfl
    simp at hrs
  have hmem : ∀ {z : Index}, z.Tidy → ∀ r, r ∈ z.referencesFor name ↔
      r ∈ z.referenceListing ∧ r.name = name := by
    intro z hz r
    rw [mem_referenceListing, hz.references.mem_values, referencesFor]
    constructor
    · intro hr
      have hname : r.name = name := hz.references.named name r hr
      exact ⟨hname ▸ hr, hname⟩
    · rintro ⟨hr, rfl⟩
      exact hr
  rw [List.perm_ext_iff_of_nodup (hnodup hx) (hnodup hy)]
  intro r
  rw [hmem hx, hmem hy, h]

end Index.Tidy
end Fallow
