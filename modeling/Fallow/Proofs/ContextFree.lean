import Fallow.Proofs.References

/-!
# References without context

The references that the visit of a node adds can be read off its outline. Where the visit takes
place plays no role: neither the open namespaces and bodies nor the visibility in force nor what
the index holds. Only the outline itself differs inside methods and outside.
-/

namespace Fallow

namespace Act

mutual

/-- The references that an act adds wherever it is carried out. -/
def references (plugins : List Plugin) : Act → List Reference
  | .refer name location => [⟨name, location, .syntactic⟩]
  | .send call => Deed.sendReferences plugins call
  | .visit _ acts => referencesAll plugins acts
  | .inline _ acts => referencesAll plugins acts
  | .methodBody acts => referencesAll plugins acts
  | .enclosure _ _ _ _ acts => referencesAll plugins acts
  | .singletonBody acts => referencesAll plugins acts
  | _ => []

def referencesAll (plugins : List Plugin) : List Act → List Reference
  | [] => []
  | a :: rest => references plugins a ++ referencesAll plugins rest

end

mutual

theorem flatMap_references_deeds (plugins : List Plugin) : ∀ (a : Act) (s : Scope),
    (a.deeds s).flatMap (·.references plugins) = a.references plugins
  | .refer name location, s => by simp [deeds, references, Deed.references]
  | .send call, s => by simp [deeds, references, Deed.references]
  | .visit _ acts, s => flatMap_references_deedsAll plugins acts s
  | .inline visibility acts, s =>
      flatMap_references_deedsAll plugins acts (s.withMode visibility)
  | .methodBody acts, s => flatMap_references_deedsAll plugins acts s
  | .enclosure kind name qualified location acts, s => by
      have hbody := flatMap_references_deedsAll plugins acts ⟨qualified :: s.nesting, {}⟩
      rw [deeds, List.flatMap_append, List.flatMap_cons, hbody]
      exact List.append_nil _
  | .singletonBody acts, s =>
      flatMap_references_deedsAll plugins acts ⟨s.nesting, { singleton := true }⟩
  | .declare _, _ | .remark _ _, _ | .constant _ _ _, _ | .accessor _ _, _ | .method _ _ _, _ =>
      rfl

theorem flatMap_references_deedsAll (plugins : List Plugin) : ∀ (acts : List Act) (s : Scope),
    (deedsAll acts s).flatMap (·.references plugins) = referencesAll plugins acts
  | [], _ => rfl
  | a :: rest, s => by
      rw [deedsAll, List.flatMap_append, flatMap_references_deeds plugins a,
        flatMap_references_deedsAll plugins rest, referencesAll]

end

end Act

namespace Walk

theorem visit_references (src : Source) (plugins : List Plugin) (n : Syntax.Node) (w : Walk) :
    (visit src plugins n w).index.references = w.index.references.insertAll (· == ·)
      ((Act.referencesAll plugins (src.outline (w.methodDepth ≠ 0) n)).map fun r => (r.name, r)) := by
  have hvisit : (visit src plugins n w).index.references =
      (Deed.changeAll ⟨src.path, plugins⟩ w.index
        (Act.deedsAll (src.outline (w.methodDepth ≠ 0) n) w.scope)).references := by
    unfold visit
    rw [act_eq]
    rfl
  rw [hvisit, Deed.changeAll_references, Act.flatMap_references_deedsAll]

/-- What a visit adds to the references is fixed by the node and by whether the visit takes place
inside a method: in any two states that agree on this the same references are added, and every
group is what it was before together with those of its name. -/
theorem mem_referencesFor_visit (src : Source) (plugins : List Plugin) (n : Syntax.Node) :
    ∃ added : Bool → List Reference, ∀ (w : Walk) (name : String) (r : Reference),
      r ∈ (visit src plugins n w).index.referencesFor name ↔
        r ∈ w.index.referencesFor name ∨ r ∈ added (w.methodDepth ≠ 0) ∧ r.name = name := by
  refine ⟨fun inMethod => Act.referencesAll plugins (src.outline inMethod n), ?_⟩
  intro w name r
  have hentry : ∀ rs : List Reference,
      (name, r) ∈ rs.map (fun r => (r.name, r)) ↔ r ∈ rs ∧ r.name = name := by
    intro rs
    rw [List.mem_map]
    constructor
    · rintro ⟨s, hs, heq⟩
      obtain ⟨hname, rfl⟩ := Prod.mk.inj heq
      exact ⟨hs, hname⟩
    · rintro ⟨hr, rfl⟩
      exact ⟨r, hr, rfl⟩
  rw [Index.referencesFor, Index.referencesFor, visit_references, Buckets.mem_get_insertAll, hentry]

end Walk
end Fallow
