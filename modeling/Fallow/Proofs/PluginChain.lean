import Fallow.Proofs.Lockstep
import Fallow.Proofs.References
import Fallow.Proofs.Verdict

/-!
# Chains of plugins

Plugins can only keep code alive. The walk with more plugins records the same definitions with the
same visibility, and refers to all that the walk with fewer refers to; it may ignore more and refer
to more, so that less is unused. Hence the order of the plugins and their repetition play no role:
two chains with the same plugins each have all that the other has.
-/

namespace Fallow

namespace Definition

/-- The same record, or the same record ignored. -/
def Spared (a b : Definition) : Prop :=
  b = a ∨ b = a.ignore

namespace Spared

variable {a b : Definition}

theorem refl (a : Definition) : a.Spared a :=
  .inl rfl

theorem alike (h : a.Spared b) : b.Alike a := by
  rcases h with rfl | rfl
  · exact .refl b
  · exact alike_ignore a

theorem antisymm (h : a.Spared b) (h' : b.Spared a) : a = b := by
  rcases h with rfl | rfl
  · rfl
  · rcases h' with h' | h' <;> exact h'

theorem ignore_right (h : a.Spared b) : a.Spared b.ignore := by
  rcases h with rfl | rfl
  · exact .inr rfl
  · exact .inr rfl

theorem ignore (h : a.Spared b) : a.ignore.Spared b.ignore := by
  rcases h with rfl | rfl
  · exact .refl _
  · exact .refl _

theorem mark (h : a.Spared b) (visibility : Visibility) :
    (a.mark visibility).Spared (b.mark visibility) := by
  rcases h with rfl | rfl
  · exact .inl rfl
  · exact .inr rfl

theorem eq_of_not_ignored (h : a.Spared b) (hb : b.ignored = false) : a = b := by
  rcases h with rfl | rfl
  · rfl
  · cases hb

theorem same_eq {c d : Definition} (h : a.Spared b) (h' : c.Spared d) :
    a.same c = b.same d :=
  h.alike.symm.same_eq h'.alike.symm

theorem compare_eq {c d : Definition} (h : a.Spared b) (h' : c.Spared d) :
    a.compare c = b.compare d := by
  rcases h with rfl | rfl <;> rcases h' with rfl | rfl <;> rfl

end Spared
end Definition

theorem any_of_subset {α : Type} {l l' : List α} {p : α → Bool} (h : l ⊆ l')
    (hl : l.any p = true) : l'.any p = true := by
  obtain ⟨a, ha, hp⟩ := List.any_eq_true.1 hl
  exact List.any_eq_true.2 ⟨a, h ha, hp⟩

namespace Plugin

theorem isAction_ignore (p : Plugin) (closed d : Definition) :
    p.isAction closed d.ignore = p.isAction closed d := by
  cases p <;> rfl

/-- Whether a method is an action depends on neither the mark nor the visibility of the class. -/
theorem isAction_congr {closed closed' : Definition} (h : closed.Alike closed') (p : Plugin)
    (d : Definition) : p.isAction closed d = p.isAction closed' d := by
  obtain ⟨hkind, hfull, _⟩ := Definition.same_iff.1 h.2
  cases p with
  | actionPack => simp only [isAction, hkind, hfull, h.1]
  | _ => rfl

end Plugin

section Chains

variable {plugins plugins' : List Plugin} (hsub : plugins ⊆ plugins')
include hsub

theorem Walk.spared_judged (d : Definition) :
    (Walk.judged plugins d).Spared (Walk.judged plugins' d) := by
  rw [Walk.judged_eq, Walk.judged_eq]
  by_cases hany : plugins.any (·.ignores d) = true
  · rw [if_pos hany, if_pos (any_of_subset hsub hany)]
    exact .refl _
  · rw [if_neg hany]
    split
    · exact .inr rfl
    · exact .refl d

/-- What is an action with fewer plugins is one with more. -/
theorem any_isAction_of_spared (closed : Definition) {a b : Definition} (hab : a.Spared b)
    (h : plugins.any (·.isAction (Walk.judged plugins closed) a) = true) :
    plugins'.any (·.isAction (Walk.judged plugins' closed) b) = true := by
  have hsame : ∀ p : Plugin, p.isAction (Walk.judged plugins' closed) b =
      p.isAction (Walk.judged plugins closed) a := by
    intro p
    rw [p.isAction_congr (Walk.spared_judged hsub closed).alike]
    rcases hab with rfl | rfl
    · rfl
    · exact p.isAction_ignore _ a
  simp only [hsame]
  exact any_of_subset hsub h

/-- One deed with fewer and with more plugins: definitions stay the same but for marks. -/
theorem Deed.rel_change {x y : Index} (h : x.definitions.Rel Definition.Spared y.definitions)
    (path : String) (d : Deed) :
    (d.change ⟨path, plugins⟩ x).definitions.Rel Definition.Spared
      (d.change ⟨path, plugins'⟩ y).definitions := by
  cases d with
  | refer name location => exact h
  | send s =>
      have huse : (Deed.send s).IsUse := trivial
      rw [huse.change_definitions, huse.change_definitions]
      exact h
  | define e =>
      simp only [change, Index.addDefinition]
      rw [(Walk.alike_judged plugins e).1, (Walk.alike_judged plugins' e).1]
      apply h.insert
      · intro a a' c c' ha hc
        exact ha.same_eq hc
      · exact Walk.spared_judged hsub e
  | remark visibility name fullName =>
      simp only [change, Buckets.mapAt_eq_mapWith]
      apply h.mapWith
      intro key a b hab
      by_cases hk : key = name
      · obtain ⟨_, hfull, hlocation⟩ := Definition.same_iff.1 hab.alike.2
        simp only [hk, if_true, hfull, hlocation]
        split
        · exact hab.mark visibility
        · exact hab
      · simpa only [hk, if_false, id_eq] using hab
  | close e =>
      simp only [change, Buckets.map_eq_mapWith]
      apply h.mapWith
      intro key a b hab
      have hfile : a.location.file = b.location.file := by rw [hab.alike.location_eq]
      by_cases hmarked : (a.location.file = path && plugins.any
          (·.isAction (Walk.judged plugins e) a)) = true
      · rw [if_pos hmarked]
        rw [Bool.and_eq_true] at hmarked
        rw [if_pos (by rw [← hfile, hmarked.1, any_isAction_of_spared hsub e hab hmarked.2]; rfl)]
        exact hab.ignore
      · rw [if_neg hmarked]
        split
        · exact hab.ignore_right
        · exact hab

theorem Deed.rel_changeAll {x y : Index} (h : x.definitions.Rel Definition.Spared y.definitions)
    (path : String) (ds : List Deed) :
    (changeAll ⟨path, plugins⟩ x ds).definitions.Rel Definition.Spared
      (changeAll ⟨path, plugins'⟩ y ds).definitions := by
  induction ds generalizing x y with
  | nil => exact h
  | cons d rest ih => exact ih (Deed.rel_change hsub h path d)

variable (src : Source) (root : Syntax.Node)

theorem Walk.rel_run : (run src plugins root).index.definitions.Rel Definition.Spared
    (run src plugins' root).index.definitions := by
  have hstart : Buckets.Rel Definition.Spared {} {} := List.Forall₂.nil
  rw [run_index, run_index]
  exact Deed.rel_changeAll hsub hstart _ _

theorem Walk.mem_referenceListing_mono {r : Reference}
    (h : r ∈ (run src plugins root).index.referenceListing) :
    r ∈ (run src plugins' root).index.referenceListing := by
  obtain ⟨d, hd, hr⟩ := mem_referenceListing_run.1 h
  exact mem_referenceListing_run.2 ⟨d, hd, Deed.references_subset hsub d hr⟩

end Chains

namespace Index

variable {x y : Index}

theorem isReferenced_mono (hx : x.Tidy) (hy : y.Tidy)
    (h : ∀ r ∈ x.referenceListing, r ∈ y.referenceListing) {name : String}
    (hname : x.isReferenced name = true) : y.isReferenced name = true := by
  obtain ⟨r, hr, hrname⟩ := hx.isReferenced_iff.1 hname
  exact hy.isReferenced_iff.2 ⟨r, h r hr, hrname⟩

theorem unused_fails_of_spared (h : List.Forall₂ Definition.Spared x.listing y.listing)
    (hy : ∃ e, y.unused = .error e) : ∃ e, x.unused = .error e := by
  obtain ⟨b, hb, hignored, hname⟩ := exists_unused_eq_error_iff.1 hy
  obtain ⟨a, ha, hab⟩ := exists_of_forall₂_of_mem h hb
  obtain rfl := hab.eq_of_not_ignored hignored
  exact exists_unused_eq_error_iff.2 ⟨a, ha, hignored, hname⟩

/-- What is unused in spite of more marks and references is unused with fewer. -/
theorem exists_unused_sublist (hx : x.Tidy) (hy : y.Tidy)
    (hlisting : List.Forall₂ Definition.Spared x.listing y.listing)
    (hreferences : ∀ r ∈ x.referenceListing, r ∈ y.referenceListing)
    {l : List Definition} (h : x.unused = .ok l) :
    ∃ l', y.unused = .ok l' ∧ l'.Sublist l := by
  cases hu : y.unused with
  | error e =>
      obtain ⟨e', he'⟩ := unused_fails_of_spared hlisting ⟨e, hu⟩
      rw [h] at he'
      cases he'
  | ok l' =>
      refine ⟨l', rfl, ?_⟩
      rw [eq_of_unused_eq_ok h, eq_of_unused_eq_ok hu]
      apply sublist_sortedBy (hx.nodup_listing.filter _)
      apply filter_sublist_of_forall₂ _ hlisting
      intro a b hab hb
      have hunused : b.ignored = false ∧ y.isReferenced b.name = false := by
        simpa [isUnused] using hb
      obtain rfl := hab.eq_of_not_ignored hunused.1
      have hreferenced : x.isReferenced a.name = false := by
        by_contra href
        rw [Bool.not_eq_false] at href
        have hmore := isReferenced_mono hx hy hreferences href
        rw [hunused.2] at hmore
        cases hmore
      exact ⟨rfl, by simp [isUnused, hunused.1, hreferenced]⟩

end Index

namespace Walk

/-- Plugins that are added to a chain can only ignore more and refer to more: no definition, no
visibility and no reference that is written in the source changes, and nothing becomes unused. -/
theorem run_append_spares (src : Source) (plugins more : List Plugin) (root : Syntax.Node) :
    List.Forall₂ Definition.Spared (run src plugins root).index.listing
        (run src (plugins ++ more) root).index.listing ∧
      (∀ r : Reference, r.origin = .syntactic →
        (r ∈ (run src (plugins ++ more) root).index.referenceListing ↔
          r ∈ (run src plugins root).index.referenceListing)) ∧
      (∀ r ∈ (run src plugins root).index.referenceListing,
        r ∈ (run src (plugins ++ more) root).index.referenceListing) ∧
      ((∀ d ∈ (run src plugins root).index.listing, d.name ≠ "") →
        ∃ unused fewer, (run src plugins root).index.unused = .ok unused ∧
          (run src (plugins ++ more) root).index.unused = .ok fewer ∧ fewer.Sublist unused) := by
  have hsub : plugins ⊆ plugins ++ more := List.subset_append_left _ _
  have hlisting : List.Forall₂ Definition.Spared (run src plugins root).index.listing
      (run src (plugins ++ more) root).index.listing :=
    forall₂_sortedBy (fun _ _ _ _ => Definition.Spared.compare_eq) (rel_run hsub src root).values
  have hreferences : ∀ r ∈ (run src plugins root).index.referenceListing,
      r ∈ (run src (plugins ++ more) root).index.referenceListing :=
    fun r => mem_referenceListing_mono hsub src root
  refine ⟨hlisting, fun r hr => ⟨fun h => ?_, hreferences r⟩, hreferences, fun hnamed => ?_⟩
  · obtain ⟨d, hd, hmem⟩ := mem_referenceListing_run.1 h
    exact mem_referenceListing_run.2 ⟨d, hd, Deed.mem_references_of_syntactic hr hmem⟩
  · obtain ⟨unused, hunused⟩ := Index.exists_unused_eq_ok hnamed
    obtain ⟨fewer, hfewer, hless⟩ := Index.exists_unused_sublist (tidy_run_index _ _ _)
      (tidy_run_index _ _ _) hlisting hreferences hunused
    exact ⟨unused, fewer, hunused, hfewer, hless⟩

/-- A controller with two actions, one of which is a helper of its views as well. -/
def callbackSource : Source :=
  ⟨"x.rb", Utf8.encode "class XController\n  helper_method :a\n  def a; end\n  def b; end\nend\n"⟩

def callbackTree : Syntax.Node :=
  .mk (.other "program") ⟨0, 67, ⟨0, 0⟩, ⟨5, 0⟩⟩ ⟨true, false, false⟩ []
    [.mk .classDecl ⟨0, 66, ⟨0, 0⟩, ⟨4, 3⟩⟩ ⟨true, false, false⟩ [(.name, 0)]
      [.mk .constant ⟨6, 17, ⟨0, 6⟩, ⟨0, 17⟩⟩ ⟨true, false, false⟩ [] [],
        .mk (.other "body_statement") ⟨20, 62, ⟨1, 2⟩, ⟨3, 12⟩⟩ ⟨true, false, false⟩ []
          [.mk .call ⟨20, 36, ⟨1, 2⟩, ⟨1, 18⟩⟩ ⟨true, false, false⟩ [(.arguments, 1), (.method, 0)]
              [.mk .identifier ⟨20, 33, ⟨1, 2⟩, ⟨1, 15⟩⟩ ⟨true, false, false⟩ [] [],
                .mk (.other "argument_list") ⟨34, 36, ⟨1, 16⟩, ⟨1, 18⟩⟩ ⟨true, false, false⟩ []
                  [.mk .simpleSymbol ⟨34, 36, ⟨1, 16⟩, ⟨1, 18⟩⟩ ⟨true, false, false⟩ [] []]],
            .mk .methodDecl ⟨39, 49, ⟨2, 2⟩, ⟨2, 12⟩⟩ ⟨true, false, false⟩ [(.name, 0)]
              [.mk .identifier ⟨43, 44, ⟨2, 6⟩, ⟨2, 7⟩⟩ ⟨true, false, false⟩ [] []],
            .mk .methodDecl ⟨52, 62, ⟨3, 2⟩, ⟨3, 12⟩⟩ ⟨true, false, false⟩ [(.name, 0)]
              [.mk .identifier ⟨56, 57, ⟨3, 6⟩, ⟨3, 7⟩⟩ ⟨true, false, false⟩ [] []]]]]

theorem run_append_spares_actions :
    (∀ d ∈ (run callbackSource [.ruby] callbackTree).index.listing, d.name ≠ "") ∧
      ∃ unused fewer, (run callbackSource [.ruby] callbackTree).index.unused = .ok unused ∧
        (run callbackSource [.ruby, .actionPack] callbackTree).index.unused = .ok fewer ∧
        fewer.Sublist unused := by
  have hnamed : ∀ d ∈ (run callbackSource [.ruby] callbackTree).index.listing, d.name ≠ "" := by
    simp only [Index.mem_listing]
    decide +kernel
  exact ⟨hnamed, (run_append_spares callbackSource [.ruby] [.actionPack] callbackTree).2.2.2 hnamed⟩

/-- Neither the order of plugins nor their repetition can be read off the index. -/
theorem run_index_congr (src : Source) (plugins plugins' : List Plugin) (root : Syntax.Node)
    (h : ∀ p, p ∈ plugins ↔ p ∈ plugins') :
    (run src plugins root).index.definitions = (run src plugins' root).index.definitions ∧
      (run src plugins root).index.referenceListing =
        (run src plugins' root).index.referenceListing ∧
      ∀ name, ((run src plugins root).index.referencesFor name).Perm
        ((run src plugins' root).index.referencesFor name) := by
  have hsub : plugins ⊆ plugins' := fun p => (h p).1
  have hsub' : plugins' ⊆ plugins := fun p => (h p).2
  have hmem : ∀ r, r ∈ (run src plugins root).index.referenceListing ↔
      r ∈ (run src plugins' root).index.referenceListing :=
    fun r => ⟨mem_referenceListing_mono hsub src root, mem_referenceListing_mono hsub' src root⟩
  have hx := tidy_run_index src plugins root
  have hy := tidy_run_index src plugins' root
  exact ⟨Buckets.Rel.antisymm (fun _ _ => Definition.Spared.antisymm) (rel_run hsub src root)
      (rel_run hsub' src root), hx.referenceListing_eq hy hmem, hx.perm_referencesFor hy hmem⟩

theorem run_index_congr_shuffled :
    (∀ p, p ∈ [Plugin.ruby, .actionPack, .minitest] ↔
        p ∈ [Plugin.minitest, .actionPack, .ruby, .actionPack]) ∧
      (run callbackSource [.ruby, .actionPack, .minitest] callbackTree).index.definitions =
        (run callbackSource [.minitest, .actionPack, .ruby, .actionPack]
          callbackTree).index.definitions ∧
      (run callbackSource [.ruby, .actionPack, .minitest] callbackTree).index.referenceListing =
        (run callbackSource [.minitest, .actionPack, .ruby, .actionPack]
          callbackTree).index.referenceListing ∧
      ∀ name, ((run callbackSource [.ruby, .actionPack, .minitest]
          callbackTree).index.referencesFor name).Perm
        ((run callbackSource [.minitest, .actionPack, .ruby, .actionPack]
          callbackTree).index.referencesFor name) := by
  have hsame : ∀ p, p ∈ [Plugin.ruby, .actionPack, .minitest] ↔
      p ∈ [Plugin.minitest, .actionPack, .ruby, .actionPack] := by
    intro p
    simp only [List.mem_cons, List.not_mem_nil, or_false]
    tauto
  exact ⟨hsame, run_index_congr callbackSource _ _ callbackTree hsame⟩

end Walk
end Fallow
