import Fallow.Proofs.Outline
import Fallow.Proofs.Record

/-!
# Where deeds come from

Every deed of a file comes from an act that is planned for a node the walk visits, carried out in
some scope; and every act that is planned for a visited node is carried out in some scope.
-/

namespace Fallow

open Syntax

namespace Act

theorem exists_of_mem_deedsAll {acts : List Act} {s : Scope} {d : Deed} (h : d ∈ deedsAll acts s) :
    ∃ a ∈ acts, ∃ s', d ∈ a.deeds s' := by
  induction acts generalizing s with
  | nil => simp [deedsAll] at h
  | cons a rest ih =>
      rcases List.mem_append.1 h with h | h
      · exact ⟨a, List.mem_cons_self, s, h⟩
      · obtain ⟨b, hb, s', hd⟩ := ih h
        exact ⟨b, List.mem_cons_of_mem _ hb, s', hd⟩

theorem exists_deeds_subset_deedsAll {acts : List Act} {a : Act} (h : a ∈ acts) (s : Scope) :
    ∃ s', a.deeds s' ⊆ deedsAll acts s := by
  induction acts generalizing s with
  | nil => simp at h
  | cons b rest ih =>
      rcases List.mem_cons.1 h with rfl | h
      · exact ⟨s, List.subset_append_left _ _⟩
      · obtain ⟨s', hs'⟩ := ih h (s.withMode (b.modeAfter s.body.mode))
        exact ⟨s', List.Subset.trans hs' (List.subset_append_right _ _)⟩

mutual

/-- A visit is carried out in some scope of the act that leads to it. -/
theorem exists_visit_subset_deeds {f : Bool → Node → List Act} {v : Bool × Node} :
    ∀ {inMethod : Bool} {a : Act} (s : Scope), v ∈ a.visits inMethod →
      ∃ s', deedsAll (f v.1 v.2) s' ⊆ (fill f inMethod a).deeds s
  | inMethod, .visit site _, s, hv => by
      rw [List.mem_singleton.1 hv]
      exact ⟨s, fun _ => id⟩
  | _, .inline visibility acts, s, hv =>
      exists_visit_subset_deedsAll (s.withMode visibility) hv
  | _, .methodBody acts, s, hv => exists_visit_subset_deedsAll s hv
  | _, .enclosure kind name qualified location acts, s, hv => by
      obtain ⟨s', hs'⟩ := exists_visit_subset_deedsAll ⟨qualified :: s.nesting, {}⟩ hv
      refine ⟨s', fun d hd => ?_⟩
      exact List.mem_cons_of_mem _ (List.mem_append_left _ (hs' hd))
  | _, .singletonBody acts, s, hv =>
      exists_visit_subset_deedsAll ⟨s.nesting, { singleton := true }⟩ hv
  | _, .refer _ _, _, hv | _, .send _, _, hv | _, .declare _, _, hv | _, .remark _ _, _, hv
  | _, .constant _ _ _, _, hv | _, .accessor _ _, _, hv | _, .method _ _ _, _, hv => by
      simp [visits] at hv

theorem exists_visit_subset_deedsAll {f : Bool → Node → List Act} {v : Bool × Node} :
    ∀ {inMethod : Bool} {acts : List Act} (s : Scope), v ∈ visitsAll inMethod acts →
      ∃ s', deedsAll (f v.1 v.2) s' ⊆ deedsAll (fillAll f inMethod acts) s
  | _, [], _, hv => by simp [visitsAll] at hv
  | inMethod, a :: rest, s, hv => by
      rcases List.mem_append.1 hv with hv | hv
      · obtain ⟨s', hs'⟩ := exists_visit_subset_deeds s hv
        exact ⟨s', List.Subset.trans hs' (List.subset_append_left _ _)⟩
      · obtain ⟨s', hs'⟩ := exists_visit_subset_deedsAll
          (s.withMode ((fill f inMethod a).modeAfter s.body.mode)) hv
        exact ⟨s', List.Subset.trans hs' (List.subset_append_right _ _)⟩

end

end Act

namespace Source

variable {src : Source} {inMethod : Bool} {n : Node} {d : Deed} {s : Scope}

theorem exists_visit_of_mem_deedsAll_walkAll {f : Bool → Node → List Act} {cs : List Node}
    (hd : d ∈ Act.deedsAll (Act.fillAll f inMethod (walkAll cs)) s) :
    ∃ v ∈ Act.visitsAll inMethod (walkAll cs), ∃ s', d ∈ Act.deedsAll (f v.1 v.2) s' := by
  obtain ⟨a, ha, s', hd⟩ := Act.exists_of_mem_deedsAll hd
  obtain ⟨c, hc, rfl⟩ := exists_of_mem_fillAll_walkAll ha
  have hwalk : .walk c ∈ walkAll cs := List.mem_map_of_mem hc
  exact ⟨(inMethod, c), Act.mem_visitsAll.2 ⟨.walk c, hwalk, List.mem_singleton.2 rfl⟩, s', hd⟩

/-- A deed of a filled act is one of the act itself or of one of its visits. -/
theorem Planned.of_mem_deeds_fill {f : Bool → Node → List Act} {a : Act}
    (h : src.Planned inMethod n a) (hd : d ∈ (Act.fill f inMethod a).deeds s) :
    (∃ s', d ∈ a.deeds s') ∨
      ∃ v ∈ a.visits inMethod, ∃ s', d ∈ Act.deedsAll (f v.1 v.2) s' := by
  cases h with
  | @walk c hc => exact .inr ⟨(inMethod, c), List.mem_singleton.2 rfl, s, hd⟩
  | @inline visibility arg hm ha =>
      have hwalk : d ∈ Act.deedsAll (Act.fillAll f inMethod (walkAll [arg]))
          (s.withMode visibility) := hd
      exact .inr (exists_visit_of_mem_deedsAll_walkAll hwalk)
  | methodBody => exact .inr (exists_visit_of_mem_deedsAll_walkAll hd)
  | singletonBody => exact .inr (exists_visit_of_mem_deedsAll_walkAll hd)
  | enclosure =>
      simp only [Act.fill, Act.deeds, List.cons_append, List.mem_cons, List.mem_append,
        List.not_mem_nil, or_false] at hd
      rcases hd with rfl | hd | rfl
      · exact .inl ⟨s, by simp [Act.deeds]⟩
      · exact .inr (exists_visit_of_mem_deedsAll_walkAll hd)
      · exact .inl ⟨s, by simp [Act.deeds]⟩
  | _ => exact .inl ⟨s, hd⟩

/-- Every deed is planned for a node that is visited. -/
theorem exists_plan_of_mem_deeds (hd : d ∈ Act.deedsAll (src.outline inMethod n) s) :
    ∃ within c, src.Visits inMethod n within c ∧
      ∃ a ∈ src.plan within c, ∃ s', d ∈ a.deeds s' := by
  induction hh : n.height using Nat.strongRecOn generalizing inMethod n s with
  | ind height ih =>
      rw [outline_eq] at hd
      obtain ⟨b, hb, s', hd⟩ := Act.exists_of_mem_deedsAll hd
      rw [Act.fillAll_eq_map] at hb
      obtain ⟨a, ha, rfl⟩ := List.mem_map.1 hb
      have hplan := planned_of_mem_plan ha
      rcases hplan.of_mem_deeds_fill hd with hown | ⟨v, hv, s'', hd⟩
      · exact ⟨inMethod, n, .start, a, ha, hown⟩
      · -- the visited node lies below, so that the induction goes down
        have hlt := Node.height_lt_of_mem_inner (hplan.mem_inner_of_mem_visits hv)
        obtain ⟨within, c, hvisits, hact⟩ := ih v.2.height (hh ▸ hlt) hd rfl
        exact ⟨within, c, (Visits.step .start ha hv).trans hvisits, hact⟩

/-- The outline of a visited node is carried out in some scope. -/
theorem Visits.exists_deeds_subset {within : Bool} {root : Node}
    (h : src.Visits inMethod root within n) (s : Scope) :
    ∃ s', Act.deedsAll (src.outline within n) s' ⊆ Act.deedsAll (src.outline inMethod root) s := by
  induction h with
  | start => exact ⟨s, fun _ => id⟩
  | @step within c a v hc ha hv ih =>
      obtain ⟨s', hs'⟩ := ih
      rw [outline_eq src within c] at hs'
      have hfill : Act.fill src.outline within a ∈
          Act.fillAll src.outline within (src.plan within c) := by
        rw [Act.fillAll_eq_map]
        exact List.mem_map_of_mem ha
      obtain ⟨s₁, hs₁⟩ := Act.exists_deeds_subset_deedsAll hfill s'
      obtain ⟨s₂, hs₂⟩ := Act.exists_visit_subset_deeds s₁ hv
      exact ⟨s₂, List.Subset.trans (List.Subset.trans hs₂ hs₁) hs'⟩

/-- An act of a visited node that is no visit itself is carried out in some scope. -/
theorem Visits.exists_own_deeds_subset {within : Bool} {root : Node} {a : Act}
    (h : src.Visits inMethod root within n) (ha : a ∈ src.plan within n)
    (hfill : Act.fill src.outline within a = a) (s : Scope) :
    ∃ s', a.deeds s' ⊆ Act.deedsAll (src.outline inMethod root) s := by
  obtain ⟨s', hs'⟩ := h.exists_deeds_subset s
  rw [outline_eq, Act.fillAll_eq_map] at hs'
  obtain ⟨s₁, hs₁⟩ := Act.exists_deeds_subset_deedsAll (List.mem_map.2 ⟨a, ha, hfill⟩) s'
  exact ⟨s₁, List.Subset.trans hs₁ hs'⟩

/-- What a node that is visited outside methods can define in a scope. -/
inductive Defines (src : Source) (n : Node) (s : Scope) : Definition → Prop
  | enclosure {kind : NamespaceKind} {name : Node} (hk : n.kind = kind.nodeKind)
    (hn : n.field? .name = some name) :
    Defines src n s (s.constant kind.definitionKind (src.bareName (src.bareText name) name)
      (src.bareText name) (src.location n))
  | constant {target : Node} (hk : n.kind = .assignment ∨ n.kind = .operatorAssignment)
    (ht : n.field? .left = some target)
    (htk : target.kind = .constant ∨ target.kind = .scopeResolution) :
    Defines src n s (s.constant .constantDef (src.bareName (src.text target) target)
      (src.bareText target) (src.location n))
  | reader {writer : Bool} {arg : Node} (hd : src.Declares n true writer arg)
    (hn : (src.argument arg).isName = true) :
    Defines src n s (s.accessor (src.argument arg).value (src.location arg))
  | writer {reader : Bool} {arg : Node} (hd : src.Declares n reader true arg)
    (hn : (src.argument arg).isName = true) :
    Defines src n s (s.accessor ((src.argument arg).value ++ "=") (src.location arg))
  | method {onSelf : Bool} {name : Node}
    (hk : n.kind = if onSelf then .singletonMethodDecl else .methodDecl)
    (hn : n.field? .name = some name) :
    Defines src n s (s.method onSelf (src.text name) (src.location n))

theorem deedsAll_walkAll (cs : List Node) (s : Scope) : Act.deedsAll (walkAll cs) s = [] := by
  induction cs generalizing s with
  | nil => rfl
  | cons c rest ih =>
      rw [walkAll, List.map_cons, Act.deedsAll]
      exact ih _

theorem Planned.defines {a : Act} {c : Definition} (h : src.Planned inMethod n a)
    (hc : .define c ∈ a.deeds s) : inMethod = false ∧ src.Defines n s c := by
  cases h with
  | constant hm hk ht htk =>
      cases List.mem_singleton.1 hc
      exact ⟨hm, .constant hk ht htk⟩
  | reader hm hd hn =>
      cases List.mem_singleton.1 hc
      exact ⟨hm, .reader hd hn⟩
  | writer hm hd hn =>
      cases List.mem_singleton.1 hc
      exact ⟨hm, .writer hd hn⟩
  | method hm hk hn =>
      cases List.mem_singleton.1 hc
      exact ⟨hm, .method hk hn⟩
  | enclosure hm hk hn =>
      simp only [Act.deeds, deedsAll_walkAll, List.cons_append, List.nil_append, List.mem_cons,
        Deed.define.injEq, reduceCtorEq, List.not_mem_nil, or_false] at hc
      rw [hc]
      exact ⟨hm, .enclosure hk hn⟩
  | methodBody => simp [Act.deeds, deedsAll_walkAll] at hc
  | singletonBody => simp [Act.deeds, deedsAll_walkAll] at hc
  | _ => simp [Act.deeds, Act.deedsAll, Act.walk, reference, call] at hc

/-- Whatever a file defines is defined by a node that is visited outside methods. -/
theorem exists_defines {root : Node} {c : Definition} (h : .define c ∈ Walk.fileDeeds src root) :
    ∃ n s, src.Visits false root false n ∧ src.Defines n s c := by
  obtain ⟨within, n, hvisits, a, ha, s, hc⟩ := exists_plan_of_mem_deeds h
  obtain ⟨rfl, hdef⟩ := (planned_of_mem_plan ha).defines hc
  exact ⟨n, s, hvisits, hdef⟩

theorem Defines.file_eq {c : Definition} (h : src.Defines n s c) : c.location.file = src.path := by
  cases h <;> rfl

theorem Defines.ignored_eq {c : Definition} (h : src.Defines n s c) : c.ignored = false := by
  cases h <;> rfl

end Source

/-- The definitions of a file lie in that file. -/
theorem Walk.file_eq_of_mem_run {src : Source} {plugins : List Plugin} {root : Node}
    {d : Definition} (h : d ∈ (Walk.run src plugins root).index.definitions.values) :
    d.location.file = src.path := by
  obtain ⟨c, hc, hdc⟩ := Walk.exists_define_of_mem_run h
  obtain ⟨n, s, _, hdef⟩ := Source.exists_defines hc
  rw [hdc.location_eq, hdef.file_eq]

theorem Walk.isIgnorable_of_mem_run {src : Source} {plugins : List Plugin} {root : Node}
    {d : Definition} (h : d ∈ (Walk.run src plugins root).index.definitions.values)
    (hd : d.ignored = true) : d.kind.isIgnorable = true := by
  rw [(Walk.tidy_run_index src plugins root).definitions.mem_values, Walk.run_index] at h
  apply Deed.isIgnorable_of_mem_get_changeAll _ _ h hd
  · intro name c hc
    simp at hc
  · intro c hc
    obtain ⟨n, s, _, hdef⟩ := Source.exists_defines hc
    exact hdef.ignored_eq

end Fallow
