import Fallow.Proofs.SharedIndex

/-!
# Method bodies

Inside a method names are only used. Whatever stands there, be it a class, a method, an accessor
declaration or a visibility word, its visit adds references and announces sends, and leaves the
definitions and the state of the walk as they were.
-/

namespace Fallow

open Syntax

namespace Deed

variable {setting : Walk.Setting} {x : Index} {ds : List Deed}

theorem IsUse.sent_of_mem_moments {d : Deed} (h : d.IsUse) {m : Moment}
    (hm : m ∈ d.moments setting x) : ∃ s, m.event = .sent s := by
  cases d with
  | refer name location => simp [moments] at hm
  | send s =>
      rw [List.mem_singleton.1 hm]
      exact ⟨s, rfl⟩
  | define d | remark visibility name fullName | close d => exact h.elim

theorem changeAll_definitions_of_isUse (h : ∀ d ∈ ds, d.IsUse) :
    (changeAll setting x ds).definitions = x.definitions := by
  induction ds generalizing x with
  | nil => rfl
  | cons d rest ih =>
      rw [changeAll_cons, ih fun e he => h e (List.mem_cons_of_mem _ he),
        (h d List.mem_cons_self).change_definitions]

theorem sent_of_mem_momentsAll (h : ∀ d ∈ ds, d.IsUse) {m : Moment}
    (hm : m ∈ momentsAll setting x ds) : ∃ s, m.event = .sent s := by
  induction ds generalizing x with
  | nil => simp [momentsAll] at hm
  | cons d rest ih =>
      rcases List.mem_append.1 hm with hm | hm
      · exact (h d List.mem_cons_self).sent_of_mem_moments hm
      · exact ih (fun e he => h e (List.mem_cons_of_mem _ he)) hm

end Deed

namespace Act

mutual

/-- A method that is open stays open in all that is visited there. -/
theorem inMethod_of_mem_visits {v : Bool × Node} : ∀ {a : Act}, v ∈ a.visits true → v.1 = true
  | .visit site _, hv => by rw [List.mem_singleton.1 hv]
  | .inline _ acts, hv | .methodBody acts, hv | .enclosure _ _ _ _ acts, hv
  | .singletonBody acts, hv => @inMethod_of_mem_visitsAll v acts hv
  | .refer _ _, hv | .send _, hv | .declare _, hv | .remark _ _, hv | .constant _ _ _, hv
  | .accessor _ _, hv | .method _ _ _, hv => by simp [visits] at hv

theorem inMethod_of_mem_visitsAll {v : Bool × Node} :
    ∀ {acts : List Act}, v ∈ visitsAll true acts → v.1 = true
  | [], hv => by simp [visitsAll] at hv
  | a :: rest, hv => by
      rcases List.mem_append.1 hv with hv | hv
      · exact inMethod_of_mem_visits hv
      · exact inMethod_of_mem_visitsAll hv

end

theorem modeAfterAll_eq_self {acts : List Act} (h : ∀ a ∈ acts, ∀ mode, a.modeAfter mode = mode)
    (mode : Visibility) : modeAfterAll acts mode = mode := by
  induction acts with
  | nil => rfl
  | cons a rest ih =>
      rw [modeAfterAll, h a List.mem_cons_self]
      exact ih fun b hb => h b (List.mem_cons_of_mem _ hb)

end Act

namespace Source

variable {src : Source} {n : Node}

theorem Visits.inMethod_eq {root : Node} {within : Bool} (h : src.Visits true root within n) :
    within = true := by
  induction h with
  | start => rfl
  | step _ _ hv ih =>
      subst ih
      exact Act.inMethod_of_mem_visits hv

theorem Planned.isUse {a : Act} {s : Scope} {d : Deed} (h : src.Planned true n a)
    (hd : d ∈ a.deeds s) : d.IsUse := by
  cases h with
  | constantUse | scopedUse | symbolUse | aliasUse | send =>
      rw [List.mem_singleton.1 hd]
      trivial
  | walk => simp [Act.walk, Act.deeds, Act.deedsAll] at hd
  | methodBody | singletonBody => simp [Act.deeds, deedsAll_walkAll] at hd
  | declare hm | remark hm | inline hm | constant hm | reader hm | writer hm | method hm
  | enclosure hm => cases hm

/-- All that a node does inside a method is use names. -/
theorem isUse_of_mem_outline {s : Scope} {d : Deed}
    (h : d ∈ Act.deedsAll (src.outline true n) s) : d.IsUse := by
  obtain ⟨within, c, hvisits, a, ha, s', hd⟩ := exists_plan_of_mem_deeds h
  obtain rfl := hvisits.inMethod_eq
  exact (planned_of_mem_plan ha).isUse hd

theorem modeAfterAll_fillAll_walkAll {f : Bool → Node → List Act} {inMethod : Bool}
    {cs : List Node} (h : ∀ c ∈ cs, ∀ mode, Act.modeAfterAll (f inMethod c) mode = mode)
    (mode : Visibility) : Act.modeAfterAll (Act.fillAll f inMethod (walkAll cs)) mode = mode := by
  apply Act.modeAfterAll_eq_self
  intro a ha mode
  obtain ⟨c, hc, rfl⟩ := exists_of_mem_fillAll_walkAll ha
  exact h c hc mode

theorem Planned.modeAfter_fill {f : Bool → Node → List Act} {inMethod : Bool} {a : Act}
    (h : src.Planned inMethod n a) (ha : ∀ visibility, a ≠ .declare visibility)
    (hf : ∀ v ∈ a.visits inMethod, ∀ mode, Act.modeAfterAll (f v.1 v.2) mode = mode)
    (mode : Visibility) : (Act.fill f inMethod a).modeAfter mode = mode := by
  cases h with
  | @walk c => exact hf (inMethod, c) (List.mem_singleton.2 rfl) mode
  | methodBody =>
      apply modeAfterAll_fillAll_walkAll
      intro c hc
      apply hf (true, c)
      exact Act.mem_visitsAll.2 ⟨.walk c, List.mem_map_of_mem hc, List.mem_singleton.2 rfl⟩
  | declare => exact absurd rfl (ha _)
  | _ => rfl

/-- The visibility in force stays where no visited node is planned to change it. -/
theorem modeAfterAll_outline_of_silent {inMethod : Bool}
    (h : ∀ within c, src.Visits inMethod n within c →
      ∀ visibility, .declare visibility ∉ src.plan within c)
    (mode : Visibility) : Act.modeAfterAll (src.outline inMethod n) mode = mode := by
  induction hh : n.height using Nat.strongRecOn generalizing inMethod n mode with
  | ind height ih =>
      rw [outline_eq, Act.fillAll_eq_map]
      apply Act.modeAfterAll_eq_self
      intro b hb mode
      obtain ⟨a, ha, rfl⟩ := List.mem_map.1 hb
      have hplanned := planned_of_mem_plan ha
      apply hplanned.modeAfter_fill
      · rintro visibility rfl
        exact h inMethod n .start visibility ha
      · intro v hv mode
        have hlt : v.2.height < height :=
          hh ▸ Node.height_lt_of_mem_inner (hplanned.mem_inner_of_mem_visits hv)
        apply ih v.2.height hlt _ mode rfl
        exact fun within c hvisits => h within c ((Visits.step .start ha hv).trans hvisits)

/-- No visibility word takes effect inside a method. -/
theorem modeAfterAll_outline (src : Source) (n : Node) (mode : Visibility) :
    Act.modeAfterAll (src.outline true n) mode = mode := by
  apply modeAfterAll_outline_of_silent
  intro within c hvisits visibility hmem
  have hout : within = false := (isBareWord_of_mem_plan hmem).1
  simp [hvisits.inMethod_eq] at hout

end Source

namespace Walk

/-- A visit inside a method changes the references and nothing else, and announces sends only. -/
theorem visit_eq_of_methodDepth_pos (src : Source) (plugins : List Plugin) (n : Node) (w : Walk)
    (h : 0 < w.methodDepth) :
    ∃ references sends, visit src plugins n w =
        { w with index := { w.index with references }, trace := sends ++ w.trace } ∧
      ∀ m ∈ sends, ∃ s, m.event = .sent s := by
  let ds := Act.deedsAll (src.outline true n) w.scope
  have huse : ∀ d ∈ ds, d.IsUse := fun d => Source.isUse_of_mem_outline
  have hin : decide (w.methodDepth ≠ 0) = true := by
    rw [decide_eq_true_eq]
    omega
  have hvisit : visit src plugins n w = w.perform ⟨src.path, plugins⟩ ds := by
    unfold visit
    rw [act_eq, Act.deeds, Act.modeAfter, hin, Source.modeAfterAll_outline]
    rfl
  refine ⟨(Deed.changeAll ⟨src.path, plugins⟩ w.index ds).references,
    (Deed.momentsAll ⟨src.path, plugins⟩ w.index ds).reverse, ?_, ?_⟩
  · rw [hvisit, perform]
    congr 1
    exact Index.ext (Deed.changeAll_definitions_of_isUse huse) rfl
  · intro m hm
    exact Deed.sent_of_mem_momentsAll huse (List.mem_reverse.1 hm)

/-- A walk inside a public method of a class, with a definition of another file at hand. -/
def insideMethod : Walk :=
  { nesting := ["A"], outer := [{}], methodDepth := 1, index := namesake }

theorem visit_eq_of_methodDepth_pos_late :
    0 < insideMethod.methodDepth ∧
      ∃ references sends, visit lateSource [.ruby, .actionPack] lateTree insideMethod =
          { insideMethod with
            index := { namesake with references }, trace := sends ++ insideMethod.trace } ∧
        ∀ m ∈ sends, ∃ s, m.event = .sent s := by
  have hdepth : 0 < insideMethod.methodDepth := by decide
  exact ⟨hdepth,
    visit_eq_of_methodDepth_pos lateSource [.ruby, .actionPack] lateTree insideMethod hdepth⟩

end Walk
end Fallow
