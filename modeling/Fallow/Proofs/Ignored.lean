import Fallow.Proofs.PluginChain
import Mathlib.Data.List.TakeWhile

/-!
# Ignored definitions

A definition is ignored for one of three reasons. A method bears a name that a plugin of the chain
covers, a class is a test, or a method was public in a controller at the moment the controller was
closed. The mark of every record is accounted for by these reasons at every point of a walk.
-/

namespace Fallow

namespace Text

variable {c : Char} {s front back : List Char}

theorem bne_of_mem_reverse (h : c ∉ s) : ∀ ch ∈ s.reverse, (ch != c) = true := by
  intro ch hch
  have hne : ch ≠ c := by
    rintro rfl
    exact h (List.mem_reverse.1 hch)
  simpa using hne

theorem beforeLast_of_not_mem (h : c ∉ s) : beforeLast c s = [] := by
  rw [beforeLast, List.dropWhile_eq_nil_iff.2 (bne_of_mem_reverse h)]
  rfl

theorem beforeLast_append_cons (h : c ∉ back) : beforeLast c (front ++ c :: back) = front := by
  rw [beforeLast, List.reverse_append, List.reverse_cons, List.append_assoc,
    List.dropWhile_append_of_pos (bne_of_mem_reverse h)]
  simp

/-- What stands before the last occurrence of a character, and nothing without one. -/
theorem beforeLast_eq_iff : beforeLast c s = front ↔
    (∃ back, s = front ++ c :: back ∧ c ∉ back) ∨ c ∉ s ∧ front = [] := by
  constructor
  · rintro rfl
    by_cases hc : c ∈ s
    · obtain ⟨after, before, hs, hafter⟩ :=
        List.eq_append_cons_of_mem (List.mem_reverse.2 hc)
      have hsplit : s = before.reverse ++ c :: after.reverse := by
        rw [← List.reverse_reverse s, hs]
        simp
      have hback : c ∉ after.reverse := by simpa using hafter
      refine .inl ⟨after.reverse, ?_, hback⟩
      rw [hsplit, beforeLast_append_cons hback]
    · exact .inr ⟨hc, beforeLast_of_not_mem hc⟩
  · rintro (⟨back, rfl, hback⟩ | ⟨hc, rfl⟩)
    · exact beforeLast_append_cons hback
    · exact beforeLast_of_not_mem hc

end Text

namespace Definition

/-- The space is the part of the full name before its last `#`, or empty if there is none. -/
def LiesIn (d : Definition) (space : String) : Prop :=
  (∃ name, d.fullName.toList = space.toList ++ '#' :: name ∧ '#' ∉ name) ∨
    '#' ∉ d.fullName.toList ∧ space = ""

theorem liesIn_iff {d : Definition} {space : String} :
    d.LiesIn space ↔ Text.beforeLast '#' d.fullName.toList = space.toList := by
  rw [Text.beforeLast_eq_iff, LiesIn, String.toList_eq_nil_iff]

end Definition

/-- At this moment a controller is closed in which the method stands, recorded and public. -/
def Moment.Routes (m : Moment) (d : Definition) : Prop :=
  ∃ c, m.event = .closed c ∧ c.kind = .classDef ∧ Plugin.endsWith "Controller" c.name = true ∧
    d.LiesIn c.fullName ∧ ∃ e ∈ m.index.listing, e.Alike d ∧ e.visibility = .pub

namespace Definition

/-- The reasons to ignore a definition, with the plugins of a chain and what they were told. -/
inductive Excused (plugins : List Plugin) (trace : List Moment) (d : Definition) : Prop
  | byName {p : Plugin} (hk : d.kind = .methodDef ∨ d.kind = .singletonDef) (hp : p ∈ plugins)
    (hc : p.descriptor.covers d.name = true) : Excused plugins trace d
  | asTest (hk : d.kind = .classDef) (hp : .minitest ∈ plugins)
    (hn : Plugin.endsWith "Test" d.name = true) : Excused plugins trace d
  | asAction {m : Moment} (hk : d.kind = .methodDef) (hp : .actionPack ∈ plugins)
    (hm : m ∈ trace) (hr : m.Routes d) : Excused plugins trace d

variable {plugins : List Plugin} {trace moments : List Moment} {d e : Definition}

theorem Alike.routes (h : d.Alike e) {m : Moment} (hm : m.Routes d) : m.Routes e := by
  obtain ⟨c, hevent, hkind, hname, hlies, a, ha, halike, hvisible⟩ := hm
  have hfull : d.fullName = e.fullName := (same_iff.1 h.2).2.1
  refine ⟨c, hevent, hkind, hname, ?_, a, ha, halike.trans h, hvisible⟩
  rwa [LiesIn, ← hfull]

theorem Alike.excused (h : d.Alike e) (hd : d.Excused plugins trace) :
    e.Excused plugins trace := by
  cases hd with
  | byName hk hp hc => exact .byName (h.kind_eq ▸ hk) hp (h.1 ▸ hc)
  | asTest hk hp hn => exact .asTest (h.kind_eq ▸ hk) hp (h.1 ▸ hn)
  | asAction hk hp hm hr => exact .asAction (h.kind_eq ▸ hk) hp hm (h.routes hr)

theorem Excused.mono (h : d.Excused plugins trace) (hsub : trace ⊆ moments) :
    d.Excused plugins moments := by
  cases h with
  | byName hk hp hc => exact .byName hk hp hc
  | asTest hk hp hn => exact .asTest hk hp hn
  | asAction hk hp hm hr => exact .asAction hk hp (hsub hm) hr

/-- Later moments can only add actions. -/
theorem excused_append : d.Excused plugins (trace ++ moments) ↔ d.Excused plugins trace ∨
    d.kind = .methodDef ∧ .actionPack ∈ plugins ∧ ∃ m ∈ moments, m.Routes d := by
  constructor
  · intro h
    cases h with
    | byName hk hp hc => exact .inl (.byName hk hp hc)
    | asTest hk hp hn => exact .inl (.asTest hk hp hn)
    | @asAction m hk hp hm hr =>
        rcases List.mem_append.1 hm with hm | hm
        · exact .inl (.asAction hk hp hm hr)
        · exact .inr ⟨hk, hp, m, hm, hr⟩
  · rintro (h | ⟨hk, hp, m, hm, hr⟩)
    · exact h.mono (List.subset_append_left _ _)
    · exact .asAction hk hp (List.mem_append_right _ hm) hr

theorem excused_append_of_not_routes (h : ∀ m ∈ moments, ¬ m.Routes d) :
    d.Excused plugins (trace ++ moments) ↔ d.Excused plugins trace := by
  rw [excused_append, or_iff_left]
  rintro ⟨_, _, m, hm, hr⟩
  exact h m hm hr

/-- Plugins ignore what they are told of for its name only. -/
theorem any_ignores_iff : plugins.any (·.ignores d) = true ↔ d.Excused plugins [] := by
  rw [List.any_eq_true]
  constructor
  · rintro ⟨p, hp, h⟩
    unfold Plugin.ignores at h
    split at h
    · exact .byName (.inl ‹_›) hp h
    · exact .byName (.inr ‹_›) hp h
    · split at h
      · exact .asTest ‹_› hp h
      · cases h
    · cases h
  · intro h
    cases h with
    | byName hk hp hc =>
        refine ⟨_, hp, ?_⟩
        rcases hk with hk | hk <;> simpa [Plugin.ignores, hk] using hc
    | asTest hk hp hn => exact ⟨_, hp, by simpa [Plugin.ignores, hk] using hn⟩
    | asAction hk hp hm hr => cases hm

end Definition

theorem Moment.not_routes {m : Moment} {d : Definition} (h : ∀ c, m.event ≠ .closed c) :
    ¬ m.Routes d := by
  rintro ⟨c, hevent, _⟩
  exact h c hevent

/-- The closing of a class makes exactly those records actions that it routes. -/
theorem Index.Tidy.any_isAction_iff {x : Index} (hx : x.Tidy) {plugins : List Plugin}
    {c d : Definition} (hd : d ∈ x.definitions.values) :
    plugins.any (·.isAction c d) = true ↔ d.kind = .methodDef ∧ .actionPack ∈ plugins ∧
      Moment.Routes ⟨.closed c, x⟩ d := by
  rw [List.any_eq_true]
  constructor
  · rintro ⟨p, hp, haction⟩
    cases p with
    | actionPack =>
        simp only [Plugin.isAction, Bool.and_eq_true, decide_eq_true_eq] at haction
        obtain ⟨⟨⟨⟨hclass, hname⟩, hkind⟩, hvisible⟩, hfull⟩ := haction
        exact ⟨hkind, hp, c, rfl, hclass, hname, Definition.liesIn_iff.2 hfull, d,
          Index.mem_listing.2 hd, .refl d, hvisible⟩
    | _ => simp [Plugin.isAction] at haction
  · rintro ⟨hkind, hp, c', hevent, hclass, hname, hlies, e, he, halike, hvisible⟩
    cases hevent
    -- the record that was public then is the one that stands there
    obtain rfl := hx.eq_of_alike (Index.mem_listing.1 he) hd halike
    refine ⟨_, hp, ?_⟩
    simp [Plugin.isAction, hclass, hname, hkind, hvisible, Definition.liesIn_iff.1 hlies]

theorem Walk.ignored_judged_iff {plugins : List Plugin} {d : Definition}
    (h : d.ignored = false) :
    (Walk.judged plugins d).ignored = true ↔ plugins.any (·.ignores d) = true := by
  rw [Walk.judged_eq]
  split
  · rename_i hany
    exact iff_of_true rfl hany
  · rename_i hany
    exact iff_of_false (by simp [h]) hany

namespace Deed

variable {setting : Walk.Setting} {x : Index}

theorem exists_alike_change (hx : x.Tidy) (e : Deed) {d : Definition}
    (h : d ∈ x.definitions.values) :
    ∃ c ∈ (e.change setting x).definitions.values, c.Alike d := by
  obtain ⟨c, hc, halike⟩ : ∃ c ∈ (e.change setting x).definitions.get d.name, c.Alike d :=
    exists_mem_get_change (hx.definitions.mem_values.1 h)
  exact ⟨c, Buckets.mem_values_of_mem_get hc, halike⟩

/-- What is recorded when a deed is announced is recorded afterwards. -/
theorem exists_alike_of_mem_moments (hx : x.Tidy) {e : Deed} {m : Moment}
    (hm : m ∈ e.moments setting x) {d : Definition} (hd : d ∈ m.index.definitions.values) :
    ∃ c ∈ (e.change setting x).definitions.values, c.Alike d := by
  cases e with
  | refer | remark => cases hm
  | send s | close c =>
      rw [List.mem_singleton.1 hm] at hd
      exact exists_alike_change hx _ hd
  | define c =>
      rw [List.mem_singleton.1 hm] at hd
      rcases Buckets.of_mem_values_insert hd with hd | rfl
      · exact exists_alike_change hx _ hd
      · obtain ⟨b, hb, halike⟩ :
            ∃ b ∈ ((Deed.define d).change setting x).definitions.get d.name, b.Alike d :=
          exists_mem_get_define x d hx
        exact ⟨b, Buckets.mem_values_of_mem_get hb, halike⟩

end Deed

/-- Every record lies in the file of the walk, everything recorded at a past moment is still
recorded, and what is ignored is ignored for a reason. -/
structure Accounted (setting : Walk.Setting) (x : Index) (trace : List Moment) : Prop where
  tidy : x.Tidy
  file : ∀ d ∈ x.definitions.values, d.location.file = setting.path
  kept : ∀ m ∈ trace, ∀ e ∈ m.index.definitions.values, ∃ d ∈ x.definitions.values, d.Alike e
  ignored_iff : ∀ d ∈ x.definitions.values,
    d.ignored = true ↔ d.Excused setting.plugins trace

namespace Accounted

variable {setting : Walk.Setting} {x : Index} {trace : List Moment}

theorem empty (setting : Walk.Setting) : Accounted setting {} [] where
  tidy := .empty
  file := by simp
  kept := by simp
  ignored_iff := by simp

section Step

variable (h : Accounted setting x trace)
include h

/-- A definition that is new in the index was no action at any past moment. -/
theorem not_routes_of_new {c : Definition}
    (hnew : (x.definitions.get c.name).any c.same = false) : ∀ m ∈ trace, ¬ m.Routes c := by
  rintro m hm ⟨_, _, _, _, _, e, he, halike, _⟩
  obtain ⟨d, hd, hde⟩ := h.kept m hm e (Index.mem_listing.1 he)
  have hdc := hde.trans halike
  rw [h.tidy.definitions.mem_values, hdc.1] at hd
  have hany : (x.definitions.get c.name).any c.same = true :=
    List.any_eq_true.2 ⟨d, hd, hdc.symm.2⟩
  rw [hnew] at hany
  cases hany

theorem ignored_iff_define {c d : Definition} (hc : c.ignored = false)
    (hd : d ∈ ((Deed.define c).change setting x).definitions.values) :
    d.ignored = true ↔ d.Excused setting.plugins trace := by
  have htidy := h.tidy.change setting (.define c)
  have halike := Walk.alike_judged setting.plugins c
  rw [htidy.definitions.mem_values, Deed.change, Index.addDefinition, Buckets.get_insert] at hd
  split at hd
  · rename_i hname
    rcases Buckets.mem_addTo.1 hd with hd | ⟨rfl, hnew⟩
    · exact h.ignored_iff d (Buckets.mem_values_of_mem_get hd)
    · have htold : (Walk.judged setting.plugins c).Excused setting.plugins ([] ++ trace) ↔
          (Walk.judged setting.plugins c).Excused setting.plugins [] :=
        Definition.excused_append_of_not_routes (h.not_routes_of_new hnew)
      rw [Walk.ignored_judged_iff hc, Definition.any_ignores_iff, ← List.nil_append trace, htold]
      exact ⟨halike.symm.excused, halike.excused⟩
  · exact h.ignored_iff d (Buckets.mem_values_of_mem_get hd)

theorem ignored_iff_remark {visibility : Visibility} {name fullName : String} {d : Definition}
    (hd : d ∈ ((Deed.remark visibility name fullName).change setting x).definitions.values) :
    d.ignored = true ↔ d.Excused setting.plugins trace := by
  rw [Deed.change, Buckets.mapAt_eq_mapWith] at hd
  obtain ⟨key, a, ha, rfl⟩ := Buckets.exists_of_mem_values_mapWith hd
  have hmarked : (a.mark visibility).ignored = true ↔
      (a.mark visibility).Excused setting.plugins trace := by
    have halike := Definition.alike_mark visibility a
    exact (h.ignored_iff a ha).trans ⟨halike.symm.excused, halike.excused⟩
  by_cases hk : key = name
  · simp only [hk, if_true]
    split
    · exact hmarked
    · exact h.ignored_iff a ha
  · simp only [hk, if_false]
    exact h.ignored_iff a ha

theorem ignored_iff_close {c d : Definition}
    (hd : d ∈ ((Deed.close c).change setting x).definitions.values) :
    d.ignored = true ↔ d.Excused setting.plugins
      (trace ++ [⟨.closed (Walk.judged setting.plugins c), x⟩]) := by
  rw [Deed.change, Buckets.map_eq_mapWith] at hd
  obtain ⟨_, a, ha, rfl⟩ := Buckets.exists_of_mem_values_mapWith hd
  have hroutes : a.Excused setting.plugins
        (trace ++ [⟨.closed (Walk.judged setting.plugins c), x⟩]) ↔
      a.ignored = true ∨
        setting.plugins.any (·.isAction (Walk.judged setting.plugins c) a) = true := by
    rw [Definition.excused_append, h.ignored_iff a ha, h.tidy.any_isAction_iff ha]
    simp
  simp only [h.file a ha, decide_true, Bool.true_and]
  split
  · rename_i haction
    refine iff_of_true rfl ?_
    exact (Definition.alike_ignore a).symm.excused (hroutes.2 (.inr haction))
  · rename_i haction
    rw [hroutes]
    exact ⟨.inl, fun hor => hor.resolve_right haction⟩

theorem ignored_iff_change {e : Deed} (hfresh : ∀ c, e = .define c → c.ignored = false)
    {d : Definition} (hd : d ∈ (e.change setting x).definitions.values) :
    d.ignored = true ↔ d.Excused setting.plugins (trace ++ e.moments setting x) := by
  cases e with
  | refer name location =>
      simp only [Deed.moments, List.append_nil]
      exact h.ignored_iff d hd
  | send s =>
      have huse : (Deed.send s).IsUse := trivial
      rw [huse.change_definitions] at hd
      rw [Definition.excused_append_of_not_routes, h.ignored_iff d hd]
      intro m hm
      rw [List.mem_singleton.1 hm]
      exact Moment.not_routes (by simp)
  | define c =>
      rw [Definition.excused_append_of_not_routes, h.ignored_iff_define (hfresh c rfl) hd]
      intro m hm
      rw [List.mem_singleton.1 hm]
      exact Moment.not_routes (by simp)
  | remark visibility name fullName =>
      simp only [Deed.moments, List.append_nil]
      exact h.ignored_iff_remark hd
  | close c => exact h.ignored_iff_close hd

theorem change (e : Deed)
    (he : ∀ c, e = .define c → c.location.file = setting.path ∧ c.ignored = false) :
    Accounted setting (e.change setting x) (trace ++ e.moments setting x) where
  tidy := h.tidy.change setting e
  file := by
    intro d hd
    rw [(h.tidy.change setting e).definitions.mem_values] at hd
    rcases Deed.of_mem_get_change hd with ⟨c, hc, halike⟩ | ⟨c, rfl, halike⟩
    · rw [halike.location_eq, h.file c (Buckets.mem_values_of_mem_get hc)]
    · rw [halike.location_eq, (he c rfl).1]
  kept := by
    intro m hm d hd
    rcases List.mem_append.1 hm with hm | hm
    · obtain ⟨c, hc, hcd⟩ := h.kept m hm d hd
      obtain ⟨b, hb, hbc⟩ := Deed.exists_alike_change h.tidy e hc
      exact ⟨b, hb, hbc.trans hcd⟩
    · exact Deed.exists_alike_of_mem_moments h.tidy hm hd
  ignored_iff := fun d hd => h.ignored_iff_change (fun c hc => (he c hc).2) hd

theorem changeAll (ds : List Deed)
    (hds : ∀ c, .define c ∈ ds → c.location.file = setting.path ∧ c.ignored = false) :
    Accounted setting (Deed.changeAll setting x ds) (trace ++ Deed.momentsAll setting x ds) := by
  induction ds generalizing x trace with
  | nil => simpa [Deed.momentsAll] using h
  | cons e rest ih =>
      have hstep := h.change e (by rintro c rfl; exact hds c List.mem_cons_self)
      rw [Deed.changeAll_cons, Deed.momentsAll, ← List.append_assoc]
      exact ih hstep fun c hc => hds c (List.mem_cons_of_mem _ hc)

end Step
end Accounted

namespace Walk

/-- A whole walk leaves every mark accounted for. -/
theorem accounted_run (src : Source) (plugins : List Plugin) (root : Syntax.Node) :
    Accounted ⟨src.path, plugins⟩ (run src plugins root).index
      (run src plugins root).trace.reverse := by
  rw [run_index, run_trace, List.reverse_reverse]
  have hstart := Accounted.empty ⟨src.path, plugins⟩
  apply hstart.changeAll (fileDeeds src root)
  intro c hc
  obtain ⟨n, s, _, hdef⟩ := Source.exists_defines hc
  exact ⟨hdef.file_eq, hdef.ignored_eq⟩

/-- A recorded definition is ignored exactly if there is a reason to; modules, accessors and
constants never are. -/
theorem ignored_iff_excused (src : Source) (plugins : List Plugin) (root : Syntax.Node)
    (d : Definition) (h : d ∈ (run src plugins root).index.listing) :
    (d.ignored = true ↔ d.Excused plugins (run src plugins root).trace) ∧
      (d.kind = .accessorDef ∨ d.kind = .constantDef ∨ d.kind = .moduleDef →
        d.ignored = false) := by
  have hiff : d.ignored = true ↔ d.Excused plugins (run src plugins root).trace := by
    rw [(accounted_run src plugins root).ignored_iff d (Index.mem_listing.1 h)]
    exact ⟨fun he => he.mono fun m => List.mem_reverse.1,
      fun he => he.mono fun m => List.mem_reverse.2⟩
  refine ⟨hiff, fun hkind => ?_⟩
  cases hd : d.ignored with
  | false => rfl
  | true =>
      have hignorable := isIgnorable_of_mem_run (Index.mem_listing.1 h) hd
      rcases hkind with hkind | hkind | hkind <;> rw [hkind] at hignorable <;> cases hignorable

/-- The two methods of a controller: the one before the word `private`, and the one after it. -/
def publicAction : Definition :=
  ⟨.methodDef, "a", "XController#a", ⟨"a.rb", 2, 2, 2, 12⟩, .pub, true⟩

def privateHelper : Definition :=
  ⟨.methodDef, "a", "XController#a", ⟨"a.rb", 4, 2, 4, 12⟩, .priv, false⟩

theorem ignored_iff_excused_controller :
    publicAction ∈ (run ⟨"a.rb", Analysis.controller⟩ [.ruby, .actionPack]
        Analysis.controllerTree).index.listing ∧
      publicAction.Excused [.ruby, .actionPack] (run ⟨"a.rb", Analysis.controller⟩
        [.ruby, .actionPack] Analysis.controllerTree).trace ∧
      privateHelper ∈ (run ⟨"a.rb", Analysis.controller⟩ [.ruby, .actionPack]
        Analysis.controllerTree).index.listing ∧
      ¬ privateHelper.Excused [.ruby, .actionPack] (run ⟨"a.rb", Analysis.controller⟩
        [.ruby, .actionPack] Analysis.controllerTree).trace := by
  have hpublic : publicAction ∈ (run ⟨"a.rb", Analysis.controller⟩ [.ruby, .actionPack]
      Analysis.controllerTree).index.listing := by
    rw [Index.mem_listing]
    decide +kernel
  have hprivate : privateHelper ∈ (run ⟨"a.rb", Analysis.controller⟩ [.ruby, .actionPack]
      Analysis.controllerTree).index.listing := by
    rw [Index.mem_listing]
    decide +kernel
  refine ⟨hpublic, (ignored_iff_excused _ _ _ _ hpublic).1.1 rfl, hprivate, fun hexcused => ?_⟩
  have hignored := (ignored_iff_excused _ _ _ _ hprivate).1.2 hexcused
  cases hignored

end Walk
end Fallow
