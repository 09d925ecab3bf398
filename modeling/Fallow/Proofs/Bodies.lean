import Fallow.Proofs.Events
import Fallow.Proofs.Lockstep
import Fallow.Proofs.MethodBody

/-!
# Open bodies

A visit closes every namespace and body that it opens: afterwards the walk is where it was, and
only the visibility in force there may have changed. A class or module starts with a visibility of
its own. So what its children record does not depend on the visibilities around it, and the
visibilities around it do not depend on its children.
-/

namespace Fallow

open Syntax

theorem filter_eq_of_forall₂ {α : Type} {R : α → α → Prop} {l l' : List α} {p q : α → Bool}
    (hR : ∀ a b, R a b → p a = q b ∧ (p a = true → a = b)) (h : List.Forall₂ R l l') :
    l.filter p = l'.filter q := by
  induction h with
  | nil => rfl
  | @cons a b l l' hab _ ih =>
      obtain ⟨hpq, heq⟩ := hR a b hab
      by_cases hp : p a = true
      · rw [List.filter_cons_of_pos hp, List.filter_cons_of_pos (hpq ▸ hp), ih, heq hp]
      · rw [List.filter_cons_of_neg hp, List.filter_cons_of_neg (hpq ▸ hp), ih]

theorem Buckets.Rel.imp_of_mem {α : Type} {R S : α → α → Prop} {b b' : Buckets α}
    (hRS : ∀ a ∈ b.values, ∀ c, R a c → S a c) (h : b.Rel R b') : b.Rel S b' := by
  have hgroups : ∀ g ∈ b.groups, ∀ a ∈ g.2, ∀ c, R a c → S a c :=
    fun g hg a ha => hRS a (List.mem_flatMap.2 ⟨g, hg, ha⟩)
  refine ((List.forall₂_and_left _ _).2 ⟨hgroups, h⟩).imp ?_
  rintro g g' ⟨hg, hkey, hrel⟩
  exact ⟨hkey, ((List.forall₂_and_left _ _).2 ⟨hg, hrel⟩).imp fun a c hac => hac.1 c hac.2⟩

namespace Definition

instance : DecidableRel Definition.Alike := fun a b =>
  inferInstanceAs (Decidable (a.name = b.name ∧ a.same b = true))

theorem Alike.compare_eq {a b c d : Definition} (hab : a.Alike b) (hcd : c.Alike d) :
    a.compare c = b.compare d := by
  unfold Definition.compare
  rw [hab.location_eq, hab.kind_eq, hab.fullName_eq, hcd.location_eq, hcd.kind_eq, hcd.fullName_eq]

theorem exists_alike_iff {l l' : List Definition} (h : List.Forall₂ Definition.Alike l l')
    {a b : Definition} (hab : a.Alike b) : (∃ c ∈ l, c.Alike a) ↔ ∃ c ∈ l', c.Alike b := by
  induction h with
  | nil => simp
  | @cons d e l l' hde _ ih =>
      have hhead : d.Alike a ↔ e.Alike b :=
        ⟨fun hda => hde.symm.trans (hda.trans hab), fun heb => hde.trans (heb.trans hab.symm)⟩
      simp [hhead, ih]

/-- Equal, but for visibility and mark of the definitions that are known already. -/
def AgreesBeyond (known : Definition → Prop) (a b : Definition) : Prop :=
  (known a ∨ a = b) ∧ a.Alike b

end Definition

namespace Index

/-- The definitions of an index that are not among those of an earlier one. -/
def since (x earlier : Index) : List Definition :=
  x.listing.filter fun d => ∀ c ∈ earlier.listing, ¬ c.Alike d

end Index

namespace Deed

/-- The same deed, whatever the visibility in which definitions are recorded. -/
inductive Alike : Deed → Deed → Prop
  | refl (d : Deed) : Alike d d
  | define {d e : Definition} (h : d.Alike e) : Alike (.define d) (.define e)
  | close {d e : Definition} (h : d.Alike e) : Alike (.close d) (.close e)

theorem forall₂_alike_refl (ds : List Deed) : List.Forall₂ Alike ds ds :=
  List.forall₂_same.2 fun d _ => .refl d

variable {setting : Walk.Setting} {x y : Index}

theorem exists_retouch (setting : Walk.Setting) {d : Deed} (h : ∀ e, d ≠ .define e) :
    ∃ f, Retouch setting.path f ∧
      ∀ x, (d.change setting x).definitions = x.definitions.mapWith f := by
  rcases change_definitions setting d with ⟨e, he, _⟩ | ⟨_, hf⟩
  · exact absurd he (h e)
  · exact hf

theorem rel_alike_define {d e : Definition} (h : d.Alike e)
    (hxy : x.definitions.Rel Definition.Alike y.definitions) :
    ((Deed.define d).change setting x).definitions.Rel Definition.Alike
      ((Deed.define e).change setting y).definitions := by
  have hjudged : (Walk.judged setting.plugins d).Alike (Walk.judged setting.plugins e) :=
    (Walk.alike_judged _ d).trans (h.trans (Walk.alike_judged _ e).symm)
  simp only [change, Index.addDefinition]
  rw [hjudged.1]
  exact hxy.insert (fun _ _ _ _ ha hc => ha.same_eq hc) _ hjudged

theorem rel_alike_retouch {d e : Deed} (hd : ∀ c, d ≠ .define c) (he : ∀ c, e ≠ .define c)
    (hxy : x.definitions.Rel Definition.Alike y.definitions) :
    (d.change setting x).definitions.Rel Definition.Alike (e.change setting y).definitions := by
  obtain ⟨f, hf, hfx⟩ := exists_retouch setting hd
  obtain ⟨g, hg, hgy⟩ := exists_retouch setting he
  rw [hfx, hgy]
  apply hxy.mapWith
  intro key a b hab
  exact (hf.alike key a).trans (hab.trans (hg.alike key b).symm)

theorem Alike.rel_change {d e : Deed} (h : d.Alike e)
    (hxy : x.definitions.Rel Definition.Alike y.definitions) :
    (d.change setting x).definitions.Rel Definition.Alike (e.change setting y).definitions := by
  cases h with
  | refl =>
      cases d with
      | define d => exact rel_alike_define (.refl d) hxy
      | _ => exact rel_alike_retouch (by simp) (by simp) hxy
  | define h => exact rel_alike_define h hxy
  | close h => exact rel_alike_retouch (by simp) (by simp) hxy

/-- Deeds that differ in visibilities leave definitions that differ in visibilities and marks. -/
theorem rel_alike_changeAll {ds es : List Deed} (h : List.Forall₂ Alike ds es)
    (hxy : x.definitions.Rel Definition.Alike y.definitions) :
    (changeAll setting x ds).definitions.Rel Definition.Alike
      (changeAll setting y es).definitions := by
  induction h generalizing x y with
  | nil => exact hxy
  | cons hde _ ih => exact ih (hde.rel_change hxy)

variable {known : Definition → Prop}

theorem rel_agreesBeyond_change (hknown : ∀ a b, a.Alike b → known a → known b) (d : Deed)
    (hxy : x.definitions.Rel (Definition.AgreesBeyond known) y.definitions) :
    (d.change setting x).definitions.Rel (Definition.AgreesBeyond known)
      (d.change setting y).definitions := by
  rcases change_definitions setting d with ⟨e, _, he⟩ | ⟨_, f, hf, hfx⟩
  · rw [he, he]
    exact hxy.insert (fun _ _ _ _ ha hc => ha.2.same_eq hc.2) _ ⟨.inr rfl, .refl _⟩
  · rw [hfx, hfx]
    apply hxy.mapWith
    rintro key a b ⟨hor, hab⟩
    refine ⟨?_, (hf.alike key a).trans (hab.trans (hf.alike key b).symm)⟩
    rcases hor with ha | rfl
    · exact .inl (hknown a _ (hf.alike key a).symm ha)
    · exact .inr rfl

theorem rel_agreesBeyond_changeAll (hknown : ∀ a b, a.Alike b → known a → known b)
    (hxy : x.definitions.Rel (Definition.AgreesBeyond known) y.definitions) (ds : List Deed) :
    (changeAll setting x ds).definitions.Rel (Definition.AgreesBeyond known)
      (changeAll setting y ds).definitions := by
  induction ds generalizing x y with
  | nil => exact hxy
  | cons d rest ih => exact ih (rel_agreesBeyond_change hknown d hxy)

/-- The same deeds on top of indexes that differ in visibilities and marks add the same
definitions. -/
theorem since_changeAll (hxy : x.definitions.Rel Definition.Alike y.definitions)
    (ds : List Deed) :
    (changeAll setting x ds).since x = (changeAll setting y ds).since y := by
  let known : Definition → Prop := fun a => ∃ c ∈ x.listing, c.Alike a
  have hknown : ∀ a b, a.Alike b → known a → known b :=
    fun a b hab ⟨c, hc, hca⟩ => ⟨c, hc, hca.trans hab⟩
  have hstart : x.definitions.Rel (Definition.AgreesBeyond known) y.definitions :=
    hxy.imp_of_mem fun a ha b hab => ⟨.inl ⟨a, Index.mem_listing.2 ha, .refl a⟩, hab⟩
  have hend : (changeAll setting x ds).definitions.Rel (Definition.AgreesBeyond known)
      (changeAll setting y ds).definitions := rel_agreesBeyond_changeAll hknown hstart ds
  have hlisting : List.Forall₂ Definition.Alike x.listing y.listing :=
    forall₂_sortedBy (fun _ _ _ _ ha hb => ha.compare_eq hb) hxy.values
  apply filter_eq_of_forall₂ _
    (forall₂_sortedBy (fun _ _ _ _ ha hb => ha.2.compare_eq hb.2) hend.values)
  rintro a b ⟨hor, hab⟩
  have hiff : known a ↔ ∃ c ∈ y.listing, c.Alike b := Definition.exists_alike_iff hlisting hab
  constructor
  · rw [decide_eq_decide]
    simpa [known] using not_congr hiff
  · intro hnew
    rcases hor with ⟨c, hc, hca⟩ | heq
    · exact absurd hca (of_decide_eq_true hnew c hc)
    · exact heq

end Deed

namespace Act

theorem fillAll_append (f : Bool → Node → List Act) (inMethod : Bool) (acts rest : List Act) :
    fillAll f inMethod (acts ++ rest) = fillAll f inMethod acts ++ fillAll f inMethod rest := by
  simp only [fillAll_eq_map, List.map_append]

mutual

/-- The visibility in force changes how an act records definitions and nothing else. -/
theorem deeds_withMode (mode : Visibility) : ∀ (a : Act) (s : Scope),
    List.Forall₂ Deed.Alike (a.deeds s) (a.deeds (s.withMode mode))
  | .visit _ acts, s => deedsAll_withMode mode acts s
  | .refer _ _, _ | .send _, _ | .declare _, _ | .remark _ _, _ | .inline _ _, _
  | .singletonBody _, _ => Deed.forall₂_alike_refl _
  | .constant _ _ _, _ | .accessor _ _, _ | .method _ _ _, _ =>
      .cons (.define ⟨rfl, Definition.same_refl _⟩) .nil
  | .methodBody acts, s => deedsAll_withMode mode acts s
  | .enclosure _ _ qualified _ acts, s =>
      .cons (.define ⟨rfl, Definition.same_refl _⟩)
        (List.rel_append (Deed.forall₂_alike_refl (deedsAll acts ⟨qualified :: s.nesting, {}⟩))
          (.cons (.close ⟨rfl, Definition.same_refl _⟩) .nil))

theorem deedsAll_withMode (mode : Visibility) : ∀ (acts : List Act) (s : Scope),
    List.Forall₂ Deed.Alike (deedsAll acts s) (deedsAll acts (s.withMode mode))
  | [], _ => .nil
  | a :: rest, s =>
      List.rel_append (deeds_withMode mode a s)
        (deedsAll_withMode (modeAfter a mode) rest (s.withMode (modeAfter a s.body.mode)))

end

end Act

namespace Walk

/-- The visibilities of the open bodies, the innermost first. -/
def modes (w : Walk) : List Visibility :=
  (w.body :: w.outer).map (·.mode)

/-- For each open body, the innermost first, whether its methods belong to the object itself. -/
def singletons (w : Walk) : List Bool :=
  (w.body :: w.outer).map (·.singleton)

/-- A later walk is in the same place; only the visibility in force may be another. -/
structure Level (w later : Walk) : Prop where
  nesting : later.nesting = w.nesting
  singletons : later.singletons = w.singletons
  methodDepth : later.methodDepth = w.methodDepth
  length_modes : later.modes.length = w.modes.length
  modes_below : later.modes.tail = w.modes.tail

/-- Two walks differ at most in their visibilities and in what they have announced. -/
structure AgreesButModes (w w' : Walk) : Prop where
  nesting : w.nesting = w'.nesting
  singletons : w.singletons = w'.singletons
  methodDepth : w.methodDepth = w'.methodDepth
  index : w.index = w'.index

variable {src : Source} {plugins : List Plugin} {n name : Node} {w w' : Walk}

theorem Level.refl (w : Walk) : Level w w :=
  ⟨rfl, rfl, rfl, rfl, rfl⟩

theorem Level.trans {u v : Walk} (h : Level w u) (h' : Level u v) : Level w v :=
  ⟨h'.nesting.trans h.nesting, h'.singletons.trans h.singletons,
    h'.methodDepth.trans h.methodDepth, h'.length_modes.trans h.length_modes,
    h'.modes_below.trans h.modes_below⟩

theorem level_visit (src : Source) (plugins : List Plugin) (n : Node) (w : Walk) :
    Level w (visit src plugins n w) := by
  rw [visit, act_eq]
  exact ⟨rfl, rfl, rfl, rfl, rfl⟩

/-- Visits nodes one after the other. -/
def visitAll (src : Source) (plugins : List Plugin) (ns : List Node) (w : Walk) : Walk :=
  ns.foldl (fun w n => visit src plugins n w) w

theorem visitAll_append (ns rest : List Node) (w : Walk) :
    visitAll src plugins (ns ++ rest) w =
      visitAll src plugins rest (visitAll src plugins ns w) :=
  List.foldl_append

theorem level_visitAll (ns : List Node) (w : Walk) : Level w (visitAll src plugins ns w) := by
  induction ns generalizing w with
  | nil => exact .refl w
  | cons n rest ih => exact (level_visit src plugins n w).trans (ih _)

theorem actAll_append (setting : Setting) (acts rest : List Act) (w : Walk) :
    actAll setting (acts ++ rest) w = actAll setting rest (actAll setting acts w) := by
  induction acts generalizing w with
  | nil => rfl
  | cons a acts ih => exact ih _

theorem actAll_walkAll (src : Source) (plugins : List Plugin) (ns : List Node) (w : Walk)
    (h : w.methodDepth = 0) :
    actAll ⟨src.path, plugins⟩ (Act.fillAll src.outline false (Source.walkAll ns)) w =
      visitAll src plugins ns w := by
  induction ns generalizing w with
  | nil => rfl
  | cons n rest ih =>
      have hvisit : act ⟨src.path, plugins⟩ (Act.fill src.outline false (.walk n)) w =
          visit src plugins n w := by
        rw [visit, h]
        rfl
      have hdepth : (visit src plugins n w).methodDepth = 0 :=
        (level_visit src plugins n w).methodDepth.trans h
      exact (congrArg _ hvisit).trans (ih _ hdepth)

/-- A class or module is recorded, after the scope of its name has been visited, and its body is
opened. -/
def enter (src : Source) (plugins : List Plugin) (kind : NamespaceKind) (n name : Node)
    (w : Walk) : Definition × Walk :=
  let w := visitAll src plugins (Source.scopeOf name).toList w
  let qualified := src.bareText name
  let (d, w) := w.define ⟨src.path, plugins⟩ kind.definitionKind (src.bareName qualified name)
    (w.qualifyConstant qualified) (src.location n)
  (d, enterBody false { w with nesting := qualified :: w.nesting })

/-- The body of a class or module is closed. -/
def leave (src : Source) (plugins : List Plugin) (d : Definition) (w : Walk) : Walk :=
  close ⟨src.path, plugins⟩ d { w.exitBody with nesting := w.exitBody.nesting.tail }

theorem visit_namespace {kind : NamespaceKind} (hk : n.kind = kind.nodeKind)
    (hname : n.field? .name = some name) (h : w.methodDepth = 0) :
    visit src plugins n w = leave src plugins (enter src plugins kind n name w).1
      (visitAll src plugins (n.namedExcept [name]) (enter src plugins kind n name w).2) := by
  have hplan : src.plan false n = Source.walkAll (Source.scopeOf name).toList ++
      [.enclosure kind (src.bareName (src.bareText name) name) (src.bareText name)
        (src.location n) (Source.walkAll (n.namedExcept [name]))] := by
    have hwalk : Act.walk? (Source.scopeOf name) =
        Source.walkAll (Source.scopeOf name).toList := by
      cases Source.scopeOf name <;> rfl
    cases kind <;>
      simp [Source.plan, hk, NamespaceKind.nodeKind, Source.planNamespace, hname, hwalk]
  have hin : decide (w.methodDepth ≠ 0) = false := by simp [h]
  rw [visit, act, hin, Source.outline_eq, hplan, Act.fillAll_append, actAll_append,
    actAll_walkAll _ _ _ _ h]
  have hinside : (enter src plugins kind n name w).2.methodDepth = 0 :=
    (level_visitAll _ w).methodDepth.trans h
  rw [← actAll_walkAll _ _ _ _ hinside]
  rfl

/-- The deeds of nodes that are visited one after the other outside methods. -/
def deedsOf (src : Source) (ns : List Node) (s : Scope) : List Deed :=
  Act.deedsAll (Act.fillAll src.outline false (Source.walkAll ns)) s

theorem index_visitAll (ns : List Node) (h : w.methodDepth = 0) :
    (visitAll src plugins ns w).index =
      Deed.changeAll ⟨src.path, plugins⟩ w.index (deedsOf src ns w.scope) := by
  rw [← actAll_walkAll _ _ _ _ h, actAll_eq]
  rfl

theorem events_visitAll (ns : List Node) (h : w.methodDepth = 0) :
    (visitAll src plugins ns w).events =
      w.events ++ (deedsOf src ns w.scope).filterMap (Deed.event? plugins) := by
  have htrace : (visitAll src plugins ns w).trace =
      (Deed.momentsAll ⟨src.path, plugins⟩ w.index (deedsOf src ns w.scope)).reverse ++ w.trace := by
    rw [← actAll_walkAll _ _ _ _ h, actAll_eq]
    rfl
  simp only [events, htrace, List.reverse_append, List.reverse_reverse, List.map_append,
    Deed.map_event_momentsAll]

theorem AgreesButModes.scope_eq (h : w.AgreesButModes w') :
    w'.scope = w.scope.withMode w'.body.mode := by
  have hsingleton : w.body.singleton = w'.body.singleton := (List.cons.inj h.singletons).1
  simp only [scope, Scope.withMode, h.nesting, hsingleton]

theorem AgreesButModes.nesting_visitAll (h : w.AgreesButModes w') (ns : List Node) :
    (visitAll src plugins ns w).nesting = (visitAll src plugins ns w').nesting := by
  rw [(level_visitAll ns w).nesting, (level_visitAll ns w').nesting, h.nesting]

/-- Where a class or module is entered, two walks that differ in visibilities have indexes that do
not differ in more than visibilities and marks. -/
theorem AgreesButModes.rel_enter (h : w.AgreesButModes w') (hdepth : w.methodDepth = 0)
    (kind : NamespaceKind) (n name : Node) :
    (enter src plugins kind n name w).2.index.definitions.Rel Definition.Alike
      (enter src plugins kind n name w').2.index.definitions := by
  have hdepth' : w'.methodDepth = 0 := h.methodDepth.symm.trans hdepth
  have hscope : (visitAll src plugins (Source.scopeOf name).toList w).index.definitions.Rel
      Definition.Alike
      (visitAll src plugins (Source.scopeOf name).toList w').index.definitions := by
    rw [index_visitAll _ hdepth, index_visitAll _ hdepth', ← h.index, h.scope_eq]
    apply Deed.rel_alike_changeAll (Act.deedsAll_withMode _ _ _)
    exact List.forall₂_same.2 fun g _ => ⟨rfl, List.forall₂_same.2 fun d _ => .refl d⟩
  apply Deed.rel_alike_define _ hscope
  refine ⟨rfl, ?_⟩
  simp [Definition.same, qualifyConstant, h.nesting_visitAll]

theorem AgreesButModes.scope_enter (h : w.AgreesButModes w') (kind : NamespaceKind)
    (n name : Node) :
    (enter src plugins kind n name w).2.scope = (enter src plugins kind n name w').2.scope := by
  simp only [enter, define, enterBody, scope, h.nesting_visitAll]

theorem modes_exitBody (h : w.modes.tail ≠ []) : w.exitBody.modes = w.modes.tail := by
  unfold exitBody
  cases houter : w.outer with
  | nil => simp [modes, houter] at h
  | cons b outer => simp [modes, houter]

/-- The visibility around a class or module changes at most in the scope of its name. -/
theorem modes_visit_namespace {kind : NamespaceKind} (hk : n.kind = kind.nodeKind)
    (hname : n.field? .name = some name) (h : w.methodDepth = 0) :
    (visit src plugins n w).modes =
      (visitAll src plugins (Source.scopeOf name).toList w).modes := by
  let inside := (enter src plugins kind n name w).2
  have hbelow : (visitAll src plugins (n.namedExcept [name]) inside).modes.tail =
      (visitAll src plugins (Source.scopeOf name).toList w).modes :=
    (level_visitAll _ inside).modes_below
  rw [visit_namespace hk hname h, ← hbelow]
  apply modes_exitBody
  rw [hbelow]
  exact List.cons_ne_nil _ _

theorem definitions_visit_of_methodDepth_pos (h : 0 < w.methodDepth) :
    (visit src plugins n w).index.definitions = w.index.definitions := by
  have hin : decide (w.methodDepth ≠ 0) = true := by
    rw [decide_eq_true_eq]
    omega
  rw [visit, act_eq, hin]
  exact Deed.changeAll_definitions_of_isUse fun d => Source.isUse_of_mem_outline

/-- Every visit leaves the stacks of a walk as they were but for the visibility on top. The children
of a class or module, its name apart, record the same definitions whatever the visibilities
around it, and leave these alone; in a method they record nothing. -/
theorem visit_keeps_bodies (src : Source) (plugins : List Plugin) :
    (∀ n w, Level w (visit src plugins n w)) ∧
      ∀ (kind : NamespaceKind) (n name : Node) (w w' : Walk), n.kind = kind.nodeKind →
        n.field? .name = some name → w.AgreesButModes w' →
        (0 < w.methodDepth → (visit src plugins n w).index.definitions = w.index.definitions) ∧
        (w.methodDepth = 0 →
          let inside := fun w => (enter src plugins kind n name w).2
          let after := fun w => visitAll src plugins (n.namedExcept [name]) (inside w)
          visit src plugins n w = leave src plugins (enter src plugins kind n name w).1 (after w) ∧
            (visit src plugins n w).modes =
              (visitAll src plugins (Source.scopeOf name).toList w).modes ∧
            (after w).index.since (inside w).index = (after w').index.since (inside w').index ∧
            ∃ events, (after w).events = (inside w).events ++ events ∧
              (after w').events = (inside w').events ++ events) := by
  refine ⟨level_visit src plugins, fun kind n name w w' hk hname h => ⟨?_, fun hdepth => ?_⟩⟩
  · exact definitions_visit_of_methodDepth_pos
  intro inside after
  have hinside : (inside w).methodDepth = 0 := (level_visitAll _ w).methodDepth.trans hdepth
  have hinside' : (inside w').methodDepth = 0 :=
    (level_visitAll _ w').methodDepth.trans (h.methodDepth.symm.trans hdepth)
  have hscope : (inside w).scope = (inside w').scope := h.scope_enter kind n name
  refine ⟨visit_namespace hk hname hdepth, modes_visit_namespace hk hname hdepth, ?_,
    (deedsOf src (n.namedExcept [name]) (inside w).scope).filterMap (Deed.event? plugins),
    events_visitAll _ hinside, ?_⟩
  · rw [index_visitAll _ hinside, index_visitAll _ hinside', hscope]
    exact Deed.since_changeAll (h.rel_enter hdepth kind n name) _
  · rw [hscope]
    exact events_visitAll _ hinside'

/-- The class of `lateTree` and its name. -/
def lateClass : Node :=
  lateTree.children.headD lateTree

def lateName : Node :=
  lateClass.children.headD lateTree

/-- A walk in a module, under a visibility word. -/
def underWord (mode : Visibility) : Walk :=
  { nesting := ["M"], body := { mode }, outer := [{}], index := namesake }

theorem visit_keeps_bodies_late :
    (underWord .pub).AgreesButModes (underWord .priv) ∧
      let inside := fun w => (enter lateSource [.actionPack] .classSpace lateClass lateName w).2
      let after := fun w =>
        visitAll lateSource [.actionPack] (lateClass.namedExcept [lateName]) (inside w)
      (after (underWord .pub)).index.since (inside (underWord .pub)).index =
        (after (underWord .priv)).index.since (inside (underWord .priv)).index := by
  have hagrees : (underWord .pub).AgreesButModes (underWord .priv) := ⟨rfl, rfl, rfl, rfl⟩
  have hbody := ((visit_keeps_bodies lateSource [.actionPack]).2 .classSpace lateClass lateName
    (underWord .pub) (underWord .priv) rfl rfl hagrees).2 rfl
  exact ⟨hagrees, hbody.2.2.1⟩

end Walk
end Fallow
