import Fallow.Proofs.Events
import Fallow.Proofs.Origin
import Mathlib.Data.List.TakeWhile

/-!
# Brackets of events

The announcements that a class or module is defined and that it is closed stand in a run like
opening and closing brackets. Every full name is built from the full name of the innermost bracket
that is open when the definition is announced.

`Event.Nested` says both at once: a sequence is nested when it consists of announcements and of
brackets around nested sequences, and what it says of a definition may depend on the full name of
the bracket around it.
-/

namespace Fallow

open Syntax

/-- Classes and modules open a bracket. -/
def Definition.Opens (d : Definition) : Prop :=
  d.kind = .classDef ∨ d.kind = .moduleDef

theorem Definition.Alike.opens_iff {a b : Definition} (h : a.Alike b) : a.Opens ↔ b.Opens := by
  rw [Opens, Opens, h.kind_eq]

namespace Event

/-- A balanced sequence of events inside a namespace, or outside all of them if `space` is `none`.
Each bracket is closed with the definition that opened it, and every definition is related by `P`
to the full name of the innermost bracket around it. -/
inductive Nested (P : Option String → Definition → Prop) : Option String → List Event → Prop
  | nil {space : Option String} : Nested P space []
  | sent {space : Option String} {s : Send} {es : List Event} (hes : Nested P space es) :
    Nested P space (.sent s :: es)
  | defined {space : Option String} {d : Definition} {es : List Event} (hd : ¬ d.Opens)
    (hP : P space d) (hes : Nested P space es) : Nested P space (.defined d :: es)
  | bracket {space : Option String} {d : Definition} {inner es : List Event} (hd : d.Opens)
    (hP : P space d) (hinner : Nested P (some d.fullName) inner) (hes : Nested P space es) :
    Nested P space (.defined d :: (inner ++ .closed d :: es))

theorem Nested.append {P : Option String → Definition → Prop} {space : Option String}
    {es fs : List Event} (hes : Nested P space es) (hfs : Nested P space fs) :
    Nested P space (es ++ fs) := by
  induction hes with
  | nil => exact hfs
  | sent _ ih => exact .sent (ih hfs)
  | defined hd hP _ ih => exact .defined hd hP (ih hfs)
  | bracket hd hP hinner _ _ ih =>
      rw [List.cons_append, List.append_assoc, List.cons_append]
      exact .bracket hd hP hinner (ih hfs)

end Event

/-! ### Names -/

/-- A text without the colons in front. -/
def IsBare (whole bare : String) : Prop :=
  ∃ colons, (∀ c ∈ colons, c = ':') ∧ whole.toList = colons ++ bare.toList ∧
    bare.toList.head? ≠ some ':'

theorem Source.isBare_bareText (src : Source) (n : Node) :
    IsBare (src.text n) (src.bareText n) := by
  refine ⟨(src.text n).toList.takeWhile (· == ':'), fun c hc => ?_, ?_, ?_⟩
  · simpa using List.mem_takeWhile_imp hc
  · rw [bareText, dropColons, String.toList_ofList, Text.trimStart,
      List.takeWhile_append_dropWhile]
  · rw [bareText, dropColons, String.toList_ofList, Text.trimStart]
    intro hhead
    have hnot := List.head?_dropWhile_not (· == ':') (src.text n).toList
    rw [hhead] at hnot
    simp at hnot

/-- The full name of a class, module or constant in a namespace. -/
def spaceName (space : Option String) (bare : String) : String :=
  match space with
  | none => bare
  | some outer => outer ++ "::" ++ bare

/-- The full name of a method or accessor in a namespace; a namespace without a name counts as
none. -/
def memberName (space : Option String) (onSelf : Bool) (name : String) : String :=
  match space with
  | none => name
  | some outer => if outer = "" then name else outer ++ (if onSelf then "." else "#") ++ name

namespace Scope

/-- The full name of the innermost open namespace. -/
def space? (s : Scope) : Option String :=
  if s.nesting = [] then none else some s.walk.space

theorem qualifyConstant_eq (s : Scope) (bare : String) :
    s.walk.qualifyConstant bare = spaceName s.space? bare := by
  rw [Walk.qualifyConstant, space?]
  split
  · rename_i hnil
    rw [walk, hnil]
    exact String.intercalate_singleton
  · rename_i hne
    have hrev : s.nesting.reverse ≠ [] := by simpa using hne
    exact String.intercalate_append_of_ne_nil hrev (by simp)

theorem qualifyMethod_eq (s : Scope) (onSelf : Bool) (name : String) :
    s.walk.qualifyMethod onSelf name = memberName s.space? onSelf name := by
  by_cases hnil : s.nesting = []
  · have hspace : s.walk.space = "" := by
      rw [walk, Walk.space, hnil]
      exact String.intercalate_nil
    rw [Walk.qualifyMethod, if_pos hspace, space?, if_pos hnil]
    rfl
  · rw [space?, if_neg hnil]
    rfl

theorem space?_cons (s : Scope) (bare : String) (body : Body) :
    space? ⟨bare :: s.nesting, body⟩ = some (s.walk.qualifyConstant bare) := by
  rw [space?, if_neg (by simp), walk, Walk.space, List.reverse_cons]
  rfl

end Scope

namespace Source

/-- The walk visits a node outside methods; `onSelf` says that the innermost body around it is that
of a singleton class. -/
inductive Reaches (src : Source) (root : Node) : Bool → Node → Prop
  | root : Reaches src root false root
  | visit {onSelf : Bool} {n c : Node} (h : Reaches src root onSelf n)
    (hc : .walk c ∈ src.plan false n) : Reaches src root onSelf c
  | inline {onSelf : Bool} {visibility : Visibility} {n c : Node} (h : Reaches src root onSelf n)
    (hc : .inline visibility [.walk c] ∈ src.plan false n) : Reaches src root onSelf c
  | namespaceBody {onSelf : Bool} {kind : NamespaceKind} {n name c : Node}
    (h : Reaches src root onSelf n) (hk : n.kind = kind.nodeKind)
    (hn : n.field? .name = some name) (hc : c ∈ n.namedExcept [name]) : Reaches src root false c
  | singletonBody {onSelf : Bool} {n c : Node} (h : Reaches src root onSelf n)
    (hk : n.kind = .singletonClass) (hc : c ∈ n.namedExcept [n.field? .value]) :
    Reaches src root true c

/-- How a definition that comes from a node is named in a namespace. -/
inductive Names (src : Source) (space : Option String) (onSelf : Bool) (n : Node)
    (d : Definition) : Prop
  | enclosure {kind : NamespaceKind} {name : Node} {bare : String} (hn : n.kind = kind.nodeKind)
    (hname : n.field? .name = some name) (hbare : IsBare (src.text name) bare)
    (hk : d.kind = kind.definitionKind) (hl : d.location = src.location n)
    (hfull : d.fullName = spaceName space bare) : Names src space onSelf n d
  | constant {target : Node} {bare : String}
    (hn : n.kind = .assignment ∨ n.kind = .operatorAssignment)
    (htarget : n.field? .left = some target) (hbare : IsBare (src.text target) bare)
    (hk : d.kind = .constantDef) (hl : d.location = src.location n)
    (hfull : d.fullName = spaceName space bare) : Names src space onSelf n d
  | method {name : Node} (hn : n.kind = .methodDecl ∨ n.kind = .singletonMethodDecl)
    (hname : n.field? .name = some name) (hd : d.name = src.text name)
    (hk : d.kind = if onSelf ∨ n.kind = .singletonMethodDecl then .singletonDef else .methodDef)
    (hl : d.location = src.location n)
    (hfull : d.fullName = memberName space (d.kind = .singletonDef) d.name) :
    Names src space onSelf n d
  | accessor {reader writer : Bool} {arg : Node} (hn : src.Declares n reader writer arg)
    (hd : d.name = (src.argument arg).value ∨ d.name = (src.argument arg).value ++ "=")
    (hk : d.kind = .accessorDef) (hl : d.location = src.location arg)
    (hfull : d.fullName = memberName space onSelf d.name) : Names src space onSelf n d

/-- A definition is named, in a namespace, after a node that the walk visits outside methods. -/
def NamedIn (src : Source) (root : Node) (space : Option String) (d : Definition) : Prop :=
  ∃ onSelf n, src.Reaches root onSelf n ∧ src.Names space onSelf n d

section Naming

variable {src : Source} {n : Node} {space : Option String} {onSelf : Bool} {d e : Definition}

theorem Names.of_alike (h : src.Names space onSelf n d) (he : e.Alike d) :
    src.Names space onSelf n e := by
  have hkind := he.kind_eq
  have hlocation := he.location_eq
  have hfullName := he.fullName_eq
  cases h with
  | enclosure hn hname hbare hk hl hfull =>
      exact .enclosure hn hname hbare (hkind.trans hk) (hlocation.trans hl) (hfullName.trans hfull)
  | constant hn htarget hbare hk hl hfull =>
      exact .constant hn htarget hbare (hkind.trans hk) (hlocation.trans hl) (hfullName.trans hfull)
  | method hn hname hd hk hl hfull =>
      refine .method hn hname (he.1.trans hd) (hkind.trans hk) (hlocation.trans hl) ?_
      rw [hfullName, hkind, he.1]
      exact hfull
  | accessor hn hd hk hl hfull =>
      refine .accessor hn ?_ (hkind.trans hk) (hlocation.trans hl) ?_
      · rw [he.1]
        exact hd
      · rw [hfullName, he.1]
        exact hfull

theorem Defines.names {s : Scope} (h : src.Defines n s d) :
    src.Names s.space? s.body.singleton n d := by
  cases h with
  | enclosure hk hn =>
      exact .enclosure hk hn (src.isBare_bareText _) rfl rfl (s.qualifyConstant_eq _)
  | constant hk ht htk =>
      exact .constant hk ht (src.isBare_bareText _) rfl rfl (s.qualifyConstant_eq _)
  | reader hd hn => exact .accessor hd (.inl rfl) rfl rfl (s.qualifyMethod_eq _ _)
  | writer hd hn => exact .accessor hd (.inr rfl) rfl rfl (s.qualifyMethod_eq _ _)
  | @method onSelf name hk hn =>
      have hdecl : n.kind = .methodDecl ∨ n.kind = .singletonMethodDecl := by
        cases onSelf <;> simp [hk]
      have hself : (onSelf || s.body.singleton) = true ↔
          s.body.singleton = true ∨ n.kind = .singletonMethodDecl := by
        cases onSelf <;> simp [hk]
      have hdot : decide ((s.method onSelf (src.text name) (src.location n)).kind = .singletonDef) =
          (onSelf || s.body.singleton) := by
        rw [Scope.method, Scope.fresh]
        cases onSelf || s.body.singleton <;> rfl
      refine .method hdecl hn rfl ?_ rfl ?_
      · simp only [Scope.method, Scope.fresh, hself]
      · rw [hdot]
        exact s.qualifyMethod_eq _ _

end Naming
end Source

/-! ### Nested events -/

section Nesting

variable {plugins : List Plugin} {f : Bool → Node → List Act} {within : Bool} {s : Scope}

/-- Acts that follow each other share the namespace; only the visibility in force changes. -/
theorem Act.nested_deedsAll {P : Option String → Definition → Prop} {acts : List Act}
    (h : ∀ a ∈ acts, ∀ mode,
      Event.Nested P s.space? ((a.deeds (s.withMode mode)).filterMap (Deed.event? plugins))) :
    Event.Nested P s.space? ((deedsAll acts s).filterMap (Deed.event? plugins)) := by
  induction acts generalizing s with
  | nil => exact .nil
  | cons a rest ih =>
      rw [deedsAll, List.filterMap_append]
      have hfirst := h a List.mem_cons_self s.body.mode
      have hrest : ∀ b ∈ rest, ∀ mode, Event.Nested P s.space?
          ((b.deeds (s.withMode mode)).filterMap (Deed.event? plugins)) :=
        fun b hb => h b (List.mem_cons_of_mem _ hb)
      exact hfirst.append (@ih (s.withMode (a.modeAfter s.body.mode)) hrest)

namespace Source

variable {src : Source} {root n : Node} {d : Definition}

theorem nested_deedsAll_walkAll {P : Option String → Definition → Prop} (s : Scope)
    (cs : List Node) (h : ∀ c ∈ cs, ∀ mode, Event.Nested P s.space?
      ((Act.deedsAll (f within c) (s.withMode mode)).filterMap (Deed.event? plugins))) :
    Event.Nested P s.space?
      ((Act.deedsAll (Act.fillAll f within (walkAll cs)) s).filterMap (Deed.event? plugins)) := by
  apply Act.nested_deedsAll
  intro a ha mode
  obtain ⟨c, hc, rfl⟩ := exists_of_mem_fillAll_walkAll ha
  exact h c hc mode

theorem Defines.namedIn (h : src.Defines n s d) (hn : src.Reaches root s.body.singleton n) :
    src.NamedIn root s.space? (Walk.judged plugins d) :=
  ⟨s.body.singleton, n, hn, h.names.of_alike (Walk.alike_judged plugins d)⟩

/-- A definition that opens no namespace is announced alone. -/
theorem Defines.nested (h : src.Defines n s d) (hn : src.Reaches root s.body.singleton n)
    (hd : ¬ d.Opens) :
    Event.Nested (src.NamedIn root) s.space? ([.define d].filterMap (Deed.event? plugins)) :=
  .defined (mt (Walk.alike_judged plugins d).opens_iff.1 hd) (h.namedIn hn) .nil

theorem Defines.nested_bracket (h : src.Defines n s d) (hn : src.Reaches root s.body.singleton n)
    (hd : d.Opens) {ds : List Deed}
    (hds : Event.Nested (src.NamedIn root) (some d.fullName)
      (ds.filterMap (Deed.event? plugins))) :
    Event.Nested (src.NamedIn root) s.space?
      ((Deed.define d :: ds ++ [Deed.close d]).filterMap (Deed.event? plugins)) := by
  have halike := Walk.alike_judged plugins d
  have hevents : (Deed.define d :: ds ++ [Deed.close d]).filterMap (Deed.event? plugins) =
      .defined (Walk.judged plugins d) :: (ds.filterMap (Deed.event? plugins) ++
        [.closed (Walk.judged plugins d)]) := by
    rw [List.filterMap_append]
    rfl
  rw [← halike.fullName_eq] at hds
  rw [hevents]
  exact .bracket (halike.opens_iff.2 hd) (h.namedIn hn) hds .nil

/-- What a plan announces is nested if what is announced of the nodes below is. -/
theorem nested_deeds_fill {a : Act} (ha : a ∈ src.plan within n)
    (hn : within = false → src.Reaches root s.body.singleton n)
    (hf : ∀ within, ∀ c ∈ n.inner, ∀ s : Scope,
      (within = false → src.Reaches root s.body.singleton c) → Event.Nested (src.NamedIn root)
        s.space? ((Act.deedsAll (f within c) s).filterMap (Deed.event? plugins))) :
    Event.Nested (src.NamedIn root) s.space?
      (((Act.fill f within a).deeds s).filterMap (Deed.event? plugins)) := by
  have hbelow : ∀ {skipped c}, c ∈ n.namedExcept skipped → c ∈ n.inner :=
    Node.mem_inner_of_mem_namedExcept
  cases planned_of_mem_plan ha with
  | walk hc => exact hf within _ hc s fun hm => .visit (hn hm) (hm ▸ ha)
  | constantUse | scopedUse | symbolUse | aliasUse | declare | remark => exact .nil
  | send => exact .sent .nil
  | @inline visibility arg hm harg =>
      refine nested_deedsAll_walkAll (s.withMode visibility) [arg] fun c hc mode => ?_
      rw [List.mem_singleton.1 hc]
      exact hf within arg harg (s.withMode mode) fun hm => .inline (hn hm) (hm ▸ ha)
  | constant hm hk ht htk =>
      refine (Defines.constant hk ht htk).nested (hn hm) ?_
      simp [Definition.Opens, Scope.constant, Scope.fresh]
  | reader hm hd hname =>
      refine (Defines.reader hd hname).nested (hn hm) ?_
      simp [Definition.Opens, Scope.accessor, Scope.fresh]
  | writer hm hd hname =>
      refine (Defines.writer hd hname).nested (hn hm) ?_
      simp [Definition.Opens, Scope.accessor, Scope.fresh]
  | @method onSelf name hm hk hname =>
      refine (Defines.method hk hname).nested (hn hm) ?_
      rw [Definition.Opens, Scope.method, Scope.fresh]
      cases onSelf || s.body.singleton <;> simp
  | methodBody =>
      -- nothing is defined inside a method, so that it does not matter what is reached there
      refine nested_deedsAll_walkAll s _ fun c hc mode => ?_
      exact hf true c (hbelow hc) (s.withMode mode) (by simp)
  | @enclosure kind name hm hk hname =>
      refine (Defines.enclosure hk hname).nested_bracket (hn hm) ?_ ?_
      · cases kind <;> simp [Definition.Opens, Scope.constant, Scope.fresh,
          NamespaceKind.definitionKind]
      · -- the name of the opened namespace is that of its definition
        let inside : Scope := ⟨src.bareText name :: s.nesting, {}⟩
        have hspace : inside.space? = some (s.walk.qualifyConstant (src.bareText name)) :=
          s.space?_cons _ _
        have hbody := nested_deedsAll_walkAll inside (n.namedExcept [name]) fun c hc mode =>
          hf within c (hbelow hc) (inside.withMode mode) fun hm =>
            .namespaceBody (hn hm) hk hname hc
        rw [hspace] at hbody
        exact hbody
  | singletonBody hk =>
      let inside : Scope := ⟨s.nesting, { singleton := true }⟩
      refine nested_deedsAll_walkAll inside _ fun c hc mode => ?_
      exact hf within c (hbelow hc) (inside.withMode mode) fun hm =>
        .singletonBody (hn hm) hk hc

/-- What is announced of a node is nested in the namespace where the node stands. -/
theorem nested_outline (plugins : List Plugin)
    (hn : within = false → src.Reaches root s.body.singleton n) :
    Event.Nested (src.NamedIn root) s.space?
      ((Act.deedsAll (src.outline within n) s).filterMap (Deed.event? plugins)) := by
  induction hh : n.height using Nat.strongRecOn generalizing within n s with
  | ind height ih =>
      rw [outline_eq, Act.fillAll_eq_map]
      apply Act.nested_deedsAll
      intro b hb mode
      obtain ⟨a, ha, rfl⟩ := List.mem_map.1 hb
      have hn' : within = false → src.Reaches root (s.withMode mode).body.singleton n := hn
      refine nested_deeds_fill ha hn' fun within c hc s hreach => ?_
      have hlt : c.height < height := hh ▸ Node.height_lt_of_mem_inner hc
      exact ih c.height hlt hreach rfl

end Source
end Nesting

/-- The events of a run are balanced, and every definition is named after the innermost bracket
around its announcement. -/
theorem Walk.events_nested (src : Source) (plugins : List Plugin) (root : Node) (x : Index) :
    Event.Nested (src.NamedIn root) none (run src plugins root x).events := by
  have hroot : src.Reaches root ({} : Scope).body.singleton root := .root
  rw [events_run]
  exact Source.nested_outline plugins fun _ => hroot

end Fallow
