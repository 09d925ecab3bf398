import Fallow.Proofs.Bodies

/-!
# What stands in a file

The methods and accessors that an index holds of one file, as a table: without the marks that the
plugins set and without the places where the index keeps them. Deeds change the table in two ways
only. A definition is entered unless it stands there already, and a visibility word with a name
marks the instance methods and accessors of that full name. `Represents.change` says that a deed
does to the table what it does to the index.
-/

namespace Fallow

open Syntax

namespace Definition

/-- Methods and accessors, which have a visibility that can be declared. -/
def Kind.isMember : Kind → Bool
  | .methodDef | .singletonDef | .accessorDef => true
  | .classDef | .moduleDef | .constantDef => false

theorem kind_of_isMember {d : Definition} (h : d.kind.isMember = true)
    (hsingleton : d.kind ≠ .singletonDef) : d.kind = .methodDef ∨ d.kind = .accessorDef := by
  cases hk : d.kind <;> simp [hk, Kind.isMember] at h hsingleton ⊢

/-- The definition without the mark of the plugins. -/
def plain (d : Definition) : Definition :=
  { d with ignored := false }

theorem alike_plain (d : Definition) : d.plain.Alike d :=
  ⟨rfl, same_refl d⟩

theorem alike_plain_iff {d e : Definition} : e.Alike d.plain ↔ e.Alike d :=
  ⟨fun h => h.trans d.alike_plain, fun h => h.trans d.alike_plain.symm⟩

theorem plain_judged (plugins : List Plugin) (d : Definition) :
    (Walk.judged plugins d).plain = d.plain := by
  rw [Walk.judged_eq]
  split <;> rfl

/-- The definition is no singleton method with the full name of an instance method. -/
def Proper (d : Definition) : Prop :=
  d.kind = .singletonDef → ∀ space, d.fullName ≠ space ++ "#" ++ d.name

theorem Proper.of_alike {d e : Definition} (h : e.Proper) (hde : d.Alike e) : d.Proper := by
  intro hk space
  rw [hde.fullName_eq, hde.1]
  exact h (hde.kind_eq ▸ hk) space

end Definition

/-- Enters a definition into a table unless it stands there already. -/
def Table.enter (d : Definition) (t : List Definition) : List Definition :=
  if t.any fun e => e.Alike d then t else t ++ [d]

theorem Table.mem_enter {c d : Definition} {t : List Definition} :
    c ∈ Table.enter d t ↔ c ∈ t ∨ c = d ∧ ¬ ∃ e ∈ t, e.Alike d := by
  unfold Table.enter
  split
  · rename_i hany
    have hexists : ∃ e ∈ t, e.Alike d := by simpa using hany
    simp [hexists]
  · rename_i hany
    have hnone : ¬ ∃ e ∈ t, e.Alike d := by simpa using hany
    rw [List.mem_append, List.mem_singleton, and_iff_left hnone]

/-- Marks the instance methods and accessors of a full name. -/
def Table.mark (visibility : Visibility) (name fullName : String) (t : List Definition) :
    List Definition :=
  t.map fun e =>
    if (e.kind = .methodDef ∨ e.kind = .accessorDef) ∧ e.name = name ∧ e.fullName = fullName
    then e.mark visibility else e

namespace Index

/-- The methods and accessors of a file, without the marks of the plugins. -/
def standing (x : Index) (path : String) : List Definition :=
  (x.listing.filter fun d => d.kind.isMember && d.location.file = path).map Definition.plain

theorem mem_standing {x : Index} {path : String} {d : Definition} : d ∈ x.standing path ↔
    ∃ e ∈ x.definitions.values, (e.kind.isMember = true ∧ e.location.file = path) ∧ e.plain = d := by
  simp [standing, mem_listing, and_assoc]

/-- The index is tidy, and no singleton method in it has the full name of an instance method. -/
structure Proper (x : Index) : Prop where
  tidy : x.Tidy
  proper : ∀ d ∈ x.definitions.values, d.Proper

theorem Proper.empty : Proper {} :=
  ⟨.empty, fun d hd => by simp at hd⟩

namespace Tidy

variable {x : Index} (hx : x.Tidy) {setting : Walk.Setting} {c : Definition}
include hx

theorem exists_alike_iff_any {d : Definition} :
    (∃ e ∈ x.definitions.values, e.Alike d) ↔
      (x.definitions.get d.name).any (Walk.judged setting.plugins d).same = true := by
  have hjudged := Walk.alike_judged setting.plugins d
  rw [List.any_eq_true]
  constructor
  · rintro ⟨e, he, halike⟩
    rw [hx.definitions.mem_values, halike.1] at he
    exact ⟨e, he, (hjudged.trans halike.symm).2⟩
  · rintro ⟨e, he, hsame⟩
    have hname : e.name = d.name := hx.definitions.named _ e he
    refine ⟨e, hx.definitions.mem_values.2 (hname ▸ he), hname, ?_⟩
    exact Definition.same_trans (by rw [Definition.same_comm]; exact hsame) hjudged.2

theorem mem_values_define {d : Definition} :
    c ∈ ((Deed.define d).change setting x).definitions.values ↔ c ∈ x.definitions.values ∨
      c = Walk.judged setting.plugins d ∧ ¬ ∃ e ∈ x.definitions.values, e.Alike d := by
  have hname := (Walk.alike_judged setting.plugins d).1
  rw [(hx.change setting _).definitions.mem_values, hx.definitions.mem_values,
    hx.exists_alike_iff_any, Bool.not_eq_true, Deed.change, Index.addDefinition, hname,
    Buckets.get_insert]
  split
  · rename_i hkey
    rw [Buckets.mem_addTo, hkey]
  · rename_i hkey
    constructor
    · exact .inl
    · rintro (h | ⟨rfl, _⟩)
      · exact h
      · exact absurd hname hkey

theorem mem_values_remark {visibility : Visibility} {name fullName : String} :
    c ∈ ((Deed.remark visibility name fullName).change setting x).definitions.values ↔
      ∃ e ∈ x.definitions.values, (if e.name = name ∧ e.fullName = fullName ∧
        e.location.file = setting.path then e.mark visibility else e) = c := by
  rw [Deed.change, Buckets.mapAt_eq_mapWith, hx.definitions.mem_values_mapWith]
  apply exists_congr
  intro e
  by_cases hname : e.name = name <;> simp [hname]

theorem mem_values_close {d : Definition} :
    c ∈ ((Deed.close d).change setting x).definitions.values ↔
      ∃ e ∈ x.definitions.values, (if e.location.file = setting.path ∧
        setting.plugins.any (·.isAction (Walk.judged setting.plugins d) e) then e.ignore
        else e) = c := by
  rw [Deed.change, Buckets.map_eq_mapWith, hx.definitions.mem_values_mapWith]
  simp only [Bool.and_eq_true, decide_eq_true_eq]

end Tidy

theorem Proper.change {x : Index} (hx : x.Proper) (setting : Walk.Setting) {d : Deed}
    (hd : ∀ c, d = .define c → c.Proper) : (d.change setting x).Proper where
  tidy := hx.tidy.change setting d
  proper := by
    intro c hc
    rw [(hx.tidy.change setting d).definitions.mem_values] at hc
    rcases Deed.of_mem_get_change hc with ⟨e, he, hce⟩ | ⟨e, rfl, hce⟩
    · have hmem : e ∈ x.definitions.values :=
        hx.tidy.definitions.mem_values.2 (hx.tidy.definitions.named _ e he ▸ he)
      exact (hx.proper e hmem).of_alike hce
    · exact (hd e rfl).of_alike hce

theorem Proper.changeAll {x : Index} (hx : x.Proper) (setting : Walk.Setting) {ds : List Deed}
    (hds : ∀ c, .define c ∈ ds → c.Proper) : (Deed.changeAll setting x ds).Proper := by
  induction ds generalizing x with
  | nil => exact hx
  | cons d rest ih =>
      apply ih (hx.change setting _) fun c hc => hds c (List.mem_cons_of_mem _ hc)
      rintro c rfl
      exact hds c List.mem_cons_self

/-- A definition that was not there before comes from a deed. -/
theorem Tidy.exists_define_of_mem_since {x : Index} (hx : x.Tidy) {setting : Walk.Setting}
    {ds : List Deed} {d : Definition} (h : d ∈ (Deed.changeAll setting x ds).since x) :
    ∃ c, .define c ∈ ds ∧ d.Alike c := by
  obtain ⟨hd, hnew⟩ := List.mem_filter.1 h
  rw [mem_listing, (hx.changeAll setting ds).definitions.mem_values] at hd
  rcases Deed.of_mem_get_changeAll hd with ⟨c, hc, hdc⟩ | hdefine
  · have hmem : c ∈ x.listing :=
      mem_listing.2 (hx.definitions.mem_values.2 (hx.definitions.named _ c hc ▸ hc))
    exact absurd hdc.symm (of_decide_eq_true hnew c hmem)
  · exact hdefine

end Index

/-- What a deed does to the table of a file. -/
def Deed.tabulate (path : String) (t : List Definition) : Deed → List Definition
  | .define d => if d.kind.isMember && d.location.file = path then Table.enter d.plain t else t
  | .remark visibility name fullName => Table.mark visibility name fullName t
  | _ => t

def Deed.tabulateAll (path : String) (t : List Definition) (ds : List Deed) : List Definition :=
  ds.foldl (tabulate path) t

/-- The deed records no singleton method under the name of an instance method, and if it marks a
name it marks an instance method. -/
def Deed.Fits : Deed → Prop
  | .define d => d.Proper
  | .remark _ name fullName => ∃ space, fullName = space ++ "#" ++ name
  | _ => True

/-- The table lists what stands in the file. -/
def Represents (path : String) (t : List Definition) (x : Index) : Prop :=
  ∀ d, d ∈ t ↔ d ∈ x.standing path

namespace Represents

variable {path : String} {plugins : List Plugin} {t : List Definition} {x : Index}

theorem mem_iff (h : Represents path t x) {d : Definition} : d ∈ t ↔
    ∃ e ∈ x.definitions.values, (e.kind.isMember = true ∧ e.location.file = path) ∧ e.plain = d := by
  rw [h, Index.mem_standing]

theorem exists_alike_iff (h : Represents path t x) {d : Definition}
    (hk : d.kind.isMember = true) (hfile : d.location.file = path) :
    (∃ e ∈ t, e.Alike d) ↔ ∃ e ∈ x.definitions.values, e.Alike d := by
  constructor
  · rintro ⟨e, he, halike⟩
    obtain ⟨c, hc, _, rfl⟩ := h.mem_iff.1 he
    exact ⟨c, hc, c.alike_plain.symm.trans halike⟩
  · rintro ⟨e, he, halike⟩
    refine ⟨e.plain, h.mem_iff.2 ⟨e, he, ⟨?_, ?_⟩, rfl⟩, e.alike_plain.trans halike⟩
    · rw [halike.kind_eq, hk]
    · rw [halike.location_eq, hfile]

theorem define (h : Represents path t x) (hx : x.Tidy) (d : Definition) :
    Represents path ((Deed.define d).tabulate path t)
      ((Deed.define d).change ⟨path, plugins⟩ x) := by
  intro c
  have hjudged := Walk.alike_judged plugins d
  rw [Index.mem_standing]
  simp only [hx.mem_values_define]
  by_cases hd : d.kind.isMember = true ∧ d.location.file = path
  · have htable : (Deed.define d).tabulate path t = Table.enter d.plain t := by
      simp [Deed.tabulate, hd]
    rw [htable, Table.mem_enter, h.mem_iff]
    simp only [Definition.alike_plain_iff, h.exists_alike_iff hd.1 hd.2]
    constructor
    · rintro (⟨e, he, hstands, rfl⟩ | ⟨rfl, hnew⟩)
      · exact ⟨e, .inl he, hstands, rfl⟩
      · refine ⟨Walk.judged plugins d, .inr ⟨rfl, hnew⟩, ?_, d.plain_judged plugins⟩
        rwa [hjudged.kind_eq, hjudged.location_eq]
    · rintro ⟨e, he | ⟨rfl, hnew⟩, hstands, rfl⟩
      · exact .inl ⟨e, he, hstands, rfl⟩
      · exact .inr ⟨d.plain_judged plugins, hnew⟩
  · have htable : (Deed.define d).tabulate path t = t := by
      simp only [Deed.tabulate, Bool.and_eq_true, decide_eq_true_eq, hd, if_false]
    rw [htable, h.mem_iff]
    constructor
    · rintro ⟨e, he, hstands, rfl⟩
      exact ⟨e, .inl he, hstands, rfl⟩
    · rintro ⟨e, he | ⟨rfl, _⟩, hstands, rfl⟩
      · exact ⟨e, he, hstands, rfl⟩
      · rw [hjudged.kind_eq, hjudged.location_eq] at hstands
        exact absurd hstands hd

/-- A word that marks instance methods leaves singleton methods alone, because in a proper index
they do not bear that full name. -/
theorem remark (h : Represents path t x) (hx : x.Proper) (visibility : Visibility)
    (space name : String) :
    Represents path ((Deed.remark visibility name (space ++ "#" ++ name)).tabulate path t)
      ((Deed.remark visibility name (space ++ "#" ++ name)).change ⟨path, plugins⟩ x) := by
  intro c
  have hmark : ∀ e ∈ x.definitions.values, e.kind.isMember = true ∧ e.location.file = path →
      (if (e.plain.kind = .methodDef ∨ e.plain.kind = .accessorDef) ∧ e.plain.name = name ∧
        e.plain.fullName = space ++ "#" ++ name then e.plain.mark visibility else e.plain) =
      (if e.name = name ∧ e.fullName = space ++ "#" ++ name ∧ e.location.file = path
        then e.mark visibility else e).plain := by
    intro e he hstands
    by_cases hname : e.name = name ∧ e.fullName = space ++ "#" ++ name
    · have hsingleton : e.kind ≠ .singletonDef := by
        intro hk
        exact hx.proper e he hk space (hname.1 ▸ hname.2)
      have hkind : e.plain.kind = .methodDef ∨ e.plain.kind = .accessorDef :=
        Definition.kind_of_isMember hstands.1 hsingleton
      rw [if_pos ⟨hkind, hname⟩, if_pos ⟨hname.1, hname.2, hstands.2⟩]
      rfl
    · rw [if_neg fun hif => hname hif.2, if_neg fun hif => hname ⟨hif.1, hif.2.1⟩]
  rw [Index.mem_standing]
  simp only [hx.tidy.mem_values_remark, Deed.tabulate, Table.mark, List.mem_map, h.mem_iff]
  constructor
  · rintro ⟨d, ⟨e, he, hstands, rfl⟩, rfl⟩
    refine ⟨_, ⟨e, he, rfl⟩, ?_, (hmark e he hstands).symm⟩
    split <;> exact hstands
  · rintro ⟨d, ⟨e, he, rfl⟩, hstands, rfl⟩
    have hstands' : e.kind.isMember = true ∧ e.location.file = path := by
      split at hstands <;> exact hstands
    exact ⟨e.plain, ⟨e, he, hstands', rfl⟩, hmark e he hstands'⟩

theorem close (h : Represents path t x) (hx : x.Tidy) (d : Definition) :
    Represents path t ((Deed.close d).change ⟨path, plugins⟩ x) := by
  intro c
  rw [Index.mem_standing, h.mem_iff]
  simp only [hx.mem_values_close]
  constructor
  · rintro ⟨e, he, hstands, rfl⟩
    refine ⟨_, ⟨e, he, rfl⟩, ?_, ?_⟩
    · split <;> exact hstands
    · split <;> rfl
  · rintro ⟨d, ⟨e, he, rfl⟩, hstands, rfl⟩
    refine ⟨e, he, ?_, ?_⟩
    · split at hstands <;> exact hstands
    · split <;> rfl

theorem congr {y : Index} (h : Represents path t x) (hxy : y.definitions = x.definitions) :
    Represents path t y := by
  intro d
  rw [Index.mem_standing, hxy, h.mem_iff]

/-- A deed does to the table what it does to the index. -/
theorem change (h : Represents path t x) (hx : x.Proper) {d : Deed} (hd : d.Fits) :
    Represents path (d.tabulate path t) (d.change ⟨path, plugins⟩ x) := by
  cases d with
  | refer name location =>
      have huse : (Deed.refer name location).IsUse := trivial
      exact h.congr (huse.change_definitions x)
  | send s =>
      have huse : (Deed.send s).IsUse := trivial
      exact h.congr (huse.change_definitions x)
  | define d => exact h.define hx.tidy d
  | remark visibility name fullName =>
      obtain ⟨space, rfl⟩ := hd
      exact h.remark hx visibility space name
  | close d => exact h.close hx.tidy d

theorem changeAll (h : Represents path t x) (hx : x.Proper) {ds : List Deed}
    (hds : ∀ d ∈ ds, d.Fits) :
    Represents path (Deed.tabulateAll path t ds) (Deed.changeAll ⟨path, plugins⟩ x ds) := by
  induction ds generalizing t x with
  | nil => exact h
  | cons d rest ih =>
      have hd := hds d List.mem_cons_self
      apply ih (h.change hx hd) (hx.change _ _) fun e he => hds e (List.mem_cons_of_mem _ he)
      rintro c rfl
      exact hd

end Represents

/-! ### The names of singleton methods -/

theorem Walk.qualifyMethod_ne_instance (w : Walk) (space name : String) :
    w.qualifyMethod true name ≠ space ++ "#" ++ name := by
  unfold Walk.qualifyMethod
  split
  · intro heq
    have hlength := congrArg String.length heq
    simp only [String.length_append] at hlength
    have hmark : "#".length = 1 := rfl
    omega
  · intro heq
    have hlist := congrArg String.toList heq
    simp only [if_true, String.toList_append, List.append_cancel_right_eq] at hlist
    have hlast := congrArg List.getLast? hlist
    simp at hlast

namespace Source

variable {src : Source} {inMethod : Bool} {n : Node} {s : Scope} {c : Definition}

theorem Defines.proper (h : src.Defines n s c) : c.Proper := by
  intro hk space
  cases h with
  | @enclosure kind => cases kind <;> cases hk
  | constant | reader | writer => cases hk
  | @method onSelf name =>
      have hself : (onSelf || s.body.singleton) = true := by
        by_contra hnot
        simp [Scope.method, Scope.fresh, hnot] at hk
      simp only [Scope.method, Scope.fresh, hself]
      exact Walk.qualifyMethod_ne_instance _ _ _

theorem proper_of_mem_deeds (h : .define c ∈ Act.deedsAll (src.outline inMethod n) s) :
    c.Proper := by
  obtain ⟨within, m, _, a, ha, s', hd⟩ := exists_plan_of_mem_deeds h
  exact ((planned_of_mem_plan ha).defines hd).2.proper

end Source

namespace Walk

variable {src : Source} {plugins : List Plugin} {w : Walk}

/-- Visits keep an index proper. -/
theorem proper_visit (h : w.index.Proper) (n : Node) : (visit src plugins n w).index.Proper := by
  rw [visit, act_eq]
  exact h.changeAll _ fun c => Source.proper_of_mem_deeds

theorem proper_visitAll (h : w.index.Proper) (ns : List Node) :
    (visitAll src plugins ns w).index.Proper := by
  induction ns generalizing w with
  | nil => exact h
  | cons n rest ih => exact ih (proper_visit h n)

theorem proper_enter (h : w.index.Proper) (kind : NamespaceKind) (n name : Node) :
    (enter src plugins kind n name w).2.index.Proper := by
  let outside := visitAll src plugins (Source.scopeOf name).toList w
  let opened := outside.scope.constant kind.definitionKind (src.bareName (src.bareText name) name)
    (src.bareText name) (src.location n)
  have hindex : (enter src plugins kind n name w).2.index =
      (Deed.define opened).change ⟨src.path, plugins⟩ outside.index := rfl
  rw [hindex]
  apply (proper_visitAll h _).change
  rintro c hc
  cases hc
  exact fun hk => by cases kind <;> cases hk

end Walk
end Fallow
