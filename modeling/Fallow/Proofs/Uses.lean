import Fallow.Proofs.Announced
import Fallow.Proofs.Successors

/-!
# What a node uses

A node that is visited uses names in one of four forms: it is a call, it writes an attribute or an
element that stands alone on the left side of an assignment, it reads what it then writes, or it
mentions a name without calling it. The syntactic references of a run are the uses of the nodes that
the walk visits, each at its place, and no others.
-/

namespace Fallow

open Syntax

/-- The name that an act refers to by itself, and where. -/
def Act.use? : Act → Option (String × Location)
  | .refer name location => some (name, location)
  | .send s => some (s.name, s.location)
  | _ => none

theorem Act.exists_of_use? {a : Act} {name : String} {location : Location}
    (h : a.use? = some (name, location)) :
    (∀ f inMethod, a.fill f inMethod = a) ∧
      ∀ plugins s, ∃ d ∈ a.deeds s, ⟨name, location, .syntactic⟩ ∈ d.references plugins := by
  cases a with
  | refer name' location' =>
      cases h
      exact ⟨fun _ _ => rfl, fun _ _ => ⟨_, List.mem_singleton_self _, List.mem_singleton_self _⟩⟩
  | send s =>
      cases h
      exact ⟨fun _ _ => rfl, fun _ _ => ⟨_, List.mem_singleton_self _, List.mem_cons_self⟩⟩
  | _ => cases h

theorem Deed.eq_of_syntactic {plugins : List Plugin} {d : Deed} {name : String}
    {location : Location} (h : ⟨name, location, .syntactic⟩ ∈ d.references plugins) :
    d = .refer name location ∨ ∃ s, d = .send s ∧ s.name = name ∧ s.location = location := by
  cases d with
  | refer name' location' =>
      cases List.mem_singleton.1 h
      exact .inl rfl
  | send s =>
      rcases List.mem_cons.1 h with h | h
      · cases h
        exact .inr ⟨s, rfl, rfl, rfl⟩
      · obtain ⟨name', _, heq⟩ := List.mem_map.1 h
        cases heq
  | define | remark | close => cases h

namespace Source

/-- The node is called, under a name and at a place. -/
inductive Calls (src : Source) (within : Bool) (n : Node) : String → Location → Prop
  | call (hk : n.kind = .call) (haccessors : src.declaresAccessors within n = false)
    (hvisibility : src.declaresVisibility within n = false) :
    Calls src within n (src.callee n) (src.location n)
  | word (hk : n.kind = .identifier)
    (hword : within = true ∨ Visibility.ofText? (src.text n) = none) :
    Calls src within n (src.text n) (src.location n)
  | operator {operator : Node} (hk : n.kind = .binary) (ho : n.field? .operator = some operator)
    (hs : src.text operator ∉ shortCircuits) :
    Calls src within n (src.text operator) (src.location n)
  | element (hk : n.kind = .elementReference) : Calls src within n "[]" (src.location n)
  /-- A key without a value. -/
  | key {key : Node} (hk : n.kind = .pair) (hkey : n.field? .key = some key)
    (hvalue : n.field? .value = none) : Calls src within n (src.key key) (src.location key)

/-- The left side of the assignment is a call or an element reference itself, and that is written. -/
inductive Writes (src : Source) (n : Node) : String → Location → Prop
  | member {left method : Node} (hk : n.kind.isAssignment = true)
    (hl : n.field? .left = some left) (hc : left.kind = .call)
    (hm : left.field? .method = some method) :
    Writes src n (src.text method ++ "=") (src.location left)
  | element {left : Node} (hk : n.kind.isAssignment = true) (hl : n.field? .left = some left)
    (hc : left.kind = .elementReference) : Writes src n "[]=" (src.location left)

/-- An assignment with an operator uses the old value of what it writes. -/
inductive Reads (src : Source) (n : Node) : String → Location → Prop
  | member {left method : Node} (hk : n.kind = .operatorAssignment)
    (hl : n.field? .left = some left) (hc : left.kind = .call)
    (hm : left.field? .method = some method) : Reads src n (src.text method) (src.location left)
  | element {left : Node} (hk : n.kind = .operatorAssignment) (hl : n.field? .left = some left)
    (hc : left.kind = .elementReference) : Reads src n "[]" (src.location left)

/-- The names that the visit of a node refers to by itself. -/
inductive Uses (src : Source) (within : Bool) (n : Node) (name : String) (location : Location) :
    Prop
  | calls (h : src.Calls within n name location)
  | writes (h : src.Writes n name location)
  | reads (h : src.Reads n name location)
  | mentions (h : src.Mentions n ⟨name, location, .syntactic⟩)

variable {src : Source} {within : Bool} {n : Node} {name : String} {location : Location}

section Plans

@[simp] theorem filterMap_use?_walkAll (cs : List Node) : (walkAll cs).filterMap Act.use? = [] := by
  induction cs with
  | nil => rfl
  | cons c rest ih => exact ih

@[simp] theorem filterMap_use?_walk? (o : Option Node) :
    (Act.walk? o).filterMap Act.use? = [] := by
  cases o <;> rfl

theorem filterMap_use?_planSend (receiver : Option Node) (args rest : List Node) :
    (src.planSend name receiver args rest n).filterMap Act.use? = [(name, src.location n)] := by
  simp [planSend, Act.use?, call]

theorem filterMap_use?_planAccessor (reader writer : Bool) (args : List Node) :
    (args.flatMap (src.planAccessor reader writer)).filterMap Act.use? = [] := by
  induction args with
  | nil => rfl
  | cons arg rest ih =>
      rw [List.flatMap_cons, List.filterMap_append, ih, planAccessor]
      cases (src.argument arg).isName <;> cases reader <;> cases writer <;> rfl

theorem filterMap_use?_planVisibility (visibility : Visibility) (args : List Node) :
    (src.planVisibility visibility args).filterMap Act.use? = [] := by
  unfold planVisibility
  split
  · rfl
  · rw [List.filterMap_map, List.filterMap_eq_nil_iff]
    intro arg _
    simp only [Function.comp_apply, planVisible]
    split <;> rfl

theorem filterMap_use?_planCall : (src.planCall within n).filterMap Act.use? =
    if src.declaresAccessors within n || src.declaresVisibility within n then []
    else [(src.callee n, src.location n)] := by
  simp only [planCall, declaresAccessors, declaresVisibility, callee]
  by_cases hbare : ((n.field? .receiver).isNone && !within) = true
  · simp only [hbare, if_true, Bool.true_and]
    cases accessors? (((n.field? .method).map src.text).getD "call") with
    | some access => simp [filterMap_use?_planAccessor]
    | none =>
        cases Visibility.ofText? (((n.field? .method).map src.text).getD "call") with
        | some visibility => simp [filterMap_use?_planVisibility]
        | none => simp [filterMap_use?_planSend]
  · rw [Bool.not_eq_true] at hbare
    simp [hbare, filterMap_use?_planSend]

theorem filterMap_use?_planIdentifier : (src.planIdentifier within n).filterMap Act.use? =
    if !within && (Visibility.ofText? (src.text n)).isSome then []
    else [(src.text n, src.location n)] := by
  unfold planIdentifier
  cases Visibility.ofText? (src.text n) <;> cases within <;> rfl

theorem filterMap_use?_planBinary : (src.planBinary n).filterMap Act.use? =
    ((n.field? .operator).toList.filter fun o => !shortCircuits.contains (src.text o)).map
      fun o => (src.text o, src.location n) := by
  unfold planBinary
  cases n.field? .operator with
  | none => simp
  | some operator =>
      by_cases hs : src.text operator ∈ shortCircuits <;> simp [hs, Act.use?, call]

theorem filterMap_use?_planElement :
    (src.planElement n).filterMap Act.use? = [("[]", src.location n)] := by
  simp [planElement, Act.use?, call]

theorem filterMap_use?_planBlockArgument : (src.planBlockArgument n).filterMap Act.use? =
    (n.named.filter (·.kind = .simpleSymbol)).map fun c => (src.symbol c, src.location c) := by
  unfold planBlockArgument
  induction n.named with
  | nil => rfl
  | cons c rest ih =>
      rw [List.map_cons, List.filterMap_cons, ih]
      by_cases hc : c.kind = .simpleSymbol <;> simp [hc, Act.use?, Act.walk]

theorem filterMap_use?_planPair : (src.planPair n).filterMap Act.use? =
    if (n.field? .value).isNone then
      (n.field? .key).toList.map fun key => (src.key key, src.location key)
    else [] := by
  unfold planPair
  cases n.field? .key <;> cases n.field? .value <;> simp [Act.use?, call]

theorem filterMap_use?_planParameters : (planParameters n).filterMap Act.use? = [] := by
  unfold planParameters
  induction n.named with
  | nil => rfl
  | cons p rest ih => rw [List.flatMap_cons, List.filterMap_append, ih, filterMap_use?_walk?]; rfl

/-- What is used when a name is written, and perhaps read before. -/
def written (reads : Bool) (name : String) (location : Location) : List (String × Location) :=
  (if reads then [(name, location)] else []) ++ [(name ++ "=", location)]

/-- What is used of the left side of an assignment. -/
def targetUses (src : Source) (reads : Bool) (target : Node) : List (String × Location) :=
  match target.kind with
  | .call => (target.field? .method).toList.flatMap fun method =>
    written reads (src.text method) (src.location target)
  | .elementReference => written reads "[]" (src.location target)
  | _ => []

theorem filterMap_use?_planTarget (reads : Bool) (target : Node) :
    (src.planTarget reads within target n).filterMap Act.use? = src.targetUses reads target := by
  cases hk : target.kind <;> simp only [planTarget, targetUses, hk]
  case constant | scopeResolution =>
    cases within <;> simp [planConstant, Act.use?, isLocalTarget, hk, Act.walk]
  case call => cases target.field? .method <;> cases reads <;> simp [Act.use?, call, written]
  case elementReference =>
    cases reads <;> simp only [List.filterMap_append, filterMap_use?_walk?, filterMap_use?_walkAll]
      <;> rfl
  all_goals simp [isLocalTarget, hk, Act.use?, Act.walk]

theorem filterMap_use?_planAssignment (reads : Bool) :
    (src.planAssignment reads within n).filterMap Act.use? =
      (n.field? .left).toList.flatMap (src.targetUses reads) := by
  unfold planAssignment
  cases n.field? .left <;> simp [filterMap_use?_planTarget]

theorem uses_of_mem_targetUses {reads : Bool} {left : Node}
    (hk : n.kind.isAssignment = true) (hreads : reads = true → n.kind = .operatorAssignment)
    (hl : n.field? .left = some left) (h : (name, location) ∈ src.targetUses reads left) :
    src.Uses within n name location := by
  unfold targetUses at h
  split at h
  · rename_i hc
    obtain ⟨method, hm, h⟩ := List.mem_flatMap.1 h
    rw [Option.mem_toList] at hm
    rcases List.mem_append.1 h with h | h
    · cases reads with
      | false => cases h
      | true =>
          cases List.mem_singleton.1 h
          exact .reads (.member (hreads rfl) hl hc hm)
    · cases List.mem_singleton.1 h
      exact .writes (.member hk hl hc hm)
  · rename_i hc
    rcases List.mem_append.1 h with h | h
    · cases reads with
      | false => cases h
      | true =>
          cases List.mem_singleton.1 h
          exact .reads (.element (hreads rfl) hl hc)
    · cases List.mem_singleton.1 h
      exact .writes (.element hk hl hc)
  · cases h

theorem uses_of_mem_plan (h : (name, location) ∈ (src.plan within n).filterMap Act.use?) :
    src.Uses within n name location := by
  cases hk : n.kind <;> simp only [plan, hk] at h
  case assignment =>
    rw [filterMap_use?_planAssignment] at h
    obtain ⟨left, hl, h⟩ := List.mem_flatMap.1 h
    exact uses_of_mem_targetUses (by rw [hk]; rfl) (by simp) (Option.mem_toList.1 hl) h
  case operatorAssignment =>
    rw [filterMap_use?_planAssignment] at h
    obtain ⟨left, hl, h⟩ := List.mem_flatMap.1 h
    exact uses_of_mem_targetUses (by rw [hk]; rfl) (fun _ => hk) (Option.mem_toList.1 hl) h
  case call =>
    rw [filterMap_use?_planCall] at h
    split at h
    · cases h
    · rename_i hdeclares
      simp only [Bool.or_eq_true, not_or, Bool.not_eq_true] at hdeclares
      cases List.mem_singleton.1 h
      exact .calls (.call hk hdeclares.1 hdeclares.2)
  case identifier =>
    rw [filterMap_use?_planIdentifier] at h
    split at h
    · cases h
    · rename_i hword
      cases List.mem_singleton.1 h
      refine .calls (.word hk ?_)
      cases within
      · exact .inr (by simpa using hword)
      · exact .inl rfl
  case binary =>
    rw [filterMap_use?_planBinary] at h
    obtain ⟨operator, ho, heq⟩ := List.mem_map.1 h
    cases heq
    obtain ⟨ho, hs⟩ := List.mem_filter.1 ho
    exact .calls (.operator hk (Option.mem_toList.1 ho) (by simpa using hs))
  case elementReference =>
    rw [filterMap_use?_planElement] at h
    cases List.mem_singleton.1 h
    exact .calls (.element hk)
  case blockArgument =>
    rw [filterMap_use?_planBlockArgument] at h
    obtain ⟨c, hc, heq⟩ := List.mem_map.1 h
    cases heq
    obtain ⟨hc, hs⟩ := List.mem_filter.1 hc
    exact .mentions (.block hk hc (by simpa using hs))
  case pair =>
    rw [filterMap_use?_planPair] at h
    split at h
    · rename_i hvalue
      obtain ⟨key, hkey, heq⟩ := List.mem_map.1 h
      cases heq
      exact .calls (.key hk (Option.mem_toList.1 hkey) (Option.isNone_iff_eq_none.1 hvalue))
    · cases h
  case aliasDecl =>
    unfold planAlias at h
    split at h
    · rename_i aliased haliased
      cases List.mem_singleton.1 h
      exact .mentions (.aliased hk haliased)
    · cases h
  case constant =>
    cases List.mem_singleton.1 h
    exact .mentions (.constant hk)
  case scopeResolution =>
    unfold planScope at h
    rw [List.filterMap_append, filterMap_use?_walk?, List.nil_append] at h
    split at h
    · rename_i name' hn
      cases List.mem_singleton.1 h
      exact .mentions (.scoped hk hn)
    · cases h
  case classDecl | moduleDecl =>
    unfold planNamespace at h
    split at h <;> simp [Act.use?] at h
  case methodDecl | singletonMethodDecl =>
    simp only [planMethod] at h
    split at h <;> simp [Act.use?] at h
  case singletonClass => simp [Act.use?] at h
  case methodParameters | blockParameters | lambdaParameters =>
    simp [filterMap_use?_planParameters] at h
  all_goals simp at h

theorem Calls.mem_plan (h : src.Calls within n name location) :
    (name, location) ∈ (src.plan within n).filterMap Act.use? := by
  cases h with
  | call hk haccessors hvisibility =>
      simp [plan, hk, filterMap_use?_planCall, haccessors, hvisibility]
  | word hk hword =>
      rcases hword with rfl | hword
      · simp [plan, hk, filterMap_use?_planIdentifier]
      · simp [plan, hk, filterMap_use?_planIdentifier, hword]
  | operator hk ho hs => simp [plan, hk, filterMap_use?_planBinary, ho, hs]
  | element hk => simp [plan, hk, filterMap_use?_planElement]
  | key hk hkey hvalue => simp [plan, hk, filterMap_use?_planPair, hkey, hvalue]

theorem Writes.mem_plan (h : src.Writes n name location) :
    (name, location) ∈ (src.plan within n).filterMap Act.use? := by
  have hplan : ∀ {left : Node}, n.kind.isAssignment = true → n.field? .left = some left →
      (∀ reads, (name, location) ∈ src.targetUses reads left) →
      (name, location) ∈ (src.plan within n).filterMap Act.use? := by
    intro left hk hl hmem
    cases hkind : n.kind <;> simp [hkind, Kind.isAssignment] at hk <;>
      simp [plan, hkind, filterMap_use?_planAssignment, hl, hmem]
  cases h with
  | member hk hl hc hm => exact hplan hk hl fun reads => by simp [targetUses, written, hc, hm]
  | element hk hl hc => exact hplan hk hl fun reads => by simp [targetUses, written, hc]

theorem Reads.mem_plan (h : src.Reads n name location) :
    (name, location) ∈ (src.plan within n).filterMap Act.use? := by
  cases h with
  | member hk hl hc hm =>
      simp [plan, hk, filterMap_use?_planAssignment, hl, targetUses, written, hc, hm]
  | element hk hl hc =>
      simp [plan, hk, filterMap_use?_planAssignment, hl, targetUses, written, hc]

theorem Mentions.mem_plan (h : src.Mentions n ⟨name, location, .syntactic⟩) :
    (name, location) ∈ (src.plan within n).filterMap Act.use? := by
  rcases h with ⟨hk⟩ | ⟨hk, hn⟩ | ⟨hk, hc, hs⟩ | ⟨hk, hc⟩
  · simp [plan, hk, reference, Act.use?]
  · simp [plan, hk, planScope, hn, reference, Act.use?]
  · simp only [plan, hk, filterMap_use?_planBlockArgument]
    exact List.mem_map.2 ⟨_, List.mem_filter.2 ⟨hc, by simpa using hs⟩, rfl⟩
  · simp [plan, hk, planAlias, hc, Act.use?]

theorem mem_plan_iff_uses : (name, location) ∈ (src.plan within n).filterMap Act.use? ↔
    src.Uses within n name location := by
  refine ⟨uses_of_mem_plan, fun h => ?_⟩
  cases h with
  | calls h => exact h.mem_plan
  | writes h => exact h.mem_plan
  | reads h => exact h.mem_plan
  | mentions h => exact h.mem_plan

end Plans

theorem Planned.use?_eq {a : Act} {s : Scope} {d : Deed} {plugins : List Plugin}
    (h : src.Planned within n a) (hd : d ∈ a.deeds s)
    (hr : ⟨name, location, .syntactic⟩ ∈ d.references plugins) :
    a.use? = some (name, location) := by
  rcases Deed.eq_of_syntactic hr with rfl | ⟨t, rfl, rfl, rfl⟩
  · cases h with
    | constantUse | scopedUse | symbolUse | aliasUse =>
        cases List.mem_singleton.1 hd
        rfl
    | enclosure | methodBody | singletonBody => simp [Act.deeds, deedsAll_walkAll] at hd
    | _ => simp [Act.deeds, Act.deedsAll, Act.walk, call] at hd
  · cases h with
    | send =>
        cases List.mem_singleton.1 hd
        rfl
    | enclosure | methodBody | singletonBody => simp [Act.deeds, deedsAll_walkAll] at hd
    | _ => simp [Act.deeds, Act.deedsAll, Act.walk, reference] at hd

end Source

namespace Walk

variable {src : Source} {plugins : List Plugin} {root : Node} {name : String}
  {location : Location}

/-- The syntactic references of a run are the uses of the nodes that are visited. -/
theorem mem_referenceListing_run_iff_uses :
    ⟨name, location, .syntactic⟩ ∈ (run src plugins root).index.referenceListing ↔
      ∃ within n, src.Visits false root within n ∧ src.Uses within n name location := by
  rw [mem_referenceListing_run]
  constructor
  · rintro ⟨d, hd, hr⟩
    obtain ⟨within, n, hvisits, a, ha, s, hd⟩ := Source.exists_plan_of_mem_deeds hd
    have huse := (Source.planned_of_mem_plan ha).use?_eq hd hr
    have hmem := List.mem_filterMap.2 ⟨a, ha, huse⟩
    exact ⟨within, n, hvisits, Source.uses_of_mem_plan hmem⟩
  · rintro ⟨within, n, hvisits, huses⟩
    obtain ⟨a, ha, huse⟩ := List.mem_filterMap.1 (Source.mem_plan_iff_uses.2 huses)
    obtain ⟨hfill, hdeeds⟩ := Act.exists_of_use? huse
    obtain ⟨s, hs⟩ := hvisits.exists_own_deeds_subset ha (hfill _ _) {}
    obtain ⟨d, hd, hr⟩ := hdeeds plugins s
    exact ⟨d, hs hd, hr⟩

end Walk
end Fallow
