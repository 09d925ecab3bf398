import Fallow.Proofs.Regular
import Mathlib.Data.List.Infix

/-!
# Spots

Nodes that look the same can stand at different spots of a tree. A spot knows the way that leads to
it, so that it can be said which spots a visit leads to: they stand below the visited spot, and none
of them stands at or below another.
-/

namespace Fallow

open Syntax

namespace Syntax.Node

/-- The node that a way leads to, child by child. -/
def at? : Node → List Nat → Option Node
  | n, [] => some n
  | n, i :: way => n.children[i]?.bind fun c => c.at? way

theorem at?_append (n : Node) (way rest : List Nat) :
    n.at? (way ++ rest) = (n.at? way).bind fun c => c.at? rest := by
  induction way generalizing n with
  | nil => rfl
  | cons i way ih =>
      rw [List.cons_append, at?, at?]
      cases n.children[i]? with
      | none => rfl
      | some c => exact ih c

/-- Different fields of a node name different children. -/
def RolesApart (root : Node) : Prop :=
  ∀ n ∈ root.preorder, ∀ f g i, i < n.children.length →
    n.fields.lookup f = some i → n.fields.lookup g = some i → f = g

theorem RolesApart.of_mem {root n : Node} (h : root.RolesApart) (hn : n ∈ root.preorder) :
    n.RolesApart :=
  fun c hc => h c (mem_preorder_trans hc hn)

theorem rolesApart_of_nodup {root : Node}
    (h : ∀ n ∈ root.preorder, (n.fields.map Prod.snd).Nodup) : root.RolesApart :=
  fun n hn _ _ _ _ hf hg => eq_of_lookup_eq_some (h n hn) hf hg

end Syntax.Node

/-- A node with the way that leads to it. -/
structure Spot where
  way : List Nat
  node : Node

namespace Spot

/-- The spot where a tree begins. -/
def top (root : Node) : Spot :=
  ⟨[], root⟩

def children (s : Spot) : List Spot :=
  s.node.children.mapIdx fun i c => ⟨s.way ++ [i], c⟩

def field? (s : Spot) (f : Field) : Option Spot :=
  (s.node.fields.lookup f).bind (s.children[·]?)

def named (s : Spot) : List Spot :=
  s.children.filter (·.node.flags.named)

def namedExcept (s : Spot) (skipped : List (Option Spot)) : List Spot :=
  s.named.filter fun c => !skipped.any fun t => t.any fun t => c.node.sameSite t.node

section Nodes

variable (s : Spot) (f : Field)

theorem children_node : s.node.children = s.children.map node := by
  apply List.ext_getElem
  · simp [children]
  · intro i _ _
    simp [children]

theorem field?_node : s.node.field? f = (s.field? f).map node := by
  rw [Node.field?, field?]
  cases s.node.fields.lookup f with
  | none => rfl
  | some i => simp [children_node]

theorem named_node : s.node.named = s.named.map node := by
  rw [Node.named, named, children_node, List.filter_map]
  rfl

theorem namedExcept_node (skipped : List (Option Spot)) :
    s.node.namedExcept (skipped.map (Option.map node)) = (s.namedExcept skipped).map node := by
  rw [Node.namedExcept, namedExcept, named_node, List.filter_map]
  congr 2
  funext c
  simp [List.any_map, Option.any_map, Function.comp_def]

end Nodes

/-- The other spot stands at this one or below: its way goes on from here. -/
def Above (s t : Spot) : Prop :=
  ∃ rest, t.way = s.way ++ rest ∧ s.node.at? rest = some t.node

/-- Neither way is part of the other. -/
def Apart (s t : Spot) : Prop :=
  ¬ s.way <+: t.way ∧ ¬ t.way <+: s.way

section Relations

variable {s t c d : Spot}

theorem Above.refl (s : Spot) : s.Above s :=
  ⟨[], (List.append_nil _).symm, rfl⟩

theorem Above.trans (h : s.Above t) (h' : t.Above c) : s.Above c := by
  obtain ⟨rest, hway, hnode⟩ := h
  obtain ⟨rest', hway', hnode'⟩ := h'
  refine ⟨rest ++ rest', by rw [hway', hway, List.append_assoc], ?_⟩
  rw [Node.at?_append, hnode]
  exact hnode'

theorem Above.way (h : s.Above t) : s.way <+: t.way := by
  obtain ⟨rest, hway, _⟩ := h
  exact ⟨rest, hway.symm⟩

theorem above_top_iff {root : Node} : (top root).Above t ↔ root.at? t.way = some t.node := by
  constructor
  · rintro ⟨rest, hway, hnode⟩
    rw [hway]
    exact hnode
  · exact fun h => ⟨t.way, rfl, h⟩

/-- What is below spots that are apart is apart. -/
theorem Apart.mono (h : s.Apart t) (hs : s.Above c) (ht : t.Above d) : c.Apart d := by
  constructor
  · intro hcd
    rcases List.prefix_or_prefix_of_prefix (hs.way.trans hcd) ht.way with hst | hts
    · exact h.1 hst
    · exact h.2 hts
  · intro hdc
    rcases List.prefix_or_prefix_of_prefix hs.way (ht.way.trans hdc) with hst | hts
    · exact h.1 hst
    · exact h.2 hts

theorem Apart.way_ne (h : s.Apart t) : s.way ≠ t.way :=
  fun heq => h.1 (heq ▸ List.prefix_rfl)

theorem way_of_getElem? {i : Nat} (h : s.children[i]? = some c) :
    s.node.children[i]? = some c.node ∧ c.way = s.way ++ [i] := by
  rw [children, List.getElem?_mapIdx] at h
  obtain ⟨n, hn, rfl⟩ := Option.map_eq_some_iff.1 h
  exact ⟨hn, rfl⟩

theorem exists_of_mem_children (h : c ∈ s.children) :
    ∃ i, s.node.children[i]? = some c.node ∧ c.way = s.way ++ [i] := by
  obtain ⟨i, hi⟩ := List.mem_iff_getElem?.1 h
  exact ⟨i, way_of_getElem? hi⟩

theorem above_of_mem_children (h : c ∈ s.children) : s.Above c := by
  obtain ⟨i, hnode, hway⟩ := exists_of_mem_children h
  exact ⟨[i], hway, by rw [Node.at?, hnode]; rfl⟩

theorem not_isPrefix_of_mem_children (h : c ∈ s.children) : ¬ c.way <+: s.way := by
  obtain ⟨i, _, hway⟩ := exists_of_mem_children h
  intro hpart
  have hlength := hpart.length_le
  rw [hway, List.length_append, List.length_singleton] at hlength
  omega

theorem apart_of_getElem? {i j : Nat} (hc : s.children[i]? = some c) (hd : s.children[j]? = some d)
    (hne : i ≠ j) : c.Apart d := by
  obtain ⟨_, hci⟩ := way_of_getElem? hc
  obtain ⟨_, hdj⟩ := way_of_getElem? hd
  constructor
  · intro h
    rw [hci, hdj, List.prefix_append_right_inj] at h
    simp [hne] at h
  · intro h
    rw [hci, hdj, List.prefix_append_right_inj] at h
    simp [hne.symm] at h

theorem apart_of_mem_children (hc : c ∈ s.children) (hd : d ∈ s.children) (hne : c ≠ d) :
    c.Apart d := by
  obtain ⟨i, hi⟩ := List.mem_iff_getElem?.1 hc
  obtain ⟨j, hj⟩ := List.mem_iff_getElem?.1 hd
  apply apart_of_getElem? hi hj
  rintro rfl
  exact hne (Option.some.inj (hi.symm.trans hj))

theorem pairwise_children (s : Spot) : s.children.Pairwise Apart := by
  rw [List.pairwise_iff_getElem]
  intro i j hi hj hlt
  exact apart_of_getElem? (List.getElem?_eq_getElem hi) (List.getElem?_eq_getElem hj)
    (Nat.ne_of_lt hlt)

theorem named_sublist (s : Spot) : s.named.Sublist s.children :=
  List.filter_sublist

theorem namedExcept_sublist (s : Spot) (skipped : List (Option Spot)) :
    (s.namedExcept skipped).Sublist s.children :=
  List.filter_sublist.trans s.named_sublist

theorem mem_children_of_field? {f : Field} (h : s.field? f = some c) : c ∈ s.children := by
  obtain ⟨i, _, hi⟩ := Option.bind_eq_some_iff.1 h
  exact List.mem_of_getElem? hi

/-- What is left out is not among the rest. -/
theorem apart_of_mem_namedExcept {skipped : List (Option Spot)} (hc : c ∈ s.children)
    (hskipped : some c ∈ skipped) (hd : d ∈ s.namedExcept skipped) : c.Apart d := by
  apply apart_of_mem_children hc ((s.namedExcept_sublist skipped).subset hd)
  rintro rfl
  have hrest := (List.mem_filter.1 hd).2
  rw [Bool.not_eq_true', List.any_eq_false] at hrest
  exact hrest _ hskipped (Node.sameSite_refl _)

theorem apart_of_field? {f g : Field} (hroles : s.node.RolesApart) (hne : f ≠ g)
    (hc : s.field? f = some c) (hd : s.field? g = some d) : c.Apart d := by
  obtain ⟨i, hi, hic⟩ := Option.bind_eq_some_iff.1 hc
  obtain ⟨j, hj, hjd⟩ := Option.bind_eq_some_iff.1 hd
  apply apart_of_getElem? hic hjd
  rintro rfl
  have hlength := (List.getElem?_eq_some_iff.1 (way_of_getElem? hic).1).1
  exact hne (hroles s.node (Node.mem_preorder_self _) f g i hlength hi hj)

end Relations

/-- Spots that stand below a spot, apart from each other. -/
structure Spread (s : Spot) (ts : List Spot) : Prop where
  below : ∀ t ∈ ts, ∃ c ∈ s.children, c.Above t
  apart : ts.Pairwise Apart

namespace Spread

variable {s c : Spot} {as bs ts : List Spot}

theorem of_sublist (h : ts.Sublist s.children) : s.Spread ts where
  below := fun t ht => ⟨t, h.subset ht, Above.refl t⟩
  apart := s.pairwise_children.sublist h

theorem nil : s.Spread [] :=
  of_sublist (List.nil_sublist _)

theorem single (hc : c ∈ s.children) : s.Spread [c] :=
  of_sublist (List.singleton_sublist.2 hc)

theorem field? (s : Spot) (f : Field) : s.Spread (s.field? f).toList := by
  cases h : s.field? f with
  | none => exact nil
  | some c => exact single (mem_children_of_field? h)

theorem sublist (h : s.Spread ts) (hsub : as.Sublist ts) : s.Spread as where
  below := fun t ht => h.below t (hsub.subset ht)
  apart := h.apart.sublist hsub

theorem append (ha : s.Spread as) (hb : s.Spread bs) (h : ∀ a ∈ as, ∀ b ∈ bs, a.Apart b) :
    s.Spread (as ++ bs) where
  below := fun t ht => (List.mem_append.1 ht).elim (ha.below t) (hb.below t)
  apart := List.pairwise_append.2 ⟨ha.apart, hb.apart, h⟩

theorem above (h : s.Spread ts) {t : Spot} (ht : t ∈ ts) : s.Above t := by
  obtain ⟨c, hc, habove⟩ := h.below t ht
  exact (above_of_mem_children hc).trans habove

/-- What is spread below a child is spread below its parent. -/
theorem of_child (hc : c ∈ s.children) (h : c.Spread ts) : s.Spread ts where
  below := fun _ ht => ⟨c, hc, h.above ht⟩
  apart := h.apart

theorem not_isPrefix (h : s.Spread ts) {t : Spot} (ht : t ∈ ts) : ¬ t.way <+: s.way := by
  obtain ⟨c, hc, habove⟩ := h.below t ht
  exact fun hts => not_isPrefix_of_mem_children hc (habove.way.trans hts)

/-- What stands at or below skipped children goes with the rest. -/
theorem append_namedExcept {skipped : List (Option Spot)} (h : s.Spread as)
    (hskipped : ∀ a ∈ as, ∃ c ∈ s.children, some c ∈ skipped ∧ c.Above a) :
    s.Spread (as ++ s.namedExcept skipped) := by
  apply h.append (of_sublist (s.namedExcept_sublist skipped))
  intro a ha b hb
  obtain ⟨c, hc, hmem, habove⟩ := hskipped a ha
  exact (apart_of_mem_namedExcept hc hmem hb).mono habove (Above.refl b)

theorem field?_append_namedExcept (s : Spot) (f : Field) :
    s.Spread ((s.field? f).toList ++ s.namedExcept [s.field? f]) := by
  apply (field? s f).append_namedExcept
  intro a ha
  rw [Option.mem_toList] at ha
  exact ⟨a, mem_children_of_field? ha, by rw [ha]; exact List.mem_singleton_self _, Above.refl a⟩

/-- What stands below different fields is apart. -/
theorem append_of_field? (f g : Field) (hroles : s.node.RolesApart) (hne : f ≠ g)
    (ha : s.Spread as) (hb : s.Spread bs)
    (haf : ∀ a ∈ as, ∃ c, s.field? f = some c ∧ c.Above a)
    (hbg : ∀ b ∈ bs, ∃ c, s.field? g = some c ∧ c.Above b) : s.Spread (as ++ bs) := by
  apply ha.append hb
  intro a hmem b hmem'
  obtain ⟨c, hc, hca⟩ := haf a hmem
  obtain ⟨d, hd, hdb⟩ := hbg b hmem'
  exact (apart_of_field? hroles hne hc hd).mono hca hdb

theorem flatMap {f : Spot → List Spot} (h : s.Spread ts) (hchildren : ts ⊆ s.children)
    (hf : ∀ t ∈ ts, t.Spread (f t)) : s.Spread (ts.flatMap f) where
  below := by
    intro a ha
    obtain ⟨t, ht, ha⟩ := List.mem_flatMap.1 ha
    exact ⟨t, hchildren ht, (hf t ht).above ha⟩
  apart := by
    rw [List.pairwise_flatMap]
    refine ⟨fun t ht => (hf t ht).apart, h.apart.imp_of_mem ?_⟩
    intro t u ht hu hapart a ha b hb
    exact hapart.mono ((hf t ht).above ha) ((hf u hu).above hb)

end Spread

section Successors

open Source

/-- Where the arguments of a call stand. -/
def arguments (s : Spot) : List Spot :=
  (s.field? .arguments).toList.flatMap fun list => list.named.filter (·.node.kind ≠ .comment)

/-- Where the scope of a qualified name stands. -/
def scope (s : Spot) : List Spot :=
  if s.node.kind = .scopeResolution then (s.field? .scope).toList else []

def nameless (src : Source) (args : List Spot) : List Spot :=
  args.filter fun arg => !(src.argument arg.node).isName

def namespaceSuccessors (within : Bool) (s : Spot) : List Spot :=
  match s.field? .name, within with
  | some name, false => name.scope ++ s.namedExcept [some name]
  | _, _ => s.named

def targetSuccessors (within : Bool) (target : Spot) : List Spot :=
  match target.node.kind with
  | .constant => if within then [target] else []
  | .scopeResolution => if within then [target] else (target.field? .scope).toList
  | .call => (target.field? .receiver).toList
  | .elementReference =>
    (target.field? .object).toList ++ target.namedExcept [target.field? .object]
  | .identifier | .instanceVariable | .classVariable | .globalVariable => []
  | _ => [target]

def callSuccessors (src : Source) (within : Bool) (s : Spot) : List Spot :=
  let rest := s.namedExcept [s.field? .receiver, s.field? .method, s.field? .arguments]
  if src.declaresAccessors within s.node then nameless src s.arguments ++ rest
  else if src.declaresVisibility within s.node then nameless src s.arguments
  else (s.field? .receiver).toList ++ s.arguments ++ rest

/-- The spots that the visit of a spot leads to, in order. -/
def successors (src : Source) (within : Bool) (s : Spot) : List Spot :=
  match s.node.kind with
  | .classDecl | .moduleDecl => namespaceSuccessors within s
  | .singletonClass => (s.field? .value).toList ++ s.namedExcept [s.field? .value]
  | .methodDecl | .singletonMethodDecl => s.namedExcept [s.field? .name]
  | .methodParameters | .blockParameters | .lambdaParameters =>
    s.named.filterMap (·.field? .value)
  | .assignment | .operatorAssignment =>
    (s.field? .left).toList.flatMap (targetSuccessors within) ++ (s.field? .right).toList
  | .call => callSuccessors src within s
  | .identifier | .aliasDecl | .constant => []
  | .binary => (s.field? .left).toList ++ (s.field? .right).toList
  | .elementReference => (s.field? .object).toList ++ s.namedExcept [s.field? .object]
  | .blockArgument => s.named.filter (·.node.kind ≠ .simpleSymbol)
  | .pair => if (s.field? .key).isSome && (s.field? .value).isNone then [] else s.named
  | .scopeResolution => (s.field? .scope).toList
  | _ => s.named

variable {src : Source} {within : Bool} {s : Spot}

theorem toList_map_node (o : Option Spot) : (o.map node).toList = o.toList.map node := by
  cases o <;> rfl

theorem namedExcept_one_node (s : Spot) (o : Option Spot) :
    s.node.namedExcept [o.map node] = (s.namedExcept [o]).map node :=
  s.namedExcept_node [o]

theorem arguments_node (s : Spot) :
    argumentNodes (s.node.field? .arguments) = s.arguments.map node := by
  rw [field?_node, arguments]
  cases s.field? .arguments with
  | none => rfl
  | some list =>
      simp only [argumentNodes, Option.map_some, named_node, List.filter_map, Option.toList_some,
        List.flatMap_singleton]
      rfl

theorem scope_node (s : Spot) : (scopeOf s.node).toList = s.scope.map node := by
  rw [scopeOf, scope]
  split
  · rw [field?_node, toList_map_node]
  · rfl

theorem nameless_node (args : List Spot) :
    src.nameless (args.map node) = (nameless src args).map node := by
  rw [Source.nameless, nameless, List.filter_map]
  rfl

theorem namespaceSuccessors_node :
    Source.namespaceSuccessors within s.node = (namespaceSuccessors within s).map node := by
  unfold Source.namespaceSuccessors namespaceSuccessors
  rw [field?_node, named_node]
  cases s.field? .name with
  | none => rfl
  | some name =>
      cases within with
      | true => rfl
      | false =>
          have hrest := s.namedExcept_one_node (some name)
          rw [Option.map_some] at hrest
          simp only [Option.map_some, scope_node, hrest, List.map_append]

theorem targetSuccessors_node (target : Spot) :
    Source.targetSuccessors within target.node = (targetSuccessors within target).map node := by
  cases hk : target.node.kind <;> simp only [Source.targetSuccessors, targetSuccessors, hk]
  case constant => cases within <;> rfl
  case scopeResolution => cases within <;> simp [field?_node, toList_map_node]
  case call => rw [field?_node, toList_map_node]
  case elementReference =>
    rw [field?_node, namedExcept_one_node, toList_map_node, List.map_append]
  all_goals rfl

theorem callSuccessors_node :
    src.callSuccessors within s.node = (callSuccessors src within s).map node := by
  have hrest := s.namedExcept_node [s.field? .receiver, s.field? .method, s.field? .arguments]
  simp only [List.map_cons, List.map_nil, ← field?_node] at hrest
  simp only [Source.callSuccessors, callSuccessors, arguments_node, hrest, nameless_node]
  split
  · rw [List.map_append]
  · split
    · rfl
    · rw [field?_node, toList_map_node, List.map_append, List.map_append]

/-- The spots of the successors. -/
theorem successors_node :
    src.successors within s.node = (s.successors src within).map node := by
  cases hk : s.node.kind <;> simp only [Source.successors, successors, hk]
  case classDecl | moduleDecl => exact namespaceSuccessors_node
  case call => exact callSuccessors_node
  case singletonClass | elementReference =>
    rw [field?_node, namedExcept_one_node, toList_map_node, List.map_append]
  case methodDecl | singletonMethodDecl => rw [field?_node, namedExcept_one_node]
  case methodParameters | blockParameters | lambdaParameters =>
    rw [named_node, List.filterMap_map, List.map_filterMap]
    exact List.filterMap_congr fun p _ => p.field?_node .value
  case assignment | operatorAssignment =>
    rw [field?_node, field?_node, toList_map_node, toList_map_node, List.map_append,
      List.flatMap_map, List.map_flatMap]
    simp only [targetSuccessors_node]
  case binary => rw [field?_node, field?_node, toList_map_node, toList_map_node, List.map_append]
  case blockArgument =>
    rw [named_node, List.filter_map]
    rfl
  case pair =>
    rw [field?_node, field?_node, Option.isSome_map, Option.isNone_map, named_node]
    split <;> rfl
  case scopeResolution => rw [field?_node, toList_map_node]
  case identifier | aliasDecl | constant => rfl
  all_goals exact s.named_node

theorem spread_scope (s : Spot) : s.Spread s.scope := by
  rw [scope]
  split
  · exact .field? s .scope
  · exact .nil

theorem spread_namespaceSuccessors : s.Spread (namespaceSuccessors within s) := by
  unfold namespaceSuccessors
  split
  · rename_i name hname
    have hchild := mem_children_of_field? hname
    apply (name.spread_scope.of_child hchild).append_namedExcept
    intro a ha
    exact ⟨name, hchild, List.mem_singleton_self _, name.spread_scope.above ha⟩
  · exact .of_sublist s.named_sublist

/-- Everything that the left side of an assignment leads to stands at it or below, apart. -/
theorem pairwise_targetSuccessors (target : Spot) :
    (∀ t ∈ targetSuccessors within target, target.Above t) ∧
      (targetSuccessors within target).Pairwise Apart := by
  have hself : (∀ t ∈ [target], target.Above t) ∧ [target].Pairwise Apart := by
    simp [Above.refl]
  have hbelow : ∀ {ts : List Spot}, target.Spread ts →
      (∀ t ∈ ts, target.Above t) ∧ ts.Pairwise Apart :=
    fun h => ⟨fun _ => h.above, h.apart⟩
  cases hk : target.node.kind <;> simp only [targetSuccessors, hk]
  case constant => cases within <;> simp [Above.refl]
  case scopeResolution =>
    cases within
    · exact hbelow (.field? target .scope)
    · exact hself
  case call => exact hbelow (.field? target .receiver)
  case elementReference => exact hbelow (.field?_append_namedExcept target .object)
  case identifier | instanceVariable | classVariable | globalVariable => simp
  all_goals exact hself

theorem spread_assignmentSuccessors (hroles : s.node.RolesApart) :
    s.Spread ((s.field? .left).toList.flatMap (targetSuccessors within) ++
      (s.field? .right).toList) := by
  have hleft : ∀ t ∈ (s.field? .left).toList.flatMap (targetSuccessors within),
      ∃ left, s.field? .left = some left ∧ left.Above t := by
    intro t ht
    obtain ⟨left, hleft, ht⟩ := List.mem_flatMap.1 ht
    exact ⟨left, Option.mem_toList.1 hleft, left.pairwise_targetSuccessors.1 t ht⟩
  have hspread : s.Spread ((s.field? .left).toList.flatMap (targetSuccessors within)) := by
    constructor
    · intro t ht
      obtain ⟨left, hfield, habove⟩ := hleft t ht
      exact ⟨left, mem_children_of_field? hfield, habove⟩
    · cases s.field? .left with
      | none => exact .nil
      | some left =>
          rw [Option.toList_some, List.flatMap_singleton]
          exact left.pairwise_targetSuccessors.2
  apply Spread.append_of_field? .left .right hroles (by decide) hspread (.field? s .right) hleft
  intro t ht
  exact ⟨t, Option.mem_toList.1 ht, Above.refl t⟩

theorem above_of_mem_arguments {t : Spot} (ht : t ∈ s.arguments) :
    ∃ list, s.field? .arguments = some list ∧ list.Above t := by
  obtain ⟨list, hlist, ht⟩ := List.mem_flatMap.1 ht
  have hsub : t ∈ list.children := list.named_sublist.subset (List.mem_filter.1 ht).1
  exact ⟨list, Option.mem_toList.1 hlist, above_of_mem_children hsub⟩

theorem spread_arguments (s : Spot) : s.Spread s.arguments := by
  apply (Spread.field? s .arguments).flatMap
  · intro list hlist
    exact mem_children_of_field? (Option.mem_toList.1 hlist)
  · intro list _
    exact .of_sublist (List.filter_sublist.trans list.named_sublist)

theorem spread_callSuccessors (hroles : s.node.RolesApart) :
    s.Spread (callSuccessors src within s) := by
  have hargs : ∀ a ∈ s.arguments, ∃ c ∈ s.children,
      some c ∈ [s.field? .receiver, s.field? .method, s.field? .arguments] ∧ c.Above a := by
    intro a ha
    obtain ⟨list, hlist, habove⟩ := above_of_mem_arguments ha
    exact ⟨list, mem_children_of_field? hlist, by simp [hlist], habove⟩
  have hnameless : s.Spread (nameless src s.arguments) :=
    s.spread_arguments.sublist List.filter_sublist
  rw [callSuccessors]
  split
  · apply hnameless.append_namedExcept
    intro a ha
    exact hargs a (List.mem_filter.1 ha).1
  · split
    · exact hnameless
    · have hboth : s.Spread ((s.field? .receiver).toList ++ s.arguments) := by
        apply Spread.append_of_field? .receiver .arguments hroles (by decide) (.field? s .receiver)
          s.spread_arguments
        · intro a ha
          exact ⟨a, Option.mem_toList.1 ha, Above.refl a⟩
        · intro a ha
          exact above_of_mem_arguments ha
      apply hboth.append_namedExcept
      intro a ha
      rcases List.mem_append.1 ha with ha | ha
      · rw [Option.mem_toList] at ha
        exact ⟨a, mem_children_of_field? ha, by simp [ha], Above.refl a⟩
      · exact hargs a ha

/-- The successors of a spot stand below it, apart from each other. -/
theorem spread_successors (hroles : s.node.RolesApart) : s.Spread (s.successors src within) := by
  cases hk : s.node.kind <;> simp only [successors, hk]
  case classDecl | moduleDecl => exact spread_namespaceSuccessors
  case call => exact spread_callSuccessors hroles
  case singletonClass | elementReference => exact .field?_append_namedExcept s _
  case methodDecl | singletonMethodDecl => exact .of_sublist (s.namedExcept_sublist _)
  case methodParameters | blockParameters | lambdaParameters =>
    rw [List.filterMap_eq_flatMap_toList]
    apply (Spread.of_sublist s.named_sublist).flatMap s.named_sublist.subset
    intro p _
    exact .field? p .value
  case assignment | operatorAssignment => exact spread_assignmentSuccessors hroles
  case binary =>
    apply Spread.append_of_field? .left .right hroles (by decide) (.field? s .left)
      (.field? s .right)
    · intro a ha
      exact ⟨a, Option.mem_toList.1 ha, Above.refl a⟩
    · intro a ha
      exact ⟨a, Option.mem_toList.1 ha, Above.refl a⟩
  case blockArgument => exact .of_sublist (List.filter_sublist.trans s.named_sublist)
  case pair =>
    split
    · exact .nil
    · exact .of_sublist s.named_sublist
  case scopeResolution => exact .field? s .scope
  case identifier | aliasDecl | constant => exact .nil
  all_goals exact .of_sublist s.named_sublist

end Successors

end Spot
end Fallow
