import Fallow.Proofs.Events
import Fallow.Proofs.Lockstep
import Fallow.Proofs.Origin

/-!
# The shapes of arguments

What plugins rely on in the arguments of a send, at any depth: a pair has one pair, under its own
value; only pairs and hashes have pairs; the pairs of a hash are those of its pairs that have a key,
in order; and a literal is taken for a name only if it is nothing but content. Every value that an
argument holds is the argument of the node that the pairs of the syntax lead to, or a key alone.
-/

namespace Fallow

open Syntax

namespace Argument

/-- An argument holds itself and, at any depth, the values of its pairs. -/
inductive Holds (a : Argument) : Argument → Prop
  | self : Holds a a
  | value {b c : Argument} {key : String} (h : Holds a b) (hc : (key, c) ∈ b.pairs) : Holds a c

/-- A pair has one pair, under its own value, and only pairs and hashes have pairs. -/
structure IsShaped (a : Argument) : Prop where
  pair : a.kind = .pair → ∃ value, a.pairs = [(a.value, value)]
  keywords : a.pairs ≠ [] → a.kind = .pair ∨ a.kind = .hash

end Argument

namespace Source

open Syntax.Node

/-- A key without a value stands for the result of a call of that name. -/
def keyArgument (src : Source) (key : Node) : Argument :=
  .mk .other (src.key key) (src.location key) []

/-- What a pair passes: its key with its value, or a key alone. -/
inductive PassesPair (src : Source) (p : Node) : String × Argument → Prop
  | valued {key value : Node} (hkey : p.field? .key = some key)
    (hvalue : p.field? .value = some value) :
    PassesPair src p (src.key key, src.argument value)
  | bare {key : Node} (hkey : p.field? .key = some key) (hvalue : p.field? .value = none) :
    PassesPair src p (src.key key, src.keyArgument key)

/-- The pairs that a node passes: a pair itself, or those of a hash, as far as they have a key. -/
def pairNodes (n : Node) : List Node :=
  match n.kind with
  | .pair => if (n.field? .key).isSome then [n] else []
  | .hash => (n.named.filter (·.kind = .pair)).filter fun p => (p.field? .key).isSome
  | _ => []

/-- The nodes whose arguments a node passes, its own and those of the values of pairs. -/
inductive Nests (n : Node) : Node → Prop
  | start : Nests n n
  | value {m p v : Node} (h : Nests n m) (hp : p ∈ pairNodes m)
    (hv : p.field? .value = some v) : Nests n v

/-- How the argument that a node passes comes from the node. -/
structure Forms (src : Source) (n : Node) (a : Argument) : Prop where
  shaped : a.IsShaped
  pair : a.kind = .pair ↔ n.kind = .pair ∧ (n.field? .key).isSome = true
  hash : a.kind = .hash ↔ n.kind = .hash
  pairs : List.Forall₂ src.PassesPair (pairNodes n) a.pairs
  literal : n.kind = .string ∨ n.kind = .delimitedSymbol →
    (a.isName = true ↔ ∀ c ∈ n.named, c.kind = .stringContent)
  content : n.kind = .string ∨ n.kind = .delimitedSymbol → a.isName = true →
    a.kind = (if n.kind = .string then .string else .symbol) ∧
      a.value = String.join (n.named.map src.text)
  other : n.kind = .string ∨ n.kind = .delimitedSymbol → a.isName = false → a.kind = .other

section Levels

variable {src : Source} {n : Node} {f g : Node → Argument}

/-- What a pair passes if `f` says what values pass. -/
def pairWith? (src : Source) (f : Node → Argument) (p : Node) : Option (String × Argument) :=
  (p.field? .key).map fun key =>
    (src.key key, ((p.field? .value).map f).getD (src.keyArgument key))

/-- What a node passes if `f` says what values pass. -/
def argumentWith (src : Source) (f : Node → Argument) (n : Node) : Argument :=
  match n.kind with
  | .pair =>
    match src.pairWith? f n with
    | some pair => .mk .pair pair.1 (src.location n) [pair]
    | none => src.leafArgument n
  | .hash =>
    .mk .hash (src.text n) (src.location n)
      ((n.named.filter (·.kind = .pair)).filterMap (src.pairWith? f))
  | _ => src.leafArgument n

theorem argumentTo_succ (src : Source) (depth : Nat) (n : Node) :
    src.argumentTo (depth + 1) n = src.argumentWith (src.argumentTo depth) n := by
  cases hk : n.kind <;> simp only [argumentTo, argumentWith, hk]
  case pair =>
    rw [pairWith?]
    cases n.field? .key <;> cases n.field? .value <;> rfl
  case hash =>
    congr 1
    apply List.filterMap_congr
    intro p _
    rw [pairWith?]
    cases p.field? .key <;> cases p.field? .value <;> rfl

theorem pairWith?_congr {p : Node} (h : ∀ value, p.field? .value = some value → f value = g value) :
    src.pairWith? f p = src.pairWith? g p := by
  rw [pairWith?, pairWith?]
  cases hvalue : p.field? .value with
  | none => rfl
  | some value => rw [Option.map_some, Option.map_some, h value hvalue]

/-- An argument depends on the values below its node only. -/
theorem argumentWith_congr (h : ∀ c ∈ n.inner, f c = g c) :
    src.argumentWith f n = src.argumentWith g n := by
  have hpair : src.pairWith? f n = src.pairWith? g n :=
    pairWith?_congr fun value hvalue => h value (mem_inner_of_field? hvalue)
  have hpairs : (n.named.filter (·.kind = .pair)).filterMap (src.pairWith? f) =
      (n.named.filter (·.kind = .pair)).filterMap (src.pairWith? g) := by
    apply List.filterMap_congr
    intro p hp
    apply pairWith?_congr
    intro value hvalue
    have hpn := mem_inner_of_mem_named (List.mem_filter.1 hp).1
    exact h value (mem_inner_trans hpn (mem_preorder_of_mem_inner (mem_inner_of_field? hvalue)))
  rw [argumentWith, argumentWith, hpair, hpairs]

/-- Levels beyond the height of a node add nothing to its argument. -/
theorem argumentTo_eq_of_height_le {depth depth' : Nat} (h : n.height ≤ depth)
    (h' : n.height ≤ depth') : src.argumentTo depth n = src.argumentTo depth' n := by
  have hpos := n.height_pos
  induction depth generalizing depth' n with
  | zero => omega
  | succ depth ih =>
      cases depth' with
      | zero => omega
      | succ depth' =>
          rw [argumentTo_succ, argumentTo_succ]
          apply argumentWith_congr
          intro c hc
          have hlt := height_lt_of_mem_inner hc
          exact ih (by omega) (by omega) c.height_pos

theorem argument_eq (src : Source) (n : Node) :
    src.argument n = src.argumentWith src.argument n := by
  have hlevel : src.argument n = src.argumentTo (n.height + 1) n :=
    argumentTo_eq_of_height_le (Nat.le_refl _) (Nat.le_succ _)
  rw [hlevel, argumentTo_succ]
  apply argumentWith_congr
  intro c hc
  exact argumentTo_eq_of_height_le (Nat.le_of_lt (height_lt_of_mem_inner hc)) (Nat.le_refl _)

end Levels

section Shapes

variable {src : Source} {n m p : Node} {a : Argument} {pair : String × Argument}

theorem passesPair_iff :
    src.PassesPair p pair ↔ src.pairWith? src.argument p = some pair := by
  constructor
  · rintro (⟨hkey, hvalue⟩ | ⟨hkey, hvalue⟩) <;> simp [pairWith?, hkey, hvalue]
  · intro h
    obtain ⟨key, hkey, rfl⟩ := Option.map_eq_some_iff.1 h
    cases hvalue : p.field? .value with
    | none => exact .bare hkey hvalue
    | some value => exact .valued hkey hvalue

theorem pairWith?_eq_none_iff {f : Node → Argument} :
    src.pairWith? f p = none ↔ p.field? .key = none := by
  rw [pairWith?, Option.map_eq_none_iff]

/-- Pairs are passed one by one by those that have a key. -/
theorem forall₂_passesPair (src : Source) (ps : List Node) :
    List.Forall₂ src.PassesPair (ps.filter fun p => (p.field? .key).isSome)
      (ps.filterMap (src.pairWith? src.argument)) := by
  induction ps with
  | nil => exact .nil
  | cons p rest ih =>
      cases hkey : p.field? .key with
      | none =>
          have hpair : src.pairWith? src.argument p = none := pairWith?_eq_none_iff.2 hkey
          rw [List.filter_cons_of_neg (by simp [hkey]), List.filterMap_cons_none hpair]
          exact ih
      | some key =>
          obtain ⟨pair, hpair⟩ : ∃ pair, src.pairWith? src.argument p = some pair := by
            rw [pairWith?, hkey]
            exact ⟨_, rfl⟩
          rw [List.filter_cons_of_pos (by simp [hkey]), List.filterMap_cons_some hpair]
          exact .cons (passesPair_iff.2 hpair) ih

/-- An argument that is neither a pair nor a hash has no pairs. -/
theorem leafArgument_plain (src : Source) (n : Node) : (src.leafArgument n).pairs = [] ∧
    (src.leafArgument n).kind ≠ .pair ∧ (src.leafArgument n).kind ≠ .hash := by
  cases hk : n.kind <;> simp only [leafArgument, hk]
  case string | delimitedSymbol => cases src.literal? n <;> simp [Argument.pairs, Argument.kind]
  all_goals simp [Argument.pairs, Argument.kind]

theorem literal?_eq_some_iff {content : String} : src.literal? n = some content ↔
    (∀ c ∈ n.named, c.kind = .stringContent) ∧ String.join (n.named.map src.text) = content := by
  simp [literal?]

/-- A literal names something exactly if it is nothing but content, which is then its name. -/
theorem leafArgument_of_literal (hk : n.kind = .string ∨ n.kind = .delimitedSymbol) :
    ((src.leafArgument n).isName = true ↔ ∀ c ∈ n.named, c.kind = .stringContent) ∧
      ((src.leafArgument n).isName = true →
        (src.leafArgument n).kind = (if n.kind = .string then .string else .symbol) ∧
          (src.leafArgument n).value = String.join (n.named.map src.text)) ∧
      ((src.leafArgument n).isName = false → (src.leafArgument n).kind = .other) := by
  cases hcontent : src.literal? n with
  | some content =>
      obtain ⟨hall, rfl⟩ := literal?_eq_some_iff.1 hcontent
      rcases hk with hk | hk <;>
        simpa [leafArgument, hk, hcontent, Argument.isName, Argument.kind, Argument.value]
          using hall
  | none =>
      have hall : ¬ ∀ c ∈ n.named, c.kind = .stringContent := by
        intro hall
        rw [literal?_eq_some_iff.2 ⟨hall, rfl⟩] at hcontent
        cases hcontent
      rcases hk with hk | hk <;>
        simpa [leafArgument, hk, hcontent, Argument.isName, Argument.kind] using hall

theorem argument_of_pair (hk : n.kind = .pair) (h : src.PassesPair n pair) :
    src.argument n = .mk .pair pair.1 (src.location n) [pair] := by
  rw [argument_eq, argumentWith, hk]
  simp only [passesPair_iff.1 h]

theorem argument_of_hash (hk : n.kind = .hash) : src.argument n =
    .mk .hash (src.text n) (src.location n)
      ((n.named.filter (·.kind = .pair)).filterMap (src.pairWith? src.argument)) := by
  rw [argument_eq, argumentWith, hk]

theorem argument_of_leaf (hpair : n.kind = .pair → n.field? .key = none)
    (hhash : n.kind ≠ .hash) : src.argument n = src.leafArgument n := by
  rw [argument_eq, argumentWith]
  split
  · rename_i hk
    rw [pairWith?_eq_none_iff.2 (hpair hk)]
  · rename_i hk
    exact (hhash hk).elim
  · rfl

theorem forms_of_hash (hk : n.kind = .hash) : src.Forms n (src.argument n) := by
  rw [argument_of_hash hk]
  exact
    { shaped := ⟨nofun, fun _ => .inr rfl⟩
      pair := by simp [Argument.kind, hk]
      hash := by simp [Argument.kind, hk]
      pairs := by
        rw [pairNodes, hk]
        exact src.forall₂_passesPair _
      literal := by simp [hk]
      content := by simp [hk]
      other := by simp [hk] }

theorem forms_of_pair (hk : n.kind = .pair) (h : src.PassesPair n pair) :
    src.Forms n (src.argument n) := by
  have hkey : (n.field? .key).isSome = true := by
    cases h with
    | valued hkey _ => rw [hkey, Option.isSome_some]
    | bare hkey _ => rw [hkey, Option.isSome_some]
  rw [argument_of_pair hk h]
  exact
    { shaped := ⟨fun _ => ⟨pair.2, rfl⟩, fun _ => .inl rfl⟩
      pair := by simp [Argument.kind, hk, hkey]
      hash := by simp [Argument.kind, hk]
      pairs := by
        simp only [pairNodes, hk, hkey, if_true]
        exact .cons h .nil
      literal := by simp [hk]
      content := by simp [hk]
      other := by simp [hk] }

theorem forms_of_leaf (hkey : n.kind = .pair → n.field? .key = none) (hhash : n.kind ≠ .hash) :
    src.Forms n (src.argument n) := by
  obtain ⟨hpairs, hnotPair, hnotHash⟩ := src.leafArgument_plain n
  have hunkeyed : ¬ (n.kind = .pair ∧ (n.field? .key).isSome = true) := by
    rintro ⟨hk, hsome⟩
    rw [hkey hk] at hsome
    cases hsome
  have hnone : pairNodes n = [] := by
    unfold pairNodes
    split
    · rename_i hk
      simp [hkey hk]
    · rename_i hk
      exact (hhash hk).elim
    · rfl
  rw [argument_of_leaf hkey hhash]
  exact
    { shaped := ⟨fun h => (hnotPair h).elim, fun h => (h hpairs).elim⟩
      pair := iff_of_false hnotPair hunkeyed
      hash := iff_of_false hnotHash hhash
      pairs := by
        rw [hnone, hpairs]
        exact .nil
      literal := fun hk => (leafArgument_of_literal hk).1
      content := fun hk => (leafArgument_of_literal hk).2.1
      other := fun hk => (leafArgument_of_literal hk).2.2 }

/-- Every argument comes from its node as stated. -/
theorem forms_argument (src : Source) (n : Node) : src.Forms n (src.argument n) := by
  by_cases hhash : n.kind = .hash
  · exact forms_of_hash hhash
  · by_cases hpair : n.kind = .pair
    · cases h : src.pairWith? src.argument n with
      | some pair => exact forms_of_pair hpair (passesPair_iff.2 h)
      | none => exact forms_of_leaf (fun _ => pairWith?_eq_none_iff.1 h) hhash
    · exact forms_of_leaf (fun hk => (hpair hk).elim) hhash

theorem isShaped_keyArgument (src : Source) (key : Node) : (src.keyArgument key).IsShaped :=
  ⟨nofun, fun h => (h rfl).elim⟩

theorem exists_key_of_mem_pairNodes (h : p ∈ pairNodes n) : ∃ key, p.field? .key = some key := by
  unfold pairNodes at h
  split at h
  · split at h
    · rename_i hkey
      rw [List.mem_singleton.1 h]
      exact Option.isSome_iff_exists.1 hkey
    · cases h
  · exact Option.isSome_iff_exists.1 (List.mem_filter.1 h).2
  · cases h

/-- What a pair passes is among the pairs of the argument. -/
theorem mem_pairs_of_passesPair (hp : p ∈ pairNodes n) (h : src.PassesPair p pair) :
    pair ∈ (src.argument n).pairs := by
  obtain ⟨other, hother, hpasses⟩ :=
    exists_of_forall₂_of_mem (src.forms_argument n).pairs.flip hp
  rw [passesPair_iff] at h hpasses
  rwa [Option.some.inj (h.symm.trans hpasses)]

theorem holds_of_nests (h : Nests n m) : (src.argument n).Holds (src.argument m) := by
  induction h with
  | start => exact .self
  | value _ hp hv ih =>
      obtain ⟨key, hkey⟩ := exists_key_of_mem_pairNodes hp
      exact .value ih (mem_pairs_of_passesPair hp (.valued hkey hv))

/-- An argument holds the arguments of the nodes that pairs lead to, and the keys that they have
alone, and nothing else. -/
theorem holds_argument_iff : (src.argument n).Holds a ↔
    (∃ m, Nests n m ∧ a = src.argument m) ∨
      ∃ m p key, Nests n m ∧ p ∈ pairNodes m ∧ p.field? .key = some key ∧
        p.field? .value = none ∧ a = src.keyArgument key := by
  constructor
  · intro h
    induction h with
    | self => exact .inl ⟨n, .start, rfl⟩
    | value _ hc ih =>
        rcases ih with ⟨m, hm, rfl⟩ | ⟨_, _, _, _, _, _, _, rfl⟩
        · obtain ⟨p, hp, hpasses⟩ := exists_of_forall₂_of_mem (src.forms_argument m).pairs hc
          cases hpasses with
          | valued _ hvalue => exact .inl ⟨_, .value hm hp hvalue, rfl⟩
          | bare hkey hvalue => exact .inr ⟨m, p, _, hm, hp, hkey, hvalue, rfl⟩
        · cases hc
  · rintro (⟨m, hm, rfl⟩ | ⟨m, p, key, hm, hp, hkey, hvalue, rfl⟩)
    · exact holds_of_nests hm
    · exact .value (holds_of_nests hm) (mem_pairs_of_passesPair hp (.bare hkey hvalue))

theorem isShaped_of_holds (h : (src.argument n).Holds a) : a.IsShaped := by
  rcases holds_argument_iff.1 h with ⟨m, -, rfl⟩ | ⟨_, _, key, -, -, -, -, rfl⟩
  · exact (src.forms_argument m).shaped
  · exact src.isShaped_keyArgument key

theorem Planned.exists_args {within : Bool} {act : Act} {scope : Scope} {s : Send}
    (h : src.Planned within n act) (hs : .send s ∈ act.deeds scope) :
    ∃ args : List Node, s.args = args.map src.argument := by
  cases h with
  | send =>
      cases List.mem_singleton.1 hs
      exact ⟨_, rfl⟩
  | enclosure | methodBody | singletonBody => simp [Act.deeds, deedsAll_walkAll] at hs
  | _ => simp [Act.deeds, Act.deedsAll, Act.walk, reference] at hs

/-- The arguments that plugins see are passed by nodes. -/
theorem exists_args_of_sent {plugins : List Plugin} {root : Node} {s : Send}
    (hs : .sent s ∈ (Walk.run src plugins root).events) :
    ∃ args : List Node, s.args = args.map src.argument := by
  obtain ⟨_, _, _, _, hact, _, hdeed⟩ := exists_plan_of_mem_deeds (Walk.sent_mem_events_run.1 hs)
  exact (planned_of_mem_plan hact).exists_args hdeed

end Shapes

/-- What a node passes comes from the node as stated. At any depth it holds the arguments of the
nodes that its pairs lead to, which come from these nodes in the same way, and keys alone, and all
of them have the shape that plugins rely on; and plugins see nothing else. -/
theorem arguments_wellShaped (src : Source) :
    (∀ n, src.Forms n (src.argument n)) ∧
      (∀ n a, (src.argument n).Holds a → a.IsShaped) ∧
      (∀ n a, (src.argument n).Holds a ↔
        (∃ m, Nests n m ∧ a = src.argument m) ∨
          ∃ m p key, Nests n m ∧ p ∈ pairNodes m ∧ p.field? .key = some key ∧
            p.field? .value = none ∧ a = src.keyArgument key) ∧
      ∀ plugins root s, .sent s ∈ (Walk.run src plugins root).events →
        ∀ a ∈ s.args, ∃ n, a = src.argument n := by
  refine ⟨src.forms_argument, fun n a => isShaped_of_holds, fun n a => holds_argument_iff, ?_⟩
  intro plugins root s hs a ha
  obtain ⟨args, hargs⟩ := exists_args_of_sent hs
  rw [hargs] at ha
  obtain ⟨n, _, rfl⟩ := List.mem_map.1 ha
  exact ⟨n, rfl⟩

/-- A keyword with a hash of two pairs: a key alone, and an interpolated literal. -/
def nestedSource : Source :=
  ⟨"a.rb", Utf8.encode "f k: \x7bb:, \"c\" => \"#\x7by\x7d\"\x7d"⟩

def nestedText : Node :=
  .mk .string ⟨17, 23, ⟨0, 17⟩, ⟨0, 23⟩⟩ ⟨true, false, false⟩ []
    [.mk (.other "interpolation") ⟨18, 22, ⟨0, 18⟩, ⟨0, 22⟩⟩ ⟨true, false, false⟩ []
      [.mk .identifier ⟨20, 21, ⟨0, 20⟩, ⟨0, 21⟩⟩ ⟨true, false, false⟩ [] []]]

def nestedHash : Node :=
  .mk .hash ⟨5, 24, ⟨0, 5⟩, ⟨0, 24⟩⟩ ⟨true, false, false⟩ []
    [.mk .pair ⟨6, 8, ⟨0, 6⟩, ⟨0, 8⟩⟩ ⟨true, false, false⟩ [(.key, 0)]
      [.mk (.other "hash_key_symbol") ⟨6, 7, ⟨0, 6⟩, ⟨0, 7⟩⟩ ⟨true, false, false⟩ [] []],
      .mk .pair ⟨10, 23, ⟨0, 10⟩, ⟨0, 23⟩⟩ ⟨true, false, false⟩ [(.key, 0), (.value, 1)]
        [.mk .string ⟨10, 13, ⟨0, 10⟩, ⟨0, 13⟩⟩ ⟨true, false, false⟩ []
          [.mk .stringContent ⟨11, 12, ⟨0, 11⟩, ⟨0, 12⟩⟩ ⟨true, false, false⟩ [] []],
          nestedText]]

def nestedPair : Node :=
  .mk .pair ⟨2, 24, ⟨0, 2⟩, ⟨0, 24⟩⟩ ⟨true, false, false⟩ [(.key, 0), (.value, 1)]
    [.mk (.other "hash_key_symbol") ⟨2, 3, ⟨0, 2⟩, ⟨0, 3⟩⟩ ⟨true, false, false⟩ [] [], nestedHash]

def nestedCall : Node :=
  .mk .call ⟨0, 24, ⟨0, 0⟩, ⟨0, 24⟩⟩ ⟨true, false, false⟩ [(.method, 0), (.arguments, 1)]
    [.mk .identifier ⟨0, 1, ⟨0, 0⟩, ⟨0, 1⟩⟩ ⟨true, false, false⟩ [] [],
      .mk (.other "argument_list") ⟨2, 24, ⟨0, 2⟩, ⟨0, 24⟩⟩ ⟨true, false, false⟩ [] [nestedPair]]

theorem nests_nestedText : Nests nestedPair nestedText :=
  .value (.value .start (.head _) rfl) (.tail _ (.head _)) rfl

theorem arguments_wellShaped_nested :
    ((nestedSource.argument nestedPair).Holds (nestedSource.argument nestedText) ∧
        (nestedSource.argument nestedText).IsShaped ∧
        (nestedSource.argument nestedText).kind = .other) ∧
      ∃ s, .sent s ∈ (Walk.run nestedSource [.ruby] nestedCall).events ∧ s.args.length = 1 ∧
        ∀ a ∈ s.args, ∃ n, a = nestedSource.argument n := by
  obtain ⟨hforms, hshape, hholds, hsent⟩ := arguments_wellShaped nestedSource
  have hany : (Walk.run nestedSource [.ruby] nestedCall).events.any (fun
      | .sent s => s.args.length == 1
      | _ => false) = true := by
    decide +kernel
  obtain ⟨e, he, hone⟩ := List.any_eq_true.1 hany
  have htext := (hholds nestedPair (nestedSource.argument nestedText)).2
    (.inl ⟨nestedText, nests_nestedText, rfl⟩)
  have hname : (nestedSource.argument nestedText).isName = false := by
    rw [← Bool.not_eq_true, (hforms nestedText).literal (.inl rfl)]
    decide
  cases e with
  | sent s =>
      exact ⟨⟨htext, hshape _ _ htext, (hforms nestedText).other (.inl rfl) hname⟩, s, he,
        by simpa using hone, hsent _ _ _ he⟩
  | _ => cases hone

end Source
end Fallow
