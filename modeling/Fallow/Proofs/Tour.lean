import Fallow.Proofs.Spots
import Mathlib.Data.List.Flatten

/-!
# The tour of a walk

The spots that a walk visits, in order. A tour goes down from spot to spot; no spot is visited
twice.
-/

namespace Fallow

open Syntax

namespace Act

mutual

/-- An act visits the nodes it leads to, each followed by what that leads to. -/
theorem sites_fill (f : Bool → Node → List Act) : ∀ (within : Bool) (a : Act),
    (fill f within a).sites = (a.visits within).flatMap fun v => v.2 :: sitesAll (f v.1 v.2)
  | within, .visit site _ => by simp [fill, sites, visits]
  | within, .inline _ acts => by rw [fill, sites, visits, sitesAll_fillAll]
  | within, .methodBody acts => by rw [fill, sites, visits, sitesAll_fillAll]
  | within, .enclosure _ _ _ _ acts => by rw [fill, sites, visits, sitesAll_fillAll]
  | within, .singletonBody acts => by rw [fill, sites, visits, sitesAll_fillAll]
  | _, .refer _ _ | _, .send _ | _, .declare _ | _, .remark _ _
  | _, .constant _ _ _ | _, .accessor _ _ | _, .method _ _ _ => rfl

theorem sitesAll_fillAll (f : Bool → Node → List Act) : ∀ (within : Bool) (acts : List Act),
    sitesAll (fillAll f within acts) =
      (visitsAll within acts).flatMap fun v => v.2 :: sitesAll (f v.1 v.2)
  | _, [] => rfl
  | within, a :: rest => by
      rw [fillAll, sitesAll, visitsAll, List.flatMap_append, sites_fill, sitesAll_fillAll]

end

end Act

namespace Source

/-- The visits that follow from the visit of a spot, down to a number of levels. -/
def tourTo (src : Source) : Nat → Bool → Spot → List (Bool × Spot)
  | 0, _, _ => []
  | depth + 1, within, s =>
    (within, s) :: (s.successors src within).flatMap
      (src.tourTo depth (within || s.node.kind.isMethod))

/-- The visits that follow from the visit of a spot, in order, each with whether it takes place in a
method. -/
def tour (src : Source) (within : Bool) (s : Spot) : List (Bool × Spot) :=
  src.tourTo s.node.height within s

section Tours

variable {src : Source} {within : Bool} {s t : Spot}

theorem node_mem_inner_of_mem_successors (h : t ∈ s.successors src within) :
    t.node ∈ s.node.inner := by
  have hnode : t.node ∈ src.successors within s.node := by
    rw [Spot.successors_node]
    exact List.mem_map_of_mem h
  exact mem_inner_of_mem_successors hnode

theorem height_lt_of_mem_successors (h : t ∈ s.successors src within) :
    t.node.height < s.node.height :=
  Node.height_lt_of_mem_inner (node_mem_inner_of_mem_successors h)

theorem rolesApart_of_mem_successors (hroles : s.node.RolesApart)
    (h : t ∈ s.successors src within) : t.node.RolesApart :=
  hroles.of_mem (Node.mem_preorder_of_mem_inner (node_mem_inner_of_mem_successors h))

/-- Levels beyond the height of a node add nothing to its tour. -/
theorem tourTo_eq_of_height_le {depth depth' : Nat} (h : s.node.height ≤ depth)
    (h' : s.node.height ≤ depth') : src.tourTo depth within s = src.tourTo depth' within s := by
  have hpos := s.node.height_pos
  induction depth generalizing depth' within s with
  | zero => omega
  | succ depth ih =>
      cases depth' with
      | zero => omega
      | succ depth' =>
          rw [tourTo, tourTo]
          congr 1
          apply List.flatMap_congr
          intro t ht
          have hlt := height_lt_of_mem_successors ht
          exact ih (by omega) (by omega) t.node.height_pos

theorem tour_eq (src : Source) (within : Bool) (s : Spot) :
    src.tour within s = (within, s) :: (s.successors src within).flatMap
      (src.tour (within || s.node.kind.isMethod)) := by
  have hroot : src.tour within s = src.tourTo (s.node.height + 1) within s :=
    tourTo_eq_of_height_le (Nat.le_refl _) (Nat.le_succ _)
  rw [hroot, tourTo]
  congr 1
  apply List.flatMap_congr
  intro t ht
  exact tourTo_eq_of_height_le (Nat.le_of_lt (height_lt_of_mem_successors ht)) (Nat.le_refl _)

/-- What holds of a spot if it holds of its successors holds of every spot. -/
theorem tour_induction (src : Source) {P : Bool → Spot → Prop}
    (step : ∀ within s, (∀ t ∈ s.successors src within, P (within || s.node.kind.isMethod) t) →
      P within s) (within : Bool) (s : Spot) : P within s := by
  induction hh : s.node.height using Nat.strongRecOn generalizing within s with
  | ind height ih =>
      apply step
      intro t ht
      exact ih t.node.height (hh ▸ height_lt_of_mem_successors ht) _ t rfl

/-- The nodes of a tour are those that the walk visits. -/
theorem map_node_tour (src : Source) (within : Bool) (s : Spot) :
    (src.tour within s).map (·.2.node) =
      (Act.visit s.node (src.outline within s.node)).sites := by
  induction within, s using tour_induction src with
  | step within s ih =>
      rw [tour_eq, outline_eq, Act.sites, Act.sitesAll_fillAll, visitsAll_plan,
        Spot.successors_node, List.map_cons, List.map_flatMap, List.map_map, List.flatMap_map]
      congr 1
      apply List.flatMap_congr
      intro t ht
      exact ih t ht

/-- A tour stays at its spot or below. -/
theorem above_of_mem_tour {v : Bool × Spot} (hroles : s.node.RolesApart)
    (hv : v ∈ src.tour within s) : s.Above v.2 := by
  induction within, s using tour_induction src with
  | step within s ih =>
      rw [tour_eq] at hv
      rcases List.mem_cons.1 hv with rfl | hv
      · exact .refl s
      · obtain ⟨t, ht, hv⟩ := List.mem_flatMap.1 hv
        have hbelow := ih t ht (rolesApart_of_mem_successors hroles ht) hv
        exact ((Spot.spread_successors hroles).above ht).trans hbelow

/-- No spot is visited twice. -/
theorem nodup_tour (hroles : s.node.RolesApart) :
    ((src.tour within s).map (·.2.way)).Nodup := by
  induction within, s using tour_induction src with
  | step within s ih =>
      have hspread : s.Spread (s.successors src within) := Spot.spread_successors hroles
      have hbelow : ∀ t ∈ s.successors src within,
          ∀ v ∈ src.tour (within || s.node.kind.isMethod) t, t.Above v.2 :=
        fun t ht v hv => above_of_mem_tour (rolesApart_of_mem_successors hroles ht) hv
      rw [tour_eq, List.map_cons, List.nodup_cons, List.map_flatMap, List.nodup_flatMap]
      refine ⟨?_, fun t ht => ih t ht (rolesApart_of_mem_successors hroles ht), ?_⟩
      · -- the spot itself is above all that follows
        intro hmem
        obtain ⟨t, ht, hmem⟩ := List.mem_flatMap.1 hmem
        obtain ⟨v, hv, hway⟩ := List.mem_map.1 hmem
        exact hspread.not_isPrefix ht (hway ▸ (hbelow t ht v hv).way)
      · apply hspread.apart.imp_of_mem
        intro t u ht hu hapart way hmem hmem'
        obtain ⟨v, hv, rfl⟩ := List.mem_map.1 hmem
        obtain ⟨w, hw, hway⟩ := List.mem_map.1 hmem'
        exact (hapart.mono (hbelow t ht v hv) (hbelow u hu w hw)).way_ne hway.symm

end Tours

end Source

end Fallow
