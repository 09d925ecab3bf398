import Fallow.Send
import Mathlib.Data.List.Induction

/-!
# Keywords of a send

Members that are set one after the other stand in the order in which they were first set, each with
its last value. So a keyword that is passed several times has its last value. The pairs of all pair
and hash arguments count, in the order in which they are written.
-/

namespace Fallow

namespace Json

variable {α : Type}

theorem lookup_cons_eq_ite (name key : String) (value : α) (members : List (String × α)) :
    ((name, value) :: members).lookup key =
      if key = name then some value else members.lookup key := by
  by_cases h : key = name
  · simp [h]
  · have hbeq : (key == name) = false := beq_eq_false_iff_ne.2 h
    simp [List.lookup_cons, hbeq, h]

theorem lookup_eq_some_iff_mem {members : List (String × α)} (hnames : (members.map (·.1)).Nodup)
    {name : String} {value : α} :
    members.lookup name = some value ↔ (name, value) ∈ members := by
  induction members with
  | nil => simp
  | cons member rest ih =>
      obtain ⟨key, other⟩ := member
      rw [List.map_cons, List.nodup_cons] at hnames
      rw [lookup_cons_eq_ite, List.mem_cons, Prod.mk.injEq]
      by_cases hkey : name = key
      · subst hkey
        have hrest : (name, value) ∉ rest := fun hmem =>
          hnames.1 (List.mem_map_of_mem (f := (·.1)) hmem)
        simp [hrest, eq_comm]
      · simp [hkey, ih hnames.2]

theorem lookup_setMember (name key : String) (value : α) (members : List (String × α)) :
    (setMember name value members).lookup key =
      if key = name then some value else members.lookup key := by
  induction members with
  | nil => rw [setMember, lookup_cons_eq_ite]
  | cons head rest ih =>
      obtain ⟨other, old⟩ := head
      by_cases hother : other = name
      · subst hother
        rw [setMember, if_pos rfl, lookup_cons_eq_ite, lookup_cons_eq_ite]
        split <;> rfl
      · rw [setMember, if_neg hother, lookup_cons_eq_ite, lookup_cons_eq_ite, ih]
        by_cases h : key = other
        · subst h
          rw [if_pos rfl, if_neg hother, if_pos rfl]
        · rw [if_neg h, if_neg h]

/-- Of several settings of a member the last one counts. -/
theorem lookup_ofMembers (key : String) (members : List (String × α)) :
    (ofMembers members).lookup key = members.reverse.lookup key := by
  have hfold : ∀ done : List (String × α),
      (members.foldl (fun done (p : String × α) => setMember p.1 p.2 done) done).lookup key =
        (members.reverse.lookup key).or (done.lookup key) := by
    induction members with
    | nil => intro done; rfl
    | cons head rest ih =>
        intro done
        obtain ⟨name, value⟩ := head
        rw [List.foldl_cons, ih, lookup_setMember, List.reverse_cons, List.lookup_append,
          lookup_cons_eq_ite, Option.or_assoc]
        split <;> rfl
  have hstart := hfold []
  rw [List.lookup_nil, Option.or_none] at hstart
  exact hstart

/-- The last setting of a member. -/
def LastMember (members : List (String × α)) (key : String) (value : α) : Prop :=
  ∃ before after, members = before ++ (key, value) :: after ∧ ∀ p ∈ after, p.1 ≠ key

theorem LastMember.map {β : Type} (f : α → β) {members : List (String × α)} {key : String}
    {value : α} (h : LastMember members key value) :
    LastMember (members.map fun p => (p.1, f p.2)) key (f value) := by
  obtain ⟨before, after, rfl, hafter⟩ := h
  refine ⟨_, _, by rw [List.map_append, List.map_cons], fun p hp => ?_⟩
  obtain ⟨q, hq, rfl⟩ := List.mem_map.1 hp
  exact hafter q hq

theorem lookup_ofMembers_eq_some_iff {members : List (String × α)} {key : String} {value : α} :
    (ofMembers members).lookup key = some value ↔ LastMember members key value := by
  rw [lookup_ofMembers, List.lookup_eq_some_iff]
  constructor
  · rintro ⟨after, before, hsplit, hafter⟩
    refine ⟨before.reverse, after.reverse, ?_, ?_⟩
    · rw [← List.reverse_reverse members, hsplit]
      simp
    · intro p hp heq
      have hne := hafter p (List.mem_reverse.1 hp)
      simp [heq] at hne
  · rintro ⟨before, after, hsplit, hafter⟩
    refine ⟨after.reverse, before.reverse, ?_, ?_⟩
    · rw [hsplit]
      simp
    · intro p hp
      have hne := hafter p (List.mem_reverse.1 hp)
      simpa using Ne.symm hne

theorem lookup_ofMembers_eq_none_iff {members : List (String × α)} {key : String} :
    (ofMembers members).lookup key = none ↔ ∀ p ∈ members, p.1 ≠ key := by
  rw [lookup_ofMembers, List.lookup_eq_none_iff]
  simp only [List.mem_reverse, bne_iff_ne, ne_comm]

theorem map_fst_setMember (name : String) (value : α) (members : List (String × α)) :
    (setMember name value members).map (·.1) =
      if name ∈ members.map (·.1) then members.map (·.1) else members.map (·.1) ++ [name] := by
  induction members with
  | nil => rfl
  | cons head rest ih =>
      obtain ⟨key, old⟩ := head
      by_cases hkey : key = name
      · simp [setMember, hkey]
      · rw [setMember, if_neg hkey, List.map_cons, ih, List.map_cons]
        by_cases hrest : name ∈ rest.map (·.1)
        · rw [if_pos hrest, if_pos (List.mem_cons_of_mem _ hrest)]
        · rw [if_neg hrest, if_neg (by simp [Ne.symm hkey, hrest]), List.cons_append]

theorem eraseDups_append_singleton (names : List String) (name : String) :
    (names ++ [name]).eraseDups =
      if name ∈ names then names.eraseDups else names.eraseDups ++ [name] := by
  rw [List.eraseDups_append]
  by_cases h : name ∈ names <;> simp [List.removeAll, h, List.eraseDups_cons]

/-- Members stand in the order in which they were first set. -/
theorem map_fst_ofMembers (members : List (String × α)) :
    (ofMembers members).map (·.1) = (members.map (·.1)).eraseDups := by
  induction members using List.reverseRecOn with
  | nil => rfl
  | append_singleton members last ih =>
      have hlast : ofMembers (members ++ [last]) = setMember last.1 last.2 (ofMembers members) := by
        rw [ofMembers, List.foldl_append]
        rfl
      rw [hlast, map_fst_setMember, ih, List.map_append, List.map_singleton,
        eraseDups_append_singleton]
      simp only [List.mem_eraseDups]

end Json

namespace Send

/-- The last pair with a key among the pairs of all pair and hash arguments. -/
def LastPair (s : Send) (key : String) (a : Argument) : Prop :=
  ∃ before after, (s.args.filter (·.hasKeywords)).flatMap (·.pairs) = before ++ (key, a) :: after ∧
    ∀ p ∈ after, p.1 ≠ key

theorem keyword?_eq_some_iff {s : Send} {key : String} {a : Argument} :
    s.keyword? key = some a ↔ s.LastPair key a :=
  Json.lookup_ofMembers_eq_some_iff

end Send
end Fallow
