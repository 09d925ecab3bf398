import Fallow.Proofs.Keywords
import Fallow.Proofs.Order
import Mathlib.Data.Prod.Lex
import Mathlib.Order.Bounds.Basic

/-!
# Places of keywords

The pair and hash arguments of a send pass keywords. A keyword is passed at a place: that of the
argument, and then that of the pair in the argument. The keywords of a send are listed by the first
place of each, with the value that stands at its last place.
-/

namespace Fallow

namespace Json

section Times

variable {ι α : Type} [LinearOrder ι] {settings : List (ι × String × α)} {key : String} {value : α}

/-- The times at which a member is set. -/
def times (settings : List (ι × String × α)) (key : String) : Set ι :=
  {i | ∃ value, (i, key, value) ∈ settings}

/-- The last setting of a member is the one at the latest time. -/
theorem lastMember_iff_isGreatest (h : settings.Pairwise fun p q => p.1 < q.1) :
    LastMember (settings.map (·.2)) key value ↔
      ∃ i, IsGreatest (times settings key) i ∧ (i, key, value) ∈ settings := by
  constructor
  · rintro ⟨before, after, hsplit, hafter⟩
    obtain ⟨earlier, last, rfl, -, hlast⟩ := List.map_eq_append_iff.1 hsplit
    obtain ⟨⟨i, member⟩, later, rfl, rfl, rfl⟩ := List.map_eq_cons_iff.1 hlast
    have hmem : (i, key, value) ∈ earlier ++ (i, key, value) :: later := by simp
    refine ⟨i, ⟨⟨value, hmem⟩, ?_⟩, hmem⟩
    rintro j ⟨other, hother⟩
    rcases List.mem_append.1 hother with hearlier | hlater
    · exact ((List.pairwise_append.1 h).2.2 _ hearlier _ List.mem_cons_self).le
    · rcases List.mem_cons.1 hlater with heq | hlater
      · exact (congrArg Prod.fst heq).le
      · exact absurd rfl (hafter _ (List.mem_map_of_mem hlater))
  · rintro ⟨i, ⟨-, hgreatest⟩, hmem⟩
    obtain ⟨earlier, later, rfl⟩ := List.append_of_mem hmem
    refine ⟨earlier.map (·.2), later.map (·.2), by simp, ?_⟩
    rintro p hp rfl
    obtain ⟨q, hq, rfl⟩ := List.mem_map.1 hp
    have hlt : i < q.1 := (List.pairwise_cons.1 (List.pairwise_append.1 h).2.1).1 q hq
    exact absurd (hgreatest ⟨q.2.2, by simp [hq]⟩) hlt.not_ge

theorem isLeast_times_append {more : List (ι × String × α)} {i : ι}
    (h : (settings ++ more).Pairwise fun p q => p.1 < q.1) (hi : IsLeast (times settings key) i) :
    IsLeast (times (settings ++ more) key) i := by
  obtain ⟨⟨first, hfirst⟩, hleast⟩ := hi
  refine ⟨⟨first, List.mem_append_left _ hfirst⟩, ?_⟩
  rintro j ⟨other, hother⟩
  rcases List.mem_append.1 hother with hold | hnew
  · exact hleast ⟨other, hold⟩
  · exact ((List.pairwise_append.1 h).2.2 _ hfirst _ hnew).le

/-- One member is first set before another. -/
def SetsBefore (settings : List (ι × String × α)) (key key' : String) : Prop :=
  ∃ i i', IsLeast (times settings key) i ∧ IsLeast (times settings key') i' ∧ i < i'

theorem SetsBefore.append {more : List (ι × String × α)} {key' : String}
    (h : (settings ++ more).Pairwise fun p q => p.1 < q.1) (hkeys : SetsBefore settings key key') :
    SetsBefore (settings ++ more) key key' := by
  obtain ⟨i, i', hi, hi', hlt⟩ := hkeys
  exact ⟨i, i', isLeast_times_append h hi, isLeast_times_append h hi', hlt⟩

/-- A member that is set at all has a first time. -/
theorem exists_isLeast_times (h : settings.Pairwise fun p q => p.1 < q.1)
    (hkey : key ∈ settings.map (·.2.1)) : ∃ p ∈ settings, IsLeast (times settings key) p.1 := by
  obtain ⟨before, after, hsplit, hbefore⟩ := List.eq_append_cons_of_mem hkey
  obtain ⟨earlier, rest, rfl, rfl, hrest⟩ := List.map_eq_append_iff.1 hsplit
  obtain ⟨p, later, rfl, rfl, -⟩ := List.map_eq_cons_iff.1 hrest
  have hp : p ∈ earlier ++ p :: later := by simp
  refine ⟨p, hp, ⟨p.2.2, hp⟩, ?_⟩
  rintro j ⟨other, hother⟩
  rcases List.mem_append.1 hother with hearlier | hlater
  · exact absurd (List.mem_map_of_mem (f := (·.2.1)) hearlier) hbefore
  · rcases List.mem_cons.1 hlater with heq | hlater
    · exact (congrArg Prod.fst heq).ge
    · exact ((List.pairwise_cons.1 (List.pairwise_append.1 h).2.1).1 _ hlater).le

/-- A member that was not set before is first set now. -/
theorem isLeast_times_new {last : ι × String × α} (h : last.2.1 ∉ settings.map (·.2.1)) :
    IsLeast (times (settings ++ [last]) last.2.1) last.1 := by
  refine ⟨⟨last.2.2, by simp⟩, ?_⟩
  rintro j ⟨other, hother⟩
  rcases List.mem_append.1 hother with hother | hother
  · exact absurd (List.mem_map_of_mem (f := (·.2.1)) hother) h
  · exact (congrArg Prod.fst (List.mem_singleton.1 hother)).ge

/-- One more setting adds its member behind the others, unless it was set before. -/
theorem pairwise_setsBefore (h : settings.Pairwise fun p q => p.1 < q.1) :
    (settings.map (·.2.1)).eraseDups.Pairwise (SetsBefore settings) := by
  induction settings using List.reverseRecOn with
  | nil => exact List.Pairwise.nil
  | append_singleton settings last ih =>
      obtain ⟨hold, -, hlast⟩ := List.pairwise_append.1 h
      have hkept := (ih hold).imp (SetsBefore.append h)
      rw [List.map_append, List.map_singleton, eraseDups_append_singleton]
      split
      · exact hkept
      · refine List.pairwise_append.2 ⟨hkept, List.pairwise_singleton _ _, ?_⟩
        intro key hkey key' hkey'
        obtain rfl := List.mem_singleton.1 hkey'
        obtain ⟨p, hp, hfirst⟩ := exists_isLeast_times hold (List.mem_eraseDups.1 hkey)
        exact ⟨p.1, last.1, isLeast_times_append h hfirst, isLeast_times_new ‹_›,
          hlast p hp last List.mem_cons_self⟩

end Times

end Json

namespace Send

/-- An argument passes a value under a key. The first number is the place of the argument, the
second that of the pair in it; what the value holds is passed by no argument. -/
def Passes (s : Send) (place : Nat × Nat) (key : String) (value : Argument) : Prop :=
  ∃ a, s.args[place.1]? = some a ∧ (a.kind = .pair ∨ a.kind = .hash) ∧
    a.pairs[place.2]? = some (key, value)

/-- The places at which a key is passed, ordered by argument and then by pair. -/
def places (s : Send) (key : String) : Set (Nat ×ₗ Nat) :=
  {place | ∃ value, s.Passes (ofLex place) key value}

/-- All that is passed, each with its place. -/
def passed (s : Send) : List ((Nat ×ₗ Nat) × String × Argument) :=
  (s.args.zipIdx.filter (·.1.hasKeywords)).flatMap fun a =>
    a.1.pairs.zipIdx.map fun p => (toLex (a.2, p.2), p.1)

theorem hasKeywords_iff {a : Argument} :
    a.hasKeywords = true ↔ a.kind = .pair ∨ a.kind = .hash := by
  simp [Argument.hasKeywords]

theorem mem_passed {s : Send} {place : Nat ×ₗ Nat} {key : String} {value : Argument} :
    (place, key, value) ∈ s.passed ↔ s.Passes (ofLex place) key value := by
  simp only [passed, Passes, List.mem_flatMap, List.mem_filter, List.mem_map, Prod.exists,
    List.mem_zipIdx_iff_getElem?, hasKeywords_iff]
  constructor
  · rintro ⟨a, i, ⟨ha, hkind⟩, k, v, j, hpair, heq⟩
    obtain ⟨rfl, rfl, rfl⟩ : toLex (i, j) = place ∧ k = key ∧ v = value := by simpa using heq
    exact ⟨a, ha, hkind, hpair⟩
  · rintro ⟨a, ha, hkind, hpair⟩
    exact ⟨a, _, ⟨ha, hkind⟩, key, value, _, hpair, rfl⟩

theorem map_snd_passed (s : Send) :
    s.passed.map (·.2) = (s.args.filter (·.hasKeywords)).flatMap (·.pairs) := by
  have hargs : (s.args.zipIdx.filter (·.1.hasKeywords)).map (·.1) =
      s.args.filter (·.hasKeywords) := by
    conv_rhs => rw [← List.zipIdx_map_fst 0 s.args, List.filter_map]
    rfl
  have hpairs : ∀ a : Argument × Nat,
      (a.1.pairs.zipIdx.map fun p => (toLex (a.2, p.2), p.1)).map (·.2) = a.1.pairs := fun a => by
    rw [List.map_map]
    exact List.zipIdx_map_fst 0 a.1.pairs
  rw [passed, List.map_flatMap, ← hargs, List.flatMap_map]
  simp only [hpairs]

theorem pairwise_zipIdx {α : Type} (l : List α) : l.zipIdx.Pairwise fun p q => p.2 < q.2 := by
  have hrange : (l.zipIdx.map (·.2)).Pairwise (· < ·) := by
    rw [List.zipIdx_map_snd]
    exact List.pairwise_lt_range'
  exact List.pairwise_map.1 hrange

/-- What is passed stands in the order of the places. -/
theorem pairwise_passed (s : Send) : s.passed.Pairwise fun p q => p.1 < q.1 := by
  rw [passed, List.pairwise_flatMap]
  constructor
  · intro a _
    rw [List.pairwise_map]
    apply (pairwise_zipIdx a.1.pairs).imp
    intro p q h
    exact Prod.Lex.toLex_lt_toLex.2 (.inr ⟨rfl, h⟩)
  · apply ((pairwise_zipIdx s.args).filter _).imp
    intro a b h p hp q hq
    obtain ⟨_, -, rfl⟩ := List.mem_map.1 hp
    obtain ⟨_, -, rfl⟩ := List.mem_map.1 hq
    exact Prod.Lex.toLex_lt_toLex.2 (.inl h)

theorem times_passed (s : Send) : Json.times s.passed = s.places :=
  funext fun _ => Set.ext fun _ => exists_congr fun _ => mem_passed

theorem keywords_eq (s : Send) : s.keywords = Json.ofMembers (s.passed.map (·.2)) := by
  rw [keywords, map_snd_passed]

theorem map_fst_keywords (s : Send) :
    s.keywords.map (·.1) = (s.passed.map (·.2.1)).eraseDups := by
  rw [keywords_eq, Json.map_fst_ofMembers, List.map_map]
  rfl

/-- The keywords of a send are a dictionary: no key twice, those keys that are passed in the order
of their first places, and each with the value at its last place. -/
theorem keywords_exact (s : Send) :
    (s.keywords.map (·.1)).Nodup ∧
    (∀ key, key ∈ s.keywords.map (·.1) ↔ (s.places key).Nonempty) ∧
    (s.keywords.map (·.1)).Pairwise (fun key key' => ∃ place place',
      IsLeast (s.places key) place ∧ IsLeast (s.places key') place' ∧ place < place') ∧
    ∀ key value, (key, value) ∈ s.keywords ↔
      ∃ place, IsGreatest (s.places key) place ∧ s.Passes (ofLex place) key value := by
  have hnodup : (s.keywords.map (·.1)).Nodup := by
    rw [map_fst_keywords]
    exact nodup_eraseDups
  refine ⟨hnodup, fun key => ?_, ?_, fun key value => ?_⟩
  · rw [map_fst_keywords, List.mem_eraseDups, ← times_passed]
    simp [Set.Nonempty, Json.times]
  · rw [map_fst_keywords, ← times_passed]
    exact Json.pairwise_setsBefore s.pairwise_passed
  · rw [← Json.lookup_eq_some_iff_mem hnodup, keywords_eq, Json.lookup_ofMembers_eq_some_iff,
      Json.lastMember_iff_isGreatest s.pairwise_passed, times_passed]
    simp only [mem_passed]

end Send
end Fallow
