import Fallow.Pattern.Search

/-!
# Runs of characters

How patterns match that are made of anchors, characters, runs of characters and groups. A run can
end after any number of characters of its set, and the longest run is preferred. What can be
matched is stated by the characters that a cursor passes, and what is preferred by the first of
the places where a pattern can end.
-/

namespace Fallow.Pattern

/-- A cursor goes on to another one and passes some characters on its way. -/
structure Cursor.Passes (c : Cursor) (chars : List Char) (d : Cursor) : Prop where
  rest : c.rest = chars ++ d.rest
  passed : d.passed = chars.reverse ++ c.passed
  groups : d.groups = c.groups

namespace Cursor

variable {c d e : Cursor} {chars others : List Char}

theorem exists_passes {rest : List Char} (h : c.rest = chars ++ rest) :
    ∃ d, c.Passes chars d ∧ d.rest = rest :=
  ⟨⟨chars.reverse ++ c.passed, rest, c.groups⟩, ⟨h, rfl, rfl⟩, rfl⟩

namespace Passes

theorem refl (c : Cursor) : c.Passes [] c :=
  ⟨rfl, rfl, rfl⟩

theorem trans (h : c.Passes chars d) (h' : d.Passes others e) : c.Passes (chars ++ others) e where
  rest := by rw [h.rest, h'.rest, List.append_assoc]
  passed := by rw [h'.passed, h.passed, List.reverse_append, List.append_assoc]
  groups := h'.groups.trans h.groups

theorem eq (h : c.Passes chars d) (h' : c.Passes chars e) : d = e := by
  have hrest : d.rest = e.rest := List.append_cancel_left (h.rest.symm.trans h'.rest)
  have hpassed : d.passed = e.passed := h.passed.trans h'.passed.symm
  have hgroups : d.groups = e.groups := h.groups.trans h'.groups.symm
  cases d
  cases e
  cases hrest
  cases hpassed
  cases hgroups
  rfl

/-- What is passed can be cut in two. -/
theorem split (h : c.Passes (chars ++ others) e) : ∃ d, c.Passes chars d ∧ d.Passes others e := by
  obtain ⟨d, hd, hrest⟩ := exists_passes (c := c) (h.rest.trans (List.append_assoc ..))
  refine ⟨d, hd, hrest, ?_, h.groups.trans hd.groups.symm⟩
  rw [h.passed, hd.passed, List.reverse_append, List.append_assoc]

theorem uncons {x : Char} (h : c.Passes (x :: chars) e) : ∃ d, c.Passes [x] d ∧ d.Passes chars e :=
  @split c e [x] chars h

theorem eq_self (h : c.Passes [] d) : d = c :=
  h.eq (refl c)

theorem length_eq (h : c.Passes chars d) : c.rest.length = chars.length + d.rest.length := by
  rw [h.rest, List.length_append]

theorem length_le (h : c.Passes chars d) : d.rest.length ≤ c.rest.length := by
  rw [h.length_eq]
  exact Nat.le_add_left ..

theorem length_lt {x : Char} (h : c.Passes (x :: chars) d) : d.rest.length < c.rest.length := by
  rw [h.length_eq, List.length_cons]
  omega

theorem since_eq (h : c.Passes chars d) : c.since d = chars := by
  rw [since, h.length_eq, h.rest, Nat.add_sub_cancel, List.take_left]

end Passes

theorem passes_cons_iff {x y : Char} {passed rest : List Char} {groups : List (Nat × List Char)} :
    (⟨passed, x :: rest, groups⟩ : Cursor).Passes (y :: chars) c ↔
      y = x ∧ (⟨x :: passed, rest, groups⟩ : Cursor).Passes chars c := by
  constructor
  · rintro ⟨hrest, hpassed, hgroups⟩
    obtain ⟨hx, hlater⟩ := List.cons.inj hrest
    subst hx
    exact ⟨rfl, hlater, by simpa using hpassed, hgroups⟩
  · rintro ⟨rfl, hrest, hpassed, hgroups⟩
    exact ⟨congrArg _ hrest, by simpa using hpassed, hgroups⟩

end Cursor

section Steps

variable {a b : Pattern} {set : Chars} {c d e : Cursor}

theorem ends_seq : ends (.seq a b) c = ((ends a c).flatMap (ends b)).eraseDups :=
  rfl

theorem ends_anchor {anchor : Anchor} :
    ends (.anchor anchor) c = if c.atAnchor anchor = true then [c] else [] :=
  rfl

theorem ends_chars_nil {passed : List Char} {groups : List (Nat × List Char)} :
    ends (.chars set) ⟨passed, [], groups⟩ = [] :=
  rfl

theorem ends_chars_cons {x : Char} {passed rest : List Char} {groups : List (Nat × List Char)} :
    ends (.chars set) ⟨passed, x :: rest, groups⟩ =
      if set.has x = true then [⟨x :: passed, rest, groups⟩] else [] :=
  rfl

theorem ends_group {number : Nat} : ends (.group number a) c = (ends a c).map fun d =>
    { d with groups := (number, c.since d) :: d.groups.filter (·.1 != number) } :=
  rfl

theorem ends_run {least : Nat} :
    ends (run least set) c = repetitions true (ends (.chars set)) least none c :=
  rfl

theorem mem_ends_seq : e ∈ ends (.seq a b) c ↔ ∃ d ∈ ends a c, e ∈ ends b d := by
  rw [ends_seq, List.mem_eraseDups, List.mem_flatMap]

/-- The first choice of the first part stands, if the second part can match after it. -/
theorem head?_ends_seq (hd : (ends a c).head? = some d) (he : (ends b d).head? = some e) :
    (ends (.seq a b) c).head? = some e := by
  obtain ⟨ds, hds⟩ := List.head?_eq_some_iff.1 hd
  obtain ⟨es, hes⟩ := List.head?_eq_some_iff.1 he
  rw [ends_seq, hds, List.flatMap_cons, hes, List.cons_append, List.eraseDups_cons]
  rfl

theorem mem_ends_anchor {anchor : Anchor} :
    d ∈ ends (.anchor anchor) c ↔ c.atAnchor anchor = true ∧ d = c := by
  rw [ends_anchor]
  split <;> simp_all

theorem ends_chars_of_passes {x : Char} (hx : set.has x = true) (h : c.Passes [x] d) :
    ends (.chars set) c = [d] := by
  obtain ⟨hrest, hpassed, hgroups⟩ := h
  obtain ⟨passed, rest, groups⟩ := c
  obtain ⟨passed', rest', groups'⟩ := d
  dsimp only at hrest hpassed hgroups
  subst hrest hpassed hgroups
  exact if_pos hx

theorem mem_ends_chars : d ∈ ends (.chars set) c ↔ ∃ x, set.has x = true ∧ c.Passes [x] d := by
  constructor
  · intro h
    obtain ⟨passed, rest, groups⟩ := c
    cases rest with
    | nil => cases h
    | cons x rest =>
        rw [ends_chars_cons] at h
        by_cases hx : set.has x = true
        · rw [if_pos hx, List.mem_singleton] at h
          rw [h]
          exact ⟨x, hx, rfl, rfl, rfl⟩
        · rw [if_neg hx] at h
          cases h
  · rintro ⟨x, hx, h⟩
    rw [ends_chars_of_passes hx h]
    exact List.mem_singleton_self d

theorem ends_chars_eq_nil_iff :
    ends (.chars set) c = [] ↔ ∀ x, c.rest.head? = some x → set.has x = false := by
  obtain ⟨passed, rest, groups⟩ := c
  cases rest with
  | nil => simp [ends_chars_nil]
  | cons x rest => by_cases hx : set.has x = true <;> simp [ends_chars_cons, hx]

theorem mem_ends_group {number : Nat} : e ∈ ends (.group number a) c ↔ ∃ d ∈ ends a c,
    e = { d with groups := (number, c.since d) :: d.groups.filter (·.1 != number) } := by
  simp [ends_group, eq_comm]

end Steps

section Repetition

variable {set : Chars} {c d : Cursor} {fuel : Nat}

/-- Either a character of the set follows, or no characters of the set can be passed. -/
theorem passes_or_stop (set : Chars) (c : Cursor) :
    (∃ x d, set.has x = true ∧ c.Passes [x] d) ∨ (ends (.chars set) c = [] ∧
      ∀ chars d, (∀ x ∈ chars, set.has x = true) → c.Passes chars d → chars = []) := by
  by_cases h : ∃ x d, set.has x = true ∧ c.Passes [x] d
  · exact .inl h
  · refine .inr ⟨List.eq_nil_iff_forall_not_mem.2 fun d hd => ?_, fun chars d hchars hd => ?_⟩
    · obtain ⟨x, hx, hpasses⟩ := mem_ends_chars.1 hd
      exact h ⟨x, d, hx, hpasses⟩
    · cases chars with
      | nil => rfl
      | cons x chars =>
          obtain ⟨d', hd', -⟩ := hd.uncons
          exact absurd ⟨x, d', hchars x List.mem_cons_self, hd'⟩ h

theorem reach_succ {step : Cursor → List Cursor} :
    reach true step (fuel + 1) none [] c = (step c).foldl (fun done d =>
      if d.rest.length < c.rest.length then reach true step fuel none done d
      else if done.contains (some 0, d) then done
      else done ++ [(some 0, d)]) [] ++ [(none, c)] :=
  rfl

/-- Nothing is reached but the place itself where no character of the set follows. -/
theorem reach_of_stop (h : ends (.chars set) c = []) :
    reach true (ends (.chars set)) (fuel + 1) none [] c = [(none, c)] := by
  rw [reach_succ, h]
  rfl

/-- A character of the set is passed before the place in front of it is considered. -/
theorem reach_of_passes {x : Char} (hx : set.has x = true) (h : c.Passes [x] d) :
    reach true (ends (.chars set)) (fuel + 1) none [] c =
      reach true (ends (.chars set)) fuel none [] d ++ [(none, c)] := by
  rw [reach_succ, ends_chars_of_passes hx h, List.foldl_cons, List.foldl_nil, if_pos h.length_lt]

/-- Repetition reaches the places after characters of the set. -/
theorem mem_reach (hfuel : c.rest.length < fuel) {more : Option Nat} :
    (more, d) ∈ reach true (ends (.chars set)) fuel none [] c ↔ more = none ∧
      ∃ chars, (∀ x ∈ chars, set.has x = true) ∧ c.Passes chars d := by
  -- Every character that is passed takes one unit of fuel and one off what is to come.
  induction fuel generalizing c with
  | zero => omega
  | succ fuel ih =>
      rcases passes_or_stop set c with ⟨x, e, hx, he⟩ | ⟨hstop, hnone⟩
      · have hlt : e.rest.length < fuel := Nat.lt_of_lt_of_le he.length_lt (Nat.le_of_lt_succ hfuel)
        rw [reach_of_passes hx he, List.mem_append, ih hlt, List.mem_singleton, Prod.mk.injEq]
        constructor
        · rintro (⟨rfl, chars, hchars, hd⟩ | ⟨rfl, rfl⟩)
          · exact ⟨rfl, x :: chars, List.forall_mem_cons.2 ⟨hx, hchars⟩, he.trans hd⟩
          · exact ⟨rfl, [], by simp, .refl d⟩
        · rintro ⟨rfl, chars, hchars, hd⟩
          cases chars with
          | nil => exact .inr ⟨rfl, hd.eq_self⟩
          | cons y chars =>
              obtain ⟨e', he', hd'⟩ := hd.uncons
              have hxy : x = y := by
                have hrest := he.rest.symm.trans he'.rest
                exact (List.cons.inj hrest).1
              subst hxy
              rw [he'.eq he] at hd'
              exact .inl ⟨rfl, chars, (List.forall_mem_cons.1 hchars).2, hd'⟩
      · rw [reach_of_stop hstop, List.mem_singleton, Prod.mk.injEq]
        constructor
        · rintro ⟨rfl, rfl⟩
          exact ⟨rfl, [], by simp, .refl d⟩
        · rintro ⟨rfl, chars, hchars, hd⟩
          cases hnone chars d hchars hd
          exact ⟨rfl, hd.eq_self⟩

/-- The longest run comes first. -/
theorem head?_reach (hfuel : c.rest.length < fuel) {chars : List Char}
    (hchars : ∀ x ∈ chars, set.has x = true) (hd : c.Passes chars d)
    (hstop : ends (.chars set) d = []) :
    (reach true (ends (.chars set)) fuel none [] c).head? = some (none, d) := by
  induction fuel generalizing c chars with
  | zero => omega
  | succ fuel ih =>
      cases chars with
      | nil =>
          cases hd.eq_self
          rw [reach_of_stop hstop]
          rfl
      | cons x chars =>
          obtain ⟨e, he, hd'⟩ := hd.uncons
          have hlt : e.rest.length < fuel :=
            Nat.lt_of_lt_of_le he.length_lt (Nat.le_of_lt_succ hfuel)
          have hall := List.forall_mem_cons.1 hchars
          rw [reach_of_passes hall.1 he, List.head?_append, ih hlt hall.2 hd']
          rfl

@[simp] theorem exactly_nil (step : Cursor → List Cursor) (count : Nat) :
    exactly step count [] = [] := by
  induction count with
  | zero => rfl
  | succ count ih => simpa [exactly] using ih

theorem exactly_succ_of_passes {x : Char} (hx : set.has x = true) (h : c.Passes [x] d)
    (count : Nat) : exactly (ends (.chars set)) (count + 1) [c] =
      exactly (ends (.chars set)) count [d] := by
  rw [exactly, List.flatMap_singleton, ends_chars_of_passes hx h, List.eraseDups_cons]
  rfl

theorem exactly_of_passes {chars : List Char} (hchars : ∀ x ∈ chars, set.has x = true)
    (h : c.Passes chars d) : exactly (ends (.chars set)) chars.length [c] = [d] := by
  induction chars generalizing c with
  | nil =>
      cases h.eq_self
      rfl
  | cons x chars ih =>
      obtain ⟨e, he, hd⟩ := h.uncons
      have hall := List.forall_mem_cons.1 hchars
      rw [List.length_cons, exactly_succ_of_passes hall.1 he, ih hall.2 hd]

theorem exactly_of_stop {count : Nat} (h : ∀ chars d, (∀ x ∈ chars, set.has x = true) →
    c.Passes chars d → chars.length ≠ count) : exactly (ends (.chars set)) count [c] = [] := by
  induction count generalizing c with
  | zero => exact absurd rfl (h [] c (by simp) (.refl c))
  | succ count ih =>
      rcases passes_or_stop set c with ⟨x, e, hx, he⟩ | ⟨hstop, -⟩
      · have hlater := ih (c := e) fun chars d hchars hd hlength =>
          h (x :: chars) d (List.forall_mem_cons.2 ⟨hx, hchars⟩) (he.trans hd) (by simp [hlength])
        rw [exactly_succ_of_passes hx he, hlater]
      · simp [exactly, hstop]

variable {least : Nat}

/-- A run goes on from where the characters end that it has to have. -/
theorem ends_run_of_passes {chars : List Char} (hchars : ∀ x ∈ chars, set.has x = true)
    (h : c.Passes chars d) : ends (run chars.length set) c =
      ((reach true (ends (.chars set)) (c.rest.length + 1) none [] d).map (·.2)).eraseDups := by
  rw [ends_run, repetitions, exactly_of_passes hchars h]
  rfl

/-- The characters of a run are those that it has to have and any others. -/
theorem exists_needed {chars : List Char} (hlength : least ≤ chars.length)
    (hchars : ∀ x ∈ chars, set.has x = true) (hd : c.Passes chars d) :
    ∃ needed more e, needed.length = least ∧ (∀ x ∈ needed, set.has x = true) ∧
      c.Passes needed e ∧ (∀ x ∈ more, set.has x = true) ∧ e.Passes more d := by
  rw [← List.take_append_drop least chars] at hchars hd
  obtain ⟨e, he, hmore⟩ := hd.split
  obtain ⟨hneeded, hrest⟩ := List.forall_mem_append.1 hchars
  exact ⟨_, _, e, List.length_take_of_le hlength, hneeded, he, hrest, hmore⟩

/-- A run ends after any number of characters of its set, if it has as many as it needs. -/
theorem mem_ends_run : d ∈ ends (run least set) c ↔
    ∃ chars, least ≤ chars.length ∧ (∀ x ∈ chars, set.has x = true) ∧ c.Passes chars d := by
  constructor
  · intro hmem
    by_cases h : ∃ needed e, needed.length = least ∧ (∀ x ∈ needed, set.has x = true) ∧
        c.Passes needed e
    · obtain ⟨needed, e, rfl, hneeded, he⟩ := h
      rw [ends_run_of_passes hneeded he, List.mem_eraseDups, List.mem_map] at hmem
      obtain ⟨⟨limit, d⟩, hreach, rfl⟩ := hmem
      obtain ⟨-, more, hmore, hd⟩ := (mem_reach (Nat.lt_succ_of_le he.length_le)).1 hreach
      exact ⟨needed ++ more, by simp, List.forall_mem_append.2 ⟨hneeded, hmore⟩, he.trans hd⟩
    · have hstop : exactly (ends (.chars set)) least [c] = [] :=
        exactly_of_stop fun chars e hchars he hlength => h ⟨chars, e, hlength, hchars, he⟩
      rw [ends_run, repetitions, hstop] at hmem
      simp at hmem
  · rintro ⟨chars, hlength, hchars, hd⟩
    obtain ⟨needed, more, e, rfl, hneeded, he, hmore, hd⟩ := exists_needed hlength hchars hd
    rw [ends_run_of_passes hneeded he, List.mem_eraseDups, List.mem_map]
    exact ⟨(none, d), (mem_reach (Nat.lt_succ_of_le he.length_le)).2 ⟨rfl, more, hmore, hd⟩, rfl⟩

/-- A run prefers to take all the characters of its set. -/
theorem head?_ends_run {chars : List Char} (hlength : least ≤ chars.length)
    (hchars : ∀ x ∈ chars, set.has x = true) (hd : c.Passes chars d)
    (hstop : ends (.chars set) d = []) : (ends (run least set) c).head? = some d := by
  obtain ⟨needed, more, e, rfl, hneeded, he, hmore, hd⟩ := exists_needed hlength hchars hd
  have hhead := head?_reach (Nat.lt_succ_of_le he.length_le) hmore hd hstop
  obtain ⟨places, hplaces⟩ := List.head?_eq_some_iff.1 hhead
  rw [ends_run_of_passes hneeded he, hplaces, List.map_cons, List.eraseDups_cons]
  rfl

end Repetition

section Sequences

variable {p : Pattern} {ps : List Pattern} {c d e : Cursor} {s : String}

theorem mem_ends_inOrder_nil : d ∈ ends (inOrder []) c ↔ d = c :=
  List.mem_singleton

theorem mem_ends_inOrder_cons :
    e ∈ ends (inOrder (p :: ps)) c ↔ ∃ d ∈ ends p c, e ∈ ends (inOrder ps) d :=
  mem_ends_seq

theorem has_single {x y : Char} :
    Chars.has { items := [.range y.toNat y.toNat] } x = true ↔ x = y := by
  have hle : y.toNat ≤ x.toNat ∧ x.toNat ≤ y.toNat ↔ x = y := by
    rw [← Nat.le_antisymm_iff, Char.toNat_inj, eq_comm]
  simpa [Chars.has, Item.has] using hle

/-- A written text is passed as it is. -/
theorem mem_ends_written : e ∈ ends (inOrder (written s ++ ps)) c ↔
    ∃ d, c.Passes s.toList d ∧ e ∈ ends (inOrder ps) d := by
  rw [written]
  induction s.toList generalizing c with
  | nil =>
      constructor
      · exact fun he => ⟨c, .refl c, he⟩
      · rintro ⟨d, hd, he⟩
        rwa [hd.eq_self] at he
  | cons x chars ih =>
      rw [List.map_cons, List.cons_append, mem_ends_inOrder_cons]
      simp only [mem_ends_chars, has_single, ih]
      constructor
      · rintro ⟨d, ⟨_, rfl, hd⟩, d', hd', he⟩
        exact ⟨d', hd.trans hd', he⟩
      · rintro ⟨d', hd', he⟩
        obtain ⟨d, hd, hrest⟩ := hd'.uncons
        exact ⟨d, ⟨x, rfl, hd⟩, d', hrest, he⟩

theorem head?_ends_written (hd : c.Passes s.toList d)
    (he : (ends (inOrder ps) d).head? = some e) :
    (ends (inOrder (written s ++ ps)) c).head? = some e := by
  rw [written]
  generalize s.toList = chars at hd ⊢
  induction chars generalizing c with
  | nil =>
      cases hd.eq_self
      exact he
  | cons x chars ih =>
      obtain ⟨c', hc', hrest⟩ := hd.uncons
      have hx : (ends (.chars { items := [.range x.toNat x.toNat] }) c).head? = some c' := by
        rw [ends_chars_of_passes (has_single.2 rfl) hc']
        rfl
      exact head?_ends_seq hx (ih hrest)

/-- A group around a run keeps the characters of the run. -/
theorem mem_ends_group_run {number least : Nat} {set : Chars} :
    e ∈ ends (.group number (inOrder [run least set])) c ↔ ∃ chars d, least ≤ chars.length ∧
      (∀ x ∈ chars, set.has x = true) ∧ c.Passes chars d ∧
      e = { d with groups := (number, chars) :: d.groups.filter (·.1 != number) } := by
  rw [mem_ends_group]
  constructor
  · rintro ⟨d, hd, rfl⟩
    obtain ⟨d', hrun, hnil⟩ := mem_ends_inOrder_cons.1 hd
    cases mem_ends_inOrder_nil.1 hnil
    obtain ⟨chars, hlength, hchars, hpasses⟩ := mem_ends_run.1 hrun
    exact ⟨chars, d, hlength, hchars, hpasses, by rw [hpasses.since_eq]⟩
  · rintro ⟨chars, d, hlength, hchars, hd, rfl⟩
    have hrun : d ∈ ends (run least set) c := mem_ends_run.2 ⟨chars, hlength, hchars, hd⟩
    refine ⟨d, mem_ends_inOrder_cons.2 ⟨d, hrun, mem_ends_inOrder_nil.2 rfl⟩, ?_⟩
    rw [hd.since_eq]

theorem head?_ends_group_run {number least : Nat} {set : Chars} {chars : List Char}
    (hlength : least ≤ chars.length) (hchars : ∀ x ∈ chars, set.has x = true)
    (hd : c.Passes chars d) (hstop : ends (.chars set) d = []) :
    (ends (.group number (inOrder [run least set])) c).head? =
      some { d with groups := (number, chars) :: d.groups.filter (·.1 != number) } := by
  have hinner : (ends (inOrder [run least set]) c).head? = some d :=
    head?_ends_seq (head?_ends_run hlength hchars hd hstop) rfl
  rw [ends_group, List.head?_map, hinner, Option.map_some, hd.since_eq]

end Sequences

end Fallow.Pattern
