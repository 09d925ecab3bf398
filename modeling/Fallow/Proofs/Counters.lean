import Fallow.Metrics
import Fallow.Proofs.Keywords
import Mathlib.Data.List.Forall2

/-!
# Counters of a metrics document

The mark that stands before the names of metrics is taken out of each name once, at the first
place where it occurs. A name that is written after the mark is recovered, whatever it holds. A name
that does not start with the mark is kept exactly if the mark does not occur further on in it
either; if it does, the metric may be counted under the name of another.
-/

namespace Fallow.Metrics

section Cutting

variable {piece s t : List Char}

/-- A text without the first occurrence of a piece. -/
def Cut (piece s t : List Char) : Prop :=
  ∃ before after, s = before ++ piece ++ after ∧ t = before ++ after ∧
    ∀ before' after', s = before' ++ piece ++ after' → before.length ≤ before'.length

theorem Cut.length_eq (h : Cut piece s t) : s.length = t.length + piece.length := by
  obtain ⟨before, after, rfl, rfl, -⟩ := h
  simp only [List.length_append]
  omega

theorem withoutFirst_of_starts (h : piece <+: s) : withoutFirst piece s = s.drop piece.length := by
  cases s with
  | nil => simp [withoutFirst]
  | cons c rest => rw [withoutFirst, if_pos (by simpa using h)]

theorem withoutFirst_cons_of_not_starts {c : Char} (h : ¬ piece <+: c :: s) :
    withoutFirst piece (c :: s) = c :: withoutFirst piece s := by
  rw [withoutFirst, if_neg (by simpa using h)]

theorem cut_of_starts (h : piece <+: s) : Cut piece s (s.drop piece.length) := by
  obtain ⟨after, rfl⟩ := h
  exact ⟨[], after, rfl, by simp, fun _ _ _ => Nat.zero_le _⟩

theorem Cut.cons {c : Char} (hne : ¬ piece <+: c :: s) (h : Cut piece s t) :
    Cut piece (c :: s) (c :: t) := by
  obtain ⟨before, after, rfl, rfl, hfirst⟩ := h
  refine ⟨c :: before, after, rfl, rfl, fun before' after' heq => ?_⟩
  cases before' with
  | nil => exact absurd ⟨after', heq.symm⟩ hne
  | cons d before' => exact Nat.succ_le_succ (hfirst before' after' (List.cons.inj heq).2)

theorem cut_withoutFirst (h : piece <:+: s) : Cut piece s (withoutFirst piece s) := by
  induction s with
  | nil =>
      have hstarts : piece <+: [] := by simpa using h
      rw [withoutFirst_of_starts hstarts]
      exact cut_of_starts hstarts
  | cons c rest ih =>
      by_cases hstarts : piece <+: c :: rest
      · rw [withoutFirst_of_starts hstarts]
        exact cut_of_starts hstarts
      · rw [withoutFirst_cons_of_not_starts hstarts]
        exact .cons hstarts (ih ((List.infix_cons_iff.1 h).resolve_left hstarts))

theorem withoutFirst_of_not_occurs (h : ¬ piece <:+: s) : withoutFirst piece s = s := by
  induction s with
  | nil => rfl
  | cons c rest ih =>
      have hstarts : ¬ piece <+: c :: rest := fun hp => h hp.isInfix
      rw [withoutFirst_cons_of_not_starts hstarts, ih fun hrest => h (List.infix_cons hrest)]

/-- A text that does not start with a piece loses nothing only if the piece is nowhere in it. -/
theorem withoutFirst_eq_self_iff (h : ¬ piece <+: s) :
    withoutFirst piece s = s ↔ ¬ piece <:+: s := by
  refine ⟨fun heq hoccurs => h ?_, withoutFirst_of_not_occurs⟩
  have hlength := (cut_withoutFirst hoccurs).length_eq
  rw [heq] at hlength
  have hnil : piece = [] := List.eq_nil_of_length_eq_zero (by omega)
  exact hnil ▸ List.nil_prefix

end Cutting

section Names

variable {mark name : String}

def Starts (mark name : String) : Prop :=
  mark.toList <+: name.toList

instance : Decidable (Starts mark name) :=
  inferInstanceAs (Decidable (mark.toList <+: name.toList))

def Occurs (mark name : String) : Prop :=
  mark.toList <:+: name.toList

theorem stripped_append (mark name : String) : stripped mark (mark ++ name) = name := by
  have hstarts : mark.toList <+: (mark ++ name).toList := by simp
  rw [stripped, withoutFirst_of_starts hstarts]
  simp

theorem cut_stripped (h : Occurs mark name) :
    Cut mark.toList name.toList (stripped mark name).toList := by
  rw [stripped, String.toList_ofList]
  exact cut_withoutFirst h

theorem stripped_eq_self (h : ¬ Occurs mark name) : stripped mark name = name := by
  rw [stripped, withoutFirst_of_not_occurs h, String.ofList_toList]

theorem stripped_eq_self_iff (h : ¬ Starts mark name) :
    stripped mark name = name ↔ ¬ Occurs mark name := by
  rw [← String.toList_inj, stripped, String.toList_ofList]
  exact withoutFirst_eq_self_iff h

end Names

/-! ### Tables of counters -/

/-- The counters of metrics that were counted one after the other: each name once, in the order in
which the names first occurred, with its last count. -/
structure Holds (rows : List (String × Int)) (m : Metrics) : Prop where
  names : m.counters.map (·.1) = (rows.map (·.1)).eraseDups
  get_of_last : ∀ name n, Json.LastMember rows name n → m.get name = n
  get_of_absent : ∀ name, (∀ row ∈ rows, row.1 ≠ name) → m.get name = 0

theorem holds_ofMembers (rows : List (String × Int)) : Holds rows ⟨Json.ofMembers rows⟩ where
  names := Json.map_fst_ofMembers rows
  get_of_last name n h := by
    rw [get, Json.lookup_ofMembers_eq_some_iff.2 h, Option.getD_some]
  get_of_absent name h := by
    rw [get, Json.lookup_ofMembers_eq_none_iff.2 h, Option.getD_none]

/-- One metric of a document: its name as it is written and its count. -/
def IsMetric (item : Json) (row : String × Int) : Prop :=
  ∃ members, item = .obj members ∧ members.lookup "name" = some (.str row.1) ∧
    count ((members.lookup "value").getD .null) = .ok row.2

/-- The name and the count under which a metric is filed. -/
def filed (mark : String) (row : String × Int) : String × Int :=
  (stripped mark row.1, row.2)

theorem entry_eq_ok_iff {mark : String} {item : Json} {r : String × Int} :
    entry mark item = .ok r ↔ ∃ row, IsMetric item row ∧ r = filed mark row := by
  constructor
  · intro h
    cases item with
    | obj members =>
        cases hname : members.lookup "name" with
        | none => simp [entry, hname] at h
        | some named =>
            cases named with
            | str name =>
                cases hcount : count ((members.lookup "value").getD .null) with
                | error e => simp [entry, hname, hcount, bind, Except.bind] at h
                | ok n =>
                    simp only [entry, hname, hcount] at h
                    exact ⟨(name, n), ⟨members, rfl, hname, hcount⟩, (Except.ok.inj h).symm⟩
            | _ => simp [entry, hname] at h
    | _ => simp [entry] at h
  · rintro ⟨row, ⟨members, rfl, hname, hcount⟩, rfl⟩
    simp only [entry, hname, hcount]
    rfl

/-- The metrics are filed one after the other, and one that cannot be filed fails them all. -/
theorem mapM_entry_eq_ok_iff {mark : String} {items : List Json} {rs : List (String × Int)} :
    items.mapM (entry mark) = .ok rs ↔
      ∃ rows, List.Forall₂ IsMetric items rows ∧ rs = rows.map (filed mark) := by
  induction items generalizing rs with
  | nil =>
      constructor
      · intro h
        exact ⟨[], .nil, (Except.ok.inj h).symm⟩
      · rintro ⟨rows, hrows, rfl⟩
        cases hrows
        rfl
  | cons item items ih =>
      rw [List.mapM_cons]
      constructor
      · intro h
        cases hitem : entry mark item with
        | error e => simp [hitem, bind, Except.bind] at h
        | ok r =>
            cases hitems : items.mapM (entry mark) with
            | error e => simp [hitem, hitems, bind, Except.bind] at h
            | ok rest =>
                rw [hitem, hitems] at h
                obtain ⟨row, hrow, rfl⟩ := entry_eq_ok_iff.1 hitem
                obtain ⟨rows, hrows, rfl⟩ := ih.1 hitems
                exact ⟨row :: rows, .cons hrow hrows, (Except.ok.inj h).symm⟩
      · rintro ⟨rows, hrows, rfl⟩
        cases hrows with
        | @cons _ row _ rows hrow hrows =>
            rw [entry_eq_ok_iff.2 ⟨row, hrow, rfl⟩, ih.2 ⟨rows, hrows, rfl⟩]
            rfl

/-- The metrics of a document. -/
def Lists (document : Json) (rows : List (String × Int)) : Prop :=
  ∃ members items, document = .obj members ∧
    entries ((members.lookup "metrics").getD (.arr [])) = .ok items ∧
      List.Forall₂ IsMetric items rows

theorem ofDocument_obj {mark : String} {members : List (String × Json)} {items : List Json}
    (h : entries ((members.lookup "metrics").getD (.arr [])) = .ok items) :
    ofDocument mark (.obj members) =
      (items.mapM (entry mark)).map fun rs => ⟨Json.ofMembers rs⟩ := by
  simp only [ofDocument, h]
  show (do return ⟨Json.ofMembers (← items.mapM (entry mark))⟩ : Except Error Metrics) = _
  cases items.mapM (entry mark) <;> rfl

theorem ofDocument_eq_ok_iff {mark : String} {document : Json} {m : Metrics} :
    ofDocument mark document = .ok m ↔
      ∃ rows, Lists document rows ∧ m = ⟨Json.ofMembers (rows.map (filed mark))⟩ := by
  constructor
  · intro h
    cases document with
    | obj members =>
        cases hentries : entries ((members.lookup "metrics").getD (.arr [])) with
        | error e =>
            simp only [ofDocument, hentries] at h
            cases h
        | ok items =>
            rw [ofDocument_obj hentries] at h
            cases hitems : items.mapM (entry mark) with
            | error e =>
                rw [hitems] at h
                cases h
            | ok rs =>
                rw [hitems] at h
                obtain ⟨rows, hrows, rfl⟩ := mapM_entry_eq_ok_iff.1 hitems
                exact ⟨rows, ⟨members, items, rfl, hentries, hrows⟩, (Except.ok.inj h).symm⟩
    | _ => simp [ofDocument] at h
  · rintro ⟨rows, ⟨members, items, rfl, hentries, hitems⟩, rfl⟩
    rw [ofDocument_obj hentries, mapM_entry_eq_ok_iff.2 ⟨rows, hitems, rfl⟩]
    rfl

/-! ### Names after the mark -/

/-- A metric whose name is written after the mark. Its value is an integer, or absent or null. -/
def IsMarked (mark : String) (item : Json) (e : String × Option Int) : Prop :=
  ∃ members, item = .obj members ∧ members.lookup "name" = some (.str (mark ++ e.1)) ∧
    (members.lookup "value").getD .null = (e.2.map .int).getD .null

/-- A document whose metrics have their names written after the mark. -/
def ListsMarked (mark : String) (document : Json) (given : List (String × Option Int)) : Prop :=
  ∃ members items, document = .obj members ∧ members.lookup "metrics" = some (.arr items) ∧
    List.Forall₂ (IsMarked mark) items given

section Recovery

variable {mark : String} {e : String × Option Int} {given : List (String × Option Int)}

theorem IsMarked.isMetric {item : Json} (h : IsMarked mark item e) :
    IsMetric item (mark ++ e.1, e.2.getD 0) := by
  obtain ⟨members, rfl, hname, hvalue⟩ := h
  refine ⟨members, rfl, hname, ?_⟩
  rw [hvalue]
  cases e.2 <;> rfl

theorem ListsMarked.lists {document : Json} (h : ListsMarked mark document given) :
    Lists document (given.map fun e => (mark ++ e.1, e.2.getD 0)) := by
  obtain ⟨members, items, rfl, hmetrics, hitems⟩ := h
  refine ⟨members, items, rfl, by rw [hmetrics]; rfl, ?_⟩
  rw [List.forall₂_map_right_iff]
  exact hitems.imp fun _ _ h => h.isMetric

theorem map_filed_marked : (given.map fun e => (mark ++ e.1, e.2.getD 0)).map (filed mark) =
    given.map fun e => (e.1, e.2.getD 0) := by
  rw [List.map_map]
  exact List.map_congr_left fun e _ => by simp [filed, stripped_append]

theorem ListsMarked.ofDocument_eq {document : Json} (h : ListsMarked mark document given) :
    ofDocument mark document = .ok ⟨Json.ofMembers (given.map fun e => (e.1, e.2.getD 0))⟩ :=
  ofDocument_eq_ok_iff.2 ⟨_, h.lists, by rw [map_filed_marked]⟩

end Recovery

/-- Names that are written after the mark are recovered: each counter has the name that follows
the mark and the last value that the document gives it. -/
theorem ofDocument_recovers {mark : String} {given : List (String × Option Int)}
    {document : Json} (h : ListsMarked mark document given) :
    ∃ m, ofDocument mark document = .ok m ∧
      (∀ text, Json.parse text = .ok document → parse mark text = .ok m) ∧
      m.counters.map (·.1) = (given.map (·.1)).eraseDups ∧
      (∀ name value, Json.LastMember given name value → m.get name = value.getD 0) ∧
      ∀ name, (∀ e ∈ given, e.1 ≠ name) → m.get name = 0 := by
  have hholds := holds_ofMembers (given.map fun e => (e.1, e.2.getD 0))
  refine ⟨_, h.ofDocument_eq, fun text htext => ?_, ?_, fun name value hlast => ?_,
    fun name hname => ?_⟩
  · rw [parse, htext, ← h.ofDocument_eq]
  · rw [hholds.names, List.map_map]
    rfl
  · exact hholds.get_of_last name _ (hlast.map fun value : Option Int => value.getD 0)
  · refine hholds.get_of_absent name fun row hrow => ?_
    obtain ⟨e, he, rfl⟩ := List.mem_map.1 hrow
    exact hname e he

/-- The mark `aa` before names in which it occurs again, also across the place where the name
starts. -/
def doubled : Json :=
  .obj [("repo", .str "example"), ("metrics", .arr [
    .obj [("name", .str "aaaab"), ("value", .int 3)],
    .obj [("name", .str "aax")],
    .obj [("value", .int 5), ("name", .str "aaaab")],
    .obj [("name", .str "aabaac"), ("value", .int (-1))]])]

theorem ofDocument_recovers_doubled :
    ListsMarked "aa" doubled [("aab", some 3), ("x", none), ("aab", some 5), ("baac", some (-1))] ∧
    ∃ m, ofDocument "aa" doubled = .ok m ∧ m.counters.map (·.1) = ["aab", "x", "baac"] ∧
      m.get "aab" = 5 ∧ m.get "x" = 0 ∧ m.get "baac" = -1 ∧ m.get "bc" = 0 := by
  have hlists : ListsMarked "aa" doubled
      [("aab", some 3), ("x", none), ("aab", some 5), ("baac", some (-1))] :=
    ⟨_, _, rfl, rfl, .cons ⟨_, rfl, rfl, rfl⟩ (.cons ⟨_, rfl, rfl, rfl⟩
      (.cons ⟨_, rfl, rfl, rfl⟩ (.cons ⟨_, rfl, rfl, rfl⟩ .nil)))⟩
  obtain ⟨m, hread, -, hnames, hlast, habsent⟩ := ofDocument_recovers hlists
  refine ⟨hlists, m, hread, hnames.trans (by decide), ?_, ?_, ?_, ?_⟩
  · exact hlast "aab" (some 5) ⟨[("aab", some 3), ("x", none)], [("baac", some (-1))], rfl,
      by simp⟩
  · exact hlast "x" none ⟨[("aab", some 3)], [("aab", some 5), ("baac", some (-1))], rfl, by simp⟩
  · exact hlast "baac" (some (-1)) ⟨[("aab", some 3), ("x", none), ("aab", some 5)], [], rfl,
      by simp⟩
  · exact habsent "bc" (by simp)

/-! ### Names without the mark in front -/

/-- Every metric is filed under its name without the first occurrence of the mark. One whose name
does not start with the mark keeps its name exactly if the mark does not occur in it, and metrics
with different names in which the mark does not occur are never counted together. -/
theorem ofDocument_files (mark : String) (document : Json) :
    ((∃ m, ofDocument mark document = .ok m) ↔ ∃ rows, Lists document rows) ∧
    ∀ rows, Lists document rows → ∃ m, ofDocument mark document = .ok m ∧
      Holds (rows.map fun row => (stripped mark row.1, row.2)) m ∧
      (∀ row ∈ rows,
        (Occurs mark row.1 → Cut mark.toList row.1.toList (stripped mark row.1).toList) ∧
        (¬ Starts mark row.1 → (stripped mark row.1 = row.1 ↔ ¬ Occurs mark row.1))) ∧
      ∀ row ∈ rows, ∀ row' ∈ rows, row.1 ≠ row'.1 → ¬ Occurs mark row.1 → ¬ Occurs mark row'.1 →
        stripped mark row.1 ≠ stripped mark row'.1 := by
  have hread : ∀ rows, Lists document rows →
      ofDocument mark document = .ok ⟨Json.ofMembers (rows.map (filed mark))⟩ :=
    fun rows h => ofDocument_eq_ok_iff.2 ⟨rows, h, rfl⟩
  refine ⟨⟨?_, fun ⟨rows, h⟩ => ⟨_, hread rows h⟩⟩, fun rows h => ?_⟩
  · rintro ⟨m, h⟩
    obtain ⟨rows, hrows, -⟩ := ofDocument_eq_ok_iff.1 h
    exact ⟨rows, hrows⟩
  · refine ⟨_, hread rows h, holds_ofMembers _,
      fun row _ => ⟨cut_stripped, stripped_eq_self_iff⟩, fun row _ row' _ hne hrow hrow' => ?_⟩
    rw [stripped_eq_self hrow, stripped_eq_self hrow']
    exact hne

/-- Two metrics, of which the first has the usual mark in the middle of its name. -/
def collided : Json :=
  .obj [("metrics", .arr [.obj [("name", .str "a.ruby_typer.unknown..b"), ("value", .int 1)],
    .obj [("name", .str "a.b"), ("value", .int 2)]])]

theorem ofDocument_files_collided :
    Lists collided [("a.ruby_typer.unknown..b", 1), ("a.b", 2)] ∧
    ¬ Starts defaultPrefix "a.ruby_typer.unknown..b" ∧ ¬ Starts defaultPrefix "a.b" ∧
    ∃ m, ofDocument defaultPrefix collided = .ok m ∧ m.counters.map (·.1) = ["a.b"] ∧
      m.get "a.ruby_typer.unknown..b" = 0 ∧ m.get "a.b" = 2 := by
  have hlists : Lists collided [("a.ruby_typer.unknown..b", 1), ("a.b", 2)] :=
    ⟨_, _, rfl, rfl, .cons ⟨_, rfl, rfl, rfl⟩ (.cons ⟨_, rfl, rfl, rfl⟩ .nil)⟩
  have hstripped : stripped defaultPrefix "a.ruby_typer.unknown..b" = "a.b" ∧
      stripped defaultPrefix "a.b" = "a.b" := by
    decide
  obtain ⟨m, hread, hholds, -, -⟩ := (ofDocument_files defaultPrefix collided).2 _ hlists
  simp only [List.map_cons, List.map_nil, hstripped] at hholds
  refine ⟨hlists, by decide, by decide, m, hread, hholds.names.trans (by decide), ?_, ?_⟩
  · exact hholds.get_of_absent "a.ruby_typer.unknown..b" (by simp)
  · exact hholds.get_of_last "a.b" 2 ⟨[("a.b", 1)], [], rfl, by simp⟩

end Fallow.Metrics
