import Fallow.Plugin.Choice
import Fallow.Proofs.Keywords
import Fallow.Proofs.Order
import Fallow.Proofs.Quotation

/-!
# The choice of plugins

A list of ignored names mixes names with patterns between slashes. It fails at the first pattern
that does not compile, and otherwise covers the names that are listed and those in which a pattern
is found, so that neither order nor repetition matters. The entry at which it fails is complained
about if the compiler refuses its pattern; if the compiler breaks down, nobody is told which entry
it was. Plugins are loaded by name, each once, up to the first unknown name, and the names that gems
call for are always known.
-/

namespace Fallow

namespace Descriptor

/-- An entry that is written as a pattern, with the text between its slashes. -/
def Slashed (entry inner : String) : Prop :=
  entry = "/" ++ inner ++ "/"

theorem slashed_iff {entry inner : String} :
    Slashed entry inner ↔ entry.toList = '/' :: (inner.toList ++ ['/']) := by
  rw [Slashed, ← String.toList_inj]
  simp

/-- An entry is slashed if it has two characters or more and its ends are slashes. -/
theorem exists_slashed_iff {entry : String} : (∃ inner, Slashed entry inner) ↔
    2 ≤ entry.toList.length ∧ entry.toList.head? = some '/' ∧
      entry.toList.getLast? = some '/' := by
  constructor
  · rintro ⟨inner, h⟩
    rw [slashed_iff.1 h]
    exact ⟨by simp, rfl, List.getLast?_concat (l := '/' :: inner.toList)⟩
  · rintro ⟨hlength, hhead, hlast⟩
    obtain ⟨inner, hinner⟩ := List.getLast?_eq_some_iff.1 hlast
    cases inner with
    | nil => simp [hinner] at hlength
    | cons c inner =>
        rw [hinner] at hhead
        cases hhead
        exact ⟨String.ofList inner, slashed_iff.2 (by simp [hinner])⟩

theorem slashed?_eq_some_iff {entry inner : String} :
    slashed? entry = some inner ↔ Slashed entry inner := by
  have hcut : ∀ inner', Slashed entry inner' →
      String.ofList (entry.toList.drop 1).dropLast = inner' := by
    intro inner' h
    simp [slashed_iff.1 h]
  by_cases h : ∃ inner', Slashed entry inner'
  · have hcond := exists_slashed_iff.1 h
    obtain ⟨inner', h'⟩ := h
    rw [slashed?, if_pos (by simpa [and_assoc] using hcond), hcut inner' h', Option.some.injEq]
    constructor
    · rintro rfl
      exact h'
    · intro h''
      rw [← hcut inner h'', hcut inner' h']
  · have hcond := mt exists_slashed_iff.2 h
    rw [slashed?, if_neg (by simpa [and_assoc] using hcond)]
    simpa using fun h' => h ⟨inner, h'⟩

/-- An entry with a pattern that does not compile, and how the compiler fails. -/
def FailsBy (compile : String → Except Finder.Failure Finder) (entry : String)
    (failure : Finder.Failure) : Prop :=
  ∃ inner, Slashed entry inner ∧ compile inner = .error failure

def Fails (compile : String → Except Finder.Failure Finder) (entry : String) : Prop :=
  ∃ failure, FailsBy compile entry failure

/-- The error for an entry that fails. -/
def errorFor (entry : String) : Finder.Failure → Error
  | .refused reason => .badPattern entry reason
  | .broke b => .broke b

/-- An entry matches a name: it is the name itself, or its pattern is found in the name. -/
def Matches (compile : String → Except Finder.Failure Finder) (entry name : String) : Prop :=
  ((∀ inner, ¬ Slashed entry inner) ∧ entry = name) ∨
    ∃ inner f, Slashed entry inner ∧ compile inner = .ok f ∧ f.found name = true

section Entries

variable {compile : String → Except Finder.Failure Finder} {entry inner : String} {f : Finder}
  {failure : Finder.Failure} {entries : List String}

theorem Slashed.inner_eq {inner' : String} (h : Slashed entry inner) (h' : Slashed entry inner') :
    inner = inner' := by
  rw [← slashed?_eq_some_iff] at h h'
  exact Option.some.inj (h.symm.trans h')

theorem itemOfEntry_of_name (h : ∀ inner, ¬ Slashed entry inner) :
    itemOfEntry compile entry = .ok (.name entry) := by
  have hnone : slashed? entry = none := by
    rw [Option.eq_none_iff_forall_ne_some]
    exact fun inner hinner => h inner (slashed?_eq_some_iff.1 hinner)
  rw [itemOfEntry, hnone]

theorem itemOfEntry_of_ok (h : Slashed entry inner) (hc : compile inner = .ok f) :
    itemOfEntry compile entry = .ok (.finder f) := by
  simp only [itemOfEntry, slashed?_eq_some_iff.2 h, hc]

theorem itemOfEntry_of_error (h : Slashed entry inner) (hc : compile inner = .error failure) :
    itemOfEntry compile entry = .error (errorFor entry failure) := by
  simp only [itemOfEntry, slashed?_eq_some_iff.2 h, hc]
  cases failure <;> rfl

theorem itemOfEntry_eq_error_iff {e : Error} : itemOfEntry compile entry = .error e ↔
    ∃ failure, FailsBy compile entry failure ∧ e = errorFor entry failure := by
  by_cases h : ∃ inner, Slashed entry inner
  · obtain ⟨inner, h⟩ := h
    have hfails : ∀ failure, FailsBy compile entry failure ↔ compile inner = .error failure := by
      intro failure
      refine ⟨fun ⟨inner', h', hc⟩ => ?_, fun hc => ⟨inner, h, hc⟩⟩
      rwa [h.inner_eq h']
    simp only [hfails]
    cases hc : compile inner with
    | ok f => simp [itemOfEntry_of_ok h hc]
    | error failure => simp [itemOfEntry_of_error h hc, @eq_comm _ e]
  · have hname : ∀ inner, ¬ Slashed entry inner := not_exists.1 h
    rw [itemOfEntry_of_name hname]
    simp [FailsBy, hname]

/-- An item in front of those that a descriptor holds. -/
def Item.addTo : Item → Descriptor → Descriptor
  | .name s, d => { d with names := s :: d.names }
  | .finder f, d => { d with finders := f :: d.finders }
  | .foreign _, d => d

/-- What an entry adds to a descriptor are the names that it matches. -/
theorem covers_addTo {item : Item} (hitem : itemOfEntry compile entry = .ok item) (d : Descriptor)
    (name : String) :
    (item.addTo d).covers name = true ↔ Matches compile entry name ∨ d.covers name = true := by
  by_cases h : ∃ inner, Slashed entry inner
  · obtain ⟨inner, h⟩ := h
    have hmatches : Matches compile entry name ↔
        ∃ f, compile inner = .ok f ∧ f.found name = true := by
      constructor
      · rintro (⟨hname, -⟩ | ⟨inner', f, h', hc, hfound⟩)
        · exact absurd h (hname inner)
        · exact ⟨f, h.inner_eq h' ▸ hc, hfound⟩
      · rintro ⟨f, hc, hfound⟩
        exact .inr ⟨inner, f, h, hc, hfound⟩
    cases hc : compile inner with
    | error failure =>
        rw [itemOfEntry_of_error h hc] at hitem
        cases hitem
    | ok f =>
        rw [itemOfEntry_of_ok h hc] at hitem
        cases hitem
        simp only [Item.addTo, covers, hmatches, hc, List.any_cons]
        simp [or_left_comm]
  · have hname : ∀ inner, ¬ Slashed entry inner := not_exists.1 h
    rw [itemOfEntry_of_name hname] at hitem
    cases hitem
    have hmatches : Matches compile entry name ↔ name = entry := by
      simp [Matches, hname, @eq_comm _ name]
    simp only [Item.addTo, covers, hmatches, List.contains_cons]
    simp [or_assoc]

theorem ofItems_cons {item : Item} {items : List Item} (h : ∀ value, item ≠ .foreign value) :
    ofItems (item :: items) = (ofItems items).map item.addTo := by
  cases item with
  | name s =>
      rw [ofItems]
      cases ofItems items <;> rfl
  | finder f =>
      rw [ofItems]
      cases ofItems items <;> rfl
  | foreign value => exact absurd rfl (h value)

theorem ne_foreign_of_itemOfEntry {item : Item} (hitem : itemOfEntry compile entry = .ok item)
    (value : Json) : item ≠ .foreign value := by
  rintro rfl
  by_cases h : ∃ inner, Slashed entry inner
  · obtain ⟨inner, h⟩ := h
    cases hc : compile inner with
    | ok f => simp [itemOfEntry_of_ok h hc] at hitem
    | error failure => simp [itemOfEntry_of_error h hc] at hitem
  · simp [itemOfEntry_of_name (not_exists.1 h)] at hitem

/-- Entries are read one after the other. -/
theorem ofEntries_cons : ofEntries compile (entry :: entries) =
    itemOfEntry compile entry >>= fun item => (ofEntries compile entries).map item.addTo := by
  rw [ofEntries, ofEntries, List.mapM_cons]
  cases hitem : itemOfEntry compile entry with
  | error e => rfl
  | ok item =>
      cases entries.mapM (itemOfEntry compile) with
      | error e => rfl
      | ok items => exact ofItems_cons (ne_foreign_of_itemOfEntry hitem)

/-- A list of entries fails at the first pattern that does not compile. -/
theorem ofEntries_eq_error_iff {e : Error} : ofEntries compile entries = .error e ↔
    ∃ entry failure, First (Fails compile) entries entry ∧ FailsBy compile entry failure ∧
      e = errorFor entry failure := by
  induction entries with
  | nil =>
      simp only [not_first_nil, false_and, exists_false, iff_false]
      intro h
      cases h
  | cons entry entries ih =>
      have hfails : Fails compile entry ↔ ∃ e, itemOfEntry compile entry = .error e := by
        constructor
        · rintro ⟨failure, h⟩
          exact ⟨_, itemOfEntry_eq_error_iff.2 ⟨failure, h, rfl⟩⟩
        · rintro ⟨e, h⟩
          obtain ⟨failure, h, -⟩ := itemOfEntry_eq_error_iff.1 h
          exact ⟨failure, h⟩
      rw [ofEntries_cons]
      cases hitem : itemOfEntry compile entry with
      | error e' =>
          have hfirst : Fails compile entry := hfails.2 ⟨e', hitem⟩
          have hsame : itemOfEntry compile entry = .error e ↔ e' = e := by
            rw [hitem, Except.error.injEq]
          simp only [first_cons_of_pos hfirst, bind, Except.bind, Except.error.injEq, ← hsame,
            itemOfEntry_eq_error_iff]
          simp
      | ok item =>
          have hpassed : ¬ Fails compile entry := by
            rw [hfails, hitem]
            simp
          simp only [first_cons_of_neg hpassed, ← ih]
          cases ofEntries compile entries <;> simp [bind, Except.bind, Except.map]

theorem exists_ofEntries_eq_error_iff :
    (∃ e, ofEntries compile entries = .error e) ↔ ∃ entry ∈ entries, Fails compile entry := by
  rw [← exists_first_iff]
  constructor
  · rintro ⟨e, he⟩
    obtain ⟨entry, failure, hfirst, -⟩ := ofEntries_eq_error_iff.1 he
    exact ⟨entry, hfirst⟩
  · rintro ⟨entry, hfirst⟩
    obtain ⟨failure, hfailure⟩ := hfirst.prop
    exact ⟨_, ofEntries_eq_error_iff.2 ⟨entry, failure, hfirst, hfailure, rfl⟩⟩

theorem covers_of_ofEntries {d : Descriptor} (h : ofEntries compile entries = .ok d)
    (name : String) : d.covers name = true ↔ ∃ entry ∈ entries, Matches compile entry name := by
  induction entries generalizing d with
  | nil =>
      cases h
      simp [covers]
  | cons entry entries ih =>
      rw [ofEntries_cons] at h
      cases hitem : itemOfEntry compile entry with
      | error e =>
          rw [hitem] at h
          cases h
      | ok item =>
          cases hd : ofEntries compile entries with
          | error e =>
              rw [hitem, hd] at h
              cases h
          | ok d' =>
              rw [hitem, hd] at h
              cases h
              simp [covers_addTo hitem, ih hd]

end Entries

end Descriptor

namespace Plugin

section Configured

variable {compile : String → Except Finder.Failure Finder} {entries others : List String}
  {p q : Plugin}

theorem ofEntriesWith_eq_ok_iff : ofEntriesWith compile entries = .ok p ↔
    ∃ d, Descriptor.ofEntries compile entries = .ok d ∧ p = .configured d := by
  rw [ofEntriesWith]
  cases Descriptor.ofEntries compile entries <;> simp [eq_comm]

theorem ofEntriesWith_eq_error_iff {e : Error} : ofEntriesWith compile entries = .error e ↔
    ∃ e', Descriptor.ofEntries compile entries = .error e' ∧ e = .descriptor e' := by
  rw [ofEntriesWith]
  cases Descriptor.ofEntries compile entries <;> simp [eq_comm]

theorem exists_ofEntriesWith_eq_error_iff : (∃ e, ofEntriesWith compile entries = .error e) ↔
    ∃ entry ∈ entries, Descriptor.Fails compile entry := by
  rw [← Descriptor.exists_ofEntries_eq_error_iff]
  simp only [ofEntriesWith_eq_error_iff]
  exact ⟨fun ⟨_, e, he, _⟩ => ⟨e, he⟩, fun ⟨e, he⟩ => ⟨_, e, he, rfl⟩⟩

theorem exists_ofEntriesWith_eq_ok_iff : (∃ p, ofEntriesWith compile entries = .ok p) ↔
    ∀ entry ∈ entries, ¬ Descriptor.Fails compile entry := by
  have hnone : (∀ entry ∈ entries, ¬ Descriptor.Fails compile entry) ↔
      ¬ ∃ e, ofEntriesWith compile entries = .error e := by
    rw [exists_ofEntriesWith_eq_error_iff]
    simp
  rw [hnone]
  cases ofEntriesWith compile entries <;> simp

theorem covers_of_ofEntriesWith (h : ofEntriesWith compile entries = .ok p) (name : String) :
    p.descriptor.covers name = true ↔
      ∃ entry ∈ entries, Descriptor.Matches compile entry name := by
  obtain ⟨d, hd, rfl⟩ := ofEntriesWith_eq_ok_iff.1 h
  exact Descriptor.covers_of_ofEntries hd name

/-- The first entry that fails decides: one that the compiler refuses is named in a complaint, and
one at which it breaks down is not. -/
theorem ofEntriesWith_eq_error_iff_first {e : Error} : ofEntriesWith compile entries = .error e ↔
    ∃ entry, First (Descriptor.Fails compile) entries entry ∧
      ((∃ reason, Descriptor.FailsBy compile entry (.refused reason) ∧
          e = .descriptor (.badPattern entry reason)) ∨
        ∃ b, Descriptor.FailsBy compile entry (.broke b) ∧ e = .descriptor (.broke b)) := by
  simp only [ofEntriesWith_eq_error_iff, Descriptor.ofEntries_eq_error_iff]
  constructor
  · rintro ⟨_, ⟨entry, failure, hfirst, hfails, rfl⟩, rfl⟩
    cases failure with
    | refused reason => exact ⟨entry, hfirst, .inl ⟨reason, hfails, rfl⟩⟩
    | broke b => exact ⟨entry, hfirst, .inr ⟨b, hfails, rfl⟩⟩
  · rintro ⟨entry, hfirst, ⟨reason, hfails, rfl⟩ | ⟨b, hfails, rfl⟩⟩
    · exact ⟨_, ⟨entry, _, hfirst, hfails, rfl⟩, rfl⟩
    · exact ⟨_, ⟨entry, _, hfirst, hfails, rfl⟩, rfl⟩

/-- There is a complaint if the first entry that fails is refused. -/
theorem exists_complaint_iff :
    (∃ e, ofEntriesWith compile entries = .error e ∧ e.isComplaint = true) ↔
      ∃ entry reason, First (Descriptor.Fails compile) entries entry ∧
        Descriptor.FailsBy compile entry (.refused reason) := by
  simp only [ofEntriesWith_eq_error_iff_first]
  constructor
  · rintro ⟨_, ⟨entry, hfirst, ⟨reason, hfails, rfl⟩ | ⟨b, -, rfl⟩⟩, hcomplaint⟩
    · exact ⟨entry, reason, hfirst, hfails⟩
    · cases hcomplaint
  · rintro ⟨entry, reason, hfirst, hfails⟩
    exact ⟨_, ⟨entry, hfirst, .inl ⟨reason, hfails, rfl⟩⟩, rfl⟩

end Configured

/-- A list of ignored names fails exactly if one of its patterns does not compile, and the first of
these decides how: if the compiler refuses it, the complaint names it, and if the compiler breaks
down, that is not complained about. Otherwise the list covers what one of its entries matches, so
that order and repetition do not matter and the entries of two lists cover what either list
covers. -/
theorem ofEntriesWith_exact (compile : String → Except Finder.Failure Finder)
    (entries : List String) :
    ((∃ e, ofEntriesWith compile entries = .error e) ↔
      ∃ entry ∈ entries, Descriptor.Fails compile entry) ∧
    ((∃ e, ofEntriesWith compile entries = .error e ∧ e.isComplaint = true) ↔
      ∃ entry reason, First (Descriptor.Fails compile) entries entry ∧
        Descriptor.FailsBy compile entry (.refused reason)) ∧
    (∀ e, ofEntriesWith compile entries = .error e ↔
      ∃ entry, First (Descriptor.Fails compile) entries entry ∧
        ((∃ reason, Descriptor.FailsBy compile entry (.refused reason) ∧
            e = .descriptor (.badPattern entry reason) ∧
            e.message = "Invalid pattern " ++ Text.quoted entry ++ ": " ++ reason ∧
            ∀ other rest, e.message = "Invalid pattern " ++ Text.quoted other ++ rest →
              other = entry) ∨
          ∃ b, Descriptor.FailsBy compile entry (.broke b) ∧ e = .descriptor (.broke b))) ∧
    (∀ p, ofEntriesWith compile entries = .ok p → ∀ name, p.descriptor.covers name = true ↔
      ∃ entry ∈ entries, Descriptor.Matches compile entry name) ∧
    (∀ others, (∀ entry, entry ∈ others ↔ entry ∈ entries) →
      ((∃ q, ofEntriesWith compile others = .ok q) ↔ ∃ p, ofEntriesWith compile entries = .ok p) ∧
        ∀ p q, ofEntriesWith compile entries = .ok p → ofEntriesWith compile others = .ok q →
          ∀ name, q.descriptor.covers name = p.descriptor.covers name) ∧
    ∀ others, ((∃ r, ofEntriesWith compile (entries ++ others) = .ok r) ↔
        (∃ p, ofEntriesWith compile entries = .ok p) ∧
          ∃ q, ofEntriesWith compile others = .ok q) ∧
      ∀ p q r, ofEntriesWith compile entries = .ok p → ofEntriesWith compile others = .ok q →
        ofEntriesWith compile (entries ++ others) = .ok r → ∀ name,
          r.descriptor.covers name = (p.descriptor.covers name || q.descriptor.covers name) := by
  refine ⟨exists_ofEntriesWith_eq_error_iff, exists_complaint_iff, fun e => ?_,
    fun p hp => covers_of_ofEntriesWith hp, fun others hsame => ⟨?_, ?_⟩, fun others => ⟨?_, ?_⟩⟩
  · rw [ofEntriesWith_eq_error_iff_first]
    constructor
    · rintro ⟨entry, hfirst, ⟨reason, hfails, rfl⟩ | hbroke⟩
      · have hmessage : Error.message (.descriptor (.badPattern entry reason)) =
            "Invalid pattern " ++ Text.quoted entry ++ ": " ++ reason := rfl
        refine ⟨entry, hfirst, .inl ⟨reason, hfails, rfl, hmessage, fun other rest h => ?_⟩⟩
        rw [hmessage] at h
        simp only [String.append_assoc, String.append_right_inj] at h
        exact (Text.quoted_append_inj h).1.symm
      · exact ⟨entry, hfirst, .inr hbroke⟩
    · rintro ⟨entry, hfirst, ⟨reason, hfails, he, -⟩ | hbroke⟩
      · exact ⟨entry, hfirst, .inl ⟨reason, hfails, he⟩⟩
      · exact ⟨entry, hfirst, .inr hbroke⟩
  · simp only [exists_ofEntriesWith_eq_ok_iff, hsame]
  · intro p q hp hq name
    rw [Bool.eq_iff_iff, covers_of_ofEntriesWith hq, covers_of_ofEntriesWith hp]
    simp only [hsame]
  · simp only [exists_ofEntriesWith_eq_ok_iff, List.forall_mem_append]
  · intro p q r hp hq hr name
    rw [Bool.eq_iff_iff, Bool.or_eq_true, covers_of_ofEntriesWith hr, covers_of_ofEntriesWith hp,
      covers_of_ofEntriesWith hq]
    simp [or_and_right, exists_or]

/-- A number of repetitions that the compiler cannot take: the pattern does not compile, and there
is no complaint about it. -/
theorem ofEntriesWith_exact_overflow :
    (∃ entry ∈ ["/a\x7b4294967295\x7d/"], Descriptor.Fails Pattern.finder entry) ∧
      ofEntries ["/a\x7b4294967295\x7d/"] = .error (.descriptor (.broke .overflow)) ∧
      ¬ ∃ e, ofEntries ["/a\x7b4294967295\x7d/"] = .error e ∧ e.isComplaint = true := by
  have hread : Pattern.finder "a\x7b4294967295\x7d" = .error (.broke .overflow) := by rfl
  have hfails : Descriptor.FailsBy Pattern.finder "/a\x7b4294967295\x7d/" (.broke .overflow) :=
    ⟨"a\x7b4294967295\x7d", rfl, hread⟩
  obtain ⟨-, -, herror, -⟩ := ofEntriesWith_exact Pattern.finder ["/a\x7b4294967295\x7d/"]
  have hbroke : ofEntries ["/a\x7b4294967295\x7d/"] = .error (.descriptor (.broke .overflow)) :=
    (herror _).2 ⟨_, (first_cons_of_pos ⟨_, hfails⟩).2 rfl, .inr ⟨_, hfails, rfl⟩⟩
  refine ⟨⟨_, List.mem_cons_self, _, hfails⟩, hbroke, ?_⟩
  rintro ⟨e, he, hcomplaint⟩
  rw [hbroke] at he
  cases he
  cases hcomplaint

/-- A name that no plugin has. -/
def Unknown (name : String) : Prop :=
  ∀ p ∈ builtIn, p.name ≠ name

section Load

variable {name : String} {names seen : List String} {p : Plugin} {ps : List Plugin}

theorem ofName?_of_unknown (h : Unknown name) : ofName? name = none := by
  refine List.find?_eq_none.2 fun p hp hname => h p hp ?_
  simpa using hname

theorem exists_ofName?_of_not_unknown (h : ¬ Unknown name) :
    ∃ p ∈ builtIn, p.name = name ∧ ofName? name = some p := by
  cases hp : ofName? name with
  | none =>
      refine absurd (fun p hmem => ?_) h
      simpa using List.find?_eq_none.1 hp p hmem
  | some p => exact ⟨p, List.mem_of_find?_eq_some hp, by simpa using List.find?_some hp, rfl⟩

theorem loadAfter_cons_of_mem (h : name ∈ seen) :
    loadAfter seen (name :: names) = loadAfter seen names := by
  rw [loadAfter, if_pos (List.contains_iff_mem.2 h)]

theorem loadAfter_cons_of_some (h : name ∉ seen) (hp : ofName? name = some p) :
    loadAfter seen (name :: names) = (loadAfter (name :: seen) names).map (p :: ·) := by
  rw [loadAfter, if_neg (by simpa using h), hp]
  cases loadAfter (name :: seen) names <;> rfl

theorem loadAfter_cons_of_unknown (h : name ∉ seen) (hname : Unknown name) :
    loadAfter seen (name :: names) = .error (.unknown name) := by
  rw [loadAfter, if_neg (by simpa using h), ofName?_of_unknown hname]

/-- Loading stops at the first unknown name; what was seen before is known. -/
theorem loadAfter_eq_error_iff (hseen : ∀ name ∈ seen, ¬ Unknown name) {e : Error} :
    loadAfter seen names = .error e ↔ ∃ name, First Unknown names name ∧ e = .unknown name := by
  induction names generalizing seen with
  | nil => simp [loadAfter, not_first_nil]
  | cons name names ih =>
      by_cases hmem : name ∈ seen
      · simp only [loadAfter_cons_of_mem hmem, first_cons_of_neg (hseen name hmem), ih hseen]
      · by_cases hname : Unknown name
        · simp [loadAfter_cons_of_unknown hmem hname, first_cons_of_pos hname, eq_comm]
        · obtain ⟨p, -, -, hp⟩ := exists_ofName?_of_not_unknown hname
          simp only [first_cons_of_neg hname, loadAfter_cons_of_some hmem hp,
            ← ih (List.forall_mem_cons.2 ⟨hname, hseen⟩)]
          cases loadAfter (name :: seen) names <;> simp [Except.map]

/-- Every name gets its plugin where it occurs first. -/
theorem names_of_loadAfter (h : loadAfter seen names = .ok ps) :
    ps.map (·.name) = (names.filter (!seen.contains ·)).eraseDups ∧ ∀ p ∈ ps, p ∈ builtIn := by
  induction names generalizing seen ps with
  | nil =>
      cases h
      simp
  | cons name names ih =>
      by_cases hmem : name ∈ seen
      · rw [loadAfter_cons_of_mem hmem] at h
        simpa [hmem] using ih h
      · by_cases hname : Unknown name
        · rw [loadAfter_cons_of_unknown hmem hname] at h
          cases h
        · obtain ⟨p, hbuiltIn, hp, hfound⟩ := exists_ofName?_of_not_unknown hname
          rw [loadAfter_cons_of_some hmem hfound] at h
          cases hrest : loadAfter (name :: seen) names with
          | error e =>
              rw [hrest] at h
              cases h
          | ok rest =>
              rw [hrest] at h
              cases h
              obtain ⟨hnames, hfrom⟩ := ih hrest
              -- The name is seen from here on, so the rest of the list is read without it.
              have hfilter : names.filter (!(name :: seen).contains ·) =
                  (names.filter (!seen.contains ·)).filter (!· == name) := by
                simp only [List.filter_filter, List.contains_cons, Bool.not_or]
              refine ⟨?_, List.forall_mem_cons.2 ⟨hbuiltIn, hfrom⟩⟩
              rw [List.map_cons, hnames, hp, hfilter, List.filter_cons_of_pos (by simpa using hmem),
                List.eraseDups_cons]

end Load

section Gems

variable {gem name : String} {gems names : List String}

/-- What a gem adds comes after what is there. -/
theorem addForGem_eq : addForGem names gem =
    names ++ (gemPlugins.lookup gem).toList.filter (!names.contains ·) := by
  rw [addForGem]
  cases gemPlugins.lookup gem with
  | none => simp
  | some other => by_cases h : other ∈ names <;> simp [h]

theorem mem_addForGem :
    name ∈ addForGem names gem ↔ name ∈ names ∨ gemPlugins.lookup gem = some name := by
  rw [addForGem_eq]
  by_cases h : name ∈ names <;> simp [h]

theorem nodup_addForGem (h : names.Nodup) : (addForGem names gem).Nodup := by
  rw [addForGem]
  cases gemPlugins.lookup gem with
  | none => exact h
  | some other =>
      by_cases hmem : other ∈ names
      · simpa [hmem] using h
      · have happart : ∀ a ∈ names, a ≠ other := by
          rintro a ha rfl
          exact hmem ha
        simpa [hmem, List.nodup_append, h] using happart

theorem mem_foldl_addForGem : name ∈ gems.foldl addForGem names ↔
    name ∈ names ∨ ∃ gem ∈ gems, gemPlugins.lookup gem = some name := by
  induction gems generalizing names with
  | nil => simp
  | cons gem gems ih => simp [ih, mem_addForGem, or_assoc]

theorem nodup_foldl_addForGem (h : names.Nodup) : (gems.foldl addForGem names).Nodup := by
  induction gems generalizing names with
  | nil => exact h
  | cons gem gems ih => exact ih (nodup_addForGem h)

theorem prefix_foldl_addForGem : names <+: gems.foldl addForGem names := by
  induction gems generalizing names with
  | nil => exact List.prefix_rfl
  | cons gem gems ih =>
      have hstep : names <+: addForGem names gem := by
        rw [addForGem_eq]
        exact List.prefix_append ..
      exact hstep.trans ih

theorem mem_namesForGems : name ∈ namesForGems gems ↔
    name = "ruby" ∨ ∃ gem ∈ gems, (gem, name) ∈ gemPlugins := by
  have hkeys : (gemPlugins.map (·.1)).Nodup := by decide
  simp [namesForGems, mem_foldl_addForGem, List.mem_eraseDups, Json.lookup_eq_some_iff_mem hkeys]

theorem not_unknown_of_mem_namesForGems (h : name ∈ namesForGems gems) : ¬ Unknown name := by
  have htable : ∀ row ∈ ("", "ruby") :: gemPlugins, ∃ p ∈ builtIn, p.name = row.2 := by
    decide
  intro hunknown
  rcases mem_namesForGems.1 h with rfl | ⟨gem, -, hrow⟩
  · obtain ⟨p, hp, hname⟩ := htable _ List.mem_cons_self
    exact hunknown p hp hname
  · obtain ⟨p, hp, hname⟩ := htable _ (List.mem_cons_of_mem _ hrow)
    exact hunknown p hp hname

theorem namesForGems_congr {others : List String} (h : ∀ gem, gem ∈ others ↔ gem ∈ gems) :
    namesForGems others = namesForGems gems := by
  rw [namesForGems, namesForGems, sortedBy_eraseDups_congr h]

end Gems

theorem load_eq_error_iff {names : List String} {e : Error} :
    load names = .error e ↔ ∃ name, First Unknown names name ∧ e = .unknown name :=
  loadAfter_eq_error_iff (by simp)

theorem exists_load_eq_error_iff {names : List String} :
    (∃ e, load names = .error e) ↔ ∃ name ∈ names, Unknown name := by
  simp only [load_eq_error_iff, ← exists_first_iff]
  exact ⟨fun ⟨_, name, hfirst, _⟩ => ⟨name, hfirst⟩, fun ⟨name, hfirst⟩ => ⟨_, name, hfirst, rfl⟩⟩

theorem pairwise_knownNames : knownNames.Pairwise (· < ·) := by
  have hnodup : (builtIn.map (·.name)).Nodup := by decide
  rw [knownNames, ← eraseDups_eq_self hnodup]
  exact pairwise_sortedBy_eraseDups _

theorem mem_knownNames {name : String} : name ∈ knownNames ↔ ¬ Unknown name := by
  simp [knownNames, Unknown]

/-- The message about plugins that cannot be loaded names the first that is unknown, and lists those
that are known in order. -/
theorem message_of_load_eq_error {names : List String} {e : Error} (h : load names = .error e) :
    ∃ name known, First Unknown names name ∧
      e.message = "Unknown plugin " ++ Text.quoted name ++ " (known plugins: " ++
        ", ".intercalate known ++ ")" ∧
      known.Pairwise (· < ·) ∧ (∀ other, other ∈ known ↔ ¬ Unknown other) ∧
      ∀ other rest, e.message = "Unknown plugin " ++ Text.quoted other ++ rest →
        other = name := by
  obtain ⟨name, hfirst, rfl⟩ := load_eq_error_iff.1 h
  have hmessage : Error.message (.unknown name) = "Unknown plugin " ++ Text.quoted name ++
      " (known plugins: " ++ ", ".intercalate knownNames ++ ")" := by
    unfold Error.message
    rfl
  refine ⟨name, knownNames, hfirst, hmessage, pairwise_knownNames, fun other => mem_knownNames,
    fun other rest h => ?_⟩
  rw [hmessage] at h
  simp only [String.append_assoc, String.append_right_inj] at h
  exact (Text.quoted_append_inj h).1.symm

theorem names_of_load {names : List String} {ps : List Plugin} (h : load names = .ok ps) :
    ps.map (·.name) = names.eraseDups ∧ ∀ p ∈ ps, p ∈ builtIn := by
  have hall : names.filter (!([] : List String).contains ·) = names := by simp
  rw [← hall]
  exact names_of_loadAfter h

/-- The plugins that gems call for are listed once, the one for the language itself first,
whatever the order and repetition of the gems. Loading gives every name its plugin once, in the
order of first occurrence, or names the first unknown one; so what gems call for can always be
loaded. -/
theorem load_namesForGems_exact :
    (∀ gems, (namesForGems gems).Nodup ∧ (namesForGems gems).head? = some "ruby" ∧
      (∀ name, name ∈ namesForGems gems ↔
        name = "ruby" ∨ ∃ gem ∈ gems, (gem, name) ∈ gemPlugins) ∧
      ∀ others, (∀ gem, gem ∈ others ↔ gem ∈ gems) → namesForGems others = namesForGems gems) ∧
    (∀ names, ((∃ e, load names = .error e) ↔ ∃ name ∈ names, Unknown name) ∧
      (∀ e, load names = .error e ↔ ∃ name, First Unknown names name ∧ e = .unknown name) ∧
      ∀ ps, load names = .ok ps → ps.map (·.name) = names.eraseDups ∧ ∀ p ∈ ps, p ∈ builtIn) ∧
    ∀ gems, ∃ ps, load (namesForGems gems) = .ok ps ∧ ps.map (·.name) = namesForGems gems := by
  have hnodup : ∀ gems, (namesForGems gems).Nodup := fun gems =>
    nodup_foldl_addForGem (by simp)
  refine ⟨fun gems => ⟨hnodup gems, ?_, fun name => mem_namesForGems, fun others =>
    namesForGems_congr⟩, fun names => ⟨exists_load_eq_error_iff, fun e => load_eq_error_iff,
    fun ps => names_of_load⟩, fun gems => ?_⟩
  · obtain ⟨rest, hrest⟩ : ["ruby"] <+: namesForGems gems := prefix_foldl_addForGem
    rw [← hrest]
    rfl
  · cases hps : load (namesForGems gems) with
    | error e =>
        obtain ⟨name, hmem, hunknown⟩ := exists_load_eq_error_iff.1 ⟨e, hps⟩
        exact absurd hunknown (not_unknown_of_mem_namesForGems hmem)
    | ok ps =>
        refine ⟨ps, rfl, ?_⟩
        rw [(names_of_load hps).1, eraseDups_eq_self (hnodup gems)]

end Plugin
end Fallow
