import Fallow.Proofs.Keywords
import Fallow.Proofs.Spelling
import Fallow.Report

/-!
# Documents read back

A document without fractions, in which no object names a member twice, is read back from its text
as it was, but for the order of members. The one thing that can go wrong is an integer with more
than `Numeral.maxDigits` digits: a document that holds one has no text.
-/

namespace Fallow

namespace Json

/-- Documents without fractions, in which no object has two members of one name. -/
inductive Plain : Json → Prop
  | null : Plain .null
  | bool (b : Bool) : Plain (.bool b)
  | int (i : Int) : Plain (.int i)
  | str (s : String) : Plain (.str s)
  | arr {items : List Json} (hitems : ∀ item ∈ items, Plain item) : Plain (.arr items)
  | obj {members : List (String × Json)} (hnames : (members.map (·.1)).Nodup)
      (hmembers : ∀ member ∈ members, Plain member.2) : Plain (.obj members)

theorem integersOfItems_eq (items : List Json) :
    integersOfItems items = items.flatMap integers := by
  induction items with
  | nil => rfl
  | cons item rest ih => rw [integersOfItems, List.flatMap_cons, ih]

theorem integersOfMembers_eq (members : List (String × Json)) :
    integersOfMembers members = members.flatMap fun member => integers member.2 := by
  induction members with
  | nil => rfl
  | cons member rest ih => rw [integersOfMembers, List.flatMap_cons, ih]

theorem legible_iff {v : Json} :
    v.legible = true ↔ ∀ i ∈ v.integers, i.natAbs < 10 ^ Numeral.maxDigits := by
  simp only [legible, List.all_eq_true, Numeral.isPrintable_iff]

theorem legible_arr (items : List Json) : legible (.arr items) = items.all legible := by
  rw [legible, integers, integersOfItems_eq, List.all_flatMap]
  rfl

theorem legible_obj (members : List (String × Json)) :
    legible (.obj members) = members.all fun member => member.2.legible := by
  rw [legible, integers, integersOfMembers_eq, List.all_flatMap]
  rfl

theorem setMember_of_notMem {α : Type} {name : String} {members : List (String × α)}
    (h : name ∉ members.map (·.1)) (value : α) :
    setMember name value members = members ++ [(name, value)] := by
  induction members with
  | nil => rfl
  | cons member rest ih =>
      rw [List.map_cons, List.mem_cons, not_or] at h
      rw [setMember, if_neg (Ne.symm h.1), ih h.2, List.cons_append]

theorem ofMembers_eq_self {α : Type} {members : List (String × α)}
    (h : (members.map (·.1)).Nodup) : ofMembers members = members := by
  suffices hdone : ∀ done : List (String × α), ((done ++ members).map (·.1)).Nodup →
      members.foldl (fun done member => setMember member.1 member.2 done) done =
        done ++ members from hdone [] h
  induction members with
  | nil => simp
  | cons member rest ih =>
      intro done hdone
      have hnew : member.1 ∉ done.map (·.1) := by
        rw [List.map_append, List.nodup_append] at hdone
        intro hmem
        exact hdone.2.2 _ hmem _ (by simp) rfl
      have hrest : ((done ++ [member] ++ rest).map (·.1)).Nodup := by
        rwa [List.append_assoc, List.singleton_append]
      rw [List.foldl_cons, setMember_of_notMem hnew, ih (List.nodup_cons.1 h |>.2) _ hrest,
        List.append_assoc, List.singleton_append]

/-- Texts that do not start with a blank. -/
def Opens (s : List Char) : Prop :=
  ∀ c ∈ s.head?, isSpace c = false

theorem skipSpace_of_opens {s : List Char} (h : Opens s) : skipSpace s = s := by
  cases s with
  | nil => rfl
  | cons c s =>
      rw [skipSpace, List.dropWhile_cons_of_neg]
      rw [h c rfl]
      decide

theorem skipSpace_newline (depth : Nat) {s : List Char} (h : Opens s) :
    skipSpace (newline depth ++ s) = s := by
  have hblank : ∀ c ∈ newline depth, isSpace c = true := by
    intro c hc
    rcases List.mem_cons.1 hc with rfl | hc
    · rfl
    · rw [List.eq_of_mem_replicate hc]
      rfl
  rw [skipSpace, List.dropWhile_append_of_pos hblank]
  exact skipSpace_of_opens h

theorem opens_renderText (s : String) (rest : List Char) : Opens (renderText s ++ rest) := by
  simp [Opens, renderText, isSpace]

/-- The text of a value starts like no blank and no closing bracket, and the reader reads it if all
its integers are short enough. -/
structure Readable (v : Json) : Prop where
  opens (depth : Nat) : ∃ c t, layOut depth v = c :: t ∧ isSpace c = false ∧ c ≠ ']'
  reads {depth fuel : Nat} {rest : List Char} (hlegible : v.legible = true) (hends : Ends rest)
    (hfuel : (layOut depth v).length ≤ fuel) :
    readValue fuel (layOut depth v ++ rest) = .ok (v, rest)

namespace Readable

theorem opens_append {v : Json} (h : Readable v) (depth : Nat) (rest : List Char) :
    Opens (layOut depth v ++ rest) := by
  obtain ⟨c, t, heq, hspace, -⟩ := h.opens depth
  rw [heq, List.cons_append]
  rintro _ ⟨⟩
  exact hspace

theorem append_ne_close {v : Json} (h : Readable v) (depth : Nat) (rest : List Char) :
    ∀ t, layOut depth v ++ rest = ']' :: t → False := by
  intro t ht
  obtain ⟨c, t', heq, -, hclose⟩ := h.opens depth
  rw [heq, List.cons_append, List.cons.injEq] at ht
  exact hclose ht.1

theorem leaf {v : Json} (hopens : ∀ depth, ∃ c t, layOut depth v = c :: t ∧
    isSpace c = false ∧ c ≠ ']' ∧ c ≠ '[' ∧ c ≠ '\x7b')
    (hreads : ∀ depth rest, v.legible = true → Ends rest →
      readLeaf (layOut depth v ++ rest) = .ok (v, rest)) : Readable v where
  opens depth := by
    obtain ⟨c, t, heq, hspace, hclose, -, -⟩ := hopens depth
    exact ⟨c, t, heq, hspace, hclose⟩
  reads {depth fuel rest} hlegible hends hfuel := by
    rw [← hreads depth rest hlegible hends]
    obtain ⟨c, t, heq, -, -, hbracket, hbrace⟩ := hopens depth
    rw [heq] at hfuel ⊢
    obtain ⟨fuel, rfl⟩ := Nat.exists_eq_add_of_le' hfuel
    rw [List.cons_append, List.length_cons, ← Nat.add_assoc]
    exact readValue.eq_4 _ _ (by simpa using hbracket) (by simpa using hbrace)

theorem null : Readable .null :=
  leaf (fun _ => ⟨'n', _, rfl, by decide⟩) fun _ _ _ _ => rfl

theorem bool : ∀ b, Readable (.bool b)
  | true => leaf (fun _ => ⟨'t', _, rfl, by decide⟩) fun _ _ _ _ => rfl
  | false => leaf (fun _ => ⟨'f', _, rfl, by decide⟩) fun _ _ _ _ => rfl

theorem int (i : Int) : Readable (.int i) := by
  apply leaf
  · intro _
    obtain ⟨m, ds, hm, heq, -⟩ := Numeral.natDigits_eq_cons i.natAbs
    by_cases hneg : i < 0
    · exact ⟨'-', _, by rw [layOut, Numeral.intDigits, if_pos hneg], by decide⟩
    · refine ⟨_, _, by rw [layOut, Numeral.intDigits, if_neg hneg, heq], ?_⟩
      clear heq
      revert m
      decide
  · intro _ rest hlegible hends
    have hi : Numeral.isPrintable i = true := by simpa [legible, integers] using hlegible
    rw [layOut, hends.readLeaf_intDigits hi]

theorem str (s : String) : Readable (.str s) := by
  apply leaf
  · exact fun _ => ⟨'"', _, rfl, by decide⟩
  · intro _ rest _ _
    rw [layOut, renderText_append]
    simp only [readLeaf, readText_renderText, String.ofList_toList]

variable {depth outer fuel : Nat} {tail : List Char}

/-- The last item, whose list is closed on the next line. -/
theorem readItems_last {item : Json} (h : Readable item) (hlegible : item.legible = true)
    (hfuel : (layOut depth item).length ≤ fuel) :
    readItems (fuel + 1) (layOut depth item ++ (newline outer ++ ']' :: tail)) =
      .ok ([item], tail) := by
  have hclose : skipSpace (newline outer ++ ']' :: tail) = ']' :: tail :=
    skipSpace_newline outer (by simp [Opens, isSpace])
  rw [readItems, h.reads hlegible (ends_newline outer _) hfuel]
  simp only [bind, Except.bind, hclose]
  rfl

/-- An item that another one follows. -/
theorem readItems_more {item : Json} {s : List Char} (h : Readable item)
    (hlegible : item.legible = true) (hfuel : (layOut depth item).length ≤ fuel)
    {items : List Json} (hs : readItems fuel (skipSpace s) = .ok (items, tail)) :
    readItems (fuel + 1) (layOut depth item ++ ',' :: s) = .ok (item :: items, tail) := by
  have hcomma : skipSpace (',' :: s) = ',' :: s := skipSpace_of_opens (by simp [Opens, isSpace])
  rw [readItems, h.reads hlegible (ends_comma s) hfuel]
  simp only [bind, Except.bind, hcomma, hs]
  rfl

theorem readItems_layOut {item : Json} {rest : List Json}
    (hitems : ∀ other ∈ item :: rest, Readable other ∧ other.legible = true)
    (hfuel : (layOut depth item ++ layOutItems depth rest).length < fuel) :
    readItems fuel
        (layOut depth item ++ (layOutItems depth rest ++ (newline outer ++ ']' :: tail))) =
      .ok (item :: rest, tail) := by
  -- Each item takes one of the steps supplied, and its text is longer than that.
  induction rest generalizing item fuel with
  | nil =>
      obtain ⟨hitem, hlegible⟩ := hitems item List.mem_cons_self
      obtain ⟨fuel, rfl⟩ := Nat.exists_eq_add_one.2 (Nat.zero_lt_of_lt hfuel)
      rw [layOutItems, List.append_nil] at hfuel
      rw [layOutItems, List.nil_append, readItems_last hitem hlegible (Nat.le_of_lt_succ hfuel)]
  | cons next rest ih =>
      obtain ⟨⟨hitem, hlegible⟩, hrest⟩ := List.forall_mem_cons.1 hitems
      have hnext := (hrest next List.mem_cons_self).1
      obtain ⟨fuel, rfl⟩ := Nat.exists_eq_add_one.2 (Nat.zero_lt_of_lt hfuel)
      simp only [layOutItems, List.length_append, List.length_cons] at hfuel
      have hlt : (layOut depth next ++ layOutItems depth rest).length < fuel := by
        rw [List.length_append]
        omega
      have hmore := ih hrest hlt
      rw [← skipSpace_newline depth (hnext.opens_append depth _)] at hmore
      simp only [layOutItems, List.append_assoc, List.cons_append]
      exact readItems_more hitem hlegible (by omega) hmore

theorem readValue_bracket {s s' : List Char} (hskip : skipSpace s = s')
    (hne : ∀ t, s' = ']' :: t → False) {items : List Json}
    (hs : readItems fuel s' = .ok (items, tail)) :
    readValue (fuel + 1) ('[' :: s) = .ok (.arr items, tail) := by
  rw [readValue, hskip]
  split
  · exact (hne _ rfl).elim
  · rw [hs]
    rfl

theorem arr {items : List Json} (h : ∀ item ∈ items, Readable item) : Readable (.arr items) := by
  cases items with
  | nil =>
      refine ⟨fun _ => ⟨'[', _, rfl, by decide⟩, fun {_ fuel _} _ _ hfuel => ?_⟩
      obtain ⟨fuel, rfl⟩ := Nat.exists_eq_add_of_le' hfuel
      rfl
  | cons item rest =>
      have hitem := h item List.mem_cons_self
      refine ⟨fun _ => ⟨'[', _, rfl, by decide⟩, fun {depth fuel tail} hlegible _ hfuel => ?_⟩
      rw [legible_arr, List.all_eq_true] at hlegible
      obtain ⟨fuel, rfl⟩ := Nat.exists_eq_add_one.2 (Nat.lt_of_lt_of_le (by simp [layOut]) hfuel)
      have hlt : (layOut (depth + 1) item ++ layOutItems (depth + 1) rest).length < fuel := by
        simp only [layOut, List.length_append, List.length_cons] at hfuel ⊢
        omega
      have hitems := @readItems_layOut (depth + 1) depth fuel tail item rest
        (fun other hother => ⟨h other hother, hlegible other hother⟩) hlt
      have hskip := skipSpace_newline (depth + 1) (hitem.opens_append (depth + 1)
        (layOutItems (depth + 1) rest ++ (newline depth ++ ']' :: tail)))
      rw [← readValue_bracket hskip (hitem.append_ne_close (depth + 1) _) hitems]
      simp only [layOut, List.append_assoc, List.cons_append, List.nil_append]

theorem readMembers_colon {name : String} {value : Json} {s : List Char} (h : Readable value)
    (hlegible : value.legible = true) (hends : Ends s)
    (hfuel : (layOut depth value).length ≤ fuel) :
    readMembers (fuel + 1) (renderText name ++ ':' :: ' ' :: (layOut depth value ++ s)) =
      match skipSpace s with
      | '\x7d' :: rest => .ok ([(name, value)], rest)
      | ',' :: rest => do
        let (members, rest) ← readMembers fuel (skipSpace rest)
        return ((name, value) :: members, rest)
      | _ => .error .malformed := by
  have hcolon : skipSpace (':' :: ' ' :: (layOut depth value ++ s)) =
      ':' :: ' ' :: (layOut depth value ++ s) := skipSpace_of_opens (by simp [Opens, isSpace])
  have hblank : skipSpace (' ' :: (layOut depth value ++ s)) = layOut depth value ++ s :=
    skipSpace_of_opens (h.opens_append depth s)
  rw [renderText_append]
  simp only [readMembers, readText_renderText, hcolon, hblank, h.reads hlegible hends hfuel,
    String.ofList_toList]
  rfl

theorem readMembers_layOut {name : String} {value : Json} {rest : List (String × Json)}
    (hmembers : ∀ member ∈ (name, value) :: rest,
      Readable member.2 ∧ member.2.legible = true)
    (hfuel : (layOut depth value ++ layOutMembers depth rest).length < fuel) :
    readMembers fuel (renderText name ++ ':' :: ' ' :: (layOut depth value ++
        (layOutMembers depth rest ++ (newline outer ++ '\x7d' :: tail)))) =
      .ok ((name, value) :: rest, tail) := by
  induction rest generalizing name value fuel with
  | nil =>
      obtain ⟨hvalue : Readable value, hlegible : value.legible = true⟩ :=
        hmembers _ List.mem_cons_self
      obtain ⟨fuel, rfl⟩ := Nat.exists_eq_add_one.2 (Nat.zero_lt_of_lt hfuel)
      have hclose : skipSpace (newline outer ++ '\x7d' :: tail) = '\x7d' :: tail :=
        skipSpace_newline outer (by simp [Opens, isSpace])
      rw [layOutMembers, List.append_nil] at hfuel
      rw [layOutMembers, List.nil_append,
        readMembers_colon hvalue hlegible (ends_newline outer _) (Nat.le_of_lt_succ hfuel), hclose]
      rfl
  | cons next rest ih =>
      obtain ⟨key, other⟩ := next
      obtain ⟨⟨hvalue : Readable value, hlegible : value.legible = true⟩, hrest⟩ :=
        List.forall_mem_cons.1 hmembers
      obtain ⟨fuel, rfl⟩ := Nat.exists_eq_add_one.2 (Nat.zero_lt_of_lt hfuel)
      simp only [layOutMembers, List.length_append, List.length_cons] at hfuel
      have hlt : (layOut depth other ++ layOutMembers depth rest).length < fuel := by
        rw [List.length_append]
        omega
      have hmore := @ih fuel key other hrest hlt
      have hcomma : ∀ s, skipSpace (',' :: s) = ',' :: s := fun s =>
        skipSpace_of_opens (by simp [Opens, isSpace])
      have hskip := skipSpace_newline depth (opens_renderText key (':' :: ' ' ::
        (layOut depth other ++ (layOutMembers depth rest ++ (newline outer ++ '\x7d' :: tail)))))
      simp only [layOutMembers, List.append_assoc, List.cons_append]
      rw [readMembers_colon hvalue hlegible (ends_comma _) (by omega), hcomma]
      simp only [hskip, hmore]
      rfl

theorem readValue_brace {s s' : List Char} (hskip : skipSpace s = s')
    (hne : ∀ t, s' = '\x7d' :: t → False) {members : List (String × Json)}
    (hs : readMembers fuel s' = .ok (members, tail)) :
    readValue (fuel + 1) ('\x7b' :: s) = .ok (.obj (ofMembers members), tail) := by
  rw [readValue, hskip]
  split
  · exact (hne _ rfl).elim
  · rw [hs]
    rfl

theorem obj {members : List (String × Json)} (hnames : (members.map (·.1)).Nodup)
    (h : ∀ member ∈ members, Readable member.2) : Readable (.obj members) := by
  cases members with
  | nil =>
      refine ⟨fun _ => ⟨'\x7b', _, rfl, by decide⟩, fun {_ fuel _} _ _ hfuel => ?_⟩
      obtain ⟨fuel, rfl⟩ := Nat.exists_eq_add_of_le' hfuel
      rfl
  | cons member rest =>
      obtain ⟨name, value⟩ := member
      refine ⟨fun _ => ⟨'\x7b', _, rfl, by decide⟩, fun {depth fuel tail} hlegible _ hfuel => ?_⟩
      rw [legible_obj, List.all_eq_true] at hlegible
      obtain ⟨fuel, rfl⟩ := Nat.exists_eq_add_one.2 (Nat.lt_of_lt_of_le (by simp [layOut]) hfuel)
      have hlt : (layOut (depth + 1) value ++ layOutMembers (depth + 1) rest).length < fuel := by
        simp only [layOut, List.length_append, List.length_cons] at hfuel ⊢
        omega
      have hmembers := @readMembers_layOut (depth + 1) depth fuel tail name value rest
        (fun member hmember => ⟨h member hmember, hlegible member hmember⟩) hlt
      have hskip := skipSpace_newline (depth + 1) (opens_renderText name (':' :: ' ' ::
        (layOut (depth + 1) value ++
          (layOutMembers (depth + 1) rest ++ (newline depth ++ '\x7d' :: tail)))))
      have hread := readValue_brace hskip (by simp [renderText]) hmembers
      rw [ofMembers_eq_self hnames] at hread
      rw [← hread]
      simp only [layOut, List.append_assoc, List.cons_append, List.nil_append]

end Readable

theorem Plain.readable {v : Json} (h : Plain v) : Readable v := by
  induction h with
  | null => exact .null
  | bool b => exact .bool b
  | int i => exact .int i
  | str s => exact .str s
  | arr _ ih => exact .arr ih
  | obj hnames _ ih => exact .obj hnames ih

/-- Two documents with the same items in the same places and the same members under the same
names. -/
inductive Same : Json → Json → Prop
  | refl (v : Json) : Same v v
  | arr {xs ys : List Json} (hlength : xs.length = ys.length)
      (hitems : ∀ (i : Nat) x y, xs[i]? = some x → ys[i]? = some y → Same x y) :
      Same (.arr xs) (.arr ys)
  | obj {xs ys : List (String × Json)}
      (hnames : ∀ name, xs.lookup name = none ↔ ys.lookup name = none)
      (hvalues : ∀ name x y, xs.lookup name = some x → ys.lookup name = some y → Same x y) :
      Same (.obj xs) (.obj ys)

theorem sortedItems_eq (items : List Json) : sortedItems items = items.map sorted := by
  induction items with
  | nil => rfl
  | cons item rest ih => rw [sortedItems, List.map_cons, ih]

theorem sortedMembers_eq (members : List (String × Json)) :
    sortedMembers members = members.map fun member => (member.1, member.2.sorted) := by
  induction members with
  | nil => rfl
  | cons member rest ih => rw [sortedMembers, List.map_cons, ih]

section Members

variable {α : Type} {members : List (String × α)}

theorem insertMember_perm (member : String × α) (members : List (String × α)) :
    (insertMember member members).Perm (member :: members) := by
  induction members with
  | nil => exact .refl _
  | cons other rest ih =>
      rw [insertMember]
      split
      · exact .refl _
      · exact (ih.cons other).trans (.swap member other rest)

theorem sortMembers_perm (members : List (String × α)) : (sortMembers members).Perm members := by
  induction members with
  | nil => exact .refl _
  | cons member rest ih => exact (insertMember_perm member _).trans (ih.cons member)

theorem lookup_sortMembers (hnames : (members.map (·.1)).Nodup) (name : String) :
    (sortMembers members).lookup name = members.lookup name := by
  have hperm := sortMembers_perm members
  have hsorted := (hperm.map (·.1)).nodup_iff.2 hnames
  ext value
  rw [lookup_eq_some_iff_mem hsorted, lookup_eq_some_iff_mem hnames, hperm.mem_iff]

end Members

theorem lookup_sortedMembers (members : List (String × Json)) (name : String) :
    (sortedMembers members).lookup name = (members.lookup name).map sorted := by
  induction members with
  | nil => rfl
  | cons member rest ih =>
      rw [sortedMembers, lookup_cons_eq_ite, lookup_cons_eq_ite, ih]
      split <;> rfl

theorem map_fst_sortedMembers (members : List (String × Json)) :
    (sortedMembers members).map (·.1) = members.map (·.1) := by
  rw [sortedMembers_eq, List.map_map]
  rfl

theorem Plain.sorted {v : Json} (h : Plain v) : Plain v.sorted := by
  induction h with
  | null => exact .null
  | bool b => exact .bool b
  | int i => exact .int i
  | str s => exact .str s
  | arr _ ih =>
      rw [Json.sorted, sortedItems_eq]
      exact .arr (List.forall_mem_map.2 ih)
  | @obj members hnames _ ih =>
      have hperm := sortMembers_perm (sortedMembers members)
      rw [Json.sorted]
      refine .obj ?_ fun member hmember => ?_
      · rw [(hperm.map _).nodup_iff, map_fst_sortedMembers]
        exact hnames
      · rw [hperm.mem_iff, sortedMembers_eq] at hmember
        obtain ⟨old, hold, rfl⟩ := List.mem_map.1 hmember
        exact ih old hold

theorem Plain.same_sorted {v : Json} (h : Plain v) : Same v.sorted v := by
  induction h with
  | null => exact .refl _
  | bool b => exact .refl _
  | int i => exact .refl _
  | str s => exact .refl _
  | arr _ ih =>
      rw [Json.sorted, sortedItems_eq]
      refine .arr (List.length_map _) fun i x y hx hy => ?_
      rw [List.getElem?_map, hy] at hx
      cases hx
      exact ih y (List.mem_of_getElem? hy)
  | @obj members hnames _ ih =>
      have hlookup : ∀ name, (sortMembers (sortedMembers members)).lookup name =
          (members.lookup name).map Json.sorted := by
        intro name
        rw [lookup_sortMembers, lookup_sortedMembers]
        rwa [map_fst_sortedMembers]
      rw [Json.sorted]
      refine .obj (fun name => ?_) fun name x y hx hy => ?_
      · rw [hlookup, Option.map_eq_none_iff]
      · rw [hlookup, hy] at hx
        cases hx
        exact ih (name, y) ((lookup_eq_some_iff_mem hnames).1 hy)

theorem Plain.legible_sorted {v : Json} (h : Plain v) : v.sorted.legible = v.legible := by
  induction h with
  | null => rfl
  | bool b => rfl
  | int i => rfl
  | str s => rfl
  | arr _ ih =>
      rw [Json.sorted, sortedItems_eq, legible_arr, legible_arr, List.all_map, Bool.eq_iff_iff,
        List.all_eq_true, List.all_eq_true]
      exact forall₂_congr fun item hitem => by rw [Function.comp, ih item hitem]
  | @obj members hnames _ ih =>
      rw [Json.sorted, legible_obj, legible_obj, (sortMembers_perm _).all_eq, sortedMembers_eq,
        List.all_map, Bool.eq_iff_iff, List.all_eq_true, List.all_eq_true]
      exact forall₂_congr fun member hmember => by rw [Function.comp, ih member hmember]

theorem render_eq_some_iff {v : Json} {text : String} : v.render = some text ↔
    v.legible = true ∧ text = String.ofList (layOut 0 v.sorted) := by
  rw [render]
  cases v.legible <;> simp [eq_comm]

/-- A document is read back from its text. -/
theorem parse_of_render {v : Json} (h : Plain v) {text : String} (htext : v.render = some text) :
    parse text = .ok v.sorted := by
  obtain ⟨hlegible, rfl⟩ := render_eq_some_iff.1 htext
  have hreadable := h.sorted.readable
  have hopens := skipSpace_of_opens (hreadable.opens_append 0 [])
  have hread := hreadable.reads (h.legible_sorted.trans hlegible) ends_nil
    (Nat.le_succ (layOut 0 v.sorted).length)
  rw [List.append_nil] at hopens hread
  rw [parse, String.toList_ofList, String.length_ofList, hopens, hread]
  rfl

/-- Texts whose only character outside printable ASCII is the line break. -/
def Tame (s : List Char) : Prop :=
  ∀ c ∈ s, c = '\n' ∨ Printable c

instance (s : List Char) : Decidable (Tame s) :=
  List.decidableBAll _ s

@[simp] theorem tame_nil : Tame [] := List.forall_mem_nil _

@[simp] theorem tame_cons {c : Char} {s : List Char} :
    Tame (c :: s) ↔ (c = '\n' ∨ Printable c) ∧ Tame s :=
  List.forall_mem_cons

@[simp] theorem tame_append {s t : List Char} : Tame (s ++ t) ↔ Tame s ∧ Tame t :=
  List.forall_mem_append

theorem tame_newline (depth : Nat) : Tame (newline depth) := by
  intro c hc
  rcases List.mem_cons.1 hc with rfl | hc
  · exact .inl rfl
  · rw [List.eq_of_mem_replicate hc]
    exact .inr (by decide)

theorem tame_renderText (s : String) : Tame (renderText s) := by
  have hescaped : Tame (s.toList.flatMap escapeChar) := by
    intro c hc
    obtain ⟨d, -, hd⟩ := List.mem_flatMap.1 hc
    exact .inr ((escaped_escapeChar d).printable c hd)
  simp [renderText, hescaped, Printable]

theorem tame_intDigits (i : Int) : Tame (Numeral.intDigits i) := by
  have hdigits : Tame (Numeral.natDigits i.natAbs) := by
    intro c hc
    have hdigit := Numeral.isAsciiDigit_of_mem_natDigits hc
    simp only [Text.isAsciiDigit, Bool.and_eq_true, decide_eq_true_eq] at hdigit
    have hlower : 0x30 ≤ c.toNat := hdigit.1
    have hupper : c.toNat ≤ 0x39 := hdigit.2
    exact .inr ⟨by omega, by omega⟩
  rw [Numeral.intDigits]
  split
  · exact tame_cons.2 ⟨.inr (by decide), hdigits⟩
  · exact hdigits

theorem tame_layOutItems {items : List Json} (h : ∀ item ∈ items, ∀ depth, Tame (layOut depth item))
    (depth : Nat) : Tame (layOutItems depth items) := by
  induction items with
  | nil => exact tame_nil
  | cons item rest ih =>
      obtain ⟨hitem, hrest⟩ := List.forall_mem_cons.1 h
      simp [layOutItems, tame_newline, hitem, ih hrest, Printable]

theorem tame_layOutMembers {members : List (String × Json)}
    (h : ∀ member ∈ members, ∀ depth, Tame (layOut depth member.2)) (depth : Nat) :
    Tame (layOutMembers depth members) := by
  induction members with
  | nil => exact tame_nil
  | cons member rest ih =>
      obtain ⟨hvalue, hrest⟩ := List.forall_mem_cons.1 h
      simp [layOutMembers, tame_newline, tame_renderText, hvalue, ih hrest, Printable]

theorem Plain.tame_layOut {v : Json} (h : Plain v) (depth : Nat) : Tame (layOut depth v) := by
  induction h generalizing depth with
  | null =>
      show Tame "null".toList
      decide
  | bool b =>
      show Tame (if b then "true" else "false").toList
      revert b
      decide
  | int i => exact tame_intDigits i
  | str s => exact tame_renderText s
  | @arr items _ ih =>
      cases items with
      | nil =>
          show Tame ['[', ']']
          decide
      | cons item rest =>
          obtain ⟨hitem, hrest⟩ := List.forall_mem_cons.1 ih
          simp [layOut, tame_newline, hitem, tame_layOutItems hrest, Printable]
  | @obj members _ _ ih =>
      cases members with
      | nil =>
          show Tame ['\x7b', '\x7d']
          decide
      | cons member rest =>
          obtain ⟨hvalue, hrest⟩ := List.forall_mem_cons.1 ih
          simp [layOut, tame_newline, tame_renderText, hvalue, tame_layOutMembers hrest,
            Printable]

end Json

namespace Report

variable {r : Report}

theorem plain_locationDocument (l : Location) : (locationDocument l).Plain := by
  refine .obj (by simp) ?_
  simp [Json.Plain.str, Json.Plain.int]

theorem plain_definitionDocument (d : Definition) : (definitionDocument d).Plain := by
  refine .obj (by simp) ?_
  simp [Json.Plain.str, plain_locationDocument]

theorem plain_skippedDocument (s : Skipped) : (skippedDocument s).Plain := by
  refine .obj (by simp) ?_
  simp [Json.Plain.str]

theorem plain_document (h : (Json.obj r.summary).Plain) : r.document.Plain := by
  have hunused : (Json.arr (r.unused.map definitionDocument)).Plain :=
    .arr (List.forall_mem_map.2 fun d _ => plain_definitionDocument d)
  have hskipped : (Json.arr (r.skipped.map skippedDocument)).Plain :=
    .arr (List.forall_mem_map.2 fun s _ => plain_skippedDocument s)
  refine .obj (by simp) ?_
  simp [Json.Plain.str, h, hunused, hskipped]

theorem json_eq_ok_iff {text : String} : r.json = .ok text ↔ r.document.render = some text := by
  rw [json]
  cases r.document.render <;> simp

/-- A report has no text exactly if one of its integers is too long. -/
theorem json_eq_error_iff {e : Error} : r.json = .error e ↔
    (∃ i ∈ r.document.integers, 10 ^ Numeral.maxDigits ≤ i.natAbs) ∧ e = .tooManyDigits := by
  have hlong : r.document.legible = false ↔
      ∃ i ∈ r.document.integers, 10 ^ Numeral.maxDigits ≤ i.natAbs := by
    rw [← Bool.not_eq_true, Json.legible_iff]
    simp only [not_forall, Nat.not_lt, exists_prop]
  rw [json, Json.render, ← hlong]
  cases r.document.legible <;> simp [eq_comm]

/-- The text of a report is printable, and read back it is the document of the report; a character
beyond the basic plane is written as the escapes of its two halves. -/
theorem parse_json_same (hsummary : (Json.obj r.summary).Plain)
    (hshort : ∀ i ∈ r.document.integers, i.natAbs < 10 ^ Numeral.maxDigits) :
    ∃ text, r.json = .ok text ∧
      (∃ v, Json.parse text = .ok v ∧ v.Same r.document) ∧ Json.Tame text.toList ∧
      ∀ c : Char, 0x10000 ≤ c.toNat → ∃ high low, Json.isHigh high ∧ Json.isLow low ∧
        Json.escapeChar c = Json.unitEscape high ++ Json.unitEscape low ∧
        Json.pairChar high low = c := by
  have hplain := plain_document hsummary
  have htext := Json.render_eq_some_iff.2 ⟨Json.legible_iff.2 hshort, rfl⟩
  refine ⟨_, json_eq_ok_iff.2 htext,
    ⟨r.document.sorted, Json.parse_of_render hplain htext, hplain.same_sorted⟩, ?_, fun c hc => ?_⟩
  · rw [String.toList_ofList]
    exact hplain.sorted.tame_layOut 0
  · exact ⟨Json.highHalf c, Json.lowHalf c, Json.isHigh_highHalf c, Json.isLow_lowHalf c,
      (Json.escaped_escapeChar c).eq_pair hc, Json.pairChar_halves hc⟩

/-- A report with a tab, a line break, a quote, a backslash, a zero character and a face in its
texts. -/
def unruly : Report where
  root := "C:\\x\ty\n"
  generatedAt := "\"now\""
  unused := [⟨.constantDef, "😀", "A::😀", ⟨"\x00.rb", 3, 0, 3, 9⟩, .pub, false⟩]
  skipped := [⟨"é.rb", "\x7f"⟩]
  summary := [("z", .arr [.null, .bool true, .int (-10 ^ 30)]), ("😀", .obj [("", .str "\x1b")])]

theorem parse_json_same_unruly : ((Json.obj unruly.summary).Plain ∧
    ∀ i ∈ unruly.document.integers, i.natAbs < 10 ^ Numeral.maxDigits) ∧
    ∃ text v, unruly.json = .ok text ∧ Json.parse text = .ok v ∧ v.Same unruly.document := by
  have hsummary : (Json.obj unruly.summary).Plain := by
    refine .obj (by decide) ?_
    refine List.forall_mem_cons.2 ⟨.arr ?_, List.forall_mem_singleton.2 (.obj (by decide) ?_)⟩
    · simp [Json.Plain.null, Json.Plain.bool, Json.Plain.int]
    · simp [Json.Plain.str]
  have hshort : ∀ i ∈ unruly.document.integers, i.natAbs < 10 ^ Numeral.maxDigits := by
    intro i hi
    refine Nat.lt_of_lt_of_le ?_ (Nat.pow_le_pow_right (by decide) (by decide :
      31 ≤ Numeral.maxDigits))
    revert i
    decide
  obtain ⟨text, htext, ⟨v, hv, hsame⟩, -⟩ := parse_json_same hsummary hshort
  exact ⟨⟨hsummary, hshort⟩, text, v, htext, hv, hsame⟩

/-- One more digit than can be printed. -/
def overlong : Report where
  root := ""
  generatedAt := ""
  unused := []
  skipped := []
  summary := [("n", .int (10 ^ Numeral.maxDigits : Nat))]

/-- A report of plain values that has no text, so that there is nothing to read back. -/
theorem parse_json_overlong : (Json.obj overlong.summary).Plain ∧
    overlong.json = .error .tooManyDigits ∧
    ¬ ∃ text v, overlong.json = .ok text ∧ Json.parse text = .ok v ∧
      v.Same overlong.document := by
  have hintegers : overlong.document.integers = [((10 ^ Numeral.maxDigits : Nat) : Int)] := rfl
  have herror : overlong.json = .error .tooManyDigits := by
    refine json_eq_error_iff.2 ⟨⟨_, by rw [hintegers]; exact List.mem_cons_self, ?_⟩, rfl⟩
    rw [Int.natAbs_natCast]
  refine ⟨.obj (by decide) (List.forall_mem_singleton.2 (.int _)), herror, ?_⟩
  rintro ⟨text, v, htext, -⟩
  rw [herror] at htext
  cases htext

end Report
end Fallow
