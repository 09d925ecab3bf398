import Fallow.Proofs.Events
import Fallow.Proofs.Keywords
import Fallow.Proofs.References

/-!
# Names that plugins supply

Which names a plugin adds to a send, said on the arguments themselves: the name in a reflective
call, the last segment of a constant that is looked up by name, the old name of an alias, the
symbols of a callback declaration and its conditions. The synthetic references of a run are these
names at the places of the sends, and no others.
-/

namespace Fallow

namespace Plugin

/-- The pieces of a text between its pairs of colons, the pairs being taken from the left. -/
structure Splits (pieces : List (List Char)) (s : List Char) : Prop where
  ne_nil : pieces ≠ []
  joined : [':', ':'].intercalate pieces = s
  plain : ∀ piece ∈ pieces, ¬ [':', ':'] <:+: piece
  leftmost : ∀ piece ∈ pieces.dropLast, piece.getLast? ≠ some ':'

theorem segments_cons {c : Char} {rest piece : List Char} {pieces : List (List Char)}
    (h : ¬ [':', ':'] <+: c :: rest) (hrest : segments rest = piece :: pieces) :
    segments (c :: rest) = (c :: piece) :: pieces := by
  rw [segments, hrest]
  rintro rest' rfl rfl
  exact h ⟨rest', rfl⟩

theorem segments_of_plain {piece : List Char} (h : ¬ [':', ':'] <:+: piece) :
    segments piece = [piece] := by
  induction piece with
  | nil => rfl
  | cons c rest ih =>
      rw [List.infix_cons_iff, not_or] at h
      exact segments_cons h.1 (ih h.2)

/-- A piece that neither holds a pair of colons nor ends in a colon is cut off by the next pair. -/
theorem segments_append {piece : List Char} (h : ¬ [':', ':'] <:+: piece)
    (hlast : piece.getLast? ≠ some ':') (rest : List Char) :
    segments (piece ++ ':' :: ':' :: rest) = piece :: segments rest := by
  induction piece with
  | nil => rfl
  | cons c piece ih =>
      rw [List.infix_cons_iff, not_or] at h
      cases piece with
      | nil =>
          have hc : c ≠ ':' := by simpa using hlast
          apply segments_cons _ (ih h.2 (by simp))
          rintro ⟨tail, htail⟩
          exact hc (List.cons.inj htail).1.symm
      | cons d piece =>
          apply segments_cons _ (ih h.2 (by simpa [List.getLast?_cons] using hlast))
          rintro ⟨tail, htail⟩
          obtain ⟨hc, htail⟩ := List.cons.inj htail
          obtain ⟨hd, _⟩ := List.cons.inj htail
          exact h.1 ⟨piece, by rw [← hc, ← hd]; rfl⟩

theorem Splits.eq_segments {pieces : List (List Char)} {s : List Char} (h : Splits pieces s) :
    pieces = segments s := by
  induction pieces generalizing s with
  | nil => exact absurd rfl h.ne_nil
  | cons piece pieces ih =>
      have hplain := h.plain piece List.mem_cons_self
      cases pieces with
      | nil => rw [← h.joined, List.intercalate_singleton, segments_of_plain hplain]
      | cons next pieces =>
          have hlast : piece.getLast? ≠ some ':' := h.leftmost piece (by simp)
          have hrest : Splits (next :: pieces) ([':', ':'].intercalate (next :: pieces)) :=
            ⟨by simp, rfl, fun p hp => h.plain p (List.mem_cons_of_mem _ hp),
              fun p hp => h.leftmost p (List.mem_cons_of_mem _ hp)⟩
          have hsplit : piece ++ ':' :: ':' :: [':', ':'].intercalate (next :: pieces) = s := by
            rw [← h.joined, List.intercalate_cons_cons]
            simp
          rw [← hsplit, segments_append hplain hlast, ← ih hrest]

theorem Splits.nil_cons {pieces : List (List Char)} {rest : List Char} (h : Splits pieces rest) :
    Splits ([] :: pieces) (':' :: ':' :: rest) where
  ne_nil := by simp
  joined := by
    rw [List.intercalate_cons_of_ne_nil h.ne_nil, h.joined]
    rfl
  plain := by
    intro piece hpiece
    rcases List.mem_cons.1 hpiece with rfl | hpiece
    · simp
    · exact h.plain piece hpiece
  leftmost := by
    intro piece hpiece
    rw [List.dropLast_cons_of_ne_nil h.ne_nil] at hpiece
    rcases List.mem_cons.1 hpiece with rfl | hpiece
    · simp
    · exact h.leftmost piece hpiece

section Cons

variable {c : Char} {rest piece : List Char} {pieces : List (List Char)}
  (h : Splits (piece :: pieces) rest)
include h

theorem Splits.joined_cons : [':', ':'].intercalate ((c :: piece) :: pieces) = c :: rest := by
  rw [← h.joined]
  cases pieces with
  | nil => simp
  | cons next pieces => simp [List.intercalate_cons_cons]

theorem Splits.starts : piece <+: rest := by
  rw [← h.joined]
  cases pieces with
  | nil => simp
  | cons next pieces =>
      rw [List.intercalate_cons_cons, List.append_assoc]
      exact List.prefix_append _ _

/-- A character in front goes to the first piece unless it begins a pair of colons. -/
theorem Splits.cons (hpair : ¬ [':', ':'] <+: c :: rest) :
    Splits ((c :: piece) :: pieces) (c :: rest) where
  ne_nil := by simp
  joined := h.joined_cons
  plain := by
    intro p hp
    rcases List.mem_cons.1 hp with rfl | hp
    · have hstart : ¬ [':', ':'] <+: c :: piece := fun hpre =>
        hpair (hpre.trans (List.prefix_cons_inj c |>.2 h.starts))
      rw [List.infix_cons_iff, not_or]
      exact ⟨hstart, h.plain piece List.mem_cons_self⟩
    · exact h.plain p (List.mem_cons_of_mem _ hp)
  leftmost := by
    intro p hp
    cases pieces with
    | nil => simp at hp
    | cons next pieces =>
        rcases List.mem_cons.1 hp with rfl | hp
        · cases piece with
          | nil =>
              -- the pair of colons that follows would have been taken one place earlier
              intro hc
              obtain rfl : c = ':' := by simpa using hc
              rw [← h.joined] at hpair
              exact hpair ⟨_, rfl⟩
          | cons d piece =>
              have hlast := h.leftmost (d :: piece) (by simp)
              simpa [List.getLast?_cons] using hlast
        · exact h.leftmost p (List.mem_cons_of_mem _ hp)

end Cons

theorem splits_segments (s : List Char) : Splits (segments s) s := by
  induction s using segments.induct with
  | case1 => exact ⟨by simp [segments], rfl, by simp [segments], by simp [segments]⟩
  | case2 rest ih => exact ih.nil_cons
  | case3 c rest _ hnil ih => exact absurd hnil ih.ne_nil
  | case4 c rest hnot piece pieces hrest ih =>
      have hpair : ¬ [':', ':'] <+: c :: rest := by
        rintro ⟨tail, htail⟩
        obtain ⟨hc, htail⟩ := List.cons.inj htail
        exact hnot tail hc.symm htail.symm
      rw [hrest] at ih
      rw [segments_cons hpair hrest]
      exact ih.cons hpair

/-- The text after the last pair of colons. -/
def IsLastSegment (s name : String) : Prop :=
  ∃ pieces, Splits pieces s.toList ∧ pieces.getLast? = some name.toList

theorem lastSegment_eq_iff {s name : String} : lastSegment s = name ↔ IsLastSegment s name := by
  have hne := (splits_segments s.toList).ne_nil
  have hlast : (segments s.toList).getLast? = some (lastSegment s).toList := by
    rw [lastSegment, String.toList_ofList, List.getLastD_eq_getLast?]
    cases h : (segments s.toList).getLast? with
    | none => exact absurd (List.getLast?_eq_none_iff.1 h) hne
    | some piece => rfl
  constructor
  · rintro rfl
    exact ⟨segments s.toList, splits_segments _, hlast⟩
  · rintro ⟨pieces, hsplits, hname⟩
    rw [hsplits.eq_segments, hlast] at hname
    exact String.toList_inj.1 (Option.some.inj hname)

/-- The declarations whose symbols name methods, for the plugins that know any. -/
def callbacks : Plugin → List String
  | actionPack => actionCallbacks
  | activeRecord => recordCallbacks
  | _ => []

/-- A plugin supplies a name for a send. -/
inductive Supplies : Plugin → Send → String → Prop
  | method {s : Send} {a : Argument} (hs : s.name ∈ methodReflections)
    (ha : s.args.head? = some a) (hk : a.kind = .symbol ∨ a.kind = .string) :
    Supplies .ruby s a.value
  | constant {s : Send} {a : Argument} {name : String} (hs : s.name ∈ constantReflections)
    (ha : s.args.head? = some a) (hk : a.kind = .symbol ∨ a.kind = .string)
    (hname : IsLastSegment a.value name) : Supplies .ruby s name
  | aliased {s : Send} {a : Argument} (hs : s.name = "alias_method")
    (ha : s.args.getLast? = some a) (hk : a.kind = .symbol ∨ a.kind = .string) :
    Supplies .ruby s a.value
  | symbol {p : Plugin} {s : Send} {a : Argument} (hr : s.receiver = none)
    (hs : s.name ∈ p.callbacks) (hv : ¬ "validates".toList <+: s.name.toList)
    (ha : a ∈ s.args) (hk : a.kind = .symbol) : Supplies p s a.value
  | condition {p : Plugin} {s : Send} {key : String} {a : Argument} (hr : s.receiver = none)
    (hs : s.name ∈ p.callbacks) (hkey : key = "if" ∨ key = "unless") (ha : s.LastPair key a)
    (hk : a.kind = .symbol) : Supplies p s a.value

theorem nameOf?_eq_some_iff {a : Argument} {name : String} : nameOf? a = some name ↔
    (a.kind = .symbol ∨ a.kind = .string) ∧ a.value = name := by
  rw [nameOf?, Option.ite_none_right_eq_some, Option.some.injEq]
  simp [Argument.isName]

theorem mem_nameOf? {o : Option Argument} {name : String} : name ∈ (o.bind nameOf?).toList ↔
    ∃ a, o = some a ∧ (a.kind = .symbol ∨ a.kind = .string) ∧ a.value = name := by
  rw [Option.mem_toList, Option.bind_eq_some_iff]
  simp only [nameOf?_eq_some_iff]

theorem mem_conditionNames {s : Send} {name : String} : name ∈ conditionNames s ↔
    ∃ key a, (key = "if" ∨ key = "unless") ∧ s.LastPair key a ∧ a.kind = .symbol ∧
      a.value = name := by
  have hkeys : ∀ key, key ∈ ["if", "unless"] ↔ key = "if" ∨ key = "unless" := by simp
  rw [conditionNames, List.mem_filterMap]
  constructor
  · rintro ⟨key, hkey, hvalue⟩
    split at hvalue
    · rename_i a ha
      split at hvalue
      · rename_i hk
        exact ⟨key, a, (hkeys key).1 hkey, Send.keyword?_eq_some_iff.1 ha, of_decide_eq_true hk,
          Option.some.inj hvalue⟩
      · cases hvalue
    · cases hvalue
  · rintro ⟨key, a, hkey, ha, hk, rfl⟩
    refine ⟨key, (hkeys key).2 hkey, ?_⟩
    rw [Send.keyword?_eq_some_iff.2 ha]
    exact if_pos (decide_eq_true hk)

theorem mem_callbackNames {s : Send} {name : String} : name ∈ callbackNames s ↔
    (∃ a ∈ s.args, a.kind = .symbol ∧ a.value = name) ∨ name ∈ conditionNames s := by
  simp [callbackNames, Argument.isSymbol, and_assoc]

theorem not_validates_of_mem_actionCallbacks :
    ∀ name ∈ actionCallbacks, ¬ "validates".toList <+: name.toList := by
  decide

/-- The three kinds of reflective calls have no name in common. -/
theorem not_mem_of_mem_methodReflections :
    ∀ name ∈ methodReflections, name ∉ constantReflections ∧ name ≠ "alias_method" := by
  decide

theorem ne_of_mem_constantReflections : ∀ name ∈ constantReflections, name ≠ "alias_method" := by
  decide

theorem mem_referred_ruby {s : Send} {name : String} :
    name ∈ referred .ruby s ↔ Supplies .ruby s name := by
  simp only [referred, List.contains_iff_mem]
  constructor
  · intro h
    split at h
    · obtain ⟨a, ha, hk, rfl⟩ := mem_nameOf?.1 h
      exact .method ‹_› ha hk
    · split at h
      · rw [Option.mem_toList, Option.map_eq_some_iff] at h
        obtain ⟨whole, hwhole, hname⟩ := h
        obtain ⟨a, ha, hk, rfl⟩ := mem_nameOf?.1 (Option.mem_toList.2 hwhole)
        exact .constant ‹_› ha hk (lastSegment_eq_iff.1 hname)
      · split at h
        · obtain ⟨a, ha, hk, rfl⟩ := mem_nameOf?.1 h
          exact .aliased ‹_› ha hk
        · simp at h
  · intro h
    cases h with
    | @method _ a hs ha hk =>
        rw [if_pos hs]
        exact mem_nameOf?.2 ⟨a, ha, hk, rfl⟩
    | @constant _ a _ hs ha hk hname =>
        have hm : s.name ∉ methodReflections := fun hm =>
          (not_mem_of_mem_methodReflections _ hm).1 hs
        rw [if_neg hm, if_pos hs, Option.mem_toList, Option.map_eq_some_iff]
        have hwhole := mem_nameOf?.2 ⟨a, ha, hk, rfl⟩
        exact ⟨a.value, Option.mem_toList.1 hwhole, lastSegment_eq_iff.2 hname⟩
    | @aliased _ a hs ha hk =>
        have hm : s.name ∉ methodReflections := fun hm =>
          (not_mem_of_mem_methodReflections _ hm).2 hs
        have hc : s.name ∉ constantReflections := fun hc => ne_of_mem_constantReflections _ hc hs
        rw [if_neg hm, if_neg hc, if_pos hs]
        exact mem_nameOf?.2 ⟨a, ha, hk, rfl⟩
    | symbol hr hs hv ha hk => cases hs
    | condition hr hs hkey ha hk => cases hs

/-- Apart from reflection a plugin supplies the names of callback declarations only. -/
theorem supplies_iff_of_ne_ruby {p : Plugin} (hp : p ≠ .ruby) {s : Send} {name : String} :
    p.Supplies s name ↔ (s.receiver = none ∧ s.name ∈ p.callbacks) ∧
      ((¬ "validates".toList <+: s.name.toList ∧ ∃ a ∈ s.args, a.kind = .symbol ∧ a.value = name) ∨
        name ∈ conditionNames s) := by
  rw [mem_conditionNames]
  constructor
  · intro h
    cases h with
    | method | constant | aliased => exact absurd rfl hp
    | symbol hr hs hv ha hk => exact ⟨⟨hr, hs⟩, .inl ⟨hv, _, ha, hk, rfl⟩⟩
    | condition hr hs hkey ha hk => exact ⟨⟨hr, hs⟩, .inr ⟨_, _, hkey, ha, hk, rfl⟩⟩
  · rintro ⟨⟨hr, hs⟩, ⟨hv, a, ha, hk, rfl⟩ | ⟨key, a, hkey, ha, hk, rfl⟩⟩
    · exact .symbol hr hs hv ha hk
    · exact .condition hr hs hkey ha hk

theorem mem_of_declares_iff {s : Send} {names l : List String} {name : String} :
    name ∈ (if s.hasReceiver || !names.contains s.name then [] else l) ↔
      (s.receiver = none ∧ s.name ∈ names) ∧ name ∈ l := by
  by_cases hdeclares : s.receiver = none ∧ s.name ∈ names
  · have hguard : (s.hasReceiver || !names.contains s.name) = false := by
      simpa [Send.hasReceiver] using hdeclares
    rw [hguard, if_neg (by simp), and_iff_right hdeclares]
  · have hguard : (s.hasReceiver || !names.contains s.name) = true := by
      by_contra h
      rw [Bool.not_eq_true] at h
      exact hdeclares (by simpa [Send.hasReceiver] using h)
    rw [hguard, if_pos rfl]
    exact iff_of_false List.not_mem_nil fun h => hdeclares h.1

theorem mem_referred_actionPack {s : Send} {name : String} :
    name ∈ referred .actionPack s ↔ Supplies .actionPack s name := by
  rw [referred, mem_of_declares_iff, supplies_iff_of_ne_ruby (by simp)]
  apply and_congr_right
  intro hdeclares
  have hv := not_validates_of_mem_actionCallbacks _ hdeclares.2
  rw [mem_callbackNames, and_iff_right hv]

theorem mem_referred_activeRecord {s : Send} {name : String} :
    name ∈ referred .activeRecord s ↔ Supplies .activeRecord s name := by
  rw [referred, mem_of_declares_iff, supplies_iff_of_ne_ruby (by simp)]
  apply and_congr_right
  intro _
  have hstarts : startsWith "validates" s.name = true ↔ "validates".toList <+: s.name.toList :=
    List.isPrefixOf_iff_prefix
  by_cases hv : "validates".toList <+: s.name.toList
  · simp only [if_pos (hstarts.2 hv), hv, not_true_eq_false, false_and, false_or]
  · rw [if_neg (mt hstarts.1 hv), mem_callbackNames, and_iff_right hv]

theorem mem_referred_iff {p : Plugin} {s : Send} {name : String} :
    name ∈ p.referred s ↔ p.Supplies s name := by
  cases p with
  | ruby => exact mem_referred_ruby
  | actionPack => exact mem_referred_actionPack
  | activeRecord => exact mem_referred_activeRecord
  | minitest | configured => simp [supplies_iff_of_ne_ruby, referred, callbacks]

end Plugin

namespace Walk

/-- The synthetic references of a run are the names that some plugin of the chain supplies for some
announced send, each at the place of the send. -/
theorem synthetic_mem_run_iff (src : Source) (plugins : List Plugin) (root : Syntax.Node)
    (name : String) (location : Location) :
    ⟨name, location, .synthetic⟩ ∈ (run src plugins root).index.referenceListing ↔
      ∃ s p, .sent s ∈ (run src plugins root).events ∧ p ∈ plugins ∧ p.Supplies s name ∧
        s.location = location := by
  rw [mem_referenceListing_run]
  constructor
  · rintro ⟨d, hd, hr⟩
    cases d with
    | send s =>
        rcases List.mem_cons.1 hr with hown | hr
        · cases hown
        · obtain ⟨name', hname, heq⟩ := List.mem_map.1 hr
          obtain ⟨rfl, rfl, _⟩ := Reference.mk.inj heq
          obtain ⟨p, hp, hname⟩ := List.mem_flatMap.1 hname
          exact ⟨s, p, sent_mem_events_run.2 hd, hp, Plugin.mem_referred_iff.1 hname, rfl⟩
    | refer name' location' => cases List.mem_singleton.1 hr
    | define | remark | close => cases hr
  · rintro ⟨s, p, hs, hp, hname, rfl⟩
    refine ⟨.send s, sent_mem_events_run.1 hs, List.mem_cons_of_mem _ ?_⟩
    exact List.mem_map_of_mem (List.mem_flatMap.2 ⟨p, hp, Plugin.mem_referred_iff.2 hname⟩)

end Walk
end Fallow
