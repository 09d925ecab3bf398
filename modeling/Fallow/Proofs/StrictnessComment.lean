import Fallow.Project.Strictness
import Fallow.Proofs.LineStarts
import Fallow.Proofs.Splitting

/-!
# Strictness comments

The strictness of a file is the word of the first comment that a line start opens. Line ends are
blanks, so that a comment may spread over lines: a word of a later line counts, and a comment
whose word would not end its line may still be read as one without a word. If the first comment
stays in its line, the first line that is a comment decides.
-/

namespace Fallow

namespace Strictness

open Pattern (Cursor Fresh)
open Text (lineTails firstLine isBlank isWord isWord_of_isBlank)

def Blank (chars : List Char) : Prop :=
  ∀ c ∈ chars, isBlank c = true

/-- A comment that gives a word. Its blanks may be line ends. -/
def IsComment (chars word : List Char) : Prop :=
  (∀ c ∈ word, isWord c = true) ∧ ∃ gap lead trail, Blank gap ∧ Blank lead ∧ Blank trail ∧
    chars = "#".toList ++ gap ++ "typed:".toList ++ lead ++ word ++ trail

/-- A piece of text starts with a comment that ends where a line ends. -/
def Opens (s word : List Char) : Prop :=
  ∃ chars rest, IsComment chars word ∧ s = chars ++ rest ∧ (rest = [] ∨ rest.head? = some '\n')

/-- The word of a comment, where another comment at the same place has none that is longer. -/
def Longest (s word : List Char) : Prop :=
  Opens s word ∧ ∀ other, Opens s other → other.length ≤ word.length

theorem has_space (c : Char) : Pattern.Chars.has { items := [.space false] } c = isBlank c := by
  simp [Pattern.Chars.has, Pattern.Item.has]

theorem has_word (c : Char) : Pattern.Chars.has { items := [.word false] } c = isWord c := by
  simp [Pattern.Chars.has, Pattern.Item.has]

section Comments

variable {c d e : Cursor} {s word other chars : List Char}

theorem comment_eq : comment = .inOrder (.anchor .lineStart :: (Pattern.written "#" ++
    blanks :: (Pattern.written "typed:" ++
      [blanks, .group 1 (.inOrder [Strictness.word]), blanks, .anchor .lineEnd]))) := by
  simp [comment]

theorem mem_ends_blanks : d ∈ blanks.ends c ↔ ∃ chars, Blank chars ∧ c.Passes chars d := by
  simp [blanks, Pattern.mem_ends_run, has_space, Blank]

theorem head?_ends_blanks (hchars : Blank chars) (hd : c.Passes chars d)
    (hstop : ∀ x, d.rest.head? = some x → isBlank x = false) :
    (blanks.ends c).head? = some d := by
  refine Pattern.head?_ends_run (Nat.zero_le _) (fun x hx => ?_) hd
    (Pattern.ends_chars_eq_nil_iff.2 fun x hx => ?_)
  · rw [has_space, hchars x hx]
  · rw [has_space, hstop x hx]

theorem mem_ends_closing : e ∈ Pattern.ends (.inOrder [blanks, .anchor .lineEnd]) c ↔
    ∃ trail, Blank trail ∧ c.Passes trail e ∧ (e.rest = [] ∨ e.rest.head? = some '\n') := by
  rw [Pattern.mem_ends_inOrder_cons]
  simp only [mem_ends_blanks, Pattern.mem_ends_inOrder_cons, Pattern.mem_ends_inOrder_nil,
    Pattern.mem_ends_anchor]
  constructor
  · rintro ⟨d, ⟨trail, htrail, hd⟩, _, ⟨hend, rfl⟩, rfl⟩
    exact ⟨trail, htrail, hd, by simpa [Cursor.atAnchor] using hend⟩
  · rintro ⟨trail, htrail, he, hend⟩
    exact ⟨e, ⟨trail, htrail, he⟩, e, ⟨by simpa [Cursor.atAnchor] using hend, rfl⟩, rfl⟩

theorem of_mem_ends_comment (h : e ∈ comment.ends c) :
    Fresh c.passed ∧ ∃ word, Opens c.rest word ∧ e.groups.lookup 1 = some word := by
  rw [comment_eq, Pattern.mem_ends_inOrder_cons] at h
  obtain ⟨c', hanchor, h⟩ := h
  obtain ⟨hfresh, rfl⟩ := Pattern.mem_ends_anchor.1 hanchor
  obtain ⟨c₁, h₁, h⟩ := Pattern.mem_ends_written.1 h
  obtain ⟨c₂, hblanks, h⟩ := Pattern.mem_ends_inOrder_cons.1 h
  obtain ⟨gap, hgap, h₂⟩ := mem_ends_blanks.1 hblanks
  obtain ⟨c₃, h₃, h⟩ := Pattern.mem_ends_written.1 h
  obtain ⟨c₄, hblanks, h⟩ := Pattern.mem_ends_inOrder_cons.1 h
  obtain ⟨lead, hlead, h₄⟩ := mem_ends_blanks.1 hblanks
  obtain ⟨c₅, hgroup, h⟩ := Pattern.mem_ends_inOrder_cons.1 h
  obtain ⟨word, d, -, hword, h₅, rfl⟩ := Pattern.mem_ends_group_run.1 hgroup
  obtain ⟨trail, htrail, h₆, hend⟩ := mem_ends_closing.1 h
  refine ⟨(Pattern.atAnchor_lineStart _).1 hfresh, word, ⟨_, e.rest, ⟨?_, gap, lead, trail, hgap,
    hlead, htrail, rfl⟩, ?_, hend⟩, ?_⟩
  · simpa only [has_word] using hword
  · have hrest : d.rest = trail ++ e.rest := h₆.rest
    rw [h₁.rest, h₂.rest, h₃.rest, h₄.rest, h₅.rest, hrest]
    simp only [List.append_assoc]
  · rw [h₆.groups]
    rfl

/-- What precedes the second blanks is passed in one way only. -/
theorem head?_ends_comment (hfresh : Fresh c.passed) {gap : List Char} (hgap : Blank gap)
    (hd : c.Passes ("#".toList ++ gap ++ "typed:".toList) d)
    (he : (Pattern.ends (.inOrder [blanks, .group 1 (.inOrder [Strictness.word]), blanks,
      .anchor .lineEnd]) d).head? = some e) :
    (comment.ends c).head? = some e := by
  obtain ⟨c₂, hc₂, h₃⟩ := hd.split
  obtain ⟨c₁, h₁, h₂⟩ := hc₂.split
  have hanchor : (Pattern.ends (.anchor .lineStart) c).head? = some c := by
    rw [Pattern.ends_anchor, if_pos ((Pattern.atAnchor_lineStart c).2 hfresh)]
    rfl
  have hstop : ∀ x, c₂.rest.head? = some x → isBlank x = false := by
    rw [h₃.rest]
    rintro x ⟨⟩
    rfl
  rw [comment_eq]
  exact Pattern.head?_ends_seq hanchor (Pattern.head?_ends_written h₁
    (Pattern.head?_ends_seq (head?_ends_blanks hgap h₂ hstop) (Pattern.head?_ends_written h₃ he)))

theorem isBlank_of_head? {trail rest : List Char} (htrail : Blank trail)
    (hend : rest = [] ∨ rest.head? = some '\n') {x : Char} (hx : (trail ++ rest).head? = some x) :
    isBlank x = true := by
  cases trail with
  | nil =>
      rcases hend with rfl | hend
      · cases hx
      · cases hend.symm.trans hx
        rfl
  | cons y trail =>
      cases hx
      exact htrail _ List.mem_cons_self

/-- A word is taken as a whole, since no word goes on where it ends. -/
theorem head?_ends_word (hword : ∀ x ∈ word, isWord x = true) {trail rest : List Char}
    (htrail : Blank trail) (hend : rest = [] ∨ rest.head? = some '\n')
    (hrest : c.rest = word ++ (trail ++ rest)) :
    ∃ e, (Pattern.ends (.inOrder [.group 1 (.inOrder [Strictness.word]), blanks,
      .anchor .lineEnd]) c).head? = some e ∧ e.groups.lookup 1 = some word := by
  obtain ⟨d, hd, hrest₁⟩ := Cursor.exists_passes hrest
  obtain ⟨e, he, rfl⟩ := Cursor.exists_passes
    (c := { d with groups := (1, word) :: d.groups.filter (·.1 != 1) }) hrest₁
  have hstop : Pattern.ends (.chars { items := [.word false] }) d = [] := by
    refine Pattern.ends_chars_eq_nil_iff.2 fun x hx => ?_
    rw [has_word]
    apply isWord_of_isBlank
    rw [hrest₁] at hx
    exact isBlank_of_head? htrail hend hx
  have hgroup : (Pattern.ends (.group 1 (.inOrder [Strictness.word])) c).head? = some _ :=
    Pattern.head?_ends_group_run (Nat.zero_le _)
      (fun x hx => (has_word x).trans (hword x hx)) hd hstop
  have hclosing := mem_ends_closing.2 ⟨trail, htrail, he, hend⟩
  obtain ⟨f, hf⟩ : ∃ f, _ = some f := ⟨_, List.head?_eq_some_head (List.ne_nil_of_mem hclosing)⟩
  refine ⟨f, Pattern.head?_ends_seq hgroup hf, ?_⟩
  obtain ⟨_, -, hpasses, -⟩ := mem_ends_closing.1 (List.mem_of_mem_head? hf)
  rw [hpasses.groups]
  rfl

/-- A comment is found where it opens, and a word that it gives comes first. -/
theorem exists_head?_ends_comment (hfresh : Fresh c.passed) (h : Opens c.rest word) :
    ∃ e, (comment.ends c).head? = some e ∧ (word ≠ [] → e.groups.lookup 1 = some word) := by
  obtain ⟨_, rest, ⟨hword, gap, lead, trail, hgap, hlead, htrail, rfl⟩, hrest, hend⟩ := h
  have hrest : c.rest = ("#".toList ++ gap ++ "typed:".toList) ++
      (lead ++ (word ++ (trail ++ rest))) := by
    rw [hrest]
    simp only [List.append_assoc]
  obtain ⟨d, hd, hrest₁⟩ := Cursor.exists_passes hrest
  obtain ⟨c₄, h₄, hrest₂⟩ := Cursor.exists_passes hrest₁
  obtain ⟨e, he, hlookup⟩ := head?_ends_word hword htrail hend hrest₂
  cases word with
  | nil =>
    -- A longer word may follow the blanks, so only some end is known to exist.
    have hmem := Pattern.mem_ends_inOrder_cons.2 ⟨c₄, mem_ends_blanks.2 ⟨lead, hlead, h₄⟩,
      List.mem_of_mem_head? he⟩
    exact ⟨_, head?_ends_comment hfresh hgap hd
      (List.head?_eq_some_head (List.ne_nil_of_mem hmem)), fun h => absurd rfl h⟩
  | cons y word =>
    have hstop : ∀ x, c₄.rest.head? = some x → isBlank x = false := by
      rw [hrest₂]
      rintro x ⟨⟩
      refine Bool.eq_false_iff.2 fun hblank => ?_
      have hnot := isWord_of_isBlank hblank
      rw [hword y List.mem_cons_self] at hnot
      cases hnot
    exact ⟨e, head?_ends_comment hfresh hgap hd
      (Pattern.head?_ends_seq (head?_ends_blanks hlead h₄ hstop) he), fun _ => hlookup⟩

theorem match?_isSome_iff :
    (comment.match? c).isSome ↔ Fresh c.passed ∧ ∃ word, Opens c.rest word := by
  rw [Pattern.match?, Option.isSome_map]
  constructor
  · intro h
    obtain ⟨e, he⟩ := Option.isSome_iff_exists.1 h
    obtain ⟨hfresh, word, hopens, -⟩ := of_mem_ends_comment (List.mem_of_mem_head? he)
    exact ⟨hfresh, word, hopens⟩
  · rintro ⟨hfresh, word, hopens⟩
    obtain ⟨e, he, -⟩ := exists_head?_ends_comment hfresh hopens
    rw [he]
    rfl

/-- A match gives the longest word that a comment at its place can give. -/
theorem longest_of_match? {m : Pattern.Match} (h : comment.match? c = some m) :
    ∃ word, Longest c.rest word ∧ m.group? 1 = some word := by
  rw [Pattern.match?, Option.map_eq_some_iff] at h
  obtain ⟨e, he, rfl⟩ := h
  obtain ⟨hfresh, word, hopens, hlookup⟩ := of_mem_ends_comment (List.mem_of_mem_head? he)
  refine ⟨word, ⟨hopens, fun other hother => ?_⟩, hlookup⟩
  -- A word with characters would have come first, so that the match would give it.
  obtain ⟨f, hf, hfirst⟩ := exists_head?_ends_comment hfresh hother
  cases hf.symm.trans he
  by_cases hne : other = []
  · simp [hne]
  · cases hlookup.symm.trans (hfirst hne)
    exact Nat.le_refl _

/-- Comments at one place that give words with characters give the same word. -/
theorem Opens.eq (h : Opens s word) (h' : Opens s other) (hne : word ≠ []) (hne' : other ≠ []) :
    word = other := by
  obtain ⟨e, he, hfirst⟩ := exists_head?_ends_comment (c := ⟨[], s, []⟩) (.inl rfl) h
  obtain ⟨f, hf, hfirst'⟩ := exists_head?_ends_comment (c := ⟨[], s, []⟩) (.inl rfl) h'
  cases hf.symm.trans he
  exact Option.some.inj ((hfirst hne).symm.trans (hfirst' hne'))

theorem Opens.longest (h : Opens s word) (hne : word ≠ []) : Longest s word := by
  refine ⟨h, fun other hother => ?_⟩
  by_cases hempty : other = []
  · simp [hempty]
  · exact Nat.le_of_eq (congrArg _ (hother.eq h hempty hne))

theorem Longest.eq (h : Longest s word) (h' : Longest s other) : word = other := by
  have hlength : word.length = other.length := Nat.le_antisymm (h'.2 word h.1) (h.2 other h'.1)
  by_cases hne : word = []
  · subst hne
    exact (List.length_eq_zero_iff.1 hlength.symm).symm
  · have hne' : other ≠ [] := by
      rintro rfl
      exact hne (List.length_eq_zero_iff.1 hlength)
    exact h.1.eq h'.1 hne hne'

theorem Opens.exists_longest (h : Opens s word) : ∃ longest, Longest s longest := by
  have hsome : (comment.match? ⟨[], s, []⟩).isSome := match?_isSome_iff.2 ⟨.inl rfl, word, h⟩
  obtain ⟨m, hm⟩ := Option.isSome_iff_exists.1 hsome
  obtain ⟨longest, hlongest, -⟩ := longest_of_match? hm
  exact ⟨longest, hlongest⟩

theorem ofText?_eq_some_iff {contents given : String} : ofText? contents = some given ↔
    ∃ t, First (fun t => ∃ word, Opens t word) (lineTails contents.toList) t ∧
      Longest t given.toList := by
  have hfirst : ∀ c, First (fun c => (comment.match? c).isSome)
      (Pattern.starts [] contents.toList) c ↔
      First (fun c => Fresh c.passed ∧ ∃ word, Opens c.rest word)
        (Pattern.starts [] contents.toList) c :=
    fun c => first_iff_of_imp (fun c => match?_isSome_iff.1) fun c hc => match?_isSome_iff.2 hc.prop
  simp only [ofText?, Pattern.search?, Option.map_eq_some_iff, Option.bind_eq_some_iff,
    findSome?_eq_some_iff_first, hfirst, Pattern.first_lineTails]
  constructor
  · rintro ⟨word, ⟨m, ⟨c, hc, hm⟩, hgroup⟩, rfl⟩
    obtain ⟨longest, hlongest, hgroup'⟩ := longest_of_match? hm
    cases hgroup.symm.trans hgroup'
    exact ⟨c.rest, ⟨c, hc, rfl⟩, by rwa [String.toList_ofList]⟩
  · rintro ⟨_, ⟨c, hc, rfl⟩, hgiven⟩
    obtain ⟨m, hm⟩ := Option.isSome_iff_exists.1 (match?_isSome_iff.2 hc.prop)
    obtain ⟨longest, hlongest, hgroup⟩ := longest_of_match? hm
    cases hlongest.eq hgiven
    exact ⟨given.toList, ⟨m, ⟨c, hc, hm⟩, hgroup⟩, String.ofList_toList⟩

theorem ofText?_eq_none_iff {contents : String} : ofText? contents = none ↔
    ∀ t ∈ lineTails contents.toList, ∀ word, ¬ Opens t word := by
  constructor
  · intro hnone t ht word hopens
    have hsome : ∃ t ∈ lineTails contents.toList, ∃ word, Opens t word := ⟨t, ht, word, hopens⟩
    obtain ⟨first, hfirst⟩ := exists_first_iff.2 hsome
    obtain ⟨given, hgiven⟩ := hfirst.prop
    obtain ⟨longest, hlongest⟩ := hgiven.exists_longest
    have hsome : ofText? contents = some (String.ofList longest) :=
      ofText?_eq_some_iff.2 ⟨first, hfirst, by rwa [String.toList_ofList]⟩
    cases hnone.symm.trans hsome
  · intro hnever
    refine Option.eq_none_iff_forall_ne_some.2 fun given hgiven => ?_
    obtain ⟨t, hfirst, hopens, -⟩ := ofText?_eq_some_iff.1 hgiven
    exact hnever t hfirst.mem _ hopens

/-- A comment gives one word. -/
theorem IsComment.eq (h : IsComment chars word) (h' : IsComment chars other) : word = other := by
  obtain ⟨hword, gap, lead, trail, hgap, hlead, htrail, rfl⟩ := h
  obtain ⟨hother, gap', lead', trail', hgap', hlead', htrail', heq⟩ := h'
  simp only [List.append_assoc] at heq
  have hstop : ∀ rest x, ("typed:".toList ++ rest).head? = some x → isBlank x = false := by
    rintro rest x ⟨⟩
    rfl
  obtain ⟨-, hrest⟩ := Text.append_inj_of_stop hgap hgap' (hstop _) (hstop _)
    (List.append_cancel_left heq)
  -- The words are what is left when the blanks around them are taken out.
  have hnone : ∀ blanks, Blank blanks → blanks.filter isWord = [] := fun blanks hblanks =>
    List.filter_eq_nil_iff.2 fun x hx => by simp [isWord_of_isBlank (hblanks x hx)]
  have hwords := congrArg (List.filter isWord) (List.append_cancel_left hrest)
  simpa [List.filter_eq_self.2 hword, List.filter_eq_self.2 hother, hnone _ hlead, hnone _ htrail,
    hnone _ hlead', hnone _ htrail'] using hwords

theorem IsComment.opens (h : IsComment (firstLine s) word) : Opens s word := by
  refine ⟨_, s.dropWhile (· != '\n'), h, List.takeWhile_append_dropWhile.symm, ?_⟩
  cases hrest : s.dropWhile (· != '\n') with
  | nil => exact .inl rfl
  | cons x rest =>
      have hx := List.head?_dropWhile_not (· != '\n') s
      rw [hrest] at hx
      exact .inr (by simpa using hx)

/-- A comment is the whole of a text with a single line. -/
theorem Opens.isComment (h : Opens s word) (hline : '\n' ∉ s) : IsComment s word := by
  obtain ⟨chars, rest, hcomment, rfl, hend⟩ := h
  have hrest : rest = [] := hend.resolve_right fun hhead =>
    hline (List.mem_append_right _ (List.mem_of_mem_head? hhead))
  rwa [hrest, List.append_nil]

end Comments

section Lines

variable {contents : String} (hstays : ∀ t,
  First (fun t => ∃ word, Opens t word) (lineTails contents.toList) t →
    ∀ word, Opens t word → IsComment (firstLine t) word)

include hstays

theorem first_line_iff {line : List Char} :
    First (fun line => ∃ word, IsComment line word) (Text.plainLines contents.toList) line ↔
      ∃ t, First (fun t => ∃ word, Opens t word) (lineTails contents.toList) t ∧
        firstLine t = line := by
  have hfirst : ∀ t, First (fun t => ∃ word, IsComment (firstLine t) word)
      (lineTails contents.toList) t ↔
        First (fun t => ∃ word, Opens t word) (lineTails contents.toList) t := by
    intro t
    apply first_iff_of_imp
    · exact fun t ⟨word, hword⟩ => ⟨word, hword.opens⟩
    · intro t ht
      obtain ⟨word, hword⟩ := ht.prop
      exact ⟨word, hstays t ht word hword⟩
  simp only [Text.plainLines_eq, first_map, hfirst]

theorem ofText?_eq_some_iff_line {given : String} : ofText? contents = some given ↔
    ∃ line, First (fun line => ∃ word, IsComment line word) (Text.plainLines contents.toList) line ∧
      IsComment line given.toList := by
  simp only [ofText?_eq_some_iff, first_line_iff hstays]
  constructor
  · rintro ⟨t, hfirst, hlongest⟩
    exact ⟨_, ⟨t, hfirst, rfl⟩, hstays t hfirst _ hlongest.1⟩
  · rintro ⟨_, ⟨t, hfirst, rfl⟩, hcomment⟩
    refine ⟨t, hfirst, hcomment.opens, fun other hother => ?_⟩
    exact Nat.le_of_eq (congrArg List.length ((hstays t hfirst other hother).eq hcomment))

theorem ofText?_eq_none_iff_line : ofText? contents = none ↔
    ∀ line ∈ Text.plainLines contents.toList, ∀ word, ¬ IsComment line word := by
  have hexists : (∃ line ∈ Text.plainLines contents.toList, ∃ word, IsComment line word) ↔
      ∃ t ∈ lineTails contents.toList, ∃ word, Opens t word := by
    simp only [← exists_first_iff, first_line_iff hstays]
    exact ⟨fun ⟨_, t, ht, _⟩ => ⟨t, ht⟩, fun ⟨t, ht⟩ => ⟨_, t, ht, rfl⟩⟩
  rw [ofText?_eq_none_iff]
  simpa using not_congr hexists.symm

end Lines

end Strictness

namespace Project

open Strictness (Blank Opens Longest IsComment)
open Text (lineTails firstLine plainLines)

theorem strictness_of_read {p : Project} {disk : Disk} {relPath contents : String}
    (hread : (disk.readBytes (p.pathOf relPath)).map (Text.readText <| Utf8.cleaned ·) =
      .ok contents) : p.strictness disk relPath = Strictness.ofText? contents := by
  delta strictness
  cases hbytes : disk.readBytes (p.pathOf relPath) with
  | error e =>
      rw [hbytes] at hread
      cases hread
  | ok bytes =>
      rw [hbytes] at hread
      rw [← Except.ok.inj hread]

/-- The strictness of a file is the word of the first comment that a line start opens. That is the
first line that is a comment if the first comment stays in its line. -/
theorem strictness_exact {p : Project} {disk : Disk} {relPath contents : String}
    (hread : (disk.readBytes (p.pathOf relPath)).map (Text.readText <| Utf8.cleaned ·) =
      .ok contents) :
    (∀ given, p.strictness disk relPath = some given ↔
      ∃ t, First (fun t => ∃ word, Opens t word) (lineTails contents.toList) t ∧
        Longest t given.toList) ∧
    (p.strictness disk relPath = none ↔
      ∀ t ∈ lineTails contents.toList, ∀ word, ¬ Opens t word) ∧
    ((∀ t, First (fun t => ∃ word, Opens t word) (lineTails contents.toList) t →
        ∀ word, Opens t word → IsComment (firstLine t) word) →
      (∀ given, p.strictness disk relPath = some given ↔
        ∃ line, First (fun line => ∃ word, IsComment line word) (plainLines contents.toList) line ∧
          IsComment line given.toList) ∧
      (p.strictness disk relPath = none ↔
        ∀ line ∈ plainLines contents.toList, ∀ word, ¬ IsComment line word)) := by
  rw [strictness_of_read hread]
  exact ⟨fun given => Strictness.ofText?_eq_some_iff, Strictness.ofText?_eq_none_iff,
    fun hstays => ⟨fun given => Strictness.ofText?_eq_some_iff_line hstays,
      Strictness.ofText?_eq_none_iff_line hstays⟩⟩

/-- A file whose comment spreads over two lines and a file whose only line is a comment. -/
def commentedDisk : Disk :=
  ⟨[("a.rb", .file (Utf8.encode "#\ntyped: true\n")),
    ("b.rb", .file (Utf8.encode "# typed: strict"))]⟩

theorem strictness_exact_spread :
    ((commentedDisk.readBytes ((⟨⟨"/", []⟩⟩ : Project).pathOf "a.rb")).map
        (Text.readText <| Utf8.cleaned ·) = .ok "#\ntyped: true\n" ∧
      (⟨⟨"/", []⟩⟩ : Project).strictness commentedDisk "a.rb" = some "true" ∧
      ∀ line ∈ plainLines "#\ntyped: true\n".toList, ∀ word, ¬ IsComment line word) ∧
    (commentedDisk.readBytes ((⟨⟨"/", []⟩⟩ : Project).pathOf "b.rb")).map
        (Text.readText <| Utf8.cleaned ·) = .ok "# typed: strict" ∧
      (⟨⟨"/", []⟩⟩ : Project).strictness commentedDisk "b.rb" = some "strict" := by
  have hread : (commentedDisk.readBytes ((⟨⟨"/", []⟩⟩ : Project).pathOf "a.rb")).map
      (Text.readText <| Utf8.cleaned ·) = .ok "#\ntyped: true\n" := rfl
  have hread' : (commentedDisk.readBytes ((⟨⟨"/", []⟩⟩ : Project).pathOf "b.rb")).map
      (Text.readText <| Utf8.cleaned ·) = .ok "# typed: strict" := rfl
  refine ⟨⟨hread, ?_, ?_⟩, hread', ?_⟩
  · have hopens : Opens "#\ntyped: true\n".toList "true".toList :=
      ⟨"#\ntyped: true".toList, ['\n'], ⟨List.all_eq_true.1 (by decide), ['\n'], [' '], [],
        List.all_eq_true.1 (by decide), List.all_eq_true.1 (by decide), by simp [Blank], rfl⟩, rfl,
        .inr rfl⟩
    exact ((strictness_exact hread).1 _).2
      ⟨_, (first_cons_of_pos ⟨_, hopens⟩).2 rfl, hopens.longest (by decide)⟩
  · rintro line hline word ⟨-, gap, lead, trail, -, -, -, rfl⟩
    have hlines : plainLines "#\ntyped: true\n".toList =
        ["#".toList, "typed: true".toList, []] := by
      decide +kernel
    rw [hlines] at hline
    simp at hline
  · have hlines : plainLines "# typed: strict".toList = ["# typed: strict".toList] := by
      decide +kernel
    have hcomment : IsComment "# typed: strict".toList "strict".toList :=
      ⟨List.all_eq_true.1 (by decide), [' '], [' '], [], List.all_eq_true.1 (by decide),
        List.all_eq_true.1 (by decide), by simp [Blank], rfl⟩
    have hstays : ∀ t, First (fun t => ∃ word, Opens t word)
        (lineTails "# typed: strict".toList) t →
          ∀ word, Opens t word → IsComment (firstLine t) word := by
      intro t ht word hopens
      cases List.mem_singleton.1 ht.mem
      exact hopens.isComment (by decide)
    refine (((strictness_exact hread').2.2 hstays).1 _).2 ⟨_, ?_, hcomment⟩
    rw [hlines]
    exact (first_cons_of_pos ⟨_, hcomment⟩).2 rfl

end Project
end Fallow
