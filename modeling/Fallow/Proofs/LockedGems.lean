import Fallow.Project.Gems
import Fallow.Proofs.LineStarts
import Fallow.Proofs.Order
import Fallow.Proofs.Splitting

/-!
# Locked gems

A lock file is searched as a whole, but an entry stays in its line, so that the gems are those
that the single lines list: four blanks, the name, a blank and an opening parenthesis.
-/

namespace Fallow

namespace Gems

open Pattern (Cursor Fresh)
open Text (lineTails firstLine)

/-- Letters, digits, underscores, dots and hyphens. -/
def isNameChar (c : Char) : Bool :=
  c.isAlphanum || c == '_' || c == '.' || c == '-'

/-- A piece of text starts with the entry of a gem. -/
def Gives (s gem : List Char) : Prop :=
  gem ≠ [] ∧ (∀ c ∈ gem, isNameChar c = true) ∧
    ∃ rest, s = "    ".toList ++ gem ++ " (".toList ++ rest

theorem has_nameChars (c : Char) : nameChars.has c = isNameChar c := by
  have hsign : ∀ x : Char, c = x ↔ c.toNat = x.toNat := fun x => Char.toNat_inj.symm
  rw [Bool.eq_iff_iff]
  simp only [nameChars, Pattern.Chars.has, Pattern.Item.has, isNameChar, Bool.or_eq_true,
    Text.isAlphanum_iff]
  simp [hsign]
  omega

section Entries

variable {c e : Cursor} {s gem other : List Char}

theorem entry_eq : entry = .inOrder (.anchor .lineStart :: (Pattern.written "    " ++
    .group 1 (.inOrder [.run 1 nameChars]) :: (Pattern.written " (" ++ []))) := by
  simp [entry]

theorem of_mem_ends_entry (h : e ∈ entry.ends c) : Fresh c.passed ∧ ∃ gem, gem ≠ [] ∧
    (∀ x ∈ gem, isNameChar x = true) ∧
    c.rest = "    ".toList ++ gem ++ " (".toList ++ e.rest ∧ e.groups.lookup 1 = some gem := by
  rw [entry_eq, Pattern.mem_ends_inOrder_cons] at h
  obtain ⟨c', hanchor, h⟩ := h
  obtain ⟨hfresh, rfl⟩ := Pattern.mem_ends_anchor.1 hanchor
  obtain ⟨c₁, h₁, h⟩ := Pattern.mem_ends_written.1 h
  obtain ⟨c₂, hgroup, h⟩ := Pattern.mem_ends_inOrder_cons.1 h
  obtain ⟨gem, d, hlength, hgem, h₂, rfl⟩ := Pattern.mem_ends_group_run.1 hgroup
  obtain ⟨c₃, h₃, h⟩ := Pattern.mem_ends_written.1 h
  cases Pattern.mem_ends_inOrder_nil.1 h
  refine ⟨(Pattern.atAnchor_lineStart _).1 hfresh, gem, ?_, ?_, ?_, ?_⟩
  · exact List.ne_nil_of_length_pos hlength
  · simpa only [has_nameChars] using hgem
  · have hrest : d.rest = " (".toList ++ e.rest := h₃.rest
    rw [h₁.rest, h₂.rest, hrest]
    simp only [List.append_assoc]
  · rw [h₃.groups]
    rfl

theorem exists_mem_ends_entry (hfresh : Fresh c.passed) (h : Gives c.rest gem) :
    ∃ e ∈ entry.ends c, e.rest.length < c.rest.length := by
  obtain ⟨hne, hgem, rest, hrest⟩ := h
  simp only [List.append_assoc] at hrest
  obtain ⟨c₁, h₁, hrest₁⟩ := Cursor.exists_passes hrest
  obtain ⟨d, h₂, hrest₂⟩ := Cursor.exists_passes hrest₁
  obtain ⟨e, h₃, -⟩ := Cursor.exists_passes
    (c := { d with groups := (1, gem) :: d.groups.filter (·.1 != 1) }) hrest₂
  have hanchor : c ∈ Pattern.ends (.anchor .lineStart) c :=
    Pattern.mem_ends_anchor.2 ⟨(Pattern.atAnchor_lineStart c).2 hfresh, rfl⟩
  have hset : ∀ x ∈ gem, nameChars.has x = true := by simpa only [has_nameChars] using hgem
  have hgroup : { d with groups := (1, gem) :: d.groups.filter (·.1 != 1) } ∈
      Pattern.ends (.group 1 (.inOrder [.run 1 nameChars])) c₁ :=
    Pattern.mem_ends_group_run.2 ⟨gem, d, List.length_pos_iff.2 hne, hset, h₂, rfl⟩
  refine ⟨e, ?_, ?_⟩
  · rw [entry_eq]
    exact Pattern.mem_ends_inOrder_cons.2 ⟨c, hanchor, Pattern.mem_ends_written.2 ⟨c₁, h₁,
      Pattern.mem_ends_inOrder_cons.2 ⟨_, hgroup, Pattern.mem_ends_written.2 ⟨e, h₃,
        Pattern.mem_ends_inOrder_nil.2 rfl⟩⟩⟩⟩
  · have hle : e.rest.length ≤ d.rest.length := h₃.length_le
    have hlt : c₁.rest.length < c.rest.length := by
      rw [h₁.length_eq]
      simp
    exact Nat.lt_of_le_of_lt (Nat.le_trans hle h₂.length_le) hlt

theorem not_mem_of_isNameChar (hgem : ∀ x ∈ gem, isNameChar x = true) {x : Char}
    (hx : isNameChar x = false) : x ∉ gem := by
  intro hmem
  rw [hgem x hmem] at hx
  cases hx

theorem staysInLine_entry : entry.StaysInLine := by
  intro c e he
  obtain ⟨hfresh, gem, -, hgem, hrest, -⟩ := of_mem_ends_entry he
  refine ⟨hfresh, "    ".toList ++ gem ++ " (".toList, by simp, ?_, hrest⟩
  simp [not_mem_of_isNameChar hgem (x := '\n') rfl]

/-- A piece of text starts with one entry at most. -/
theorem Gives.eq (h : Gives s gem) (h' : Gives s other) : gem = other := by
  obtain ⟨-, hgem, rest, rfl⟩ := h
  obtain ⟨-, hother, rest', heq⟩ := h'
  simp only [List.append_assoc] at heq
  have hstop : ∀ rest x, (" (".toList ++ rest).head? = some x → isNameChar x = false := by
    rintro rest x ⟨⟩
    rfl
  exact (Text.append_inj_of_stop hgem hother (hstop rest) (hstop rest')
    (List.append_cancel_left heq)).1

/-- An entry is in the first line of what it starts. -/
theorem gives_firstLine_iff : Gives (firstLine s) gem ↔ Gives s gem := by
  constructor
  · rintro ⟨hne, hgem, rest, hrest⟩
    refine ⟨hne, hgem, rest ++ s.dropWhile (· != '\n'), ?_⟩
    rw [← List.append_assoc, ← hrest, firstLine, List.takeWhile_append_dropWhile]
  · rintro ⟨hne, hgem, rest, rfl⟩
    refine ⟨hne, hgem, firstLine rest, ?_⟩
    have hline : ∀ x ∈ "    ".toList ++ gem ++ " (".toList, (x != '\n') = true := by
      intro x hx
      rw [bne_iff_ne]
      rintro rfl
      simp [not_mem_of_isNameChar hgem (x := '\n') rfl] at hx
    rw [firstLine, List.takeWhile_append_of_pos hline]
    rfl

/-- The gems that a search through the whole text finds are those that the lines give. -/
theorem mem_groups_iff : gem ∈ (entry.findAll s).filterMap (·.group? 1) ↔
    ∃ line ∈ Text.plainLines s, Gives line gem := by
  rw [List.mem_filterMap, Text.plainLines_eq]
  simp only [List.mem_map, staysInLine_entry.mem_findAll]
  constructor
  · rintro ⟨m, ⟨c, hc, hm⟩, hgroup⟩
    obtain ⟨-, hstop⟩ := Pattern.of_mem_matchesAt hm
    obtain ⟨hfresh, gem', hne, hgem, hrest, hlookup⟩ := of_mem_ends_entry hstop
    cases Option.some.inj (hlookup.symm.trans hgroup)
    exact ⟨_, ⟨c.rest, Pattern.mem_lineTails.2 ⟨c, hc, hfresh, rfl⟩, rfl⟩,
      gives_firstLine_iff.2 ⟨hne, hgem, _, hrest⟩⟩
  · rintro ⟨_, ⟨t, ht, rfl⟩, hgives⟩
    obtain ⟨c, hc, hfresh, rfl⟩ := Pattern.mem_lineTails.1 ht
    have hgives := gives_firstLine_iff.1 hgives
    obtain ⟨e, he, hlt⟩ := exists_mem_ends_entry hfresh hgives
    -- The match that is listed need not end at `e`, but it gives a gem, and that is the same.
    obtain ⟨m, hm⟩ := Pattern.exists_mem_matchesAt he hlt
    obtain ⟨-, hstop⟩ := Pattern.of_mem_matchesAt hm
    obtain ⟨-, gem', hne, hgem, hrest, hlookup⟩ := of_mem_ends_entry hstop
    cases hgives.eq ⟨hne, hgem, _, hrest⟩
    exact ⟨m, ⟨c, hc, hm⟩, hlookup⟩

/-- Each match is a piece of a single line. -/
theorem exists_line_of_mem_findAll {m : Pattern.Match} (hm : m ∈ entry.findAll s) :
    ∃ line ∈ Text.plainLines s, m.text <+: line := by
  obtain ⟨c, hc, hm⟩ := staysInLine_entry.mem_findAll.1 hm
  obtain ⟨hfresh, hline, hrest⟩ := staysInLine_entry.text_eq hm
  rw [Text.plainLines_eq]
  refine ⟨firstLine c.rest, List.mem_map_of_mem (Pattern.mem_lineTails.2 ⟨c, hc, hfresh, rfl⟩), ?_⟩
  have hkept : ∀ x ∈ m.text, (x != '\n') = true :=
    fun x hx => bne_iff_ne.2 (ne_of_mem_of_not_mem hx hline)
  rw [hrest, firstLine, List.takeWhile_append_of_pos hkept]
  exact List.prefix_append ..

/-- The fifth character of an entry belongs to its name, so a deeper line gives nothing. -/
theorem not_gives_of_deeper (h : "     ".toList <+: s) : ¬ Gives s gem := by
  rintro ⟨hne, hgem, rest, rfl⟩
  cases gem with
  | nil => exact hne rfl
  | cons x gem =>
      have hx : ' ' = x := by simpa using h
      subst hx
      exact not_mem_of_isNameChar hgem (x := ' ') rfl List.mem_cons_self

theorem mem_ofLock {gem contents : String} : gem ∈ ofLock contents ↔
    ∃ line ∈ Text.plainLines contents.toList, Gives line gem.toList := by
  rw [← mem_groups_iff, ofLock, mem_sortedBy, List.mem_eraseDups, List.mem_map]
  constructor
  · rintro ⟨chars, hchars, rfl⟩
    rwa [String.toList_ofList]
  · exact fun hgem => ⟨gem.toList, hgem, String.ofList_toList⟩

theorem ofLock_congr {contents others : String} (h : ∀ line,
    line ∈ Text.plainLines contents.toList ↔ line ∈ Text.plainLines others.toList) :
    ofLock contents = ofLock others := by
  refine sortedBy_eraseDups_congr fun gem => ?_
  simp only [List.mem_map, mem_groups_iff, h]

end Entries

end Gems

namespace Project

theorem lockedGems_of_read {p : Project} {disk : Disk} {contents : String}
    (h : p.read? disk lockFile = .ok (some contents)) :
    p.lockedGems disk = .ok (Gems.ofLock contents) := by
  rw [lockedGems, h]
  rfl

/-- The gems of a lock file are read line by line. -/
theorem lockedGems_exact {p : Project} {disk : Disk} {contents : String}
    (hread : p.read? disk lockFile = .ok (some contents)) :
    ∃ gems, p.lockedGems disk = .ok gems ∧ gems.Pairwise (· < ·) ∧
      (∀ gem, gem ∈ gems ↔
        ∃ line ∈ Text.plainLines contents.toList, Gems.Gives line gem.toList) ∧
      (∀ m ∈ Gems.entry.findAll contents.toList,
        ∃ line ∈ Text.plainLines contents.toList, m.text <+: line) ∧
      (∀ line ∈ Text.plainLines contents.toList, "     ".toList <+: line →
        ∀ gem, ¬ Gems.Gives line gem) ∧
      ∀ (other : Project) (otherDisk : Disk) (others : String),
        other.read? otherDisk lockFile = .ok (some others) →
        (∀ line, line ∈ Text.plainLines others.toList ↔
          line ∈ Text.plainLines contents.toList) →
        other.lockedGems otherDisk = .ok gems := by
  refine ⟨Gems.ofLock contents, lockedGems_of_read hread, pairwise_sortedBy_eraseDups _,
    fun gem => Gems.mem_ofLock, fun m => Gems.exists_line_of_mem_findAll,
    fun line _ hdeeper gem => Gems.not_gives_of_deeper hdeeper, ?_⟩
  intro other otherDisk others hothers hlines
  rw [lockedGems_of_read hothers, Gems.ofLock_congr hlines]

/-- A lock file with a gem that depends on another one. -/
def sampleLock : String :=
  "    rails (7.1)\n      rack (>= 2)\n"

def sampleDisk : Disk :=
  ⟨[(lockFile, .file (Utf8.encode sampleLock))]⟩

theorem lockedGems_exact_sample :
    (⟨⟨"/", []⟩⟩ : Project).read? sampleDisk lockFile = .ok (some sampleLock) ∧
      ∃ gems, (⟨⟨"/", []⟩⟩ : Project).lockedGems sampleDisk = .ok gems ∧
        "rails" ∈ gems ∧ "rack" ∉ gems := by
  have hread : (⟨⟨"/", []⟩⟩ : Project).read? sampleDisk lockFile = .ok (some sampleLock) := rfl
  have hlines : Text.plainLines sampleLock.toList =
      ["    rails (7.1)".toList, "      rack (>= 2)".toList, []] := by
    decide +kernel
  obtain ⟨gems, hgems, -, hmem, -⟩ := lockedGems_exact hread
  rw [hlines] at hmem
  refine ⟨hread, gems, hgems, (hmem _).2 ?_, mt (hmem _).1 ?_⟩
  · exact ⟨_, List.mem_cons_self, by decide, List.all_eq_true.1 (by decide), "7.1)".toList, rfl⟩
  · rintro ⟨line, hline, -, -, rest, rfl⟩
    simp at hline

end Project
end Fallow
