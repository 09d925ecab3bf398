import Fallow.Project.Sorbet
import Fallow.Proofs.Dates
import Fallow.Proofs.Spelling
import Fallow.Proofs.Splitting
import Mathlib.Data.List.Forall2

/-!
# Logs of commits

A log lists commits in lines of two words, the short name of a commit and the seconds of its time.
Whatever other lines stand between these, and however the lines end, the commits are read back in
their order. The last commit, a commit that is searched for and the one that removed the
configuration are the first of a log; the one that brought it in is the last.
-/

namespace Fallow

namespace Numeral

theorem exists_digitChar {c : Char} (h : Text.isAsciiDigit c = true) :
    ∃ n < 10, digitChar n = c := by
  have hrange : 0x30 ≤ c.toNat ∧ c.toNat ≤ 0x39 := by
    simpa [Text.isAsciiDigit, Char.le_def, UInt32.le_iff_toNat_le] using h
  refine ⟨c.toNat - 0x30, by omega, ?_⟩
  rw [digitChar, Nat.add_sub_of_le hrange.1, Char.ofNat_toNat]

theorem digitValue?_of_isAsciiDigit {c : Char} (h : Text.isAsciiDigit c = true) :
    Text.digitValue? c = some (c.toNat - 0x30) := by
  obtain ⟨n, hn, rfl⟩ := exists_digitChar h
  clear h
  revert n
  decide

theorem looseDigits?_of_isAsciiDigit {s : List Char} (hne : s ≠ [])
    (h : ∀ c ∈ s, Text.isAsciiDigit c = true) : looseDigits? s = some (Json.digitsOf s) := by
  induction s using looseDigits?.induct with
  | case1 => exact absurd rfl hne
  | case2 c =>
      rw [looseDigits?, digitValue?_of_isAsciiDigit (h c List.mem_cons_self)]
      rfl
  | case3 c rest _ => exact absurd (h '_' (by simp)) (by decide)
  | case4 c rest hrest hunderscore ih =>
      have htail := ih hrest fun d hd => h d (List.mem_cons_of_mem c hd)
      rw [looseDigits?.eq_4 c rest hrest hunderscore, htail,
        digitValue?_of_isAsciiDigit (h c List.mem_cons_self)]
      rfl

theorem natDigits_ne_nil (n : Nat) : natDigits n ≠ [] := by
  obtain ⟨m, ds, -, hcons, -⟩ := natDigits_eq_cons n
  rw [hcons]
  exact List.cons_ne_nil _ _

theorem ofDigits?_natDigits {n : Nat} (h : n < 10 ^ maxDigits) :
    ofDigits? (natDigits n) = some n := by
  have hdigits := looseDigits?_of_isAsciiDigit (natDigits_ne_nil n) fun c hc =>
    isAsciiDigit_of_mem_natDigits hc
  have hlength : (Json.digitsOf (natDigits n)).length ≤ maxDigits := by
    rw [Json.digitsOf, List.length_map, length_natDigits_le_iff n (by decide)]
    exact h
  simp only [ofDigits?, hdigits, bind, Option.bind, if_pos hlength, value_natDigits]

/-- An integer is one word. -/
theorem solid_intDigits (i : Int) : Text.Solid (intDigits i) := by
  constructor
  · rw [intDigits]
    split
    · exact List.cons_ne_nil _ _
    · exact natDigits_ne_nil _
  · intro c hc
    rcases eq_minus_or_isAsciiDigit_of_mem_intDigits hc with rfl | hdigit
    · decide
    · obtain ⟨n, hn, rfl⟩ := exists_digitChar hdigit
      clear hc hdigit
      revert n
      decide

theorem isAround_of_mem_intDigits {i : Int} {c : Char} (h : c ∈ intDigits i) :
    isAround c = false := by
  rw [isAround, (solid_intDigits i).2 c h, Bool.false_and]

/-- The digits of an integer that is short enough are read as that integer. -/
theorem read?_intDigits {i : Int} (h : i.natAbs < 10 ^ maxDigits) :
    read? (String.ofList (intDigits i)) = some i := by
  have htrim : Text.trim isAround (intDigits i) = intDigits i :=
    Text.trim_eq_self fun c hc => isAround_of_mem_intDigits hc
  rw [read?, String.toList_ofList, htrim, intDigits]
  by_cases hneg : i < 0
  · have hvalue : -(i.natAbs : Int) = i := by omega
    simp only [hneg, ↓reduceIte, ofDigits?_natDigits h]
    exact congrArg some hvalue
  · have hvalue : (i.natAbs : Int) = i := by omega
    simp only [hneg, ↓reduceIte]
    split
    · exact absurd ‹_› natDigits_ne_minus
    · rename_i rest heq
      have hplus : '+' ∈ natDigits i.natAbs := by
        rw [heq]
        exact List.mem_cons_self
      exact absurd (isAsciiDigit_of_mem_natDigits hplus) (by decide)
    · rw [ofDigits?_natDigits h]
      exact congrArg some hvalue

end Numeral

namespace Commit

/-- What a line of a log lists: the short name of a commit, and the second of the years 1 to 9999 in
which it was made. -/
structure Entry where
  sha : String
  epoch : Int
  solid : Text.Solid sha.toList
  notBefore : -62135596800 ≤ epoch
  notAfter : epoch ≤ 253402300799

namespace Entry

def line (e : Entry) : List Char :=
  e.sha.toList ++ ' ' :: Numeral.intDigits e.epoch

/-- The commit that an entry stands for. -/
structure Names (e : Entry) (c : Commit) : Prop where
  sha : c.sha = e.sha
  time : c.time.IsAt e.epoch

end Entry

/-- A line that lists nothing: blank, or of one word, or of more than two. -/
def IsOther (line : List Char) : Prop :=
  Text.Unbroken line ∧ ∀ first second, ¬ Text.IsPair line first second

theorem isOther_of_length_words {line : List Char} (h : Text.Unbroken line)
    (hwords : (Text.words line).length ≠ 2) : IsOther line :=
  ⟨h, fun _ _ hpair => hwords (by rw [Text.words_eq_pair_iff.2 hpair]; rfl)⟩

/-- A text lists entries, in lines of their own, with other lines between them. The last line may be
without a break at its end. -/
inductive Lists : List Char → List Entry → Prop
  | lastEntry (e : Entry) : Lists e.line [e]
  | lastOther {line : List Char} (h : IsOther line) : Lists line []
  | entry (e : Entry) {ending rest : List Char} {entries : List Entry}
      (hending : Text.IsBreak ending) (hrest : Lists rest entries) :
      Lists (e.line ++ ending ++ rest) (e :: entries)
  | other {line ending rest : List Char} {entries : List Entry} (h : IsOther line)
      (hending : Text.IsBreak ending) (hrest : Lists rest entries) :
      Lists (line ++ ending ++ rest) entries

/-! ### Reading lines -/

theorem ofLine_of_isOther {line : List Char} (h : IsOther line) : ofLine line = .ok none := by
  rw [ofLine]
  split
  · exact absurd (Text.words_eq_pair_iff.1 ‹_›) (h.2 _ _)
  · rfl

theorem ofLine_nil : ofLine [] = .ok none := rfl

namespace Entry

variable (e : Entry)

theorem natAbs_epoch_lt : e.epoch.natAbs < 10 ^ Numeral.maxDigits := by
  have hpow : 10 ^ 12 ≤ 10 ^ Numeral.maxDigits := Nat.pow_le_pow_right (by decide) (by decide)
  have hlow := e.notBefore
  have hhigh := e.notAfter
  exact lt_of_lt_of_le (by omega) hpow

theorem isPair_line : Text.IsPair e.line e.sha.toList (Numeral.intDigits e.epoch) := by
  have hspace : Text.Blank [' '] := List.forall_mem_singleton.2 (by decide)
  exact ⟨[], [' '], [], by simp [line], e.solid, Numeral.solid_intDigits _, List.cons_ne_nil _ _,
    List.forall_mem_nil _, hspace, List.forall_mem_nil _⟩

theorem unbroken_line : Text.Unbroken e.line :=
  List.forall_mem_append.2 ⟨e.solid.unbroken,
    List.forall_mem_cons.2 ⟨by decide, (Numeral.solid_intDigits e.epoch).unbroken⟩⟩

/-- The line of an entry is read as its commit. -/
theorem exists_ofLine_eq_ok : ∃ c, ofLine e.line = .ok (some c) ∧ e.Names c := by
  obtain ⟨time, htime, hat⟩ := Stamp.exists_ofEpoch_eq_ok e.notBefore e.notAfter
  refine ⟨⟨e.sha, time⟩, ?_, rfl, hat⟩
  rw [ofLine, Text.words_eq_pair_iff.2 e.isPair_line]
  simp only [Numeral.read?_intDigits e.natAbs_epoch_lt, htime, String.ofList_toList]

end Entry

/-- The commits of lines that are read one after the other. -/
def ofLines (lines : List (List Char)) : Except Error (List Commit) :=
  return (← lines.mapM ofLine).filterMap id

theorem ofLines_cons {line : List Char} {lines : List (List Char)} {c : Option Commit}
    (h : ofLine line = .ok c) :
    ofLines (line :: lines) = (ofLines lines).map (c.toList ++ ·) := by
  rw [ofLines, ofLines, List.mapM_cons, h]
  cases lines.mapM ofLine with
  | error e => rfl
  | ok commits => cases c <;> rfl

theorem ofLines_cons_nil (lines : List (List Char)) : ofLines ([] :: lines) = ofLines lines := by
  rw [ofLines_cons ofLine_nil]
  cases ofLines lines <;> rfl

/-- A line lists the same whatever ends it. A line feed after a carriage return belongs to the break
and is no line of its own; as a line it would be blank and list nothing. -/
theorem ofLines_append_break {line ending : List Char} {c : Option Commit} (rest : List Char)
    (h : Text.Unbroken line) (hc : ofLine line = .ok c) (hending : Text.IsBreak ending) :
    ofLines (Text.lines (line ++ ending ++ rest)) =
      (ofLines (Text.lines rest)).map (c.toList ++ ·) := by
  cases hending with
  | pair =>
      rw [List.append_assoc]
      change ofLines (Text.lines (line ++ '\r' :: '\n' :: rest)) = _
      rw [Text.lines_append_pair h, ofLines_cons hc]
  | @single b hb =>
      rw [List.append_assoc, List.singleton_append]
      by_cases hpair : b = '\r' ∧ rest.head? = some '\n'
      · obtain ⟨rfl, hfeed⟩ := hpair
        obtain ⟨below, rfl⟩ := List.head?_eq_some_iff.1 hfeed
        have hblank : Text.lines ('\n' :: below) = [] :: Text.lines below :=
          Text.lines_append_cons (List.forall_mem_nil _) (by decide)
            fun hreturn => absurd hreturn (by decide)
        rw [Text.lines_append_pair h, ofLines_cons hc, hblank, ofLines_cons_nil]
      · rw [Text.lines_append_cons h hb fun hreturn hfeed => hpair ⟨hreturn, hfeed⟩,
          ofLines_cons hc]

theorem ofLines_of_unbroken {line : List Char} {c : Option Commit} (h : Text.Unbroken line)
    (hc : ofLine line = .ok c) : ofLines (Text.lines line) = .ok c.toList := by
  rw [Text.lines_of_unbroken h]
  split
  · subst line
    cases hc
    rfl
  · rw [ofLines_cons hc]
    exact congrArg Except.ok (List.append_nil _)

/-- The commits of a log are those of its entries. -/
theorem Lists.exists_ofLines_eq_ok {s : List Char} {entries : List Entry} (h : Lists s entries) :
    ∃ commits, ofLines (Text.lines s) = .ok commits ∧
      List.Forall₂ Entry.Names entries commits := by
  induction h with
  | lastEntry e =>
      obtain ⟨c, hc, hnames⟩ := e.exists_ofLine_eq_ok
      exact ⟨[c], ofLines_of_unbroken e.unbroken_line hc, .cons hnames .nil⟩
  | lastOther h => exact ⟨[], ofLines_of_unbroken h.1 (ofLine_of_isOther h), .nil⟩
  | entry e hending hrest ih =>
      obtain ⟨c, hc, hnames⟩ := e.exists_ofLine_eq_ok
      obtain ⟨commits, hcommits, hall⟩ := ih
      refine ⟨c :: commits, ?_, .cons hnames hall⟩
      rw [ofLines_append_break _ e.unbroken_line hc hending, hcommits]
      rfl
  | other h hending hrest ih =>
      obtain ⟨commits, hcommits, hall⟩ := ih
      refine ⟨commits, ?_, hall⟩
      rw [ofLines_append_break _ h.1 (ofLine_of_isOther h) hending, hcommits]
      rfl

theorem Entry.Names.unique {e : Entry} {c c' : Commit} (h : e.Names c) (h' : e.Names c') :
    c = c' := by
  cases c
  cases c'
  rw [Commit.mk.injEq]
  exact ⟨h.sha.trans h'.sha.symm, h.time.unique h'.time⟩

/-- Entries stand for one list of commits. -/
theorem exists_forall₂_names_iff (entries : List Entry) :
    ∃ commits, ∀ others, List.Forall₂ Entry.Names entries others ↔ others = commits := by
  induction entries with
  | nil => exact ⟨[], fun others => List.forall₂_nil_left_iff⟩
  | cons e entries ih =>
      obtain ⟨c, -, hc⟩ := e.exists_ofLine_eq_ok
      obtain ⟨commits, hcommits⟩ := ih
      refine ⟨c :: commits, fun others => ?_⟩
      rw [List.forall₂_cons_left_iff]
      constructor
      · rintro ⟨c', others, hc', hothers, rfl⟩
        rw [hc'.unique hc, (hcommits others).1 hothers]
      · rintro rfl
        exact ⟨c, commits, hc, (hcommits commits).2 rfl, rfl⟩

theorem ofReply_eq_ofLines {r : Reply} (h : r.succeeded = true) :
    ofReply r = ofLines (Text.lines r.out.toList) := by
  rw [ofReply, if_pos h]
  rfl

theorem ofReply_of_failed {r : Reply} (h : r.succeeded = false) : ofReply r = .ok [] := by
  rw [ofReply, if_neg (by rw [h]; decide)]

end Commit

namespace Project

/-- What a search in the history finds: its choice of the listed commits if the command succeeds,
and nothing exactly if there are none or the command fails. -/
structure Finds (r : Reply) (entries : List Commit.Entry) (choice : Option Commit)
    (found : Except Commit.Error (Option Commit)) : Prop where
  of_succeeded : r.succeeded = true → found = .ok choice
  eq_none_iff : found = .ok none ↔ entries = [] ∨ r.succeeded = false

theorem finds_choice {r : Reply} {entries : List Commit.Entry} {commits : List Commit}
    {choose : List Commit → Option Commit} (hchoose : ∀ l, choose l = none ↔ l = [])
    (hread : r.succeeded = true → Commit.ofReply r = .ok commits)
    (hnames : List.Forall₂ Commit.Entry.Names entries commits) :
    Finds r entries (choose commits) ((Commit.ofReply r).map choose) := by
  by_cases hsucceeded : r.succeeded = true
  · have hempty : commits = [] ↔ entries = [] := by
      rw [← List.length_eq_zero_iff, ← hnames.length_eq, List.length_eq_zero_iff]
    rw [hread hsucceeded]
    refine ⟨fun _ => rfl, ?_⟩
    change Except.ok (choose commits) = Except.ok none ↔ _
    rw [Except.ok.injEq, hchoose, hempty, hsucceeded]
    simp
  · rw [Bool.not_eq_true] at hsucceeded
    have hnone : choose [] = none := (hchoose []).2 rfl
    rw [Commit.ofReply_of_failed hsucceeded]
    refine ⟨fun h => absurd h (by rw [hsucceeded]; decide), ?_⟩
    change Except.ok (choose []) = Except.ok none ↔ _
    rw [hnone, hsucceeded]
    simp

/-- The commits that a log lists are read back, and each search finds the one it is about. -/
theorem commits_recovered {r : Reply} {entries : List Commit.Entry}
    (hlog : r.succeeded = true → Commit.Lists r.out.toList entries) :
    ∃ commits : List Commit,
      (∀ others, List.Forall₂ Commit.Entry.Names entries others ↔ others = commits) ∧
      (r.succeeded = true → Commit.ofReply r = .ok commits) ∧
      ∀ (p : Project) (s : Session) (pattern : String), (∀ c, (s.exec c).1 = r) →
        Finds r entries commits.head? (p.gitLastCommit s).1 ∧
        Finds r entries commits.head? (p.gitFindCommit pattern s).1 ∧
        Finds r entries commits.head? (p.sorbetRemovalCommit s).1 ∧
        Finds r entries commits.getLast? (p.sorbetIntroCommit s).1 := by
  obtain ⟨commits, hcommits⟩ := Commit.exists_forall₂_names_iff entries
  have hread : r.succeeded = true → Commit.ofReply r = .ok commits := by
    intro hsucceeded
    obtain ⟨listed, hlisted, hnames⟩ := (hlog hsucceeded).exists_ofLines_eq_ok
    rw [Commit.ofReply_eq_ofLines hsucceeded, hlisted, (hcommits listed).1 hnames]
  have hnames := (hcommits commits).2 rfl
  have hfirst : Finds r entries commits.head? (firstCommit r) :=
    finds_choice (fun _ => List.head?_eq_none_iff) hread hnames
  have hlast : Finds r entries commits.getLast? (lastCommit r) :=
    finds_choice (fun _ => List.getLast?_eq_none_iff) hread hnames
  refine ⟨commits, hcommits, hread, fun p s pattern hreply => ?_⟩
  -- each search runs one command and chooses from its reply
  have hreplies : ∀ args, (p.gitLog args s).1 = r := fun args =>
    hreply ⟨p.root, "git " ++ " ".intercalate ("log" :: args), none⟩
  have hlastCommit : (p.gitLastCommit s).1 = firstCommit r :=
    congrArg firstCommit (hreplies ["-1", commitFormat])
  have hfind : (p.gitFindCommit pattern s).1 = firstCommit r :=
    congrArg firstCommit (hreplies (findArguments pattern))
  have hconfig : ∀ filter, (p.configLog filter s).1 = r := fun filter => hreplies _
  have hremoval : (p.sorbetRemovalCommit s).1 = firstCommit r :=
    congrArg firstCommit (hconfig "D")
  have hintro : (p.sorbetIntroCommit s).1 = lastCommit r := congrArg lastCommit (hconfig "A")
  rw [hlastCommit, hfind, hremoval, hintro]
  exact ⟨hfirst, hfirst, hfirst, hlast⟩

/-- A log with lines of other kinds, line breaks of several kinds and a time before 1970. -/
def mixedReply : Reply where
  out := "a1 86399\r\n\nwarning\n one two three\x0bf0 -1"

def mixedSession : Session where
  disk := ⟨[]⟩
  home := ⟨"/", []⟩
  replies := [mixedReply]

def mixedEntries : List Commit.Entry :=
  [⟨"a1", 86399, by decide, by decide, by decide⟩, ⟨"f0", -1, by decide, by decide, by decide⟩]

theorem commits_recovered_mixed :
    Commit.Lists mixedReply.out.toList mixedEntries ∧
    Commit.ofReply mixedReply = .ok [⟨"a1", ⟨1970, 1, 1, 23, 59, 59, 0, some 0⟩⟩,
      ⟨"f0", ⟨1969, 12, 31, 23, 59, 59, 0, some 0⟩⟩] ∧
    (gitLastCommit ⟨⟨"/", []⟩⟩ mixedSession).1 =
      .ok (some ⟨"a1", ⟨1970, 1, 1, 23, 59, 59, 0, some 0⟩⟩) ∧
    (sorbetIntroCommit ⟨⟨"/", []⟩⟩ mixedSession).1 =
      .ok (some ⟨"f0", ⟨1969, 12, 31, 23, 59, 59, 0, some 0⟩⟩) := by
  have hother : ∀ line ∈ [[], "warning".toList, " one two three".toList],
      Commit.IsOther line := by
    simp only [List.forall_mem_cons]
    exact ⟨Commit.isOther_of_length_words (by decide) (by decide),
      Commit.isOther_of_length_words (by decide) (by decide),
      Commit.isOther_of_length_words (by decide) (by decide), List.forall_mem_nil _⟩
  have hlists : Commit.Lists mixedReply.out.toList mixedEntries := by
    have htext : mixedReply.out.toList = (mixedEntries.get ⟨0, by decide⟩).line ++ ['\r', '\n'] ++
        ([] ++ ['\n'] ++ ("warning".toList ++ ['\n'] ++ (" one two three".toList ++ ['\x0b'] ++
          (mixedEntries.get ⟨1, by decide⟩).line))) := by
      decide +kernel
    rw [htext]
    exact .entry _ .pair (.other (hother _ (by simp)) (.single (by decide))
      (.other (hother _ (by simp)) (.single (by decide))
        (.other (hother _ (by simp)) (.single (by decide)) (.lastEntry _))))
  have hlatest : Stamp.IsAt ⟨1970, 1, 1, 23, 59, 59, 0, some 0⟩ 86399 := by
    refine ⟨by decide, rfl, rfl, ?_⟩
    rw [Stamp.seconds, Stamp.dayNumber_eq (by decide)]
    decide
  have holdest : Stamp.IsAt ⟨1969, 12, 31, 23, 59, 59, 0, some 0⟩ (-1) := by
    refine ⟨by decide, rfl, rfl, ?_⟩
    rw [Stamp.seconds, Stamp.dayNumber_eq (by decide)]
    decide
  obtain ⟨commits, hcommits, hread, hfinds⟩ := commits_recovered fun _ => hlists
  obtain rfl := (hcommits [⟨"a1", ⟨1970, 1, 1, 23, 59, 59, 0, some 0⟩⟩,
    ⟨"f0", ⟨1969, 12, 31, 23, 59, 59, 0, some 0⟩⟩]).1
      (.cons ⟨rfl, hlatest⟩ (.cons ⟨rfl, holdest⟩ .nil))
  obtain ⟨hfirst, -, -, hlast⟩ := hfinds ⟨⟨"/", []⟩⟩ mixedSession "" fun _ => rfl
  exact ⟨hlists, hread rfl, hfirst.of_succeeded rfl, hlast.of_succeeded rfl⟩

end Project
end Fallow
