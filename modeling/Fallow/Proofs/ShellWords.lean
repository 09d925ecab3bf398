import Fallow.Project.History
import Fallow.Shell.Run
import Mathlib.Data.List.Forall2

/-!
# Words of command lines

A text that was quoted is one word of a command line, whatever characters it holds: the shell reads
it back as it was. So the shell takes the commands that record and search commits for one simple
command each, whose arguments are the message or the pattern of the caller as they are.
-/

namespace Fallow.Shell

/-- A character that stands for itself: a safe one, or one between quotes. The single quote is the
only one that is put between double quotes. -/
def Mark.IsInert (m : Mark) : Prop :=
  match m.quoting with
  | .bare => isSafe m.char = true
  | .soft => m.char = '\''
  | .hard => True

/-- A word that is there and means no more than its text. -/
structure Word.IsInert (w : Word) : Prop where
  present : w.marks ≠ [] ∨ w.quoted = true
  inert : ∀ m ∈ w.marks, m.IsInert

theorem ne_of_isSafe {c d : Char} (hc : isSafe c = true) (hd : isSafe d = false) : c ≠ d := by
  rintro rfl
  rw [hc] at hd
  cases hd

section Expansion

variable {m : Mark} {w : Word}

theorem Mark.IsInert.no_parameter (h : m.IsInert) :
    (m.char = '$' && m.quoting != .hard) = false := by
  obtain ⟨c, q⟩ := m
  cases q with
  | bare => simp [ne_of_isSafe h (by decide : isSafe '$' = false)]
  | soft =>
      have hc : c = '\'' := h
      simp [hc]
  | hard => simp

theorem atoms_of_inert (s : State) {marks : List Mark} (h : ∀ m ∈ marks, m.IsInert) :
    atoms s 0 marks = marks.map fun m => .keep m.char := by
  induction marks with
  | nil => rfl
  | cons m marks ih =>
      obtain ⟨hm, hmarks⟩ := List.forall_mem_cons.1 h
      rw [atoms, hm.no_parameter, ih hmarks]
      rfl

theorem cutAtoms_keep (field chars : List Char) (h : field ≠ [] ∨ chars ≠ []) :
    cutAtoms field (chars.map .keep) = [field.reverse ++ chars] := by
  induction chars generalizing field with
  | nil => simp_all [cutAtoms]
  | cons c chars ih =>
      rw [List.map_cons, cutAtoms, ih _ (.inl (List.cons_ne_nil _ _))]
      simp

/-- No state of the shell changes such a word or divides it. -/
theorem Word.IsInert.fields_eq (h : w.IsInert) (s : State) : fields s w = [w.text] := by
  have hatoms : atoms s 0 w.marks = (w.marks.map (·.char)).map .keep := by
    rw [atoms_of_inert s h.inert, List.map_map]
    rfl
  rw [fields, hatoms]
  by_cases hmarks : w.marks = []
  · have hquoted := h.present.resolve_left (not_not_intro hmarks)
    simp [hmarks, hquoted, cutAtoms, Word.text]
  · rw [cutAtoms_keep _ _ (.inr (by simpa using hmarks))]
    simp [Word.text]

theorem Word.IsInert.isPlain (h : w.IsInert) : w.isPlain = true := by
  rw [Word.isPlain, List.all_eq_true]
  rintro ⟨c, q⟩ hm
  have hinert := h.inert _ hm
  cases q with
  | bare =>
      have hne : ∀ d : Char, isSafe d = false → c ≠ d := fun d => ne_of_isSafe hinert
      simp [hne '$' (by decide), hne '`' (by decide), hne '*' (by decide), hne '?' (by decide),
        hne '[' (by decide)]
  | soft =>
      have hc : c = '\'' := hinert
      simp [hc]
  | hard => simp

end Expansion

/-! ### Reading -/

theorem scan_safe {c : Char} (h : isSafe c = true) (w : Option Word) (rest : List Char) :
    scan .plain w (c :: rest) = scan .plain (Word.add w c .bare) rest := by
  have hne : ∀ d : Char, isSafe d = false → c ≠ d := fun d => ne_of_isSafe h
  have hslash := hne '\\' (by decide)
  have hand := hne '&' (by decide)
  have hpipe := hne '|' (by decide)
  have hout := hne '>' (by decide)
  rw [scan]
  · simp [hne '\'' (by decide), hne '"' (by decide), hne ' ' (by decide), hne '\t' (by decide),
      hne '\n' (by decide), hne ';' (by decide), hne '<' (by decide), hne '(' (by decide),
      hne ')' (by decide), hne '#' (by decide), hand, hpipe, hout]
  all_goals simp_all

theorem scan_single_of_ne {c : Char} (h : c ≠ '\'') (w : Option Word) (rest : List Char) :
    scan .single w (c :: rest) = scan .single (Word.add w c .hard) rest := by
  rw [scan, if_neg h]

/-- How a character between single quotes is marked; the single quote leaves them for a moment. -/
def quotedMark (c : Char) : Mark :=
  ⟨c, if c = '\'' then .soft else .hard⟩

theorem scan_quoteChar (c : Char) (marks : List Mark) (rest : List Char) :
    scan .single (some ⟨marks, true⟩) (quoteChar c ++ rest) =
      scan .single (some ⟨marks ++ [quotedMark c], true⟩) rest := by
  by_cases h : c = '\''
  · subst h
    rfl
  · rw [quoteChar, if_neg h, List.singleton_append, scan_single_of_ne h, quotedMark, if_neg h]
    rfl

theorem scan_quoted (s : List Char) (marks : List Mark) (rest : List Char) :
    scan .single (some ⟨marks, true⟩) (s.flatMap quoteChar ++ '\'' :: rest) =
      scan .plain (some ⟨marks ++ s.map quotedMark, true⟩) rest := by
  induction s generalizing marks with
  | nil =>
      rw [List.map_nil, List.append_nil]
      rfl
  | cons c s ih =>
      rw [List.flatMap_cons, List.append_assoc, scan_quoteChar, ih, List.map_cons,
        List.append_assoc, List.singleton_append]

theorem scan_bare {s : List Char} (h : ∀ c ∈ s, isSafe c = true) (w : Word) (rest : List Char) :
    scan .plain (some w) (s ++ rest) =
      scan .plain (some ⟨w.marks ++ s.map (⟨·, .bare⟩), w.quoted⟩) rest := by
  induction s generalizing w with
  | nil => simp
  | cons c s ih =>
      obtain ⟨hc, hs⟩ := List.forall_mem_cons.1 h
      rw [List.cons_append, scan_safe hc, Word.add, ih hs]
      simp

/-- A piece of a command line that is read as one word. -/
structure Spells (piece : List Char) (w : Word) : Prop where
  inert : w.IsInert
  scan_eq : ∀ rest, scan .plain none (piece ++ rest) = scan .plain (some w) rest

def bareWord (s : List Char) : Word :=
  ⟨s.map (⟨·, .bare⟩), false⟩

def quotedWord (s : List Char) : Word :=
  ⟨s.map quotedMark, true⟩

@[simp] theorem text_bareWord (s : List Char) : (bareWord s).text = String.ofList s := by
  simp [bareWord, Word.text, Function.comp_def]

@[simp] theorem text_quotedWord (s : List Char) : (quotedWord s).text = String.ofList s := by
  simp [quotedWord, Word.text, quotedMark, Function.comp_def]

theorem spells_bareWord {s : List Char} (hne : s ≠ []) (h : ∀ c ∈ s, isSafe c = true) :
    Spells s (bareWord s) where
  inert := {
    present := .inl (by simpa [bareWord] using hne)
    inert := by
      intro m hm
      obtain ⟨c, hc, rfl⟩ := List.mem_map.1 hm
      exact h c hc }
  scan_eq rest := by
    obtain ⟨c, s, rfl⟩ := List.exists_cons_of_ne_nil hne
    obtain ⟨hc, hs⟩ := List.forall_mem_cons.1 h
    rw [List.cons_append, scan_safe hc, Word.add, scan_bare hs]
    rfl

theorem spells_quotedWord (s : List Char) :
    Spells ('\'' :: s.flatMap quoteChar ++ ['\'']) (quotedWord s) where
  inert := {
    present := .inr rfl
    inert := by
      intro m hm
      obtain ⟨c, -, rfl⟩ := List.mem_map.1 hm
      by_cases h : c = '\'' <;> simp [Mark.IsInert, quotedMark, h] }
  scan_eq rest := by
    have hstart : scan .plain none ('\'' :: s.flatMap quoteChar ++ ['\''] ++ rest) =
        scan .single (some ⟨[], true⟩) (s.flatMap quoteChar ++ '\'' :: rest) := by
      rw [List.append_assoc]
      rfl
    rw [hstart, scan_quoted, List.nil_append, quotedWord]

/-! ### Command lines -/

section Lines

variable {pieces : List (List Char)} {words : List Word}

theorem scan_intercalate (h : List.Forall₂ Spells pieces words) (hne : pieces ≠ []) :
    scan .plain none ([' '].intercalate pieces) = some (words.map .word) := by
  induction h with
  | nil => exact absurd rfl hne
  | @cons piece w pieces words hpiece hpieces ih =>
      cases hpieces with
      | nil =>
          rw [List.intercalate_singleton, ← List.append_nil piece, hpiece.scan_eq]
          rfl
      | cons =>
          rw [List.intercalate_cons_cons, List.append_assoc, hpiece.scan_eq, List.singleton_append]
          have hblank : ∀ rest, scan .plain (some w) (' ' :: rest) =
              (scan .plain none rest).map (.word w :: ·) := fun _ => rfl
          rw [hblank, ih (List.cons_ne_nil _ _)]
          rfl

theorem clauses?_words (d : Draft) (words : List Word) :
    clauses? d (words.map .word) = clauses? (words.foldl Draft.addWord d) [] := by
  induction words generalizing d with
  | nil => rfl
  | cons w words ih => exact ih (d.addWord w)

theorem foldl_addWord (d : Draft) (words : List Word) : words.foldl Draft.addWord d =
    { d with command := ⟨d.command.words ++ words, d.command.redirects⟩ } := by
  induction words generalizing d with
  | nil => simp
  | cons w words ih => simp [ih, Draft.addWord]

theorem clauses?_words_of_ne_nil (hne : words ≠ []) :
    clauses? {} (words.map .word) = some [⟨1, .always, [⟨words, []⟩]⟩] := by
  rw [clauses?_words, foldl_addWord, clauses?]
  simp [Draft.isBlank, Simple.isEmpty, Draft.clause, hne]

theorem mapM_plainText? (h : ∀ w ∈ words, w.IsInert) :
    (words.map Token.word).mapM Token.plainText? = some (words.map Word.text) := by
  induction words with
  | nil => rfl
  | cons w words ih =>
      obtain ⟨hw, hwords⟩ := List.forall_mem_cons.1 h
      have hplain : Token.plainText? (.word w) = some w.text := by
        rw [Token.plainText?, if_pos hw.isPlain]
      rw [List.map_cons, List.mapM_cons, hplain, ih hwords]
      rfl

theorem inert_of_forall₂_spells (h : List.Forall₂ Spells pieces words) :
    ∀ w ∈ words, w.IsInert := by
  induction h with
  | nil => simp
  | cons hpiece _ ih => exact List.forall_mem_cons.2 ⟨hpiece.inert, ih⟩

theorem flatMap_fields (h : ∀ w ∈ words, w.IsInert) (s : State) :
    words.flatMap (fields s) = words.map Word.text := by
  induction words with
  | nil => rfl
  | cons w words ih =>
      obtain ⟨hw, hwords⟩ := List.forall_mem_cons.1 h
      rw [List.flatMap_cons, hw.fields_eq s, ih hwords, List.map_cons, List.singleton_append]

end Lines

/-- A piece of a command line that the shell reads as one argument. -/
def Writes (piece arg : String) : Prop :=
  ∃ w : Word, Spells piece.toList w ∧ w.text = arg

theorem writes_safe {s : String} (hne : s.toList ≠ []) (h : s.toList.all isSafe = true) :
    Writes s s :=
  ⟨_, spells_bareWord hne (List.all_eq_true.1 h), by simp⟩

theorem forall₂_writes_safe {pieces : List String}
    (h : ∀ s ∈ pieces, s.toList ≠ [] ∧ s.toList.all isSafe = true) :
    List.Forall₂ Writes pieces pieces :=
  List.forall₂_same.2 fun s hs => writes_safe (h s hs).1 (h s hs).2

/-- A quoted text is read as it was. -/
theorem writes_quote (s : String) : Writes (quote s) s := by
  by_cases hempty : s = ""
  · subst hempty
    exact ⟨_, spells_quotedWord [], rfl⟩
  by_cases hsafe : s.toList.all isSafe = true
  · rw [quote, if_neg hempty, if_pos hsafe]
    exact writes_safe (by simpa using hempty) hsafe
  · rw [quote, if_neg hempty, if_neg hsafe]
    refine ⟨quotedWord s.toList, ?_, by simp⟩
    rw [String.toList_ofList]
    exact spells_quotedWord s.toList

example : words? ("-m " ++ quote "don't; $x") = some ["-m", "don't; $x"] := by
  decide +kernel

theorem exists_words_of_writes {pieces args : List String} (h : List.Forall₂ Writes pieces args) :
    ∃ words, List.Forall₂ Spells (pieces.map String.toList) words ∧ words.map Word.text = args := by
  induction h with
  | nil => exact ⟨[], .nil, rfl⟩
  | cons hpiece _ ih =>
      obtain ⟨w, hspells, htext⟩ := hpiece
      obtain ⟨words, hwords, htexts⟩ := ih
      exact ⟨w :: words, .cons hspells hwords, by rw [List.map_cons, htext, htexts]⟩

/-- A command line that the shell takes in every state for one simple command with these arguments,
without settings and redirections. What stands without quotes in it is safe. -/
def Calls (command : String) (args : List String) : Prop :=
  words? command = some args ∧ ∃ words : List Word, (∀ w ∈ words, w.IsInert) ∧
    script? command = some [⟨1, .always, [⟨words, []⟩]⟩] ∧
    ∀ s : State, words.takeWhile (isAssignment s) = [] ∧ words.flatMap (fields s) = args

theorem calls_git {pieces args : List String} (h : List.Forall₂ Writes pieces args) :
    Calls (" ".intercalate ("git" :: pieces)) ("git" :: args) := by
  obtain ⟨words, hwords, rfl⟩ := exists_words_of_writes h
  have hgit : Spells "git".toList (bareWord "git".toList) :=
    spells_bareWord (by decide) (List.all_eq_true.1 (by decide))
  have hall := List.Forall₂.cons hgit hwords
  have hinert := inert_of_forall₂_spells hall
  have htexts : (bareWord "git".toList :: words).map Word.text = "git" :: words.map Word.text := rfl
  have htokens : tokens? (" ".intercalate ("git" :: pieces)) =
      some ((bareWord "git".toList :: words).map .word) := by
    rw [tokens?, String.toList_intercalate]
    exact scan_intercalate hall (List.cons_ne_nil _ _)
  refine ⟨?_, _, hinert, ?_, fun s => ⟨rfl, (flatMap_fields hinert s).trans htexts⟩⟩
  · rw [words?, htokens, ← htexts]
    exact mapM_plainText? hinert
  · rw [script?, htokens]
    exact clauses?_words_of_ne_nil (List.cons_ne_nil _ _)

end Fallow.Shell

namespace Fallow.Project

open Shell (Writes writes_safe forall₂_writes_safe writes_quote)

theorem writes_commitFormat : Writes commitFormat "--format=%h %at" := by
  refine ⟨⟨"--format=".toList.map (⟨·, .bare⟩) ++ "%h %at".toList.map (⟨·, .hard⟩), true⟩,
    ⟨⟨.inr rfl, ?_⟩, fun rest => rfl⟩, rfl⟩
  intro m hm
  rcases List.mem_append.1 hm with hbare | hhard
  · obtain ⟨c, hc, rfl⟩ := List.mem_map.1 hbare
    exact List.all_eq_true.1 (by decide : "--format=".toList.all Shell.isSafe = true) c hc
  · obtain ⟨c, -, rfl⟩ := List.mem_map.1 hhard
    trivial

theorem commitCommand_eq (message date : String) (allowEmpty : Bool) :
    commitCommand message date allowEmpty = " ".intercalate ("git" ::
      (["-c", "commit.gpgsign=false", "commit", "-q", "-m", Shell.quote message, "--date",
        Shell.quote date] ++ if allowEmpty then ["--allow-empty"] else [])) := by
  rw [← String.toList_inj]
  cases allowEmpty <;> simp [commitCommand]

theorem calls_commitCommand (message date : String) (allowEmpty : Bool) :
    Shell.Calls (commitCommand message date allowEmpty)
      (["git", "-c", "commit.gpgsign=false", "commit", "-q", "-m", message, "--date", date] ++
        if allowEmpty then ["--allow-empty"] else []) := by
  have hoptions : List.Forall₂ Writes ["-c", "commit.gpgsign=false", "commit", "-q", "-m"]
      ["-c", "commit.gpgsign=false", "commit", "-q", "-m"] := forall₂_writes_safe (by decide)
  have hempty : List.Forall₂ Writes (if allowEmpty then ["--allow-empty"] else [])
      (if allowEmpty then ["--allow-empty"] else []) := by
    cases allowEmpty <;> exact forall₂_writes_safe (by decide)
  have hdate : Writes "--date" "--date" := writes_safe (by decide) (by decide)
  rw [commitCommand_eq]
  exact Shell.calls_git <| List.rel_append hoptions <|
    .cons (writes_quote message) <| .cons hdate <| .cons (writes_quote date) hempty

theorem findCommand_eq (pattern : String) :
    "git " ++ " ".intercalate ("log" :: findArguments pattern) = " ".intercalate ["git", "log",
      "-1", "-E", Shell.quote ("--grep=" ++ pattern), commitFormat] := by
  rw [← String.toList_inj]
  simp [findArguments]

theorem calls_findCommand (pattern : String) :
    Shell.Calls ("git " ++ " ".intercalate ("log" :: findArguments pattern))
      ["git", "log", "-1", "-E", "--grep=" ++ pattern, "--format=%h %at"] := by
  have hoptions : List.Forall₂ Writes ["log", "-1", "-E"] ["log", "-1", "-E"] :=
    forall₂_writes_safe (by decide)
  rw [findCommand_eq]
  exact Shell.calls_git <| List.rel_append hoptions <|
    .cons (writes_quote _) <| .cons writes_commitFormat .nil

/-- Whatever the message of a commit or the pattern of a search holds, the shell hands it to git as
one argument, as it is. -/
theorem git_arguments_exact (p : Project) (s : Session) :
    (∀ (message : String) (time : Stamp) (allowEmpty : Bool), ∃ command,
      (p.gitCommit message time allowEmpty s).2.ran =
        ⟨p.root, command, some [("GIT_COMMITTER_DATE", time.text)]⟩ ::
          ⟨p.root, "git add --all", none⟩ :: s.ran ∧
      Shell.Calls command
        (["git", "-c", "commit.gpgsign=false", "commit", "-q", "-m", message,
          "--date", time.text] ++ if allowEmpty then ["--allow-empty"] else [])) ∧
    ∀ pattern : String, ∃ command,
      (p.gitFindCommit pattern s).2.ran = ⟨p.root, command, none⟩ :: s.ran ∧
      Shell.Calls command ["git", "log", "-1", "-E", "--grep=" ++ pattern, "--format=%h %at"] :=
  ⟨fun message time allowEmpty => ⟨_, rfl, calls_commitCommand message time.text allowEmpty⟩,
    fun pattern => ⟨_, rfl, calls_findCommand pattern⟩⟩

end Fallow.Project
