import Fallow.Project.Collect
import Fallow.Proofs.DiskFiles
import Fallow.Proofs.Keywords
import Fallow.Proofs.Order

/-!
# Collected files

Below a directory exactly those files are collected whose own path is wanted and none of whose
directories is excluded. Each of them is listed once, in the order of the paths. The names of a
path can be read back from its text, so that different files have different paths.
-/

namespace Fallow

namespace Entry

mutual

/-- The names in a directory are told apart and hold no slash, and so below. -/
def WellNamed : Entry → Prop
  | .file _ => True
  | .dir entries => (entries.map (·.1)).Nodup ∧ AllWellNamed entries

def AllWellNamed : List (String × Entry) → Prop
  | [] => True
  | (name, e) :: rest => '/' ∉ name.toList ∧ WellNamed e ∧ AllWellNamed rest

end

theorem AllWellNamed.of_mem {entries : List (String × Entry)} (h : AllWellNamed entries)
    {name : String} {e : Entry} (he : (name, e) ∈ entries) :
    '/' ∉ name.toList ∧ e.WellNamed := by
  induction entries with
  | nil => cases he
  | cons head rest ih =>
      obtain ⟨other, old⟩ := head
      rw [AllWellNamed] at h
      rcases List.mem_cons.1 he with heq | he
      · cases heq
        exact ⟨h.1, h.2.1⟩
      · exact ih h.2.2 he

theorem WellNamed.lookup_iff {entries : List (String × Entry)} (h : (dir entries).WellNamed)
    {name : String} {e : Entry} : entries.lookup name = some e ↔ (name, e) ∈ entries := by
  rw [WellNamed] at h
  exact Json.lookup_eq_some_iff_mem h.1

/-- No name on the way to an entry holds a slash. -/
theorem WellNamed.plain_of_at? {e found : Entry} (h : e.WellNamed) {names : List String}
    (hat : e.at? names = some found) : ∀ name ∈ names, '/' ∉ name.toList := by
  induction names generalizing e with
  | nil => simp
  | cons first rest ih =>
      cases e with
      | file bytes => cases hat
      | dir entries =>
          rw [at?, Option.bind_eq_some_iff] at hat
          obtain ⟨next, hnext, hat⟩ := hat
          have hmem := h.lookup_iff.1 hnext
          rw [WellNamed] at h
          obtain ⟨hfirst, hwell⟩ := h.2.of_mem hmem
          exact List.forall_mem_cons.2 ⟨hfirst, ih hwell hat⟩

/-- A directory is no file. -/
theorem ne_nil_of_at?_file {entries : List (String × Entry)} {names : List String}
    {bytes : List UInt8} (h : (dir entries).at? names = some (.file bytes)) : names ≠ [] := by
  rintro rfl
  cases h

end Entry

namespace Path

theorem slashPieces_of_notMem {s : List Char} (hs : '/' ∉ s) : slashPieces s = [s] := by
  induction s with
  | nil => rfl
  | cons c s ih =>
      rw [List.mem_cons, not_or] at hs
      rw [slashPieces, if_neg (Ne.symm hs.1), ih hs.2]

theorem slashPieces_append {s : List Char} (hs : '/' ∉ s) (rest : List Char) :
    slashPieces (s ++ '/' :: rest) = s :: slashPieces rest := by
  induction s with
  | nil => rw [List.nil_append, slashPieces, if_pos rfl]
  | cons c s ih =>
      rw [List.mem_cons, not_or] at hs
      rw [List.cons_append, slashPieces, if_neg (Ne.symm hs.1), ih hs.2]

/-- The suffix of a name begins at its last dot, if there is something on either side of it. -/
def HasSuffix (name : String) (suffix : List Char) : Prop :=
  ∃ stem tail, name.toList = stem ++ '.' :: tail ∧ stem ≠ [] ∧ tail ≠ [] ∧ '.' ∉ tail ∧
    suffix = '.' :: tail

theorem takeWhile_ne_dot {stem tail : List Char} (htail : '.' ∉ tail) :
    ((stem ++ '.' :: tail).reverse.takeWhile (· != '.')).reverse = tail := by
  have hplain : ∀ c ∈ tail.reverse, (c != '.') = true := by
    intro c hc
    rw [bne_iff_ne]
    rintro rfl
    exact htail (List.mem_reverse.1 hc)
  rw [List.reverse_append, List.reverse_cons, List.append_assoc,
    List.takeWhile_append_of_pos hplain]
  simp

theorem take_before_dot (stem tail : List Char) :
    (stem ++ '.' :: tail).take ((stem ++ '.' :: tail).length - tail.length - 1) = stem := by
  have hlength : (stem ++ '.' :: tail).length - tail.length - 1 = stem.length := by
    rw [List.length_append, List.length_cons]
    omega
  rw [hlength, List.take_left]

theorem suffixOf_eq {name : String} {stem tail : List Char}
    (hname : name.toList = stem ++ '.' :: tail) (htail : '.' ∉ tail) :
    suffixOf name = if tail ≠ [] ∧ stem ≠ [] then String.ofList ('.' :: tail) else "" := by
  have hdot : (stem ++ '.' :: tail).contains '.' = true := by simp
  simp only [suffixOf, hname, takeWhile_ne_dot htail, take_before_dot, hdot, Bool.true_and,
    Bool.and_eq_true, bne_iff_ne]

theorem suffixOf_of_notMem {name : String} (h : '.' ∉ name.toList) : suffixOf name = "" := by
  simp [suffixOf, h]

/-- A name has the suffix that is read off it, or none. -/
theorem suffixOf_eq_or (name : String) : (∃ suffix, HasSuffix name suffix ∧
    suffixOf name = String.ofList suffix) ∨ (∀ suffix, ¬ HasSuffix name suffix) ∧
      suffixOf name = "" := by
  by_cases hdot : '.' ∈ name.toList
  · obtain ⟨after, before, hs, hafter⟩ :=
      List.eq_append_cons_of_mem (List.mem_reverse.2 hdot)
    have hname : name.toList = before.reverse ++ '.' :: after.reverse := by
      rw [← List.reverse_reverse name.toList, hs]
      simp
    have htail : '.' ∉ after.reverse := by simpa using hafter
    have hsuffix := suffixOf_eq hname htail
    by_cases hsides : after.reverse ≠ [] ∧ before.reverse ≠ []
    · rw [if_pos hsides] at hsuffix
      exact .inl ⟨_, ⟨_, _, hname, hsides.2, hsides.1, htail, rfl⟩, hsuffix⟩
    · rw [if_neg hsides] at hsuffix
      refine .inr ⟨?_, hsuffix⟩
      rintro suffix ⟨stem, tail, hname', hstem, htail', hplain, -⟩
      -- the last dot is where it is, whichever way the name is cut there
      rw [suffixOf_eq hname' hplain, if_pos ⟨htail', hstem⟩] at hsuffix
      simp at hsuffix
  · refine .inr ⟨?_, suffixOf_of_notMem hdot⟩
    rintro suffix ⟨stem, tail, hname, -⟩
    exact hdot (by simp [hname])

end Path

namespace Collect

theorem slashPieces_pathText {names : List String} (hne : names ≠ [])
    (hnames : ∀ name ∈ names, '/' ∉ name.toList) :
    Path.slashPieces (pathText names).toList = names.map String.toList := by
  induction names with
  | nil => exact absurd rfl hne
  | cons first rest ih =>
      obtain ⟨hfirst, hrest⟩ := List.forall_mem_cons.1 hnames
      cases rest with
      | nil =>
          rw [pathText, String.intercalate_singleton, Path.slashPieces_of_notMem hfirst]
          rfl
      | cons second rest =>
          have htext : (pathText (first :: second :: rest)).toList =
              first.toList ++ '/' :: (pathText (second :: rest)).toList := by
            simp [pathText]
          rw [htext, Path.slashPieces_append hfirst, ih (by simp) hrest]
          rfl

theorem pathText_inj {names others : List String} (hne : names ≠ []) (hne' : others ≠ [])
    (hnames : ∀ name ∈ names, '/' ∉ name.toList) (hothers : ∀ name ∈ others, '/' ∉ name.toList)
    (h : pathText names = pathText others) : names = others := by
  have hpieces := slashPieces_pathText hne hnames
  rw [h, slashPieces_pathText hne' hothers] at hpieces
  exact (List.map_inj_right fun _ _ => String.toList_inj.1).1 hpieces.symm

/-- A file name with the suffix of a Ruby file, in capitals or not. -/
def HasRubySuffix (name : String) : Prop :=
  ∃ suffix, Path.HasSuffix name suffix ∧ String.ofList (suffix.map Text.toSmall) ∈ rubySuffixes

theorem isRuby_iff {name : String} : isRuby name = true ↔ HasRubySuffix name := by
  have hempty : "" ∉ rubySuffixes := by decide
  rw [isRuby, List.contains_iff_mem, Path.smallSuffixOf]
  rcases Path.suffixOf_eq_or name with ⟨suffix, hsuffix, heq⟩ | ⟨hnone, heq⟩
  · rw [heq, String.toList_ofList]
    constructor
    · exact fun hmem => ⟨suffix, hsuffix, hmem⟩
    · rintro ⟨other, ⟨stem, tail, hname, hstem, htail, hplain, rfl⟩, hmem⟩
      rw [Path.suffixOf_eq hname hplain, if_pos ⟨htail, hstem⟩] at heq
      have hsame := String.ofList_inj.1 heq
      exact hsame ▸ hmem
  · rw [heq]
    constructor
    · exact fun hmem => absurd hmem hempty
    · rintro ⟨suffix, hsuffix, -⟩
      exact absurd hsuffix (hnone suffix)

/-- The names that lead to a file that is collected. -/
structure Wanted (includes excludes names : List String) : Prop where
  ruby : ∃ name, names.getLast? = some name ∧ HasRubySuffix name
  kept : ∀ pattern ∈ excludes, Wildcard.fits pattern (pathText names) = false
  /-- The directories above the file, the root apart, are entered. -/
  entered : ∀ dir, dir ≠ [] → dir <+: names → dir ≠ names →
    ∀ pattern ∈ excludes, Wildcard.fits pattern (pathText dir ++ "/") = false
  included : includes = [] ∨ ∃ pattern ∈ includes, Wildcard.fits pattern (pathText names) = true

theorem fitsAny_eq_false {patterns : List String} {path : String} :
    Wildcard.fitsAny patterns path = false ↔
      ∀ pattern ∈ patterns, Wildcard.fits pattern path = false := by
  simp [Wildcard.fitsAny]

theorem wants_iff {includes excludes names : List String} (hne : names ≠ []) :
    wants includes excludes names = true ↔
      (∃ name, names.getLast? = some name ∧ HasRubySuffix name) ∧
        (∀ pattern ∈ excludes, Wildcard.fits pattern (pathText names) = false) ∧
          (includes = [] ∨
            ∃ pattern ∈ includes, Wildcard.fits pattern (pathText names) = true) := by
  have hlast : names.getLast? = some (names.getLastD "") := by
    rw [List.getLastD_eq_getLast?, List.getLast?_eq_some_getLast hne, Option.getD_some]
  have hincludes : Wildcard.fitsAny includes (pathText names) = true ↔
      ∃ pattern ∈ includes, Wildcard.fits pattern (pathText names) = true := List.any_eq_true
  simp only [wants, Bool.and_eq_true, Bool.or_eq_true, Bool.not_eq_true', fitsAny_eq_false,
    isRuby_iff, hlast, Option.some.injEq, exists_eq_left', and_assoc, List.isEmpty_iff, hincludes]

theorem prunes_eq_false {excludes names : List String} : prunes excludes names = false ↔
    names ≠ [] → ∀ pattern ∈ excludes, Wildcard.fits pattern (pathText names ++ "/") = false := by
  rw [prunes, Bool.and_eq_false_iff, fitsAny_eq_false]
  by_cases hnil : names = [] <;> simp [hnil]

/-- The directories above a file are the shorter beginnings of its names. -/
theorem wanted_iff {includes excludes names : List String} (hne : names ≠ []) :
    Wanted includes excludes names ↔ (∀ k < names.length, prunes excludes (names.take k) = false) ∧
      wants includes excludes names = true := by
  rw [wants_iff hne]
  constructor
  · rintro ⟨hruby, hkept, hentered, hincluded⟩
    refine ⟨fun k hk => prunes_eq_false.2 fun hdir => ?_, hruby, hkept, hincluded⟩
    refine hentered _ hdir (List.take_prefix k names) fun heq => ?_
    have hlength := congrArg List.length heq
    rw [List.length_take] at hlength
    omega
  · rintro ⟨hopen, hruby, hkept, hincluded⟩
    refine ⟨hruby, hkept, fun dir hdir hprefix hproper => ?_, hincluded⟩
    have htake := List.prefix_iff_eq_take.1 hprefix
    have hlength : dir.length < names.length := by
      refine Nat.lt_of_le_of_ne hprefix.length_le fun heq => hproper ?_
      exact hprefix.eq_of_length heq
    have hprunes := prunes_eq_false.1 (hopen dir.length hlength)
    rw [← htake] at hprunes
    exact hprunes hdir

section Tree

variable {includes excludes : List String}

/-- Below an entry there is a wanted file, and no directory on the way down to it is passed over. -/
def Reached (includes excludes names : List String) (e : Entry) (f : List String × Nat) : Prop :=
  ∃ rest bytes, e.at? rest = some (.file bytes) ∧ f = (names ++ rest, bytes.length) ∧
    (∀ k < rest.length, prunes excludes (names ++ rest.take k) = false) ∧
      wants includes excludes (names ++ rest) = true

theorem reached_file {names : List String} {bytes : List UInt8} {f : List String × Nat} :
    Reached includes excludes names (.file bytes) f ↔
      wants includes excludes names = true ∧ f = (names, bytes.length) := by
  constructor
  · rintro ⟨rest, content, hat, rfl, -, hwants⟩
    cases rest with
    | nil =>
        cases hat
        rw [List.append_nil] at hwants ⊢
        exact ⟨hwants, rfl⟩
    | cons name rest => cases hat
  · rintro ⟨hwants, rfl⟩
    exact ⟨[], bytes, rfl, by simp, by simp, by simpa using hwants⟩

/-- One step down: the directory itself is not passed over. -/
theorem reached_dir {names : List String} {entries : List (String × Entry)}
    {f : List String × Nat} : Reached includes excludes names (.dir entries) f ↔
      prunes excludes names = false ∧ ∃ name e, entries.lookup name = some e ∧
        Reached includes excludes (names ++ [name]) e f := by
  have hstep : ∀ (name : String) (rest : List String),
      names ++ [name] ++ rest = names ++ name :: rest := by simp
  constructor
  · rintro ⟨rest, bytes, hat, rfl, hopen, hwants⟩
    cases rest with
    | nil => cases hat
    | cons name rest =>
        rw [Entry.at?, Option.bind_eq_some_iff] at hat
        obtain ⟨e, he, hat⟩ := hat
        have hhere := hopen 0 (by simp)
        rw [List.take_zero, List.append_nil] at hhere
        refine ⟨hhere, name, e, he, rest, bytes, hat, by rw [hstep], fun k hk => ?_, ?_⟩
        · have hbelow := hopen (k + 1) (by rw [List.length_cons]; omega)
          rw [List.take_succ_cons, ← hstep] at hbelow
          exact hbelow
        · rw [hstep]
          exact hwants
  · rintro ⟨hhere, name, e, he, rest, bytes, hat, rfl, hopen, hwants⟩
    have hdown : (Entry.dir entries).at? (name :: rest) = some (.file bytes) := by
      rw [Entry.at?, he]
      exact hat
    refine ⟨name :: rest, bytes, hdown, by rw [hstep], fun k hk => ?_, ?_⟩
    · cases k with
      | zero => simpa using hhere
      | succ k =>
          rw [List.take_succ_cons, ← hstep]
          rw [List.length_cons] at hk
          exact hopen k (by omega)
    · rw [hstep] at hwants
      exact hwants

mutual

/-- The walk finds what is reached, and nothing else. -/
theorem mem_below {f : List String × Nat} : ∀ {e : Entry} {names : List String}, e.WellNamed →
    (f ∈ below includes excludes names e ↔ Reached includes excludes names e f)
  | .file bytes, names, _ => by
      rw [below, reached_file]
      split
      · rename_i hwants
        simp [hwants]
      · rename_i hwants
        simp [hwants]
  | .dir entries, names, h => by
      have hwell := h
      rw [Entry.WellNamed] at hwell
      rw [below, reached_dir]
      cases hprunes : prunes excludes names with
      | true => simp
      | false =>
          simp only [Bool.false_eq_true, if_false, true_and, h.lookup_iff]
          exact mem_among hwell.2

theorem mem_among {f : List String × Nat} : ∀ {entries : List (String × Entry)}
    {names : List String}, Entry.AllWellNamed entries →
    (f ∈ among includes excludes names entries ↔ ∃ name e, (name, e) ∈ entries ∧
      Reached includes excludes (names ++ [name]) e f)
  | [], _, _ => by simp [among]
  | (name, e) :: rest, names, h => by
      rw [Entry.AllWellNamed] at h
      rw [among, List.mem_append, mem_below h.2.1, mem_among h.2.2]
      constructor
      · rintro (hf | ⟨other, inner, hmem, hf⟩)
        · exact ⟨name, e, List.mem_cons_self, hf⟩
        · exact ⟨other, inner, List.mem_cons_of_mem _ hmem, hf⟩
      · rintro ⟨other, inner, hmem, hf⟩
        rcases List.mem_cons.1 hmem with heq | hmem
        · cases heq
          exact .inl hf
        · exact .inr ⟨other, inner, hmem, hf⟩

end

/-- What is reached through a name has that name in its path. -/
theorem Reached.exists_names {names : List String} {name : String} {e : Entry}
    {f : List String × Nat} (h : Reached includes excludes (names ++ [name]) e f) :
    ∃ rest, f.1 = names ++ name :: rest := by
  obtain ⟨rest, bytes, _, rfl, _⟩ := h
  exact ⟨rest, by simp⟩

mutual

/-- No file is found twice. -/
theorem nodup_below : ∀ {e : Entry} {names : List String}, e.WellNamed →
    ((below includes excludes names e).map (·.1)).Nodup
  | .file bytes, names, _ => by
      rw [below]
      split <;> simp
  | .dir entries, names, h => by
      rw [Entry.WellNamed] at h
      rw [below]
      split
      · simp
      · exact nodup_among h.1 h.2

theorem nodup_among : ∀ {entries : List (String × Entry)} {names : List String},
    (entries.map (·.1)).Nodup → Entry.AllWellNamed entries →
    ((among includes excludes names entries).map (·.1)).Nodup
  | [], _, _, _ => by simp [among]
  | (name, e) :: rest, names, hnodup, h => by
      rw [List.map_cons, List.nodup_cons] at hnodup
      rw [Entry.AllWellNamed] at h
      rw [among, List.map_append, List.nodup_append]
      refine ⟨nodup_below h.2.1, nodup_among hnodup.2 h.2.2, ?_⟩
      intro path hpath path' hpath' heq
      obtain ⟨f, hf, rfl⟩ := List.mem_map.1 hpath
      obtain ⟨g, hg, rfl⟩ := List.mem_map.1 hpath'
      obtain ⟨other, inner, hmem, hreached⟩ := (mem_among h.2.2).1 hg
      obtain ⟨above, habove⟩ := ((mem_below h.2.1).1 hf).exists_names
      obtain ⟨below, hbelow⟩ := hreached.exists_names
      rw [habove, hbelow] at heq
      obtain ⟨rfl, -⟩ := List.cons.inj (List.append_cancel_left heq)
      exact hnodup.1 (List.mem_map.2 ⟨_, hmem, rfl⟩)

end

end Tree

variable {disk : Disk} {root : Path} {entries : List (String × Entry)}
  {includes excludes : List String}

/-- The collected files are the wanted files of the tree. -/
theorem mem_files (hroot : disk.lookup root = .ok (.dir entries))
    (htree : (Entry.dir entries).WellNamed) {f : FileInfo} :
    f ∈ files disk root includes excludes ↔ ∃ names bytes,
      (Entry.dir entries).at? names = some (.file bytes) ∧
        Wanted includes (defaultExcludes ++ excludes) names ∧
          f = info root (names, bytes.length) := by
  have hwell := htree
  rw [Entry.WellNamed] at hwell
  have hroot' : ∀ file, file ∈ among includes (defaultExcludes ++ excludes) [] entries ↔
      Reached includes (defaultExcludes ++ excludes) [] (.dir entries) file := by
    intro file
    rw [mem_among hwell.2, reached_dir]
    simp only [htree.lookup_iff, prunes, List.isEmpty_nil, Bool.not_true, Bool.false_and, true_and]
  have hne := @Entry.ne_nil_of_at?_file entries
  rw [files, hroot]
  simp only [mem_sortedBy, List.mem_map, hroot', Reached, List.nil_append]
  constructor
  · rintro ⟨file, ⟨names, bytes, hat, rfl, hwanted⟩, rfl⟩
    exact ⟨names, bytes, hat, (wanted_iff (hne hat)).2 hwanted, rfl⟩
  · rintro ⟨names, bytes, hat, hwanted, rfl⟩
    exact ⟨_, ⟨names, bytes, hat, rfl, (wanted_iff (hne hat)).1 hwanted⟩, rfl⟩

theorem relPath_inj (htree : (Entry.dir entries).WellNamed) {names others : List String}
    {bytes content : List UInt8} (h : (Entry.dir entries).at? names = some (.file bytes))
    (h' : (Entry.dir entries).at? others = some (.file content))
    (htext : pathText names = pathText others) : names = others := by
  exact pathText_inj (Entry.ne_nil_of_at?_file h) (Entry.ne_nil_of_at?_file h')
    (htree.plain_of_at? h) (htree.plain_of_at? h') htext

theorem nodup_relPath (htree : (Entry.dir entries).WellNamed) (root : Path)
    (includes excludes : List String) :
    (((among includes excludes [] entries).map (info root)).map (·.relPath)).Nodup := by
  have hwell := htree
  rw [Entry.WellNamed] at hwell
  have hnames : (among includes excludes [] entries).Pairwise fun f g => f.1 ≠ g.1 :=
    List.pairwise_map.1 (nodup_among hwell.1 hwell.2)
  have hfile : ∀ f ∈ among includes excludes [] entries, ∃ bytes,
      (Entry.dir entries).at? f.1 = some (.file bytes) := by
    intro f hf
    obtain ⟨name, e, hmem, rest, bytes, hat, rfl, _⟩ := (mem_among hwell.2).1 hf
    refine ⟨bytes, ?_⟩
    rw [List.nil_append, List.singleton_append, Entry.at?, htree.lookup_iff.2 hmem]
    exact hat
  rw [List.map_map]
  refine List.pairwise_map.2 (hnames.imp_of_mem ?_)
  intro f g hf hg hne htext
  obtain ⟨bytes, hat⟩ := hfile f hf
  obtain ⟨content, hat'⟩ := hfile g hg
  exact hne (relPath_inj htree hat hat' htext)

theorem pairwise_files (hroot : disk.lookup root = .ok (.dir entries))
    (htree : (Entry.dir entries).WellNamed) :
    ((files disk root includes excludes).map (·.relPath)).Pairwise (· < ·) := by
  have hnodup := nodup_relPath htree root includes (defaultExcludes ++ excludes)
  have htrans : Std.TransCmp fun a b : FileInfo => textOrder a.relPath b.relPath :=
    transCmp_on FileInfo.relPath textOrder
  rw [files, hroot]
  have hsorted := @pairwise_sortedBy _ _ htrans
    ((among includes (defaultExcludes ++ excludes) [] entries).map (info root))
  have hapart := (((perm_sortedBy (fun a b : FileInfo => textOrder a.relPath b.relPath) _).map
    (·.relPath)).nodup_iff).2 hnodup
  refine List.pairwise_map.2 ((hsorted.and (List.pairwise_map.1 hapart)).imp ?_)
  exact fun h => lt_of_isLE_textOrder h.1 h.2

/-- Every file below a directory is collected exactly if it is wanted, and it is listed once, in the
order of the paths. -/
theorem files_exact (disk : Disk) (root : Path) (entries : List (String × Entry))
    (includes excludes : List String) (hroot : disk.lookup root = .ok (.dir entries))
    (htree : (Entry.dir entries).WellNamed) :
    ((files disk root includes excludes).map (·.relPath)).Pairwise (· < ·) ∧
      (∀ f ∈ files disk root includes excludes, ∃ names bytes,
        (Entry.dir entries).at? names = some (.file bytes) ∧
          f = ⟨{ root with names := root.names ++ names }, pathText names, bytes.length,
            Path.smallSuffixOf (names.getLastD "")⟩) ∧
      ∀ names bytes, (Entry.dir entries).at? names = some (.file bytes) →
        ((∃ f ∈ files disk root includes excludes, f.relPath = pathText names) ↔
          Wanted includes (defaultExcludes ++ excludes) names) := by
  refine ⟨?_, fun f hf => ?_, fun names bytes hat => ⟨?_, fun hwanted => ?_⟩⟩
  · exact pairwise_files hroot htree
  · obtain ⟨names, bytes, hat, _, rfl⟩ := (mem_files hroot htree).1 hf
    exact ⟨names, bytes, hat, rfl⟩
  · rintro ⟨f, hf, hpath⟩
    obtain ⟨others, content, hat', hwanted, rfl⟩ := (mem_files hroot htree).1 hf
    rw [relPath_inj htree hat hat' hpath.symm]
    exact hwanted
  · exact ⟨_, (mem_files hroot htree).2 ⟨names, bytes, hat, hwanted, rfl⟩, rfl⟩

/-- A project with a vendored file, a file in an excluded directory and a text. -/
def sampleEntries : List (String × Entry) :=
  [("vendor", .dir [("v.rb", .file [])]), ("notes.txt", .file []),
    ("app", .dir [("deep", .dir [("b.rb", .file [])]), ("a.RB", .file [35])])]

theorem wellNamed_sample : (Entry.dir sampleEntries).WellNamed := by
  simp [Entry.WellNamed, Entry.AllWellNamed, sampleEntries]

theorem files_exact_sample :
    (⟨sampleEntries⟩ : Disk).lookup ⟨"/", []⟩ = .ok (.dir sampleEntries) ∧
      (Entry.dir sampleEntries).WellNamed ∧
      (∃ f ∈ files ⟨sampleEntries⟩ ⟨"/", []⟩ ["app/*"] ["*/deep/"], f.relPath = "app/a.RB") ∧
      ¬ ∃ f ∈ files ⟨sampleEntries⟩ ⟨"/", []⟩ ["app/*"] ["*/deep/"],
        f.relPath = "app/deep/b.rb" := by
  obtain ⟨_, _, hiff⟩ := files_exact ⟨sampleEntries⟩ ⟨"/", []⟩ sampleEntries ["app/*"] ["*/deep/"]
    rfl wellNamed_sample
  refine ⟨rfl, wellNamed_sample, (hiff ["app", "a.RB"] [35] rfl).2 ?_, ?_⟩
  · rw [wanted_iff (by simp)]
    decide
  · intro hfound
    have hentered := ((hiff ["app", "deep", "b.rb"] [] rfl).1 hfound).entered ["app", "deep"]
      (by simp) (by simp) (by simp) "*/deep/" (by simp)
    revert hentered
    decide

end Collect
end Fallow
