import Fallow.Proofs.Collected
import Fallow.Proofs.Matching

/-!
# Passing over directories

A pattern that ends in a star goes on matching when a path is continued. If all exclude patterns do,
a directory that is passed over holds no file that would be wanted by its own path. Not entering it
then makes no difference: the files are those that a filter leaves of all files there are.
-/

namespace Fallow

namespace Wildcard

/-- The last character of a pattern is a star. -/
def EndsInStar (pattern : String) : Prop :=
  pattern.toList.getLast? = some '*'

instance (pattern : String) : Decidable (EndsInStar pattern) :=
  inferInstanceAs (Decidable (_ = _))

theorem getLast?_of_cons {c d : Char} {s : List Char} (h : (c :: s).getLast? = some d)
    (hc : c ≠ d) : s.getLast? = some d := by
  cases s with
  | nil => exact absurd (Option.some.inj h) hc
  | cons e s => rwa [List.getLast?_cons_cons] at h

/-- No set swallows a star at the end, since it would end in a bracket. -/
theorem Reads.exists_concat_star {s : List Char} {parts : List Part} (h : Reads s parts)
    (hs : s.getLast? = some '*') : ∃ front, parts = front ++ [.star] := by
  induction h with
  | nil => cases hs
  | @star s parts h ih =>
      cases s with
      | nil =>
          cases h
          exact ⟨[], rfl⟩
      | cons c s =>
          rw [List.getLast?_cons_cons] at hs
          obtain ⟨front, rfl⟩ := ih hs
          exact ⟨.star :: front, rfl⟩
  | any h ih =>
      obtain ⟨front, rfl⟩ := ih (getLast?_of_cons hs (by decide))
      exact ⟨.any :: front, rfl⟩
  | @set s body rest negated items parts hset hitems h ih =>
      have hclosing : (']' :: rest).getLast? = some '*' := by
        have hlast := getLast?_of_cons hs (by decide)
        rw [hset.text, ← List.append_assoc, List.getLast?_append_of_ne_nil _ (by simp)] at hlast
        exact hlast
      obtain ⟨front, rfl⟩ := ih (getLast?_of_cons hclosing (by decide))
      exact ⟨.set ⟨negated, items⟩ :: front, rfl⟩
  | bracket hopen h ih =>
      obtain ⟨front, rfl⟩ := ih (getLast?_of_cons hs (by decide))
      exact ⟨.literal '[' :: front, rfl⟩
  | @literal c s parts hstar hany hbracket h ih =>
      obtain ⟨front, rfl⟩ := ih (getLast?_of_cons hs hstar)
      exact ⟨.literal c :: front, rfl⟩

/-- If the last taker is content with more, so are all of them together. -/
theorem Splits.append {α : Type} {R : α → List Char → Prop} {last : α}
    (hlast : ∀ piece more, R last piece → R last (piece ++ more)) {front : List α}
    {s : List Char} (h : Splits R (front ++ [last]) s) (more : List Char) :
    Splits R (front ++ [last]) (s ++ more) := by
  induction front generalizing s with
  | nil =>
      rw [List.nil_append, splits_cons] at h ⊢
      obtain ⟨piece, rest, rfl, htakes, hrest⟩ := h
      rw [splits_nil.1 hrest, List.append_nil]
      exact ⟨piece ++ more, [], (List.append_nil _).symm, hlast piece more htakes, splits_nil.2 rfl⟩
  | cons a front ih =>
      rw [List.cons_append, splits_cons] at h ⊢
      obtain ⟨piece, rest, rfl, htakes, hrest⟩ := h
      exact ⟨piece, rest ++ more, List.append_assoc .., htakes, ih hrest⟩

/-- A path that is matched can be continued at will. -/
theorem EndsInStar.fits_append {pattern : String} (h : EndsInStar pattern) {path : String}
    (hfits : fits pattern path = true) (more : String) : fits pattern (path ++ more) = true := by
  obtain ⟨parts, hparts⟩ := Reads.exists_parts pattern.toList
  obtain ⟨front, rfl⟩ := hparts.exists_concat_star h
  rw [fits_iff_splits hparts] at hfits ⊢
  rw [String.toList_append]
  exact hfits.append (fun _ _ _ => trivial) more.toList

end Wildcard

namespace Collect

mutual

/-- All the files at or below an entry, by the names that lead to them and their size. -/
def everyFile (names : List String) : Entry → List (List String × Nat)
  | .file bytes => [(names, bytes.length)]
  | .dir entries => everyFileAmong names entries

def everyFileAmong (names : List String) : List (String × Entry) → List (List String × Nat)
  | [] => []
  | (name, e) :: rest => everyFile (names ++ [name]) e ++ everyFileAmong names rest

end

/-- The Ruby files below a directory that are wanted by their own path, whichever directories they
are in. -/
def filteredFiles (disk : Disk) (root : Path) (includes excludes : List String) :
    List FileInfo :=
  match disk.lookup root with
  | .ok (.dir entries) =>
    let wanted := (everyFileAmong [] entries).filter fun f =>
      wants includes (defaultExcludes ++ excludes) f.1
    sortedBy (fun a b => textOrder a.relPath b.relPath) (wanted.map (info root))
  | _ => []

mutual

theorem exists_of_mem_everyFile {f : List String × Nat} : ∀ {e : Entry} {names : List String},
    f ∈ everyFile names e → ∃ rest, f.1 = names ++ rest
  | .file bytes, names, h => by
      rw [everyFile, List.mem_singleton] at h
      exact ⟨[], by rw [h, List.append_nil]⟩
  | .dir entries, names, h => by
      rw [everyFile] at h
      obtain ⟨name, rest, heq⟩ := exists_of_mem_everyFileAmong h
      exact ⟨name :: rest, heq⟩

/-- A file in a directory has names beyond those of the directory. -/
theorem exists_of_mem_everyFileAmong {f : List String × Nat} :
    ∀ {entries : List (String × Entry)} {names : List String},
    f ∈ everyFileAmong names entries → ∃ name rest, f.1 = names ++ name :: rest
  | [], _, h => by cases h
  | (name, e) :: others, names, h => by
      rw [everyFileAmong, List.mem_append] at h
      rcases h with h | h
      · obtain ⟨rest, heq⟩ := exists_of_mem_everyFile h
        exact ⟨name, rest, by rw [heq, List.append_assoc]; rfl⟩
      · exact exists_of_mem_everyFileAmong h

end

section Excluding

variable {includes excludes : List String}

/-- What is below a directory that is passed over is excluded by its own path too. -/
theorem not_wants_of_prunes (hstar : ∀ pattern ∈ excludes, Wildcard.EndsInStar pattern)
    {names : List String} (h : prunes excludes names = true) (name : String)
    (rest : List String) : wants includes excludes (names ++ name :: rest) = false := by
  rw [prunes, Bool.and_eq_true, Bool.not_eq_true', List.isEmpty_eq_false_iff, Wildcard.fitsAny,
    List.any_eq_true] at h
  obtain ⟨hne, pattern, hmem, hfits⟩ := h
  have hpath : pathText (names ++ name :: rest) =
      pathText names ++ "/" ++ pathText (name :: rest) :=
    String.intercalate_append_of_ne_nil hne (by simp)
  have hexcluded : Wildcard.fitsAny excludes (pathText (names ++ name :: rest)) = true := by
    rw [hpath, Wildcard.fitsAny, List.any_eq_true]
    exact ⟨pattern, hmem, (hstar pattern hmem).fits_append hfits _⟩
  rw [wants, hexcluded, Bool.not_true, Bool.and_false, Bool.false_and]

mutual

/-- The walk finds what a filter leaves of all files. -/
theorem below_eq_filter (hstar : ∀ pattern ∈ excludes, Wildcard.EndsInStar pattern) :
    ∀ (e : Entry) (names : List String), below includes excludes names e =
      (everyFile names e).filter fun f => wants includes excludes f.1
  | .file bytes, names => by
      rw [below, everyFile, List.filter_singleton]
      cases wants includes excludes names <;> rfl
  | .dir entries, names => by
      rw [below, everyFile]
      by_cases hprunes : prunes excludes names = true
      · rw [if_pos hprunes, eq_comm, List.filter_eq_nil_iff]
        intro f hf
        obtain ⟨name, rest, heq⟩ := exists_of_mem_everyFileAmong hf
        rw [heq, not_wants_of_prunes hstar hprunes]
        exact Bool.false_ne_true
      · rw [if_neg hprunes, among_eq_filter hstar entries names]

theorem among_eq_filter (hstar : ∀ pattern ∈ excludes, Wildcard.EndsInStar pattern) :
    ∀ (entries : List (String × Entry)) (names : List String),
      among includes excludes names entries =
        (everyFileAmong names entries).filter fun f => wants includes excludes f.1
  | [], _ => rfl
  | (name, e) :: rest, names => by
      rw [among, everyFileAmong, List.filter_append, below_eq_filter hstar e,
        among_eq_filter hstar rest]

end

end Excluding

theorem endsInStar_of_mem_defaultExcludes :
    ∀ pattern ∈ defaultExcludes, Wildcard.EndsInStar pattern := by
  decide

/-- If all exclude patterns end in a star, as those that are always there do, passing over
directories changes nothing. -/
theorem files_eq_filteredFiles (disk : Disk) (root : Path) (includes excludes : List String)
    (hstar : ∀ pattern ∈ excludes, Wildcard.EndsInStar pattern) :
    files disk root includes excludes = filteredFiles disk root includes excludes := by
  have hall : ∀ pattern ∈ defaultExcludes ++ excludes, Wildcard.EndsInStar pattern := by
    intro pattern hmem
    rcases List.mem_append.1 hmem with hmem | hmem
    · exact endsInStar_of_mem_defaultExcludes pattern hmem
    · exact hstar pattern hmem
  rw [files, filteredFiles]
  cases hroot : disk.lookup root with
  | error e => rfl
  | ok entry =>
      cases entry with
      | file bytes => rfl
      | dir entries => simp only [among_eq_filter hall]

theorem files_eq_filteredFiles_sample :
    (∀ pattern ∈ ["app/[!a]*"], Wildcard.EndsInStar pattern) ∧
      prunes (defaultExcludes ++ ["app/[!a]*"]) ["app", "deep"] = true ∧
      (files ⟨sampleEntries⟩ ⟨"/", []⟩ [] ["app/[!a]*"]).map (·.relPath) = ["app/a.RB"] := by
  have hstar : ∀ pattern ∈ ["app/[!a]*"], Wildcard.EndsInStar pattern := by decide
  refine ⟨hstar, by decide, ?_⟩
  have hwanted : ((everyFileAmong [] sampleEntries).filter fun f =>
      wants [] (defaultExcludes ++ ["app/[!a]*"]) f.1) = [(["app", "a.RB"], 1)] := by decide
  have hroot : (⟨sampleEntries⟩ : Disk).lookup ⟨"/", []⟩ = .ok (.dir sampleEntries) := rfl
  rw [files_eq_filteredFiles _ _ _ _ hstar, filteredFiles, hroot]
  simp only [hwanted]
  simp [sortedBy, info, pathText]

end Collect
end Fallow
