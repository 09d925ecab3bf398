import Fallow.Disk.Basic

/-!
# The files of a disk

`Disk.file?` sees a disk as its files alone. Creating directories changes no file, writing a file
changes the file at the place the path leads to and no other one, and removing takes away the files
at a place and below it.
-/

namespace Fallow

namespace Entry

/-- The entry below an entry at the end of names. -/
def at? : List String → Entry → Option Entry
  | [], e => some e
  | name :: rest, dir entries => (entries.lookup name).bind (at? rest)
  | _ :: _, file _ => none

def bytes? : Entry → Option (List UInt8)
  | file bytes => some bytes
  | dir _ => none

theorem at?_append (xs ys : List String) (e : Entry) :
    e.at? (xs ++ ys) = (e.at? xs).bind (at? ys) := by
  induction xs generalizing e with
  | nil => rfl
  | cons x xs ih =>
      cases e with
      | file bytes => rfl
      | dir entries =>
          rw [List.cons_append, at?, at?, Option.bind_assoc]
          exact congrArg _ (funext fun inner => ih inner)

theorem at?_singleton_dir (name : String) (entries : List (String × Entry)) :
    (dir entries).at? [name] = entries.lookup name := by
  rw [at?]
  cases entries.lookup name <;> rfl

theorem at?_cons_of_entries_eq_nil {e : Entry} (h : e.entries = []) (name : String)
    (rest : List String) : e.at? (name :: rest) = none := by
  cases e with
  | file bytes => rfl
  | dir entries =>
      obtain rfl : entries = [] := h
      rfl

end Entry

namespace Disk

theorem entryAt?_eq (names : List String) (entries : List (String × Entry)) :
    entryAt? names entries = (Entry.dir entries).at? names := by
  induction names, entries using entryAt?.induct with
  | case1 entries => rfl
  | case2 name entries => rw [entryAt?, Entry.at?_singleton_dir]
  | case3 name rest entries hrest inner hinner ih =>
      rw [entryAt?, hinner, Entry.at?, hinner]
      · exact ih
      · exact hrest
  | case4 name rest entries hrest hother =>
      obtain ⟨next, rest, rfl⟩ := List.exists_cons_of_ne_nil hrest
      rw [entryAt?, Entry.at?]
      · cases hentry : entries.lookup name with
        | none => rfl
        | some e =>
            cases e with
            | file bytes => rfl
            | dir inner => exact (hother inner hentry).elim
      · exact hrest

theorem get?_eq (d : Disk) (names : List String) :
    d.get? names = (Entry.dir d.top).at? names :=
  entryAt?_eq names d.top

/-- The bytes of the file at the end of names, if there is one. -/
def file? (d : Disk) (names : List String) : Option (List UInt8) :=
  (d.get? names).bind Entry.bytes?

theorem file?_eq_some_iff {d : Disk} {names : List String} {bytes : List UInt8} :
    d.file? names = some bytes ↔ d.get? names = some (.file bytes) := by
  rw [file?, Option.bind_eq_some_iff]
  constructor
  · rintro ⟨e, he, hbytes⟩
    cases e with
    | file old =>
        cases hbytes
        exact he
    | dir entries => cases hbytes
  · exact fun h => ⟨_, h, rfl⟩

theorem file?_eq_none_of_get?_eq_none {d : Disk} {names : List String} (h : d.get? names = none) :
    d.file? names = none := by
  rw [file?, h]
  rfl

theorem get?_concat {d : Disk} {parent : List String} {inner : List (String × Entry)}
    (h : d.get? parent = some (.dir inner)) (name : String) :
    d.get? (parent ++ [name]) = inner.lookup name := by
  rw [get?_eq] at h
  rw [get?_eq, Entry.at?_append, h, Option.bind_some, Entry.at?_singleton_dir]

/-- Only the top has no name, and the top is a directory. -/
theorem exists_concat_of_get?_ne {d : Disk} {names : List String}
    (h : ∀ entries, d.get? names ≠ some (.dir entries)) :
    ∃ parent name, names = parent ++ [name] := by
  rcases List.eq_nil_or_concat names with rfl | ⟨parent, name, rfl⟩
  · exact (h d.top rfl).elim
  · exact ⟨parent, name, List.concat_eq_append⟩

theorem exists_dir_of_get?_eq_file {d : Disk} {names : List String} {bytes : List UInt8}
    (h : d.get? names = some (.file bytes)) :
    ∃ inner, d.get? names.dropLast = some (.dir inner) := by
  have hfile : ∀ entries, d.get? names ≠ some (.dir entries) := by simp [h]
  obtain ⟨parent, name, rfl⟩ := exists_concat_of_get?_ne hfile
  rw [get?_eq, Entry.at?_append, Option.bind_eq_some_iff] at h
  obtain ⟨above, habove, hname⟩ := h
  rw [List.dropLast_concat]
  cases above with
  | file bytes => cases hname
  | dir inner => exact ⟨inner, by rw [get?_eq, habove]⟩

section Put

variable {e : Entry} {name : String} {inner : List (String × Entry)}

theorem bytes_at?_setEntry (he : e.entries = [])
    (hold : ∀ old, inner.lookup name = some old → old.entries = []) (names : List String) :
    ((Entry.dir (setEntry name e inner)).at? names).bind Entry.bytes? =
      if names = [name] then e.bytes? else ((Entry.dir inner).at? names).bind Entry.bytes? := by
  cases names with
  | nil => rfl
  | cons other rest =>
      rw [Entry.at?, Entry.at?]
      by_cases hother : other = name
      · subst hother
        rw [lookup_setEntry]
        -- Below the new entry there is nothing, as there was below the old one.
        cases rest with
        | nil => rw [if_pos rfl]; rfl
        | cons next rest =>
            rw [if_neg (by simp), Option.bind_some, Entry.at?_cons_of_entries_eq_nil he]
            cases hlookup : inner.lookup other with
            | none => rfl
            | some old =>
                rw [Option.bind_some, Entry.at?_cons_of_entries_eq_nil (hold old hlookup)]
      · rw [lookup_setEntry_of_ne _ _ hother, if_neg (by simp [hother])]

theorem putAt_cons (e : Entry) {first : String} {rest : List String} (hrest : rest ≠ [])
    {entries middle : List (String × Entry)} (h : entries.lookup first = some (.dir middle)) :
    putAt e (first :: rest) entries = setEntry first (.dir (putAt e rest middle)) entries := by
  rw [putAt, h]
  exact hrest

/-- An entry that holds nothing is put in a directory, in the place of an entry that holds
nothing. -/
theorem bytes_at?_putAt (he : e.entries = []) {parent : List String}
    {entries : List (String × Entry)} (hparent : (Entry.dir entries).at? parent = some (.dir inner))
    (hold : ∀ old, inner.lookup name = some old → old.entries = []) (names : List String) :
    ((Entry.dir (putAt e (parent ++ [name]) entries)).at? names).bind Entry.bytes? =
      if names = parent ++ [name] then e.bytes?
      else ((Entry.dir entries).at? names).bind Entry.bytes? := by
  -- Down the directories above the entry, each of which is set to its changed self.
  induction parent generalizing entries names with
  | nil =>
      cases hparent
      exact bytes_at?_setEntry he hold names
  | cons first parent ih =>
      rw [Entry.at?, Option.bind_eq_some_iff] at hparent
      obtain ⟨below, hbelow, hparent⟩ := hparent
      cases below with
      | file bytes => cases parent <;> cases hparent
      | dir middle =>
          rw [List.cons_append, putAt_cons e (by simp) hbelow]
          cases names with
          | nil => rfl
          | cons other rest =>
              rw [Entry.at?, Entry.at?]
              by_cases hother : other = first
              · subst hother
                rw [lookup_setEntry, hbelow, Option.bind_some, Option.bind_some, ih hparent]
                simp only [List.cons.injEq, true_and]
              · rw [lookup_setEntry_of_ne _ _ hother, if_neg (by simp [hother])]

theorem isSome_at?_setEntry
    (hold : ∀ old, inner.lookup name = some old → old.entries = []) {names : List String}
    (h : ((Entry.dir inner).at? names).isSome = true) :
    ((Entry.dir (setEntry name e inner)).at? names).isSome = true := by
  cases names with
  | nil => rfl
  | cons other rest =>
      rw [Entry.at?] at h ⊢
      by_cases hother : other = name
      · subst hother
        rw [lookup_setEntry]
        cases rest with
        | nil => rfl
        | cons next rest =>
            cases hlookup : inner.lookup other with
            | none => simp [hlookup] at h
            | some old =>
                rw [hlookup, Option.bind_some,
                  Entry.at?_cons_of_entries_eq_nil (hold old hlookup)] at h
                cases h
      · rwa [lookup_setEntry_of_ne _ _ hother]

/-- Putting an entry in the place of one that holds nothing takes no entry away. -/
theorem isSome_at?_putAt {parent : List String} {entries : List (String × Entry)}
    (hparent : (Entry.dir entries).at? parent = some (.dir inner))
    (hold : ∀ old, inner.lookup name = some old → old.entries = []) {names : List String}
    (h : ((Entry.dir entries).at? names).isSome = true) :
    ((Entry.dir (putAt e (parent ++ [name]) entries)).at? names).isSome = true := by
  induction parent generalizing entries names with
  | nil =>
      cases hparent
      exact isSome_at?_setEntry hold h
  | cons first parent ih =>
      rw [Entry.at?, Option.bind_eq_some_iff] at hparent
      obtain ⟨below, hbelow, hparent⟩ := hparent
      cases below with
      | file bytes => cases parent <;> cases hparent
      | dir middle =>
          rw [List.cons_append, putAt_cons e (by simp) hbelow]
          cases names with
          | nil => rfl
          | cons other rest =>
              rw [Entry.at?] at h ⊢
              by_cases hother : other = first
              · subst hother
                rw [hbelow, Option.bind_some] at h
                rw [lookup_setEntry, Option.bind_some]
                exact ih hparent h
              · rwa [lookup_setEntry_of_ne _ _ hother]

/-- Where no directory is, the entry holds nothing. -/
theorem entries_eq_nil_of_get?_ne {d : Disk} {parent : List String}
    (hplace : ∀ entries, d.get? (parent ++ [name]) ≠ some (.dir entries))
    (hparent : d.get? parent = some (.dir inner)) :
    ∀ old, inner.lookup name = some old → old.entries = [] := by
  intro old hlookup
  rw [get?_concat hparent, hlookup] at hplace
  cases old with
  | file bytes => rfl
  | dir entries => exact (hplace entries rfl).elim

/-- Putting an entry that holds nothing where no directory is changes one file at most. -/
theorem file?_put {d : Disk} {names : List String} (he : e.entries = [])
    (hplace : ∀ entries, d.get? names ≠ some (.dir entries))
    (hparent : d.get? names.dropLast = some (.dir inner)) (others : List String) :
    (d.put names e).file? others = if others = names then e.bytes? else d.file? others := by
  obtain ⟨parent, name, rfl⟩ := exists_concat_of_get?_ne hplace
  rw [List.dropLast_concat] at hparent
  have hold := entries_eq_nil_of_get?_ne hplace hparent
  rw [get?_eq] at hparent
  rw [file?, file?, get?_eq, get?_eq]
  exact bytes_at?_putAt he hparent hold others

/-- Every place that holds something holds something on the other disk. -/
def Within (d d' : Disk) : Prop :=
  ∀ names, (d.get? names).isSome = true → (d'.get? names).isSome = true

theorem Within.refl (d : Disk) : d.Within d := fun _ h => h

theorem Within.trans {d d' d'' : Disk} (h : d.Within d') (h' : d'.Within d'') : d.Within d'' :=
  fun names hnames => h' names (h names hnames)

theorem within_put {d : Disk} {names : List String}
    (hplace : ∀ entries, d.get? names ≠ some (.dir entries))
    (hparent : d.get? names.dropLast = some (.dir inner)) : d.Within (d.put names e) := by
  obtain ⟨parent, name, rfl⟩ := exists_concat_of_get?_ne hplace
  rw [List.dropLast_concat] at hparent
  have hold := entries_eq_nil_of_get?_ne hplace hparent
  intro others h
  rw [get?_eq] at hparent h ⊢
  exact isSome_at?_putAt hparent hold h

end Put

theorem follow_eq {d : Disk} {here names result : List String} (hnames : ".." ∉ names)
    (h : d.follow here names = .ok result) : result = names.reverse ++ here := by
  induction names generalizing here with
  | nil =>
      cases h
      rfl
  | cons name rest ih =>
      rw [List.mem_cons, not_or] at hnames
      rw [follow] at h
      split at h
      · cases h
      · cases h
      · rw [if_neg (Ne.symm hnames.1)] at h
        rw [ih hnames.2 h, List.reverse_cons, List.append_assoc, List.singleton_append]

theorem locate_eq {d : Disk} {p : Path} {names : List String} (hp : ".." ∉ p.names)
    (h : d.locate p = .ok names) : names = p.names := by
  rw [locate] at h
  cases hfollow : d.follow [] p.names with
  | error e =>
      rw [hfollow] at h
      cases h
  | ok result =>
      rw [hfollow] at h
      cases h
      rw [follow_eq hp hfollow, List.append_nil, List.reverse_reverse]

/-- The other disk has the same files, and whatever else was there. -/
structure Prepares (d d' : Disk) : Prop where
  file?_eq : d'.file? = d.file?
  within : d.Within d'

theorem Prepares.refl (d : Disk) : d.Prepares d :=
  ⟨rfl, .refl d⟩

theorem Prepares.trans {d d' d'' : Disk} (h : d.Prepares d') (h' : d'.Prepares d'') :
    d.Prepares d'' :=
  ⟨h'.file?_eq.trans h.file?_eq, h.within.trans h'.within⟩

/-- A new directory is no file. -/
theorem prepares_mkdirOne {d d' : Disk} {p : Path} (h : d.mkdirOne p = .ok d') :
    d.Prepares d' := by
  rw [mkdirOne] at h
  cases hlocate : d.locate p with
  | error e =>
      rw [hlocate] at h
      cases h
  | ok located =>
      rw [hlocate] at h
      simp only [bind, Except.bind] at h
      split at h
      · cases h
      · rename_i hnone hparent
        cases h
        refine ⟨funext fun names => ?_, within_put (by simp [hnone]) hparent⟩
        rw [file?_put rfl (by simp [hnone]) hparent]
        split
        · subst_vars
          exact (file?_eq_none_of_get?_eq_none hnone).symm
        · rfl
      · cases h

theorem prepares_mkdirHere (d : Disk) (p : Path) :
    d.Prepares (d.attempt (d.mkdirHere p)).1 := by
  rw [mkdirHere]
  cases hone : d.mkdirOne p with
  | ok d' => exact prepares_mkdirOne hone
  | error e =>
      simp only
      split
      · exact .refl d
      · exact .refl d

/-- Creating a directory with those above it changes no file. -/
theorem prepares_mkdir (d : Disk) (p : Path) : d.Prepares (d.mkdir p).1 := by
  suffices hlevels : ∀ levels (d : Disk) p, d.Prepares (mkdirUpTo levels d p).1 from hlevels _ d p
  intro levels
  induction levels with
  | zero => exact fun d _ => .refl d
  | succ levels ih =>
      intro d p
      rw [mkdirUpTo]
      split
      · split
        · exact .refl d
        · have habove := ih d p.parent
          cases hparent : mkdirUpTo levels d p.parent with
          | mk d' result =>
              rw [hparent] at habove
              cases result with
              | error e => exact habove
              | ok _ =>
                  rw [Change.ok_andThen]
                  exact habove.trans (prepares_mkdirHere d' p)
      · exact prepares_mkdirHere d p

theorem file?_mkdir (d : Disk) (p : Path) : (d.mkdir p).1.file? = d.file? :=
  (prepares_mkdir d p).file?_eq

section Write

variable {d d' : Disk} {p : Path} {bytes : List UInt8} {append : Bool}

/-- A write that succeeds puts a file where the path leads, and there is no directory. -/
theorem exists_put_of_writeFile (h : d.writeFile p bytes append = .ok d') :
    ∃ located inner, d.locate p = .ok located ∧
      (∀ entries, d.get? located ≠ some (.dir entries)) ∧
      d.get? located.dropLast = some (.dir inner) ∧
      d' = d.put located (.file ((if append then (d.file? located).getD [] else []) ++ bytes)) := by
  rw [writeFile] at h
  cases hlocate : d.locate p with
  | error e =>
      rw [hlocate] at h
      cases h
  | ok located =>
      rw [hlocate] at h
      simp only [bind, Except.bind] at h
      split at h
      · cases h
      · rename_i old hold
        cases h
        obtain ⟨inner, hparent⟩ := exists_dir_of_get?_eq_file hold
        refine ⟨located, inner, rfl, by simp [hold], hparent, ?_⟩
        rw [file?_eq_some_iff.2 hold]
        cases append <;> rfl
      · rename_i inner hnone hparent
        cases h
        refine ⟨located, inner, rfl, by simp [hnone], hparent, ?_⟩
        rw [file?_eq_none_of_get?_eq_none hnone]
        cases append <;> rfl
      · cases h

/-- Writing a file changes the file where the path leads, and no other one. -/
theorem file?_writeFile_of_locate {located : List String} (hlocate : d.locate p = .ok located)
    (h : d.writeFile p bytes append = .ok d') (names : List String) :
    d'.file? names = if names = located then
      some ((if append then (d.file? located).getD [] else []) ++ bytes) else d.file? names := by
  obtain ⟨_, inner, hlocate', hplace, hparent, rfl⟩ := exists_put_of_writeFile h
  cases hlocate.symm.trans hlocate'
  rw [file?_put rfl hplace hparent]
  rfl

theorem within_writeFile (h : d.writeFile p bytes append = .ok d') : d.Within d' := by
  obtain ⟨_, inner, _, hplace, hparent, rfl⟩ := exists_put_of_writeFile h
  exact within_put hplace hparent

end Write

/-- There is something above everything. -/
theorem isSome_get?_of_isPrefix {d : Disk} {names others : List String} {e : Entry}
    (h : d.get? others = some e) (habove : names <+: others) : (d.get? names).isSome = true := by
  obtain ⟨below, rfl⟩ := habove
  rw [get?_eq, Entry.at?_append, Option.bind_eq_some_iff] at h
  obtain ⟨above, hnames, _⟩ := h
  rw [get?_eq, hnames]
  rfl

section Read

variable {d : Disk} {p : Path} {e : Entry} {bytes : List UInt8}

/-- Above an entry there are directories. -/
theorem exists_dir_of_get?_append {xs ys : List String} {name : String}
    (h : d.get? (xs ++ name :: ys) = some e) : ∃ inner, d.get? xs = some (.dir inner) := by
  rw [get?_eq, Entry.at?_append, Option.bind_eq_some_iff] at h
  obtain ⟨above, habove, hbelow⟩ := h
  cases above with
  | file bytes => cases hbelow
  | dir inner => exact ⟨inner, by rw [get?_eq, habove]⟩

theorem follow_of_get? {here names : List String} (hnames : ".." ∉ names)
    (h : d.get? (here.reverse ++ names) = some e) :
    d.follow here names = .ok (names.reverse ++ here) := by
  induction names generalizing here with
  | nil => rfl
  | cons name rest ih =>
      rw [List.mem_cons, not_or] at hnames
      obtain ⟨inner, hinner⟩ := exists_dir_of_get?_append h
      have hrest : d.get? ((name :: here).reverse ++ rest) = some e := by
        rwa [List.reverse_cons, List.append_assoc, List.singleton_append]
      rw [follow, hinner]
      simp only [if_neg (Ne.symm hnames.1)]
      rw [ih hnames.2 hrest, List.reverse_cons, List.append_assoc, List.singleton_append]

theorem locate_of_get? (hp : ".." ∉ p.names) (h : d.get? p.names = some e) :
    d.locate p = .ok p.names := by
  have hfollow : d.follow [] p.names = .ok (p.names.reverse ++ []) := follow_of_get? hp h
  rw [locate, hfollow, List.append_nil]
  exact congrArg Except.ok (List.reverse_reverse _)

theorem lookup_eq_ok_iff (hp : ".." ∉ p.names) :
    d.lookup p = .ok e ↔ d.get? p.names = some e := by
  constructor
  · intro h
    rw [lookup] at h
    cases hlocate : d.locate p with
    | error error =>
        rw [hlocate] at h
        cases h
    | ok located =>
        obtain rfl := locate_eq hp hlocate
        rw [hlocate] at h
        simp only [bind, Except.bind] at h
        split at h
        · cases h
          assumption
        · cases h
  · intro h
    rw [lookup, locate_of_get? hp h]
    simp only [bind, Except.bind, h]
    rfl

theorem exists?_eq (hp : ".." ∉ p.names) : d.exists? p = (d.get? p.names).isSome := by
  rw [exists?]
  cases hget : d.get? p.names with
  | some e =>
      rw [(lookup_eq_ok_iff hp).2 hget]
      rfl
  | none =>
      cases hlookup : d.lookup p with
      | error e => rfl
      | ok e =>
          rw [(lookup_eq_ok_iff hp).1 hlookup] at hget
          cases hget

theorem readBytes_eq_ok_iff (hp : ".." ∉ p.names) :
    d.readBytes p = .ok bytes ↔ d.file? p.names = some bytes := by
  rw [file?_eq_some_iff, ← lookup_eq_ok_iff hp, readBytes]
  cases d.lookup p with
  | error e => simp [bind, Except.bind]
  | ok e => cases e <;> simp [bind, Except.bind, pure, Except.pure]

theorem readText_eq_ok_iff (hp : ".." ∉ p.names) {text : String} : d.readText p = .ok text ↔
    ∃ bytes, d.file? p.names = some bytes ∧
      ∃ s, Utf8.text? bytes = some s ∧ Text.readText s = text := by
  simp only [← readBytes_eq_ok_iff hp]
  rw [readText]
  cases d.readBytes p with
  | error e => simp [bind, Except.bind]
  | ok bytes =>
      cases htext : Utf8.text? bytes <;> simp [bind, Except.bind, pure, Except.pure, htext]

end Read

section Remove

variable {entries : List (String × Entry)} {names others : List String}

theorem lookup_dropEntry (name other : String) (entries : List (String × Entry)) :
    (dropEntry name entries).lookup other =
      if other = name then none else entries.lookup other := by
  induction entries with
  | nil => simp [dropEntry]
  | cons head rest ih =>
      obtain ⟨first, e⟩ := head
      rw [dropEntry] at ih
      by_cases hfirst : first = name
      · subst hfirst
        rw [dropEntry, List.filter_cons_of_neg (by simp), ih, List.lookup_cons]
        by_cases hother : other = first
        · simp [hother]
        · simp [hother, beq_false_of_ne hother]
      · rw [dropEntry, List.filter_cons_of_pos (by simpa using hfirst), List.lookup_cons, ih,
          List.lookup_cons]
        by_cases hother : other = first
        · simp [hother, hfirst]
        · simp [beq_false_of_ne hother]

theorem removeAt_cons {first : String} {rest : List String} (hrest : rest ≠ [])
    {middle : List (String × Entry)} (h : entries.lookup first = some (.dir middle)) :
    removeAt (first :: rest) entries = setEntry first (.dir (removeAt rest middle)) entries := by
  rw [removeAt, h]
  exact hrest

theorem removeAt_cons_of_not_dir {first : String} {rest : List String} (hrest : rest ≠ [])
    (h : ∀ middle, entries.lookup first ≠ some (.dir middle)) :
    removeAt (first :: rest) entries = entries := by
  rw [removeAt]
  · split
    · rename_i middle hmiddle
      exact (h middle hmiddle).elim
    · rfl
  · exact hrest

/-- Nothing is left at a place that was removed, nor below it. -/
theorem at?_removeAt_of_isPrefix (hnames : names ≠ []) (h : names <+: others) :
    (Entry.dir (removeAt names entries)).at? others = none := by
  induction names generalizing entries others with
  | nil => exact (hnames rfl).elim
  | cons first rest ih =>
      obtain ⟨below, rfl⟩ := h
      rw [List.cons_append]
      cases rest with
      | nil => rw [removeAt, Entry.at?, lookup_dropEntry, if_pos rfl, Option.bind_none]
      | cons next rest =>
          by_cases hdir : ∃ middle, entries.lookup first = some (.dir middle)
          · obtain ⟨middle, hmiddle⟩ := hdir
            rw [removeAt_cons (by simp) hmiddle, Entry.at?, lookup_setEntry, Option.bind_some]
            exact ih (by simp) (List.prefix_append _ _)
          · have hnot := not_exists.1 hdir
            rw [removeAt_cons_of_not_dir (by simp) hnot, Entry.at?]
            cases hfirst : entries.lookup first with
            | none => rfl
            | some e =>
                cases e with
                | file bytes => rfl
                | dir middle => exact (hnot middle hfirst).elim

/-- Removing leaves the files elsewhere. -/
theorem bytes_at?_removeAt (h : ¬ names <+: others) :
    ((Entry.dir (removeAt names entries)).at? others).bind Entry.bytes? =
      ((Entry.dir entries).at? others).bind Entry.bytes? := by
  induction names generalizing entries others with
  | nil => exact (h List.nil_prefix).elim
  | cons first rest ih =>
      cases others with
      | nil => rfl
      | cons other below =>
          rw [Entry.at?, Entry.at?]
          cases rest with
          | nil =>
              have hother : other ≠ first := by
                rintro rfl
                exact h (List.prefix_append [other] below)
              rw [removeAt, lookup_dropEntry, if_neg hother]
          | cons next rest =>
              by_cases hdir : ∃ middle, entries.lookup first = some (.dir middle)
              · obtain ⟨middle, hmiddle⟩ := hdir
                rw [removeAt_cons (by simp) hmiddle]
                by_cases hother : other = first
                · subst hother
                  rw [lookup_setEntry, hmiddle, Option.bind_some, Option.bind_some]
                  exact ih fun hrest => h (List.cons_prefix_cons.2 ⟨rfl, hrest⟩)
                · rw [lookup_setEntry_of_ne _ _ hother]
              · rw [removeAt_cons_of_not_dir (by simp) (not_exists.1 hdir)]

theorem get?_erase_of_isPrefix (d : Disk) (hnames : names ≠ []) (h : names <+: others) :
    (d.erase names).get? others = none := by
  rw [get?_eq]
  exact at?_removeAt_of_isPrefix hnames h

theorem file?_erase_of_not_isPrefix (d : Disk) (h : ¬ names <+: others) :
    (d.erase names).file? others = d.file? others := by
  rw [file?, file?, get?_eq, get?_eq]
  exact bytes_at?_removeAt h

theorem remove_of_get? {d : Disk} {p : Path} {e : Entry} (hp : ".." ∉ p.names)
    (h : d.get? p.names = some e) : d.remove p = (d.erase p.names, .ok ()) := by
  have hname : p.name ≠ ".." := by
    rw [Path.name]
    intro hlast
    cases hnames : p.names.getLast? with
    | none => simp [List.getLastD_eq_getLast?, hnames] at hlast
    | some last =>
        rw [List.getLastD_eq_getLast?, hnames, Option.getD_some] at hlast
        exact hp (hlast ▸ List.mem_of_getLast? hnames)
  simp [remove, locate_of_get? hp h, h, hname]

end Remove

end Disk

namespace Path

end Path
end Fallow
