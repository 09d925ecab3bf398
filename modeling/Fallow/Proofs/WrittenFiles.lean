import Fallow.Project.Basic
import Fallow.Proofs.DiskFiles
import Fallow.Proofs.Encoding

/-!
# Files that are written and read back

A write changes the file where its path leads, and no other one. So after any number of writes a
file holds what was written to it since it was last overwritten, piece after piece. Only reading
looks at line ends: a carriage return at the end of one piece and a line feed at the start of the
next one are read as one line feed.
-/

namespace Fallow

namespace Text

/-- A carriage return before a line feed, or alone, stands for a line feed; everything else stands
for itself. -/
inductive Unified : List Char → List Char → Prop
  | nil : Unified [] []
  | pair {s t : List Char} (h : Unified s t) : Unified ('\r' :: '\n' :: s) ('\n' :: t)
  | alone {s t : List Char} (hs : s.head? ≠ some '\n') (h : Unified s t) :
    Unified ('\r' :: s) ('\n' :: t)
  | other {c : Char} {s t : List Char} (hc : c ≠ '\r') (h : Unified s t) :
    Unified (c :: s) (c :: t)

theorem unified_unifyBreaks (s : List Char) : Unified s (unifyBreaks s) := by
  induction s using unifyBreaks.induct with
  | case1 => exact .nil
  | case2 rest ih =>
      rw [unifyBreaks]
      exact .pair ih
  | case3 c rest hpair ih =>
      rw [unifyBreaks]
      · by_cases hc : c = '\r'
        · subst hc
          rw [if_pos rfl]
          refine .alone ?_ ih
          intro hhead
          obtain ⟨below, rfl⟩ := List.head?_eq_some_iff.1 hhead
          exact hpair below rfl rfl
        · rw [if_neg hc]
          exact .other hc ih
      · exact hpair

end Text

namespace Project

/-- Where a write ends up, if it succeeds. -/
def landing? (p : Project) (d : Disk) (relPath : String) (bytes : List UInt8) (append : Bool) :
    Option (List String) :=
  (p.writeBytes d relPath bytes append).2.toOption.bind fun _ =>
    ((d.mkdir (p.pathOf relPath).parent).1.locate (p.pathOf relPath)).toOption

section Write

variable {p : Project} {d : Disk} {relPath : String} {bytes : List UInt8} {append : Bool}

/-- A write that fails leaves what creating the directories left; any other one writes the file. -/
theorem writeBytes_cases (p : Project) (d : Disk) (relPath : String) (bytes : List UInt8)
    (append : Bool) :
    (∃ e, p.writeBytes d relPath bytes append =
        ((d.mkdir (p.pathOf relPath).parent).1, .error e)) ∨
      ∃ d', (d.mkdir (p.pathOf relPath).parent).1.writeFile (p.pathOf relPath) bytes append =
          .ok d' ∧
        p.writeBytes d relPath bytes append = (d', .ok ()) := by
  rw [writeBytes]
  cases d.mkdir (p.pathOf relPath).parent with
  | mk d₁ made =>
      cases made with
      | error e => exact .inl ⟨e, rfl⟩
      | ok _ =>
          rw [Disk.Change.ok_andThen]
          cases d₁.writeFile (p.pathOf relPath) bytes append with
          | error e => exact .inl ⟨e, rfl⟩
          | ok d₂ => exact .inr ⟨d₂, rfl, rfl⟩

/-- A write changes the file where it ends up; one that fails changes no file. -/
theorem file?_writeBytes (names : List String) :
    (p.writeBytes d relPath bytes append).1.file? names =
      if p.landing? d relPath bytes append = some names then
        some ((if append then (d.file? names).getD [] else []) ++ bytes)
      else d.file? names := by
  have hfiles := Disk.file?_mkdir d (p.pathOf relPath).parent
  rcases p.writeBytes_cases d relPath bytes append with ⟨e, hfails⟩ | ⟨d', hwrite, hsucceeds⟩
  · have hlanding : p.landing? d relPath bytes append = none := by
      rw [landing?, hfails]
      rfl
    rw [hfails, hlanding, hfiles, if_neg (by simp)]
  · obtain ⟨located, _, hlocate, _⟩ := Disk.exists_put_of_writeFile hwrite
    have hlanding : p.landing? d relPath bytes append = some located := by
      rw [landing?, hsucceeds, hlocate]
      rfl
    rw [hsucceeds, Disk.file?_writeFile_of_locate hlocate hwrite, hlanding, hfiles]
    by_cases hnames : names = located
    · rw [if_pos hnames, if_pos (congrArg some hnames.symm), hnames]
    · rw [if_neg hnames, if_neg (by simpa using Ne.symm hnames)]

theorem within_writeBytes (p : Project) (d : Disk) (relPath : String) (bytes : List UInt8)
    (append : Bool) : d.Within (p.writeBytes d relPath bytes append).1 := by
  have hmkdir := (Disk.prepares_mkdir d (p.pathOf relPath).parent).within
  rcases p.writeBytes_cases d relPath bytes append with ⟨e, hfails⟩ | ⟨d', hwrite, hsucceeds⟩
  · rw [hfails]
    exact hmkdir
  · rw [hsucceeds]
    exact hmkdir.trans (Disk.within_writeFile hwrite)

theorem landing?_of_succeeds (hpath : ".." ∉ (p.pathOf relPath).names)
    (h : (p.writeBytes d relPath bytes append).2 = .ok ()) :
    p.landing? d relPath bytes append = some (p.pathOf relPath).names := by
  rcases p.writeBytes_cases d relPath bytes append with ⟨e, hfails⟩ | ⟨d', hwrite, hsucceeds⟩
  · rw [hfails] at h
    cases h
  · obtain ⟨located, _, hlocate, _⟩ := Disk.exists_put_of_writeFile hwrite
    rw [landing?, hsucceeds, hlocate, ← Disk.locate_eq hpath hlocate]
    rfl

end Write

/-- A piece of text for a file, which replaces its content or is put after it. -/
structure Writing where
  relPath : String
  contents : String
  append : Bool := false

namespace Writing

/-- The writing is one to the given path, however the path is spelled. -/
def GoesTo (w : Writing) (relPath : String) : Prop :=
  Path.ofText w.relPath = Path.ofText relPath

instance (w : Writing) (relPath : String) : Decidable (w.GoesTo relPath) :=
  inferInstanceAs (Decidable (_ = _))

end Writing

/-- Carries out writings one after the other, up to the first that fails. -/
def writeEach (p : Project) : List Writing → Disk → Disk.Change
  | [], d => (d, .ok ())
  | w :: rest, d => (p.write d w.relPath w.contents w.append).andThen (p.writeEach rest)

/-- A relative path that does not go up. -/
structure IsPlain (relPath : String) : Prop where
  relative : (Path.ofText relPath).isAbsolute = false
  inside : ".." ∉ (Path.ofText relPath).names

instance (relPath : String) : Decidable (IsPlain relPath) :=
  decidable_of_iff ((Path.ofText relPath).isAbsolute = false ∧ ".." ∉ (Path.ofText relPath).names)
    ⟨fun h => ⟨h.1, h.2⟩, fun h => ⟨h.relative, h.inside⟩⟩

/-- The directory of a project is known by its own names. -/
def IsResolved (p : Project) : Prop :=
  ".." ∉ p.root.names

section Paths

variable {p : Project} {relPath other : String}

theorem names_pathOf (h : IsPlain relPath) :
    (p.pathOf relPath).names = p.root.names ++ (Path.ofText relPath).names := by
  rw [pathOf, Path.join, h.relative]
  rfl

theorem IsResolved.notMem_pathOf (hp : p.IsResolved) (h : IsPlain relPath) :
    ".." ∉ (p.pathOf relPath).names := by
  rw [names_pathOf h, List.mem_append, not_or]
  exact ⟨hp, h.inside⟩

/-- Plain paths with the same names are the same path. -/
theorem IsPlain.ofText_eq (h : IsPlain relPath) (h' : IsPlain other)
    (hnames : (p.pathOf relPath).names = (p.pathOf other).names) :
    Path.ofText relPath = Path.ofText other := by
  have hrelative : ∀ q : Path, q.isAbsolute = false → q = ⟨"", q.names⟩ := by
    rintro ⟨anchor, names⟩ hq
    simpa [Path.isAbsolute] using hq
  rw [names_pathOf h, names_pathOf h', List.append_cancel_left_eq] at hnames
  rw [hrelative _ h.relative, hnames, ← hrelative _ h'.relative]

end Paths

section Runs

variable {p : Project} {d : Disk} {ws : List Writing} {relPath : String}

theorem writeEach_cons_of_ok {w : Writing}
    (h : (p.write d w.relPath w.contents w.append).2 = .ok ()) (rest : List Writing) :
    p.writeEach (w :: rest) d = p.writeEach rest (p.write d w.relPath w.contents w.append).1 := by
  rw [writeEach, Disk.Change.andThen, h]

theorem write_eq_ok_of_writeEach {w : Writing} (h : (p.writeEach (w :: ws) d).2 = .ok ()) :
    (p.write d w.relPath w.contents w.append).2 = .ok () := by
  rw [writeEach, Disk.Change.andThen] at h
  cases hwrite : (p.write d w.relPath w.contents w.append).2 with
  | error e =>
      rw [hwrite] at h
      cases h
  | ok _ => rfl

theorem writeEach_append_of_ok {before after : List Writing}
    (h : (p.writeEach (before ++ after) d).2 = .ok ()) :
    p.writeEach (before ++ after) d = p.writeEach after (p.writeEach before d).1 := by
  induction before generalizing d with
  | nil => rfl
  | cons w rest ih =>
      have hwrite := write_eq_ok_of_writeEach h
      rw [List.cons_append, writeEach_cons_of_ok hwrite] at h ⊢
      rw [writeEach_cons_of_ok hwrite, ih h]

/-- Writings leave the files to which none of them goes. -/
theorem file?_writeEach_of_ne (hp : p.IsResolved) (hplain : ∀ w ∈ ws, IsPlain w.relPath)
    (h : (p.writeEach ws d).2 = .ok ()) {names : List String}
    (hnames : ∀ w ∈ ws, (p.pathOf w.relPath).names ≠ names) :
    (p.writeEach ws d).1.file? names = d.file? names := by
  induction ws generalizing d with
  | nil => rfl
  | cons w rest ih =>
      rw [List.forall_mem_cons] at hplain hnames
      have hwrite := write_eq_ok_of_writeEach h
      have hlanding := landing?_of_succeeds (hp.notMem_pathOf hplain.1) hwrite
      rw [writeEach_cons_of_ok hwrite] at h ⊢
      rw [ih hplain.2 h hnames.2, write, file?_writeBytes, hlanding,
        if_neg (by simpa using hnames.1)]

/-- A file that is there or written to is there afterwards. -/
theorem isSome_file?_writeEach (hp : p.IsResolved) (hplain : ∀ w ∈ ws, IsPlain w.relPath)
    (h : (p.writeEach ws d).2 = .ok ())
    (hfile : (d.file? (p.pathOf relPath).names).isSome = true ∨ ∃ w ∈ ws, w.GoesTo relPath) :
    ((p.writeEach ws d).1.file? (p.pathOf relPath).names).isSome = true := by
  induction ws generalizing d with
  | nil => simpa [writeEach] using hfile
  | cons w rest ih =>
      rw [List.forall_mem_cons] at hplain
      have hwrite := write_eq_ok_of_writeEach h
      have hlanding := landing?_of_succeeds (hp.notMem_pathOf hplain.1) hwrite
      rw [writeEach_cons_of_ok hwrite] at h ⊢
      apply ih hplain.2 h
      rw [write, file?_writeBytes, hlanding]
      split
      · exact .inl rfl
      · rename_i hnames
        rcases hfile with hfile | ⟨v, hv, hgoes⟩
        · exact .inl hfile
        · rcases List.mem_cons.1 hv with rfl | hv
          · have hpath : p.pathOf v.relPath = p.pathOf relPath := congrArg p.root.join hgoes
            exact absurd (congrArg (some ·.names) hpath) hnames
          · exact .inr ⟨v, hv, hgoes⟩

/-- Pieces that are put after the content of a file stand there in their order. -/
theorem file?_writeEach_of_append (hp : p.IsResolved) (hplain : ∀ w ∈ ws, IsPlain w.relPath)
    (h : (p.writeEach ws d).2 = .ok ()) (hrel : IsPlain relPath)
    (happend : ∀ w ∈ ws, w.GoesTo relPath → w.append = true) :
    ((p.writeEach ws d).1.file? (p.pathOf relPath).names).getD [] =
      (d.file? (p.pathOf relPath).names).getD [] ++
        Utf8.encode (String.join ((ws.filter (·.GoesTo relPath)).map (·.contents))) := by
  induction ws generalizing d with
  | nil => simp [writeEach, Utf8.encode]
  | cons w rest ih =>
      rw [List.forall_mem_cons] at hplain happend
      have hwrite := write_eq_ok_of_writeEach h
      have hlanding := landing?_of_succeeds (hp.notMem_pathOf hplain.1) hwrite
      rw [writeEach_cons_of_ok hwrite] at h ⊢
      rw [ih hplain.2 h happend.2, write, file?_writeBytes, hlanding]
      by_cases hgoes : w.GoesTo relPath
      · have hpath : p.pathOf w.relPath = p.pathOf relPath := congrArg p.root.join hgoes
        rw [hpath, if_pos rfl, happend.1 hgoes, if_pos rfl, Option.getD_some,
          List.filter_cons_of_pos (by simpa using hgoes), List.map_cons, String.join_cons,
          Utf8.encode_append, List.append_assoc]
      · have hnames : (p.pathOf w.relPath).names ≠ (p.pathOf relPath).names := fun heq =>
          hgoes (hplain.1.ofText_eq hrel heq)
        rw [if_neg (by simpa using hnames), List.filter_cons_of_neg (by simpa using hgoes)]

/-- The pieces written to a path since it was last overwritten, or since it was missing. -/
inductive Latest (p : Project) (d : Disk) (relPath : String) (ws : List Writing) :
    List String → Prop
  | overwritten {before after : List Writing} {w : Writing} (hws : ws = before ++ w :: after)
    (hw : w.GoesTo relPath) (hfirst : w.append = false)
    (hafter : ∀ v ∈ after, v.GoesTo relPath → v.append = true) :
    Latest p d relPath ws (w.contents :: (after.filter (·.GoesTo relPath)).map (·.contents))
  | created (hmissing : d.exists? (p.pathOf relPath) = false) (hw : ∃ w ∈ ws, w.GoesTo relPath)
    (hws : ∀ w ∈ ws, w.GoesTo relPath → w.append = true) :
    Latest p d relPath ws ((ws.filter (·.GoesTo relPath)).map (·.contents))

theorem Latest.file?_writeEach {pieces : List String} (hlatest : p.Latest d relPath ws pieces)
    (hp : p.IsResolved) (hplain : ∀ w ∈ ws, IsPlain w.relPath)
    (h : (p.writeEach ws d).2 = .ok ()) (hrel : IsPlain relPath) :
    (p.writeEach ws d).1.file? (p.pathOf relPath).names =
      some (Utf8.encode (String.join pieces)) := by
  have hsome : ∀ {o : Option (List UInt8)} {bytes : List UInt8}, o.isSome = true →
      o.getD [] = bytes → o = some bytes := by
    rintro (_ | bytes') _ hisSome hgetD
    · cases hisSome
    · exact congrArg some hgetD
  cases hlatest with
  | @overwritten before after w hws hw hfirst hafter =>
      subst hws
      have hplain' := List.forall_mem_append.1 hplain
      rw [List.forall_mem_cons] at hplain'
      have hsplit := writeEach_append_of_ok h
      rw [hsplit] at h ⊢
      have hwrite := write_eq_ok_of_writeEach h
      have hpath : p.pathOf w.relPath = p.pathOf relPath := congrArg p.root.join hw
      have hlanding := landing?_of_succeeds (hp.notMem_pathOf hplain'.2.1) hwrite
      rw [writeEach_cons_of_ok hwrite] at h ⊢
      -- What was there before the overwriting piece does not matter.
      have hstep : (p.write (p.writeEach before d).1 w.relPath w.contents w.append).1.file?
          (p.pathOf relPath).names = some (Utf8.encode w.contents) := by
        rw [write, file?_writeBytes, hlanding, hpath, if_pos rfl, hfirst]
        rfl
      apply hsome (isSome_file?_writeEach hp hplain'.2.2 h (.inl (by rw [hstep]; rfl)))
      rw [file?_writeEach_of_append hp hplain'.2.2 h hrel hafter, hstep, String.join_cons,
        Utf8.encode_append]
      rfl
  | created hmissing hw hws =>
      have hnone : d.file? (p.pathOf relPath).names = none := by
        rw [Disk.exists?_eq (hp.notMem_pathOf hrel), Option.isSome_eq_false_iff,
          Option.isNone_iff_eq_none] at hmissing
        exact Disk.file?_eq_none_of_get?_eq_none hmissing
      apply hsome (isSome_file?_writeEach hp hplain h (.inr hw))
      rw [file?_writeEach_of_append hp hplain h hrel hws, hnone]
      rfl

/-- What is read of a plain path is decided by the file there. -/
theorem read_eq_ok_congr {d' : Disk} (hpath : ".." ∉ (p.pathOf relPath).names)
    (h : d'.file? (p.pathOf relPath).names = d.file? (p.pathOf relPath).names) {text : String} :
    p.read d' relPath = .ok text ↔ p.read d relPath = .ok text := by
  rw [read, read, Disk.readText_eq_ok_iff hpath, Disk.readText_eq_ok_iff hpath, h]

end Runs

/-- After any writings that succeed, a path reads as what was written to it since it was last
overwritten, or since it was missing, with its line ends unified as a whole; and a path to which
none of them goes reads as before. -/
theorem read_writeEach (p : Project) (d : Disk) (ws : List Writing) (relPath : String)
    (hp : p.IsResolved) (hplain : ∀ w ∈ ws, IsPlain w.relPath) (hrel : IsPlain relPath)
    (h : (p.writeEach ws d).2 = .ok ()) :
    (∀ pieces, p.Latest d relPath ws pieces →
      ∃ text, p.read (p.writeEach ws d).1 relPath = .ok text ∧
        Text.Unified (String.join pieces).toList text.toList) ∧
    ((∀ w ∈ ws, ¬ w.GoesTo relPath) → ∀ text,
      p.read (p.writeEach ws d).1 relPath = .ok text ↔ p.read d relPath = .ok text) := by
  have hpath := hp.notMem_pathOf hrel
  refine ⟨fun pieces hlatest => ?_, fun hother text => ?_⟩
  · have hfile := hlatest.file?_writeEach hp hplain h hrel
    refine ⟨Text.readText (String.join pieces), ?_, ?_⟩
    · exact (Disk.readText_eq_ok_iff hpath).2 ⟨_, hfile, _, Utf8.text?_encode _, rfl⟩
    · rw [Text.readText, String.toList_ofList]
      exact Text.unified_unifyBreaks _
  · apply read_eq_ok_congr hpath
    apply file?_writeEach_of_ne hp hplain h
    intro w hw hnames
    exact hother w hw ((hplain w hw).ofText_eq hrel hnames)

/-- A file is written in two pieces that meet within a line end, another file in between. -/
def crossedWritings : List Writing :=
  [⟨"a/b.rb", "zero", false⟩, ⟨"a/b.rb", "one\r", false⟩, ⟨"c.rb", "\r", true⟩,
    ⟨"./a//b.rb", "\ntwo\r", true⟩]

def crossedProject : Project :=
  ⟨⟨"/", ["work"]⟩⟩

def crossedDisk : Disk :=
  ⟨[("work", .dir [("old.rb", .file (Utf8.encode "old\r\n"))])]⟩

theorem read_writeEach_crossed :
    (crossedProject.writeEach crossedWritings crossedDisk).2 = .ok () ∧
      (∃ text, crossedProject.read
          (crossedProject.writeEach crossedWritings crossedDisk).1 "a/b.rb" = .ok text ∧
        Text.Unified "one\r\ntwo\r".toList text.toList) ∧
      (∃ text, crossedProject.read
          (crossedProject.writeEach crossedWritings crossedDisk).1 "c.rb" = .ok text ∧
        Text.Unified "\r".toList text.toList) ∧
      crossedProject.read
        (crossedProject.writeEach crossedWritings crossedDisk).1 "old.rb" =
          .ok "old\n" := by
  have hp : crossedProject.IsResolved := by
    rw [IsResolved]
    decide
  have hplain : ∀ w ∈ crossedWritings, IsPlain w.relPath := by decide
  have hrun : (crossedProject.writeEach crossedWritings crossedDisk).2 = .ok () := rfl
  refine ⟨hrun, ?_, ?_, ?_⟩
  · have hlatest : Latest crossedProject crossedDisk "a/b.rb" crossedWritings
        ["one\r", "\ntwo\r"] :=
      @Latest.overwritten _ _ _ _ [⟨"a/b.rb", "zero", false⟩]
        [⟨"c.rb", "\r", true⟩, ⟨"./a//b.rb", "\ntwo\r", true⟩] ⟨"a/b.rb", "one\r", false⟩ rfl
        (by decide) rfl (by decide)
    exact (read_writeEach _ _ _ "a/b.rb" hp hplain (by decide) hrun).1 _ hlatest
  · have hlatest : Latest crossedProject crossedDisk "c.rb" crossedWritings ["\r"] :=
      .created rfl (by decide) (by decide)
    exact (read_writeEach _ _ _ "c.rb" hp hplain (by decide) hrun).1 _ hlatest
  · exact ((read_writeEach _ _ _ "old.rb" hp hplain (by decide) hrun).2 (by decide) _).2
      rfl

end Project
end Fallow
