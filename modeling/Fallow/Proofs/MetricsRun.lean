import Fallow.Project.Sorbet
import Fallow.Proofs.WrittenFiles

/-!
# The metrics of a run

A run of the type checker reports the metrics file that lies in the project after the command, and
removes it. If the command wrote the file, or nothing lay there before, this is the file of the run,
and no other file is lost. But what lies there already and is not written by the command is reported
and removed as if it were.
-/

namespace Fallow

namespace Session

/-- Where writes end up that succeed, with their contents, one after the other. -/
def landed (home : Path) : List (String × List UInt8) → Disk → List (List String × List UInt8)
  | [], _ => []
  | w :: rest, d =>
    (((⟨home⟩ : Project).landing? d w.1 w.2 false).map (·, w.2)).toList ++
      landed home rest ((⟨home⟩ : Project).writeBytes d w.1 w.2).1

/-- The disk after the next command. -/
def diskAfter (s : Session) : Disk :=
  writeAll s.home s.disk (s.replies.headD {}).writes

/-- What the next command writes to a place, in the end. -/
def written? (s : Session) (place : List String) : Option (List UInt8) :=
  (landed s.home (s.replies.headD {}).writes s.disk).reverse.lookup place

theorem file?_writeAll (home : Path) (writes : List (String × List UInt8)) (d : Disk)
    (place : List String) : (writeAll home d writes).file? place =
      ((landed home writes d).reverse.lookup place).or (d.file? place) := by
  induction writes generalizing d with
  | nil => rfl
  | cons w rest ih =>
      have hstep := @Project.file?_writeBytes ⟨home⟩ d w.1 w.2 false place
      have hrest : (writeAll home d (w :: rest)).file? place =
          (writeAll home ((⟨home⟩ : Project).writeBytes d w.1 w.2).1 rest).file? place := rfl
      rw [hrest, ih, hstep, landed, List.reverse_append, List.lookup_append]
      cases (landed home rest ((⟨home⟩ : Project).writeBytes d w.1 w.2).1).reverse.lookup place with
      | some bytes => rfl
      | none =>
          cases (⟨home⟩ : Project).landing? d w.1 w.2 false with
          | none => rfl
          | some landing =>
              by_cases hplace : landing = place
              · simp [hplace]
              · simp [hplace, List.lookup_cons, beq_false_of_ne (Ne.symm hplace)]

theorem within_writeAll (home : Path) (writes : List (String × List UInt8)) (d : Disk) :
    d.Within (writeAll home d writes) := by
  induction writes generalizing d with
  | nil => exact .refl d
  | cons w rest ih => exact (Project.within_writeBytes ⟨home⟩ d w.1 w.2 false).trans (ih _)

/-- A file is what the command wrote there last, or what it was. -/
theorem file?_diskAfter (s : Session) (place : List String) : s.diskAfter.file? place =
    (s.written? place).or (s.disk.file? place) :=
  file?_writeAll s.home _ s.disk place

theorem within_diskAfter (s : Session) : s.disk.Within s.diskAfter :=
  within_writeAll s.home _ s.disk

/-- The next command writes a file at the place, or puts something there where nothing was. -/
def Makes (s : Session) (place : List String) : Prop :=
  (s.written? place).isSome = true ∨
    s.disk.get? place = none ∧ (s.diskAfter.get? place).isSome = true

/-- Something lies at the place that the next command does not write. -/
def LeavesOver (s : Session) (place : List String) : Prop :=
  (s.disk.get? place).isSome = true ∧ s.written? place = none

section Places

variable {s : Session} {place : List String}

theorem exists_written?_of_not_leavesOver (hleft : ¬ s.LeavesOver place)
    (hsome : (s.disk.get? place).isSome = true) :
    ∃ bytes, s.written? place = some bytes := by
  cases hwritten : s.written? place with
  | none => exact (hleft ⟨hsome, hwritten⟩).elim
  | some bytes => exact ⟨bytes, rfl⟩

/-- Where nothing is left over, there is only what the command makes. -/
theorem get?_diskAfter_of_not_makes (hleft : ¬ s.LeavesOver place) (hmakes : ¬ s.Makes place) :
    s.diskAfter.get? place = none := by
  cases hget : s.disk.get? place with
  | some e =>
      obtain ⟨bytes, hbytes⟩ := exists_written?_of_not_leavesOver hleft (by rw [hget]; rfl)
      exact (hmakes (.inl (by rw [hbytes]; rfl))).elim
  | none =>
      cases hafter : s.diskAfter.get? place with
      | none => rfl
      | some e => exact (hmakes (.inr ⟨hget, by rw [hafter]; rfl⟩)).elim

end Places

end Session

namespace Project

open Session (exists_written?_of_not_leavesOver get?_diskAfter_of_not_makes)

/-- The place of the metrics file. -/
def metricsPlace (p : Project) : List String :=
  (p.pathOf metricsFile).names

/-- What is reported of a metrics file. -/
def reported (mark : String) (bytes : List UInt8) : Except MetricsError (Option Metrics) :=
  match Utf8.text? bytes with
  | none => .error (.disk .notText)
  | some contents =>
    match Metrics.parse mark (Text.readText contents) with
    | .ok m => .ok (some m)
    | .error e => .error (.metrics e)

section Run

variable {p : Project} {s : Session} {mark : String}

theorem disk_srb (args : List String) (binary : Option String) :
    (p.srb args binary s).2.disk = s.diskAfter := by
  cases binary <;> rfl

theorem notMem_metricsPlace (hp : p.IsResolved) : ".." ∉ p.metricsPlace :=
  hp.notMem_pathOf (by decide)

theorem metricsPlace_ne_nil : p.metricsPlace ≠ [] := by
  have hnames : (Path.ofText metricsFile).names = [metricsFile] := by decide
  rw [metricsPlace, names_pathOf (by decide), hnames]
  exact List.append_ne_nil_of_right_ne_nil _ (List.cons_ne_nil _ _)

/-- What is reported depends on what lies at the place after the command, which is removed. -/
theorem srbMetrics_eq (hp : p.IsResolved) (args : List String) (binary : Option String) :
    (p.srbMetrics args binary mark s).1 =
        (if (s.diskAfter.get? p.metricsPlace).isSome then
          (readMetrics s.diskAfter (p.pathOf metricsFile) mark).map some else .ok none) ∧
      (p.srbMetrics args binary mark s).2.disk =
        if (s.diskAfter.get? p.metricsPlace).isSome then s.diskAfter.erase p.metricsPlace
        else s.diskAfter := by
  have hdisk := disk_srb (p := p) (s := s) (["tc", "--metrics-file", metricsFile] ++ args) binary
  have hdots := notMem_metricsPlace hp
  have hexists : s.diskAfter.exists? (p.pathOf metricsFile) =
      (s.diskAfter.get? p.metricsPlace).isSome := Disk.exists?_eq hdots
  unfold srbMetrics
  simp only [hdisk, hexists]
  cases hget : s.diskAfter.get? p.metricsPlace with
  | none => exact ⟨rfl, hdisk⟩
  | some e => exact ⟨rfl, congrArg Prod.fst (Disk.remove_of_get? hdots hget)⟩

theorem readMetrics_of_file? {d : Disk} {path : Path} {bytes : List UInt8}
    (hpath : ".." ∉ path.names) (h : d.file? path.names = some bytes) :
    (readMetrics d path mark).map some = reported mark bytes := by
  have hbytes : d.readBytes path = .ok bytes := (Disk.readBytes_eq_ok_iff hpath).2 h
  rw [readMetrics, Disk.readText, hbytes, reported]
  cases htext : Utf8.text? bytes with
  | none => simp only [bind, Except.bind, htext, Except.map]
  | some contents =>
      simp only [bind, Except.bind, htext, pure, Except.pure]
      cases Metrics.parse mark (Text.readText contents) <;> rfl

theorem readMetrics_of_dir {d : Disk} {path : Path} {entries : List (String × Entry)}
    (hpath : ".." ∉ path.names) (h : d.get? path.names = some (.dir entries)) :
    readMetrics d path mark = .error (.disk .isADirectory) := by
  have hlookup := (Disk.lookup_eq_ok_iff hpath).2 h
  rw [readMetrics, Disk.readText, Disk.readBytes, hlookup]
  rfl

/-- Nothing is left at the place of the metrics file or below it. -/
theorem get?_srbMetrics (hp : p.IsResolved) (args : List String) (binary : Option String)
    {place : List String} (hplace : p.metricsPlace <+: place) :
    (p.srbMetrics args binary mark s).2.disk.get? place = none := by
  rw [(srbMetrics_eq hp args binary).2]
  split
  · exact Disk.get?_erase_of_isPrefix _ metricsPlace_ne_nil hplace
  · rename_i hnone
    cases hget : s.diskAfter.get? place with
    | none => rfl
    | some e => exact (hnone (Disk.isSome_get?_of_isPrefix hget hplace)).elim

/-- Everywhere else the files are what the command wrote, or what they were. -/
theorem file?_srbMetrics (hp : p.IsResolved) (args : List String) (binary : Option String)
    {place : List String} (hplace : ¬ p.metricsPlace <+: place) :
    (p.srbMetrics args binary mark s).2.disk.file? place =
      (s.written? place).or (s.disk.file? place) := by
  rw [← s.file?_diskAfter, (srbMetrics_eq hp args binary).2]
  split
  · exact Disk.file?_erase_of_not_isPrefix _ hplace
  · rfl

theorem srbMetrics_of_file? (hp : p.IsResolved) (args : List String) (binary : Option String)
    {bytes : List UInt8} (h : s.diskAfter.file? p.metricsPlace = some bytes) :
    (p.srbMetrics args binary mark s).1 = reported mark bytes := by
  have hget := Disk.file?_eq_some_iff.1 h
  rw [(srbMetrics_eq hp args binary).1, hget, Option.isSome_some, if_pos rfl]
  exact readMetrics_of_file? (notMem_metricsPlace hp) h

/-- What is no file is a directory, and cannot be read. -/
theorem srbMetrics_of_dir (hp : p.IsResolved) (args : List String) (binary : Option String)
    (hsome : (s.diskAfter.get? p.metricsPlace).isSome = true)
    (h : s.diskAfter.file? p.metricsPlace = none) :
    (p.srbMetrics args binary mark s).1 = .error (.disk .isADirectory) := by
  rw [(srbMetrics_eq hp args binary).1, hsome, if_pos rfl]
  cases hget : s.diskAfter.get? p.metricsPlace with
  | none => simp [hget] at hsome
  | some e =>
      cases e with
      | file bytes => simp [Disk.file?_eq_some_iff.2 hget] at h
      | dir entries =>
          rw [readMetrics_of_dir (notMem_metricsPlace hp) hget]
          rfl

theorem srbMetrics_ne_none (hp : p.IsResolved) (args : List String) (binary : Option String)
    (hsome : (s.diskAfter.get? p.metricsPlace).isSome = true) :
    (p.srbMetrics args binary mark s).1 ≠ .ok none := by
  rw [(srbMetrics_eq hp args binary).1, hsome, if_pos rfl]
  cases readMetrics s.diskAfter (p.pathOf metricsFile) mark <;> simp [Except.map]

/-- A file that the command did not write is not lost, unless it was left over where the metrics
file belongs, or below. -/
theorem file?_srbMetrics_of_not_leavesOver (hp : p.IsResolved) (args : List String)
    (binary : Option String) (hleft : ¬ s.LeavesOver p.metricsPlace) {place : List String}
    {bytes : List UInt8} (hwritten : s.written? place = none)
    (hfile : s.disk.file? place = some bytes) :
    (p.srbMetrics args binary mark s).2.disk.file? place = some bytes := by
  have hafter : s.diskAfter.file? place = some bytes := by
    rw [s.file?_diskAfter, hwritten, hfile]
    rfl
  by_cases hplace : p.metricsPlace <+: place
  · -- Something lay there before, so that the command wrote a file there: not this one, as that
    -- was not written, and not one above it, as above a file there are directories.
    exfalso
    obtain ⟨report, hreport⟩ := exists_written?_of_not_leavesOver hleft
      (Disk.isSome_get?_of_isPrefix (Disk.file?_eq_some_iff.1 hfile) hplace)
    have hmetrics : s.diskAfter.file? p.metricsPlace = some report := by
      rw [s.file?_diskAfter, hreport]
      rfl
    obtain ⟨below, rfl⟩ := hplace
    cases below with
    | nil =>
        rw [List.append_nil, hreport] at hwritten
        cases hwritten
    | cons name below =>
        obtain ⟨inner, hdir⟩ := Disk.exists_dir_of_get?_append (Disk.file?_eq_some_iff.1 hafter)
        rw [Disk.file?_eq_some_iff, hdir] at hmetrics
        cases hmetrics
  · rw [file?_srbMetrics hp args binary hplace, hwritten, hfile]
    rfl

end Run

/-- A run of the type checker reports its own metrics, and nothing if it wrote none, and no other
file is lost, unless something lies in the place of the metrics file that the command does not
write: that is reported, and is lost with all below it. -/
theorem srbMetrics_exact (p : Project) (args : List String) (binary : Option String)
    (mark : String) (s : Session) (hp : p.IsResolved) :
    (∀ place, p.metricsPlace <+: place →
      (p.srbMetrics args binary mark s).2.disk.get? place = none) ∧
    (¬ s.LeavesOver p.metricsPlace →
      (¬ s.Makes p.metricsPlace → (p.srbMetrics args binary mark s).1 = .ok none) ∧
      (∀ bytes, s.written? p.metricsPlace = some bytes →
        (p.srbMetrics args binary mark s).1 = reported mark bytes) ∧
      (s.Makes p.metricsPlace → s.written? p.metricsPlace = none →
        (p.srbMetrics args binary mark s).1 = .error (.disk .isADirectory)) ∧
      ∀ place bytes, s.written? place = none → s.disk.file? place = some bytes →
        (p.srbMetrics args binary mark s).2.disk.file? place = some bytes) ∧
    (s.LeavesOver p.metricsPlace →
      (p.srbMetrics args binary mark s).1 ≠ .ok none ∧
      (∀ bytes, s.disk.file? p.metricsPlace = some bytes →
        (p.srbMetrics args binary mark s).1 = reported mark bytes) ∧
      (s.disk.file? p.metricsPlace = none →
        (p.srbMetrics args binary mark s).1 = .error (.disk .isADirectory)) ∧
      ∀ place, ¬ p.metricsPlace <+: place →
        (p.srbMetrics args binary mark s).2.disk.file? place =
          (s.written? place).or (s.disk.file? place)) := by
  refine ⟨fun place hplace => get?_srbMetrics hp args binary hplace, fun hleft => ⟨?_, ?_, ?_, ?_⟩,
    fun hleft => ⟨?_, ?_, ?_, ?_⟩⟩
  · intro hmakes
    rw [(srbMetrics_eq hp args binary).1, get?_diskAfter_of_not_makes hleft hmakes]
    rfl
  · intro bytes hwritten
    apply srbMetrics_of_file? hp
    rw [s.file?_diskAfter, hwritten]
    rfl
  · rintro (hwritten' | ⟨hnone, hsome⟩) hwritten
    · simp [hwritten] at hwritten'
    · apply srbMetrics_of_dir hp args binary hsome
      rw [s.file?_diskAfter, hwritten, Disk.file?_eq_none_of_get?_eq_none hnone]
      rfl
  · intro place bytes hwritten hfile
    exact file?_srbMetrics_of_not_leavesOver hp args binary hleft hwritten hfile
  · exact srbMetrics_ne_none hp args binary (s.within_diskAfter _ hleft.1)
  · intro bytes hfile
    apply srbMetrics_of_file? hp
    rw [s.file?_diskAfter, hleft.2, hfile]
    rfl
  · intro hfile
    apply srbMetrics_of_dir hp args binary (s.within_diskAfter _ hleft.1)
    rw [s.file?_diskAfter, hleft.2, hfile]
    rfl
  · exact fun place hplace => file?_srbMetrics hp args binary hplace

def staleText : String :=
  "\x7b\"metrics\": [\x7b\"name\": \"x\", \"value\": 4\x7d]\x7d"

/-- A metrics file of an earlier run, and a command that fails. -/
def staleSession : Session where
  disk := ⟨[("metrics.tmp", .file (Utf8.encode staleText))]⟩
  home := ⟨"/", []⟩
  replies := [{ exitCode := 127 }]

/-- A command that is cut off while it writes the metrics file. -/
def tornSession : Session where
  disk := ⟨[("a.rb", .file (Utf8.encode "a"))]⟩
  home := ⟨"/", []⟩
  replies := [{ exitCode := 1, writes := [("metrics.tmp", Utf8.encode "\x7b")] }]

theorem srbMetrics_exact_stale :
    (staleSession.LeavesOver ["metrics.tmp"] ∧
      (srbMetrics ⟨⟨"/", []⟩⟩ [] none Metrics.defaultPrefix staleSession).1.toOption =
        some (some ⟨[("x", 4)]⟩) ∧
      (srbMetrics ⟨⟨"/", []⟩⟩ [] none Metrics.defaultPrefix staleSession).2.disk.get?
        ["metrics.tmp"] = none) ∧
    ¬ tornSession.LeavesOver ["metrics.tmp"] ∧
      (srbMetrics ⟨⟨"/", []⟩⟩ [] none Metrics.defaultPrefix tornSession).1.toOption = none ∧
      (srbMetrics ⟨⟨"/", []⟩⟩ [] none Metrics.defaultPrefix tornSession).2.disk.file? ["a.rb"] =
        some (Utf8.encode "a") := by
  have hp : IsResolved ⟨⟨"/", []⟩⟩ := by
    rw [IsResolved]
    decide
  have hplace : metricsPlace ⟨⟨"/", []⟩⟩ = ["metrics.tmp"] := by decide
  have hstale : staleSession.LeavesOver ["metrics.tmp"] := ⟨rfl, rfl⟩
  have htorn : ¬ tornSession.LeavesOver ["metrics.tmp"] := fun h => by cases h.1
  have hreported : (reported Metrics.defaultPrefix (Utf8.encode staleText)).toOption =
      some (some ⟨[("x", 4)]⟩) := by
    decide +kernel
  have hfailed : (reported Metrics.defaultPrefix (Utf8.encode "\x7b")).toOption = none := by
    decide +kernel
  obtain ⟨hgone, _, hleft⟩ :=
    srbMetrics_exact ⟨⟨"/", []⟩⟩ [] none Metrics.defaultPrefix staleSession hp
  obtain ⟨_, hfresh, _⟩ :=
    srbMetrics_exact ⟨⟨"/", []⟩⟩ [] none Metrics.defaultPrefix tornSession hp
  rw [hplace] at hgone hleft hfresh
  refine ⟨⟨hstale, ?_, hgone _ (List.prefix_refl _)⟩, htorn, ?_, ?_⟩
  · rw [(hleft hstale).2.1 _ rfl, hreported]
  · rw [(hfresh htorn).2.1 _ rfl, hfailed]
  · exact (hfresh htorn).2.2.2 ["a.rb"] (Utf8.encode "a") rfl rfl

end Project
end Fallow
