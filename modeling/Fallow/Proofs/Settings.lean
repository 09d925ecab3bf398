import Fallow.Project.Configured
import Fallow.Proofs.Keywords
import Fallow.Proofs.Order
import Mathlib.Data.List.Nodup

/-!
# Accepted settings

A table of settings passes a list of checks, one after the other. It is accepted exactly if all of
them pass, and then the configuration holds what the table says; otherwise the first check that
fails is reported. Checks only look settings up, so that the order of a table does not matter.
-/

namespace Fallow

namespace Config

/-- A list of texts and of nothing else. -/
def Setting.ofTexts (texts : List String) : Setting :=
  .list (texts.map .text)

/-- What may be asked of a table: the setting of a key, if it has one. -/
abbrev Lookup := String → Option Setting

/-- The texts at a key: those that are listed there, or none if the key is absent. -/
def HasTexts (get : Lookup) (key : String) (texts : List String) : Prop :=
  (get key = none ∧ texts = []) ∨ get key = some (.ofTexts texts)

/-- Nothing is said about a key. -/
def Unset (get : Lookup) (key : String) : Prop :=
  get key = none ∨ get key = some .null

def HasJobs (get : Lookup) (jobs : Option Int) : Prop :=
  (Unset get "jobs" ∧ jobs = none) ∨ ∃ i : Int, 1 ≤ i ∧ get "jobs" = some (.int i) ∧ jobs = some i

def HasPlugins (get : Lookup) (plugins : Option (List String)) : Prop :=
  (Unset get "plugins" ∧ plugins = none) ∨
    ∃ texts, get "plugins" = some (.ofTexts texts) ∧ plugins = some texts

/-- A configuration has the values of a table. -/
structure Holds (get : Lookup) (c : Config) : Prop where
  included : HasTexts get "include" c.included
  excluded : HasTexts get "exclude" c.excluded
  plugins : HasPlugins get c.plugins
  ignoredNames : HasTexts get "ignore_method_names" c.ignoredNames
  jobs : HasJobs get c.jobs

/-- The keys that are not known, in order and without repetition. -/
structure Unknown (get : Lookup) (keys : List String) : Prop where
  sorted : keys.Pairwise (· < ·)
  mem_iff : ∀ key, key ∈ keys ↔ key ∉ knownKeys ∧ get key ≠ none

inductive Check where
  | keys
  | jobs
  | texts (key : String)
  | plugins
  deriving DecidableEq, Repr

/-- The checks in the order in which they are made. -/
def checks : List Check :=
  [.keys, .jobs, .texts "include", .texts "exclude", .plugins, .texts "ignore_method_names"]

namespace Check

def Passes (get : Lookup) : Check → Prop
  | keys => ∀ key, get key ≠ none → key ∈ knownKeys
  | jobs => ∃ jobs, HasJobs get jobs
  | texts key => ∃ texts, HasTexts get key texts
  | plugins => ∃ plugins, HasPlugins get plugins

/-- What is said of a table that fails a check. -/
def Reports (get : Lookup) : Check → Fault → Prop
  | keys, f => ∃ unknown, Unknown get unknown ∧ f = .unknownKeys unknown
  | jobs, f => f = .badJobs
  | texts key, f => f = .notTexts key
  | plugins, f => f = .notTexts "plugins"

end Check

/-- A result is determined: it is the value that fits, or a report if none does. -/
structure Decides {α : Type} (r : Except Fault α) (fits : α → Prop) (report : Fault → Prop) :
    Prop where
  ok_iff : ∀ a, r = .ok a ↔ fits a
  error_iff : ∀ f, r = .error f ↔ (¬ ∃ a, fits a) ∧ report f

section Readers

theorem mapM_text?_eq_some_iff {items : List Setting} {texts : List String} :
    items.mapM text? = some texts ↔ items = texts.map .text := by
  induction items generalizing texts with
  | nil => cases texts <;> simp
  | cons item items ih =>
      rw [List.mapM_cons]
      cases item <;> cases texts <;> simp [text?, Option.bind_eq_some_iff, ih, and_comm]

variable (table : List (String × Setting))

/-- It is enough to say which values fit a result, and what a failure looks like. -/
theorem Decides.of_cases {α : Type} {r : Except Fault α} {fits : α → Prop} {report : Fault → Prop}
    (hok : ∀ a, r = .ok a ↔ fits a) (herror : ∀ f, r = .error f → report f)
    (hunique : ∀ f g, report f → report g → f = g) : Decides r fits report where
  ok_iff := hok
  error_iff := by
    intro f
    constructor
    · intro h
      refine ⟨?_, herror f h⟩
      rintro ⟨a, ha⟩
      rw [(hok a).2 ha] at h
      cases h
    · rintro ⟨hnone, hreport⟩
      cases hr : r with
      | ok a => exact absurd ⟨a, (hok a).1 hr⟩ hnone
      | error g => rw [hunique f g hreport (herror g hr)]

theorem decides_textsAt (key : String) : Decides (textsAt table key)
    (HasTexts (table.lookup ·) key) (Check.Reports (table.lookup ·) (.texts key)) := by
  refine .of_cases (fun texts => ?_) (fun f hf => ?_) (fun f g hf hg => hf.trans hg.symm)
  · rw [textsAt, HasTexts]
    cases table.lookup key with
    | none => simp [eq_comm]
    | some v =>
        cases v with
        | list items =>
            simp only [Setting.ofTexts, Option.some.injEq, Setting.list.injEq,
              ← mapM_text?_eq_some_iff]
            cases items.mapM text? <;> simp
        | _ => simp [Setting.ofTexts]
  · unfold textsAt at hf
    split at hf
    · cases hf
    · split at hf
      · cases hf
      · exact (Except.error.inj hf).symm
    · exact (Except.error.inj hf).symm

theorem decides_jobsAt :
    Decides (jobsAt table) (HasJobs (table.lookup ·)) (Check.Reports (table.lookup ·) .jobs) := by
  refine .of_cases (fun jobs => ?_) (fun f hf => ?_) (fun f g hf hg => hf.trans hg.symm)
  · rw [jobsAt, HasJobs, Unset]
    cases table.lookup "jobs" with
    | none => simp [@eq_comm _ none]
    | some v =>
        cases v with
        | null => simp [@eq_comm _ none]
        | int i =>
            by_cases hi : 1 ≤ i
            · have hnot : ¬ i < 1 := Int.not_lt.2 hi
              simp [hi, hnot, @eq_comm _ (some i)]
            · have hlt : i < 1 := Int.not_le.1 hi
              simp [hi, hlt]
        | _ => simp
  · unfold jobsAt at hf
    split at hf
    · cases hf
    · cases hf
    · split at hf
      · exact (Except.error.inj hf).symm
      · cases hf
    · exact (Except.error.inj hf).symm

theorem pluginsAt_of_unset {table : List (String × Setting)}
    (h : Unset (table.lookup ·) "plugins") : pluginsAt table = .ok none := by
  have hlookup : table.lookup "plugins" = none ∨ table.lookup "plugins" = some .null := h
  rw [pluginsAt]
  rcases hlookup with hlookup | hlookup <;> rw [hlookup]

theorem pluginsAt_of_not_unset {table : List (String × Setting)}
    (h : ¬ Unset (table.lookup ·) "plugins") :
    pluginsAt table = (textsAt table "plugins").map some := by
  rw [pluginsAt]
  cases hlookup : table.lookup "plugins" with
  | none => exact absurd (.inl hlookup) h
  | some v =>
      cases v with
      | null => exact absurd (.inr hlookup) h
      | _ => cases textsAt table "plugins" <;> rfl

theorem decides_pluginsAt : Decides (pluginsAt table) (HasPlugins (table.lookup ·))
    (Check.Reports (table.lookup ·) .plugins) := by
  have htexts := decides_textsAt table "plugins"
  refine .of_cases (fun plugins => ?_) (fun f hf => ?_) (fun f g hf hg => hf.trans hg.symm)
  · by_cases hunset : Unset (table.lookup ·) "plugins"
    · rw [pluginsAt_of_unset hunset, HasPlugins, Except.ok.injEq]
      constructor
      · exact fun heq => .inl ⟨hunset, heq.symm⟩
      · rintro (⟨-, heq⟩ | ⟨texts, hlookup, -⟩)
        · exact heq.symm
        · rcases hunset with hunset | hunset <;> simp [hunset, Setting.ofTexts] at hlookup
    · have hset : ∀ texts, HasTexts (table.lookup ·) "plugins" texts ↔
          table.lookup "plugins" = some (.ofTexts texts) := by
        intro texts
        exact ⟨fun h => h.resolve_left fun hnone => hunset (.inl hnone.1), .inr⟩
      rw [pluginsAt_of_not_unset hunset, HasPlugins]
      constructor
      · intro hmap
        cases hr : textsAt table "plugins" with
        | error f =>
            rw [hr] at hmap
            cases hmap
        | ok texts =>
            rw [hr] at hmap
            cases hmap
            exact .inr ⟨texts, (hset texts).1 ((htexts.ok_iff texts).1 hr), rfl⟩
      · rintro (⟨habsurd, -⟩ | ⟨texts, hlookup, rfl⟩)
        · exact absurd habsurd hunset
        · rw [(htexts.ok_iff texts).2 ((hset texts).2 hlookup)]
          rfl
  · by_cases hunset : Unset (table.lookup ·) "plugins"
    · rw [pluginsAt_of_unset hunset] at hf
      cases hf
    · rw [pluginsAt_of_not_unset hunset] at hf
      cases hr : textsAt table "plugins" with
      | ok texts =>
          rw [hr] at hf
          cases hf
      | error g =>
          rw [hr] at hf
          cases hf
          exact ((htexts.error_iff f).1 hr).2

/-- The first step of reading a table: no unknown keys. -/
def knownAt (table : List (String × Setting)) : Except Fault Unit :=
  let unknown := (table.map (·.1)).filter (!knownKeys.contains ·)
  if unknown.isEmpty then .ok () else .error (.unknownKeys (sortedBy textOrder unknown.eraseDups))

theorem unknown_sortedBy : Unknown (table.lookup ·)
    (sortedBy textOrder ((table.map (·.1)).filter (!knownKeys.contains ·)).eraseDups) where
  sorted := pairwise_sortedBy_eraseDups _
  mem_iff := by
    intro key
    simp [List.mem_eraseDups, and_comm]

theorem Unknown.unique {get : Lookup} {keys others : List String} (h : Unknown get keys)
    (h' : Unknown get others) : keys = others := by
  have hperm : keys.Perm others := by
    rw [List.perm_ext_iff_of_nodup (h.sorted.imp String.ne_of_lt) (h'.sorted.imp String.ne_of_lt)]
    intro key
    rw [h.mem_iff, h'.mem_iff]
  refine hperm.eq_of_pairwise (fun a b _ _ hab hba => ?_) h.sorted h'.sorted
  exact absurd hba (String.lt_asymm hab)

theorem decides_knownAt : Decides (knownAt table) (fun _ => Check.keys.Passes (table.lookup ·))
    (Check.keys.Reports (table.lookup ·)) := by
  have hempty : ((table.map (·.1)).filter (!knownKeys.contains ·)).isEmpty = true ↔
      Check.keys.Passes (table.lookup ·) := by
    simp [Check.Passes]
  refine .of_cases (fun _ => ?_) (fun f hf => ?_) ?_
  · rw [← hempty, knownAt]
    split <;> simp_all
  · rw [knownAt] at hf
    split at hf
    · cases hf
    · exact ⟨_, unknown_sortedBy table, (Except.error.inj hf).symm⟩
  · rintro _ _ ⟨keys, hkeys, rfl⟩ ⟨others, hothers, rfl⟩
    rw [hkeys.unique hothers]

theorem ofTable_eq : ofTable table = do
    knownAt table
    let jobs ← jobsAt table
    let included ← textsAt table "include"
    let excluded ← textsAt table "exclude"
    let plugins ← pluginsAt table
    let ignoredNames ← textsAt table "ignore_method_names"
    return { included, excluded, plugins, ignoredNames, jobs } := by
  simp only [ofTable, knownAt]
  cases ((table.map (·.1)).filter (!knownKeys.contains ·)).isEmpty with
  | true => rfl
  | false => rfl

end Readers

/-- Whether something fits is decided like the thing itself. -/
theorem Decides.discard {α : Type} {r : Except Fault α} {fits : α → Prop} {report : Fault → Prop}
    (h : Decides r fits report) : Decides (r.map fun _ => ()) (fun _ => ∃ a, fits a) report where
  ok_iff := by
    rintro ⟨⟩
    simp only [← h.ok_iff]
    cases r <;> simp [Except.map]
  error_iff := by
    intro f
    rw [exists_const, ← h.error_iff]
    cases r <;> simp [Except.map]

/-- Makes a check, without regard to the value that is read. -/
def Check.run (table : List (String × Setting)) : Check → Except Fault Unit
  | keys => knownAt table
  | jobs => (jobsAt table).map fun _ => ()
  | texts key => (textsAt table key).map fun _ => ()
  | plugins => (pluginsAt table).map fun _ => ()

theorem Check.decides_run (table : List (String × Setting)) (check : Check) :
    Decides (check.run table) (fun _ => check.Passes (table.lookup ·))
      (check.Reports (table.lookup ·)) := by
  cases check with
  | keys => exact decides_knownAt table
  | jobs => exact (decides_jobsAt table).discard
  | texts key => exact (decides_textsAt table key).discard
  | plugins => exact (decides_pluginsAt table).discard

section Steps

variable {α β : Type} {step : α → Except Fault Unit}

theorem bind_eq_ok_iff {r : Except Fault α} {next : α → Except Fault β} {b : β} :
    (r >>= next) = .ok b ↔ ∃ a, r = .ok a ∧ next a = .ok b := by
  cases r <;> simp [bind, Except.bind]

theorem forM_eq_ok_iff {l : List α} : forM l step = .ok () ↔ ∀ a ∈ l, step a = .ok () := by
  induction l with
  | nil => simp [pure, Except.pure]
  | cons a l ih =>
      rw [List.forM_cons, bind_eq_ok_iff, List.forall_mem_cons, ← ih]
      exact ⟨fun ⟨_, h⟩ => h, fun h => ⟨(), h⟩⟩

/-- Of steps made one after the other the first that fails decides. -/
theorem forM_eq_error_iff {l : List α} {f : Fault} :
    forM l step = .error f ↔ ∃ passed a later, l = passed ++ a :: later ∧
      (∀ b ∈ passed, step b = .ok ()) ∧ step a = .error f := by
  induction l with
  | nil => simp [pure, Except.pure]
  | cons a l ih =>
      rw [List.forM_cons]
      cases ha : step a with
      | error g =>
          constructor
          · intro hg
            exact ⟨[], a, l, rfl, by simp, ha.trans hg⟩
          · rintro ⟨passed, b, later, heq, hpassed, hb⟩
            cases passed with
            | nil =>
                cases heq
                rw [← ha, hb]
                rfl
            | cons c passed =>
                cases heq
                rw [hpassed a List.mem_cons_self] at ha
                cases ha
      | ok u =>
          rw [show (Except.ok u >>= fun _ => forM l step) = forM l step from rfl, ih]
          constructor
          · rintro ⟨passed, b, later, rfl, hpassed, hb⟩
            exact ⟨a :: passed, b, later, rfl, List.forall_mem_cons.2 ⟨ha, hpassed⟩, hb⟩
          · rintro ⟨passed, b, later, heq, hpassed, hb⟩
            cases passed with
            | nil =>
                cases heq
                rw [ha] at hb
                cases hb
            | cons c passed =>
                cases heq
                exact ⟨passed, b, later, rfl, (List.forall_mem_cons.1 hpassed).2, hb⟩

end Steps

/-- Reading a table comes down to the checks in their order. -/
theorem map_ofTable (table : List (String × Setting)) :
    (ofTable table).map (fun _ => ()) = forM checks (Check.run table) := by
  rw [ofTable_eq]
  simp only [checks, List.forM_cons, List.forM_nil, Check.run]
  -- On both sides the first reader that fails ends it, and values play no part in what follows.
  rcases knownAt table with f | u
  · rfl
  rcases jobsAt table with f | jobs
  · rfl
  rcases textsAt table "include" with f | included
  · rfl
  rcases textsAt table "exclude" with f | excluded
  · rfl
  rcases pluginsAt table with f | plugins
  · rfl
  rcases textsAt table "ignore_method_names" with f | ignoredNames
  · rfl
  · rfl

theorem ofTable_eq_ok_iff {table : List (String × Setting)} {c : Config} :
    ofTable table = .ok c ↔
      Check.keys.Passes (table.lookup ·) ∧ Holds (table.lookup ·) c := by
  simp only [ofTable_eq, bind_eq_ok_iff, (decides_knownAt table).ok_iff,
    (decides_jobsAt table).ok_iff, (decides_textsAt table _).ok_iff,
    (decides_pluginsAt table).ok_iff]
  constructor
  · rintro ⟨_, hkeys, jobs, hjobs, included, hincluded, excluded, hexcluded, plugins, hplugins,
      ignoredNames, hignored, hc⟩
    cases hc
    exact ⟨hkeys, hincluded, hexcluded, hplugins, hignored, hjobs⟩
  · rintro ⟨hkeys, hincluded, hexcluded, hplugins, hignored, hjobs⟩
    exact ⟨(), hkeys, _, hjobs, _, hincluded, _, hexcluded, _, hplugins, _, hignored, rfl⟩

theorem exists_ofTable_eq_ok_iff {table : List (String × Setting)} :
    (∃ c, ofTable table = .ok c) ↔ ∀ check ∈ checks, check.Passes (table.lookup ·) := by
  have hmap : (∃ c, ofTable table = .ok c) ↔ (ofTable table).map (fun _ => ()) = .ok () := by
    cases ofTable table <;> simp [Except.map]
  simp only [hmap, map_ofTable, forM_eq_ok_iff, (Check.decides_run table _).ok_iff]

/-- The first check that fails. -/
structure Check.FailsFirst (get : Lookup) (check : Check) (passed later : List Check) : Prop where
  order : checks = passed ++ check :: later
  passes : ∀ earlier ∈ passed, earlier.Passes get
  fails : ¬ check.Passes get

theorem ofTable_eq_error_iff {table : List (String × Setting)} {f : Fault} :
    ofTable table = .error f ↔ ∃ (check : Check) (passed later : List Check),
      check.FailsFirst (table.lookup ·) passed later ∧ check.Reports (table.lookup ·) f := by
  have hmap : ofTable table = .error f ↔ (ofTable table).map (fun _ => ()) = .error f := by
    cases ofTable table <;> simp [Except.map]
  simp only [hmap, map_ofTable, forM_eq_error_iff, (Check.decides_run table _).ok_iff,
    (Check.decides_run table _).error_iff, exists_const]
  constructor
  · rintro ⟨passed, check, later, horder, hpasses, hfails, hreports⟩
    exact ⟨check, passed, later, ⟨horder, hpasses, hfails⟩, hreports⟩
  · rintro ⟨check, passed, later, ⟨horder, hpasses, hfails⟩, hreports⟩
    exact ⟨passed, check, later, horder, hpasses, hfails, hreports⟩

/-- Tables that answer alike are read alike. -/
theorem ofTable_congr {table other : List (String × Setting)}
    (h : ∀ key, other.lookup key = table.lookup key) : ofTable other = ofTable table := by
  have hget : (fun key => other.lookup key) = fun key => table.lookup key := funext h
  cases hr : ofTable table with
  | ok c => rw [ofTable_eq_ok_iff, hget, ← ofTable_eq_ok_iff, hr]
  | error f => rw [ofTable_eq_error_iff, hget, ← ofTable_eq_error_iff, hr]

theorem lookup_eq_of_perm {table other : List (String × Setting)} (h : table.Perm other)
    (hnames : (table.map (·.1)).Nodup) (key : String) : other.lookup key = table.lookup key := by
  have hnames' : (other.map (·.1)).Nodup := (h.map _).nodup_iff.1 hnames
  rw [Option.ext_iff]
  intro v
  rw [Json.lookup_eq_some_iff_mem hnames, Json.lookup_eq_some_iff_mem hnames', h.mem_iff]

/-- The words for a table that fails a check. -/
def Check.Says (get : Lookup) : Check → String → Prop
  | keys, words => ∃ unknown, Unknown get unknown ∧
      words = "unknown keys: " ++ ", ".intercalate unknown
  | jobs, words => words = "'jobs' must be a positive integer"
  | texts key, words => words = "'" ++ key ++ "' must be a list of strings"
  | plugins, words => words = "'plugins' must be a list of strings"

theorem Fault.message_notTexts {key : String}
    (h : key ∈ ["include", "exclude", "plugins", "ignore_method_names"]) :
    message (.notTexts key) = "'" ++ key ++ "' must be a list of strings" := by
  have hquoted : ∀ key ∈ ["include", "exclude", "plugins", "ignore_method_names"],
      Text.quoted key = "'" ++ key ++ "'" := by decide
  have hmessage : message (.notTexts key) = Text.quoted key ++ " must be a list of strings" := rfl
  rw [hmessage, hquoted key h, String.append_assoc]
  rfl

theorem Check.says_of_reports {get : Lookup} {check : Check} {f : Fault} (hmem : check ∈ checks)
    (h : check.Reports get f) : check.Says get f.message := by
  cases check with
  | keys =>
      obtain ⟨unknown, hunknown, rfl⟩ := h
      exact ⟨unknown, hunknown, rfl⟩
  | jobs =>
      obtain rfl : f = .badJobs := h
      rfl
  | texts key =>
      obtain rfl : f = .notTexts key := h
      have hkey : key = "include" ∨ key = "exclude" ∨ key = "ignore_method_names" := by
        simpa [checks] using hmem
      refine Fault.message_notTexts ?_
      rcases hkey with rfl | rfl | rfl <;> decide
  | plugins =>
      obtain rfl : f = .notTexts "plugins" := h
      exact Fault.message_notTexts (by decide)

/-- The message about a table that is refused names the file and says what the first check that
fails says: the unknown keys in order, or the setting that is not as it has to be. -/
theorem message_of_ofTableAt_eq_error {path : Path} {table : List (String × Setting)} {e : Error}
    (h : ofTableAt path table = .error e) :
    ∃ (check : Check) (passed later : List Check) (words : String),
      check.FailsFirst (table.lookup ·) passed later ∧ check.Says (table.lookup ·) words ∧
        e.message = path.text ++ ": " ++ words := by
  rw [ofTableAt] at h
  cases hf : ofTable table with
  | ok c => simp [hf] at h
  | error f =>
      obtain ⟨check, passed, later, hfirst, hreports⟩ := ofTable_eq_error_iff.1 hf
      have hmem : check ∈ checks := by simp [hfirst.order]
      rw [hf] at h
      cases h
      exact ⟨check, passed, later, f.message, hfirst, Check.says_of_reports hmem hreports, rfl⟩

/-- A table is accepted exactly if it passes all checks, and then its values are taken over. A table
that is refused is refused by the first check that fails, whatever the order of its keys. -/
theorem ofTableAt_exact (path : Path) (table : List (String × Setting)) :
    ((∃ c, ofTableAt path table = .ok c) ↔ ∀ check ∈ checks, check.Passes (table.lookup ·)) ∧
      (∀ c, ofTableAt path table = .ok c ↔
        Check.keys.Passes (table.lookup ·) ∧ Holds (table.lookup ·) c) ∧
      (∀ e, ofTableAt path table = .error e ↔
        ∃ (check : Check) (passed later : List Check) (f : Fault),
          check.FailsFirst (table.lookup ·) passed later ∧ check.Reports (table.lookup ·) f ∧
            e = .fault path f) ∧
      ∀ other : List (String × Setting), table.Perm other → (table.map (·.1)).Nodup →
        ofTableAt path other = ofTableAt path table := by
  have hok : ∀ c, ofTableAt path table = .ok c ↔ ofTable table = .ok c := by
    intro c
    rw [ofTableAt]
    cases ofTable table <;> simp
  have herror : ∀ e, ofTableAt path table = .error e ↔
      ∃ f, ofTable table = .error f ∧ e = .fault path f := by
    intro e
    rw [ofTableAt]
    cases ofTable table <;> simp [eq_comm]
  refine ⟨?_, fun c => ?_, fun e => ?_, fun other hperm hnames => ?_⟩
  · simp only [hok, exists_ofTable_eq_ok_iff]
  · rw [hok, ofTable_eq_ok_iff]
  · rw [herror]
    constructor
    · rintro ⟨f, hf, rfl⟩
      obtain ⟨check, passed, later, hfirst, hreports⟩ := ofTable_eq_error_iff.1 hf
      exact ⟨check, passed, later, f, hfirst, hreports, rfl⟩
    · rintro ⟨check, passed, later, f, hfirst, hreports, rfl⟩
      exact ⟨f, ofTable_eq_error_iff.2 ⟨check, passed, later, hfirst, hreports⟩, rfl⟩
  · rw [ofTableAt, ofTableAt, ofTable_congr (lookup_eq_of_perm hperm hnames)]

/-- A table with two unknown keys and a setting that is wrong as well. -/
def strayTable : List (String × Setting) :=
  [("zeta", .null), ("jobs", .bool true), ("alpha", .int 1)]

theorem unknown_strayTable : Unknown (strayTable.lookup ·) ["alpha", "zeta"] where
  sorted := by decide
  mem_iff := by
    intro key
    constructor
    · simp only [List.mem_cons, List.not_mem_nil, or_false]
      rintro (rfl | rfl) <;> decide
    · rintro ⟨hunknown, hlookup⟩
      by_cases halpha : key = "alpha"
      · simp [halpha]
      by_cases hzeta : key = "zeta"
      · simp [hzeta]
      have hjobs : key ≠ "jobs" := by
        rintro rfl
        exact hunknown (by decide)
      exact absurd (by simp [strayTable, Json.lookup_cons_eq_ite, halpha, hzeta, hjobs]) hlookup

theorem ofTableAt_exact_stray : strayTable.Perm strayTable.reverse ∧
    (strayTable.map (·.1)).Nodup ∧ ∀ path,
      ofTableAt path strayTable = .error (.fault path (.unknownKeys ["alpha", "zeta"])) ∧
        ofTableAt path strayTable.reverse = ofTableAt path strayTable := by
  have hperm : strayTable.Perm strayTable.reverse := (List.reverse_perm _).symm
  have hnames : (strayTable.map (·.1)).Nodup := by decide
  refine ⟨hperm, hnames, fun path => ?_⟩
  obtain ⟨_, _, herror, horder⟩ := ofTableAt_exact path strayTable
  refine ⟨(herror _).2 ⟨.keys, [], _, _, ⟨rfl, by simp, ?_⟩, ⟨_, unknown_strayTable, rfl⟩, rfl⟩,
    horder _ hperm hnames⟩
  intro hpasses
  have hknown := hpasses "zeta" (by decide)
  revert hknown
  decide

end Config
end Fallow
