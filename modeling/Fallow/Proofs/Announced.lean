import Fallow.Proofs.Events
import Fallow.Proofs.Origin
import Fallow.Proofs.References

/-!
# What is announced and what is recorded

Plugins hear of a definition or a send when it is in the index already, and they hear of every
definition that is ever recorded. Of the references that are written in the source they do not hear
of those that are no calls: constants, the names of scopes, symbols that are passed as blocks, and
the old names of aliases.
-/

namespace Fallow

open Syntax

namespace Index

theorem holds_addDefinition (x : Index) (d : Definition) : (x.addDefinition d).holds d = true := by
  rw [holds, definitionsFor, addDefinition, Buckets.get_insert, if_pos rfl, Buckets.addTo]
  split
  · assumption
  · simp

theorem mem_referencesFor_addReference (x : Index) (r : Reference) :
    r ∈ (x.addReference r).referencesFor r.name :=
  Buckets.mem_get_insert.2 (.inr rfl)

end Index

/-- What is announced at this moment is in the index, a definition under its bare name. -/
structure Moment.Backed (m : Moment) : Prop where
  defined : ∀ d, m.event = .defined d → m.index.holds d = true
  sent : ∀ s, m.event = .sent s →
    ⟨s.name, s.location, .syntactic⟩ ∈ m.index.referencesFor s.name

namespace Deed

variable {setting : Walk.Setting} {x : Index} {m : Moment}

theorem backed_of_mem_moments {d : Deed} (h : m ∈ d.moments setting x) : m.Backed := by
  cases d with
  | refer | remark => cases h
  | send s =>
      rw [List.mem_singleton.1 h]
      refine ⟨by simp, ?_⟩
      rintro t ht
      cases ht
      exact Index.mem_referencesFor_addReference x _
  | define d =>
      rw [List.mem_singleton.1 h]
      refine ⟨?_, by simp⟩
      rintro e he
      cases he
      rw [Index.holds_congr _ (Walk.alike_judged _ d)]
      exact Index.holds_addDefinition x d
  | close d =>
      rw [List.mem_singleton.1 h]
      exact ⟨by simp, by simp⟩

theorem backed_of_mem_momentsAll {ds : List Deed} (h : m ∈ momentsAll setting x ds) :
    m.Backed := by
  induction ds generalizing x with
  | nil => cases h
  | cons d rest ih =>
      rcases List.mem_append.1 h with h | h
      · exact backed_of_mem_moments h
      · exact ih h

end Deed

namespace Source

/-- A node uses a name without calling it. -/
inductive Mentions (src : Source) (n : Node) : Reference → Prop
  | constant (hk : n.kind = .constant) : Mentions src n ⟨src.text n, src.location n, .syntactic⟩
  | scoped {name : Node} (hk : n.kind = .scopeResolution) (hn : n.field? .name = some name) :
    Mentions src n ⟨src.text name, src.location name, .syntactic⟩
  | block {c : Node} (hk : n.kind = .blockArgument) (hc : c ∈ n.named)
    (hs : c.kind = .simpleSymbol) : Mentions src n ⟨src.symbol c, src.location c, .syntactic⟩
  | aliased {c : Node} (hk : n.kind = .aliasDecl) (hc : n.field? .aliased = some c) :
    Mentions src n ⟨src.symbol c, src.location c, .syntactic⟩

variable {src : Source} {n : Node} {name : String} {location : Location}

theorem Planned.mentions {within : Bool} {a : Act} {s : Scope} (h : src.Planned within n a)
    (hd : .refer name location ∈ a.deeds s) : src.Mentions n ⟨name, location, .syntactic⟩ := by
  cases h with
  | constantUse hk =>
      cases List.mem_singleton.1 hd
      exact .constant hk
  | scopedUse hk hn =>
      cases List.mem_singleton.1 hd
      exact .scoped hk hn
  | symbolUse hk hc hs =>
      cases List.mem_singleton.1 hd
      exact .block hk hc hs
  | aliasUse hk hc =>
      cases List.mem_singleton.1 hd
      exact .aliased hk hc
  | enclosure | methodBody | singletonBody => simp [Act.deeds, deedsAll_walkAll] at hd
  | _ => simp [Act.deeds, Act.deedsAll, Act.walk, call] at hd

theorem exists_mentions {root : Node} (h : .refer name location ∈ Walk.fileDeeds src root) :
    ∃ n ∈ root.preorder, src.Mentions n ⟨name, location, .syntactic⟩ := by
  obtain ⟨within, n, hvisits, a, ha, s, hd⟩ := exists_plan_of_mem_deeds h
  exact ⟨n, hvisits.mem_preorder, (planned_of_mem_plan ha).mentions hd⟩

end Source

namespace Walk

/-- Announcements and index agree: whatever is announced is recorded by then, whatever is recorded
was announced, and a reference of the source without an announced send is a mere mention. -/
theorem announced_iff_recorded (src : Source) (plugins : List Plugin) (root : Node) :
    (∀ m ∈ (run src plugins root).trace, m.Backed) ∧
      (∀ d ∈ (run src plugins root).index.listing, ∃ e,
        .defined e ∈ (run src plugins root).events ∧ e.kind = d.kind ∧ e.Alike d) ∧
      ∀ r ∈ (run src plugins root).index.referenceListing, r.origin = .syntactic →
        (∀ s, .sent s ∈ (run src plugins root).events →
          ¬ (s.name = r.name ∧ s.location = r.location)) →
        ∃ n ∈ root.preorder, src.Mentions n r := by
  refine ⟨fun m hm => ?_, fun d hd => ?_, fun r hr horigin hunsent => ?_⟩
  · rw [run_trace, List.mem_reverse] at hm
    exact Deed.backed_of_mem_momentsAll hm
  · obtain ⟨c, hc, hdc⟩ := exists_define_of_mem_run (Index.mem_listing.1 hd)
    have halike := (alike_judged plugins c).trans hdc.symm
    exact ⟨judged plugins c, defined_mem_events_run.2 ⟨c, hc, rfl⟩, halike.kind_eq, halike⟩
  · obtain ⟨d, hd, hmem⟩ := mem_referenceListing_run.1 hr
    cases d with
    | refer name location =>
        rw [List.mem_singleton.1 hmem]
        exact Source.exists_mentions hd
    | send s =>
        rcases List.mem_cons.1 hmem with rfl | hmem
        · exact absurd ⟨rfl, rfl⟩ (hunsent s (sent_mem_events_run.2 hd))
        · obtain ⟨name, _, rfl⟩ := List.mem_map.1 hmem
          cases horigin
    | define | remark | close => cases hmem

/-- A class whose body names the constant `X` and calls `f`. -/
def mentionSource : Source :=
  ⟨"a.rb", Utf8.encode "class A\n  X\n  f\nend\n"⟩

def mentionTree : Node :=
  .mk (.other "program") ⟨0, 20, ⟨0, 0⟩, ⟨4, 0⟩⟩ ⟨true, false, false⟩ []
    [.mk .classDecl ⟨0, 19, ⟨0, 0⟩, ⟨3, 3⟩⟩ ⟨true, false, false⟩ [(.name, 0)]
      [.mk .constant ⟨6, 7, ⟨0, 6⟩, ⟨0, 7⟩⟩ ⟨true, false, false⟩ [] [],
        .mk (.other "body_statement") ⟨10, 15, ⟨1, 2⟩, ⟨2, 3⟩⟩ ⟨true, false, false⟩ []
          [.mk .constant ⟨10, 11, ⟨1, 2⟩, ⟨1, 3⟩⟩ ⟨true, false, false⟩ [] [],
            .mk .identifier ⟨14, 15, ⟨2, 2⟩, ⟨2, 3⟩⟩ ⟨true, false, false⟩ [] []]]]

def mentioned : Reference :=
  ⟨"X", ⟨"a.rb", 2, 2, 2, 3⟩, .syntactic⟩

def mentioning : Definition :=
  ⟨.classDef, "A", "A", ⟨"a.rb", 1, 0, 4, 3⟩, .pub, false⟩

theorem announced_iff_recorded_mention :
    (∃ m ∈ (run mentionSource [.ruby] mentionTree).trace, m.Backed) ∧
      mentioning ∈ (run mentionSource [.ruby] mentionTree).index.listing ∧
      (∃ e, .defined e ∈ (run mentionSource [.ruby] mentionTree).events ∧
        e.kind = .classDef ∧ e.Alike mentioning) ∧
      mentioned ∈ (run mentionSource [.ruby] mentionTree).index.referenceListing ∧
      (∀ s, .sent s ∈ (run mentionSource [.ruby] mentionTree).events →
        ¬ (s.name = mentioned.name ∧ s.location = mentioned.location)) ∧
      ∃ n ∈ mentionTree.preorder, mentionSource.Mentions n mentioned := by
  obtain ⟨hbacked, hannounced, hmention⟩ :=
    announced_iff_recorded mentionSource [.ruby] mentionTree
  have hdef : mentioning ∈ (run mentionSource [.ruby] mentionTree).index.listing := by
    rw [Index.mem_listing]
    decide +kernel
  have href : mentioned ∈ (run mentionSource [.ruby] mentionTree).index.referenceListing := by
    rw [Index.mem_referenceListing]
    decide +kernel
  have hsent : ∀ s, .sent s ∈ (run mentionSource [.ruby] mentionTree).events →
      ¬ (s.name = mentioned.name ∧ s.location = mentioned.location) := by
    intro s hs hsame
    have hnames : (run mentionSource [.ruby] mentionTree).events.all (fun
        | .sent t => t.name != "X"
        | _ => true) = true := by
      decide +kernel
    have hother : (s.name != "X") = true := List.all_eq_true.1 hnames _ hs
    rw [hsame.1] at hother
    cases hother
  have htrace : 0 < (run mentionSource [.ruby] mentionTree).trace.length := by
    decide +kernel
  obtain ⟨m, hm⟩ := List.length_pos_iff_exists_mem.1 htrace
  exact ⟨⟨m, hm, hbacked m hm⟩, hdef, hannounced _ hdef, href, hsent, hmention _ href rfl hsent⟩

end Walk
end Fallow
