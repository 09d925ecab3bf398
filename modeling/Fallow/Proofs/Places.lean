import Fallow.Proofs.Identity
import Fallow.Proofs.Supplied

/-!
# The places that records point to

Definitions and references are recorded at many different nodes: the declaration itself, an argument
of it, an assignment or its target, a key, a symbol, the old name of an alias. Each of these nodes
lies at or below the node that is visited, so that every record of a walk points to a node of the
tree. What a plugin adds points to the send that it understood.
-/

namespace Fallow

open Syntax

/-- The location is the place of the node in the file: rows count from one, columns as they are. -/
structure Location.PointsTo (l : Location) (path : String) (n : Node) : Prop where
  file : l.file = path
  startLine : l.startLine = n.span.start.row + 1
  startColumn : l.startColumn = n.span.start.column
  endLine : l.endLine = n.span.stop.row + 1
  endColumn : l.endColumn = n.span.stop.column

namespace Source

open Syntax.Node

variable {src : Source} {inMethod : Bool} {n : Node} {s : Scope}

theorem location_pointsTo (src : Source) (n : Node) : (src.location n).PointsTo src.path n :=
  ⟨rfl, rfl, rfl, rfl, rfl⟩

theorem Planned.exists_site_of_references {a : Act} {d : Deed} {plugins : List Plugin}
    {r : Reference} (h : src.Planned inMethod n a) (hd : d ∈ a.deeds s)
    (hr : r ∈ d.references plugins) : ∃ site ∈ n.preorder, r.location = src.location site := by
  have hmention : ∀ {name : String} {site : Node}, site ∈ n.preorder →
      d = .refer name (src.location site) → ∃ site ∈ n.preorder, r.location = src.location site := by
    rintro name site hsite rfl
    rw [List.mem_singleton.1 hr]
    exact ⟨site, hsite, rfl⟩
  cases h with
  | constantUse => exact hmention (mem_preorder_self n) (List.mem_singleton.1 hd)
  | scopedUse _ hn =>
      exact hmention (mem_preorder_of_mem_inner (mem_inner_of_field? hn)) (List.mem_singleton.1 hd)
  | symbolUse _ hc =>
      exact hmention (mem_preorder_of_mem_inner (mem_inner_of_mem_named hc))
        (List.mem_singleton.1 hd)
  | aliasUse _ hc =>
      exact hmention (mem_preorder_of_mem_inner (mem_inner_of_field? hc)) (List.mem_singleton.1 hd)
  | @send _ _ _ site hs =>
      rw [List.mem_singleton.1 hd] at hr
      refine ⟨site, hs, ?_⟩
      rcases List.mem_cons.1 hr with rfl | hr
      · rfl
      · obtain ⟨name, _, rfl⟩ := List.mem_map.1 hr
        rfl
  | enclosure =>
      simp only [Act.deeds, deedsAll_walkAll, List.cons_append, List.nil_append, List.mem_cons,
        List.not_mem_nil, or_false] at hd
      rcases hd with rfl | rfl <;> cases hr
  | walk | declare | inline | methodBody | singletonBody =>
      simp [Act.deeds, Act.deedsAll, Act.walk, deedsAll_walkAll] at hd
  | remark | constant | reader | writer | method =>
      rw [List.mem_singleton.1 hd] at hr
      cases hr

end Source

namespace Walk

variable {src : Source} {plugins : List Plugin} {root : Node}

theorem exists_site_of_mem_listing_run {d : Definition}
    (h : d ∈ (run src plugins root).index.listing) :
    ∃ site ∈ root.preorder, d.location = src.location site := by
  obtain ⟨c, hc, hdc⟩ := exists_define_of_mem_run (Index.mem_listing.1 h)
  obtain ⟨n, s, hn, hdef⟩ := Source.exists_defines hc
  obtain ⟨site, hsite, _, hlocation, _⟩ := hdef.exists_site
  exact ⟨site, Node.mem_preorder_trans hsite hn.mem_preorder, hdc.location_eq.trans hlocation⟩

theorem exists_site_of_mem_referenceListing_run {r : Reference}
    (h : r ∈ (run src plugins root).index.referenceListing) :
    ∃ site ∈ root.preorder, r.location = src.location site := by
  obtain ⟨d, hd, hr⟩ := mem_referenceListing_run.1 h
  obtain ⟨within, n, hn, a, ha, s, hd⟩ := Source.exists_plan_of_mem_deeds hd
  obtain ⟨site, hsite, hlocation⟩ :=
    (Source.planned_of_mem_plan ha).exists_site_of_references hd hr
  exact ⟨site, Node.mem_preorder_trans hsite hn.mem_preorder, hlocation⟩

/-- A synthetic reference comes from an announced send, which is referred to at the same place. -/
theorem exists_sent_of_synthetic {r : Reference}
    (h : r ∈ (run src plugins root).index.referenceListing) (horigin : r.origin = .synthetic) :
    ∃ s, .sent s ∈ (run src plugins root).events ∧ (∃ p ∈ plugins, p.Supplies s r.name) ∧
      s.location = r.location ∧
      ⟨s.name, s.location, .syntactic⟩ ∈ (run src plugins root).index.referenceListing := by
  obtain ⟨d, hd, hr⟩ := mem_referenceListing_run.1 h
  cases d with
  | send s =>
      rcases List.mem_cons.1 hr with rfl | hr
      · cases horigin
      · obtain ⟨name, hname, rfl⟩ := List.mem_map.1 hr
        obtain ⟨p, hp, hname⟩ := List.mem_flatMap.1 hname
        have hown : ⟨s.name, s.location, .syntactic⟩ ∈
            (run src plugins root).index.referenceListing :=
          mem_referenceListing_run.2 ⟨.send s, hd, List.mem_cons_self⟩
        exact ⟨s, sent_mem_events_run.2 hd, ⟨p, hp, Plugin.mem_referred_iff.1 hname⟩, rfl, hown⟩
  | refer name location =>
      rw [List.mem_singleton.1 hr] at horigin
      cases horigin
  | define | remark | close => cases hr

/-- Every record of a walk points to a node of the tree, and a synthetic reference points to where
the name of its send is referred to. -/
theorem run_points_to_tree (src : Source) (plugins : List Plugin) (root : Node) :
    (∀ d ∈ (run src plugins root).index.listing,
        ∃ n ∈ root.preorder, d.location.PointsTo src.path n) ∧
      (∀ r ∈ (run src plugins root).index.referenceListing,
        ∃ n ∈ root.preorder, r.location.PointsTo src.path n) ∧
      ∀ r ∈ (run src plugins root).index.referenceListing, r.origin = .synthetic →
        ∃ s, .sent s ∈ (run src plugins root).events ∧ (∃ p ∈ plugins, p.Supplies s r.name) ∧
          s.location = r.location ∧
          ⟨s.name, r.location, .syntactic⟩ ∈ (run src plugins root).index.referenceListing := by
  refine ⟨fun d hd => ?_, fun r hr => ?_, fun r hr horigin => ?_⟩
  · obtain ⟨n, hn, hlocation⟩ := exists_site_of_mem_listing_run hd
    exact ⟨n, hn, hlocation ▸ src.location_pointsTo n⟩
  · obtain ⟨n, hn, hlocation⟩ := exists_site_of_mem_referenceListing_run hr
    exact ⟨n, hn, hlocation ▸ src.location_pointsTo n⟩
  · obtain ⟨s, hs, hsupplied, hlocation, hown⟩ := exists_sent_of_synthetic hr horigin
    exact ⟨s, hs, hsupplied, hlocation, hlocation ▸ hown⟩

/-- An accessor that is declared by a symbol, and a method that is called by its name. -/
def symbolSource : Source :=
  ⟨"a.rb", Utf8.encode "attr_reader :x\nsend :y\n"⟩

def symbolTree : Node :=
  .mk (.other "program") ⟨0, 23, ⟨0, 0⟩, ⟨2, 0⟩⟩ ⟨true, false, false⟩ []
    [.mk .call ⟨0, 14, ⟨0, 0⟩, ⟨0, 14⟩⟩ ⟨true, false, false⟩ [(.method, 0), (.arguments, 1)]
      [.mk .identifier ⟨0, 11, ⟨0, 0⟩, ⟨0, 11⟩⟩ ⟨true, false, false⟩ [] [],
        .mk (.other "argument_list") ⟨12, 14, ⟨0, 12⟩, ⟨0, 14⟩⟩ ⟨true, false, false⟩ []
          [.mk .simpleSymbol ⟨12, 14, ⟨0, 12⟩, ⟨0, 14⟩⟩ ⟨true, false, false⟩ [] []]],
      .mk .call ⟨15, 22, ⟨1, 0⟩, ⟨1, 7⟩⟩ ⟨true, false, false⟩ [(.method, 0), (.arguments, 1)]
        [.mk .identifier ⟨15, 19, ⟨1, 0⟩, ⟨1, 4⟩⟩ ⟨true, false, false⟩ [] [],
          .mk (.other "argument_list") ⟨20, 22, ⟨1, 5⟩, ⟨1, 7⟩⟩ ⟨true, false, false⟩ []
            [.mk .simpleSymbol ⟨20, 22, ⟨1, 5⟩, ⟨1, 7⟩⟩ ⟨true, false, false⟩ [] []]]]

def symbolReader : Definition :=
  ⟨.accessorDef, "x", "x", ⟨"a.rb", 1, 12, 1, 14⟩, .pub, false⟩

def symbolCall : Reference :=
  ⟨"y", ⟨"a.rb", 2, 0, 2, 7⟩, .synthetic⟩

theorem run_points_to_tree_symbols :
    (symbolReader ∈ (run symbolSource [.ruby] symbolTree).index.listing ∧
        ∃ n ∈ symbolTree.preorder, symbolReader.location.PointsTo "a.rb" n) ∧
      (symbolCall ∈ (run symbolSource [.ruby] symbolTree).index.referenceListing ∧
        ∃ n ∈ symbolTree.preorder, symbolCall.location.PointsTo "a.rb" n) ∧
      ∃ s, .sent s ∈ (run symbolSource [.ruby] symbolTree).events ∧
        (∃ p ∈ [Plugin.ruby], p.Supplies s "y") ∧ s.location = symbolCall.location ∧
        ⟨s.name, symbolCall.location, .syntactic⟩ ∈
          (run symbolSource [.ruby] symbolTree).index.referenceListing := by
  obtain ⟨hdefinitions, hreferences, hsynthetic⟩ :=
    run_points_to_tree symbolSource [.ruby] symbolTree
  have hreader : symbolReader ∈ (run symbolSource [.ruby] symbolTree).index.listing := by
    rw [Index.mem_listing]
    decide +kernel
  have hcall : symbolCall ∈ (run symbolSource [.ruby] symbolTree).index.referenceListing := by
    rw [Index.mem_referenceListing]
    decide +kernel
  exact ⟨⟨hreader, hdefinitions _ hreader⟩, ⟨hcall, hreferences _ hcall⟩, hsynthetic _ hcall rfl⟩

end Walk
end Fallow
