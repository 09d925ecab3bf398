import Fallow.Proofs.Record

/-!
# Events of a walk

What is announced of the deeds of a walk, without the index at each moment. The events of a run are
those of its deeds, in order; they do not depend on the index the walk started with.
-/

namespace Fallow

namespace Deed

variable {plugins : List Plugin}

def event? (plugins : List Plugin) : Deed → Option Event
  | send s => some (.sent s)
  | define d => some (.defined (Walk.judged plugins d))
  | close d => some (.closed (Walk.judged plugins d))
  | _ => none

theorem map_event_moments (setting : Walk.Setting) (x : Index) (d : Deed) :
    (d.moments setting x).map (·.event) = (d.event? setting.plugins).toList := by
  cases d <;> rfl

theorem map_event_momentsAll (setting : Walk.Setting) (x : Index) (ds : List Deed) :
    (momentsAll setting x ds).map (·.event) = ds.filterMap (event? setting.plugins) := by
  induction ds generalizing x with
  | nil => rfl
  | cons d rest ih =>
      rw [momentsAll, List.map_append, ih, map_event_moments]
      cases hd : d.event? setting.plugins with
      | none => rw [List.filterMap_cons_none hd, Option.toList_none, List.nil_append]
      | some e => rw [List.filterMap_cons_some hd, Option.toList_some, List.singleton_append]

theorem event?_eq_sent {d : Deed} {s : Send} : d.event? plugins = some (.sent s) ↔ d = .send s := by
  cases d <;> simp [event?]

theorem event?_eq_defined {d : Deed} {e : Definition} : d.event? plugins = some (.defined e) ↔
    ∃ c, d = .define c ∧ Walk.judged plugins c = e := by
  cases d <;> simp [event?]

end Deed

namespace Walk

variable {src : Source} {plugins : List Plugin} {root : Syntax.Node}

theorem events_run (src : Source) (plugins : List Plugin) (root : Syntax.Node) (x : Index) :
    (run src plugins root x).events = (fileDeeds src root).filterMap (Deed.event? plugins) := by
  rw [events, run_trace, List.reverse_reverse, Deed.map_event_momentsAll]

theorem sent_mem_events_run {s : Send} :
    .sent s ∈ (run src plugins root).events ↔ .send s ∈ fileDeeds src root := by
  rw [events_run, List.mem_filterMap]
  simp only [Deed.event?_eq_sent, exists_eq_right]

theorem defined_mem_events_run {e : Definition} : .defined e ∈ (run src plugins root).events ↔
    ∃ c, .define c ∈ fileDeeds src root ∧ judged plugins c = e := by
  rw [events_run, List.mem_filterMap]
  constructor
  · rintro ⟨d, hd, he⟩
    obtain ⟨c, rfl, hc⟩ := Deed.event?_eq_defined.1 he
    exact ⟨c, hd, hc⟩
  · rintro ⟨c, hc, rfl⟩
    exact ⟨.define c, hc, rfl⟩

end Walk
end Fallow
