import Fallow.Proofs.Origin

/-!
# Walking on top of an index

A walk through a file on top of an index that holds nothing of that file ends as if the file had
been walked by itself and the result merged in: nothing the walk does reaches the definitions of
other files.
-/

namespace Fallow

namespace Index

theorem merge_definitions (x y : Index) :
    (x.merge y).definitions = x.definitions.merge Definition.same y.definitions := rfl

theorem merge_references (x y : Index) :
    (x.merge y).references = x.references.merge (· == ·) y.references := rfl

theorem merge_empty (x : Index) : x.merge {} = x := rfl

/-- References come over as if they were inserted afterwards. -/
theorem merge_insertAll_references (b : Buckets Reference) {other : Buckets Reference}
    (h : other.Tidy Reference.name (· == ·)) (rs : List Reference) :
    b.merge (· == ·) (other.insertAll (· == ·) (rs.map fun r => (r.name, r))) =
      (b.merge (· == ·) other).insertAll (· == ·) (rs.map fun r => (r.name, r)) := by
  induction rs generalizing other with
  | nil => rfl
  | cons r rest ih =>
      rw [List.map_cons, Buckets.insertAll_cons, Buckets.insertAll_cons, ih (h.insert r),
        Buckets.merge_insert (by simp) _ _ h.keys_nodup h.filled]
      intro a c d hac hcd
      rw [beq_iff_eq] at *
      exact hac.trans hcd

end Index

namespace Deed

variable {setting : Walk.Setting}

/-- A deed does not notice an index that holds nothing of its file. -/
theorem change_merge {x y : Index} (hx : ∀ d ∈ x.definitions.values, d.location.file ≠ setting.path)
    (hy : y.Tidy) (d : Deed) :
    d.change setting (x.merge y) = x.merge (d.change setting y) := by
  apply Index.ext
  · rw [Index.merge_definitions]
    rcases change_definitions setting d with ⟨e, _, he⟩ | ⟨_, f, hf, he⟩
    · rw [he, he, Index.merge_definitions, Buckets.merge_insert Definition.same_refl
        (fun a c d => Definition.same_trans) _ hy.definitions.keys_nodup hy.definitions.filled]
    · have hx' : x.definitions.mapWith f = x.definitions :=
        Buckets.mapWith_eq_self fun key d hd => hf.foreign key d (hx d hd)
      rw [he, he, Index.merge_definitions, Buckets.mapWith_merge hf.same_eq, hx']
  · rw [Index.merge_references, change_references, change_references, Index.merge_references,
      Index.merge_insertAll_references _ hy.references]

theorem changeAll_merge {x y : Index}
    (hx : ∀ d ∈ x.definitions.values, d.location.file ≠ setting.path) (hy : y.Tidy)
    (ds : List Deed) :
    changeAll setting (x.merge y) ds = x.merge (changeAll setting y ds) := by
  induction ds generalizing y with
  | nil => rfl
  | cons d rest ih =>
      rw [changeAll_cons, changeAll_cons, change_merge hx hy]
      exact ih (hy.change setting d)

end Deed

/-- Walking on top of an index is walking apart and merging; what the index held of other files is
left exactly as it was. -/
theorem Walk.run_index_eq_merge (src : Source) (plugins : List Plugin) (root : Syntax.Node)
    (x : Index) (hx : ∀ d ∈ x.listing, d.location.file ≠ src.path) :
    (Walk.run src plugins root x).index = x.merge (Walk.run src plugins root).index ∧
      ∀ d, d.location.file ≠ src.path →
        (d ∈ (Walk.run src plugins root x).index.listing ↔ d ∈ x.listing) := by
  have hmerge : (Walk.run src plugins root x).index =
      x.merge (Walk.run src plugins root).index := by
    have hfile : ∀ d ∈ x.definitions.values, d.location.file ≠ src.path :=
      fun d hd => hx d (Index.mem_listing.2 hd)
    have h : Deed.changeAll ⟨src.path, plugins⟩ (x.merge {}) (Walk.fileDeeds src root) =
        x.merge (Deed.changeAll ⟨src.path, plugins⟩ {} (Walk.fileDeeds src root)) :=
      Deed.changeAll_merge hfile Index.Tidy.empty _
    rw [Walk.run_index, Walk.run_index, ← h, Index.merge_empty]
  refine ⟨hmerge, fun d hd => ?_⟩
  rw [hmerge, Index.mem_listing, Index.mem_listing, Index.merge_definitions]
  constructor
  · intro h
    rcases Buckets.of_mem_values_merge h with h | h
    · exact h
    · exact absurd (Walk.file_eq_of_mem_run h) hd
  · exact Buckets.mem_values_merge_of_mem _

namespace Walk

/-- The tree of a class that makes its method private after the fact. -/
def lateTree : Syntax.Node :=
  .mk (.other "program") ⟨0, 56, ⟨0, 0⟩, ⟨5, 0⟩⟩ ⟨true, false, false⟩ []
    [.mk .classDecl ⟨0, 55, ⟨0, 0⟩, ⟨4, 3⟩⟩ ⟨true, false, false⟩ [(.name, 0)]
      [.mk .constant ⟨6, 7, ⟨0, 6⟩, ⟨0, 7⟩⟩ ⟨true, false, false⟩ [] [],
        .mk (.other "body_statement") ⟨10, 51, ⟨1, 2⟩, ⟨3, 12⟩⟩ ⟨true, false, false⟩ []
          [.mk .singletonMethodDecl ⟨10, 25, ⟨1, 2⟩, ⟨1, 17⟩⟩ ⟨true, false, false⟩
              [(.name, 1), (.object, 0)]
              [.mk (.other "self") ⟨14, 18, ⟨1, 6⟩, ⟨1, 10⟩⟩ ⟨true, false, false⟩ [] [],
                .mk .identifier ⟨19, 20, ⟨1, 11⟩, ⟨1, 12⟩⟩ ⟨true, false, false⟩ [] []],
            .mk .methodDecl ⟨28, 38, ⟨2, 2⟩, ⟨2, 12⟩⟩ ⟨true, false, false⟩ [(.name, 0)]
              [.mk .identifier ⟨32, 33, ⟨2, 6⟩, ⟨2, 7⟩⟩ ⟨true, false, false⟩ [] []],
            .mk .call ⟨41, 51, ⟨3, 2⟩, ⟨3, 12⟩⟩ ⟨true, false, false⟩
              [(.arguments, 1), (.method, 0)]
              [.mk .identifier ⟨41, 48, ⟨3, 2⟩, ⟨3, 9⟩⟩ ⟨true, false, false⟩ [] [],
                .mk (.other "argument_list") ⟨49, 51, ⟨3, 10⟩, ⟨3, 12⟩⟩ ⟨true, false, false⟩ []
                  [.mk .simpleSymbol ⟨49, 51, ⟨3, 10⟩, ⟨3, 12⟩⟩ ⟨true, false, false⟩ [] []]]]]]

def lateSource : Source :=
  ⟨"a.rb", Utf8.encode "class A\n  def self.a; end\n  def a; end\n  private :a\nend\n"⟩

/-- A public method of the same full name in another file. -/
def namesake : Index :=
  Index.empty.addDefinition ⟨.methodDef, "a", "A#a", ⟨"b.rb", 2, 2, 2, 12⟩, .pub, false⟩

theorem run_index_eq_merge_namesake :
    (∀ d ∈ namesake.listing, d.location.file ≠ lateSource.path) ∧
      (run lateSource [.actionPack] lateTree namesake).index =
        namesake.merge (run lateSource [.actionPack] lateTree).index ∧
      ∀ d, d.location.file ≠ lateSource.path →
        (d ∈ (run lateSource [.actionPack] lateTree namesake).index.listing ↔
          d ∈ namesake.listing) := by
  have hfile : ∀ d ∈ namesake.listing, d.location.file ≠ lateSource.path := by
    intro d hd
    rw [List.mem_singleton.1 (Index.mem_listing.1 hd)]
    decide
  exact ⟨hfile, run_index_eq_merge lateSource [.actionPack] lateTree namesake hfile⟩

end Walk
end Fallow
