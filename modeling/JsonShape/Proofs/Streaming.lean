import JsonShape.Proofs.Inference.Room
import JsonShape.Proofs.Json.Lexing
import JsonShape.Proofs.Shape.Grouping
import JsonShape.Proofs.Source
import JsonShape.Proofs.Survey

/-!
Lists surveyed as documents or item by item. Documents merge the items of each list and then the
lists, items merge across the lists. Both find the same shape of an item, but for presentation, and
of a single list the very same with one merge less.
-/

set_option autoImplicit false

namespace JsonShape

open Value (inferOnto nestingRoom)

/-- A list takes one merge more than its items. -/
theorem on_inferMany_singleton_list {items : List Value}
    (h : (Value.list items).InLimits nestingRoom) :
    ∃ reached,
      (inferMany items).on 0 = (.ok (Shape.around (items.map Value.shape)), reached) ∧
        (inferMany [.list items]).on 0 = (.ok (Value.list items).shape, reached + 1) := by
  obtain ⟨inner, hroom, hitems⟩ := h.items
  have hinner : inner ≤ nestingRoom := hroom ▸ Nat.le_succ inner
  obtain ⟨reached, hrun⟩ := Value.on_inferOnto_of_succeeds hinner
    (fun v hv => (hitems v hv).succeeds hinner) (Shape.fitsLevels_unknown _) 0
  refine ⟨reached, ?_, ?_⟩
  · exact Value.on_inferOnto_of_le (fun v _ => v.keepsRun) hinner hrun
  · have hinfer : (Value.infer nestingRoom (.list items)).on 0 =
        (.ok (Value.list items).shape, reached) := by
      rw [hroom]
      simp only [Value.infer, Tally.on_bind, hrun, Tally.on_pure, Value.shape_list, Shape.around]
    have hunify (s : Shape) : (Shape.unknown.unify s).on reached = (.ok s, reached + 1) := by
      rw [Shape.on_unify, Shape.merge_unknown_left]
      rfl
    simp only [inferMany, inferOnto, Tally.on_bind, hinfer, hunify, Tally.on_pure]

theorem on_parseMany_of_on_inferMany {vs : List Value} {s : Shape} {merges reached : Nat}
    (h : (inferMany vs).on merges = (.ok s, reached)) :
    (parseMany vs).on merges = (.ok s, reached) := by
  rw [parseMany, Tally.on_ofDocument, h]

private theorem around_shapes_lists {lists : List (List Value)} (hne : lists ≠ []) :
    ∃ lengths : Range Int,
      (lists.map fun l => (l.length : Int)).min? = some lengths.lo ∧
        (lists.map fun l => (l.length : Int)).max? = some lengths.hi ∧
          Shape.around ((lists.map .list).map Value.shape) =
            .list lengths (Shape.around ((lists.map (List.map Value.shape)).map Shape.around)) := by
  have hgroups : lists.map (List.map Value.shape) ≠ [] := by simpa using hne
  simpa [List.map_map, Function.comp_def, Value.shape_list] using Shape.around_lists hgroups

private theorem alike_around_items {lists : List (List Value)}
    (h : ∀ l ∈ lists, ∀ v ∈ l, v.isJson = true ∧ v.isNumeric = true) :
    (Shape.around (lists.flatten.map Value.shape)).Alike Eq
      (Shape.around ((lists.map (List.map Value.shape)).map Shape.around)) := by
  rw [List.map_flatten]
  refine Shape.alike_around_flatten (List.forall_mem_map.mpr fun l hl => ?_)
  exact Value.wellFormed_shapes (fun v hv => (h l hl v hv).1) (fun v hv => (h l hl v hv).2)

/-- Lists, and the items of all of them, are inferred with the same shape of an item. -/
theorem alike_of_parseMany_lists {lists : List (List Value)} (hne : lists ≠ [])
    (hnumeric : ∀ l ∈ lists, (Value.list l).isNumeric = true)
    (hlimits : ∀ l ∈ lists, (Value.list l).InLimits nestingRoom) :
    ∃ lengths item streamed reached counted,
      (parseMany (lists.map .list)).on 0 = (.ok (.list lengths item), reached) ∧
        (lists.map fun l => (l.length : Int)).min? = some lengths.lo ∧
          (lists.map fun l => (l.length : Int)).max? = some lengths.hi ∧
            (parseMany lists.flatten).on 0 = (.ok streamed, counted) ∧
              streamed.Alike Eq item ∧
                (lists.length = 1 → streamed = item ∧ reached = counted + 1) := by
  have hitems : ∀ v ∈ lists.flatten, v.InLimits nestingRoom := by
    rw [List.forall_mem_flatten]
    intro l hl v hv
    obtain ⟨inner, hroom, hinner⟩ := (hlimits l hl).items
    exact (hinner v hv).mono (hroom ▸ Nat.le_succ inner)
  obtain ⟨lengths, hlo, hhi, haround⟩ := around_shapes_lists hne
  obtain ⟨reached, hwhole⟩ := on_inferMany_of_inLimits (List.forall_mem_map.mpr hlimits) 0
  obtain ⟨counted, hstreamed⟩ := on_inferMany_of_inLimits hitems 0
  have halike := alike_around_items fun l hl v hv =>
    ⟨Value.isJson_list_iff.mp (hlimits l hl).json v hv,
      Value.isNumeric_list_iff.mp (hnumeric l hl) v hv⟩
  refine ⟨lengths, _, _, reached, counted, ?_, hlo, hhi, on_parseMany_of_on_inferMany hstreamed,
    halike, fun hone => ?_⟩
  · rw [← haround]
    exact on_parseMany_of_on_inferMany hwhole
  · obtain ⟨l, rfl⟩ := List.length_eq_one_iff.mp hone
    obtain ⟨merges, hl, hlist⟩ := on_inferMany_singleton_list (hlimits l List.mem_cons_self)
    rw [List.flatten_singleton] at hstreamed ⊢
    refine ⟨rfl, ?_⟩
    have hcounted : merges = counted := congrArg Prod.snd (hl.symm.trans hstreamed)
    have hreached : merges + 1 = reached := congrArg Prod.snd (hlist.symm.trans hwhole)
    rw [← hreached, hcounted]

theorem exists_beyond_limits {vs : List Value} (hjson : ∀ v ∈ vs, v.isJson = true)
    (h : ¬ ∀ v ∈ vs, v.InLimits nestingRoom) (merges : Nat) :
    (∃ v ∈ vs, nestingRoom < v.depth ∨ v.isWritable = false) ∧
      ∃ fault reached, (parseMany vs).on merges = (.error fault, reached) := by
  constructor
  · push Not at h
    obtain ⟨v, hv, hnot⟩ := h
    refine ⟨v, hv, or_iff_not_imp_left.mpr fun hdepth => ?_⟩
    by_contra hwritable
    exact hnot ⟨hjson v hv, Nat.not_lt.mp hdepth, by simpa using hwritable⟩
  · rw [parseMany, Tally.on_ofDocument]
    rcases hrun : (inferMany vs).on merges with ⟨fault | s, reached⟩
    · cases fault <;> exact ⟨_, _, rfl⟩
    · exact absurd (inLimits_of_on_inferMany hjson hrun) h

namespace Survey

/-- A source of lists is surveyed as documents with the least and the greatest length of a list and
the shape of an item that the survey of its items finds, in some presentation. Of a single list the
shapes are equal and the documents take one merge more. This fails only where a list is too deep or
holds an integer too long to be written out. -/
theorem ofFeed_lists {s : Source} {files : FileTree} {input : Input} {lists : List (List Value)}
    (hne : lists ≠ []) (hvalues : (s.feed files input .documents).values = lists.map .list)
    (hfault : (s.feed files input .documents).fault = none) :
    (∃ lengths item streamed,
      (ofFeed (s.feed files input .documents)).outcome = .ok (.list lengths item) ∧
        (lists.map fun l => (l.length : Int)).min? = some lengths.lo ∧
          (lists.map fun l => (l.length : Int)).max? = some lengths.hi ∧
            (ofFeed (s.feed files input .items)).outcome = .ok streamed ∧
              streamed.Alike Eq item ∧
                (lists.length = 1 → streamed = item ∧
                  (ofFeed (s.feed files input .documents)).merges =
                    (ofFeed (s.feed files input .items)).merges + 1)) ∨
      (∃ l ∈ lists, nestingRoom < (Value.list l).depth ∨ (Value.list l).isWritable = false) ∧
        ∃ fault, (ofFeed (s.feed files input .documents)).outcome = .error (.inference fault) := by
  obtain ⟨hitems, hnone, hlists⟩ := Source.feed_items hvalues hfault
  obtain ⟨houtcome, hmerges⟩ := ofFeed_of_fault_eq_none hfault
  obtain ⟨houtcome', hmerges'⟩ := ofFeed_of_fault_eq_none hnone
  rw [hvalues] at houtcome hmerges
  rw [hitems] at houtcome' hmerges'
  by_cases hlimits : ∀ l ∈ lists, (Value.list l).InLimits nestingRoom
  · obtain ⟨lengths, item, streamed, reached, counted, hwhole, hlo, hhi, hstreamed, halike, hone⟩ :=
      alike_of_parseMany_lists hne (fun l hl => (hlists l hl).2) hlimits
    rw [hwhole] at houtcome hmerges
    rw [hstreamed] at houtcome' hmerges'
    rw [hmerges, hmerges']
    exact .inl ⟨lengths, item, streamed, houtcome, hlo, hhi, houtcome', halike, hone⟩
  · have hjson : ∀ v ∈ lists.map Value.list, v.isJson = true :=
      List.forall_mem_map.mpr fun l hl => (hlists l hl).1
    obtain ⟨hbeyond, fault, reached, hfails⟩ := exists_beyond_limits hjson
      (fun h => hlimits (List.forall_mem_map.mp h)) 0
    rw [hfails] at houtcome
    refine .inr ⟨?_, fault, houtcome⟩
    obtain ⟨v, hv, hv'⟩ := hbeyond
    obtain ⟨l, hl, rfl⟩ := List.mem_map.mp hv
    exact ⟨l, hl, hv'⟩

/-- Three files with a list each, of which the second is empty. -/
def listFiles : FileTree :=
  ⟨[([.ofString "a.json"],
      .file "[\x7b\"a\": 1, \"b\": null\x7d, \x7b\"b\": 2\x7d]".toUTF8.toList),
    ([.ofString "b.json"], .file "[]".toUTF8.toList),
    ([.ofString "c.json"],
      .file "[\x7b\"c\": [2.5], \"b\": \"s\"\x7d, \x7b\"b\": true\x7d]".toUTF8.toList)]⟩

/-- These files as a source. -/
def listSource : Source := ⟨["a.json", "b.json", "c.json"].map Path.ofString⟩

/-- The lists in these files. -/
def fileLists : List (List Value) :=
  [[.dict [(.text "a", .int 1), (.text "b", .null)], .dict [(.text "b", .int 2)]], [],
    [.dict [(.text "c", .list [.decimal (.finite false 25 (-1))]), (.text "b", .text "s")],
      .dict [(.text "b", .bool true)]]]

/-- A record of what stands under the keys of these dictionaries. -/
def fileItem (b : Shape) : Shape :=
  .record [("a", .optional (.int (.point 1))), ("b", b),
    ("c", .optional (.list (.point 1)
      (.float (.point (.ofCode false (Binary64.codeOfDecimal 25 (-1)))))))]

theorem feed_listSource :
    listSource.feed listFiles (.bytes []) .documents =
      ⟨(fileLists.zip ["a.json", "b.json", "c.json"]).flatMap fun (l, name) =>
        [.began name, .value (.list l)], none⟩ := by
  rw [listFiles]
  simp only [Json.toList_toUTF8]
  rfl

theorem ofFeed_lists_listSource :
    fileLists ≠ [] ∧
      (listSource.feed listFiles (.bytes []) .documents).values = fileLists.map .list ∧
        (listSource.feed listFiles (.bytes []) .documents).fault = none ∧
          (ofFeed (listSource.feed listFiles (.bytes []) .documents)).outcome =
            .ok (.list ⟨0, 2⟩ (fileItem .any)) ∧
              (ofFeed (listSource.feed listFiles (.bytes []) .items)).outcome =
                .ok (fileItem (.optional .any)) ∧
                  (fileItem (.optional .any)).Alike Eq (fileItem .any) := by
  have hne : fileLists ≠ [] := List.cons_ne_nil _ _
  have hvalues : (listSource.feed listFiles (.bytes []) .documents).values =
      fileLists.map .list := by
    rw [feed_listSource]
    rfl
  have hfault : (listSource.feed listFiles (.bytes []) .documents).fault = none := by
    rw [feed_listSource]
  have hwhole : (ofFeed (listSource.feed listFiles (.bytes []) .documents)).outcome =
      .ok (.list ⟨0, 2⟩ (fileItem .any)) := by
    rw [feed_listSource]
    rfl
  have hstreamed : (ofFeed (listSource.feed listFiles (.bytes []) .items)).outcome =
      .ok (fileItem (.optional .any)) := by
    obtain ⟨hitems, hnone, -⟩ := Source.feed_items hvalues hfault
    rw [(ofFeed_of_fault_eq_none hnone).1, hitems]
    rfl
  refine ⟨hne, hvalues, hfault, hwhole, hstreamed, ?_⟩
  rcases ofFeed_lists hne hvalues hfault with
    ⟨lengths, item, streamed, hok, -, -, hok', halike, -⟩ | ⟨-, fault, herror⟩
  · rw [hwhole] at hok
    rw [hstreamed] at hok'
    cases hok
    cases hok'
    exact halike
  · rw [hwhole] at herror
    cases herror

end Survey

end JsonShape
