import JsonShape.Proofs.Shape.Origins

/-!
The places of fields in the merge of two records. The merge is read off the partners that the fields
of the left record find among the shared fields of the right one, and the places of these off the
cut, which lists every field of the right record once.
-/

set_option autoImplicit false

namespace JsonShape

theorem IsFirst.idxOf_eq {row : List Field} {i : Nat} {name : String} (h : IsFirst row i name) :
    (row.map Prod.fst).idxOf name = i := by
  obtain ⟨hget, hfresh⟩ := h
  obtain ⟨hlt, hname⟩ := List.getElem?_eq_some_iff.mp hget
  have hsplit : row.map Prod.fst = (row.map Prod.fst).take i ++
      name :: (row.map Prod.fst).drop (i + 1) := by
    rw [← hname, ← List.drop_eq_getElem_cons hlt, List.take_append_drop]
  rw [hsplit, List.idxOf_append_of_notMem hfresh, List.idxOf_cons_self, List.length_take]
  omega

/-- The place of a shared field in the list it was cut from. -/
def SharedField.place (others : List Field) (s : SharedField) : Nat :=
  (others.map Prod.fst).idxOf s.name

/-- A shared field and its followers, as they stand in the list they were cut from. -/
def SharedField.group (s : SharedField) : List Field := s.toField :: s.followers

namespace CutFields

/-- A cut keeps every field in its place. -/
theorem ofFields_flatten (names : List String) (fields : List Field) :
    (ofFields names fields).front ++ (ofFields names fields).shared.flatMap SharedField.group =
      fields := by
  induction fields generalizing names with
  | nil => rfl
  | cons f rest ih =>
    simp only [ofFields]
    split_ifs with hname
    · simp [SharedField.group, SharedField.toField, ih]
    · simp [ih]

/-- What stands in front of a shared field in the list it was cut from. -/
def upTo (cut : CutFields) (before : List SharedField) : List Field :=
  cut.front ++ before.flatMap SharedField.group

theorem name_notMem_upTo {names : List String} {fields : List Field}
    {before after : List SharedField} {s : SharedField}
    (h : (ofFields names fields).shared = before ++ s :: after) :
    s.name ∉ ((ofFields names fields).upTo before).map Prod.fst := by
  induction fields generalizing names before with
  | nil => simp [ofFields] at h
  | cons f rest ih =>
    have hmem : s ∈ (ofFields names (f :: rest)).shared := h ▸ by simp
    have hknown := name_mem_of_mem_shared hmem
    simp only [ofFields] at h hmem ⊢
    split_ifs at h hmem ⊢ with hname
    · cases before with
      | nil => simp [upTo]
      | cons t before =>
        obtain ⟨rfl, hshared⟩ := List.cons_eq_cons.mp h
        have hother : s.name ≠ f.1 := by
          have hs : s ∈ (ofFields (names.filter (· ≠ f.1)) rest).shared := hshared ▸ by simp
          simpa using (List.mem_filter.mp (name_mem_of_mem_shared hs)).2
        have hfresh := ih hshared
        simp only [upTo, List.map_append, List.mem_append] at hfresh
        simpa [upTo, SharedField.group, SharedField.toField, hother] using hfresh
    · have hother : s.name ≠ f.1 := fun heq => hname (heq ▸ hknown)
      have hfresh := ih h
      simp only [upTo, List.map_append, List.mem_append] at hfresh
      simpa [upTo, hother] using hfresh

/-- A shared field stands, as the first of its name, right behind what is in front of it. -/
theorem eq_of_shared {names : List String} {fields : List Field}
    {before after : List SharedField} {s : SharedField}
    (h : (ofFields names fields).shared = before ++ s :: after) :
    fields = (ofFields names fields).upTo before ++
      s.toField :: (s.followers ++ after.flatMap SharedField.group) := by
  conv_lhs => rw [← ofFields_flatten names fields, h]
  simp [upTo, SharedField.group]

theorem isFirst_of_shared {names : List String} {fields : List Field}
    {before after : List SharedField} {s : SharedField}
    (h : (ofFields names fields).shared = before ++ s :: after) :
    IsFirst fields ((ofFields names fields).upTo before).length s.name := by
  have hfirst := isFirst_of_append (f := s.toField) (name_notMem_upTo h)
    (s.followers ++ after.flatMap SharedField.group)
  rwa [← eq_of_shared h] at hfirst

theorem isFirst_place {names : List String} {fields : List Field} {s : SharedField}
    (h : s ∈ (ofFields names fields).shared) : IsFirst fields (s.place fields) s.name := by
  obtain ⟨before, after, hshared⟩ := List.append_of_mem h
  have hfirst := isFirst_of_shared hshared
  rwa [SharedField.place, hfirst.idxOf_eq]

/-- At the place of a shared field it stands itself, and behind it its followers. -/
theorem getElem?_place {names : List String} {fields : List Field} {s : SharedField}
    (h : s ∈ (ofFields names fields).shared) :
    fields[s.place fields]? = some s.toField ∧
      ∀ t < s.followers.length, fields[s.place fields + 1 + t]? = s.followers[t]? := by
  obtain ⟨before, after, hshared⟩ := List.append_of_mem h
  have hplace : s.place fields = ((ofFields names fields).upTo before).length :=
    (isFirst_of_shared hshared).idxOf_eq
  have hget (n : Nat) : fields[n]? = ((ofFields names fields).upTo before ++
      s.toField :: (s.followers ++ after.flatMap SharedField.group))[n]? :=
    congrArg (·[n]?) (eq_of_shared hshared)
  constructor
  · rw [hplace, hget]
    simp
  · intro t ht
    rw [hplace, hget, List.getElem?_append_right (by omega), List.getElem?_cons, if_neg (by omega),
      List.getElem?_append_left (by omega)]
    congr 1
    omega

/-- The places of the groups follow each other. -/
private theorem flatMap_range'_place (names : List String) (fields : List Field)
    (before after : List SharedField) (h : (ofFields names fields).shared = before ++ after) :
    after.flatMap (fun s => List.range' (s.place fields) (s.followers.length + 1)) =
      List.range' ((ofFields names fields).upTo before).length
        (after.flatMap SharedField.group).length := by
  induction after generalizing before with
  | nil => rfl
  | cons s after ih =>
    have hplace : s.place fields = ((ofFields names fields).upTo before).length :=
      (isFirst_of_shared h).idxOf_eq
    have hnext := ih (before ++ [s]) (by rw [h, List.append_assoc, List.singleton_append])
    have hlen : ((ofFields names fields).upTo (before ++ [s])).length =
        ((ofFields names fields).upTo before).length + (s.followers.length + 1) := by
      simp only [upTo, SharedField.group, List.flatMap_append, List.flatMap_singleton,
        List.length_append, List.length_cons]
      omega
    have hgroup : s.group.length = s.followers.length + 1 := by
      simp only [SharedField.group, List.length_cons]
    rw [List.flatMap_cons, hnext, hplace, hlen, List.flatMap_cons, List.length_append, hgroup,
      List.range'_append_1]

/-- A cut lists every place once: those in front, and those of each group. -/
theorem range_eq (names : List String) (fields : List Field) :
    List.range fields.length = List.range (ofFields names fields).front.length ++
      (ofFields names fields).shared.flatMap fun s =>
        List.range' (s.place fields) (s.followers.length + 1) := by
  have hlen := congrArg List.length (ofFields_flatten names fields)
  have hgroups := flatMap_range'_place names fields [] _ rfl
  have hfront : ((ofFields names fields).upTo []).length =
      0 + (ofFields names fields).front.length := by
    simp only [upTo, List.flatMap_nil, List.append_nil, Nat.zero_add]
  rw [List.length_append] at hlen
  rw [hgroups, hfront, List.range_eq_range', List.range_eq_range', List.range'_append_1, hlen]

end CutFields

namespace Shape

/-- The fields of a list in order, each with the shared field that it is merged with, if any. -/
def partners : List Field → List SharedField → List (Field × Option SharedField)
  | [], _ => []
  | f :: rest, shared =>
    match shared.find? (·.name == f.1) with
    | none => (f, none) :: partners rest shared
    | some s => (f, some s) :: partners rest (shared.filter (·.name != f.1))

/-- What a field leads to in the merge: itself, merged with its partner, and the partner's
followers. -/
def block : Field × Option SharedField → List Field
  | (f, none) => [f.makeOptional]
  | (f, some s) => (f.1, f.2.merge s.shape) :: s.followers.map Field.makeOptional

theorem mergeFields_eq_flatMap (fields : List Field) (shared : List SharedField) :
    mergeFields fields shared = (partners fields shared).flatMap block := by
  induction fields generalizing shared with
  | nil => rfl
  | cons f rest ih =>
    cases hfind : shared.find? (·.name == f.1) with
    | none =>
      simp only [mergeFields, partners, hfind, ih, List.flatMap_cons]
      rfl
    | some s =>
      simp only [mergeFields, partners, hfind, ih, List.flatMap_cons]
      rfl

theorem length_partners (fields : List Field) (shared : List SharedField) :
    (partners fields shared).length = fields.length := by
  induction fields generalizing shared with
  | nil => rfl
  | cons f rest ih =>
    simp only [partners]
    split <;> simp [ih]

/-- A field finds its partner among all shared fields, unless an earlier field has its name. -/
theorem getElem?_partners (fields : List Field) (shared : List SharedField) (i : Nat) :
    (partners fields shared)[i]? = fields[i]?.map fun f =>
      (f, if f.1 ∈ (fields.map Prod.fst).take i then none
        else shared.find? (·.name == f.1)) := by
  induction fields generalizing shared i with
  | nil => rfl
  | cons f rest ih =>
    cases i with
    | zero =>
      simp only [partners]
      split
      · next hfind => simp [hfind]
      · next s hfind => simp [hfind]
    | succ i =>
      have hstep (left : List SharedField) (hsame : ∀ g ∈ rest, g.1 ≠ f.1 →
          left.find? (·.name == g.1) = shared.find? (·.name == g.1))
          (hnone : left.find? (·.name == f.1) = none) :
          (partners rest left)[i]? = (f :: rest)[i + 1]?.map fun g =>
            (g, if g.1 ∈ ((f :: rest).map Prod.fst).take (i + 1) then none
              else shared.find? (·.name == g.1)) := by
        rw [ih left i, List.getElem?_cons_succ]
        cases hg : rest[i]? with
        | none => rfl
        | some g =>
          simp only [Option.map_some, List.map_cons, List.take_succ_cons, List.mem_cons]
          by_cases hname : g.1 = f.1
          · simp [hname, hnone]
          · simp [hname, hsame g (List.mem_of_getElem? hg) hname]
      simp only [partners]
      split
      · next hfind => exact hstep shared (fun _ _ _ => rfl) hfind
      · next s hfind =>
        refine hstep _ (fun g _ hname => ?_) ?_
        · rw [List.find?_filter]
          refine List.find?_congr fun t _ => ?_
          by_cases ht : t.name = g.1
          · simp [ht, hname]
          · simp [ht]
        · simp [List.find?_filter]

/-- Every shared field whose name there is finds a partner. -/
theorem filterMap_partners_perm (fields : List Field) {shared : List SharedField}
    (hshared : (shared.map SharedField.name).Nodup) :
    ((partners fields shared).filterMap Prod.snd).Perm
      (shared.filter (·.name ∈ fields.map Prod.fst)) := by
  induction fields generalizing shared with
  | nil => simp [partners]
  | cons f rest ih =>
    simp only [partners]
    split
    · next hfind =>
      have hother : ∀ s ∈ shared, s.name ≠ f.1 := by simpa using List.find?_eq_none.mp hfind
      have hfilter : shared.filter (·.name ∈ (f :: rest).map Prod.fst) =
          shared.filter (·.name ∈ rest.map Prod.fst) :=
        List.filter_congr fun s hs => by simp [hother s hs]
      rw [hfilter]
      exact ih hshared
    · next s hfind =>
      have hname : s.name = f.1 := by simpa using List.find?_some hfind
      have hrest := ih (hshared.sublist
        ((List.filter_sublist (p := fun t : SharedField => t.name != f.1)).map SharedField.name))
      have hperm := filter_mem_cons_perm hshared (List.mem_of_find?_eq_some hfind)
        (rest.map Prod.fst)
      rw [hname] at hperm
      exact (hrest.cons s).trans hperm.symm

section Origins

variable (fields others : List Field)

/-- The fields that two records share, as the merge cuts them from the right one. -/
abbrev shared : List SharedField := (CutFields.ofFields (fields.map Prod.fst) others).shared

/-- The origins of what the field at a place leads to in the merge. -/
def blockOrigins : (Field × Option SharedField) × Nat → List Origin
  | ((_, none), i) => [.left i]
  | ((_, some s), i) =>
    .both i (s.place others) :: (List.range' (s.place others + 1) s.followers.length).map .right

/-- The origins of the fields of the merge of two records, in order. -/
def origins : List Origin :=
  (partners fields (shared fields others)).zipIdx.flatMap (blockOrigins others) ++
    (List.range (CutFields.ofFields (fields.map Prod.fst) others).front.length).map .right

variable {fields others}

theorem getElem?_partners_some {i : Nat} {f : Field} {s : SharedField}
    (h : (partners fields (shared fields others))[i]? = some (f, some s)) :
    fields[i]? = some f ∧ s ∈ shared fields others ∧ s.name = f.1 ∧ IsFirst fields i f.1 := by
  rw [getElem?_partners] at h
  obtain ⟨g, hg, heq⟩ := Option.map_eq_some_iff.mp h
  obtain ⟨rfl, hpartner⟩ := Prod.mk.inj heq
  split_ifs at hpartner with hseen
  refine ⟨hg, List.mem_of_find?_eq_some hpartner, by simpa using List.find?_some hpartner, ?_,
    hseen⟩
  rw [List.getElem?_map, hg]
  rfl

/-- The fields that have a partner are the matched ones. -/
theorem exists_partner_iff {i j : Nat} :
    (∃ f s, (partners fields (shared fields others))[i]? = some (f, some s) ∧
      s.place others = j) ↔ Matched fields others i j := by
  constructor
  · rintro ⟨f, s, hpartner, rfl⟩
    obtain ⟨-, hs, hname, hfirst⟩ := getElem?_partners_some hpartner
    exact ⟨f.1, hfirst, hname ▸ CutFields.isFirst_place hs⟩
  · rintro ⟨name, hi, hj⟩
    obtain ⟨f, hf, rfl⟩ : ∃ f, fields[i]? = some f ∧ f.1 = name := by
      simpa using hi.1
    have hfind := CutFields.find?_shared others hi.name_mem
    obtain ⟨s, hs⟩ : ∃ s, (shared fields others).find? (·.name == f.1) = some s := by
      obtain ⟨g, hg, hname⟩ := List.mem_map.mp hj.name_mem
      have hsome : (others.find? (·.1 == f.1)).isSome := by
        rw [List.find?_isSome]
        exact ⟨g, hg, by simpa using hname⟩
      rw [← hfind, Option.isSome_map] at hsome
      exact Option.isSome_iff_exists.mp hsome
    have hname : s.name = f.1 := by simpa using List.find?_some hs
    refine ⟨f, s, ?_, ?_⟩
    · rw [getElem?_partners, hf, Option.map_some, if_neg hi.2, hs]
    · rw [SharedField.place, hname, hj.idxOf_eq]

private theorem lefts_blockOrigins (x : (Field × Option SharedField) × Nat) :
    (blockOrigins others x).filterMap Origin.left? = [x.2] := by
  obtain ⟨⟨f, _ | s⟩, i⟩ := x
  · rfl
  · simp [blockOrigins, Origin.left?, List.filterMap_map, Function.comp_def]

private theorem rights_blockOrigins (x : (Field × Option SharedField) × Nat) :
    (blockOrigins others x).filterMap Origin.right? =
      x.1.2.toList.flatMap fun s => List.range' (s.place others) (s.followers.length + 1) := by
  obtain ⟨⟨f, _ | s⟩, i⟩ := x
  · rfl
  · simp [blockOrigins, Origin.right?, List.filterMap_map, Function.comp_def, List.range'_succ]

private theorem lefts_origins (fields others : List Field) :
    (origins fields others).filterMap Origin.left? = List.range fields.length := by
  have hfront (n : Nat) :
      ((List.range n).map Origin.right).filterMap Origin.left? = [] := by
    simp [List.filterMap_map, Function.comp_def, Origin.left?]
  rw [origins, List.filterMap_append, hfront, List.append_nil, List.filterMap_flatMap]
  simp only [lefts_blockOrigins]
  rw [← List.map_eq_flatMap, List.zipIdx_map_snd, length_partners, List.range_eq_range']

private theorem rights_origins (fields others : List Field) :
    ((origins fields others).filterMap Origin.right?).Perm (List.range others.length) := by
  have hfront (n : Nat) :
      ((List.range n).map Origin.right).filterMap Origin.right? = List.range n := by
    simp [List.filterMap_map, Function.comp_def, Origin.right?]
  have hpartners : ((partners fields (shared fields others)).filterMap Prod.snd).Perm
      (shared fields others) := by
    have hperm := filterMap_partners_perm fields
      (CutFields.nodup_shared (fields.map Prod.fst) others)
    rwa [List.filter_eq_self.mpr fun s hs => by
      simpa using CutFields.name_mem_of_mem_shared hs] at hperm
  have hgroups : (partners fields (shared fields others)).zipIdx.flatMap
      (fun x => x.1.2.toList.flatMap fun s =>
        List.range' (s.place others) (s.followers.length + 1)) =
      ((partners fields (shared fields others)).filterMap Prod.snd).flatMap fun s =>
        List.range' (s.place others) (s.followers.length + 1) := by
    rw [List.filterMap_eq_flatMap_toList, List.flatMap_assoc]
    conv_rhs => rw [← List.zipIdx_map_fst 0 (partners fields (shared fields others)),
      List.flatMap_map]
  rw [origins, List.filterMap_append, hfront, List.filterMap_flatMap]
  simp only [rights_blockOrigins]
  rw [hgroups, CutFields.range_eq (fields.map Prod.fst) others]
  exact (List.perm_append_comm).trans ((hpartners.flatMap_right _).append_left _)

private theorem mem_both_origins (fields others : List Field) (i j : Nat) :
    .both i j ∈ origins fields others ↔ Matched fields others i j := by
  rw [← exists_partner_iff, origins, List.mem_append, List.mem_flatMap]
  constructor
  · rintro (⟨⟨⟨f, _ | s⟩, k⟩, hmem, horigin⟩ | hfront)
    · simp [blockOrigins] at horigin
    · simp only [blockOrigins, List.mem_cons, Origin.both.injEq, List.mem_map, reduceCtorEq,
        and_false, exists_false, or_false] at horigin
      obtain ⟨rfl, rfl⟩ := horigin
      exact ⟨f, s, List.mem_zipIdx_iff_getElem?.mp hmem, rfl⟩
    · simp at hfront
  · rintro ⟨f, s, hpartner, rfl⟩
    refine .inl ⟨((f, some s), i), List.mem_zipIdx_iff_getElem?.mpr hpartner, ?_⟩
    exact List.mem_cons_self

/-- The fields of the merge of two records come from each place of either record once. -/
theorem interleaves_origins (fields others : List Field) :
    Interleaves fields others (origins fields others) :=
  ⟨lefts_origins fields others, rights_origins fields others, mem_both_origins fields others⟩

/-- Fields of the right record that stand there one after another and are all made optional. -/
theorem stems_rights {row : List Field} {start : Nat}
    (h : ∀ t < row.length, others[start + t]? = row[t]?) :
    List.Forall₂ (Stems fields others) ((List.range' start row.length).map .right)
      (row.map Field.makeOptional) := by
  induction row generalizing start with
  | nil => exact .nil
  | cons g rest ih =>
    refine .cons (.right (h 0 (Nat.zero_lt_succ _))) (ih fun t ht => ?_)
    rw [Nat.add_right_comm]
    exact h (t + 1) (Nat.succ_lt_succ ht)

private theorem stems_block {x : (Field × Option SharedField) × Nat}
    (h : x ∈ (partners fields (shared fields others)).zipIdx) :
    List.Forall₂ (Stems fields others) (blockOrigins others x) (block x.1) := by
  obtain ⟨⟨f, _ | s⟩, i⟩ := x
  · have hpartner := List.mem_zipIdx_iff_getElem?.mp h
    rw [getElem?_partners] at hpartner
    obtain ⟨g, hg, heq⟩ := Option.map_eq_some_iff.mp hpartner
    obtain ⟨rfl, -⟩ := Prod.mk.inj heq
    exact .cons (.left hg) .nil
  · obtain ⟨hf, hs, hname, -⟩ := getElem?_partners_some (List.mem_zipIdx_iff_getElem?.mp h)
    obtain ⟨hplace, hfollowers⟩ := CutFields.getElem?_place hs
    exact .cons (.both hf hplace hname) (stems_rights hfollowers)

/-- Each field of the merge of two records stems from its origin. -/
theorem stems_origins (fields others : List Field) :
    List.Forall₂ (Stems fields others) (origins fields others) (mergedFields fields others) := by
  have hplaces : ∀ t < (CutFields.ofFields (fields.map Prod.fst) others).front.length,
      others[0 + t]? = (CutFields.ofFields (fields.map Prod.fst) others).front[t]? := by
    intro t ht
    conv_lhs => rw [← CutFields.ofFields_flatten (fields.map Prod.fst) others]
    rw [Nat.zero_add, List.getElem?_append_left ht]
  have hfront : List.Forall₂ (Stems fields others) _ _ := stems_rights hplaces
  have hblocks : ∀ l : List ((Field × Option SharedField) × Nat),
      l ⊆ (partners fields (shared fields others)).zipIdx →
      List.Forall₂ (Stems fields others) (l.flatMap (blockOrigins others))
        ((l.map Prod.fst).flatMap block) := by
    intro l
    induction l with
    | nil => exact fun _ => .nil
    | cons x rest ih =>
      intro hsub
      obtain ⟨hx, hrest⟩ := List.cons_subset.mp hsub
      rw [List.flatMap_cons, List.map_cons, List.flatMap_cons]
      exact List.rel_append (stems_block hx) (ih hrest)
  have hmerge := hblocks _ (List.Subset.refl _)
  rw [List.zipIdx_map_fst, ← mergeFields_eq_flatMap] at hmerge
  rw [← List.range_eq_range'] at hfront
  exact List.rel_append hmerge hfront

theorem exists_matched_place {s : SharedField} (h : s ∈ shared fields others) :
    ∃ i, Matched fields others i (s.place others) := by
  obtain ⟨i, hi⟩ := exists_isFirst (CutFields.name_mem_of_mem_shared h)
  exact ⟨i, s.name, hi, CutFields.isFirst_place h⟩

/-- The followers of a shared field reach up to the next matched field, or to the end. -/
theorem followers_end {s : SharedField} (h : s ∈ shared fields others) :
    s.place others + s.followers.length + 1 = others.length ∨
      ∃ i, Matched fields others i (s.place others + s.followers.length + 1) := by
  obtain ⟨before, after, hshared⟩ := List.append_of_mem h
  have hplace : s.place others =
      ((CutFields.ofFields (fields.map Prod.fst) others).upTo before).length :=
    (CutFields.isFirst_of_shared hshared).idxOf_eq
  cases after with
  | nil =>
    have hlen := congrArg List.length (CutFields.eq_of_shared hshared)
    simp only [List.flatMap_nil, List.append_nil, List.length_append, List.length_cons] at hlen
    exact .inl (by omega)
  | cons t after =>
    have hnext : shared fields others = (before ++ [s]) ++ t :: after := by
      rw [hshared, List.append_assoc, List.singleton_append]
    have hplace' : t.place others = s.place others + s.followers.length + 1 := by
      rw [SharedField.place, (CutFields.isFirst_of_shared hnext).idxOf_eq, hplace]
      simp only [CutFields.upTo, SharedField.group, List.flatMap_append, List.flatMap_singleton,
        List.length_append, List.length_cons]
      omega
    have ht : t ∈ shared fields others := hnext ▸ by simp
    exact .inr (hplace' ▸ exists_matched_place ht)

/-- A field of the right record that is not matched follows its nearest matched predecessor, with
the fields between them in between. -/
theorem infix_origins {i k j : Nat} (h : Matched fields others i k) (hj : j < others.length)
    (hbetween : ∀ m, k < m → m ≤ j → ∀ i', ¬ Matched fields others i' m) :
    (.both i k :: (List.range' (k + 1) (j - k)).map .right) <:+: origins fields others := by
  obtain ⟨f, s, hpartner, rfl⟩ := exists_partner_iff.mpr h
  obtain ⟨-, hs, -, -⟩ := getElem?_partners_some hpartner
  have hreach : j - s.place others ≤ s.followers.length := by
    rcases followers_end hs with hend | ⟨i', hmatched⟩
    · omega
    · by_contra hlt
      exact hbetween _ (by omega) (by omega) i' hmatched
  have hreached : .both i (s.place others) ::
      (List.range' (s.place others + 1) (j - s.place others)).map .right <+:
        blockOrigins others ((f, some s), i) := by
    obtain ⟨more, hmore⟩ := Nat.exists_eq_add_of_le hreach
    refine List.cons_prefix_cons.mpr ⟨rfl, ?_⟩
    rw [hmore, ← List.range'_append_1, List.map_append]
    exact List.prefix_append _ _
  have hblock : blockOrigins others ((f, some s), i) <:+:
      (partners fields (shared fields others)).zipIdx.flatMap (blockOrigins others) := by
    obtain ⟨before, after, hsplit⟩ := List.append_of_mem
      (List.mem_zipIdx_iff_getElem?.mpr hpartner : ((f, some s), i) ∈ _)
    rw [hsplit, List.flatMap_append, List.flatMap_cons, ← List.append_assoc]
    exact List.infix_append _ _ _
  exact (hreached.isInfix.trans hblock).trans (List.prefix_append _ _).isInfix

/-- The fields of the right record in front of its first matched field stand at the end. -/
theorem suffix_origins (fields others : List Field) :
    ∃ p, (List.range p).map .right <:+ origins fields others ∧
      (∀ m < p, ∀ i, ¬ Matched fields others i m) ∧
        (p = others.length ∨ ∃ i, Matched fields others i p) := by
  have hflat : _ ++ (shared fields others).flatMap SharedField.group = others :=
    CutFields.ofFields_flatten (fields.map Prod.fst) others
  refine ⟨_, List.suffix_append _ _, fun m hm => ?_, ?_⟩
  · have hmem : .right m ∈ origins fields others :=
      List.mem_append_right _ (List.mem_map_of_mem (List.mem_range.mpr hm))
    exact ((interleaves_origins fields others).mem_right m).mp hmem |>.2
  · cases hshared : shared fields others with
    | nil =>
      rw [hshared, List.flatMap_nil, List.append_nil] at hflat
      exact .inl (congrArg List.length hflat)
    | cons s after =>
      have hplace : s.place others =
          (CutFields.ofFields (fields.map Prod.fst) others).front.length := by
        have hfirst : (CutFields.ofFields (fields.map Prod.fst) others).shared =
            [] ++ s :: after := hshared
        rw [SharedField.place, (CutFields.isFirst_of_shared hfirst).idxOf_eq]
        simp [CutFields.upTo]
      have hs : s ∈ shared fields others := hshared ▸ List.mem_cons_self
      exact .inr (hplace ▸ exists_matched_place hs)

end Origins

end Shape

end JsonShape
