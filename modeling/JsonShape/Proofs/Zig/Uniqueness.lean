import JsonShape.Proofs.Zig.Skeleton
import JsonShape.Proofs.Zig.Structs

/-!
What a written shape tells of the shape. In the default spelling no type's text is the beginning of
another's: where two texts begin with written shapes and agree, the two shapes have one skeleton and
end at one place. So a text has one skeleton, and a declaration one name besides.
-/

set_option autoImplicit false

namespace JsonShape.Zig

open Shape

section Prefixes

/-- An identifier ends where no word goes on, so what stands behind it tells nothing of it. -/
theorem identifier_append_inj {name other : String} {d : Char} (hd : isWordChar d = false)
    {x y : List Char}
    (h : (identifier name).toList ++ d :: x = (identifier other).toList ++ d :: y) :
    name = other ∧ x = y := by
  have htaken := congrArg takeIdentifier h
  rw [takeIdentifier_identifier name hd, takeIdentifier_identifier other hd] at htaken
  rw [htaken] at h
  exact ⟨identifier_injective (String.toList_injective htaken),
    (List.cons.inj (List.append_cancel_left h)).2⟩

/-- The line that closes a struct is none that names a field. -/
theorem closing_ne_heading (depth depth' : Nat) (name : String) (x y : List Char) :
    (indentation depth).toList ++ '\x7d' :: x ≠ heading depth' name ++ y := by
  intro h
  obtain ⟨c, cs, hname, hblank, hbrace⟩ := exists_identifier_cons name
  have hclose : ('\x7d' : Char) ≠ ' ' := by decide
  have hheading : heading depth' name ++ y =
      (indentation depth').toList ++ c :: (cs ++ (':' :: ' ' :: y)) := by
    simp [heading, hname]
  have hdrop := congrArg (List.dropWhile (· == ' ')) (h.trans hheading)
  rw [dropWhile_indentation depth hclose, dropWhile_indentation depth' hblank] at hdrop
  exact hbrace (List.cons.inj hdrop).1.symm

/-- The character that the text of a shape begins with. -/
def firstChar : Shape → Char
  | .unknown => 'U'
  | .any | .record _ => 's'
  | .bool => 'b'
  | .int _ => 'i'
  | .float _ => 'f'
  | .text _ | .list _ _ => '['
  | .optional _ => '?'
  | .foreign _ => ' '

theorem exists_typeText_cons (depth : Nat) {s : Shape} (hs : s.isGenuine = true) :
    ∃ cs, typeText {} depth s = firstChar s :: cs := by
  have hint : "i64".toList = 'i' :: "64".toList := rfl
  have hfloat : "f64".toList = 'f' :: "64".toList := rfl
  have htext : "[]const u8".toList = '[' :: "]const u8".toList := rfl
  cases s with
  | int r => exact ⟨_, (typeText_of_isPrimitive {} depth rfl).trans hint⟩
  | float r => exact ⟨_, (typeText_of_isPrimitive {} depth rfl).trans hfloat⟩
  | text r => exact ⟨_, (typeText_of_isPrimitive {} depth rfl).trans htext⟩
  | foreign node => simp at hs
  | _ => exact ⟨_, rfl⟩

theorem firstChar_eq (depth : Nat) {s t : Shape} (hs : s.isGenuine = true)
    (ht : t.isGenuine = true) {x y : List Char}
    (h : typeText {} depth s ++ x = typeText {} depth t ++ y) : firstChar s = firstChar t := by
  obtain ⟨cs, hcs⟩ := exists_typeText_cons depth hs
  obtain ⟨ds, hds⟩ := exists_typeText_cons depth ht
  rw [hcs, hds] at h
  exact (List.cons.inj h).1

/-- A text begins with brackets as a list does, but no element's type begins as it goes on. -/
theorem typeText_text_ne_list (depth : Nat) (r r' : Range Int) {item : Shape}
    (hitem : item.isGenuine = true) (x y : List Char) :
    typeText {} depth (.text r) ++ x ≠ typeText {} depth (.list r' item) ++ y := by
  intro h
  obtain ⟨cs, hcs⟩ := exists_typeText_cons depth hitem
  have hspelled : "[]const u8".toList = '[' :: ']' :: 'c' :: "onst u8".toList := rfl
  have htext : typeText {} depth (.text r) = '[' :: ']' :: 'c' :: "onst u8".toList :=
    (typeText_of_isPrimitive {} depth rfl).trans hspelled
  rw [htext, typeText, hcs] at h
  have hchar := (List.cons.inj (List.cons.inj (List.cons.inj h).2).2).1
  cases item <;> simp [firstChar] at hchar

/-- An any shape begins with the letters of a record's head, and then differs. -/
theorem typeText_any_ne_record (depth : Nat) (fields : List Field) (x y : List Char) :
    typeText {} depth .any ++ x ≠ typeText {} depth (.record fields) ++ y := by
  intro h
  have hany : typeText {} depth .any = 's' :: 't' :: 'd' :: ".json.Value".toList := rfl
  have hhead : structHead = 's' :: 't' :: 'r' :: "uct \x7b".toList := rfl
  rw [hany, typeText, hhead] at h
  have hchar := (List.cons.inj (List.cons.inj (List.cons.inj h).2).2).1
  exact absurd hchar (by decide)

private theorem fieldsText_append_inj (depth : Nat) {fields others : List Field}
    (hothers : ∀ g ∈ others, g.2.isGenuine = true)
    (h : ∀ f ∈ fields, ∀ (t : Shape) (x y : List Char), t.isGenuine = true →
      typeText {} (depth + 1) f.2 ++ x = typeText {} (depth + 1) t ++ y →
        f.2.skeleton = t.skeleton ∧ x = y) {x y : List Char}
    (heq : fieldsText {} (depth + 1) fields ++ ((indentation depth).toList ++ '\x7d' :: x) =
      fieldsText {} (depth + 1) others ++ ((indentation depth).toList ++ '\x7d' :: y)) :
    fields.map (Prod.map id skeleton) = others.map (Prod.map id skeleton) ∧ x = y := by
  induction fields generalizing others with
  | nil =>
    cases others with
    | nil =>
      have hrest := List.append_cancel_left (List.append_cancel_left heq)
      exact ⟨rfl, (List.cons.inj hrest).2⟩
    | cons g others =>
      rw [fieldsText, fieldsText, List.append_assoc] at heq
      exact absurd heq (closing_ne_heading _ _ _ _ _)
  | cons f rest ih =>
    obtain ⟨hfirst, hrest⟩ := List.forall_mem_cons.mp h
    cases others with
    | nil =>
      rw [fieldsText, fieldsText, List.append_assoc] at heq
      exact absurd heq.symm (closing_ne_heading _ _ _ _ _)
    | cons g others =>
      obtain ⟨hgenuine, hothers⟩ := List.forall_mem_cons.mp hothers
      simp only [fieldsText, heading, List.append_assoc, List.cons_append, List.nil_append] at heq
      have hcolon : isWordChar ':' = false := by decide
      obtain ⟨hname, htail⟩ := identifier_append_inj hcolon (List.append_cancel_left heq)
      obtain ⟨hshape, htail⟩ := hfirst _ _ _ hgenuine (List.cons.inj htail).2
      obtain ⟨hfields, hxy⟩ := ih hothers hrest (List.cons.inj (List.cons.inj htail).2).2
      refine ⟨?_, hxy⟩
      rw [List.map_cons, List.map_cons, hfields, Prod.map, Prod.map, hname, hshape]

/-- Where two texts begin with written shapes and agree, the shapes have one skeleton and end at
one place. -/
theorem typeText_append_inj (depth : Nat) {s t : Shape} (hs : s.isGenuine = true)
    (ht : t.isGenuine = true) {x y : List Char}
    (h : typeText {} depth s ++ x = typeText {} depth t ++ y) :
    s.skeleton = t.skeleton ∧ x = y := by
  -- First characters tell all kinds apart but texts from lists, and any shapes from records.
  induction s using nodeInduction generalizing depth t x y with
  | unknown =>
    have hfirst := firstChar_eq depth hs ht h
    cases t with
    | unknown => exact ⟨rfl, List.append_cancel_left h⟩
    | _ => simp [firstChar] at hfirst
  | any =>
    have hfirst := firstChar_eq depth hs ht h
    cases t with
    | any => exact ⟨rfl, List.append_cancel_left h⟩
    | record others => exact absurd h (typeText_any_ne_record depth others x y)
    | _ => simp [firstChar] at hfirst
  | bool =>
    have hfirst := firstChar_eq depth hs ht h
    cases t with
    | bool => exact ⟨rfl, List.append_cancel_left h⟩
    | _ => simp [firstChar] at hfirst
  | int r =>
    have hfirst := firstChar_eq depth hs ht h
    cases t with
    | int r' => exact ⟨rfl, List.append_cancel_left h⟩
    | _ => simp [firstChar] at hfirst
  | float r =>
    have hfirst := firstChar_eq depth hs ht h
    cases t with
    | float r' => exact ⟨rfl, List.append_cancel_left h⟩
    | _ => simp [firstChar] at hfirst
  | text r =>
    have hfirst := firstChar_eq depth hs ht h
    cases t with
    | text r' => exact ⟨rfl, List.append_cancel_left h⟩
    | list r' item => exact absurd h (typeText_text_ne_list depth r r' (by simpa using ht) x y)
    | _ => simp [firstChar] at hfirst
  | list r item ih =>
    have hfirst := firstChar_eq depth hs ht h
    cases t with
    | text r' => exact absurd h.symm (typeText_text_ne_list depth r' r (by simpa using hs) y x)
    | list r' other =>
      rw [typeText, typeText] at h
      rw [isGenuine_list] at hs ht
      obtain ⟨hitem, hxy⟩ := ih depth hs ht (List.cons.inj (List.cons.inj h).2).2
      exact ⟨by rw [skeleton, skeleton, hitem], hxy⟩
    | _ => simp [firstChar] at hfirst
  | record fields ih =>
    have hfirst := firstChar_eq depth hs ht h
    cases t with
    | any => exact absurd h.symm (typeText_any_ne_record depth fields y x)
    | record others =>
      rw [isGenuine_record_iff] at hs ht
      simp only [typeText, List.append_assoc, List.cons_append, List.nil_append] at h
      have hbody := (List.cons.inj (List.append_cancel_left h)).2
      obtain ⟨hfields, hxy⟩ := fieldsText_append_inj depth ht
        (fun f hf t x y ht h => ih f hf (depth + 1) (hs f hf) ht h) hbody
      exact ⟨by rw [skeleton_record, skeleton_record, hfields], hxy⟩
    | _ => simp [firstChar] at hfirst
  | optional child ih =>
    have hfirst := firstChar_eq depth hs ht h
    cases t with
    | optional other =>
      rw [typeText, typeText] at h
      rw [isGenuine_optional] at hs ht
      obtain ⟨hchild, hxy⟩ := ih depth hs ht (List.cons.inj h).2
      exact ⟨by rw [skeleton, skeleton, hchild], hxy⟩
    | _ => simp [firstChar] at hfirst
  | foreign node => simp at hs

end Prefixes

section Declarations

theorem exists_declarationHead_cons (name : String) : ∃ cs, declarationHead name = 'p' :: cs := by
  have hpub : "pub const ".toList = 'p' :: "ub const ".toList := rfl
  refine ⟨"ub const ".toList ++ (identifier name ++ " = ").toList, ?_⟩
  rw [declarationHead, String.append_assoc, String.toList_append, hpub, List.cons_append]

/-- A declaration tells its name and where its type begins. -/
theorem declarationHead_append_inj {name other : String} {x y : List Char}
    (h : declarationHead name ++ x = declarationHead other ++ y) : name = other ∧ x = y := by
  have hequals : " = ".toList = ' ' :: "= ".toList := rfl
  rw [declarationHead, declarationHead, String.toList_append, String.toList_append,
    String.toList_append, String.toList_append, hequals, List.append_assoc, List.append_assoc,
    List.append_assoc, List.append_assoc] at h
  have hblank : isWordChar ' ' = false := by decide
  obtain ⟨hname, htail⟩ := identifier_append_inj hblank (List.append_cancel_left h)
  exact ⟨hname, List.append_cancel_left htail⟩

/-- A type's text is no declaration, since no type begins as a declaration does. -/
theorem writtenText_none_ne_some {s t : Shape} (hs : s.isGenuine = true) (name : String) :
    writtenText {} none s ≠ writtenText {} (some name) t := by
  intro h
  obtain ⟨cs, hcs⟩ := exists_typeText_cons 0 hs
  obtain ⟨ds, hds⟩ := exists_declarationHead_cons name
  rw [writtenText, writtenText, hcs, hds] at h
  have hchar := (List.cons.inj h).1
  cases s <;> simp [firstChar] at hchar

/-- A written text has one skeleton, and one name if it is a declaration. -/
theorem writtenText_inj {s t : Shape} (hs : s.isGenuine = true) (ht : t.isGenuine = true)
    {name other : Option String} (h : writtenText {} name s = writtenText {} other t) :
    name = other ∧ s.skeleton = t.skeleton := by
  cases name with
  | none =>
    cases other with
    | none =>
      have htype : typeText {} 0 s ++ [] = typeText {} 0 t ++ [] := congrArg (· ++ []) h
      exact ⟨rfl, (typeText_append_inj 0 hs ht htype).1⟩
    | some other => exact absurd h (writtenText_none_ne_some hs other)
  | some name =>
    cases other with
    | none => exact absurd h.symm (writtenText_none_ne_some ht name)
    | some other =>
      obtain ⟨hname, htail⟩ := declarationHead_append_inj h
      exact ⟨by rw [hname], (typeText_append_inj 0 hs ht htail).1⟩

/-- Two genuine shapes within the room for nesting, each written as a type or as the declaration of
a type, have one text just if they have one skeleton and are declared under one name or both none. A
shape without room is not written. -/
theorem write_eq_iff {s t : Shape} (hs : s.isGenuine = true) (ht : t.isGenuine = true)
    (name other : Option String) :
    (∃ u v, write {} name s = .ok u ∧ write {} other t = .ok v ∧
      (u = v ↔ name = other ∧ s.skeleton = t.skeleton)) ∨
    (nestingRoom ≤ s.height ∧ write {} name s = .error .tooDeep) ∨
    (nestingRoom ≤ t.height ∧ write {} other t = .error .tooDeep) := by
  have hcomplete : Spelling.isComplete {} = true := rfl
  rcases write_of_isGenuine hcomplete hs name with hleft | hdeep
  · rcases write_of_isGenuine hcomplete ht other with hright | hdeep
    · refine .inl ⟨_, _, hleft, hright, fun heq => ?_, ?_⟩
      · exact writtenText_inj hs ht (String.ofList_injective heq)
      · rintro ⟨rfl, hskeleton⟩
        rw [write_eq_of_skeleton_eq hskeleton, hright] at hleft
        exact (Except.ok.inj hleft).symm
    · exact .inr (.inr hdeep)
  · exact .inr (.inl hdeep)

/-- A record with a name twice, a mark on a mark, and a name that reads like a written field. -/
def forgedRecord : Shape :=
  record [("a: []const u8,\n    b", optional (optional (text ⟨1, 2⟩))), ("", any), ("", any)]

/-- A record that has the fields that the other's name reads like. -/
def plainRecord : Shape :=
  record [("a", text ⟨0, 5⟩), ("b", optional (optional (text ⟨1, 2⟩))), ("", any), ("", any)]

theorem write_eq_iff_forgedRecord :
    forgedRecord.isGenuine = true ∧ plainRecord.isGenuine = true ∧
      ∃ u v, write {} (some "T") forgedRecord = .ok u ∧ write {} (some "T") plainRecord = .ok v ∧
        u ≠ v := by
  have hforged : forgedRecord.isGenuine = true := by decide
  have hplain : plainRecord.isGenuine = true := by decide
  have hroom : ¬ nestingRoom ≤ forgedRecord.height := by decide
  have hroom' : ¬ nestingRoom ≤ plainRecord.height := by decide
  rcases write_eq_iff hforged hplain (some "T") (some "T") with ⟨u, v, hu, hv, hiff⟩ | hdeep | hdeep
  · refine ⟨hforged, hplain, u, v, hu, hv, fun heq => ?_⟩
    exact absurd (congrArg fieldNames (hiff.mp heq).2) (by decide)
  · exact absurd hdeep.1 hroom
  · exact absurd hdeep.1 hroom'

end Declarations

end JsonShape.Zig
