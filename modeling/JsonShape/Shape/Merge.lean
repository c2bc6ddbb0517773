import JsonShape.Shape.Fields

/-!
The merge of two shapes: the smallest shape around both. Unknown shapes are neutral, an any shape
absorbs, an optional mark on either side stays, integers widen to floats, and any other two kinds
make an any shape. Records keep the order of the left one.

Beside the merge stands its `Progress`: how many merges of nodes it begins, and whether it is given
up, because two foreign nodes of one kind meet, because an integer is too large to widen, or because
the nesting exceeds some room. A merge that is given up has no result, whatever `merge` says of it.
-/

set_option autoImplicit false

namespace JsonShape

namespace Shape

/-- Applies a function below all optional marks of a shape. -/
def underOptional (f : Shape → Shape) : Shape → Shape
  | optional s => optional (underOptional f s)
  | s => f s

mutual

/-- The smallest shape around two shapes. -/
def merge : Shape → Shape → Shape
  | unknown, b => b
  | any, _ => any
  | optional a, b =>
    match b with
    | unknown => optional a
    | any => any
    | optional b => optional (merge a b)
    | b => optional (merge a b)
  | bool, b =>
    b.underOptional fun
      | unknown | bool => bool
      | _ => any
  | int r, b =>
    b.underOptional fun
      | unknown => int r
      | int s => int (r.hull s)
      | float s => float (r.toBinary64.hull s)
      | _ => any
  | float r, b =>
    b.underOptional fun
      | unknown => float r
      | int s => float (r.hull s.toBinary64)
      | float s => float (r.hull s)
      | _ => any
  | text r, b =>
    b.underOptional fun
      | unknown => text r
      | text s => text (r.hull s)
      | _ => any
  | list r a, b =>
    b.underOptional fun
      | unknown => list r a
      | list s b => list (r.hull s) (merge a b)
      | _ => any
  | record fields, b =>
    b.underOptional fun
      | unknown => record fields
      | record others =>
        let cut := CutFields.ofFields (fields.map Prod.fst) others
        record (mergeFields fields cut.shared ++ cut.front.map Field.makeOptional)
      | _ => any
  | foreign x, b =>
    b.underOptional fun
      | unknown => foreign x
      | foreign y => if x.sameKind y then foreign x else any
      | _ => any

/-- The fields of the left record, each merged with the shared field of its name and followed by
that field's followers. A field without a partner becomes optional. -/
def mergeFields : List (String × Shape) → List SharedField → List (String × Shape)
  | [], _ => []
  | (name, a) :: rest, shared =>
    match shared.find? (·.name == name) with
    | none => (name, a.makeOptional) :: mergeFields rest shared
    | some b =>
      (name, merge a b.shape) :: (b.followers.map Field.makeOptional ++
        mergeFields rest (shared.filter (·.name != name)))

end

end Shape

/-- Why a merge is given up: two foreign nodes of one kind meet, an integer bound beyond the doubles
meets a float, or the nesting is too deep. -/
inductive MergeFault
  | foreign (node : Foreign)
  | overflow
  | tooDeep
  deriving DecidableEq

/-- How far a merge gets: the merges of nodes begun, and the fault that ends it, if any. -/
structure Progress where
  merges : Nat
  fault : Option MergeFault

namespace Progress

/-- Nothing left to merge. -/
def done : Progress := ⟨0, none⟩

/-- The merge of one node is begun before the rest. -/
def step (rest : Progress) : Progress := ⟨rest.merges + 1, rest.fault⟩

/-- A second part is reached only if the first was not given up. -/
def andThen (p : Progress) (q : Unit → Progress) : Progress :=
  match p.fault with
  | some _ => p
  | none => ⟨p.merges + (q ()).merges, (q ()).fault⟩

/-- A merge that finds no room. -/
def noRoom : Progress := ⟨0, some .tooDeep⟩

/-- Integers that widen to floats: the merge is given up if a bound is beyond the doubles. -/
def ofWidening (r : Range Int) : Progress :=
  if r.fitsBinary64 then done else ⟨0, some .overflow⟩

/-- Descends through the optional marks of a shape, one merge a mark. -/
def underOptional (f : Nat → Shape → Progress) : Nat → Shape → Progress
  | 0, _ => noRoom
  | room + 1, .optional s => (underOptional f room s).step
  | room + 1, s => (f room s).step

mutual

/-- The progress of the merge of two shapes within some room for nesting. -/
def ofMerge : Nat → Shape → Shape → Progress
  | 0, _, _ => noRoom
  | room + 1, .optional a, b =>
    match b with
    | .unknown | .any => done.step
    | .optional b => (ofMerge room a b).step
    | b => (ofMerge room a b).step
  | room + 1, .list _ a, b =>
    underOptional (fun
      | room, .list _ b => ofMerge room a b
      | _, _ => done) (room + 1) b
  | room + 1, .record fields, b =>
    underOptional (fun
      | room, .record others =>
        ofFields room fields (CutFields.ofFields (fields.map Prod.fst) others).shared
      | _, _ => done) (room + 1) b
  | room + 1, .foreign x, b =>
    underOptional (fun
      | _, .foreign y => if x.sameKind y then ⟨0, some (.foreign x)⟩ else done
      | _, _ => done) (room + 1) b
  | _ + 1, .unknown, _ | _ + 1, .any, _ => done.step
  | room + 1, .int r, b =>
    underOptional (fun
      | _, .float _ => ofWidening r
      | _, _ => done) (room + 1) b
  | room + 1, .float _, b =>
    underOptional (fun
      | _, .int s => ofWidening s
      | _, _ => done) (room + 1) b
  | room + 1, .bool, b | room + 1, .text _, b => underOptional (fun _ _ => done) (room + 1) b

/-- The progress of the merges of a record's fields with their shared fields. -/
def ofFields : Nat → List (String × Shape) → List SharedField → Progress
  | _, [], _ => done
  | room, (name, a) :: rest, shared =>
    match shared.find? (·.name == name) with
    | none => ofFields room rest shared
    | some b =>
      (ofMerge room a b.shape).andThen fun _ =>
        ofFields room rest (shared.filter (·.name != name))

end

end Progress

end JsonShape
