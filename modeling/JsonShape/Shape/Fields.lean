import JsonShape.Shape

/-!
Pairing the fields of two records by name. A field of one record is shared with the other when each
is the first of its name in its list. The second list is cut at its shared fields, so that every
other field of it follows the nearest shared one before it, or stands in front of them all.
-/

set_option autoImplicit false

namespace JsonShape

/-- A shared field of the second record, with the unshared ones that follow it there. -/
structure SharedField where
  name : String
  shape : Shape
  followers : List Field

/-- A field list cut at its shared fields: those in front of the first, then each with its
followers. -/
structure CutFields where
  front : List Field
  shared : List SharedField

namespace CutFields

/-- Cuts a field list at the first field of each of some names. -/
def ofFields : List String → List Field → CutFields
  | _, [] => ⟨[], []⟩
  | names, (name, shape) :: rest =>
    if name ∈ names then
      let cut := ofFields (names.filter (· ≠ name)) rest
      ⟨[], ⟨name, shape, cut.front⟩ :: cut.shared⟩
    else
      let cut := ofFields names rest
      ⟨(name, shape) :: cut.front, cut.shared⟩

end CutFields

end JsonShape
