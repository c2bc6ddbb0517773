import JsonShape.Inference

/-!
The wording of what goes wrong with shapes and values.
-/

set_option autoImplicit false

namespace JsonShape

/-- The wording of a foreign node that stands where a shape is needed. -/
def foreignMessage (shown : String) : String := "Not a json2zig type: " ++ shown

/-- The wording of an integer of too many digits that is not written out. -/
def tooManyDigitsMessage : String := digitsMessage ""

/-- The wording of an inference fault. -/
def InferenceFault.message : InferenceFault → String
  | unsupported kind => "Unsupported JSON value of type " ++ kind
  | illFormedText => "surrogates not allowed"
  | tooManyDigits => tooManyDigitsMessage
  | signalingNaN => "cannot convert signaling NaN to float"
  | foreign shown => foreignMessage shown
  | overflow => "int too large to convert to float"
  | tooDeep => "maximum recursion depth exceeded"
  | documentTooDeep => "document is nested too deeply to infer its type"

end JsonShape
