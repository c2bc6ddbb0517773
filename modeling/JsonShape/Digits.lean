/-!
Integers as their decimal digits. Very long integers are neither written out nor read.
-/

set_option autoImplicit false

namespace JsonShape

/-- The most digits an integer may have to be written out or read. -/
def digitLimit : Nat := 4300

/-- The digits of an integer behind its sign, unless there are too many. -/
def digits? (n : Int) : Option String :=
  if Nat.pow 10 digitLimit ≤ n.natAbs then none else some (toString n)

/-- The wording of an integer of too many digits, with what is known of it. -/
def digitsMessage (known : String) : String :=
  "Exceeds the limit (4300 digits) for integer string conversion" ++ known ++
    "; use sys.set_int_max_str_digits() to increase the limit"

end JsonShape
