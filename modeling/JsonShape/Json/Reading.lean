import JsonShape.Entries
import JsonShape.Json.Lexing

/-!
Tokens as values. The reading keeps the open lists and dictionaries on a stack, so nesting has no
limit, and lists every value when it is complete, with its place in the document. The document is
the value that is completed last; its items are the values one named step `item` away from the top,
where an element of a list is a step of that name. An empty name is no step. That is so in the one
backend of the streaming parser that is followed here; others take an empty name for a step as well.
-/

set_option autoImplicit false

namespace JsonShape.Json

/-- Where a value stands: at the top, at an item, or anywhere else. -/
inductive Place
  | top
  | item
  | inner
  deriving DecidableEq

namespace Place

/-- The step from a list to its elements. -/
def element : String := "item"

/-- The place that a step under a name leads to. From the top an empty name leads
nowhere, by a rule of the backend and not of paths as such. -/
def under (place : Place) (name : String) : Place :=
  match place with
  | top => if name = "" then top else if name = element then item else inner
  | _ => inner

end Place

/-- A list or dictionary that is still open, its content latest first. -/
inductive Frame
  | list (place : Place) (items : List Value)
  | dict (place : Place) (entries : List (String × Value)) (key : String)

/-- What may come next. -/
inductive Expected
  | value
  | valueOrClose
  | key
  | keyOrClose
  | colon
  | commaOrClose
  | nothing
  deriving DecidableEq

/-- A reading: the open frames, innermost first, what may come next, and the completed values with
their places, latest first. -/
structure Reading where
  stack : List Frame
  expected : Expected
  completed : List (Place × Value)

namespace Reading

/-- The reading before the first token. -/
def start : Reading := ⟨[], .value, []⟩

/-- The place of the next value. -/
def place (r : Reading) : Place :=
  match r.stack with
  | [] => .top
  | .list p _ :: _ => p.under Place.element
  | .dict p _ key :: _ => p.under key

/-- The reading after a value in the innermost frame. -/
def complete (r : Reading) (v : Value) : Reading :=
  let completed := (r.place, v) :: r.completed
  match r.stack with
  | [] => ⟨[], .nothing, completed⟩
  | .list p items :: rest => ⟨.list p (v :: items) :: rest, .commaOrClose, completed⟩
  | .dict p entries key :: rest =>
    ⟨.dict p ((key, v) :: entries) key :: rest, .commaOrClose, completed⟩

/-- The value of a frame that is closed. A repeated key keeps its first place and last value. -/
def closed : Frame → Value
  | .list _ items => .list items.reverse
  | .dict _ entries _ =>
    .dict ((Entries.ofList entries.reverse).map fun (key, v) => (.text key, v))

/-- The reading after the innermost frame is closed. -/
def close (r : Reading) (frame : Frame) (rest : List Frame) : Reading :=
  { r with stack := rest }.complete (closed frame)

/-- The reading after a token where a value is expected. -/
def takeValue (r : Reading) (token : Token) : Except ReadFault Reading :=
  match token with
  | .null => .ok (r.complete .null)
  | .bool b => .ok (r.complete (.bool b))
  | .number n => n.value?.map r.complete
  | .text (.ok s) => .ok (r.complete (.text s))
  | .text (.error f) => .error (.undecodable f)
  | .openList => .ok { r with stack := .list r.place [] :: r.stack, expected := .valueOrClose }
  | .openDict => .ok { r with stack := .dict r.place [] "" :: r.stack, expected := .keyOrClose }
  | _ => .error .malformed

/-- The reading after a token where a key is expected. -/
def takeKey (r : Reading) (token : Token) : Except ReadFault Reading :=
  match token, r.stack with
  | .text (.ok key), .dict p entries _ :: rest =>
    .ok { r with stack := .dict p entries key :: rest, expected := .colon }
  | .text (.error f), _ => .error (.undecodable f)
  | _, _ => .error .malformed

/-- The reading after one more token. -/
def take (r : Reading) (token : Token) : Except ReadFault Reading :=
  match r.expected with
  | .value => r.takeValue token
  | .valueOrClose =>
    match token, r.stack with
    | .closeList, .list p items :: rest => .ok (r.close (.list p items) rest)
    | _, _ => r.takeValue token
  | .key => r.takeKey token
  | .keyOrClose =>
    match token, r.stack with
    | .closeDict, .dict p entries key :: rest => .ok (r.close (.dict p entries key) rest)
    | _, _ => r.takeKey token
  | .colon =>
    match token with
    | .colon => .ok { r with expected := .value }
    | _ => .error .malformed
  | .commaOrClose =>
    match token, r.stack with
    | .comma, .list _ _ :: _ => .ok { r with expected := .value }
    | .comma, .dict _ _ _ :: _ => .ok { r with expected := .key }
    | .closeList, .list p items :: rest => .ok (r.close (.list p items) rest)
    | .closeDict, .dict p entries key :: rest => .ok (r.close (.dict p entries key) rest)
    | _, _ => .error .malformed
  | .nothing => .error .malformed

/-- The reading after some tokens, and the fault that ends it, if any. A document must be complete
when the tokens end. -/
def run : Reading → List Token → Reading × Option ReadFault
  | r, [] => (r, if r.expected = .nothing then none else some .malformed)
  | r, token :: rest =>
    match r.take token with
    | .ok next => run next rest
    | .error fault => (r, some fault)

end Reading

/-- The reading of a text. -/
def read (bytes : List UInt8) : Reading × Option ReadFault := Reading.start.run (tokens bytes)

/-- The document that a text holds. -/
def document? (bytes : List UInt8) : Except ReadFault Value :=
  match read bytes with
  | (_, some fault) => .error fault
  | (r, none) =>
    match r.completed with
    | (_, v) :: _ => .ok v
    | [] => .error .malformed

/-- The items of a text up to the first fault, and that fault, if any. -/
def items (bytes : List UInt8) : List Value × Option ReadFault :=
  let (r, fault) := read bytes
  ((r.completed.reverse.filter (·.1 = .item)).map Prod.snd, fault)

end JsonShape.Json
