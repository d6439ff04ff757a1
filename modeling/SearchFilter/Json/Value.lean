import SearchFilter.Json.Literal

/-!
# JSON values

The values that tokens and trees are written as, and the two layouts they are written in.

A layout says what stands before each item of a container and behind the colon of a field.  The
compact layout puts nothing there; the indented one puts every item on its own line, two spaces
deeper than the container.  An empty container is written without a gap in either.

A value is written as the list of its pieces in front of the pieces behind it, so the text of a
deep value is put together once and from the left.
-/

namespace SearchFilter

/-- A value whose fields are in the order they are written. -/
inductive Json where
  | bool (value : Bool)
  | string (text : String)
  | array (items : List Json)
  | object (fields : List (String × Json))
  deriving Repr, Inhabited

namespace Json

/-- What separates the parts of a container: the gap before an item `depth` containers deep, and
the text between a key and its value. -/
structure Layout where
  gap (depth : Nat) : String
  colon : String

namespace Layout

/-- Everything on one line, without a space. -/
def compact : Layout where
  gap _ := ""
  colon := ":"

/-- One item a line, two spaces deeper than its container. -/
def indented : Layout where
  gap depth := String.ofList ('\n' :: List.replicate (2 * depth) ' ')
  colon := ": "

end Layout

mutual

/-- The pieces of text of a value that stands `depth` containers deep, in front of the pieces that
follow it. -/
def pieces (layout : Layout) (depth : Nat) : Json → List String → List String
  | .bool value, rest => (if value then "true" else "false") :: rest
  | .string text, rest => literal text :: rest
  | .array [], rest => "[]" :: rest
  | .array (item :: items), rest =>
    "[" :: layout.gap (depth + 1) :: pieces layout (depth + 1) item
      (itemPieces layout (depth + 1) items (layout.gap depth :: "]" :: rest))
  | .object [], rest => "\x7b\x7d" :: rest
  | .object ((key, value) :: fields), rest =>
    "\x7b" :: layout.gap (depth + 1) :: literal key :: layout.colon ::
      pieces layout (depth + 1) value
        (fieldPieces layout (depth + 1) fields (layout.gap depth :: "\x7d" :: rest))

/-- The pieces of the items behind the first of an array. -/
def itemPieces (layout : Layout) (depth : Nat) : List Json → List String → List String
  | [], rest => rest
  | item :: items, rest =>
    "," :: layout.gap depth :: pieces layout depth item (itemPieces layout depth items rest)

/-- The pieces of the fields behind the first of an object. -/
def fieldPieces (layout : Layout) (depth : Nat) : List (String × Json) → List String → List String
  | [], rest => rest
  | (key, value) :: fields, rest =>
    "," :: layout.gap depth :: literal key :: layout.colon :: pieces layout depth value
      (fieldPieces layout depth fields rest)

end

/-- The text of a whole value. -/
def render (layout : Layout) (value : Json) : String :=
  String.join (value.pieces layout 0 [])

end Json

end SearchFilter
