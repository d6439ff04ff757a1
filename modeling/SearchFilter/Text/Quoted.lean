import SearchFilter.Text.Invisible
import SearchFilter.Token

/-!
# Tokens in messages

A token is shown as its kind with its text in quotes.  Inside the quotes every character shows: the
quote, the backslash and the commonest control characters are written with a backslash, and any
other character that is invisible is written by its code point in hexadecimal.
-/

namespace SearchFilter

namespace Text

/-- A character as it is shown between quotes. -/
def shown (c : Char) : List Char :=
  match c with
  | '\x00' => ['\\', '0']
  | '\t' => ['\\', 't']
  | '\r' => ['\\', 'r']
  | '\n' => ['\\', 'n']
  | '"' => ['\\', '"']
  | '\\' => ['\\', '\\']
  | c =>
    if isInvisible c then ['\\', 'u', '\x7b'] ++ Nat.toDigits 16 c.toNat ++ ['\x7d'] else [c]

/-- A text between quotes, with every character visible. -/
def quoted (text : String) : String :=
  String.ofList ('"' :: (text.toList.flatMap shown ++ ['"']))

end Text

/-- A token as it is shown in a message. -/
def Token.display (t : Token) : String :=
  t.kind.name ++ "(" ++ Text.quoted t.text ++ ")"

end SearchFilter
