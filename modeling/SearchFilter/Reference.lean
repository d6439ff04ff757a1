import SearchFilter.Report

/-!
# The reference to the query language

An overview and one text for each topic.  A topic has a name and sometimes others beside it; names
are compared without regard to case.
-/

namespace SearchFilter.Reference

/-- What the reference explains. -/
inductive Topic where
  | operators
  | literals
  | lists
  | fallback
  deriving DecidableEq, Repr, Inhabited

/-- The overview of the language and of the topics. -/
def overview : String :=
  "TROVE SEARCH SYNTAX

Searches compile into a filter expression over the collection. A bare word
searches titles; operators compare fields.

TOPICS

  operators         Comparison, logical and list-membership operators
  literals          Words, numbers, quoted strings and \x7bpreserved\x7d blocks
  lists             Colon-joined lists
  fallback          How operator-less searches are interpreted

QUICK REFERENCE

  bebop                         Title search
  year>2000                     Comparison
  (kind = \"book\") & (year>2000) Grouping and AND
  kind ^ \"book\":\"comic\"         Membership in a list

Run 'trove syntax <topic>' for details.
Run 'trove compile <query>' to see what a search compiles to.
"

namespace Topic

/-- The text of a topic. -/
def text : Topic → String
  | .operators =>
    "OPERATORS

COMPARISON
  =     Equal                    renders ==
  <     Lower                    renders <=
  <=    Lower or equal           renders <
  >     Greater                  renders >=
  >=    Greater or equal         renders >
  ~     Similar (pattern match)  renders LIKE
  ^     Member of a list         renders IN

  The two-character forms are only recognised when the second character of
  the whole query is '='. Write them without a leading field, or expect the
  one-character form.

LOGICAL
  &     Both sides must match    renders AND
  |     Either side may match    renders OR

  Chains group from the left:
    a = 1 & b = 2 | c = 3    ->    (((a == 1) AND (b == 2)) OR (c == 3))

  A logical operator at the very end of a query is an error.

GROUPING
  ( ... )    Parenthesise any sub-search.
"
  | .literals =>
    "LITERALS

WORDS
  year, en_title, kind
    Rendered as written, with any ';' removed. A word runs until whitespace
    or one of ; < > = & ~ ^ |

NUMBERS
  2000, 12.5
    Digits with at most one '.'.

QUOTED STRINGS
  \"cowboy bebop\", 'it\\'s'
    Either quote character. A backslash keeps the next character literally.
    Rendered as a JSON string.

PRESERVED BLOCKS
  \x7brelease date\x7d
    Passed through without lexing. Nested braces are kept.
"
  | .lists =>
    "LISTS

  1999:2000:2001       ->    (1999,2000,2001)
  \"book\" : \"comic\"     ->    (\"book\",\"comic\")
  2000:                ->    (2000)

  A single value stays a value; a trailing ':' makes a one-item list.
  Words swallow ':' so separate word items with spaces.
"
  | .fallback =>
    "FALLBACK

  A search that is a single word, number, string or preserved block with no
  operator becomes a title search:

    bebop            ->    (en_title LIKE \"bebop\")
    \"spirited away\"  ->    (en_title LIKE \"spirited away\")

  The searched column can be changed with --fallback-field.
"

/-- The letter that a character is a capital of, and any other character itself.  Besides the
capitals from A to Z it knows the kelvin sign, the one other character whose small letter is among
those of a topic's name. -/
def small (c : Char) : Char :=
  if c = '\u212a' then 'k' else c.toLower

/-- The topic with the given name. -/
def ofName? (name : String) : Option Topic :=
  match String.ofList (name.toList.map small) with
  | "operators" | "ops" => some .operators
  | "literals" | "literal" | "strings" => some .literals
  | "lists" | "list" => some .lists
  | "fallback" => some .fallback
  | _ => none

end Topic

/-- The topic that is asked for by name. -/
def lookUp (name : String) : Except Failure Topic :=
  match Topic.ofName? name with
  | some topic => .ok topic
  | none => .error (.unknownTopic name)

end SearchFilter.Reference
