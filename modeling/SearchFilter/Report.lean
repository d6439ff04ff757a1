import SearchFilter.Query
import SearchFilter.Json.Encoding

/-!
# Reports

What the command answers about a query: its filter, its tokens, or its tree.  The two JSON views can
be written on one line or indented.  Line ends behind a query are not part of it.

The failures of the whole command are here too, with their wording.
-/

namespace SearchFilter

/-- Why a command has no answer. -/
inductive Failure where
  | search (error : Search.Error)
  | noQuery
  | unknownTopic (name : String)
  | notUtf8
  deriving DecidableEq, Repr

/-- The wording of a failure. -/
def Failure.message : Failure → String
  | .search error => "Parse error: " ++ error.message
  | .noQuery => "No query provided. Pass one as an argument or pipe it to stdin."
  | .unknownTopic name =>
    "Unknown topic: '" ++ name ++ "'\nRun 'trove syntax' to see available topics."
  | .notUtf8 => "IO error: stream did not contain valid UTF-8"

namespace Report

/-- What is shown of a query. -/
inductive View where
  | filter
  | tokens
  | tree
  deriving DecidableEq, Repr, Inhabited

/-- A query, and what is to be shown of it. -/
structure Request where
  query? : Option String
  options : Search.Options := {}
  view : View := .filter
  layout : Json.Layout := .compact

/-- The text of a query without the line ends behind it. -/
def trimmed (query : String) : String :=
  String.ofList (query.toList.reverse.dropWhile fun c => c = '\r' || c = '\n').reverse

/-- The text that answers a request. -/
def Request.answer (r : Request) : Except Failure String :=
  match r.query? with
  | none => .error .noQuery
  | some query =>
    let text := trimmed query
    match r.view with
    | .tokens => .ok (Json.render r.layout (.array ((Token.lex text).map Token.toJson)))
    | .tree => (Query.parse r.options text).mapError .search |>.map (Json.render r.layout ·.toJson)
    | .filter => (Query.compile r.options text).mapError .search

end Report

end SearchFilter
