/-!
The builtins of the filter language: their names and how many arguments they take.
-/

namespace JsonFilter

/-- A builtin, of any number of arguments. -/
inductive Builtin where
  | error
  | not
  | length
  | utf8ByteLength
  | keys
  | has
  | add
  | any
  | all
  | type
  | toString
  | toNumber
  | toJson
  | fromJson
  | asciiDowncase
  | asciiUpcase
  | reverse
  | sort
  | join
  | split
  | startsWith
  | endsWith
  | test
  | empty
  | map
  | select
  | recurse
  | first
  | limit
  | range
  | env
  deriving DecidableEq

namespace Builtin

/-- The name by which a filter calls a builtin. -/
def name : Builtin → String
  | .error => "error"
  | .not => "not"
  | .length => "length"
  | .utf8ByteLength => "utf8bytelength"
  | .keys => "keys"
  | .has => "has"
  | .add => "add"
  | .any => "any"
  | .all => "all"
  | .type => "type"
  | .toString => "tostring"
  | .toNumber => "tonumber"
  | .toJson => "tojson"
  | .fromJson => "fromjson"
  | .asciiDowncase => "ascii_downcase"
  | .asciiUpcase => "ascii_upcase"
  | .reverse => "reverse"
  | .sort => "sort"
  | .join => "join"
  | .split => "split"
  | .startsWith => "startswith"
  | .endsWith => "endswith"
  | .test => "test"
  | .empty => "empty"
  | .map => "map"
  | .select => "select"
  | .recurse => "recurse"
  | .first => "first"
  | .limit => "limit"
  | .range => "range"
  | .env => "env"

/-- All builtins. -/
def list : List Builtin :=
  [.error, .not, .length, .utf8ByteLength, .keys, .has, .add, .any, .all, .type, .toString,
    .toNumber, .toJson, .fromJson, .asciiDowncase, .asciiUpcase, .reverse, .sort, .join, .split,
    .startsWith, .endsWith, .test, .empty, .map, .select, .recurse, .first, .limit, .range, .env]

/-- Whether a builtin can be called with a number of arguments. -/
def accepts (b : Builtin) (arity : Nat) : Bool :=
  match b with
  | .error => arity ≤ 1
  | .test => arity == 1 || arity == 2
  | .range => arity == 1 || arity == 2
  | .limit => arity == 2
  | .has => arity == 1
  | .join => arity == 1
  | .split => arity == 1
  | .startsWith => arity == 1
  | .endsWith => arity == 1
  | .map => arity == 1
  | .select => arity == 1
  | .first => arity == 1
  | _ => arity == 0

/-- The builtin of a name that takes a number of arguments. -/
def find? (name : String) (arity : Nat) : Option Builtin :=
  list.find? fun b => b.name == name && b.accepts arity

end Builtin

end JsonFilter
