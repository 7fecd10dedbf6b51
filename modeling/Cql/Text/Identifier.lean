import Cql.Text.Basic

/-!
Names of keyspaces, tables, types, columns and fields. A name of lower case letters, digits and
underscores that starts with a letter and is not reserved is written as it is; every other name stands
between double quotes, with a double quote inside written twice.
-/

namespace Cql.Identifier

/-- Words that cannot be names unless they are quoted. -/
def reserved : List String :=
  ["add", "allow", "alter", "and", "apply", "asc", "authorize", "batch", "begin", "by",
   "columnfamily", "create", "delete", "desc", "describe", "drop", "entries", "execute", "from",
   "full", "grant", "if", "in", "index", "infinity", "insert", "into", "is", "keyspace", "limit",
   "materialized", "mbean", "mbeans", "modify", "nan", "norecursive", "not", "null", "of", "on",
   "or", "order", "primary", "rename", "replace", "revoke", "schema", "select", "set", "table",
   "to", "token", "truncate", "unlogged", "unset", "update", "use", "using", "view", "where",
   "with"]

/-- Characters of bare names and of bare literals. -/
def isNameChar (c : Char) : Bool :=
  c.isAlphanum || c == '-' || c == '+' || c == '.' || c == '_' || c == '&'

/-- A name that needs no quotes. -/
def isPlain (name : String) : Bool :=
  match name.toList with
  | [] => false
  | c :: rest =>
    c.isLower && rest.all (fun c => c.isLower || c.isDigit || c == '_') && !reserved.contains name

/-- The name as it is written. -/
def display (name : String) : Text :=
  if isPlain name then name.toList
  else '"' :: name.toList.flatMap (fun c => if c = '"' then [c, c] else [c]) ++ ['"']

/-- Reads each pair of double quotes as one, from left to right. -/
def undouble : Text → Text
  | [] => []
  | '"' :: '"' :: rest => '"' :: undouble rest
  | c :: rest => c :: undouble rest

/-- The name a written identifier denotes: a quoted one keeps its case, a bare one is folded to lower
case. -/
def read (written : Text) : String :=
  match written with
  | '"' :: rest =>
    if rest.getLast? == some '"' then String.ofList (undouble rest.dropLast)
    else String.ofList (Text.lower written)
  | _ => String.ofList (Text.lower written)

end Cql.Identifier
