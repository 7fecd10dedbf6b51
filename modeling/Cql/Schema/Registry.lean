import Cql.Schema.Keyspace

/-!
The keyspaces that are known. A keyspace is put in or taken out as a whole.
-/

namespace Cql

structure Registry where
  keyspaces : Dictionary Keyspace
  deriving DecidableEq

namespace Registry

def empty : Registry := ⟨.empty⟩

def keyspace? (r : Registry) (name : String) : Option Keyspace := r.keyspaces.get? name

def userType? (r : Registry) (keyspace name : String) : Option UserType :=
  (r.keyspace? keyspace).bind (·.types.get? name)

def table? (r : Registry) (keyspace name : String) : Option Table :=
  (r.keyspace? keyspace).bind (·.tables.get? name)

/-- The keyspace takes the place of an earlier one of its name. -/
def replace (r : Registry) (k : Keyspace) : Registry := ⟨r.keyspaces.insert k.name k⟩

def remove (r : Registry) (name : String) : Registry := ⟨r.keyspaces.erase name⟩

def scope (r : Registry) : Scope := ⟨⟨r.userType?, .tuple⟩, r.table?⟩

end Registry

end Cql
