/-!
# Values of a configuration file
-/

namespace Oberlet.Toml

mutual

/-- A value. A float or a date is kept as it was written. -/
inductive Value
  | string (text : String)
  | integer (value : Int)
  | float (literal : String)
  | boolean (value : Bool)
  | dateTime (literal : String)
  | array (items : List Value)
  | table (inner : Table)
  | tables (list : List Table)

/-- A table: names with their values, in the order in which they were written. No assignment adds
to a closed table. -/
inductive Table
  | mk (isClosed : Bool) (fields : List (String × Value))

end

deriving instance Repr for Value, Table

namespace Table

def isClosed : Table → Bool
  | mk isClosed _ => isClosed

def fields : Table → List (String × Value)
  | mk _ fields => fields

def empty (isClosed : Bool) : Table := ⟨isClosed, []⟩

def close (t : Table) : Table := ⟨true, t.fields⟩

def lookup? (t : Table) (key : String) : Option Value := List.lookup key t.fields

/-- Gives a name a value, in the place of the old one if there is one. -/
def put (t : Table) (key : String) (value : Value) : Table :=
  if (t.lookup? key).isSome then
    ⟨t.isClosed, t.fields.map fun (k, v) => if k == key then (k, value) else (k, v)⟩
  else ⟨t.isClosed, t.fields ++ [(key, value)]⟩

/-- The table that a value is. A list of tables that is written piece by piece stands for its last
table. -/
def ofValue? : Value → Option Table
  | .table inner => some inner
  | .tables list => list.getLast?
  | _ => none

/-- Puts another table in the place of the one that a value is or ends with. -/
def inPlaceOf (t : Table) : Value → Value
  | .tables list => .tables (list.dropLast ++ [t])
  | _ => .table t

def get? (t : Table) : List String → Option Value
  | [] => some (.table t)
  | [key] => t.lookup? key
  | key :: rest => do
    let inner ← ofValue? (← t.lookup? key)
    get? inner rest

/-- Makes the tables of a path that are missing. One that is made in a closed table is closed.
There is no result when a plain value is in the way. -/
def create? (t : Table) : List String → Option Table
  | [] => some t
  | key :: rest =>
    match t.lookup? key with
    | none => do
      let inner ← create? (empty t.isClosed) rest
      return t.put key (.table inner)
    | some value => do
      let inner ← create? (← ofValue? value) rest
      return t.put key (inner.inPlaceOf value)

/-- Gives a new name a value in the table at a path, which is made if need be. There is no result
when the table is closed or has the name, or when a plain value is in the way. -/
def assign? (t : Table) (key : String) (value : Value) : List String → Option Table
  | [] => if t.isClosed || (t.lookup? key).isSome then none else some (t.put key value)
  | name :: rest =>
    match t.lookup? name with
    | none => do
      let inner ← assign? (empty t.isClosed) key value rest
      return t.put name (.table inner)
    | some held => do
      let inner ← assign? (← ofValue? held) key value rest
      return t.put name (inner.inPlaceOf held)

/-- Gives the name at the end of a path a value. Tables on the way are made if they are missing,
and a name on the way that holds a plain value is passed over. -/
def set (t : Table) (value : Value) : List String → Table
  | [] => t
  | [key] => t.put key value
  | key :: rest =>
    match t.lookup? key with
    | none => t.put key (.table (set (empty false) value rest))
    | some held =>
      match ofValue? held with
      | some inner => t.put key ((set inner value rest).inPlaceOf held)
      | none => set t value rest

end Table

end Oberlet.Toml
