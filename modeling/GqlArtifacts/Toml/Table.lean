import GqlArtifacts.Toml

/-!
# Tables under construction

A document writes its tables piece by piece: by headers, by dotted keys, and by headers further down
that imply the tables above them. Which pieces may still be added to a table depends on its
`Origin`. `Table.set?` puts a value at a dotted key, and a `Draft` is the document as far as it is
read.
-/

namespace GqlArtifacts.Toml

/-- How a table came to be. -/
inductive Origin where
  /-- It has a header of its own, or braces. -/
  | header
  /-- A header below it implies it. -/
  | implied
  /-- It was written as part of a dotted key. -/
  | dotted
deriving DecidableEq, Inhabited

mutual

inductive Item where
  | value (v : Value)
  | table (t : Table)
  /-- The tables that headers in double brackets have added under one name, last first. -/
  | tables (ts : List Table)

inductive Table where
  | mk (origin : Origin) (fields : List (String × Item))

end

instance : Inhabited Table := ⟨.mk .header []⟩

namespace Table

def origin : Table → Origin
  | mk o _ => o

def fields : Table → List (String × Item)
  | mk _ fs => fs

def empty (o : Origin) : Table := mk o []

def find? (t : Table) (k : String) : Option Item := (t.fields.find? (·.1 == k)).map Prod.snd

/-- Replaces the item of a name at its place, or adds one at the end. -/
def put (t : Table) (k : String) (i : Item) : Table :=
  if (t.find? k).isSome then
    mk t.origin (t.fields.map fun e => if e.1 == k then (k, i) else e)
  else mk t.origin (t.fields ++ [(k, i)])

def erase (t : Table) (k : String) : Table := mk t.origin (t.fields.filter (·.1 != k))

/-- Changes the table at a path, where an array of tables stands for its last table. Missing tables
get the origin `o`; a dotted key does not lead into a table with a header. -/
def change? (o : Origin) (f : Table → Option Table) : List String → Table → Option Table
  | [], t => f t
  | k :: path, t =>
    match t.find? k with
    | none => do
      let child ← change? o f path (empty o)
      return t.put k (.table child)
    | some (.value _) => none
    | some (.table child) =>
      if o = .dotted ∧ child.origin = .header then none
      else do
        let child ← change? o f path child
        return t.put k (.table child)
    | some (.tables []) => none
    | some (.tables (last :: before)) => do
      let last ← change? o f path last
      return t.put k (.tables (last :: before))

/-- Puts a value at a dotted key. Dotted keys add only to tables that dotted keys made. -/
def set? (path : List String) (k : String) (v : Value) (t : Table) : Option Table :=
  change? .dotted
    (fun t =>
      if (t.origin = .dotted) ↔ path = [] then none
      else if (t.find? k).isSome then none
      else some (t.put k (.value v)))
    path t

end Table

mutual

def Item.toValue : Item → Value
  | .value v => v
  | .table t => t.toValue
  | .tables ts => .array (Table.allToValues ts).reverse

def Table.toValue : Table → Value
  | .mk _ fields => .table (Table.fieldsToValues fields)

def Table.allToValues : List Table → List Value
  | [] => []
  | t :: ts => t.toValue :: Table.allToValues ts

def Table.fieldsToValues : List (String × Item) → List (String × Value)
  | [] => []
  | (k, i) :: rest => (k, i.toValue) :: Table.fieldsToValues rest

end

/-- A document as far as it is read: the closed tables, and the open one with the path and the kind
of its header. The path of the top table is empty. -/
structure Draft where
  closed : Table
  path : List String
  repeated : Bool
  current : Table
deriving Inhabited

namespace Draft

def start : Draft := ⟨.empty .header, [], false, .empty .header⟩

/-- Puts the open table at its place. -/
def close? (d : Draft) : Option Table :=
  match d.path.getLast? with
  | none => some d.current
  | some k =>
    d.closed.change? .implied
      (fun parent =>
        match d.repeated, parent.find? k with
        | false, none => some (parent.put k (.table d.current))
        | true, none => some (parent.put k (.tables [d.current]))
        | true, some (.tables ts) => some (parent.put k (.tables (d.current :: ts)))
        | _, _ => none)
      d.path.dropLast

/-- The table that a header opens again: the one at its path, if a header below has implied it. -/
def reopened? (closed : Table) (path : List String) : Option Table :=
  match path with
  | [] => none
  | [k] =>
    match closed.find? k with
    | some (.table t) => if t.origin = .implied then some t else none
    | _ => none
  | k :: rest =>
    match closed.find? k with
    | some (.table t) => reopened? t rest
    | some (.tables ts) => ts.head?.bind fun t => reopened? t rest
    | _ => none

/-- Closes the open table and opens the one of a header. -/
def header? (path : List String) (repeated : Bool) (d : Draft) : Option Draft := do
  let closed ← d.close?
  if repeated then return ⟨closed, path, true, .empty .header⟩
  else
    match reopened? closed path, path.getLast? with
    | some t, some k =>
      let closed ← closed.change? .implied (fun parent => some (parent.erase k)) path.dropLast
      return ⟨closed, path, false, .mk .header t.fields⟩
    | _, _ => return ⟨closed, path, false, .empty .header⟩

def set? (path : List String) (k : String) (v : Value) (d : Draft) : Option Draft := do
  return { d with current := ← d.current.set? path k v }

end Draft

end GqlArtifacts.Toml
