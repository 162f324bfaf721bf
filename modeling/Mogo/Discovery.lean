import Mathlib.Data.List.Infix
import Mathlib.Data.List.Sort
import Mathlib.Logic.Function.Basic
import Mogo.Value

/-!
# Discovery of Keys

What the script finds out about a source table before it plans the migration: the primary key
and the declared foreign keys from the catalog views of `information_schema`, and the foreign
keys it guesses from column names.

The catalog is a list of constraints, and the three views the script queries are computed from
it the way PostgreSQL defines them: `constraint_column_usage` reports the referenced columns of
a foreign key and the own columns of every other constraint. A view may be out of reach, as it
is for a client of PostgREST; a query of it is then an error.
-/

namespace Mogo

/-- A row of `information_schema.columns`, or of the fallbacks that stand in for it. -/
structure ColumnInfo where
  column_name : String
  data_type : Option String
  udt_name : Option String
  deriving DecidableEq, Repr

/-- The table and the column a foreign key refers to. -/
structure Reference where
  table : String
  column : String
  deriving DecidableEq, Repr

/-- A foreign key as it is discovered, guessed or configured. -/
structure ForeignKey where
  column : String
  references : Reference
  deriving DecidableEq, Repr

/-! ### The catalog -/

/-- The kinds of constraints the script asks for, and the rest. -/
inductive ConstraintType where
  | primaryKey
  | unique
  | foreignKey
  deriving DecidableEq, Repr

/-- A constraint: its columns in key order and, position by position, what they refer to. A
primary key or a unique constraint refers to its own columns. -/
structure Constraint where
  table_schema : String
  table_name : String
  constraint_name : String
  constraint_type : ConstraintType
  columns : List (String × Reference)
  deriving DecidableEq, Repr

/-- A row of `key_column_usage`: a column of a constraint and its position there. -/
structure KeyColumn where
  constraint_name : String
  column_name : String
  ordinal_position : ℕ
  deriving DecidableEq, Repr

/-- A row of `constraint_column_usage`. -/
structure UsedColumn where
  constraint_name : String
  table_name : String
  column_name : String
  deriving DecidableEq, Repr

/-- The catalog, with what of it the client may read. -/
structure InformationSchema where
  constraints : List Constraint
  tableConstraintsReadable : Bool
  keyColumnUsageReadable : Bool
  constraintColumnUsageReadable : Bool

namespace InformationSchema

variable (catalog : InformationSchema) (schema table : String)

/-- The constraint names of one type and table; `none` is a failed query. -/
def tableConstraints (type : ConstraintType) : Option (List String) :=
  if catalog.tableConstraintsReadable then
    some ((catalog.constraints.filter fun c =>
      c.table_schema = schema ∧ c.table_name = table ∧ c.constraint_type = type).map
        Constraint.constraint_name)
  else none

/-- The key columns of one constraint. -/
def keyColumns (c : Constraint) : List KeyColumn :=
  (c.columns.zipIdx 1).map fun x => ⟨c.constraint_name, x.1.1, x.2⟩

/-- The key columns of the named constraints of a table, by ordinal position. -/
def keyColumnUsage (names : List String) : Option (List KeyColumn) :=
  if catalog.keyColumnUsageReadable then
    let rows := (catalog.constraints.filter fun c =>
      c.table_schema = schema ∧ c.table_name = table ∧ c.constraint_name ∈ names).flatMap keyColumns
    some (rows.insertionSort fun a b => a.ordinal_position ≤ b.ordinal_position)
  else none

/-- The columns used by the named constraints, of whatever table. -/
def constraintColumnUsage (names : List String) : Option (List UsedColumn) :=
  if catalog.constraintColumnUsageReadable then
    some ((catalog.constraints.filter fun c => c.constraint_name ∈ names).flatMap fun c =>
      c.columns.map fun x => ⟨c.constraint_name, x.2.table, x.2.column⟩)
  else none

end InformationSchema

/-! ### Keys from the catalog -/

/-- `discoverPrimaryKey`: the first key column of the primary key; without readable metadata the
column `id`, and without one the first column. -/
def discoverPrimaryKey (catalog : InformationSchema) (table schema : String)
    (columns : List ColumnInfo) : String :=
  let fallback :=
    if columns.any (fun c => c.column_name = "id") then "id"
    else (columns.head?.map ColumnInfo.column_name).getD ""
  match catalog.tableConstraints schema table .primaryKey with
  | some (n :: ns) =>
    match catalog.keyColumnUsage schema table (n :: ns) with
    | some (row :: _) => row.column_name
    | _ => fallback
  | _ => fallback

/-- `discoverForeignKeys`. The used columns are kept by constraint name, one row to a name. -/
def discoverForeignKeys (catalog : InformationSchema) (table schema : String) :
    List ForeignKey :=
  match catalog.tableConstraints schema table .foreignKey with
  | none => []
  | some [] => []
  | some names =>
    match catalog.keyColumnUsage schema table names, catalog.constraintColumnUsage names with
    | some kcu, some ccu =>
      let refsByConstraint : String → Option UsedColumn :=
        ccu.foldl (fun m row => Function.update m row.constraint_name (some row)) fun _ => none
      kcu.filterMap fun row =>
        (refsByConstraint row.constraint_name).map fun target =>
          ⟨row.column_name, ⟨target.table_name, target.column_name⟩⟩
    | _, _ => []

/-- Set the foreign key of a column: it takes the place of an earlier one. -/
def setForeignKey (fk : ForeignKey) : List ForeignKey → List ForeignKey
  | [] => [fk]
  | fk' :: l => if fk'.column = fk.column then fk :: l else fk' :: setForeignKey fk l

/-- `mergeForeignKeys`: one foreign key to a column, the manual one if there are two. -/
def mergeForeignKeys (autoFKs manualFKs : List ForeignKey) : List ForeignKey :=
  (autoFKs ++ manualFKs).foldl (fun l fk => setForeignKey fk l) []

/-! ### Keys from column names -/

/-- The aliases of the users table, by normalised token. -/
def userAliases : List String := ["user", "users", "userdata", "user_data"]

/-- `normalizeToken`: only lower-case letters and digits are left. -/
def normalizeToken [LetterCase] (value : String) : List Char :=
  (toLowerCase value).toList.filter fun c => c.isLower || c.isDigit

/-- The table a column name stands for: an alias, else a table of that name, else the first
table whose name begins with it. -/
def guessTable [LetterCase] (baseNorm : List Char) (allTables : List String) : Option String :=
  let aliased :=
    if String.ofList baseNorm ∈ userAliases then some "User data" else none
  match aliased.filter (· ∈ allTables) with
  | some target => some target
  | none =>
    match allTables.find? (fun t => normalizeToken t = baseNorm) with
    | some target => some target
    | none => allTables.find? fun t => decide (baseNorm <+: normalizeToken t)

/-- `inferForeignKeysFromColumnNames`. -/
def inferForeignKeysFromColumnNames [LetterCase] (columns : List ColumnInfo) (table : String)
    (allTables : List String) (primaryKey : String) : List ForeignKey :=
  columns.filterMap fun col =>
    let column := col.column_name
    if column = "" ∨ column = primaryKey ∨
        ¬ "_id".toList <:+ (toLowerCase column).toList then none
    else
      let baseNorm := normalizeToken (String.ofList column.toList.dropLast.dropLast.dropLast)
      if baseNorm = [] then none
      else
        match guessTable baseNorm allTables with
        | some target =>
          if target ∉ allTables ∨ target = table then none
          else some ⟨column, ⟨target, "id"⟩⟩
        | none => none

/-! ### Types -/

/-- `inferSqlTypeFromUdt`: the SQL type for the name of a PostgreSQL type. -/
def inferSqlTypeFromUdt (udtName : Option String) : String :=
  match udtName with
  | none => "text"
  | some u =>
    if u ∈ ["int2", "int4", "int8", "float4", "float8", "numeric"] then "numeric"
    else if u = "bool" then "boolean"
    else if u = "json" ∨ u = "jsonb" then "jsonb"
    else "text"

/-- The declared type, or the one inferred from the underlying type where none is given. -/
def sourceTypeOf (dataType udtName : Option String) : String :=
  match dataType with
  | some t => if t = "" then inferSqlTypeFromUdt udtName else t
  | none => inferSqlTypeFromUdt udtName

/-- `mapPostgresTypeToPocketBaseType`. -/
def mapPostgresTypeToPocketBaseType [LetterCase] (dataType udtName : Option String) : PbType :=
  let normalized := toLowerCase (sourceTypeOf dataType udtName)
  if "int".toList <:+: normalized.toList ∨
      normalized ∈ ["numeric", "decimal", "real", "double precision"] then .number
  else if normalized = "boolean" then .bool
  else if normalized = "json" ∨ normalized = "jsonb" ∨
      "[]".toList <:+ normalized.toList then .json
  else .text

end Mogo
