import Duck.Buffer.Restart
import Duck.Query.SelectQuery
import Duck.Table.Table
import Mathlib.Data.Finmap

namespace Duck

abbrev kCatalogFirstPageID : PageID := 1

structure TableEntry where
  rid   : RID
  table : Table

abbrev TableEntries := Finmap fun _ : Name => TableEntry

-- The database is what `bpm_`, `disk_manager_` and `lock_manager_` refer to.
structure Catalog where
  catalogTable : Table
  tables       : TableEntries
  database     : Database

abbrev CatalogM := Program Catalog String

-- `std::vector::at`
def Tuple.get (t : Tuple) (columnIndex : ℕ) : Except String Value :=
  match t.values[columnIndex]? with
  | some value => .ok value
  | none       => .error "vector::_M_range_check"

namespace Catalog

open Database

abbrev pager (c : Catalog) : Pager :=
  c.database.database

def catalogSchema : Schema where
  columns := [
    ⟨"table_name".toUTF8.toList,    .varchar,   128⟩,
    ⟨"first_page_id".toUTF8.toList, .uint32,    0⟩,
    ⟨"schema_bytes".toUTF8.toList,  .varbinary, 4096⟩]

-- The row of a table.
def rowOf (name : Name) (table : Table) : Except String Tuple :=
  Tuple.ofValues [.string name, .uint32 table.heap.firstPageId, .bytes table.schema.serialize] catalogSchema

-- The table of a row.
def readRow (tuple : Tuple) : Except String (Name × Table) := do
  let tableName ← (← tuple.get 0).asString
  let firstPageId ← (← tuple.get 1).asUInt32
  let schema ← Schema.deserialize (← (← tuple.get 2).asBytes)
  return (tableName, ⟨⟨firstPageId⟩, schema⟩)

section constructor

def initTable : PagerM Table := do
  if (← .read (·.pool.disk.capacity)) ≤ kCatalogFirstPageID then
    return ⟨← TableHeap.create, catalogSchema⟩
  else
    return ⟨⟨kCatalogFirstPageID⟩, catalogSchema⟩

-- The loop of `load_existing_tables`. Nothing is locked without a transaction, so that nobody is waited for.
def loadTables (scan : Table.Scan) (tables : TableEntries) : DatabaseM TableEntries :=
  .loop (fun (scan, tables) => do
    match ← scan.next id with
    | (none,              scan) =>
      onHeap scan.heapScan.close
      return .inr tables
    | (some (rid, tuple), scan) =>
      let (tableName, table) ← .ofExcept (readRow tuple)
      return .inl (scan, tables.insert tableName ⟨rid, table⟩))
    (scan, tables)

-- The constructor. One that throws leaves no pool behind.
def construct : DatabaseM (Table × TableEntries) := do
  let catalogTable ← onHeap initTable
  let scan ← onHeap (catalogTable.scan none)
  return (catalogTable, ← loadTables scan ∅)

-- The members of `Database`, one after the other.
def onPool (pool : PoolManager) : Option (Except String Catalog) :=
  (construct (.init ⟨pool, false⟩)).map fun (result, database) =>
    result.map fun (catalogTable, tables) => ⟨catalogTable, tables, database⟩

def opened (file : File) (poolSize : ℕ) : Option (Except String Catalog) :=
  match DiskManager.openFile file with
  | .error e => some (.error e)
  | .ok disk => onPool (.create disk poolSize)

-- The database is closed, and opened again on the file that is left.
def reopened (c : Catalog) (poolSize : ℕ) : Option (Except String Catalog) :=
  match c.pager.pool.reopened poolSize with
  | .error e => some (.error e)
  | .ok pool => onPool pool

end constructor

-- The calls without a transaction.

def onDatabase (x : DatabaseM α) : CatalogM α :=
  .on (·.database) (fun d c => { c with database := d }) x

def createTable (name : Name) (schema : Schema) : CatalogM Table := do
  let c ← .read id
  if (c.tables.lookup name).isSome then
    throw s!"Catalog::create_table: table with name {name.text} already exists"
  else
    let table : Table := ⟨← onDatabase <| onHeap TableHeap.create, schema⟩
    let entry ← .ofExcept (rowOf name table)
    match ← onDatabase <| c.catalogTable.insertTuple id entry none with
    | none     => throw "Catalog::CreateTable: failed to write catalog entry"
    | some rid =>
      .update fun c => { c with tables := c.tables.insert name ⟨rid, table⟩ }
      return table

-- The table is found again under the unique lock. The pages that could not be dropped are only printed.
def dropTable (name : Name) : CatalogM Bool := do
  let c ← .read id
  match c.tables.lookup name with
  | none       => return false
  | some entry =>
    if !(← onDatabase <| c.catalogTable.deleteTuple id entry.rid none) then
      return false
    else
      match ← onDatabase <| onHeap entry.table.dropPages with
      | (_, .readPagesFailed) =>
        throw "Catalog::drop_table: Table::drop_pages failed to fetch all pages before deletion"
      | (_, .success)         =>
        .update fun c => { c with tables := c.tables.erase name }
        return true

def getTable (c : Catalog) (name : Name) : Option Table :=
  (c.tables.lookup name).map (·.table)

end Catalog
end Duck
