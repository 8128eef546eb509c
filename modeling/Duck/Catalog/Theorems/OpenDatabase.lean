import Duck.Catalog.Theorems.Load
import Duck.Table.Theorems.Calls
import Duck.Table.Theorems.Heaps

namespace Duck

deriving instance DecidableEq for Table

-- What is found when one entry has been written.
theorem update_eq_some [DecidableEq α] {f : α → Option β} {a a' : α} {v : Option β} {b : β} :
    Function.update f a v a' = some b ↔ a' = a ∧ v = some b ∨ a' ≠ a ∧ f a' = some b := by
  by_cases h : a' = a <;> simp [h]

-- A database that is open, and the pins that scans hold on its pages.
structure OpenDatabase where
  catalog : Catalog
  pins    : List Pin

-- The tables with their tuples, and the rows of the catalog.
structure DatabaseMap where
  tables : Name → Option (TableEntry × HeapMap)
  saved  : RID → Option (Name × Table)

namespace DatabaseMap

def empty : DatabaseMap where
  tables _ := none
  saved _  := none

-- The tables whose rows are there.
def kept (u : DatabaseMap) (name : Name) : Option (TableEntry × HeapMap) :=
  (u.tables name).filter fun e => u.saved e.1.rid = some (name, e.1.table)

theorem kept_eq_some {u : DatabaseMap} {name : Name} {entry : TableEntry} {m : HeapMap} :
    u.kept name = some (entry, m) ↔ u.tables name = some (entry, m) ∧ u.saved entry.rid = some (name, entry.table) := by
  simp [kept, Option.filter_eq_some_iff]

-- Every table has its row.
def Complete (u : DatabaseMap) : Prop :=
  ∀ name entry m, u.tables name = some (entry, m) → u.saved entry.rid = some (name, entry.table)

theorem Complete.empty : DatabaseMap.empty.Complete := by
  intro name entry m he
  cases he

end DatabaseMap

namespace Catalog

def withPager (c : Catalog) (pager : Pager) : Catalog :=
  { c with database := { c.database with database := pager } }

abbrev forgiven (c : Catalog) : Catalog :=
  c.withPager c.pager.forgiven

-- The row of the table is one for the catalog.
def Fits (name : Name) (schema : Schema) : Prop :=
  name.length ≤ 128 ∧ 9 + name.length + schema.serialize.length ≤ 8180

theorem Fits.readRow {name : Name} {table : Table} (hf : Fits name table.schema) (hc : table.schema.columns.length < 65536) :
    ∃ tuple, Tuple.deserialize (rowBytes name table) catalogSchema = .ok tuple ∧ readRow tuple = .ok (name, table) :=
  readRow_rowBytes hf.1 (rowBytes_length.trans_le hf.2) hc

theorem onDatabase_apply {c : Catalog} {d : Database} {x : DatabaseM α} (h : x c.database = some (result, d)) :
    onDatabase x c = some (result, { c with database := d }) := by
  rw [onDatabase, Program.on, h, Option.map_some]

-- What a call on a table leaves.
theorem onDatabase_ends {c : Catalog} {x : DatabaseM α} {reply : α → Table.Reply} {t : Table} {heaps : List TableHeap}
    {chains : TableHeap → List PageID} {maps : TableMaps} {pins : List Pin} {op : Table.Op}
    (h : x.Ends c.database fun result d => t.Ended heaps pins chains maps c.database op (reply <$> result) d) :
    (onDatabase x).Ends c fun result c' => ∃ p, c' = c.withPager p ∧ ∃ m,
      t.Outcome (maps t.heap) (!p.denied) op (reply <$> result) m ∧
      HeapPool.Grants ⟨heaps, pins, c.pager⟩ p ∧
        HeapPool.Becomes ⟨heaps, pins, c.pager⟩ chains ⟨heaps, pins, p.forgiven⟩ (Function.update maps t.heap m) := by
  refine .on <| h.mono ?_
  rintro result d ⟨hm, hd⟩
  exact ⟨d.database, congrArg (fun d => { c with database := d }) hd, hm⟩

theorem onDatabase_poolCapacity {x : DatabaseM α} (h : x.Preserves (·.database.pool.poolCapacity)) :
    (onDatabase x).Preserves (·.pager.pool.poolCapacity) :=
  h.on (fun _ => rfl) fun _ _ => rfl

theorem createTable_poolCapacity {name : Name} {schema : Schema} : (createTable name schema).Preserves (·.pager.pool.poolCapacity) := by
  refine .read_bind fun c => ?_
  split
  · exact .throw _
  · refine (onDatabase_poolCapacity <| Database.onHeap_poolCapacity TableHeap.create_poolCapacity).bind fun h => ?_
    refine (Program.Preserves.ofExcept _).bind fun tuple => (onDatabase_poolCapacity Table.insertTuple_poolCapacity).bind ?_
    rintro (_ | rid)
    · exact .throw _
    · exact .bind (.update fun _ => rfl) fun _ => .pure _

theorem dropTable_poolCapacity {name : Name} : (dropTable name).Preserves (·.pager.pool.poolCapacity) := by
  refine .read_bind fun c => ?_
  split
  · exact .pure _
  · refine (onDatabase_poolCapacity Table.deleteTuple_poolCapacity).bind fun deleted => ?_
    split
    · exact .pure _
    · refine (onDatabase_poolCapacity <| Database.onHeap_poolCapacity Table.dropPages_poolCapacity).bind ?_
      rintro ⟨failed, _ | _⟩
      · exact .throw _
      · exact .bind (.update fun _ => rfl) fun _ => .pure _

end Catalog

namespace OpenDatabase

abbrev pager (s : OpenDatabase) : Pager :=
  s.catalog.pager

inductive Event
  | createTable (name : Name) (schema : Schema) (granted : Bool) (result : Except String Table)
  | dropTable (name : Name) (granted : Bool) (result : Except String Bool)
  | call (name : Name) (op : Table.Op) (granted : Bool) (result : Except String Table.Reply)
  | fetch (page : PageID) (result : Except String (Option FrameID))
  | unpin (pin : Pin)
  | reopen (poolSize : ℕ)

-- The tables whose pages may be read.
def Opens (s : OpenDatabase) (table : Table) : Prop :=
  table = s.catalog.catalogTable ∨ ∃ name, s.catalog.getTable name = some table

-- A table that is made needs an id for its first page, and may need one for its row. Every call begins with a caller
-- who has not been let down yet. Pages of tables are pinned by those that read them, and unpinned in any order. The
-- database may be closed at any time and opened again with a pool of any size.
inductive Step (s : OpenDatabase) : Event → OpenDatabase → Prop
  | createTable : s.pager.Ready → s.pager.allocated.Ready → (schema.columns.length < 65536) →
    (Catalog.createTable name schema s.catalog = some (result, c)) →
    Step s (.createTable name schema (!c.pager.denied) result) { s with catalog := c.forgiven }
  | dropTable   : (Catalog.dropTable name s.catalog = some (result, c)) →
    Step s (.dropTable name (!c.pager.denied) result) { s with catalog := c.forgiven }
  | call {op : Table.Op} : (s.catalog.getTable name = some table) → op.Admitted table s.pager →
    (op.run table s.catalog.database = some (result, d)) →
    Step s (.call name op (!d.database.denied) result) { s with catalog := { s.catalog with database := d }.forgiven }
  | fetch       : (s.Opens table) → table.heap.Has s.pager page → (s.pins.length + 2 < 4294967296) →
    (Pager.fetchPage page s.pager = some (.ok (some f), t)) →
    Step s (.fetch page (.ok (some f))) ⟨s.catalog.withPager t.forgiven, ⟨page, f, false⟩ :: s.pins⟩
  | noFetch     : (s.Opens table) → table.heap.Has s.pager page →
    (Pager.fetchPage page s.pager = some (result, t)) → (∀ f, result ≠ .ok (some f)) →
    Step s (.fetch page result) { s with catalog := s.catalog.withPager t.forgiven }
  | unpin       : (s.pins = pins₁ ++ pin :: pins₂) →
    Step s (.unpin pin) ⟨s.catalog.withPager <| Pager.unpin pin.frameId false s.pager, pins₁ ++ pins₂⟩
  | reopen      : (0 < n) → (s.catalog.reopened n = some (.ok c)) → Step s (.reopen n) ⟨c, []⟩

-- The database on a new file.
def Initial (s : OpenDatabase) : Prop :=
  s.pins = [] ∧ ∃ file n, file.failing = false ∧ file.size < kPageSize ∧ 0 < n ∧ Catalog.opened file n = some (.ok s.catalog)

-- A table whose pages cannot be read is not dropped, but has lost its row. It is gone once the database is closed. Until
-- then another row may have taken the place of its own, and the next drop deletes that one.
inductive Spec (u : DatabaseMap) : Event → DatabaseMap → Prop
  | created    : (u.tables name = none) → Catalog.Fits name schema → (u.saved rid = none) →
    (∀ other entry m, u.tables other = some (entry, m) → entry.table.heap ≠ h) →
    Spec u (.createTable name schema true (.ok ⟨h, schema⟩))
      ⟨Function.update u.tables name (some (⟨rid, ⟨h, schema⟩⟩, .empty)),
        Function.update u.saved rid (some (name, ⟨h, schema⟩))⟩
  | notCreated : (u.tables name ≠ none ∨ granted = false ∨ ¬Catalog.Fits name schema) →
    Spec u (.createTable name schema granted (.error e)) u
  | dropped    : (u.tables name = some (entry, m)) → (u.saved entry.rid ≠ none) →
    Spec u (.dropTable name true (.ok true)) ⟨Function.update u.tables name none, Function.update u.saved entry.rid none⟩
  | notDropped : (granted = false ∨ ∀ entry m, u.tables name = some (entry, m) → u.saved entry.rid = none) →
    Spec u (.dropTable name granted (.ok false)) u
  | interrupted : (u.tables name = some (entry, m)) → (u.saved entry.rid ≠ none) →
    Spec u (.dropTable name false (.error e)) { u with saved := Function.update u.saved entry.rid none }
  | called     : (u.tables name = some (entry, m)) → entry.table.Outcome m granted op result m' →
    Spec u (.call name op granted result) { u with tables := Function.update u.tables name (some (entry, m')) }
  | fetch      : Spec u (.fetch page result) u
  | unpin      : Spec u (.unpin pin) u
  | reopened   : Spec u (.reopen n) { u with tables := u.kept }

-- The catalog, its rows and the tables are those of the map.
structure Represents (s : OpenDatabase) (heaps : List TableHeap) (chains : TableHeap → List PageID) (maps : TableMaps)
    (u : DatabaseMap) : Prop where
  pool    : HeapPool.Holds ⟨heaps, s.pins, s.pager⟩ chains maps
  catalog : s.catalog.catalogTable = ⟨⟨kCatalogFirstPageID⟩, Catalog.catalogSchema⟩ ∧ ⟨kCatalogFirstPageID⟩ ∈ heaps
  rows    : ∀ rid bytes, maps ⟨kCatalogFirstPageID⟩ rid = some bytes ↔
    ∃ name table, u.saved rid = some (name, table) ∧ bytes = Catalog.rowBytes name table
  lookup  : ∀ name, s.catalog.tables.lookup name = (u.tables name).map Prod.fst
  tables  : ∀ name entry m, u.tables name = some (entry, m) → entry.table.heap ∈ heaps ∧
    entry.table.heap ≠ ⟨kCatalogFirstPageID⟩ ∧ maps entry.table.heap = m ∧ entry.rid.pageId ∈ chains ⟨kCatalogFirstPageID⟩
  apart   : ∀ name name' entry entry' m m', u.tables name = some (entry, m) → u.tables name' = some (entry', m') →
    entry.table.heap = entry'.table.heap → name = name'
  saved   : ∀ rid name table, u.saved rid = some (name, table) → Catalog.Fits name table.schema ∧
    table.schema.columns.length < 65536 ∧ ∃ m, u.tables name = some (⟨rid, table⟩, m)

variable {s : OpenDatabase} {u : DatabaseMap} {heaps heaps' : List TableHeap} {chains chains' : TableHeap → List PageID}
variable {maps maps' : TableMaps} {name : Name} {schema : Schema} {pins : List Pin} {p : Pager} {table : Table}

-- Some representation of the map.
def Holds (s : OpenDatabase) (u : DatabaseMap) : Prop :=
  ∃ heaps chains maps, s.Represents heaps chains maps u

-- A page is refused only for want of frames. A call may need one besides the one that it has pinned.
abbrev Grants (s : OpenDatabase) (p : Pager) : Prop :=
  HeapPool.Grants ⟨[], s.pins, s.pager⟩ p

-- What a call does, and what it leaves.
def Does (s : OpenDatabase) (u : DatabaseMap) (event : Bool → Event) (c : Catalog) : Prop :=
  (∃ u', Spec u (event !c.pager.denied) u' ∧ Holds { s with catalog := c.forgiven } u') ∧ s.Grants c.pager

namespace Represents

theorem forgiven (hs : s.Represents heaps chains maps u) : s.catalog.forgiven = s.catalog := by
  have hf : s.pager.forgiven = s.pager := hs.pool.forgiven
  rw [Catalog.forgiven, hf]
  rfl

-- The heaps have the tuples that they had.
theorem moved (hs : s.Represents heaps chains maps u) (hh : heaps ⊆ heaps') (hg : ∀ h ∈ heaps, chains h ⊆ chains' h)
    (hm : ∀ h ∈ heaps, maps' h = maps h) (hp : HeapPool.Holds ⟨heaps', pins, p⟩ chains' maps') :
    Represents ⟨s.catalog.withPager p, pins⟩ heaps' chains' maps' u where
  pool    := hp
  catalog := ⟨hs.catalog.1, hh hs.catalog.2⟩
  rows    := by
    rw [hm _ hs.catalog.2]
    exact hs.rows
  lookup  := hs.lookup
  tables name entry m he := by
    obtain ⟨hin, hne, hmap, hp⟩ := hs.tables name entry m he
    exact ⟨hh hin, hne, (hm _ hin).trans hmap, hg _ hs.catalog.2 hp⟩
  apart   := hs.apart
  saved   := hs.saved

theorem moved_becomes (hs : s.Represents heaps chains maps u)
    (hp : HeapPool.Becomes ⟨heaps, s.pins, s.pager⟩ chains ⟨heaps, pins, p⟩ maps) : Holds ⟨s.catalog.withPager p, pins⟩ u :=
  have ⟨_, hg, hp⟩ := hp
  ⟨_, _, _, hs.moved (List.Subset.refl _) hg (fun _ _ => rfl) hp⟩

theorem moved_holds (hs : s.Represents heaps chains maps u) (hp : HeapPool.Holds ⟨heaps, pins, p⟩ chains maps) :
    Holds ⟨s.catalog.withPager p, pins⟩ u :=
  hs.moved_becomes <| HeapPool.Holds.becomes hp

theorem holds_forgiven (hs : s.Represents heaps chains maps u) : Holds { s with catalog := s.catalog.forgiven } u := by
  rw [hs.forgiven]
  exact ⟨_, _, _, hs⟩

-- What is found under the RID of a row.
theorem found_row (hs : s.Represents heaps chains maps u) (hr : u.saved rid = some (name, table)) :
    Table.found (maps ⟨kCatalogFirstPageID⟩) rid = some (Catalog.rowBytes name table) := by
  rw [Table.found, (hs.rows _ _).mpr ⟨_, _, hr, rfl⟩]
  exact Option.filter_some_pos (by simp [Catalog.rowBytes])

theorem found_none (hs : s.Represents heaps chains maps u) :
    Table.found (maps ⟨kCatalogFirstPageID⟩) rid = none ↔ u.saved rid = none := by
  constructor
  · intro hf
    by_contra hr
    obtain ⟨⟨name, table⟩, hr⟩ := Option.ne_none_iff_exists'.mp hr
    cases (hs.found_row hr).symm.trans hf
  · intro hr
    cases hm : maps ⟨kCatalogFirstPageID⟩ rid
    case none       => rw [Table.found, hm, Option.filter_none]
    case some bytes =>
      obtain ⟨_, _, hr', -⟩ := (hs.rows _ _).mp hm
      cases hr.symm.trans hr'

section createTable

variable {h : TableHeap} {rid : RID}

-- The row of a new table is in the catalog.
theorem created (hs : s.Represents heaps chains maps u) (hn : u.tables name = none) (hf : Catalog.Fits name schema)
    (hc : schema.columns.length < 65536) (hh : h ∉ heaps) (hg : ∀ h ∈ heaps, chains h ⊆ chains' h)
    (hp : HeapPool.Holds ⟨h :: heaps, s.pins, p⟩ chains' (Function.update (Function.update maps h .empty) ⟨kCatalogFirstPageID⟩
      (Function.update (maps ⟨kCatalogFirstPageID⟩) rid (some (Catalog.rowBytes name ⟨h, schema⟩))))) :
    Holds { s with catalog := { s.catalog.withPager p with tables := s.catalog.tables.insert name ⟨rid, ⟨h, schema⟩⟩ } }
      ⟨Function.update u.tables name (some (⟨rid, ⟨h, schema⟩⟩, .empty)),
        Function.update u.saved rid (some (name, ⟨h, schema⟩))⟩ := by
  have hin : ⟨kCatalogFirstPageID⟩ ∈ h :: heaps := List.mem_cons_of_mem _ hs.catalog.2
  have hcat : h ≠ ⟨kCatalogFirstPageID⟩ := fun he => hh (he ▸ hs.catalog.2)
  have hother {name' entry m} (he : u.tables name' = some (entry, m)) : entry.table.heap ≠ h :=
    ne_of_mem_of_not_mem (hs.tables _ _ _ he).1 hh
  refine ⟨_, _, _, hp, ⟨hs.catalog.1, hin⟩, ?_, ?_, ?_, ?_, ?_⟩
  all_goals dsimp only
  · intro rid' bytes
    rw [Function.update_self]
    by_cases hr : rid' = rid
    case pos =>
      simp only [hr, Function.update_self, Option.some.injEq, Prod.mk.injEq]
      constructor
      · exact fun hb => ⟨_, _, ⟨rfl, rfl⟩, hb.symm⟩
      · rintro ⟨_, _, ⟨rfl, rfl⟩, rfl⟩
        rfl
    case neg =>
      simp only [Function.update_of_ne hr]
      exact hs.rows rid' bytes
  · intro name'
    by_cases hne : name' = name
    case pos =>
      rw [hne, Function.update_self]
      exact Finmap.lookup_insert _
    case neg =>
      rw [Function.update_of_ne hne, ←hs.lookup]
      exact Finmap.lookup_insert_of_ne _ hne
  · intro name' entry m he
    obtain ⟨-, he⟩ | ⟨-, he⟩ := update_eq_some.mp he
    · cases he
      refine ⟨List.mem_cons_self, hcat, ?_, hp.mem_of_bound hin (?_ : _ = some (Catalog.rowBytes name ⟨h, schema⟩))⟩
      · rw [Function.update_of_ne hcat, Function.update_self]
      · rw [Function.update_self, Function.update_self]
    · obtain ⟨hm, hk, hmap, hrid⟩ := hs.tables _ _ _ he
      refine ⟨List.mem_cons_of_mem _ hm, hk, ?_, hg _ hs.catalog.2 hrid⟩
      rw [Function.update_of_ne hk, Function.update_of_ne (hother he), hmap]
  · intro name₁ name₂ entry₁ entry₂ m₁ m₂ he₁ he₂ hheap
    obtain ⟨hne₁, he₁⟩ | ⟨-, he₁⟩ := update_eq_some.mp he₁ <;>
      obtain ⟨hne₂, he₂⟩ | ⟨-, he₂⟩ := update_eq_some.mp he₂
    · rw [hne₁, hne₂]
    · cases he₁
      exact absurd hheap.symm (hother he₂)
    · cases he₂
      exact absurd hheap (hother he₁)
    · exact hs.apart _ _ _ _ _ _ he₁ he₂ hheap
  · intro rid' name' table hr
    obtain ⟨rfl, hx⟩ | ⟨-, hr⟩ := update_eq_some.mp hr
    · cases hx
      exact ⟨hf, hc, .empty, Function.update_self ..⟩
    · obtain ⟨hf', hc', m, he⟩ := hs.saved _ _ _ hr
      refine ⟨hf', hc', m, update_eq_some.mpr <| .inr ⟨?_, he⟩⟩
      rintro rfl
      cases hn.symm.trans he

-- What is lost is a page.
theorem notCreated {granted : Bool} (hs : s.Represents heaps chains maps u)
    (hf : granted = false ∨ ∀ bytes, (Catalog.rowTuple name ⟨h, schema⟩).serialize = .ok bytes → 8180 < bytes.length)
    (hh : h ∉ heaps) (hg : ∀ h ∈ heaps, chains h ⊆ chains' h)
    (hp : HeapPool.Holds ⟨h :: heaps, s.pins, p⟩ chains' (Function.update maps h .empty)) :
    ∃ u', Spec u (.createTable name schema granted (.error e)) u' ∧ Holds { s with catalog := s.catalog.withPager p } u' := by
  refine ⟨u, .notCreated <| .inr <| hf.imp_right fun hl hf => ?_, _, _, _, hs.moved (List.subset_cons_self ..) hg ?_ hp⟩
  · have := hl _ <| Catalog.serialize_eq_ok.mpr ⟨hf.1, rfl⟩
    rw [Catalog.rowBytes_length] at this
    exact absurd hf.2 (Nat.not_le.mpr this)
  · exact fun h' hh' => Function.update_of_ne (ne_of_mem_of_not_mem hh' hh) ..

-- The row goes to the catalog.
theorem saveRow (hs : s.Represents heaps chains maps u) (hn : u.tables name = none) (hc : schema.columns.length < 65536)
    (hr : p.Ready) (hh : h ∉ heaps) (hg : ∀ h ∈ heaps, chains h ⊆ chains' h)
    (hp : HeapPool.Holds ⟨h :: heaps, s.pins, p⟩ chains' (Function.update maps h .empty)) :
    (do
      match ← Catalog.onDatabase <| s.catalog.catalogTable.insertTuple id (Catalog.rowTuple name ⟨h, schema⟩) none with
      | none     => throw "Catalog::CreateTable: failed to write catalog entry"
      | some rid =>
        .update fun c => { c with tables := c.tables.insert name ⟨rid, ⟨h, schema⟩⟩ }
        return ⟨h, schema⟩ : CatalogM Table).Ends (s.catalog.withPager p) fun result c =>
          s.Does u (.createTable name schema · result) c := by
  have hcat : h ≠ ⟨kCatalogFirstPageID⟩ := fun he => hh (he ▸ hs.catalog.2)
  have hself := Function.update_eq_self (⟨kCatalogFirstPageID⟩ : TableHeap) (Function.update maps h .empty)
  have hsub {chains'' : TableHeap → List PageID} (hg' : ∀ h' ∈ h :: heaps, chains' h' ⊆ chains'' h') :
    ∀ h ∈ heaps, chains h ⊆ chains'' h :=
    fun h' hh' => List.Subset.trans (hg h' hh') <| hg' h' <| List.mem_cons_of_mem _ hh'
  rw [hs.catalog.1]
  refine (Catalog.onDatabase_ends <| (Table.insertTuple_ended (t := ⟨⟨kCatalogFirstPageID⟩, Catalog.catalogSchema⟩)
    (s := (s.catalog.withPager p).database) hp (List.mem_cons_of_mem _ hs.catalog.2) hr).of_map).bind ?_ ?_
  · rintro rid _ ⟨q, rfl, m, ho, hgr, chains'', hg', hp'⟩
    obtain ⟨bytes, rid', hb, hl, hd, hres, hfree, rfl⟩ | ⟨hf, hres, rfl⟩ := ho.insert_cases Schema.compatibleWith_self
    · obtain rfl := Except.ok.inj hres
      obtain ⟨hname, rfl⟩ := Catalog.serialize_eq_ok.mp hb
      rw [Catalog.rowBytes_length] at hl
      rw [Function.update_of_ne hcat.symm] at hfree hp'
      have hfit : Catalog.Fits name schema := ⟨hname, hl⟩
      have hrow : u.saved rid' = none := hs.found_none.mp <| by rw [Table.found, hfree, Option.filter_none]
      refine .update_bind <| .pure ⟨⟨_, ?_, hs.created hn hfit hc hh (hsub hg') hp'⟩, hgr⟩
      change Spec u (.createTable name schema (!q.denied) _) _
      rw [hd]
      exact .created hn hfit hrow fun other entry m he => ne_of_mem_of_not_mem (hs.tables _ _ _ he).1 hh
    · cases rid
      case some rid => exact absurd rfl (hres rid)
      case none     =>
        rw [hself] at hp'
        exact .throw ⟨hs.notCreated hf hh (hsub hg') hp', hgr⟩
  · rintro e _ ⟨q, rfl, m, ho, hgr, chains'', hg', hp'⟩
    obtain ⟨_, _, -, -, -, hres, -⟩ | ⟨hf, hres, rfl⟩ := ho.insert_cases Schema.compatibleWith_self
    · cases hres
    · rw [hself] at hp'
      exact ⟨hs.notCreated hf hh (hsub hg') hp', hgr⟩

-- A table is made only if its row can be written. Otherwise its page is lost.
theorem createTable (hs : s.Represents heaps chains maps u) (hr : s.pager.Ready) (hr' : s.pager.allocated.Ready)
    (hc : schema.columns.length < 65536) : (Catalog.createTable name schema).Ends s.catalog fun result c =>
      s.Does u (.createTable name schema · result) c := by
  refine .read_bind ?_
  split
  case isTrue he  =>
    have hl := hs.lookup name
    refine .throw ⟨⟨u, .notCreated <| .inl fun hn => ?_, hs.holds_forgiven⟩, .of_granted hs.pool.granted⟩
    rw [hn] at hl
    exact absurd he (by simp [hl])
  case isFalse hn =>
    have hl : s.catalog.tables.lookup name = none := Option.not_isSome_iff_eq_none.mp hn
    have hn : u.tables name = none := Option.map_eq_none_iff.mp <| (hs.lookup name).symm.trans hl
    refine .bind (R := fun result c => ∃ p, c = s.catalog.withPager p ∧ s.pager.allocated.Steady p ∧
      ((∃ h, result = .ok h ∧ h ∉ heaps ∧ HeapPool.Becomes ⟨heaps, s.pins, s.pager⟩ chains ⟨h :: heaps, s.pins, p⟩
        (Function.update maps h .empty)) ∨
        ∃ e, result = .error e ∧ p.Refused s.pins.length ∧ HeapPool.Holds ⟨heaps, s.pins, p.forgiven⟩ chains maps)) ?_ ?_ ?_
    · refine .on <| .on <| (hs.pool.create hr).mono ?_
      rintro result p ⟨hst, ⟨h, hx, hh, -, hp⟩ | ⟨e, hx, hd, hp⟩⟩
      · exact ⟨p, rfl, hst, .inl ⟨h, hx, hh, hp⟩⟩
      · exact ⟨p, rfl, hst, .inr ⟨e, hx, hd, hp⟩⟩
    · rintro h _ ⟨p, rfl, hst, ⟨_, hx, hh, chains', hg, hp⟩ | ⟨_, hx, -⟩⟩
      · obtain rfl := Except.ok.inj hx
        dsimp only
        rw [Catalog.rowOf_eq]
        exact hs.saveRow hn hc (hst.ready hr') hh hg hp
      · cases hx
    · rintro e _ ⟨p, rfl, -, ⟨_, hx, -⟩ | ⟨_, hx, hd, hp⟩⟩
      · cases hx
      · refine ⟨⟨u, .notCreated <| .inr <| .inl ?_, hs.moved_holds hp⟩, .of_refused hd⟩
        exact congrArg Bool.not hd.denied

end createTable

section dropTable

variable {entry : TableEntry} {m : HeapMap} {rid : RID}

-- The row under the RID is lost, whichever table it is of.
theorem rowLost (hs : s.Represents heaps chains maps u) (hg : ∀ h ∈ heaps, chains h ⊆ chains' h)
    (hp : HeapPool.Holds ⟨heaps, s.pins, p⟩ chains'
      (Function.update maps ⟨kCatalogFirstPageID⟩ (Function.update (maps ⟨kCatalogFirstPageID⟩) rid none))) :
    Represents { s with catalog := s.catalog.withPager p } heaps chains'
      (Function.update maps ⟨kCatalogFirstPageID⟩ (Function.update (maps ⟨kCatalogFirstPageID⟩) rid none))
      { u with saved := Function.update u.saved rid none } where
  pool    := hp
  catalog := hs.catalog
  rows rid' bytes := by
    rw [Function.update_self]
    by_cases hr : rid' = rid
    case pos => simp [hr]
    case neg =>
      simp only [Function.update_of_ne hr]
      exact hs.rows rid' bytes
  lookup  := hs.lookup
  tables name entry m he := by
    obtain ⟨hin, hne, hmap, hrid⟩ := hs.tables name entry m he
    exact ⟨hin, hne, (Function.update_of_ne hne ..).trans hmap, hg _ hs.catalog.2 hrid⟩
  apart   := hs.apart
  saved rid' name table hr := by
    obtain ⟨-, hr⟩ | ⟨-, hr⟩ := update_eq_some.mp hr
    · cases hr
    · exact hs.saved rid' name table hr

-- A table without a row goes with its pages.
theorem removed (hs : s.Represents heaps chains maps u) (he : u.tables name = some (entry, m)) (hr : u.saved entry.rid = none)
    (hp : HeapPool.Holds ⟨heaps.filter (· ≠ entry.table.heap), s.pins, p⟩ chains maps) :
    Holds { s with catalog := { s.catalog.withPager p with tables := s.catalog.tables.erase name } }
      { u with tables := Function.update u.tables name none } := by
  obtain ⟨-, hne, -, -⟩ := hs.tables _ _ _ he
  have hold {name' entry' m'} (he' : Function.update u.tables name none name' = some (entry', m')) :
      name' ≠ name ∧ u.tables name' = some (entry', m') := by
    obtain ⟨-, he'⟩ | he' := update_eq_some.mp he'
    · cases he'
    · exact he'
  have hkept {h} (hh : h ∈ heaps) (hk : h ≠ entry.table.heap) : h ∈ heaps.filter (· ≠ entry.table.heap) := by
    simp [hh, hk]
  refine ⟨_, _, _, hp, ⟨hs.catalog.1, hkept hs.catalog.2 hne.symm⟩, hs.rows, fun name' => ?_, fun name' entry' m' he' => ?_, ?_, ?_⟩
  · dsimp only
    by_cases hn : name' = name
    case pos =>
      rw [hn, Function.update_self]
      exact Finmap.lookup_erase ..
    case neg =>
      rw [Function.update_of_ne hn, ←hs.lookup]
      exact Finmap.lookup_erase_ne hn
  · obtain ⟨hn, he'⟩ := hold he'
    obtain ⟨hin, hcat, hmap, hrid⟩ := hs.tables _ _ _ he'
    exact ⟨hkept hin fun hh => hn <| hs.apart _ _ _ _ _ _ he' he hh, hcat, hmap, hrid⟩
  · exact fun name₁ name₂ _ _ _ _ he₁ he₂ => hs.apart _ _ _ _ _ _ (hold he₁).2 (hold he₂).2
  · intro rid name' table hr'
    obtain ⟨hf, hc, m', he'⟩ := hs.saved _ _ _ hr'
    have hn : name' ≠ name := by
      rintro rfl
      cases he.symm.trans he'
      cases hr.symm.trans hr'
    exact ⟨hf, hc, m', (Function.update_of_ne hn ..).trans he'⟩

-- Once the row is gone, it is the pages' turn.
theorem dropPages (hs : s.Represents heaps chains maps u) (he : u.tables name = some (entry, m)) (hr : u.saved entry.rid = none) :
    (do
      match ← Catalog.onDatabase <| Database.onHeap entry.table.dropPages with
      | (_, .readPagesFailed) =>
        throw "Catalog::drop_table: Table::drop_pages failed to fetch all pages before deletion"
      | (_, .success)         =>
        .update fun c => { c with tables := c.tables.erase name }
        return true : CatalogM Bool).Ends s.catalog fun result c =>
          (result = .ok true ∧ c.pager.denied = false ∧ Holds { s with catalog := c.forgiven }
            { u with tables := Function.update u.tables name none }) ∨
            (∃ e, result = .error e) ∧ c.pager.Refused s.pins.length ∧ Holds { s with catalog := c.forgiven } u := by
  refine .bind (R := fun result c => ∃ p, c = s.catalog.withPager p ∧
    ((∃ failed, result = .ok (failed, .success) ∧ p.denied = false ∧
    HeapPool.Holds ⟨heaps.filter (· ≠ entry.table.heap), s.pins, p.forgiven⟩ chains maps) ∨
      result = .ok (0, .readPagesFailed) ∧ p.Refused s.pins.length ∧
        HeapPool.Holds ⟨heaps, s.pins, p.forgiven⟩ chains maps)) ?_ ?_ ?_
  · exact .on <| .on <| (hs.pool.drop (hs.tables _ _ _ he).1).mono fun hp => ⟨_, rfl, hp⟩
  · rintro _ _ ⟨p, rfl, ⟨_, hx, hd, hp⟩ | ⟨hx, hd, hp⟩⟩
    · obtain rfl := Except.ok.inj hx
      exact .update_bind <| .pure <| .inl ⟨rfl, hd, hs.removed he hr hp⟩
    · obtain rfl := Except.ok.inj hx
      exact .throw <| .inr ⟨⟨_, rfl⟩, hd, hs.moved_holds hp⟩
  · rintro e _ ⟨p, rfl, ⟨_, hx, -⟩ | ⟨hx, -⟩⟩ <;> cases hx

theorem dropTable (hs : s.Represents heaps chains maps u) :
    (Catalog.dropTable name).Ends s.catalog fun result c => s.Does u (.dropTable name · result) c := by
  refine .read_bind ?_
  have hl := hs.lookup name
  cases hx : s.catalog.tables.lookup name
  case none       =>
    simp only [id, hx]
    rw [hx] at hl
    have hn : u.tables name = none := Option.map_eq_none_iff.mp hl.symm
    refine .pure ⟨⟨u, .notDropped <| .inr fun entry m he => ?_, hs.holds_forgiven⟩, .of_granted hs.pool.granted⟩
    cases hn.symm.trans he
  case some entry =>
    simp only [id, hx]
    rw [hx] at hl
    obtain ⟨⟨entry, m⟩, he, rfl⟩ := Option.map_eq_some_iff.mp hl.symm
    obtain ⟨-, -, -, hrid⟩ := hs.tables _ _ _ he
    rw [hs.catalog.1]
    refine (Catalog.onDatabase_ends <| (Table.deleteTuple_ended (t := ⟨⟨kCatalogFirstPageID⟩, Catalog.catalogSchema⟩)
      (s := s.catalog.database) hs.pool hs.catalog.2 <| (hs.pool.has_iff hs.catalog.2).mpr hrid).of_map).bind ?_ ?_
    · rintro _ _ ⟨q, rfl, m, ho, hgr, chains', hg, hp⟩
      obtain ⟨hx, hd, hf, rfl⟩ | ⟨hx, hf, rfl⟩ := ho.delete_cases
      · obtain rfl := Except.ok.inj hx
        have hrow : u.saved entry.rid ≠ none := mt hs.found_none.mpr hf
        have hd : q.denied = false := by simpa using hd
        have hq : q.forgiven = q := by rw [Pager.forgiven, ←hd]
        rw [hq] at hp
        refine ((hs.rowLost hg hp).dropPages he (Function.update_self ..)).mono ?_
        rintro result c (⟨rfl, hd, hc⟩ | ⟨⟨e, rfl⟩, hd, hc⟩)
        · refine ⟨⟨_, ?_, hc⟩, .of_granted hd⟩
          rw [hd]
          exact .dropped he hrow
        · refine ⟨⟨_, ?_, hc⟩, .of_refused hd⟩
          rw [hd.denied]
          exact .interrupted he hrow
      · obtain rfl := Except.ok.inj hx
        rw [Function.update_eq_self] at hp
        refine .pure ⟨⟨u, .notDropped <| hf.imp_right fun hf entry' m' he' => ?_, hs.moved_becomes ⟨_, hg, hp⟩⟩, hgr⟩
        cases he.symm.trans he'
        exact hs.found_none.mp hf
    · rintro e _ ⟨q, rfl, m, ho, hgr, chains', hg, hp⟩
      obtain ⟨hx, -⟩ | ⟨hx, -⟩ := ho.delete_cases <;> cases hx

end dropTable

section call

variable {entry : TableEntry} {m m' : HeapMap} {op : Table.Op} {d : Database} {f : FrameID} {page : PageID}

theorem lookup_getTable (hs : s.Represents heaps chains maps u) (ht : s.catalog.getTable name = some table) :
    ∃ entry m, u.tables name = some (entry, m) ∧ entry.table = table := by
  obtain ⟨entry, hl, ht⟩ := Option.map_eq_some_iff.mp ht
  obtain ⟨⟨_, m⟩, he, rfl⟩ := Option.map_eq_some_iff.mp <| (hs.lookup name).symm.trans hl
  exact ⟨_, m, he, ht⟩

-- The tuples of one table change.
theorem changed (hs : s.Represents heaps chains maps u) (he : u.tables name = some (entry, m))
    (hg : ∀ h ∈ heaps, chains h ⊆ chains' h)
    (hp : HeapPool.Holds ⟨heaps, s.pins, p⟩ chains' (Function.update maps entry.table.heap m')) :
    Represents { s with catalog := s.catalog.withPager p } heaps chains' (Function.update maps entry.table.heap m')
      { u with tables := Function.update u.tables name (some (entry, m')) } := by
  obtain ⟨hin, hcat, -, hrid⟩ := hs.tables _ _ _ he
  have hold {name' entry' m₁} (he' : Function.update u.tables name (some (entry, m')) name' = some (entry', m₁)) :
      ∃ m₂, u.tables name' = some (entry', m₂) ∧ (Function.update maps entry.table.heap m') entry'.table.heap = m₁ := by
    obtain ⟨rfl, hx⟩ | ⟨hn, he'⟩ := update_eq_some.mp he'
    · cases hx
      exact ⟨m, he, Function.update_self ..⟩
    · obtain ⟨-, -, hmap, -⟩ := hs.tables _ _ _ he'
      exact ⟨m₁, he', (Function.update_of_ne (fun hh => hn <| hs.apart _ _ _ _ _ _ he' he hh) ..).trans hmap⟩
  constructor
  case pool    => exact hp
  case catalog => exact hs.catalog
  case rows    =>
    rw [Function.update_of_ne hcat.symm]
    exact hs.rows
  case lookup  =>
    intro name'
    dsimp only
    by_cases hn : name' = name
    case pos =>
      rw [hn, Function.update_self, Option.map_some]
      exact (hs.lookup name).trans (he ▸ rfl)
    case neg =>
      rw [Function.update_of_ne hn]
      exact hs.lookup name'
  case tables  =>
    intro name' entry' m₁ he'
    obtain ⟨m₂, he', hmap⟩ := hold he'
    obtain ⟨hin', hcat', -, hrid'⟩ := hs.tables _ _ _ he'
    exact ⟨hin', hcat', hmap, hg _ hs.catalog.2 hrid'⟩
  case apart   =>
    intro name₁ name₂ _ _ _ _ he₁ he₂
    obtain ⟨_, he₁, -⟩ := hold he₁
    obtain ⟨_, he₂, -⟩ := hold he₂
    exact hs.apart _ _ _ _ _ _ he₁ he₂
  case saved   =>
    intro rid name' table hr
    obtain ⟨hf, hc, m₂, he'⟩ := hs.saved _ _ _ hr
    refine ⟨hf, hc, ?_⟩
    by_cases hn : name' = name
    case pos =>
      rw [hn] at he' ⊢
      cases he.symm.trans he'
      exact ⟨m', Function.update_self ..⟩
    case neg => exact ⟨m₂, (Function.update_of_ne hn ..).trans he'⟩

theorem call (hs : s.Represents heaps chains maps u) (ht : s.catalog.getTable name = some table) (ha : op.Admitted table s.pager)
    (hx : op.run table s.catalog.database = some (result, d)) :
    s.Does u (.call name op · result) { s.catalog with database := d } := by
  obtain ⟨entry, m, he, rfl⟩ := hs.lookup_getTable ht
  obtain ⟨hin, -, rfl, -⟩ := hs.tables _ _ _ he
  obtain ⟨⟨m', ho, hgr, chains', hg, hp⟩, hd⟩ := (Table.Op.ended (s := s.catalog.database) hs.pool hin ha).of_eq hx
  rw [hd]
  exact ⟨⟨_, .called he ho, _, _, _, hs.changed he hg hp⟩, hgr⟩

theorem opens (hs : s.Represents heaps chains maps u) (ht : s.Opens table) : table.heap ∈ heaps := by
  obtain rfl | ⟨name, ht⟩ := ht
  · rw [hs.catalog.1]
    exact hs.catalog.2
  · obtain ⟨entry, m, he, rfl⟩ := hs.lookup_getTable ht
    exact (hs.tables _ _ _ he).1

theorem fetch {t : Pager} (hs : s.Represents heaps chains maps u) (ht : s.Opens table)
    (hp : table.heap.Has s.pager page)
    (hx : Pager.fetchPage page s.pager = some (result, t)) :
    (∃ f, result = .ok (some f) ∧ (s.pins.length + 2 < 4294967296 →
      Holds ⟨s.catalog.withPager t.forgiven, ⟨page, f, false⟩ :: s.pins⟩ u)) ∨
      result = .ok none ∧ t.Refused s.pins.length ∧ Holds { s with catalog := s.catalog.withPager t.forgiven } u := by
  obtain ⟨f, hr, hq⟩ | ⟨hr, hd, hq⟩ := (hs.pool.fetch (hs.opens ht) hp).of_eq hx
  · exact .inl ⟨f, hr, fun hn => hs.moved_holds <| hq hn⟩
  · exact .inr ⟨hr, hd, hs.moved_holds hq⟩

end call

section reopen

variable {n : ℕ} {c : Catalog}

-- The rows are those of the tables that are found again.
theorem lists (hs : s.Represents heaps chains maps u) :
    Catalog.Lists (maps ⟨kCatalogFirstPageID⟩) fun name => (u.kept name).map Prod.fst where
  rows rid bytes hb := by
    obtain ⟨name, table, hr, rfl⟩ := (hs.rows _ _).mp hb
    obtain ⟨hf, hc, m, he⟩ := hs.saved _ _ _ hr
    refine ⟨name, ⟨rid, table⟩, ⟨rfl, hf.readRow hc⟩, ?_⟩
    rw [DatabaseMap.kept_eq_some.mpr ⟨he, hr⟩, Option.map_some]
  tables name entry he := by
    obtain ⟨⟨entry, m⟩, hk, rfl⟩ := Option.map_eq_some_iff.mp he
    obtain ⟨-, hr⟩ := DatabaseMap.kept_eq_some.mp hk
    obtain ⟨hf, hc, -⟩ := hs.saved _ _ _ hr
    exact ⟨_, (hs.rows _ _).mpr ⟨_, _, hr, rfl⟩, rfl, hf.readRow hc⟩

-- The heaps are those that there were, also of the tables that are gone.
theorem opened {pool : PoolManager} (hs : s.Represents heaps chains maps u)
    (hc : Catalog.Opened pool heaps chains maps (fun name => (u.kept name).map Prod.fst) c) :
    Represents ⟨c, []⟩ heaps chains maps { u with tables := u.kept } where
  pool    := hc.holds
  catalog := ⟨hc.table, hs.catalog.2⟩
  rows    := hs.rows
  lookup  := hc.tables
  tables name entry m he := hs.tables name entry m (DatabaseMap.kept_eq_some.mp he).1
  apart   := fun _ _ _ _ _ _ he he' =>
    hs.apart _ _ _ _ _ _ (DatabaseMap.kept_eq_some.mp he).1 (DatabaseMap.kept_eq_some.mp he').1
  saved rid name table hr := by
    obtain ⟨hf, hc, m, he⟩ := hs.saved _ _ _ hr
    exact ⟨hf, hc, m, DatabaseMap.kept_eq_some.mpr ⟨he, hr⟩⟩

theorem reopen (hs : s.Represents heaps chains maps u) (hn : 0 < n) :
    ∃ c, s.catalog.reopened n = some (.ok c) ∧ Represents ⟨c, []⟩ heaps chains maps { u with tables := u.kept } := by
  obtain ⟨pool, hx, hp⟩ := hs.pool.reopen n
  have hn : 0 < pool.poolCapacity := PoolManager.reopened_poolCapacity hx ▸ hn
  obtain ⟨c, hc, ho⟩ := Catalog.onPool_loads hp hs.catalog.2 hn hs.lists
  have hx : s.catalog.pager.pool.reopened n = .ok pool := hx
  refine ⟨c, ?_, hs.opened ho⟩
  rw [Catalog.reopened, hx]
  exact hc

end reopen

end Represents

theorem init (h : s.Initial) : s.Holds .empty := by
  obtain ⟨catalog, pins⟩ := s
  obtain ⟨rfl, file, n, hf, hs, hn, hx⟩ := h
  obtain ⟨c, chains, hc, ho, -⟩ := Catalog.opened_new hf hs hn
  cases hc.symm.trans hx
  refine ⟨_, chains, _, ho.holds, ⟨ho.table, List.mem_cons_self⟩, fun rid bytes => ?_, ho.tables, ?_, ?_, ?_⟩
  · constructor
    · intro hb
      cases hb
    · rintro ⟨_, _, hr, -⟩
      cases hr
  · intro name entry m he
    cases he
  · intro name name' entry entry' m m' he
    cases he
  · intro rid name table hr
    cases hr

-- Each step is one of the map.
theorem Holds.step {t : OpenDatabase} {event : Event} (hs : s.Holds u) (e : s.Step event t) : ∃ u', Spec u event u' ∧ t.Holds u' := by
  obtain ⟨heaps, chains, maps, hs⟩ := hs
  cases e
  case createTable hr hr' hc hx => exact ((hs.createTable hr hr' hc).of_eq hx).1
  case dropTable hx             => exact (hs.dropTable.of_eq hx).1
  case call ht ha hx            => exact (hs.call ht ha hx).1
  case fetch ht hp hn hx        =>
    obtain ⟨f, he, hu⟩ | ⟨he, -⟩ := hs.fetch ht hp hx
    · cases he
      exact ⟨_, .fetch, hu hn⟩
    · cases he
  case noFetch ht hp hx hn      =>
    obtain ⟨f, rfl, -⟩ | ⟨rfl, -, hu⟩ := hs.fetch ht hp hx
    · exact absurd rfl (hn f)
    · exact ⟨_, .fetch, hu⟩
  case unpin he                 => exact ⟨_, .unpin, hs.moved_holds <| hs.pool.unpin he⟩
  case reopen n c hn hx         =>
    obtain ⟨_, hc, hu⟩ := hs.reopen hn
    cases hx.symm.trans hc
    exact ⟨_, .reopened, _, _, _, hu⟩

-- The call has been refused a page.
def Event.Refused : Event → Prop
  | .createTable _ _ granted _ => granted = false
  | .dropTable _ granted _     => granted = false
  | .call _ _ granted _        => granted = false
  | .fetch _ result            => ∀ f, result ≠ .ok (some f)
  | _                          => False

-- The others have pinned all frames but one.
theorem Holds.crowded {t : OpenDatabase} {event : Event} (hs : s.Holds u) (e : s.Step event t) (h : event.Refused) :
    s.pager.pool.poolCapacity ≤ s.pins.length + 1 := by
  have hdenied {b : Bool} (hb : (!b) = false) : b = true := by simpa using hb
  obtain ⟨heaps, chains, maps, hs⟩ := hs
  cases e
  case createTable hr hr' hc hx =>
    have hd := ((hs.createTable hr hr' hc).of_eq hx).2 (hdenied h)
    exact (Catalog.createTable_poolCapacity _ _ _ hx).ge.trans hd
  case dropTable hx             =>
    have hd := (hs.dropTable.of_eq hx).2 (hdenied h)
    exact (Catalog.dropTable_poolCapacity _ _ _ hx).ge.trans hd
  case call ht ha hx            =>
    have hd := (hs.call ht ha hx).2 (hdenied h)
    exact (Table.Op.run_poolCapacity _ _ _ hx).ge.trans hd
  case fetch                    => exact absurd rfl (h _)
  case noFetch ht hp hx hn      =>
    obtain ⟨f, rfl, -⟩ | ⟨-, hd, -⟩ := hs.fetch ht hp hx
    · exact absurd rfl (hn f)
    · exact (Pager.fetchPage_poolCapacity _ _ _ _ hx).ge.trans <| hd.crowded.trans (Nat.le_succ _)
  case unpin                    => cases h
  case reopen                   => cases h

-- What the database has is what is in the map.
structure Agrees (s : OpenDatabase) (u : DatabaseMap) : Prop where
  lookup : ∀ name, s.catalog.tables.lookup name = (u.tables name).map Prod.fst
  tuples : ∀ name entry m, u.tables name = some (entry, m) → ∀ rid bytes,
      entry.table.heap.Live s.pager rid bytes ↔ m rid = some bytes
  rows   : ∀ rid bytes, s.catalog.catalogTable.heap.Live s.pager rid bytes ↔
    ∃ name table, u.saved rid = some (name, table) ∧ bytes = Catalog.rowBytes name table

theorem Represents.agrees (hs : s.Represents heaps chains maps u) : s.Agrees u where
  lookup := hs.lookup
  tuples name entry m he rid bytes := by
    obtain ⟨hin, -, rfl, -⟩ := hs.tables _ _ _ he
    exact hs.pool.live_iff hin
  rows rid bytes := by
    rw [hs.catalog.1, ←hs.rows]
    exact hs.pool.live_iff hs.catalog.2

theorem holds {t : OpenDatabase} (h₀ : Initial s) (hs : Runs.Steps Step s events t) :
    ∃ u, Runs.Steps Spec .empty events u ∧ t.Holds u :=
  hs.simulates (fun e hu => hu.step e) (init h₀)

-- A call is refused no page while the others leave it two frames.
theorem grants {t : OpenDatabase} {event : Event} (hr : Runs.Reachable Initial Step s)
    (hn : s.pins.length + 1 < s.pager.pool.poolCapacity) (e : s.Step event t) : ¬event.Refused := by
  obtain ⟨s₀, events, h₀, hs⟩ := hr
  obtain ⟨u, -, hu⟩ := holds h₀ hs
  exact fun h => absurd hn (Nat.not_lt.mpr <| hu.crowded e h)

-- The table has a row in the catalog.
def Saved (s : OpenDatabase) (name : Name) (entry : TableEntry) : Prop :=
  ∃ bytes, s.catalog.catalogTable.heap.Live s.pager entry.rid bytes ∧ Catalog.Describes (entry.rid, bytes) name entry

-- The tables that have a row are found again, with their tuples.
structure Survives (s : OpenDatabase) (c : Catalog) : Prop where
  tables : ∀ name entry, c.tables.lookup name = some entry ↔ s.catalog.tables.lookup name = some entry ∧ s.Saved name entry
  tuples : ∀ name entry, c.tables.lookup name = some entry →
    ∀ rid bytes, entry.table.heap.Live c.pager rid bytes ↔ entry.table.heap.Live s.pager rid bytes

namespace Represents

variable {entry : TableEntry}

theorem saved_iff (hs : s.Represents heaps chains maps u) : s.Saved name entry ↔ u.saved entry.rid = some (name, entry.table) := by
  have hrow {name' table} (hr : u.saved entry.rid = some (name', table)) :
      Catalog.Describes (entry.rid, Catalog.rowBytes name' table) name' ⟨entry.rid, table⟩ := by
    obtain ⟨hf, hc, -⟩ := hs.saved _ _ _ hr
    exact ⟨rfl, hf.readRow hc⟩
  constructor
  · rintro ⟨bytes, hl, hd⟩
    obtain ⟨name', table, hr, rfl⟩ := (hs.agrees.rows _ _).mp hl
    obtain ⟨rfl, he⟩ := hd.unique (hrow hr)
    rw [he] at hr ⊢
    exact hr
  · exact fun hr => ⟨_, (hs.agrees.rows _ _).mpr ⟨_, _, hr, rfl⟩, hrow hr⟩

theorem survives {c : Catalog} (hs : s.Represents heaps chains maps u)
    (hc : Represents ⟨c, []⟩ heaps chains maps { u with tables := u.kept }) : s.Survives c where
  tables name entry := by
    rw [hs.saved_iff, hs.lookup, (hc.lookup name : c.tables.lookup name = _)]
    simp only [Option.map_eq_some_iff, Prod.exists, DatabaseMap.kept_eq_some]
    constructor
    · rintro ⟨entry, m, ⟨he, hr⟩, rfl⟩
      exact ⟨⟨entry, m, he, rfl⟩, hr⟩
    · rintro ⟨⟨entry, m, he, rfl⟩, hr⟩
      exact ⟨entry, m, ⟨he, hr⟩, rfl⟩
  tuples name entry he rid bytes := by
    obtain ⟨⟨entry, m⟩, hk, rfl⟩ := Option.map_eq_some_iff.mp <| (hc.lookup name).symm.trans he
    obtain ⟨hin, -⟩ := hc.tables _ _ _ hk
    exact (hc.pool.live_iff hin).trans (hs.pool.live_iff hin).symm

end Represents

-- Every table keeps its row, unless a drop is interrupted.
theorem Spec.complete {event : Event} {v : DatabaseMap} (e : Spec u event v) (hu : u.Complete)
    (hd : ∀ name granted e, event ≠ .dropTable name granted (.error e)) : v.Complete := by
  intro name entry m h
  cases e
  case created hr _                        =>
    obtain ⟨rfl, hx⟩ | ⟨-, h⟩ := update_eq_some.mp h
    · cases hx
      exact Function.update_self ..
    · have hs := hu _ _ _ h
      refine update_eq_some.mpr <| .inr ⟨fun he => ?_, hs⟩
      rw [he, hr] at hs
      cases hs
  case dropped he _                        =>
    obtain ⟨-, h⟩ | ⟨hn, h⟩ := update_eq_some.mp h
    · cases h
    · have hs := hu _ _ _ h
      refine update_eq_some.mpr <| .inr ⟨fun hr => ?_, hs⟩
      rw [hr, hu _ _ _ he] at hs
      exact hn (Prod.mk.inj (Option.some.inj hs)).1.symm
  case interrupted                         => exact absurd rfl (hd _ _ _)
  case called he _                         =>
    obtain ⟨rfl, hx⟩ | ⟨-, h⟩ := update_eq_some.mp h
    · cases hx
      exact hu _ _ _ he
    · exact hu _ _ _ h
  case reopened                            => exact hu _ _ _ (DatabaseMap.kept_eq_some.mp h).1
  all_goals exact hu _ _ _ h

-- What is in the database is there when it is opened again, unless a drop has been interrupted.
theorem persists {t : OpenDatabase} {n : ℕ} (h₀ : Initial s) (hs : Runs.Steps Step s events t) (hn : 0 < n) :
    ∃ c, t.catalog.reopened n = some (.ok c) ∧ t.Survives c ∧
      ((∀ name granted e, .dropTable name granted (.error e) ∉ events) → c.tables = t.catalog.tables) := by
  obtain ⟨u, hspec, heaps, chains, maps, hu⟩ := holds h₀ hs
  obtain ⟨c, hx, hc⟩ := hu.reopen hn
  refine ⟨c, hx, hu.survives hc, fun hd => Finmap.ext_lookup fun name => Option.ext fun entry => ?_⟩
  rw [(hu.survives hc).tables, and_iff_left_iff_imp, hu.saved_iff, hu.lookup]
  intro hl
  obtain ⟨⟨entry, m⟩, he, rfl⟩ := Option.map_eq_some_iff.mp hl
  refine hspec.preserves_of_mem (P := DatabaseMap.Complete) (fun ha e hu => e.complete hu ?_) .empty name entry m he
  rintro _ _ _ rfl
  exact hd _ _ _ ha

section brief

open Heaps Pager Program TableHeap

def briefSchema : Schema where
  columns := [⟨[105, 100], .int64, 0⟩]

def briefTuple : Tuple where
  schema := briefSchema
  values := [.int64 7]

def briefRow : List UInt8 :=
  Catalog.rowBytes [116] ⟨⟨2⟩, briefSchema⟩

def briefBytes : List UInt8 := [0, 7, 0, 0, 0, 0, 0, 0, 0]

-- What the calls do to the pages.
def brief : PagerM Unit := do
  Heaps.expected ⟨1⟩ TableHeap.create
  Heaps.expected (some 0) (fetchPage 1)
  Heaps.expected (false, none, false) do
    let page ← slotted 0
    return (page.hasSlot 0, page.nextOccupiedSlot 0, page.hasNextPage)
  Heaps.expected () (.update <| unpin 0 false)
  Heaps.expected ⟨2⟩ TableHeap.create
  Heaps.expected (some 0) (fetchPage 1)
  Heaps.expected (.inl ⟨1, 0⟩) (visitPage 0 briefRow false)
  Heaps.expected true (.read fun s => decide (s.pool.disk.capacity < invalidPageID))
  Heaps.expected (some 1) (fetchPage 2)
  Heaps.expected (.inl ⟨2, 0⟩) (visitPage 1 briefBytes false)

theorem brief_ok : ∃ t, brief (small 4) = some (.ok (), t) := by
  have h : (brief (small 4)).any (fun (result, _) => result.isOk) = true := by
    decide +kernel
  obtain ⟨⟨_ | _, t⟩, hx, hr⟩ := (Option.any_eq_true ..).mp h
  · cases hr
  · exact ⟨t, hx⟩


theorem opened_brief {p₁ p₂ p₃ : Pager} (e₁ : TableHeap.create (small 4) = some (.ok ⟨1⟩, p₁))
    (e₂ : fetchPage 1 p₁ = some (.ok (some 0), p₂)) (e₃ : (do
      let page ← slotted 0
      return (page.hasSlot 0, page.nextOccupiedSlot 0, page.hasNextPage) : PagerM _) p₂ = some (.ok (false, none, false), p₃)) :
    Catalog.opened .empty 4 = some (.ok ⟨⟨⟨kCatalogFirstPageID⟩, Catalog.catalogSchema⟩, ∅,
      { (.init (small 4) : Database) with database := unpin 0 false p₃ }⟩) := by
  have hinit : Database.onHeap Catalog.initTable (.init (small 4)) =
      some (.ok ⟨⟨1⟩, Catalog.catalogSchema⟩, { (.init (small 4) : Database) with database := p₁ }) := by
    refine Database.onHeap_apply ?_
    have hle : (small 4).pool.disk.capacity ≤ kCatalogFirstPageID := by decide
    simp only [Catalog.initTable, Program.read_bind, TransactionManager.init, hle, if_true]
    rw [Program.bind_eq e₁]
    rfl
  have hscan : TableHeap.scan ⟨1⟩ p₁ = some (.ok ⟨⟨1, 0⟩, some 0⟩, p₂) := by
    rw [TableHeap.scan, Program.bind_eq e₂]
    rfl
  have htable : Table.scan ⟨⟨1⟩, Catalog.catalogSchema⟩ none p₁ =
      some (.ok ⟨⟨⟨1, 0⟩, some 0⟩, ⟨⟨1⟩, Catalog.catalogSchema⟩, none⟩, p₂) := by
    rw [Table.scan, Program.bind_eq hscan]
    rfl
  have hnext : Table.Scan.next id ⟨⟨⟨1, 0⟩, some 0⟩, ⟨⟨1⟩, Catalog.catalogSchema⟩, none⟩
      { (.init (small 4) : Database) with database := p₂ } =
        some (.ok (none, ⟨⟨⟨1, 0⟩, some 0⟩, ⟨⟨1⟩, Catalog.catalogSchema⟩, none⟩),
          { (.init (small 4) : Database) with database := p₃ }) := by
    have hn : TableHeap.Scan.next ⟨⟨1, 0⟩, some 0⟩ p₂ = some (.ok (none, ⟨⟨1, 0⟩, some 0⟩), p₃) := next_none e₃
    have hn := Database.onHeap_apply (s := { (.init (small 4) : Database) with database := p₂ }) hn
    exact Program.bind_eq hn
  have hload : Catalog.loadTables ⟨⟨⟨1, 0⟩, some 0⟩, ⟨⟨1⟩, Catalog.catalogSchema⟩, none⟩ ∅
      { (.init (small 4) : Database) with database := p₂ } =
        some (.ok ∅, { (.init (small 4) : Database) with database := unpin 0 false p₃ }) := by
    rw [Catalog.loadTables, Program.loop_eq]
    dsimp only
    rw [bind_assoc, Program.bind_eq hnext]
    rfl
  have hconstruct : Catalog.construct (.init (small 4)) = some (.ok (⟨⟨1⟩, Catalog.catalogSchema⟩, ∅),
      { (.init (small 4) : Database) with database := unpin 0 false p₃ }) := by
    rw [Catalog.construct, Program.bind_eq hinit, Program.bind_eq (Database.onHeap_apply htable), Program.bind_eq hload]
    rfl
  rw [Catalog.opened, DiskManager.openFile_fresh (by decide)]
  change Option.map _ (Catalog.construct (.init (small 4))) = _
  rw [hconstruct]
  rfl

-- The row of the table goes to the catalog.
theorem created_brief {c : Catalog} {p₁ p₂ p₃ : Pager} (hc : c.catalogTable = ⟨⟨1⟩, Catalog.catalogSchema⟩) (ht : c.tables = ∅)
    (e₁ : TableHeap.create c.pager = some (.ok ⟨2⟩, p₁)) (e₂ : fetchPage 1 p₁ = some (.ok (some f), p₂))
    (e₃ : visitPage f briefRow false p₂ = some (.ok (.inl ⟨1, 0⟩), p₃)) :
    Catalog.createTable [116] briefSchema c = some (.ok ⟨⟨2⟩, briefSchema⟩,
      { c.withPager p₃ with tables := c.tables.insert [116] ⟨⟨1, 0⟩, ⟨⟨2⟩, briefSchema⟩⟩ }) := by
  have hb : (Catalog.rowTuple [116] ⟨⟨2⟩, briefSchema⟩).serialize = .ok briefRow :=
    Catalog.serialize_eq_ok.mpr ⟨by decide, rfl⟩
  have hheap := Catalog.onDatabase_apply (c := c) <| Database.onHeap_apply e₁
  have hrow := Catalog.onDatabase_apply (c := c.withPager p₁) <| Database.onHeap_apply (s := (c.withPager p₁).database) <|
    insertTuple_here (h := ⟨1⟩) (by decide) e₂ e₃
  have hn : (c.tables.lookup [116]).isSome = false := by rw [ht, Finmap.lookup_empty, Option.isSome_none]
  change (if (c.tables.lookup [116]).isSome then _ else _ : CatalogM Table) c = _
  rw [hn, if_neg Bool.false_ne_true, Program.bind_eq hheap]
  dsimp only
  rw [Catalog.rowOf_eq, Program.bind_eq (t := c.withPager p₁) rfl, id_eq, hc, Table.insertTuple_none Schema.compatibleWith_self hb,
    Program.bind_eq hrow]
  rfl

theorem inserted_brief {d : Database} {p₁ p₂ : Pager} (e₁ : fetchPage 2 d.database = some (.ok (some f), p₁))
    (e₂ : visitPage f briefBytes false p₁ = some (.ok (.inl ⟨2, 0⟩), p₂)) :
    (Table.Op.insert briefTuple).run ⟨⟨2⟩, briefSchema⟩ d = some (.ok (.rid (some ⟨2, 0⟩)), { d with database := p₂ }) := by
  have hs : briefTuple.serialize = .ok briefBytes := by decide
  rw [Table.Op.run, Program.map_apply, Table.insertTuple_none Schema.compatibleWith_self hs,
    Database.onHeap_apply <| insertTuple_here (by decide) e₁ e₂]
  rfl

-- The pages after each call.
structure Briefly (c : Catalog) (p₁ p₂ p₃ p₄ p₅ : Pager) : Prop where
  opened   : Catalog.opened .empty 4 = some (.ok c)
  created  : TableHeap.create c.pager = some (.ok ⟨2⟩, p₁)
  fetched  : fetchPage 1 p₁ = some (.ok (some 0), p₂)
  saved    : visitPage 0 briefRow false p₂ = some (.ok (.inl ⟨1, 0⟩), p₃)
  granted  : p₃.denied = false
  ids      : p₃.pool.disk.capacity < invalidPageID
  found    : fetchPage 2 p₃ = some (.ok (some 1), p₄)
  inserted : visitPage 1 briefBytes false p₄ = some (.ok (.inl ⟨2, 0⟩), p₅)
  done     : p₅.denied = false

theorem briefly : ∃ c p₁ p₂ p₃ p₄ p₅, Briefly c p₁ p₂ p₃ p₄ p₅ ∧ c.catalogTable = ⟨⟨1⟩, Catalog.catalogSchema⟩ ∧ c.tables = ∅ := by
  obtain ⟨_, h⟩ := brief_ok
  obtain ⟨_, p₁, h₁, h⟩ := bind_ok h
  obtain ⟨_, p₂, h₂, h⟩ := bind_ok h
  obtain ⟨_, p₃, h₃, h⟩ := bind_ok h
  obtain ⟨_, p₄, h₄, h⟩ := bind_ok h
  obtain ⟨_, p₅, h₅, h⟩ := bind_ok h
  obtain ⟨_, p₆, h₆, h⟩ := bind_ok h
  obtain ⟨_, p₇, h₇, h⟩ := bind_ok h
  obtain ⟨_, p₈, h₈, h⟩ := bind_ok h
  obtain ⟨_, p₉, h₉, h₁₀⟩ := bind_ok h
  have ⟨e₁, _⟩ := Heaps.expected_ok h₁
  have ⟨e₂, _⟩ := Heaps.expected_ok h₂
  have ⟨e₃, _⟩ := Heaps.expected_ok h₃
  have ⟨e₄, _⟩ := Heaps.expected_ok h₄
  have ⟨e₅, _⟩ := Heaps.expected_ok h₅
  have ⟨e₆, _⟩ := Heaps.expected_ok h₆
  have ⟨e₇, d₇⟩ := Heaps.expected_ok h₇
  have ⟨e₈, _⟩ := Heaps.expected_ok h₈
  have ⟨e₉, _⟩ := Heaps.expected_ok h₉
  have ⟨e₁₀, d₁₀⟩ := Heaps.expected_ok h₁₀
  obtain ⟨-, rfl⟩ := Prod.mk.inj <| Option.some.inj e₄
  obtain ⟨hids, rfl⟩ := Prod.mk.inj <| Option.some.inj e₈
  refine ⟨_, _, _, _, _, _, ⟨opened_brief e₁ e₂ e₃, e₅, e₆, e₇, d₇, ?_, e₉, e₁₀, d₁₀⟩, rfl, rfl⟩
  exact of_decide_eq_true <| Except.ok.inj hids

theorem Briefly.call (e : Briefly c p₁ p₂ p₃ p₄ p₅) {t : OpenDatabase} (hp : t.pager = p₃) (hon : t.pager.Online)
    (ht : t.catalog.getTable [116] = some ⟨⟨2⟩, briefSchema⟩) :
    ∃ u, t.Step (.call [116] (.insert briefTuple) true (.ok (.rid (some ⟨2, 0⟩)))) u := by
  have ha : (Table.Op.insert briefTuple).Admitted ⟨⟨2⟩, briefSchema⟩ t.pager := ⟨hon, fun _ => hp ▸ e.ids⟩
  have hf : fetchPage 2 t.catalog.database.database = some (.ok (some 1), p₄) := e.found ▸ congrArg _ hp
  have h : t.Step (.call [116] (.insert briefTuple) (!p₅.denied) (.ok (.rid (some ⟨2, 0⟩)))) _ :=
    .call ht ha (inserted_brief hf e.inserted)
  rw [e.done] at h
  exact ⟨_, h⟩

-- A table is made in a new file, and takes a tuple. The file is then opened again.
theorem brief_run : ∃ s t u v, Initial s ∧ s.pins.length + 1 < s.pager.pool.poolCapacity ∧
    s.Step (.createTable [116] briefSchema true (.ok ⟨⟨2⟩, briefSchema⟩)) t ∧
    t.Step (.call [116] (.insert briefTuple) true (.ok (.rid (some ⟨2, 0⟩)))) u ∧ u.Step (.reopen 4) v := by
  obtain ⟨c, p₁, p₂, p₃, p₄, p₅, e, hcat, htables⟩ := briefly
  have h₀ : Initial ⟨c, []⟩ := ⟨rfl, .empty, 4, rfl, by decide, by decide, e.opened⟩
  obtain ⟨_, -, hc, -, hcap, hdisk, hfree⟩ := Catalog.opened_new (show File.empty.failing = false from rfl) (by decide)
    (show 0 < 4 by decide)
  cases e.opened.symm.trans hc
  obtain ⟨_, _, _, hs⟩ := init h₀
  have hr : c.pager.Ready := ⟨hs.pool.online, fun _ => by rw [hdisk]; decide⟩
  have hr' : c.pager.allocated.Ready := by
    refine ⟨hr.allocated, fun _ => ?_⟩
    simp only [Pager.allocated, DiskManager.allocatePage, hfree, List.getLast?_nil, hdisk]
    decide
  have h₁ : Step ⟨c, []⟩ _ _ :=
    .createTable hr hr' (show briefSchema.columns.length < 65536 by decide) (created_brief hcat htables e.created e.fetched e.saved)
  obtain ⟨_, -, _, _, _, hs₁⟩ := (init h₀).step h₁
  have hf : p₃.forgiven = p₃ := by rw [Pager.forgiven, ←e.granted]
  have ht : (Catalog.forgiven { c.withPager p₃ with tables := c.tables.insert [116] ⟨⟨1, 0⟩, ⟨⟨2⟩, briefSchema⟩⟩ }).getTable
      [116] = some ⟨⟨2⟩, briefSchema⟩ := by
    rw [Catalog.getTable]
    exact (congrArg _ (Finmap.lookup_insert _)).trans rfl
  obtain ⟨_, h₂⟩ := e.call hf hs₁.pool.online ht
  obtain ⟨_, _, _, _, _, hs₂⟩ := Holds.step ⟨_, _, _, hs₁⟩ h₂
  obtain ⟨_, hx, -⟩ := hs₂.reopen (show 0 < 4 by decide)
  have hg : (!p₃.denied) = true := by rw [e.granted]; rfl
  exact ⟨_, _, _, _, h₀, (show 0 + 1 < c.pager.pool.poolCapacity by rw [hcap]; decide), hg ▸ h₁, h₂, .reopen (by decide) hx⟩

theorem grants_brief_run : ∃ s t, Initial s ∧ s.Step (.createTable [116] briefSchema true (.ok ⟨⟨2⟩, briefSchema⟩)) t ∧
    ¬Event.Refused (.createTable [116] briefSchema true (.ok ⟨⟨2⟩, briefSchema⟩)) := by
  obtain ⟨s, t, -, -, h₀, hn, h₁, -⟩ := brief_run
  exact ⟨s, t, h₀, h₁, grants (.start h₀) hn h₁⟩

abbrev briefEvents : List Event :=
  [.createTable [116] briefSchema true (.ok ⟨⟨2⟩, briefSchema⟩),
    .call [116] (.insert briefTuple) true (.ok (.rid (some ⟨2, 0⟩))), .reopen 4]

theorem brief_steps : ∃ s t, Initial s ∧ Runs.Steps Step s briefEvents t ∧ t.pins = [] := by
  obtain ⟨s, t, u, v, h₀, -, h₁, h₂, h₃⟩ := brief_run
  refine ⟨s, v, h₀, .step h₁ <| .step h₂ <| .single h₃, ?_⟩
  cases h₃
  rfl

theorem brief_tables (hs : Runs.Steps Spec .empty briefEvents u) :
    ∃ rid, u.tables [116] = some (⟨rid, ⟨⟨2⟩, briefSchema⟩⟩, Function.update HeapMap.empty ⟨2, 0⟩ (some briefBytes)) := by
  cases hs
  case step e₁ hs =>
    cases hs
    case step e₂ hs =>
      cases hs
      case step e₃ hs =>
        cases hs
        cases e₁
        case created rid _ _ _ _ =>
          cases e₂
          case called he ho =>
            dsimp only at he
            rw [Function.update_self] at he
            obtain ⟨rfl, rfl⟩ := Prod.mk.inj <| Option.some.inj he
            have ho : Table.Outcome ⟨⟨2⟩, briefSchema⟩ .empty true (.insert briefTuple) (.rid <$> .ok (some ⟨2, 0⟩)) _ := ho
            have hc : briefSchema.compatibleWith briefTuple.schema = true := Schema.compatibleWith_self
            obtain ⟨bytes, _, hb, -, -, hres, -, rfl⟩ | ⟨-, hres, -⟩ := ho.insert_cases hc
            · obtain rfl := Option.some.inj <| Except.ok.inj hres
              obtain rfl : briefBytes = bytes := Except.ok.inj <| (show briefTuple.serialize = _ by decide).symm.trans hb
              cases e₃
              refine ⟨rid, ?_⟩
              dsimp only
              rw [DatabaseMap.kept_eq_some]
              dsimp only
              exact ⟨Function.update_self .., Function.update_self ..⟩
            · exact absurd rfl (hres _)

theorem persists_brief_run : ∃ s t c, Initial s ∧ Runs.Steps Step s briefEvents t ∧
    t.catalog.reopened 1 = some (.ok c) ∧ c.tables = t.catalog.tables := by
  obtain ⟨s, t, h₀, hs, -⟩ := brief_steps
  obtain ⟨c, hx, -, hc⟩ := persists h₀ hs (show 0 < 1 by decide)
  exact ⟨s, t, c, h₀, hs, hx, hc fun _ _ _ => by simp⟩

end brief

end OpenDatabase
end Duck
