import Duck.Catalog.Theorems.Rows
import Duck.Table.Theorems.Coverage
import Duck.Table.Theorems.Frames
import Duck.Table.Theorems.HeapPool

namespace Duck

open Program Pager

variable {views : Views} {v : PageView} {p : PageID} {ps : List PageID} {rows : List (RID × List UInt8)}

namespace Pager

variable {s : Pager} {pin : Pin} {pins : List Pin} {f : FrameID}

theorem Shows.poolCapacity_pos (hs : s.Shows (pin :: pins) views) : 0 < s.pool.poolCapacity := by
  obtain ⟨owned, hk, -⟩ := hs
  have hp := hk.accounts.pool
  have hl := hp.table_lt <| hk.accounts.held List.mem_cons_self
  exact Nat.lt_of_lt_of_le (Nat.zero_lt_of_lt hl) hp.size_le

end Pager

namespace TableHeap.Scan

theorem leaves_slotted {k : SlottedPage → PagerM α} {Q : Except String α → Pager → Prop}
    (h : (k (s.pool.frames f).data.slotted).Leaves s Q) : (slotted f >>= k).Leaves s Q :=
  h

variable {scan : Scan} {s : Pager} {f : FrameID} {w : Bool}

theorem nextPage_steady (scan : Scan) (s : Pager) : scan.nextPage.Leaves s fun _ t => s.Steady t := by
  rw [nextPage]
  split
  case h_1      => exact .pure <| .of_disk rfl
  case h_2 f hf =>
    refine .read_bind ?_
    split
    case isTrue  => exact .pure <| .of_disk rfl
    case isFalse =>
      have hu : s.Steady (unpin f false s) := .of_disk unpin_disk
      refine .update_bind <| (Steady.fetchPage _).bind ?_ hu.trans
      rintro (_ | g) t ht
      · exact .pure <| hu.trans ht
      · exact .read_bind <| .pure <| hu.trans ht

theorem next_steady (scan : Scan) (s : Pager) : scan.next.Leaves s fun _ t => s.Steady t := by
  refine .loop (I := fun _ t => s.Steady t) ?_ (.of_disk rfl)
  intro scan t ht
  split
  case h_1      => exact .pure ht
  case h_2 f hf =>
    refine .read_bind ?_
    dsimp only
    split
    case isTrue  =>
      refine (nextPage_steady _ _).bind ?_ ht.trans
      rintro ⟨_ | _, scan'⟩ u hu
      · exact .pure <| ht.trans hu
      · exact .pure <| ht.trans hu
    case isFalse => exact .pure ht

-- Once it has left its page there is a frame for the next one.
theorem nextPage_granted {rid : RID} (hs : s.Shows [⟨p, f, w⟩] views) (hon : s.Online) (hv : views p = some v)
    (hl : Linked views v.nextPage ps) : (nextPage ⟨rid, some f⟩).Leaves s fun _ t => t.denied = false := by
  have hp := hs.holds hv
  refine leaves_slotted ?_
  split
  case isTrue     => exact .pure hs.denied
  case isFalse hh =>
    have hx : v.nextPage ≠ invalidPageID := by
      simpa [SlottedPage.hasNextPage, hp.nextPage_eq] using hh
    obtain ⟨u, hu⟩ := hl.view <| hl.first_mem hx
    obtain ⟨owned, hk, ho⟩ := hs.unpin
    have hc : 0 < (unpin f false s).pool.poolCapacity := unpin_poolCapacity.symm ▸ hs.poolCapacity_pos
    have hon : (unpin f false s).Online := (Steady.of_disk unpin_disk).online hon
    have hg := hk.fetchPage_granted hon (ho _ _ hu) (show 0 + 1 < 4294967296 by decide) hc
    rw [hp.nextPage_eq]
    refine .update_bind <| hg.bind ?_ id
    rintro (_ | g) t ht
    · exact .pure ht
    · exact .read_bind <| .pure ht

-- A scan that nobody disturbs is refused no page.
theorem Reads.next_granted {tuples : List (RID × List UInt8)} (hr : scan.Reads s [] views ps tuples) (hon : s.Online) :
    scan.next.Leaves s fun _ t => t.denied = false := by
  refine .loop (I := fun scan t => t.Online ∧ ∃ ps tuples, scan.Reads t [] views ps tuples) ?_ ⟨hon, _, _, hr⟩
  rintro ⟨⟨p, i⟩, _⟩ t ⟨hon, ps, tuples, ⟨f, w, rfl, hs⟩, hl, hp, hi, -⟩
  cases hl
  case nil                 => exact absurd rfl hp
  case cons v ps hl hv _ _ =>
    obtain ⟨j, hj, -⟩ := skip_cases p (some f) (hs.holds hv) (hi v hv)
    refine leaves_slotted ?_
    simp only [hj]
    split
    case isFalse => exact .pure hs.denied
    case isTrue  =>
      have hx {result u} (hx : nextPage ⟨⟨p, j⟩, some f⟩ t = some (result, u)) :=
        And.intro (nextPage_granted hs hon hv hl _ _ hx) <| And.intro (nextPage_steady _ _ _ _ hx) <|
          (nextPage_ends hs hv hl fun q _ => (show 0 + 1 < 4294967296 by decide)).of_eq hx
      refine .bind .self ?_ fun he => (hx he).1
      rintro ⟨_ | _, scan'⟩ u he
      · exact .pure (hx he).1
      · obtain ⟨hd, hst, ⟨hd', -⟩ | ⟨-, hr, -⟩ | ⟨g, hn, hr, hu⟩⟩ := hx he
        · cases hd.symm.trans hd'
        · cases hr
        · cases hr
          exact .pure ⟨hst.online hon, ps, _, ⟨g, false, rfl, hu⟩, hl, hn, fun _ _ => Nat.zero_le _, rfl⟩

theorem close_disk (h : scan.close s = some (result, t)) : t.pool.disk = s.pool.disk := by
  obtain ⟨_, _ | f⟩ := scan
  · cases h
    rfl
  · cases h
    exact unpin_disk

-- A scan on a pool without pins.
theorem scan_unpinned {h : TableHeap} (hs : s.Shows [] views) (hon : s.Online) (hc : 0 < s.pool.poolCapacity)
    (hl : Linked views h.firstPageId ps) (hp : h.firstPageId ≠ invalidPageID) :
    h.scan.Ends s fun result t => s.Steady t ∧ ∃ scan, result = .ok scan ∧ scan.Reads t [] views ps (Duck.rows views ps 0) := by
  obtain ⟨v, hv⟩ := hl.view <| hl.first_mem hp
  obtain ⟨owned, hk, ho⟩ := id hs
  have hg : h.scan.Leaves s fun _ t => s.Steady t ∧ t.denied = false := by
    refine .bind (R := fun _ t => s.Steady t ∧ t.denied = false) ?_ (fun h => .pure h) id
    exact fun _ _ hx => ⟨Steady.fetchPage _ _ _ hx, hk.fetchPage_granted hon (ho _ v hv) (show 0 + 1 < 4294967296 by decide) hc _ _ hx⟩
  refine (scan_reads hs hl hp fun q _ => (show 0 + 1 < 4294967296 by decide)).self.mono ?_
  rintro result t ⟨hx, hd | hr⟩
  · cases (hg _ _ hx).2.symm.trans hd
  · exact ⟨(hg _ _ hx).1, hr⟩

end TableHeap.Scan

-- Nothing is locked without a transaction.
theorem Table.Scan.next_none {scan : Table.Scan} (hx : scan.tx = none) : scan.next id = (do
    match ← Database.onHeap scan.heapScan.next with
    | (none, heapScan)              => return (none, { scan with heapScan := heapScan })
    | (some (rid, bytes), heapScan) =>
      return (some (rid, ← scan.table.decode bytes), { scan with heapScan := heapScan })) := by
  rw [Scan.next, hx]
  rfl

namespace Catalog

open Database

-- The row is that of the table.
def Describes (row : RID × List UInt8) (name : Name) (entry : TableEntry) : Prop :=
  entry.rid = row.1 ∧ ∃ tuple, Tuple.deserialize row.2 catalogSchema = .ok tuple ∧ readRow tuple = .ok (name, entry.table)

variable {name name' : Name} {entry entry' : TableEntry} {row : RID × List UInt8}

theorem Describes.unique (h : Describes row name entry) (h' : Describes row name' entry') : name = name' ∧ entry = entry' := by
  obtain ⟨hr, tuple, hd, ht⟩ := h
  obtain ⟨hr', tuple', hd', ht'⟩ := h'
  obtain rfl := Except.ok.inj <| hd.symm.trans hd'
  obtain ⟨rfl, ht⟩ := Prod.mk.inj <| Except.ok.inj <| ht.symm.trans ht'
  obtain ⟨_, _⟩ := entry
  obtain ⟨_, _⟩ := entry'
  simp_all

variable {target : Name → Option TableEntry} {tables : TableEntries} {scan : Table.Scan} {s : Database}

-- One turn of the loop.
theorem loadTables_eq (hx : scan.tx = none) : loadTables scan tables = (do
    match ← onHeap scan.heapScan.next with
    | (none, heapScan)              =>
      onHeap heapScan.close
      return tables
    | (some (rid, bytes), heapScan) =>
      let tuple ← scan.table.decode bytes
      let (tableName, table) ← .ofExcept (readRow tuple)
      loadTables { scan with heapScan := heapScan } (tables.insert tableName ⟨rid, table⟩)) := by
  rw [loadTables, Program.loop_eq]
  simp only [Table.Scan.next_none hx, bind_assoc]
  refine bind_congr fun result => ?_
  obtain ⟨_ | ⟨rid, bytes⟩, heapScan⟩ := result
  · simp only [bind_assoc, pure_bind]
    exact bind_congr fun _ => rfl
  · simp only [bind_assoc, pure_bind]
    exact bind_congr fun tuple => bind_congr fun row => rfl

theorem decode_ends {table : Table} (hd : Tuple.deserialize bytes table.schema = .ok tuple) (h : Q (.ok tuple) s) :
    (table.decode bytes).Ends s Q := by
  rw [Table.decode, hd]
  exact .ofExcept h

-- The next row, while nobody else has a pin.
theorem nextRow_ends {scan : TableHeap.Scan} (hr : scan.Reads s.database [] views ps rows) (hon : s.database.Online) :
    (onHeap scan.next).Ends s fun result t => ∃ scan' ps', result = .ok (rows.head?, scan') ∧
      scan'.Reads t.database [] views ps' rows.tail ∧ t = { s with database := t.database } ∧ s.database.Steady t.database := by
  refine .on <| (hr.next_ends fun q _ => (show 0 + 1 < 4294967296 by decide)).self.mono ?_
  rintro result t ⟨hx, ⟨hd, -⟩ | ⟨scan', ps', rfl, hr', -⟩⟩
  · cases (hr.next_granted hon _ _ hx).symm.trans hd
  · exact ⟨scan', ps', rfl, hr', rfl, scan.next_steady _ _ _ hx⟩

-- The tables of the rows that are still to come are added to those that have been loaded.
theorem loadTables_ends (hs : scan.table.schema = catalogSchema) (hx : scan.tx = none)
    (hr : scan.heapScan.Reads s.database [] views ps rows) (hon : s.database.Online)
    (hrows : ∀ row ∈ rows, ∃ name entry, Describes row name entry ∧ target name = some entry)
    (hsub : ∀ name entry, tables.lookup name = some entry → target name = some entry)
    (hall : ∀ name entry, target name = some entry → tables.lookup name = some entry ∨ ∃ row ∈ rows, Describes row name entry) :
    (loadTables scan tables).Ends s fun result t =>
      (∃ tables', result = .ok tables' ∧ ∀ name, tables'.lookup name = target name) ∧
        t = { s with database := t.database } ∧ t.database.Shows [] views ∧ s.database.Steady t.database := by
  induction rows generalizing s scan tables ps
  all_goals
    rw [loadTables_eq hx]
    refine (nextRow_ends hr hon).bind ?_ ?_
  case nil.refine_1 =>
    rintro ⟨row, heapScan⟩ t ⟨scan', ps', hres, hr, ht, hst⟩
    obtain ⟨rfl, rfl⟩ := Prod.mk.inj <| Except.ok.inj hres
    obtain ⟨pin, hp, hshows⟩ := hr.placed
    refine .bind (R := fun result u => result = .ok () ∧ u.database.Shows [] views ∧ t.database.Steady u.database ∧
      u = { t with database := u.database }) ?_ ?_ fun h => absurd h.1 Except.error_ne_ok
    · refine .on <| hp.close_ends.self.mono ?_
      rintro result u ⟨hu, rfl, -, hclose⟩
      exact ⟨rfl, hclose hshows, .of_disk (TableHeap.Scan.close_disk hu), rfl⟩
    · rintro _ u ⟨-, hu, hst', he⟩
      refine .pure ⟨⟨tables, rfl, fun name => ?_⟩, ?_, hu, hst.trans hst'⟩
      · refine Option.ext fun entry => ⟨hsub name entry, fun he => ?_⟩
        exact (hall name entry he).resolve_right (by simp)
      · rw [he, ht]
  case cons.refine_1 row rows ih =>
    rintro ⟨row, heapScan⟩ t ⟨scan', ps', hres, hr, ht, hst⟩
    obtain ⟨rfl, hscan⟩ := Prod.mk.inj <| Except.ok.inj hres
    rw [←hscan] at hr
    obtain ⟨name, entry, hdesc, htarget⟩ := hrows _ List.mem_cons_self
    obtain ⟨hrid, tuple, hd, hread⟩ := id hdesc
    refine .bind (decode_ends (Q := fun result u => result = .ok tuple ∧ u = t) (hs ▸ hd) ⟨rfl, rfl⟩) ?_
      fun h => absurd h.1 Except.error_ne_ok
    rintro _ u ⟨hres, rfl⟩
    obtain rfl := Except.ok.inj hres
    refine .bind (R := fun result v => result = .ok (name, entry.table) ∧ v = u) (.ofExcept ⟨hread, rfl⟩) ?_
      fun h => absurd h.1 Except.error_ne_ok
    rintro _ v ⟨hres, rfl⟩
    obtain rfl := Except.ok.inj hres
    have hentry : (⟨row.1, entry.table⟩ : TableEntry) = entry := hrid ▸ rfl
    simp only [hentry]
    have hs : { scan with heapScan := heapScan }.table.schema = catalogSchema := hs
    refine (ih hs hx hr (hst.online hon) (fun row' hm => hrows row' <| List.mem_cons_of_mem _ hm) ?_ ?_).mono ?_
    · intro name' entry' hl
      by_cases hn : name' = name
      case pos =>
        rw [hn, Finmap.lookup_insert] at hl
        rwa [hn, ←Option.some.inj hl]
      case neg =>
        rw [Finmap.lookup_insert_of_ne _ hn] at hl
        exact hsub name' entry' hl
    · intro name' entry' he
      by_cases hn : name' = name
      case pos =>
        rw [hn] at he ⊢
        exact .inl <| Finmap.lookup_insert _ |>.trans <| htarget.symm.trans he
      case neg =>
        rw [Finmap.lookup_insert_of_ne _ hn]
        refine (hall name' entry' he).imp_right ?_
        rintro ⟨row', hm, hdesc'⟩
        obtain rfl | hm := List.mem_cons.mp hm
        · exact absurd (hdesc'.unique hdesc).1 hn
        · exact ⟨row', hm, hdesc'⟩
    · rintro result u ⟨htables, he, hu, hst'⟩
      exact ⟨htables, by rw [he, ht], hu, hst.trans hst'⟩
  all_goals
    rintro e t ⟨_, _, hr, -⟩
    cases hr

-- The rows of the catalog are those of the tables.
structure Lists (m : HeapMap) (target : Name → Option TableEntry) : Prop where
  rows   : ∀ rid bytes, m rid = some bytes → ∃ name entry, Describes (rid, bytes) name entry ∧ target name = some entry
  tables : ∀ name entry, target name = some entry → ∃ bytes, m entry.rid = some bytes ∧ Describes (entry.rid, bytes) name entry

variable {heaps : List TableHeap} {chains : TableHeap → List PageID} {maps : TableMaps} {h : TableHeap} {pool : PoolManager}

theorem load_ends (hs : HeapPool.Holds ⟨heaps, [], s.database⟩ chains maps) (hh : h ∈ heaps) (hc : 0 < s.database.pool.poolCapacity)
    (hm : Lists (maps h) target) :
    (do
      let scan ← onHeap (Table.scan ⟨h, catalogSchema⟩ none)
      return ((⟨h, catalogSchema⟩ : Table), ← loadTables scan ∅) : DatabaseM (Table × TableEntries)).Ends s fun result t =>
      (∃ tables, result = .ok (⟨h, catalogSchema⟩, tables) ∧ ∀ name, tables.lookup name = target name) ∧
        t = { s with database := t.database } ∧ HeapPool.Holds ⟨heaps, [], t.database⟩ chains maps ∧
          s.database.Steady t.database := by
  obtain ⟨⟨views, hshows, ht⟩, hon, hroom⟩ := hs
  have hl := ht.linked h hh
  have hmem {rid bytes} : (rid, bytes) ∈ Duck.rows views (chains h) 0 ↔ maps h rid = some bytes :=
    ht.maps h hh ▸ mem_rows hshows hl
  refine .bind (R := fun result u => (∃ scan : TableHeap.Scan, result = .ok ⟨scan, ⟨h, catalogSchema⟩, none⟩ ∧
    scan.Reads u.database [] views (chains h) (Duck.rows views (chains h) 0)) ∧ u = { s with database := u.database } ∧
      s.database.Steady u.database) ?_ ?_ ?_
  · refine .on <| (TableHeap.Scan.scan_unpinned hshows hon hc hl (ht.valid h hh)).bind ?_ ?_
    · rintro _ u ⟨hst, scan, hr, hreads⟩
      obtain rfl := Except.ok.inj hr
      exact .pure ⟨⟨_, rfl, hreads⟩, rfl, hst⟩
    · rintro e u ⟨-, _, hr, -⟩
      cases hr
  · rintro _ u ⟨⟨scan, hr, hreads⟩, hu, hst⟩
    obtain rfl := Except.ok.inj hr
    have hrows : ∀ row ∈ Duck.rows views (chains h) 0, ∃ name entry, Describes row name entry ∧ target name = some entry :=
      fun row hr => hm.rows _ _ <| hmem.mp hr
    refine (loadTables_ends rfl rfl hreads (hst.online hon) hrows (fun name entry hl => ?_) fun name entry he => .inr ?_).bind ?_ ?_
    · rw [Finmap.lookup_empty] at hl
      cases hl
    · obtain ⟨bytes, hb, hd⟩ := hm.tables name entry he
      exact ⟨_, hmem.mpr hb, hd⟩
    · rintro _ w ⟨⟨tables, hr, htables⟩, hw, hws, hst'⟩
      obtain rfl := Except.ok.inj hr
      exact .pure ⟨⟨_, rfl, htables⟩, by rw [hw, hu], ⟨⟨views, hws, ht⟩, (hst.trans hst').online hon, hroom⟩,
        hst.trans hst'⟩
    · rintro e w ⟨⟨_, hr, -⟩, -⟩
      cases hr
  · rintro e u ⟨⟨_, hr, -⟩, -⟩
    cases hr

-- The catalog that the constructors leave.
structure Opened (pool : PoolManager) (heaps : List TableHeap) (chains : TableHeap → List PageID) (maps : TableMaps)
    (target : Name → Option TableEntry)
    (c : Catalog) : Prop where
  table    : c.catalogTable = ⟨⟨kCatalogFirstPageID⟩, catalogSchema⟩
  tables   : ∀ name, c.tables.lookup name = target name
  database : c.database = { (.init ⟨pool, false⟩ : Database) with database := c.pager }
  holds    : HeapPool.Holds ⟨heaps, [], c.pager⟩ chains maps

theorem construct_poolCapacity : construct.Preserves (·.database.pool.poolCapacity) := by
  refine (onHeap_poolCapacity ?_).bind fun table => (onHeap_poolCapacity table.scan_poolCapacity).bind fun scan =>
    Preserves.bind ?_ fun _ => .pure _
  · refine .read_bind fun capacity => ?_
    split
    · exact TableHeap.create_poolCapacity.bind fun _ => .pure _
    · exact .pure _
  · refine .loop (fun turn => (Table.Scan.next_poolCapacity _).bind ?_) _
    rintro ⟨_ | ⟨rid, tuple⟩, scan⟩
    · exact (onHeap_poolCapacity scan.heapScan.close_poolCapacity).bind fun _ => .pure _
    · exact (Preserves.ofExcept _).bind fun _ => .pure _

theorem onPool_poolCapacity {c : Catalog} (h : onPool pool = some (.ok c)) : c.pager.pool.poolCapacity = pool.poolCapacity := by
  obtain ⟨⟨result, database⟩, hx, hr⟩ := Option.map_eq_some_iff.mp h
  obtain ⟨⟨table, tables⟩, rfl, rfl⟩ := Except.map_eq_ok.mp hr
  exact construct_poolCapacity _ _ _ hx

-- A file that has a catalog.
theorem onPool_loads (hs : HeapPool.Holds ⟨heaps, [], ⟨pool, false⟩⟩ chains maps) (hh : ⟨kCatalogFirstPageID⟩ ∈ heaps)
    (hc : 0 < pool.poolCapacity) (hm : Lists (maps ⟨kCatalogFirstPageID⟩) target) :
    ∃ c, onPool pool = some (.ok c) ∧ Opened pool heaps chains maps target c := by
  have hp : kCatalogFirstPageID < pool.disk.capacity := by
    obtain ⟨⟨views, ⟨owned, hk, ho⟩, ht⟩, -, -⟩ := hs
    obtain ⟨v, hv⟩ := (ht.linked _ hh).view <| (ht.linked _ hh).first_mem (ht.valid _ hh)
    exact (hk.accounts.inUse (ho _ v hv)).lt
  have hinit : onHeap initTable (.init ⟨pool, false⟩) =
      some (.ok ⟨⟨kCatalogFirstPageID⟩, catalogSchema⟩, .init ⟨pool, false⟩) := by
    refine onHeap_apply ?_
    simp only [initTable, Program.read_bind, TransactionManager.init, UInt32.not_le.mpr hp, if_false]
    rfl
  obtain ⟨_, t, hx, ⟨tables, rfl, ht⟩, he, hu, -⟩ := load_ends (s := .init ⟨pool, false⟩) hs hh hc hm
  refine ⟨⟨⟨⟨kCatalogFirstPageID⟩, catalogSchema⟩, tables, t⟩, ?_, rfl, ht, he, hu⟩
  rw [onPool, construct, Program.bind_eq hinit, hx]
  rfl

theorem Lists.none : Lists .empty fun _ => none where
  rows _ _ h   := by cases h
  tables _ _ h := by cases h

-- A new file, in which the catalog has the first page.
theorem onPool_creates (hs : HeapPool.Holds ⟨[], [], ⟨pool, false⟩⟩ chains fun _ => .empty) (hr : Pager.Ready ⟨pool, false⟩)
    (hc : 0 < pool.poolCapacity) (hp : pool.disk.capacity = kCatalogFirstPageID) (hf : pool.disk.freeList = []) :
    ∃ c chains, onPool pool = some (.ok c) ∧ Opened pool [⟨kCatalogFirstPageID⟩] chains (fun _ => .empty) (fun _ => none) c ∧
      (Pager.allocated ⟨pool, false⟩).Steady c.pager := by
  have hid : pool.disk.allocatePage.1 = kCatalogFirstPageID := by
    rw [DiskManager.allocatePage, hf]
    exact hp
  obtain ⟨result, p, hx, hst, hcreate⟩ := hs.create hr
  have hcap : 0 < p.pool.poolCapacity := Nat.lt_of_lt_of_eq hc (TableHeap.create_poolCapacity _ _ _ hx).symm
  obtain ⟨⟨_⟩, rfl, -, rfl, chains', -, hu⟩ | ⟨e, -, hd, -⟩ := hcreate
  · have hinit : onHeap initTable (.init ⟨pool, false⟩) =
        some (.ok ⟨⟨kCatalogFirstPageID⟩, catalogSchema⟩, { (.init ⟨pool, false⟩ : Database) with database := p }) := by
      refine onHeap_apply ?_
      have hle : pool.disk.capacity ≤ kCatalogFirstPageID := UInt32.le_of_eq hp
      simp only [initTable, Program.read_bind, TransactionManager.init, hle, if_true]
      rw [Program.bind_eq hx, hid]
      rfl
    rw [hid, Function.update_eq_self_iff.mpr rfl] at hu
    obtain ⟨_, t, hx', ⟨tables, rfl, ht⟩, he, hu, hst'⟩ :=
      load_ends (s := { (.init ⟨pool, false⟩ : Database) with database := p }) hu List.mem_cons_self hcap .none
    refine ⟨⟨⟨⟨kCatalogFirstPageID⟩, catalogSchema⟩, tables, t⟩, chains', ?_, ⟨rfl, ht, he, hu⟩, hst.trans hst'⟩
    rw [onPool, construct, Program.bind_eq hinit, hx']
    rfl
  · exact absurd hcap (Nat.not_lt.mpr hd.crowded)

-- On a new file the catalog has the first page, and every frame is there.
theorem opened_new {file : File} (hf : file.failing = false) (hs : file.size < kPageSize) (hn : 0 < n) :
    ∃ c chains, opened file n = some (.ok c) ∧
      Opened (.create (.fresh file) n) [⟨kCatalogFirstPageID⟩] chains (fun _ => .empty) (fun _ => none) c ∧
      c.pager.pool.poolCapacity = n ∧ c.pager.pool.disk.capacity = 2 ∧ c.pager.pool.disk.freeList = [] := by
  let pool : PoolManager := .create (.fresh file) n
  have hon : Pager.Online ⟨pool, false⟩ := DiskManager.Online.fresh hf
  have hp : HeapPool.Holds ⟨[], [], ⟨pool, false⟩⟩ (fun _ => []) fun _ => .empty :=
    .init ⟨rfl, rfl, (by decide : 0 + 1 < 4294967296), ⟨_, .create DiskManager.fresh_wellFormed⟩, hon⟩
  obtain ⟨c, chains, hc, ho, hst⟩ := onPool_creates hp ⟨hon, fun _ => (by decide : (1 : PageID) < invalidPageID)⟩ hn rfl rfl
  refine ⟨c, chains, ?_, ho, onPool_poolCapacity hc, hst.capacity, hst.freeList⟩
  rw [opened, DiskManager.openFile_fresh hs]
  exact hc

end Catalog
end Duck
