import Duck.Catalog.Theorems.Tuples
import Duck.Query.Theorems.QueryEngine

namespace Duck

open Binder

-- The records are those of a table with these tuples, each once.
def Table.Records (table : Table) (m : HeapMap) (records : List Record) : Prop :=
  ∃ tuples : List (RID × List UInt8), (∀ rid bytes, (rid, bytes) ∈ tuples ↔ m rid = some bytes) ∧ (tuples.map Prod.fst).Nodup ∧
    tuples.map (fun row => table.record row.2) = records.map .ok

theorem map_eq_map_ok {f : α → Except ε β} {as : List α} (h : ∀ a ∈ as, ∃ b, f a = .ok b) :
    as.map f = (as.filterMap fun a => (f a).toOption).map .ok := by
  induction as
  case nil          => rfl
  case cons a as ih =>
    obtain ⟨b, hb⟩ := h a List.mem_cons_self
    rw [List.map_cons, List.filterMap_cons_some (b := b) (by rw [hb]; rfl), List.map_cons, hb,
      ih fun a ha => h a (List.mem_cons_of_mem _ ha)]

-- What a scan of the pages gives, tuples that cannot be read apart.
def Table.recordsOn (table : Table) (views : Views) (ps : List PageID) : List Record :=
  (rows views ps 0).filterMap fun row => (table.record row.2).toOption

namespace OpenDatabase

variable {s t : OpenDatabase} {u : DatabaseMap} {query : SelectQuery} {tables : List Table}

-- What the catalog answers to a query without a transaction.
abbrev getTable (s : OpenDatabase) (name : Name) : Except String (Option Table) :=
  .ok (s.catalog.getTable name)

-- The query is one for these tables. It needs a pin for each of them.
structure Asks (s : OpenDatabase) (query : SelectQuery) (tables : List Table) : Prop where
  binds : ∃ plan, bind s.getTable query = .ok plan
  names : List.Forall₂ (fun ref table => s.getTable ref.name = .ok (some table)) query.tableRefs tables
  sound : ∀ table ∈ tables, table.Sound
  room  : s.pins.length + (tables.length + 1) < 4294967296

-- The query gives these records and no others, whatever its LIMIT is, until a page is refused.
def Replies (s : OpenDatabase) (query : SelectQuery) (all : List Record) : Prop :=
  ∀ limit, (QueryEngine.execute s.getTable { query with limit := limit } none).Ends s.catalog.database fun result d =>
    d.lost none = true ∨ ∃ p, result = .ok p ∧ Executor.Gives id none ((limit.elim all all.take).map .ok) p d

namespace Represents

variable {heaps : List TableHeap} {chains : TableHeap → List PageID} {maps : TableMaps} {views : Views}

-- A table of the query is one of the map.
theorem asked (hs : s.Represents heaps chains maps u) (hu : u.Encodes) (ha : s.Asks query tables) (hm : table ∈ tables) :
    table.heap ∈ heaps ∧ table.Readable (maps table.heap) := by
  have hc := ha.sound table hm
  obtain ⟨i, hi, rfl⟩ := List.mem_iff_getElem.mp hm
  have hlen := ha.names.length_eq
  have ht := ha.names.get (hlen ▸ hi) hi
  obtain ⟨entry, m, he, heq⟩ := hs.lookup_getTable (Except.ok.inj ht)
  obtain ⟨hin, -, hmap, -⟩ := hs.tables _ _ _ he
  rw [List.get_eq_getElem] at heq
  have hr := hs.readable hu he (heq ▸ hc)
  rw [heq] at hin hmap hr
  exact ⟨hin, hmap ▸ hr⟩

-- The tuples of a table are in some order, in which every query finds them.
theorem replies (hs : s.Represents heaps chains maps u) (hu : u.Encodes) : ∃ contents : Table → List Record,
    (∀ name entry m, u.tables name = some (entry, m) → entry.table.Sound → entry.table.Records m (contents entry.table)) ∧
      ∀ query tables, s.Asks query tables → query.Defined (query.scope tables) (tables.map contents) →
        ∃ all, query.Answers (query.scope tables) (tables.map contents) all ∧ s.Replies query all := by
  obtain ⟨⟨views, hshows, ht⟩, -, -⟩ := id hs.pool
  have hrows {h} (hh : h ∈ heaps) : h.Lists s.pager (Duck.rows views (chains h) 0) :=
    TableHeap.rows_lists hshows (ht.linked h hh) (ht.valid h hh)
  have hmem {h rid bytes} (hh : h ∈ heaps) : (rid, bytes) ∈ Duck.rows views (chains h) 0 ↔ maps h rid = some bytes :=
    ((hrows hh).live rid bytes).trans (hs.pool.live_iff hh)
  have hread {table : Table} (hh : table.heap ∈ heaps) (hr : table.Readable (maps table.heap)) :
      (Duck.rows views (chains table.heap) 0).map (fun row => table.record row.2) =
        (table.recordsOn views (chains table.heap)).map .ok :=
    map_eq_map_ok fun row hm => hr row.1 row.2 <| (hmem hh).mp hm
  refine ⟨fun table => table.recordsOn views (chains table.heap), ?_, ?_⟩
  · intro name entry m he hc
    have hr := hs.readable hu he hc
    obtain ⟨hh, -, rfl, -⟩ := hs.tables _ _ _ he
    exact ⟨_, fun _ _ => hmem hh, (hrows hh).once, hread hh hr⟩
  · intro query tables ha hd
    obtain ⟨plan, hp⟩ := ha.binds
    obtain ⟨q, hr, hp⟩ := bind_eq_ok.mp hp
    obtain rfl := hr.tables_eq ha.names
    have hc : Contains views (Duck.readable fun table => table.recordsOn views (chains table.heap)) q.tables := by
      intro table hm
      obtain ⟨hh, hr⟩ := hs.asked hu ha hm
      exact ⟨chains table.heap, ⟨ht.linked _ hh, ht.valid _ hh⟩, hread hh hr⟩
    have hview : Undisturbed id none views := ⟨fun _ _ _ => rfl, id⟩
    obtain ⟨all, hall, he⟩ := QueryEngine.resolved_gives hview hr hp hc hd
    exact ⟨all, hall, fun limit => he limit _ ⟨⟨s.pins, hshows, ha.room⟩, fun _ h => by cases h⟩⟩

end Represents

-- What a query gives is what it means of the tuples that the run has left, whichever pages were refused in it.
theorem answers_queries (h₀ : Initial s) (hs : Runs.Steps Step s events t) (ht : ∀ event ∈ events, event.Typed) :
    ∃ u, Runs.Steps Spec .empty events u ∧ t.Agrees u ∧ ∃ contents : Table → List Record,
      (∀ name entry m, u.tables name = some (entry, m) → entry.table.Sound → entry.table.Records m (contents entry.table)) ∧
        ∀ query tables, t.Asks query tables → query.Defined (query.scope tables) (tables.map contents) →
          ∃ all, query.Answers (query.scope tables) (tables.map contents) all ∧ t.Replies query all := by
  obtain ⟨u, hspec, _, _, _, hu⟩ := holds h₀ hs
  exact ⟨u, hspec, hu.agrees, hu.replies (encodes hspec ht)⟩

section brief

-- All of the table.
def briefQuery : SelectQuery where
  columns   := none
  table     := some ⟨[116], none⟩
  predicate := .null
  limit     := none
  joins     := []

-- The run leaves one record.
theorem answers_queries_brief_run : ∃ s t all, Initial s ∧ Runs.Steps Step s briefEvents t ∧
    briefQuery.Answers (briefQuery.scope [⟨⟨2⟩, briefSchema⟩]) [[⟨[.int64 7]⟩]] all ∧ t.Replies briefQuery all := by
  obtain ⟨s, t, h₀, hs, hpins⟩ := brief_steps
  have ht : ∀ event ∈ briefEvents, event.Typed := by
    have hr : briefTuple.Typed := ⟨.cons rfl .nil⟩
    simp [Event.Typed, Table.Op.Typed, hr]
  obtain ⟨u, hspec, hu, contents, hcontents, hanswers⟩ := answers_queries h₀ hs ht
  obtain ⟨rid, he⟩ := brief_tables hspec
  have hget : t.catalog.getTable [116] = some ⟨⟨2⟩, briefSchema⟩ := by
    rw [Catalog.getTable, hu.lookup, he]
    rfl
  have hplan : bind t.getTable briefQuery = .ok (.scan ⟨⟨2⟩, briefSchema⟩) := by
    simp only [Binder.bind, briefQuery, getTable, hget]
    rfl
  have ha : t.Asks briefQuery [⟨⟨2⟩, briefSchema⟩] := by
    refine ⟨⟨_, hplan⟩, .cons (congrArg _ hget) .nil, ?_, ?_⟩
    · simp [Table.Sound, briefSchema, Tuple.EmptyChar]
    · simp [hpins]
  have hd : briefQuery.Defined (briefQuery.scope [⟨⟨2⟩, briefSchema⟩]) ([⟨⟨2⟩, briefSchema⟩].map contents) :=
    ⟨fun k clause hk => (by cases hk), .inl rfl⟩
  obtain ⟨all, hall, hr⟩ := hanswers _ _ ha hd
  have hone : contents ⟨⟨2⟩, briefSchema⟩ = [⟨[.int64 7]⟩] := by
    obtain ⟨tuples, hmem, hnodup, hrecords⟩ := hcontents _ _ _ he (ha.sound _ List.mem_cons_self)
    have htuples : tuples = [(⟨2, 0⟩, briefBytes)] := by
      refine List.perm_singleton.mp <| (List.perm_ext_iff_of_nodup hnodup.of_map (List.nodup_singleton _)).mpr ?_
      rintro ⟨rid, bytes⟩
      rw [hmem, update_eq_some, List.mem_singleton, Prod.mk.injEq]
      simp [HeapMap.empty, eq_comm]
    have hr : Table.record ⟨⟨2⟩, briefSchema⟩ briefBytes = .ok ⟨[.int64 7]⟩ := by decide
    rw [htuples, List.map_singleton, hr] at hrecords
    obtain ⟨_, _, hcontents, hok, hnil⟩ := List.map_eq_cons_iff.mp hrecords.symm
    rw [hcontents, Except.ok.inj hok, List.map_eq_nil_iff.mp hnil]
  rw [List.map_singleton, hone] at hall
  exact ⟨s, t, all, h₀, hs, hall, hr⟩

end brief

end OpenDatabase
end Duck
