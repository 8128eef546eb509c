import Duck.Table.Theorems.Coverage
import Duck.Table.Theorems.Frames
import Duck.Table.Theorems.HeapPool

namespace Duck.Table

open Program Database Pager

-- The calls on a table without a transaction.
inductive Op
  | insert (tuple : Tuple)
  | update (rid : RID) (tuple : Tuple)
  | delete (rid : RID)
  | get (rid : RID)

inductive Reply
  | rid (rid : Option RID)
  | deleted (deleted : Bool)
  | tuple (tuple : Option Tuple)

def Op.run (t : Table) : Op → DatabaseM Reply
  | insert tuple     => .rid <$> t.insertTuple id tuple none
  | update rid tuple => .rid <$> t.updateTuple id rid tuple none
  | delete rid       => .deleted <$> t.deleteTuple id rid none
  | get rid          => .tuple <$> t.getTuple id rid none

-- The RIDs are on pages of the table. Only a call that may make a page needs an id for it.
def Op.Admitted (t : Table) (s : Pager) : Op → Prop
  | insert _         => s.Ready
  | update rid tuple => s.Ready ∧ t.heap.Has s rid.pageId ∧ ∀ bytes, tuple.serialize = .ok bytes → bytes.length < 65536
  | delete rid       => t.heap.Has s rid.pageId
  | get rid          => t.heap.Has s rid.pageId

-- What is read under an RID: an empty tuple counts as none.
def found (m : HeapMap) (rid : RID) : Option (List UInt8) :=
  (m rid).filter (· ≠ [])

-- What a call may do to the map of the table. A call that is refused, or that finds nothing, changes nothing.
inductive Outcome (t : Table) (m : HeapMap) : Bool → Op → Except String Reply → HeapMap → Prop
  | insertMismatch : (t.schema.compatibleWith tuple.schema = false) →
    Outcome t m true (.insert tuple) (.error "Table::insert_tuple: schemas not compatible") m
  | insertNoBytes  : (t.schema.compatibleWith tuple.schema = true) → (tuple.serialize = .error e) →
    Outcome t m true (.insert tuple) (.error e) m
  | inserted       : (t.schema.compatibleWith tuple.schema = true) → (tuple.serialize = .ok bytes) →
    (m.Outcome granted (.insert bytes) (.rid <$> result) m') → Outcome t m granted (.insert tuple) (.rid <$> result) m'
  | updateMismatch : (t.schema.compatibleWith tuple.schema = false) →
    Outcome t m true (.update rid tuple) (.error "Table::update_tuple: schemas not compatible") m
  | noUpdate       : (t.schema.compatibleWith tuple.schema = true) → (granted = false ∨ found m rid = none) →
    Outcome t m granted (.update rid tuple) (.ok (.rid none)) m
  | updateNoBytes  : (t.schema.compatibleWith tuple.schema = true) → (found m rid ≠ none) → (tuple.serialize = .error e) →
    Outcome t m true (.update rid tuple) (.error e) m
  | updated        : (t.schema.compatibleWith tuple.schema = true) → (found m rid ≠ none) → (tuple.serialize = .ok bytes) →
    (m.Outcome granted (.update rid bytes) (.rid <$> result) m') → Outcome t m granted (.update rid tuple) (.rid <$> result) m'
  | noDelete       : (granted = false ∨ found m rid = none) → Outcome t m granted (.delete rid) (.ok (.deleted false)) m
  | deleted        : (found m rid ≠ none) → (m.Outcome granted (.delete rid) (.deleted <$> result) m') →
    Outcome t m granted (.delete rid) (.deleted <$> result) m'
  | noGet          : (granted = false ∨ found m rid = none) → Outcome t m granted (.get rid) (.ok (.tuple none)) m
  | got            : (found m rid = some bytes) → (∀ s, t.decode bytes s = some (result, s)) →
    Outcome t m true (.get rid) ((.tuple <| some ·) <$> result) m

section eq

variable {t : Table} {tuple : Tuple} {rid : RID}

theorem insertTuple_none (hc : t.schema.compatibleWith tuple.schema = true) (hb : tuple.serialize = .ok bytes) :
    t.insertTuple id tuple none = onHeap (t.heap.insertTuple bytes) := by
  rw [insertTuple, hc, hb, ←bind_pure (onHeap (t.heap.insertTuple bytes))]
  refine (show _ = onHeap (t.heap.insertTuple bytes) >>= _ from rfl).trans <| bind_congr fun rid => ?_
  cases rid <;> rfl

theorem getTuple_none : t.getTuple id rid none = (do
    match ← onHeap (t.heap.getTuple rid) with
    | none       => return none
    | some bytes => return some (← t.decode bytes)) :=
  rfl

theorem deleteTuple_none : t.deleteTuple id rid none = (do
    match ← onHeap (t.heap.getTuple rid) with
    | none   => return false
    | some _ => onHeap (t.heap.deleteTuple rid)) := by
  refine (show _ = onHeap (t.heap.getTuple rid) >>= _ from rfl).trans <| bind_congr fun bytes => ?_
  cases bytes
  case none => rfl
  case some =>
    refine Eq.trans ?_ (bind_pure (onHeap (t.heap.deleteTuple rid)))
    refine bind_congr fun deleted => ?_
    cases deleted <;> rfl

theorem updateTuple_none (hc : t.schema.compatibleWith tuple.schema = true) : t.updateTuple id rid tuple none = (do
    match ← onHeap (t.heap.getTuple rid) with
    | none   => return none
    | some _ => onHeap (t.heap.updateTuple rid (← .ofExcept tuple.serialize))) := by
  rw [updateTuple, hc]
  refine (show _ = onHeap (t.heap.getTuple rid) >>= _ from rfl).trans <| bind_congr fun bytes => ?_
  cases bytes
  case none => rfl
  case some =>
    refine bind_congr fun bytes => ?_
    refine Eq.trans ?_ (bind_pure (onHeap (t.heap.updateTuple rid bytes)))
    refine bind_congr fun rid' => ?_
    cases rid'
    case none      => rfl
    case some rid' =>
      by_cases hr : rid' = rid
      case pos => simp [hr, pushUndo]
      case neg =>
        simp [hr, pushUndo, lockExclusive]

end eq

variable {t : Table} {heaps : List TableHeap} {pins : List Pin} {chains : TableHeap → List PageID} {s : Database}
  {maps : TableMaps} {rid : RID} {op : Op}

-- What a call that has found nothing, or was refused the page, leaves.
theorem getTuple_ends (hs : HeapPool.Holds ⟨heaps, pins, s.database⟩ chains maps) (hh : t.heap ∈ heaps)
    (hp : t.heap.Has s.database rid.pageId) : (onHeap (t.heap.getTuple rid)).Ends s fun result u =>
      u = { s with database := u.database } ∧
        ((result = .ok (found (maps t.heap) rid) ∧ HeapPool.Holds ⟨heaps, pins, u.database⟩ chains maps ∧
          s.database.Steady u.database ∧
          t.heap.Has u.database rid.pageId) ∨
          result = .ok none ∧ u.database.Refused pins.length ∧ HeapPool.Holds ⟨heaps, pins, u.database.forgiven⟩ chains maps) := by
  obtain ⟨⟨views, hshows, ht⟩, hon, hroom⟩ := id hs
  have hl := ht.linked _ hh
  have hm := hl.mem_of_has hshows (ht.valid _ hh) hp
  obtain ⟨v, hv⟩ := hl.view hm
  refine .on <| (TableHeap.getTuple_online hshows hon hv (hs.room_on _)).mono ?_
  rintro result p ⟨hst, ⟨rfl, hu⟩ | ⟨rfl, hd, hu⟩⟩
  · refine ⟨rfl, .inl ⟨?_, ⟨⟨views, hu, ht⟩, hst.online hon, hroom⟩, hst, hl.has hu (fun _ => .first) hm⟩⟩
    rw [found, ht.maps_eq hh hm hv]
  · exact ⟨rfl, .inr ⟨rfl, hd, ⟨views, hu, ht⟩, hst.online hon, hroom⟩⟩

-- The outcome of a call, which leaves the locks and the transactions alone.
def Ended (t : Table) (heaps : List TableHeap) (pins : List Pin) (chains : TableHeap → List PageID) (maps : TableMaps)
    (s : Database) (op : Op)
    (result : Except String Reply) (u : Database) : Prop :=
  (∃ m, t.Outcome (maps t.heap) (!u.database.denied) op result m ∧ HeapPool.Grants ⟨heaps, pins, s.database⟩ u.database ∧
    HeapPool.Becomes ⟨heaps, pins, s.database⟩ chains ⟨heaps, pins, u.database.forgiven⟩ (Function.update maps t.heap m)) ∧
      u = { s with database := u.database }

theorem Ended.unchanged {u : Database} (ho : t.Outcome (maps t.heap) (!u.database.denied) op result (maps t.heap))
    (hg : HeapPool.Grants ⟨heaps, pins, s.database⟩ u.database)
    (hu : HeapPool.Holds ⟨heaps, pins, u.database.forgiven⟩ chains maps) (he : u = { s with database := u.database }) :
    t.Ended heaps pins chains maps s op result u :=
  ⟨⟨_, ho, hg, HeapPool.Holds.becomes <| by rwa [Function.update_eq_self]⟩, he⟩

theorem Ended.granted {u : Database} (ho : t.Outcome (maps t.heap) true op result (maps t.heap))
    (hu : HeapPool.Holds ⟨heaps, pins, u.database⟩ chains maps) (he : u = { s with database := u.database }) :
    t.Ended heaps pins chains maps s op result u := by
  have hd : u.database.denied = false := hu.granted
  exact .unchanged (by rwa [hd]) (.of_granted hd) (hu.forgiven.symm ▸ hu) he

theorem getTuple_ended (hs : HeapPool.Holds ⟨heaps, pins, s.database⟩ chains maps) (hh : t.heap ∈ heaps)
    (ha : (Op.get rid).Admitted t s.database) : ((Op.get rid).run t).Ends s <| t.Ended heaps pins chains maps s (.get rid) := by
  refine .map ?_
  rw [getTuple_none]
  refine (getTuple_ends hs hh ha).bind ?_ ?_
  · rintro _ u ⟨he, ⟨hb, hu, -, -⟩ | ⟨hb, hd, hu⟩⟩
    · obtain rfl := Except.ok.inj hb
      cases hf : found (maps t.heap) rid
      case none       => exact .pure <| .granted (.noGet <| .inr hf) hu he
      case some bytes =>
        obtain ⟨decoded, hx⟩ : ∃ decoded, ∀ s, t.decode bytes s = some (decoded, s) := ⟨_, fun _ => rfl⟩
        refine .bind (R := fun result v => result = decoded ∧ v = u) ⟨_, _, hx u, rfl, rfl⟩ ?_ ?_
        · rintro tuple _ ⟨rfl, rfl⟩
          exact .pure <| .granted (.got hf hx) hu he
        · rintro e _ ⟨rfl, rfl⟩
          exact .granted (.got hf hx) hu he
    · obtain rfl := Except.ok.inj hb
      exact .pure <| .unchanged (.noGet <| .inl <| by rw [hd.denied]; rfl) (.of_refused hd) hu he
  · rintro e u ⟨-, ⟨hb, -⟩ | ⟨hb, -⟩⟩ <;> cases hb

theorem deleteTuple_ended (hs : HeapPool.Holds ⟨heaps, pins, s.database⟩ chains maps) (hh : t.heap ∈ heaps)
    (ha : (Op.delete rid).Admitted t s.database) : ((Op.delete rid).run t).Ends s <| t.Ended heaps pins chains maps s (.delete rid) := by
  refine .map ?_
  rw [deleteTuple_none]
  refine (getTuple_ends hs hh ha).bind ?_ ?_
  · rintro _ u ⟨he, ⟨hb, hu, -, hp⟩ | ⟨hb, hd, hu⟩⟩
    · obtain rfl := Except.ok.inj hb
      cases hf : found (maps t.heap) rid
      case none       => exact .pure <| .granted (.noDelete <| .inr hf) hu he
      case some bytes =>
        refine .on <| (hu.deleteTuple ⟨hh, hp⟩).of_map.mono ?_
        rintro result p ⟨m, ho, hg, hp⟩
        exact ⟨⟨m, .deleted (by simp [hf]) ho, hg, hp⟩, by rw [he]⟩
    · obtain rfl := Except.ok.inj hb
      exact .pure <| .unchanged (.noDelete <| .inl <| by rw [hd.denied]; rfl) (.of_refused hd) hu he
  · rintro e u ⟨-, ⟨hb, -⟩ | ⟨hb, -⟩⟩ <;> cases hb

theorem insertTuple_ended {tuple : Tuple} (hs : HeapPool.Holds ⟨heaps, pins, s.database⟩ chains maps) (hh : t.heap ∈ heaps)
    (ha : (Op.insert tuple).Admitted t s.database) : ((Op.insert tuple).run t).Ends s <|
      t.Ended heaps pins chains maps s (.insert tuple) := by
  refine .map ?_
  cases hc : t.schema.compatibleWith tuple.schema
  case false =>
    rw [insertTuple, hc]
    exact .throw <| .granted (.insertMismatch hc) hs rfl
  case true  =>
    rcases hb : tuple.serialize with e | bytes
    · rw [insertTuple, hc, hb]
      exact .throw <| .granted (.insertNoBytes hc hb) hs rfl
    · rw [insertTuple_none hc hb]
      refine .on <| (hs.insertTuple ⟨hh, ha⟩).of_map.mono ?_
      rintro result p ⟨m, ho, hg, hp⟩
      exact ⟨⟨m, .inserted hc hb ho, hg, hp⟩, rfl⟩

theorem updateTuple_ended {tuple : Tuple} (hs : HeapPool.Holds ⟨heaps, pins, s.database⟩ chains maps) (hh : t.heap ∈ heaps)
    (ha : (Op.update rid tuple).Admitted t s.database) :
    ((Op.update rid tuple).run t).Ends s <| t.Ended heaps pins chains maps s (.update rid tuple) := by
  obtain ⟨hr, hp, hlen⟩ := ha
  refine .map ?_
  cases hc : t.schema.compatibleWith tuple.schema
  case false =>
    rw [updateTuple, hc]
    exact .throw <| .granted (.updateMismatch hc) hs rfl
  case true  =>
    rw [updateTuple_none hc]
    refine (getTuple_ends hs hh hp).bind ?_ ?_
    · rintro _ u ⟨he, ⟨hb, hu, hst, hp⟩ | ⟨hb, hd, hu⟩⟩
      · obtain rfl := Except.ok.inj hb
        cases hf : found (maps t.heap) rid
        case none     => exact .pure <| .granted (.noUpdate hc <| .inr hf) hu he
        case some old =>
          have hne : found (maps t.heap) rid ≠ none := by simp [hf]
          rcases hb : tuple.serialize with e | bytes
          · exact .throw <| .granted (.updateNoBytes hc hne hb) hu he
          · change Ends (onHeap (t.heap.updateTuple rid bytes)) u _
            refine .on <| (hu.updateTuple ⟨hh, hst.ready hr, hp, hlen bytes hb⟩).of_map.mono ?_
            rintro result p ⟨m, ho, hg, hp⟩
            exact ⟨⟨m, .updated hc hne hb ho, hg, hp⟩, by rw [he]⟩
      · obtain rfl := Except.ok.inj hb
        exact .pure <| .unchanged (.noUpdate hc <| .inl <| by rw [hd.denied]; rfl) (.of_refused hd) hu he
    · rintro e u ⟨-, ⟨hb, -⟩ | ⟨hb, -⟩⟩ <;> cases hb

theorem Op.ended (hs : HeapPool.Holds ⟨heaps, pins, s.database⟩ chains maps) (hh : t.heap ∈ heaps) (ha : op.Admitted t s.database) :
    (op.run t).Ends s <| t.Ended heaps pins chains maps s op := by
  cases op
  case insert => exact insertTuple_ended hs hh ha
  case update => exact updateTuple_ended hs hh ha
  case delete => exact deleteTuple_ended hs hh ha
  case get    => exact getTuple_ended hs hh ha

theorem Op.run_poolCapacity : (op.run t).Preserves (·.database.pool.poolCapacity) := by
  cases op
  case insert => exact insertTuple_poolCapacity.map
  case update => exact updateTuple_poolCapacity.map
  case delete => exact deleteTuple_poolCapacity.map
  case get    => exact getTuple_poolCapacity.map

section cases

variable {m m' : HeapMap} {granted : Bool} {tuple : Tuple} {bytes : List UInt8}

theorem Outcome.insert_cases {r : Except String (Option RID)} (h : t.Outcome m granted (.insert tuple) (.rid <$> r) m')
    (hc : t.schema.compatibleWith tuple.schema = true) :
    (∃ bytes rid, tuple.serialize = .ok bytes ∧ bytes.length ≤ 8180 ∧ granted = true ∧ r = .ok (some rid) ∧ m rid = none ∧
        m' = Function.update m rid (some bytes)) ∨
      (granted = false ∨ ∀ bytes, tuple.serialize = .ok bytes → 8180 < bytes.length) ∧ (∀ rid, r ≠ .ok (some rid)) ∧
        m' = m := by
  generalize hr : Reply.rid <$> r = reply at h
  cases h
  case insertMismatch hm    => cases hm.symm.trans hc
  case insertNoBytes e _ hb =>
    refine .inr ⟨.inr fun bytes hx => (by cases hb.symm.trans hx), ?_, rfl⟩
    rintro rid rfl
    cases hr
  case inserted bytes result _ hb ho =>
    obtain rfl : r = result := by
      cases r <;> cases result <;> cases hr <;> rfl
    generalize hr' : HeapResult.rid <$> r = result at ho
    cases ho
    case inserted rid hf hl =>
      obtain ⟨_, rfl, hr'⟩ := Except.map_eq_ok.mp hr'
      cases hr'
      exact .inl ⟨bytes, _, hb, hl, rfl, rfl, hf, rfl⟩
    case noInsert hg hn  =>
      refine .inr ⟨hg.imp_right fun hl bytes' hb' => ?_, ?_, rfl⟩
      · obtain rfl := Except.ok.inj <| hb.symm.trans hb'
        exact hl
      · rintro rid rfl
        exact hn rid hr'.symm

theorem Outcome.delete_cases {r : Except String Bool} (h : t.Outcome m granted (.delete rid) (.deleted <$> r) m') :
    (r = .ok true ∧ granted = true ∧ found m rid ≠ none ∧ m' = Function.update m rid none) ∨
      r = .ok false ∧ (granted = false ∨ found m rid = none) ∧ m' = m := by
  generalize hr : Reply.deleted <$> r = reply at h
  cases h
  case noDelete hn          =>
    obtain ⟨_, rfl, hr⟩ := Except.map_eq_ok.mp hr
    cases hr
    exact .inr ⟨rfl, hn, rfl⟩
  case deleted result hf ho =>
    obtain rfl : r = result := by
      cases r <;> cases result <;> cases hr <;> rfl
    generalize hr' : HeapResult.deleted <$> r = result at ho
    cases ho
    case deleted  =>
      obtain ⟨_, rfl, hr'⟩ := Except.map_eq_ok.mp hr'
      have hb : (m rid).isSome := by
        by_contra hb
        exact hf <| by rw [found, Option.not_isSome_iff_eq_none.mp hb, Option.filter_none]
      cases hr'
      exact .inl ⟨by rw [hb], rfl, hf, rfl⟩
    case noDelete =>
      obtain ⟨_, rfl, hr'⟩ := Except.map_eq_ok.mp hr'
      cases hr'
      exact .inr ⟨rfl, .inl rfl, rfl⟩

end cases

end Duck.Table
