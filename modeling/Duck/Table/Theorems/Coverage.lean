import Duck.Table.Table
import Duck.Table.Theorems.TableHeap.Tables

namespace Duck

open Program TransactionManager

-- The calls of a transaction that change a table.
inductive Table.Call
  | insert (tuple : Tuple)
  | update (rid : RID) (tuple : Tuple)
  | delete (rid : RID)

def Table.Call.run (others : Database → Database) (t : Table) (tx : TransactionID) : Call → DatabaseM Unit
  | insert tuple     => discard <| t.insertTuple others tuple (some tx)
  | update rid tuple => discard <| t.updateTuple others rid tuple (some tx)
  | delete rid       => discard <| t.deleteTuple others rid (some tx)

-- The RIDs are on pages of the table.
def Table.Call.Admitted (t : Table) (s : Pager) : Call → Prop
  | insert _     => True
  | update rid _ => t.heap.Has s rid.pageId
  | delete rid   => t.heap.Has s rid.pageId

-- A tuple that is updated fits a page, and is granted the lock of its new RID when it moves.
def Table.Call.Careful (others : Database → Database) (t : Table) (tx : TransactionID) (s : Database) : Call → Prop
  | update rid tuple => ∀ {bytes old u v}, tuple.serialize = .ok bytes →
    Database.lockExclusive others (some tx) rid s = some (.ok true, u) →
    Database.onHeap (t.heap.getTuple rid) u = some (.ok (some old), v) →
    bytes.length ≤ 8180 ∧ ∀ {rid' w}, Database.onHeap (t.heap.updateTuple rid bytes) v = some (.ok (some rid'), w) →
      rid' ≠ rid → ∃ w', Database.lockExclusive others (some tx) rid' w = some (.ok true, w')
  | _                => True

-- What the other transactions do changes no page.
structure Quiet (others : Database → Database) (tx : TransactionID) : Prop where
  undoLog : ∀ s, (others s).undoLog tx = s.undoLog tx
  denied  : ∀ s, s.database.denied = true → (others s).database.denied = true
  shows   : ∀ {s : Database} {pins views}, s.database.Shows pins views → (others s).database.Shows pins views

-- The work of a transaction: calls that return or throw, and to which every page was granted.
inductive Works (careful : (Database → Database) → Table → TransactionID → Database → Table.Call → Prop)
    (heaps : List TableHeap) (tx : TransactionID) (s : Database) : Option Table.Call → Database → Prop
  | call {c : Table.Call} : (t.heap ∈ heaps) → (Quiet others tx) → (c.Admitted t s.database) → (careful others t tx s c) →
    (c.run others t tx s = some (result, s')) → (s'.database.denied = false) → Works careful heaps tx s (some c) s'
  | rest : (Quiet others tx) → Works careful heaps tx s none (others s)

-- Every record fits when its turn comes.
def UndoRecord.Along (fits : Pager → UndoRecord → Prop) : List UndoRecord → Pager → Prop
  | [],      _ => True
  | r :: rs, s => fits s r ∧ ∀ t, r.undo s = some (.ok (), t) → Along fits rs t

-- The heaps have the tuples of the maps.
def Pager.Contains (s : Pager) (heaps : List TableHeap) (pins : List Pin) (maps : TableMaps) : Prop :=
  Tracks heaps pins [] s maps

variable {others : Database → Database} {tx : TransactionID} {s t : Database} {heaps : List TableHeap} {pins : List Pin}
variable {maps maps₀ : TableMaps} {rid : RID}

namespace Database

-- What is kept while a transaction waits.
theorem lockExclusive_ends (hq : Quiet others tx) :
    (lockExclusive others (some tx) rid).Ends s fun result t => (∃ granted, result = .ok granted) ∧
      t.undoLog tx = s.undoLog tx ∧ (s.database.denied = true → t.database.denied = true) ∧
      ∀ {heaps pins log maps}, Tracks heaps pins log s.database maps → Tracks heaps pins log t.database maps := by
  refine .call ?_
  rcases hl : s.locks.lockExclusive tx rid with ⟨_ | granted, locks⟩
  · simp only [hl]
    refine ⟨⟨_, rfl⟩, hq.undoLog _, hq.denied { s with locks := locks }, ?_⟩
    rintro heaps pins log maps ⟨views, chains, hs, ht⟩
    exact ⟨views, chains, hq.shows (s := { s with locks := locks }) hs, ht⟩
  · simp only [hl]
    exact ⟨⟨_, rfl⟩, trivial, id, id⟩

theorem onHeap_ends {x : PagerM α} {Q : Except String α → Pager → Prop} (h : x.Ends s.database Q) :
    (onHeap x).Ends s fun result t => t.undoLog = s.undoLog ∧ Q result t.database :=
  .on <| h.mono fun h => ⟨rfl, h⟩

theorem onHeap_apply {x : PagerM α} (h : x s.database = some (result, p)) :
    onHeap x s = some (result, { s with database := p }) := by
  rw [onHeap, Program.on, h, Option.map_some]

theorem pushUndo_ends {Q : Except String Unit → Database → Prop}
    (h : ∀ {t : Database}, t.undoLog tx = s.undoLog tx ++ records → t.database = s.database → Q (.ok ()) t) :
    (pushUndo (some tx) records).Ends s Q :=
  .update <| h (Function.update_self ..) rfl

end Database

-- The log covers what has become of the maps.
def Covered (heaps : List TableHeap) (pins : List Pin) (maps₀ : TableMaps) (tx : TransactionID) (s : Database) : Prop :=
  ∃ maps, Tracks heaps pins (s.undoLog tx) s.database maps ∧ maps₀.Covered (s.undoLog tx) maps

theorem Tracks.covered (ht : Tracks heaps pins log s.database maps) (hc : maps₀.Covered (s.undoLog tx) maps)
    (hl : s.undoLog tx ⊆ log) : Covered heaps pins maps₀ tx s :=
  ⟨maps, ht.mono hl, hc⟩

namespace Table

open Database

variable {table : Table} {tuple : Tuple}

-- What is left of a call, unless it has been denied a page.
def Settled (heaps : List TableHeap) (pins : List Pin) (maps₀ : TableMaps) (tx : TransactionID) (t : Database) : Prop :=
  t.database.Unless <| Covered heaps pins maps₀ tx t

theorem Settled.congr (hs : Settled heaps pins maps₀ tx s) (hl : t.undoLog tx = s.undoLog tx) (hd : t.database = s.database) :
    Settled heaps pins maps₀ tx t := by
  rwa [Settled, Covered, hl, hd]

theorem insertTuple_settled (hq : Quiet others tx) (hh : table.heap ∈ heaps) (hc : Covered heaps pins maps₀ tx s) :
    (table.insertTuple others tuple (some tx)).Ends s fun _ => Settled heaps pins maps₀ tx := by
  have hs : Settled heaps pins maps₀ tx s := .inr hc
  obtain ⟨maps, ht, hc⟩ := hc
  rw [insertTuple]
  split
  case isTrue  => exact .throw hs
  case isFalse =>
    refine .bind (.ofExcept (Q := fun _ u => s = u) rfl) ?_ fun h => h ▸ hs
    rintro bytes _ rfl
    by_cases hb : bytes.length ≤ 8180
    case neg =>
      have hthrow : kPageSize - 8 - 4 < bytes.length := by
        rw [kPageSize_eq]
        omega
      rw [TableHeap.insertTuple, if_pos hthrow]
      refine .bind (onHeap_ends <| .throw (Q := fun result t => (∃ e, result = .error e) ∧ t = s.database) ⟨⟨_, rfl⟩, rfl⟩) ?_ ?_
      · rintro _ _ ⟨_, ⟨_, hx⟩, _⟩
        cases hx
      · rintro _ t ⟨hl, _, hd⟩
        exact hs.congr (congrFun hl tx) hd
    case pos =>
      refine .bind (onHeap_ends <| ht.insertTuple hh hb) ?_ ?_
      case refine_2 =>
        rintro _ t ⟨_, hd⟩
        refine .inl <| hd.resolve_right ?_
        rintro ⟨_, hr, _⟩
        cases hr
      rintro (_ | rid) t ⟨hl, ht⟩
      · refine .pure <| .inl <| ht.resolve_right ?_
        rintro ⟨_, hr, _⟩
        cases hr
      refine .bind (lockExclusive_ends hq) ?_ ?_
      case refine_2 =>
        rintro _ _ ⟨⟨_, hr⟩, _⟩
        cases hr
      rintro granted u ⟨_, hlu, hdu, hu⟩
      cases granted
      case true  =>
        refine .bind (pushUndo_ends (Q := fun _ => Settled heaps pins maps₀ tx) fun {v} hlv hv => ?_) (fun hv => .pure hv) id
        obtain hd | ⟨_, hr, hf, ht⟩ := ht
        · exact .inl <| hv ▸ hdu hd
        · obtain rfl := Option.some.inj <| Except.ok.inj hr
          have hv := hv ▸ hu (ht.slot hh TableMaps.set_self)
          refine .inr <| hv.covered ?_ ?_
          · rw [hlv, hlu, hl]
            exact hc.insert _ hf
          · rw [hlv, hlu, hl]
            intro r hr
            simp only [List.mem_append, List.mem_cons] at hr ⊢
            tauto
      case false =>
        have hends : (onHeap (table.heap.deleteTuple rid)).Ends u fun _ => Settled heaps pins maps₀ tx := by
          obtain hd | ⟨_, hr, hf, ht⟩ := ht
          · exact (onHeap_ends <| TableHeap.onPage_denied <| hdu hd).mono fun h => .inl h.2
          · obtain rfl := Option.some.inj <| Except.ok.inj hr
            have hv := hu (ht.slot hh TableMaps.set_self)
            refine (onHeap_ends <| hv.deleteTuple List.mem_cons_self).mono ?_
            rintro result v ⟨hlv, ⟨hd, _⟩ | ⟨_, hv⟩⟩
            · exact .inl hd
            · rw [TableMaps.set_set, TableMaps.set_eq_self hf] at hv
              refine .inr <| hv.covered ?_ ?_
              · rwa [hlv, hlu, hl]
              · rw [hlv, hlu, hl]
                exact fun r hr => List.mem_cons_of_mem _ <| List.mem_cons_of_mem _ hr
        exact .bind (.map (Q := fun _ => Settled heaps pins maps₀ tx) hends) (fun hv => .pure hv) id

theorem deleteTuple_settled (hq : Quiet others tx) (hh : table.heap ∈ heaps) (hp : table.heap.Has s.database rid.pageId)
    (hc : Covered heaps pins maps₀ tx s) :
    (table.deleteTuple others rid (some tx)).Ends s fun _ => Settled heaps pins maps₀ tx := by
  obtain ⟨maps, ht, hc⟩ := hc
  have ht := ht.page hh hp
  refine .bind (lockExclusive_ends hq) ?_ ?_
  case refine_2 =>
    rintro _ _ ⟨⟨_, hr⟩, _⟩
    cases hr
  rintro granted t ⟨_, hlt, _, ht'⟩
  have ht := ht' ht
  cases granted
  case false => exact .pure <| .inr <| ht.covered (hlt ▸ hc) (hlt ▸ List.subset_cons_self ..)
  case true  =>
    refine .bind (onHeap_ends <| ht.getTuple List.mem_cons_self) ?_ ?_
    case refine_2 =>
      rintro _ u ⟨_, ⟨hd, _⟩ | ⟨hr, _⟩⟩
      · exact .inl hd
      · cases hr
    rintro (_ | bytes) u ⟨hlu, ⟨hd, hn⟩ | ⟨hr, hu⟩⟩
    · exact .pure <| .inl hd
    · refine .pure <| .inr <| hu.covered ?_ ?_
      · rwa [hlu, hlt]
      · rw [hlu, hlt]
        exact List.subset_cons_self ..
    · cases hn _ rfl
    · have hb : maps table.heap rid = some bytes := (Option.filter_eq_some_iff.mp (Except.ok.inj hr).symm).1
      have hu := hu.slot hh hb
      refine .bind (onHeap_ends <| hu.deleteTuple List.mem_cons_self) ?_ ?_
      case refine_2 =>
        rintro _ v ⟨_, ⟨hd, _⟩ | ⟨hr, _⟩⟩
        · exact .inl hd
        · cases hr
      rintro deleted v ⟨hlv, ⟨hd, hn⟩ | ⟨hr, hv⟩⟩
      · obtain rfl := hn _ rfl
        exact .pure <| .inl hd
      · rw [hb] at hr
        obtain rfl := Except.ok.inj hr
        refine .bind (pushUndo_ends (Q := fun _ => Settled heaps pins maps₀ tx) fun {w} hlw hw => ?_) (fun hv => .pure hv) id
        have hv := hw ▸ hv
        refine .inr <| hv.covered ?_ ?_
        · rw [hlw, hlv, hlu, hlt]
          exact hc.delete hb
        · rw [hlw, hlv, hlu, hlt]
          intro r hr
          simp only [List.mem_append, List.mem_cons] at hr ⊢
          tauto

theorem updateTuple_settled (hq : Quiet others tx) (hh : table.heap ∈ heaps) (hp : table.heap.Has s.database rid.pageId)
    (hcareful : (Call.update rid tuple).Careful others table tx s) (hc : Covered heaps pins maps₀ tx s) :
    (table.updateTuple others rid tuple (some tx)).Ends s fun _ => Settled heaps pins maps₀ tx := by
  have hs : Settled heaps pins maps₀ tx s := .inr hc
  obtain ⟨maps, ht, hc⟩ := hc
  have ht := ht.page hh hp
  rw [updateTuple]
  split
  case isTrue  => exact .throw hs
  case isFalse =>
    refine .bind (lockExclusive_ends hq).self ?_ ?_
    case refine_2 =>
      rintro _ _ ⟨_, ⟨_, hr⟩, _⟩
      cases hr
    rintro granted t ⟨heq, _, hlt, _, ht'⟩
    have ht := ht' ht
    cases granted
    case false => exact .pure <| .inr <| ht.covered (hlt ▸ hc) (hlt ▸ List.subset_cons_self ..)
    case true  =>
      refine .bind (onHeap_ends <| ht.getTuple List.mem_cons_self).self ?_ ?_
      case refine_2 =>
        rintro _ u ⟨_, _, ⟨hd, _⟩ | ⟨hr, _⟩⟩
        · exact .inl hd
        · cases hr
      rintro (_ | old) u ⟨hequ, hlu, ⟨hd, hn⟩ | ⟨hr, hu⟩⟩
      · exact .pure <| .inl hd
      · refine .pure <| .inr <| hu.covered ?_ ?_
        · rwa [hlu, hlt]
        · rw [hlu, hlt]
          exact List.subset_cons_self ..
      · cases hn _ rfl
      have hb : maps table.heap rid = some old := (Option.filter_eq_some_iff.mp (Except.ok.inj hr).symm).1
      have hcu : Covered heaps pins maps₀ tx u := by
        refine hu.covered ?_ ?_
        · rwa [hlu, hlt]
        · rw [hlu, hlt]
          exact List.subset_cons_self ..
      refine .bind (.ofExcept (Q := fun result v => result = tuple.serialize ∧ v = u) ⟨rfl, rfl⟩) ?_ ?_
      case refine_2 =>
        rintro _ _ ⟨_, rfl⟩
        exact .inr hcu
      rintro bytes _ ⟨hbytes, rfl⟩
      obtain ⟨hlen, hmoves⟩ := hcareful hbytes.symm heq hequ
      have hu := hu.slot hh hb
      have hshort : bytes.length < 65536 := by omega
      refine .bind (onHeap_ends <| hu.updateTuple List.mem_cons_self hshort).self ?_ ?_
      case refine_2 =>
        rintro _ v ⟨_, _, hv⟩
        refine .inl <| hv.resolve_right ?_
        rintro (⟨hlong, _⟩ | ⟨_, hr, _⟩ | ⟨_, hr, _⟩)
        · omega
        · cases hr
        · cases hr
      rintro (_ | rid') v ⟨heqv, hlv, hv⟩
      · refine .pure <| .inl <| hv.resolve_right ?_
        rintro (⟨_, ⟨_, hr⟩, _⟩ | ⟨hn, _⟩ | ⟨_, hr, _⟩)
        · cases hr
        · cases hb.symm.trans hn
        · cases hr
      -- What is recorded once the lock of the new RID is held.
      have hrecord {w : Database} (hlw : w.undoLog tx = v.undoLog tx) (hdw : v.database.denied = true → w.database.denied = true)
          (hw : ∀ {heaps pins log maps}, Tracks heaps pins log v.database maps → Tracks heaps pins log w.database maps) :
          (do pushUndo (some tx) [.restore table.heap rid old, .delete table.heap rid']; return some rid' :
            DatabaseM (Option RID)).Ends w fun _ => Settled heaps pins maps₀ tx := by
        refine .bind (pushUndo_ends (Q := fun _ => Settled heaps pins maps₀ tx) fun {x} hlx hx => ?_) (fun hv => .pure hv) id
        obtain hd | ⟨_, ⟨_, hr⟩, _⟩ | ⟨_, hr, _⟩ | ⟨_, hr, hn, hf, hv⟩ := hv
        · exact .inl <| hx ▸ hdw hd
        · cases hr
        · cases hr
        · obtain rfl := Option.some.inj <| Except.ok.inj hr
          have hx := hx ▸ (hw hv).slot hh TableMaps.set_self
          refine .inr <| hx.covered ?_ ?_
          · rw [hlx, hlw, hlv, hlu, hlt]
            exact hc.update hb hf
          · rw [hlx, hlw, hlv, hlu, hlt]
            intro r hr
            simp only [List.mem_append, List.mem_cons] at hr ⊢
            tauto
      by_cases hne : rid' = rid
      case pos =>
        simp only [hne, ne_eq, not_true, if_false]
        exact hne ▸ hrecord rfl id id
      case neg =>
        simp only [ne_eq, hne, not_false_eq_true, if_true]
        obtain ⟨w, hw⟩ := hmoves heqv hne
        refine .bind (lockExclusive_ends hq).self ?_ ?_
        case refine_2 =>
          rintro _ _ ⟨_, ⟨_, hr⟩, _⟩
          cases hr
        rintro granted x ⟨heqx, _, hlx, hdx, hx⟩
        obtain rfl : true = granted := by simpa using congrArg (Option.map Prod.fst) (hw.symm.trans heqx)
        exact hrecord hlx hdx hx

end Table

theorem Works.covered (e : Works Table.Call.Careful heaps tx s c t) (hc : Covered heaps pins maps₀ tx s) :
    Covered heaps pins maps₀ tx t := by
  cases e
  case rest hq =>
    obtain ⟨maps, ⟨views, chains, hs, ht⟩, hc⟩ := hc
    rw [Covered, hq.undoLog]
    exact ⟨maps, ⟨views, chains, hq.shows hs, ht⟩, hc⟩
  case call others table result c hh hq ha hcareful hrun hd =>
    have hends : (c.run others table tx).Ends s fun _ => Table.Settled heaps pins maps₀ tx := by
      cases c
      case insert tuple     => exact .map <| Table.insertTuple_settled hq hh hc
      case update rid tuple => exact .map <| Table.updateTuple_settled hq hh ha hcareful hc
      case delete rid       => exact .map <| Table.deleteTuple_settled hq hh ha hc
    exact (hends.of_eq hrun).resolve_left fun h => Bool.false_ne_true <| hd.symm.trans h

section undo

variable {s t : Pager} {log : List UndoRecord} {r : UndoRecord} {maps' : TableMaps}

end undo

section deniedMove

variable {p q : Pager} {bytes : List UInt8} {u : Database}

open Database TableHeap Pager

-- A table of texts, whose first page is the first of a new file.
def texts : Table where
  heap   := ⟨1⟩
  schema := ⟨[{ name := [], type := .varchar, length := 0 }]⟩

-- A step to which every page is granted.
def expected [DecidableEq α] (a : α) (x : DatabaseM α) : DatabaseM Unit :=
  x.expect (!·.database.denied) a

theorem expected_ok [DecidableEq α] {a : α} {x : DatabaseM α} (h : expected a x s = some (.ok (), t)) :
    x s = some (.ok a, t) ∧ t.database.denied = false :=
  (expect_ok h).imp_right (Bool.not_eq_true' _).mp

def start : Database :=
  (TransactionManager.init ⟨.create (.fresh .empty) 2, false⟩).begin.2.begin.2

-- A transaction that inserts a text into a new table.
theorem inserted : ∃ p q, TableHeap.create ⟨.create (.fresh .empty) 2, false⟩ = some (.ok texts.heap, p) ∧
    p.denied = false ∧ texts.heap.insertTuple [0, 0, 0] p = some (.ok (some ⟨1, 0⟩), q) ∧ q.denied = false := by
  iterate 2 apply Exists.intro
  refine ⟨rfl, rfl, ?_, ?_⟩
  · rw [TableHeap.insertTuple, if_neg (by decide), insertFrom_eq]
    rfl
  · rfl

end deniedMove

end Duck
