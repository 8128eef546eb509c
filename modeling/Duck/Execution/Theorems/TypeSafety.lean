import Duck.Execution.Executor
import Duck.Lib.Safety
import Mathlib.Data.List.Forall2

namespace Duck

open Program Leaves Cursor

variable {child left right : Cursor σ String Record} {I : σ → Prop} {P P' PL PR : Record → Prop} {E : String → Prop}
variable {predicate : Predicate} {columns : List ℕ} {n : ℕ}

-- The predicate throws nothing but errors of `E` for records of `P`.
def Predicate.Safe (predicate : Predicate) (P : Record → Prop) (E : String → Prop) : Prop :=
  ∀ {record e}, P record → predicate.accepts record = .error e → E e

theorem FilterOperator.gives (h : child.Gives I P E) (hp : predicate.Safe P E) :
    (cursor child predicate).Gives I P E where
  reset := h.reset
  next  := by
    refine Leaves.untilSome fun {s} hi => (h.next hi).andThen ?_
    rintro (_ | record) t ⟨hi, hr⟩
    · exact .pure ⟨hi, nofun⟩
    · have hr := hr record rfl
      change Leaves (Program.ofExcept (predicate.accepts record) >>= _) _ _
      rcases ha : predicate.accepts record with e | _ | _
      · exact .throw ⟨hi, hp hr ha⟩
      · exact .pure hi
      · refine .pure ⟨hi, ?_⟩
        rintro _ ⟨⟩
        exact hr

theorem ProjectionOperator.gives (h : child.Gives I P E)
    (hp : ∀ {record}, P record → ∃ values, columns.mapM record.get = .ok values ∧ P' ⟨values⟩) :
    (cursor child columns).Gives I P' E where
  reset := h.reset
  next  := by
    refine fun {s} hi => (h.next hi).andThen ?_
    rintro (_ | record) t ⟨hi, hr⟩
    · exact .pure ⟨hi, nofun⟩
    · obtain ⟨values, hv, hp⟩ := hp (hr record rfl)
      change Leaves (Program.ofExcept (columns.mapM record.get) >>= _) _ _
      rw [hv]
      refine .pure ⟨hi, ?_⟩
      rintro _ ⟨⟩
      exact hp

theorem LimitOperator.gives (h : child.Gives I P E) : (cursor child n).Gives (fun s => I s.1) P E := by
  have hb : (child.beside : Cursor (σ × ℕ) String Record).Gives (fun s => I s.1) P E := h.on id fun _ => id
  refine ⟨fun hi => (hb.reset hi).andThen fun hi => .update hi, fun {s} hi => ?_⟩
  refine .read_bind ?_
  split_ifs
  case pos => exact .pure ⟨hi, nofun⟩
  case neg => exact .update_bind <| hb.next hi

namespace NestedLoopJoin

-- The blocks hold records of the two sides.
structure Holds (I : σ → Prop) (PL PR : Record → Prop) (p : σ × State) : Prop where
  children : I p.1
  left     : ∀ r ∈ p.2.leftBlock, PL r
  right    : ∀ r ∈ p.2.rightBlock, PR r

theorem fetchBlock_leaves (h : child.Gives I P E) (n : ℕ) (hi : I s) :
    (fetchBlock child n).Leaves s (Post (fun block t => I t ∧ ∀ r ∈ block, P r) fun e t => I t ∧ E e) := by
  induction n generalizing s
  case zero      => exact .pure ⟨hi, nofun⟩
  case succ n ih =>
    refine (h.next hi).andThen ?_
    rintro (_ | record) t ⟨hi, hr⟩
    · exact .pure ⟨hi, nofun⟩
    · refine (ih hi).andThen fun {block u} ⟨hi, hb⟩ => .pure ⟨hi, ?_⟩
      exact List.forall_mem_cons.mpr ⟨hr record rfl, hb⟩

theorem onChild_leaves {x : Program σ String α} {Q : α → Prop} {p : σ × State}
    (h : x.Leaves p.1 (Post (fun a t => I t ∧ Q a) fun e t => I t ∧ E e)) (hp : Holds I PL PR p) :
    (onChild x).Leaves p (Post (fun a q => Holds I PL PR q ∧ Q a) fun e q => Holds I PL PR q ∧ E e) := by
  refine .on <| h.mono ?_
  rintro (e | a) t ⟨hi, hq⟩
  · exact ⟨⟨hi, hp.left, hp.right⟩, hq⟩
  · exact ⟨⟨hi, hp.left, hp.right⟩, hq⟩

theorem reset_leaves {p : σ × State} (h : child.Gives I P E) (hp : Holds I PL PR p) :
    (onChild child.reset).Leaves p (Post (fun _ q => Holds I PL PR q) fun e q => Holds I PL PR q ∧ E e) := by
  refine .on <| (h.reset hp.children).mono ?_
  rintro (e | a) t h
  · exact ⟨⟨h.1, hp.left, hp.right⟩, h.2⟩
  · exact ⟨h, hp.left, hp.right⟩

theorem loadLeft_leaves {p : σ × State} (hl : left.Gives I PL E) (hr : right.Gives I PR E) (hp : Holds I PL PR p) :
    (loadLeft left right).Leaves p
      (Post (fun _ q => Holds I PL PR q) fun e q => Holds I PL PR q ∧ E e) := by
  refine .read_bind ?_
  split_ifs
  case pos => exact .pure hp
  case neg =>
    refine (onChild_leaves (fetchBlock_leaves hl _ hp.children) hp).andThen ?_
    rintro block ⟨s, j⟩ ⟨hp, hb⟩
    have hp : Holds I PL PR (s, { j with leftBlock := block }) := ⟨hp.children, hb, hp.right⟩
    refine .update_bind ?_
    split_ifs
    case pos => exact .pure hp
    case neg =>
      have hp : Holds I PL PR (s, { j with leftBlock := block, leftIt := 0 }) := ⟨hp.children, hb, hp.right⟩
      refine .update_bind <| (reset_leaves hr hp).andThen ?_
      rintro _ ⟨s, j⟩ hp
      exact .update_bind <| .pure ⟨hp.children, hp.left, nofun⟩

theorem loadRight_leaves {p : σ × State} (hr : right.Gives I PR E) (hp : Holds I PL PR p) :
    (loadRight right).Leaves p
      (Post (fun loaded q => Holds I PL PR q ∧ (loaded = true → q.2.rightIt < q.2.rightBlock.length))
        fun e q => Holds I PL PR q ∧ E e) := by
  refine .read_bind ?_
  split_ifs with hlt
  case pos => exact .pure ⟨hp, fun _ => hlt⟩
  case neg =>
    refine (onChild_leaves (fetchBlock_leaves hr _ hp.children) hp).andThen ?_
    rintro block ⟨s, j⟩ ⟨hp, hb⟩
    refine .update_bind ?_
    split_ifs with he
    case pos => exact .update_bind <| .pure ⟨⟨hp.children, nofun, hb⟩, nofun⟩
    case neg => exact .pure ⟨⟨hp.children, hp.left, hb⟩, fun _ => List.length_pos_of_ne_nil <| by simpa using he⟩

-- A record of each side.
def Joined (PL PR : Record → Prop) (record : Record) : Prop :=
  ∃ l r, PL l ∧ PR r ∧ record = l + r

theorem compareNext_leaves {p : σ × State} (hp : Holds I PL PR p) (hs : predicate.Safe (Joined PL PR) E)
    (hlt : p.2.rightIt < p.2.rightBlock.length) :
    (compareNext predicate).Leaves p
      (Post (fun a q => Holds I PL PR q ∧ ∀ r ∈ a, Joined PL PR r) fun e q => Holds I PL PR q ∧ E e) := by
  refine .read_bind ?_
  split
  case h_1 l hl =>
    have hj : Joined PL PR (l + p.2.rightBlock.getD p.2.rightIt ⟨[]⟩) := by
      have hd : p.2.rightBlock.getD p.2.rightIt ⟨[]⟩ = p.2.rightBlock[p.2.rightIt] := by simp [hlt]
      exact ⟨l, _, hp.left l (List.mem_of_getElem? hl), hp.right _ (hd ▸ List.getElem_mem hlt), rfl⟩
    have hp : Holds I PL PR (p.1, { p.2 with leftIt := p.2.leftIt + 1 }) := ⟨hp.children, hp.left, hp.right⟩
    refine .update_bind ?_
    change Leaves (Program.ofExcept (predicate.accepts (l + p.2.rightBlock.getD p.2.rightIt ⟨[]⟩)) >>= _) _ _
    rcases ha : predicate.accepts (l + p.2.rightBlock.getD p.2.rightIt ⟨[]⟩) with e | _ | _
    · exact .throw ⟨hp, hs hj ha⟩
    · exact .pure ⟨hp, nofun⟩
    · refine .pure ⟨hp, ?_⟩
      rintro _ ⟨⟩
      exact hj
  case h_2 => exact .update_bind <| .pure ⟨⟨hp.children, hp.left, hp.right⟩, nofun⟩

theorem turn_leaves {p : σ × State} (hl : left.Gives I PL E) (hr : right.Gives I PR E)
    (hs : predicate.Safe (Joined PL PR) E) (hp : Holds I PL PR p) :
    (turn left right predicate).Leaves p
      (Post (Turn (Holds I PL PR) fun a q => Holds I PL PR q ∧ ∀ r ∈ a, Joined PL PR r)
        fun e q => Holds I PL PR q ∧ E e) := by
  refine (loadLeft_leaves hl hr hp).andThen fun {loaded q} hp => ?_
  cases loaded
  case false => exact .pure ⟨hp, nofun⟩
  case true  =>
    refine (loadRight_leaves hr hp).andThen fun {loaded q} ⟨hp, hlt⟩ => ?_
    cases loaded
    case false => exact .pure hp
    case true  =>
      refine (compareNext_leaves hp hs (hlt rfl)).andThen ?_
      rintro (_ | record) q ⟨hp, hr⟩
      · exact .pure hp
      · refine .pure ⟨hp, ?_⟩
        rintro _ ⟨⟩
        exact hr record rfl

theorem gives (hl : left.Gives I PL E) (hr : right.Gives I PR E) (hs : predicate.Safe (Joined PL PR) E) :
    (cursor left right predicate).Gives (Holds I PL PR) (Joined PL PR) E where
  next         := Leaves.untilSome fun hp => turn_leaves hl hr hs hp
  reset {p} hp := by
    refine (reset_leaves hl hp).andThen fun hp => (reset_leaves hr hp).andThen ?_
    rintro _ ⟨s, j⟩ hp
    exact .update ⟨hp.children, nofun, nofun⟩

end NestedLoopJoin

section records

-- As many values as columns, each of the type of its column.
def Record.Fits (schema : Schema) (record : Record) : Prop :=
  List.Forall₂ (fun v c => c.type.toValueType = some v.type) record.values schema.columns

-- The columns that the expression asks for are among the first `n`.
def Expression.Within (n : ℕ) : Expression → Prop
  | column index          => index < n
  | constant _            => True
  | comparison left _ right => left.Within n ∧ right.Within n
  | binary left _ right   => left.Within n ∧ right.Within n
  | unary expr _          => expr.Within n

-- What an operation on values throws.
inductive ValueError : String → Prop
  | compare {v w : Value} (h : v.compare w = .error e) : ValueError e
  | assertFailed : ValueError Predicate.assertFailed
  | binary {op : BinaryOperator} {v w : Value} (h : op.apply v w = .error e) : ValueError e
  | unary {op : UnaryOperator} {v : Value} (h : op.apply v = .error e) : ValueError e

variable {record : Record} {schema : Schema} {expr : Expression} {e : String}

theorem Record.Fits.get (h : record.Fits schema) (hi : schema.columns[i]? = some c) :
    ∃ v, record.get i = .ok v ∧ c.type.toValueType = some v.type := by
  obtain ⟨hlt, rfl⟩ := List.getElem?_eq_some_iff.mp hi
  have hlt' : i < record.values.length := h.length_eq ▸ hlt
  refine ⟨record.values[i], ?_, List.Forall₂.get h hlt' hlt⟩
  rw [Record.get, List.getElem?_eq_getElem hlt']

theorem Record.get_of_lt (h : i < record.size) : ∃ v, record.get i = .ok v :=
  ⟨record.values[i], by rw [Record.get, List.getElem?_eq_getElem h]⟩

theorem Expression.Within.evaluate_error (h : expr.Within record.size) (he : expr.evaluate record = .error e) :
    ValueError e := by
  induction expr generalizing e
  case column i =>
    obtain ⟨v, hv⟩ := Record.get_of_lt h
    rw [evaluate, hv] at he
    cases he
  case constant => cases he
  case comparison l op r hl hr =>
    obtain he | ⟨v, -, he⟩ := Except.bind_eq_error.mp he
    · exact hl h.1 he
    · obtain he | ⟨w, -, he⟩ := Except.bind_eq_error.mp he
      · exact hr h.2 he
      · obtain he | ⟨c, -, he⟩ := Except.bind_eq_error.mp he
        · exact .compare he
        · split_ifs at he
          · cases he
          · cases he
  case binary l op r hl hr =>
    obtain he | ⟨v, -, he⟩ := Except.bind_eq_error.mp he
    · exact hl h.1 he
    · obtain he | ⟨w, -, he⟩ := Except.bind_eq_error.mp he
      · exact hr h.2 he
      · exact .binary he
  case unary expr op hx =>
    obtain he | ⟨v, -, he⟩ := Except.bind_eq_error.mp he
    · exact hx h he
    · exact .unary he

theorem Expression.Within.predicate_safe (h : expr.Within schema.columnCount) : expr.predicate.Safe (Record.Fits schema) ValueError := by
  intro record e hr he
  have hs : record.size = schema.columnCount := hr.length_eq
  have h : expr.Within record.size := hs ▸ h
  obtain he | ⟨v, -, he⟩ := Except.bind_eq_error.mp he
  · exact h.evaluate_error he
  · split_ifs at he with ht hn
    · cases he
      exact .assertFailed
    · cases he
    · cases v
      case bool => cases he
      case null => exact absurd rfl hn
      all_goals simp [Value.type] at ht

theorem Record.Fits.append {left right : Record} (hl : left.Fits s) (hr : right.Fits t)
    (h : schema.columns = s.columns ++ t.columns) : (left + right).Fits schema := by
  have ha : List.Forall₂ _ (left.values ++ right.values) (s.columns ++ t.columns) := List.rel_append hl hr
  rwa [←h] at ha

theorem Record.Fits.project {columns : List ℕ} (h : record.Fits s)
    (hc : List.Forall₂ (fun i c => s.columns[i]? = some c) columns schema.columns) :
    ∃ values, columns.mapM record.get = .ok values ∧ Record.Fits schema ⟨values⟩ := by
  change ∃ values, _ ∧ List.Forall₂ _ values schema.columns
  generalize schema.columns = cs at hc
  induction hc
  case nil => exact ⟨[], rfl, .nil⟩
  case cons i c is cs hi _ ih =>
    obtain ⟨v, hv, ht⟩ := h.get hi
    obtain ⟨vs, hvs, hts⟩ := ih
    refine ⟨v :: vs, ?_, .cons ht hts⟩
    rw [List.mapM_cons, hv, hvs]
    rfl

end records

section scan

variable {table : Table} {schema : Schema} {raw : List UInt8}

theorem Tuple.decode_type (h : decode type raw = .ok v) : type.toValueType = some v.type := by
  cases type <;> cases h <;> rfl

theorem Tuple.deserializeValue_type (h : deserializeValue raw index offset c = .ok v) :
    c.type.toValueType = some v.type := by
  obtain ⟨bitmap, -, h⟩ := Except.bind_eq_ok.mp h
  split_ifs at h
  · split at h
    · cases h
      assumption
    · cases h
  · obtain ⟨fixed, -, h⟩ := Except.bind_eq_ok.mp h
    obtain ⟨bytes, -, h⟩ := Except.bind_eq_ok.mp h
    exact decode_type h
  · obtain ⟨fixed, -, h⟩ := Except.bind_eq_ok.mp h
    obtain ⟨size, -, h⟩ := Except.bind_eq_ok.mp h
    obtain ⟨bytes, -, h⟩ := Except.bind_eq_ok.mp h
    exact decode_type h

theorem Tuple.computeOffsets_length (h : computeOffsets raw cs offset = .ok offsets) : offsets.length = cs.length := by
  induction cs generalizing offset offsets
  case nil =>
    cases h
    rfl
  case cons c cs ih =>
    obtain ⟨size, -, h⟩ := Except.bind_eq_ok.mp h
    obtain ⟨rest, hr, h⟩ := Except.bind_eq_ok.mp h
    cases h
    exact congrArg (· + 1) (ih hr)

theorem Tuple.deserializeValues_types (hl : offsets.length = cs.length)
    (h : deserializeValues raw cs offsets index = .ok vs) :
    List.Forall₂ (fun v c => c.type.toValueType = some v.type) vs cs := by
  induction cs generalizing offsets index vs
  case nil =>
    obtain rfl := List.length_eq_zero_iff.mp hl
    cases h
    exact .nil
  case cons c cs ih =>
    cases offsets
    case nil => cases hl
    case cons offset offsets =>
      obtain ⟨v, hv, h⟩ := Except.bind_eq_ok.mp h
      obtain ⟨rest, hr, h⟩ := Except.bind_eq_ok.mp h
      cases h
      exact .cons (deserializeValue_type hv) (ih (Nat.succ.inj hl) hr)

-- A tuple that is decoded has the types of the columns, whatever the bytes are.
theorem Tuple.deserialize_fits {t : Tuple} (h : deserialize raw schema = .ok t) : Record.Fits schema ⟨t.values⟩ := by
  obtain ⟨offsets, ho, h⟩ := Except.bind_eq_ok.mp h
  obtain ⟨values, hv, h⟩ := Except.bind_eq_ok.mp h
  cases h
  exact deserializeValues_types (computeOffsets_length ho) hv

-- What the scan of a table throws.
def ScanError (others : Database → Database) (e : String) : Prop :=
  ∃ table tx s t, (SequentialScanOperator.next others) s = some (.error e, t) ∨
    (SequentialScanOperator.reset table tx) s = some (.error e, t)

namespace SequentialScanOperator

variable {others : Database → Database} {tx : Option TransactionID}

-- Only the position of the scan changes.
theorem onDatabase_leaves {x : DatabaseM α} {s : Database × Table.Scan} (hs : s.2.table = table) :
    (onDatabase x).Leaves s fun _ t => t.2.table = table :=
  .on fun _ _ _ => hs

theorem decode_leaves {bytes : List UInt8} {s : Database × Table.Scan} (hs : s.2.table = table) :
    (onDatabase (table.decode bytes)).Leaves s (Post
      (fun tuple t => t.2.table = table ∧ Record.Fits table.schema ⟨tuple.values⟩) fun _ t => t.2.table = table) := by
  refine .on <| .ofExcept ?_
  rcases hd : Tuple.deserialize bytes table.schema with e | tuple
  · exact hs
  · exact ⟨hs, Tuple.deserialize_fits hd⟩

theorem nextTuple_leaves {s : Database × Table.Scan} (hs : s.2.table = table) :
    (nextTuple others).Leaves s (Post (fun a t => t.2.table = table ∧ ∀ r ∈ a, Record.Fits table.schema ⟨r.2.values⟩)
      fun _ t => t.2.table = table) := by
  obtain rfl := hs
  refine .read_bind <| (onDatabase_leaves rfl).bind (fun {granted t} ht => ?_) id
  split_ifs
  case pos => exact .pure ⟨ht, nofun⟩
  case neg =>
    refine (onDatabase_leaves ht).bind ?_ id
    rintro ⟨_ | ⟨rid, bytes⟩, heapScan⟩ ⟨db, scan⟩ hs
    · exact .update_bind <| .pure ⟨hs, nofun⟩
    · refine .update_bind ?_
      change Leaves (onDatabase (s.2.table.decode bytes) >>= _) _ _
      refine (decode_leaves (by exact hs)).andThen ?_
      rintro tuple u ⟨hu, hf⟩
      refine .pure ⟨hu, ?_⟩
      rintro _ ⟨⟩
      exact hf

theorem next_leaves {s : Database × Table.Scan} (hs : s.2.table = table) :
    (next others).Leaves s (Post (fun a t => t.2.table = table ∧ ∀ r ∈ a, Record.Fits table.schema r)
      fun _ t => t.2.table = table) := by
  refine (nextTuple_leaves hs).andThen ?_
  rintro (_ | ⟨rid, tuple⟩) t ⟨ht, hf⟩
  · exact .pure ⟨ht, nofun⟩
  · refine .pure ⟨ht, ?_⟩
    rintro _ ⟨⟩
    exact hf _ rfl

theorem create_leaves {db : Database} :
    (create table tx).Leaves db (Post (fun scan _ => scan.table = table) fun _ _ => True) := by
  rw [create, Database.onHeap, Table.scan]
  exact .on <| (Leaves.self).bind (fun _ => .pure rfl) fun _ => trivial

theorem reset_leaves {s : Database × Table.Scan} (hs : s.2.table = table) :
    (reset table tx).Leaves s (Post (fun _ t => t.2.table = table) fun _ t => t.2.table = table) := by
  have hc : (onDatabase (create table tx)).Leaves s (Post (fun scan t => t.2.table = table ∧ scan.table = table)
      fun _ t => t.2.table = table) := by
    refine .on <| create_leaves.mono ?_
    rintro (e | scan) t h
    · exact hs
    · exact ⟨hs, h⟩
  refine hc.andThen fun {scan t} ⟨ht, hscan⟩ => .read_bind <| .update_bind ?_
  refine (onDatabase_leaves hscan).mono ?_
  rintro (e | a) u hu <;> exact hu

theorem gives : (cursor others table tx).Gives (fun s => s.2.table = table) (Record.Fits table.schema) (ScanError others) where
  reset {s} hs := by
    rintro (e | a) t hx
    · exact ⟨reset_leaves hs _ _ hx, table, tx, s, t, .inr hx⟩
    · exact reset_leaves hs _ _ hx
  next {s} hs  := by
    rintro (e | a) t hx
    · exact ⟨next_leaves hs _ _ hx, table, tx, s, t, .inl hx⟩
    · exact next_leaves hs _ _ hx

end SequentialScanOperator

end scan

namespace Operator

-- Where an exception of a tree comes from. Reading a value out of a record is not among the places.
def Throws (others : Database → Database) (e : String) : Prop :=
  ScanError others e ∨ ValueError e

-- The schemas of the nodes are those of their records, and every index is that of a column of the records that it
-- is applied to.
def WellTyped : Operator → Prop
  | scan ..                                    => True
  | nestedLoopJoin left right predicate schema =>
    left.WellTyped ∧ right.WellTyped ∧ schema.columns = left.outputSchema.columns ++ right.outputSchema.columns ∧
      predicate.Within schema.columnCount
  | filter child comparator                    => child.WellTyped ∧ comparator.Within child.outputSchema.columnCount
  | projection child columns schema            =>
    child.WellTyped ∧ List.Forall₂ (fun i c => child.outputSchema.columns[i]? = some c) columns schema.columns
  | limit child _                              => child.WellTyped

-- The scans are of their tables, and the blocks hold records of the two sides.
def Holds : (op : Operator) → op.State → Prop
  | scan table _                => fun s => s.table = table
  | nestedLoopJoin left right .. =>
    NestedLoopJoin.Holds (fun s => left.Holds s.1 ∧ right.Holds s.2) (Record.Fits left.outputSchema)
      (Record.Fits right.outputSchema)
  | filter child _              => child.Holds
  | projection child ..         => child.Holds
  | limit child _               => fun s => child.Holds s.1

theorem create_leaves (op : Operator) {db : Database} :
    op.create.Leaves db (Post (fun s _ => op.Holds s) fun _ _ => True) := by
  induction op generalizing db
  case scan                         => exact SequentialScanOperator.create_leaves
  case nestedLoopJoin ihl ihr       =>
    exact ihl.andThen fun hl => ihr.andThen fun hr => .pure ⟨⟨hl, hr⟩, nofun, nofun⟩
  case filter ih                    => exact ih
  case projection ih                => exact ih
  case limit ih                     => exact ih.andThen fun h => .pure h

variable {others : Database → Database} {op : Operator}

theorem gives (h : op.WellTyped) :
    (op.cursor others).Gives (fun p => op.Holds p.2) (Record.Fits op.outputSchema) (Throws others) := by
  have hvalue : ∀ {e}, ValueError e → Throws others e := .inr
  induction op
  case scan table tx                                  => exact SequentialScanOperator.gives.imp id .inl
  case nestedLoopJoin left right predicate schema ihl ihr =>
    obtain ⟨hl, hr, hs, hp⟩ := h
    have hleft : (left.cursor others).onLeft.Gives
        (fun p : Database × left.State × right.State => left.Holds p.2.1 ∧ right.Holds p.2.2)
        (Record.Fits left.outputSchema) (Throws others) :=
      (ihl hl).on (fun h => h.1) fun hj h => ⟨h, hj.2⟩
    have hright : (right.cursor others).onRight.Gives
        (fun p : Database × left.State × right.State => left.Holds p.2.1 ∧ right.Holds p.2.2)
        (Record.Fits right.outputSchema) (Throws others) :=
      (ihr hr).on (fun h => h.2) fun hj h => ⟨hj.1, h⟩
    have hfits : ∀ {record}, NestedLoopJoin.Joined (Record.Fits left.outputSchema) (Record.Fits right.outputSchema) record →
        Record.Fits schema record := by
      rintro _ ⟨l, r, hl, hr, rfl⟩
      exact hl.append hr hs
    have hsafe : predicate.predicate.Safe (NestedLoopJoin.Joined (Record.Fits left.outputSchema) (Record.Fits right.outputSchema))
        (Throws others) := fun hj he => hvalue (hp.predicate_safe (hfits hj) he)
    refine ((NestedLoopJoin.gives hleft hright hsafe).on ?_ ?_).imp hfits id
    · exact fun h => ⟨h.children, h.left, h.right⟩
    · exact fun _ h => ⟨h.children, h.left, h.right⟩
  case filter child comparator ih                     =>
    exact FilterOperator.gives (ih h.1) fun hr he => hvalue (h.2.predicate_safe hr he)
  case projection child columns schema ih             =>
    exact ProjectionOperator.gives (ih h.1) fun hr => hr.project h.2
  case limit child count ih                           =>
    exact (LimitOperator.gives (ih h)).on id fun _ => id

end Operator

end Duck
