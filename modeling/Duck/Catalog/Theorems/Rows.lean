import Duck.Catalog.Catalog
import Duck.Tuple.Theorems.RoundTrip
import Duck.Tuple.Theorems.SchemaCodec

namespace Duck

namespace Schema

variable {s : Schema} {c : Column}

theorem compatibleWith_self : s.compatibleWith s = true :=
  decide_eq_true rfl

theorem serialize_length (h : s.columns.length < 65536) :
    s.serialize.length = 2 + (s.columns.flatMap Column.serialize).length := by
  rw [serialize_of_lt h, List.length_append, Bytes.le_length]

-- What is short enough for a page is found again.
theorem deserialize_serialize (hc : s.columns.length < 65536) (hl : s.serialize.length < 65536) :
    deserialize s.serialize = .ok s := by
  rw [serialize_length hc] at hl
  refine (deserialize_serialize_iff hc fun c hm => ?_).mpr fun i c hi hs => ?_
  · obtain ⟨as, bs, hs⟩ := List.append_of_mem hm
    rw [hs, List.flatMap_append, List.flatMap_cons, List.length_append, List.length_append, Column.serialize_length] at hl
    omega
  · have hp : (s.columns.take i).flatMap Column.serialize <+: s.columns.flatMap Column.serialize := by
      conv_rhs => rw [←List.take_append_drop i s.columns, List.flatMap_append]
      exact List.prefix_append ..
    rw [start] at hs
    have := hp.length_le
    omega

end Schema

-- Only a CHAR may lose something.
theorem Value.Same.eq {v w : Value} {type : TypeId} (ht : type ≠ .char) (h : v.Same type w) : w = v := by
  cases v <;> cases w <;> simp_all [Value.Same]

namespace Catalog

open Duck.Tuple

variable {name : Name} {table : Table} {bytes : List UInt8}

def rowTuple (name : Name) (table : Table) : Tuple where
  schema := catalogSchema
  values := [.string name, .uint32 table.heap.firstPageId, .bytes table.schema.serialize]

-- The bytes of a row: no value is null.
def rowBytes (name : Name) (table : Table) : List UInt8 :=
  [0] ++ (Bytes.le 2 name.length ++ name ++ (Bytes.le 4 table.heap.firstPageId.toNat ++
    (Bytes.le 2 (table.schema.serialize.length % 65536) ++ table.schema.serialize)))

theorem rowTuple_typed : (rowTuple name table).Typed :=
  ⟨.cons rfl (.cons rfl (.cons rfl .nil))⟩

theorem rowOf_eq : rowOf name table = .ok (rowTuple name table) :=
  ofValues_eq_ok.mpr ⟨rfl, rowTuple_typed⟩

theorem rowBytes_length : (rowBytes name table).length = 9 + name.length + table.schema.serialize.length := by
  simp only [rowBytes, List.length_append, List.length_singleton, Bytes.le_length]
  omega

theorem checkSize_name {c : Column} (ht : c.type = .varchar) (hl : c.length = 128) :
    checkSize c (.string name) = .ok () ↔ name.length ≤ 128 := by
  have hlen : c.length.toNat = 128 := hl ▸ rfl
  by_cases hn : name.length ≤ 128
  case pos =>
    have h₁ : ¬128 < name.length := by omega
    have h₂ : ¬65535 < name.length := by omega
    simp [checkSize, Value.isNull, Value.serializedSize, ht, hlen, hn, h₁, h₂]
  case neg =>
    have h₁ : 128 < name.length := by omega
    simp [checkSize, Value.isNull, Value.serializedSize, ht, hlen, hn, h₁]

theorem nullBitmap_row : nullBitmap (rowTuple name table).values = [0] := by
  simp [rowTuple, nullBitmap, NullBitmap.size, List.range_succ, Value.isNull]

-- Only the name is checked.
theorem serialize_eq_ok : (rowTuple name table).serialize = .ok bytes ↔ name.length ≤ 128 ∧ bytes = rowBytes name table := by
  have hcheck {c : Column} (ht : c.type = .varchar) (hl : c.length = 128) : checkSize c (.string name) = .ok () ↔
      name.length ≤ 128 := checkSize_name ht hl
  have hpage {c : Column} (ht : c.type = .uint32) : serializeColumn c (.uint32 table.heap.firstPageId) =
      .ok (Bytes.le 4 table.heap.firstPageId.toNat) := by
    simp [serializeColumn, checkSize, Value.isNull, ht, Column.isFixedSize, Schema.fixedSizeOf, Value.serializeTo]
  have hschema {c : Column} (ht : c.type = .varbinary) : serializeColumn c (.bytes table.schema.serialize) =
      .ok (Bytes.le 2 (table.schema.serialize.length % 65536) ++ table.schema.serialize) := by
    simp [serializeColumn, checkSize, Value.isNull, ht, Column.isFixedSize, Value.serializedSize, Value.serializeTo]
  by_cases hn : name.length ≤ 128
  case pos =>
    have hm : name.length % 65536 = name.length := Nat.mod_eq_of_lt (by omega)
    have hname {c : Column} (ht : c.type = .varchar) (hl : c.length = 128) :
        serializeColumn c (.string name) = .ok (Bytes.le 2 name.length ++ name) := by
      rw [serializeColumn, (hcheck ht hl).mpr hn]
      simp [ht, Column.isFixedSize, Value.isNull, Value.serializedSize, Value.serializeTo, hm]
    have hs : (rowTuple name table).serialize = .ok (rowBytes name table) := by
      rw [serialize, nullBitmap_row]
      simp only [rowTuple, catalogSchema, serializeColumns, hname, hpage, hschema, Except.ok_bind, Except.pure_eq_ok,
        List.append_nil, rowBytes]
    rw [hs, Except.ok.injEq]
    exact ⟨fun h => ⟨hn, h.symm⟩, fun h => h.2.symm⟩
  case neg =>
    refine ⟨fun h => ?_, fun h => absurd h.1 hn⟩
    obtain ⟨_, h, -⟩ := Except.bind_eq_ok.mp h
    obtain ⟨_, h, -⟩ := Except.bind_eq_ok.mp h
    obtain ⟨⟨⟩, h, -⟩ := Except.bind_eq_ok.mp h
    exact absurd ((hcheck rfl rfl).mp h) hn

-- A row that fits on a page is read as what has been written.
theorem readRow_rowBytes (hn : name.length ≤ 128) (hl : (rowBytes name table).length ≤ 8180)
    (hc : table.schema.columns.length < 65536) :
    ∃ tuple, Tuple.deserialize (rowBytes name table) catalogSchema = .ok tuple ∧ readRow tuple = .ok (name, table) := by
  have hempty : ∀ c ∈ catalogSchema.columns, ¬EmptyChar c := by
    simp [catalogSchema, EmptyChar]
  obtain ⟨⟨schema, values⟩, hd, hschema, hs⟩ := rowTuple_typed.roundTrips hempty (serialize_eq_ok.mpr ⟨hn, rfl⟩) hl
  obtain rfl : schema = catalogSchema := hschema
  refine ⟨_, hd, ?_⟩
  simp only [rowTuple, catalogSchema, List.zip_cons_cons, List.zip_nil_right] at hs
  obtain ⟨w₁, _, h₁, hs₁, rfl⟩ := List.forall₂_cons_left_iff.mp hs
  obtain ⟨w₂, _, h₂, hs₂, rfl⟩ := List.forall₂_cons_left_iff.mp hs₁
  obtain ⟨w₃, _, h₃, hs₃, rfl⟩ := List.forall₂_cons_left_iff.mp hs₂
  cases hs₃
  obtain rfl := Value.Same.eq (show TypeId.varchar ≠ .char by decide) h₁
  obtain rfl := Value.Same.eq (show TypeId.uint32 ≠ .char by decide) h₂
  obtain rfl := Value.Same.eq (show TypeId.varbinary ≠ .char by decide) h₃
  rw [rowBytes_length] at hl
  have hs : Schema.deserialize table.schema.serialize = .ok table.schema := Schema.deserialize_serialize hc (by omega)
  simp only [readRow, Tuple.get, List.getElem?_cons_zero, List.getElem?_cons_succ, Except.ok_bind, Value.asString,
    Value.asUInt32, Value.asBytes, hs, Except.pure_eq_ok]

end Catalog
end Duck
