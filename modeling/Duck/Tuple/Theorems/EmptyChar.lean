import Duck.Tuple.Theorems.RoundTrip

namespace Duck

-- The fewest bytes a column and a whole tuple are encoded to.
def Column.minimalSize (c : Column) : ℕ :=
  if c.isFixedSize then Tuple.fixedOf c else 2

def Schema.minimalSize (s : Schema) : ℕ :=
  NullBitmap.size s.columnCount + (s.columns.map Column.minimalSize).sum

namespace Tuple

variable {c : Column} {v : Value} {raw bitmap : List UInt8}

theorem minimalSize_le (hv : c.type.toValueType = some v.type) (h : serializeColumn c v = .ok enc) :
    c.minimalSize ≤ enc.length := by
  by_cases hf : c.isFixedSize
  case pos => simp [Column.minimalSize, hf, serializeColumn_fixed_length hv hf h]
  case neg => simp [Column.minimalSize, hf, serializeColumn_variable hf h, Bytes.le_length]

theorem sum_minimalSize_le {cs : List Column} {vs : List Value}
    (ht : List.Forall₂ (fun v c => c.type.toValueType = some v.type) vs cs)
    (h : serializeColumns cs vs = .ok enc) : (cs.map Column.minimalSize).sum ≤ enc.length := by
  induction ht generalizing enc
  case nil => exact Nat.zero_le _
  case cons v c vs cs hv _ hi =>
    have ⟨e, he, h⟩ := Except.bind_eq_ok.mp h
    have ⟨es, hes, h⟩ := Except.bind_eq_ok.mp h
    obtain rfl : e ++ es = enc := by simpa using h
    have := minimalSize_le hv he
    have := hi hes
    simp only [List.map_cons, List.sum_cons, List.length_append]
    omega

theorem Typed.minimalSize_le {t : Tuple} (ht : t.Typed) (h : t.serialize = .ok bytes) :
    t.schema.minimalSize ≤ bytes.length := by
  have ⟨enc, he, h⟩ := Except.bind_eq_ok.mp h
  obtain rfl : nullBitmap t.values ++ enc = bytes := by simpa using h
  have := sum_minimalSize_le ht.types he
  have hl := ht.types.length_eq
  simp only [Schema.minimalSize, Schema.columnCount, List.length_append, nullBitmap_length, hl]
  omega

section blank

-- The value of a type that is all zero bytes.
def zeroOf : ValueType → Value
  | .int64  => .int64 0
  | .uint64 => .uint64 0
  | .int32  => .int32 0
  | .uint32 => .uint32 0
  | .double => .double 0
  | .float  => .float 0
  | .bool   => .bool false
  | .string => .string []
  | .bytes  => .bytes []

-- Null values up to the last column.
def blank : List ValueType → List Value
  | []           => []
  | [t]          => [zeroOf t]
  | t :: u :: ts => .null t :: blank (u :: ts)

theorem zeroOf_type (t : ValueType) : (zeroOf t).type = t := by
  cases t <;> rfl

theorem blank_typed {cs : List Column} {ts : List ValueType}
    (ht : List.Forall₂ (fun t c => c.type.toValueType = some t) ts cs) :
    List.Forall₂ (fun v c => c.type.toValueType = some v.type) (blank ts) cs := by
  induction ht
  case nil => exact .nil
  case cons t c ts cs h hs hi =>
    cases hs
    case nil  => exact .cons (by rwa [zeroOf_type]) .nil
    case cons => exact .cons h hi

theorem serializeColumn_blank (hc : c.type.toValueType = some t) (hv : v = .null t ∨ v = zeroOf t) :
    serializeColumn c v = .ok (List.replicate c.minimalSize 0) := by
  obtain rfl | rfl := hv
  case inl =>
    simp only [serializeColumn, checkSize, Value.isNull, Column.minimalSize, fixedOf]
    cases c.isFixedSize <;> simp [Bytes.le]
  case inr =>
    have h₃₂ : Int32.toUInt32 0 = 0 := rfl
    have h₆₄ : Int64.toUInt64 0 = 0 := rfl
    cases ht : c.type <;> simp only [ht, TypeId.toValueType, Option.some.injEq, reduceCtorEq] at hc
    all_goals
      subst hc
      simp [serializeColumn, checkSize, Column.minimalSize, Column.isFixedSize, ht, zeroOf, fixedOf,
        Value.isNull, Schema.fixedSizeOf, Value.serializeTo, Value.serializedSize, Bytes.le, h₃₂, h₆₄]

theorem serializeColumns_blank {cs : List Column} {ts : List ValueType}
    (ht : List.Forall₂ (fun t c => c.type.toValueType = some t) ts cs) :
    serializeColumns cs (blank ts) = .ok (List.replicate (cs.map Column.minimalSize).sum 0) := by
  induction ht
  case nil => rfl
  case cons t c ts cs h hs hi =>
    rw [List.map_cons, List.sum_cons, List.replicate_add]
    cases hs
    case nil  => simp [blank, serializeColumns, serializeColumn_blank h (.inr rfl)]
    case cons => simp only [blank, serializeColumns, serializeColumn_blank h (.inl rfl), hi,
      Except.ok_bind, Except.pure_eq_ok]

end blank

section decode

theorem readBytes_outside (h : raw.length < offset + size) : readBytes raw offset size = .error .outside :=
  if_neg (by omega)

theorem readLength_outside (h : raw.length < offset + 2) : readLength raw offset = .error .outside := by
  simp only [readLength, readBytes_outside h]
  rfl

theorem readLength_zeros (h : bitmap.length ≤ offset)
    (hl : offset + 2 ≤ (bitmap ++ List.replicate n 0).length) :
    readLength (bitmap ++ List.replicate n 0) offset = .ok 0 := by
  have hr : readBytes (bitmap ++ List.replicate n 0) offset 2 = .ok (List.replicate 2 0) := by
    simp only [readBytes, if_pos hl, List.drop_append, List.drop_of_length_le h, List.nil_append,
      List.drop_replicate, List.take_replicate]
    simp only [List.length_append, List.length_replicate] at hl
    rw [Nat.min_eq_left (by omega)]
  rw [readLength, hr]
  rfl

-- Before the last column every value is null.
theorem deserializeValue_null (hc : c.type.toValueType = some t) (hb : NullAt raw index (.null t))
    (offset : ℕ) :
    deserializeValue raw index offset c = .ok (.null t) := by
  have ⟨byte, hr, hbit⟩ := hb
  simp [deserializeValue, hr, hbit, hc, Value.isNull]

theorem zeroOf_isNull (t : ValueType) : (zeroOf t).isNull = false := by
  cases t <;> rfl

theorem deserializeValue_outside (hc : c.type.toValueType = some t) (hb : NullAt raw index (zeroOf t))
    (hf : c.isFixedSize) (h : raw.length < offset + fixedOf c) :
    deserializeValue raw index offset c = .error .outside := by
  have ⟨byte, hr, hbit⟩ := hb
  simp [deserializeValue, hr, hbit, hc, zeroOf_isNull, fixedSize_eq hc, hf, readBytes_outside h]

theorem fails_cons (hd : deserializeValue raw index offset c = .ok v)
    (h : (do deserializeValues raw cs (← computeOffsets raw cs next) (index + 1)) = .error .outside) :
    (do deserializeValues raw (c :: cs) (offset :: (← computeOffsets raw cs next)) index) =
      .error .outside := by
  cases ho : computeOffsets raw cs next
  case error e =>
    rw [ho] at h
    exact h
  case ok os =>
    simp only [ho, Except.ok_bind] at h
    simp only [Except.ok_bind, deserializeValues, hd, h, Except.error_bind]

theorem emptyChar_of_fixedOf (hf : c.isFixedSize) (h : ¬0 < fixedOf c) : EmptyChar c := by
  by_contra hc
  exact h (fixedOf_pos hf hc)

-- What the decoder takes for the size of a column of a blank tuple is never less than the encoder
-- wrote, and more for CHAR(0).
theorem columnSize_blank (hc : c.type.toValueType = some t) (hmap : bitmap.length ≤ offset)
    (ho : offset < 65536) :
    let raw := bitmap ++ List.replicate n 0
    (columnSize raw c offset = .error .outside ∧ raw.length < offset + 2 ∧ ¬0 < fixedOf c) ∨
    ∃ size, columnSize raw c offset = .ok size ∧
      (0 < fixedOf c ∧ c.isFixedSize ∧ ¬EmptyChar c ∧ size = fixedOf c ∧ c.minimalSize = size ∨
        offset + size ≤ raw.length ∧ size = 2 ∧ c.minimalSize ≤ size ∧
          (EmptyChar c ∧ c.minimalSize = 0 ∨ ¬EmptyChar c ∧ c.minimalSize = 2)) := by
  intro raw
  have hm : offset % 65536 = offset := Nat.mod_eq_of_lt ho
  simp only [columnSize, fixedSize_eq hc, Except.ok_bind, hm]
  by_cases hz : 0 < fixedOf c
  case pos =>
    have hf : c.isFixedSize := by
      by_contra hf
      simp [fixedOf_of_not_fixed hf] at hz
    have he : ¬EmptyChar c := fun he => by simp [(fixedOf_emptyChar he).2] at hz
    exact .inr ⟨fixedOf c, if_pos hz, .inl ⟨hz, hf, he, rfl, by simp [Column.minimalSize, hf]⟩⟩
  case neg =>
    by_cases hr : offset + 2 ≤ raw.length
    case neg =>
      refine .inl ⟨?_, by omega, hz⟩
      rw [if_neg hz, readLength_outside (by omega)]
      rfl
    case pos =>
      have hread := readLength_zeros hmap hr
      have hsize : EmptyChar c ∧ c.minimalSize = 0 ∨ ¬EmptyChar c ∧ c.minimalSize = 2 := by
        by_cases he : EmptyChar c
        case pos => exact .inl ⟨he, by simp [Column.minimalSize, fixedOf_emptyChar he]⟩
        case neg =>
          have hf := mt (emptyChar_of_fixedOf · hz) he
          exact .inr ⟨he, by simp [Column.minimalSize, hf]⟩
      refine .inr ⟨2, ?_, .inr ⟨hr, rfl, by omega, hsize⟩⟩
      rw [if_neg hz, hread]
      rfl

-- The decoder does not get through a blank tuple once it is ahead of the encoder, or has a CHAR(0)
-- column to come. The encoder is at `pos`, the decoder at `offset`.
theorem blank_fails {cs : List Column} {ts : List ValueType}
    (ht : List.Forall₂ (fun t c => c.type.toValueType = some t) ts cs) (hcs : cs ≠ [])
    (hraw : raw = bitmap ++ List.replicate n 0) (hl : raw.length ≤ 8180)
    (hpos : pos + (cs.map Column.minimalSize).sum = raw.length) (hmap : bitmap.length ≤ pos)
    (hle : pos ≤ offset) (hoff : offset ≤ pos + raw.length)
    (hbad : pos < offset ∨ ∃ c ∈ cs, EmptyChar c)
    (hb : ∀ {i v}, (blank ts)[i]? = some v → NullAt raw (index + i) v) :
    (do deserializeValues raw cs (← computeOffsets raw cs offset) index) = .error .outside := by
  induction ht generalizing pos offset index
  case nil => exact absurd rfl hcs
  case cons t c ts cs hc hs hi =>
    rw [List.map_cons, List.sum_cons] at hpos
    have hm : offset % 65536 = offset := Nat.mod_eq_of_lt (by omega)
    have hbad : pos < offset ∨ EmptyChar c ∨ ∃ c ∈ cs, EmptyChar c := by simpa using hbad
    have hstep := columnSize_blank (n := n) hc (hmap.trans hle) (by omega)
    rw [←hraw] at hstep
    simp only [computeOffsets, hm, bind_assoc, Except.pure_eq_ok]
    obtain ⟨hr, _⟩ | ⟨size, hr, hsize⟩ := hstep
    case inl => rw [hr, Except.error_bind]
    case inr =>
      rw [hr]
      simp only [Except.ok_bind]
      cases hs
      case cons t' c' ts cs hc' hs =>
        have hd := deserializeValue_null hc (hb (i := 0) rfl) offset
        have hlt : pos + c.minimalSize ≤ offset + size ∧
            (EmptyChar c → pos + c.minimalSize < offset + size) ∧
            offset + size ≤ pos + c.minimalSize + raw.length := by
          obtain ⟨_, _, he, _, _⟩ | ⟨_, _, _, hmin⟩ := hsize
          · exact ⟨by omega, fun h => absurd h he, by omega⟩
          · refine ⟨by omega, fun h => ?_, by omega⟩
            have := hmin.resolve_right fun h' => h'.1 h
            omega
        refine fails_cons hd <| hi (List.cons_ne_nil _ _) (by omega) (by omega) hlt.1 hlt.2.2 ?_ ?_
        · obtain h | h | h := hbad
          · exact .inl (by omega)
          · exact .inl (hlt.2.1 h)
          · exact .inr h
        · intro i v hv
          have := hb (i := i + 1) (by simpa [blank] using hv)
          rwa [Nat.add_comm i 1, ←Nat.add_assoc] at this
      case nil =>
        -- The last value is not null, and it is not where the decoder looks.
        have hlt : EmptyChar c ∨ pos < offset := by
          obtain h | h | ⟨_, h, _⟩ := hbad
          · exact .inr h
          · exact .inl h
          · cases h
        simp only [List.map_nil, List.sum_nil] at hpos
        obtain ⟨_, hf, he, hs, hmin⟩ | ⟨_, _, _, ⟨_, _⟩ | ⟨he, _⟩⟩ := hsize
        case inr.inl => omega
        case inr.inr =>
          have := hlt.resolve_left he
          omega
        case inl =>
          have hout : raw.length < offset + fixedOf c := by
            have := hlt.resolve_left he
            omega
          have hd := deserializeValue_outside hc (hb (i := 0) rfl) hf hout
          rw [Nat.add_zero] at hd
          simp only [computeOffsets, Except.pure_eq_ok, Except.ok_bind, deserializeValues, hd,
            Except.error_bind]

end decode

theorem exists_types {cs : List Column} (h : ∀ c ∈ cs, c.type.toValueType ≠ none) :
    ∃ ts, List.Forall₂ (fun t c => c.type.toValueType = some t) ts cs := by
  induction cs
  case nil => exact ⟨[], .nil⟩
  case cons c cs hi =>
    have ⟨hc, hcs⟩ := List.forall_mem_cons.mp h
    have ⟨t, ht⟩ := Option.ne_none_iff_exists'.mp hc
    have ⟨ts, hts⟩ := hi hcs
    exact ⟨t :: ts, .cons ht hts⟩

theorem blank_not_roundTrips {s : Schema} {ts : List ValueType}
    (ht : List.Forall₂ (fun t c => c.type.toValueType = some t) ts s.columns)
    (hs : s.minimalSize ≤ 8180) (he : ∃ c ∈ s.columns, EmptyChar c) :
    ¬RoundTrips ⟨s, blank ts⟩ := by
  intro hr
  have htyped := blank_typed ht
  have hn : (nullBitmap (blank ts)).length = NullBitmap.size s.columnCount := by
    rw [nullBitmap_length, htyped.length_eq]
    rfl
  have hser : serialize ⟨s, blank ts⟩ =
      .ok (nullBitmap (blank ts) ++ List.replicate (s.columns.map Column.minimalSize).sum 0) := by
    simp only [serialize, serializeColumns_blank ht, Except.ok_bind, Except.pure_eq_ok]
  have hl : (nullBitmap (blank ts) ++ List.replicate (s.columns.map Column.minimalSize).sum 0).length =
      s.minimalSize := by
    simp [hn, Schema.minimalSize]
  obtain ⟨t', hd, _⟩ := hr hser (hl.trans_le hs)
  have hne : s.columns ≠ [] := by
    intro hnil
    simp [hnil] at he
  simp only [deserialize] at hd
  obtain ⟨os, ho, hd⟩ := Except.bind_eq_ok.mp hd
  have hb : ∀ {i v}, (blank ts)[i]? = some v → NullAt (nullBitmap (blank ts) ++
      List.replicate (s.columns.map Column.minimalSize).sum 0) (0 + i) v :=
    fun hi => (Nat.zero_add _).symm ▸ nullAt_nullBitmap hi
  have hfail := blank_fails ht hne rfl (hl.trans_le hs) hl.symm hn.le le_rfl (Nat.le_add_right ..)
    (.inr he) hb
  rw [ho, Except.ok_bind] at hfail
  rw [hfail] at hd
  cases hd

-- Every tuple over a schema comes back exactly when the schema has no CHAR(0) column. Over the
-- remaining schemas there is no tuple that a heap admits.
theorem roundTrips_iff (s : Schema) :
    (∀ {values t}, ofValues values s = .ok t → t.RoundTrips) ↔
      (∀ c ∈ s.columns, ¬EmptyChar c) ∨ (∃ c ∈ s.columns, c.type.toValueType = none) ∨
        8180 < s.minimalSize := by
  constructor
  · intro h
    by_contra hc
    simp only [not_or, not_lt] at hc
    have ⟨he, hk, hs⟩ := hc
    have ⟨ts, hts⟩ := exists_types fun c hm hn => hk ⟨c, hm, hn⟩
    have he : ∃ c ∈ s.columns, EmptyChar c := by simpa using he
    exact blank_not_roundTrips hts hs he <| h <| ofValues_eq_ok.mpr ⟨rfl, ⟨blank_typed hts⟩⟩
  · intro h values t hv
    obtain ⟨rfl, ht⟩ := ofValues_eq_ok.mp hv
    obtain h | ⟨c, hm, hn⟩ | h := h
    · exact ht.roundTrips h
    · have ⟨i, hi, hget⟩ := List.mem_iff_getElem.mp hm
      have hlen := ht.types.length_eq
      have := ht.types.get (hlen ▸ hi) hi
      simp [hget, hn] at this
    · intro bytes hs hl
      have : s.minimalSize ≤ bytes.length := ht.minimalSize_le hs
      omega

-- CHAR(0) and an INT32: the decoder takes the first two bytes of the number for a length.
theorem not_roundTrips : ¬∀ {s values t}, ofValues values s = .ok t → t.RoundTrips := by
  intro h
  let s : Schema := ⟨[⟨[], .char, 0⟩, ⟨[], .int32, 0⟩]⟩
  let t : Tuple := ⟨s, [.string [], .int32 5]⟩
  have hs : t.serialize = .ok [0, 5, 0, 0, 0] := by decide
  have hd : deserialize [0, 5, 0, 0, 0] s = .error .outside := by decide
  have ⟨_, ht, _⟩ := h (show ofValues t.values s = .ok t by decide) hs (by decide)
  exact nomatch hd.symm.trans ht

end Tuple
end Duck
