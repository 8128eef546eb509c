import Duck.Lib.Except
import Mathlib.Data.List.Forall2
import Duck.Tuple.Theorems.NullBitmap

namespace Duck

-- Two values of one column that differ at most in the trailing NULs of a CHAR.
def Value.Same (type : TypeId) : Value → Value → Prop
  | .string s, .string s' => if type = .char then s.rdropWhile (· = 0) = s'.rdropWhile (· = 0) else s = s'
  | v,         v'         => v = v'

theorem Value.Same.refl {v : Value} {type : TypeId} : v.Same type v := by
  cases v <;> simp [Value.Same]

namespace Tuple

variable {c : Column} {v w : Value} {raw pre enc post : List UInt8}

section columns

-- The bytes of the value itself.
def payload (v : Value) : List UInt8 :=
  if v.isNull then [] else v.serializeTo

theorem serializeTo_length : v.serializeTo.length = v.serializedSize := by
  cases v <;> simp [Value.serializeTo, Value.serializedSize, Bytes.le_length]

def fixedOf (c : Column) : ℕ :=
  (Schema.fixedSizeOf c).getD 0

theorem fixedSize_eq (hv : c.type.toValueType = some t) : fixedSize c = .ok (fixedOf c) := by
  simp only [fixedSize, fixedOf, Schema.fixedSizeOf]
  cases hc : c.type <;> simp_all [TypeId.toValueType]

theorem fixedOf_of_not_fixed (h : ¬c.isFixedSize) : fixedOf c = 0 := by
  simp only [fixedOf, Schema.fixedSizeOf]
  cases hc : c.type <;> simp_all [Column.isFixedSize]

-- A CHAR column of declared length 0 is of fixed size for the encoder only.
def EmptyChar (c : Column) : Prop :=
  c.type = .char ∧ c.length = 0

instance : Decidable (EmptyChar c) :=
  inferInstanceAs (Decidable (_ ∧ _))

theorem fixedOf_pos (h : c.isFixedSize) (hc : ¬EmptyChar c) : 0 < fixedOf c := by
  have hn : c.type = .char → 0 < c.length.toNat := fun ht => by
    have : c.length ≠ 0 := fun hl => hc ⟨ht, hl⟩
    have := mt UInt16.toNat_inj.mp this
    exact Nat.pos_of_ne_zero this
  simp only [fixedOf, Schema.fixedSizeOf]
  cases ht : c.type <;> simp_all [Column.isFixedSize]

theorem fixedOf_emptyChar (h : EmptyChar c) : c.isFixedSize ∧ fixedOf c = 0 := by
  simp [Column.isFixedSize, fixedOf, Schema.fixedSizeOf, h.1, h.2]

theorem serializeColumn_fixed (hf : c.isFixedSize) (h : serializeColumn c v = .ok enc) :
    enc = payload v ++ List.replicate (fixedOf c - (payload v).length) 0 := by
  have ⟨_, _, h⟩ := Except.bind_eq_ok.mp h
  simpa [hf, payload, fixedOf] using h.symm

theorem serializeColumn_variable (hf : ¬c.isFixedSize) (h : serializeColumn c v = .ok enc) :
    enc = Bytes.le 2 ((payload v).length % 65536) ++ payload v := by
  have ⟨_, _, h⟩ := Except.bind_eq_ok.mp h
  rw [if_neg hf, Except.pure_eq_ok, Except.ok.injEq] at h
  rw [←h]
  cases hn : v.isNull <;> simp [payload, hn, serializeTo_length]

theorem payload_le_fixedOf (hv : c.type.toValueType = some v.type) (hf : c.isFixedSize)
    (h : serializeColumn c v = .ok enc) : (payload v).length ≤ fixedOf c := by
  have ⟨_, hs, _⟩ := Except.bind_eq_ok.mp h
  cases hn : v.isNull
  case true  => simp [payload, hn]
  case false =>
    have hp : (payload v).length = v.serializedSize := by simp [payload, hn, serializeTo_length]
    rw [hp]
    cases hc : c.type
    case char =>
      have ht : v.type = .string := by simpa [hc, TypeId.toValueType] using hv.symm
      simp only [checkSize, hn, hc] at hs
      simp only [fixedOf, Schema.fixedSizeOf, hc, Option.getD_some]
      by_contra hlt
      have hlt := Nat.lt_of_not_le hlt
      simp [hlt] at hs
    all_goals
      cases v <;> simp_all [TypeId.toValueType, Value.type, Value.serializedSize, fixedOf,
        Schema.fixedSizeOf, Column.isFixedSize]

theorem serializeColumn_fixed_length (hv : c.type.toValueType = some v.type) (hf : c.isFixedSize)
    (h : serializeColumn c v = .ok enc) : enc.length = fixedOf c := by
  have := payload_le_fixedOf hv hf h
  simp only [serializeColumn_fixed hf h, List.length_append, List.length_replicate]
  omega

end columns

section reads

theorem readBytes_middle (pre enc post : List UInt8) :
    readBytes (pre ++ enc ++ post) pre.length enc.length = .ok enc := by
  simp [readBytes]

theorem readLength_middle (pre enc post : List UInt8) (h : n < 65536) :
    readLength (pre ++ (Bytes.le 2 n ++ enc) ++ post) pre.length = .ok n := by
  have hr := readBytes_middle pre (Bytes.le 2 n) (enc ++ post)
  rw [Bytes.le_length] at hr
  simp only [readLength, List.append_assoc] at hr ⊢
  rw [hr, Except.map_ok, Bytes.readLE_le (by simpa using h)]

end reads

-- The decoder takes each column for as long as the encoder made it.
theorem columnSize_eq (hv : c.type.toValueType = some v.type) (hc : ¬EmptyChar c)
    (h : serializeColumn c v = .ok enc) (hl : (pre ++ enc ++ post).length < 65536) :
    columnSize (pre ++ enc ++ post) c pre.length = .ok enc.length := by
  simp only [List.length_append] at hl
  have hm : pre.length % 65536 = pre.length := Nat.mod_eq_of_lt (by omega)
  simp only [columnSize, fixedSize_eq hv, Except.ok_bind, hm]
  by_cases hf : c.isFixedSize
  case pos =>
    rw [if_pos (fixedOf_pos hf hc), serializeColumn_fixed_length hv hf h]
    rfl
  case neg =>
    have he := serializeColumn_variable hf h
    have hlen := congrArg List.length he
    simp only [List.length_append, Bytes.le_length] at hlen
    have hn : (payload v).length < 65536 := by omega
    have hr := readLength_middle pre (payload v) post hn
    rw [Nat.mod_eq_of_lt hn] at he
    rw [←he] at hr
    simp [fixedOf_of_not_fixed hf, hr, hlen, Nat.add_comm, -List.append_assoc]

theorem computeOffsets_cons (hv : c.type.toValueType = some v.type) (hc : ¬EmptyChar c)
    (h : serializeColumn c v = .ok enc) (hl : (pre ++ enc ++ post).length < 65536) :
    computeOffsets (pre ++ enc ++ post) (c :: cs) pre.length =
      (pre.length :: ·) <$> computeOffsets (pre ++ enc ++ post) cs (pre.length + enc.length) := by
  have hs := columnSize_eq hv hc h hl
  simp only [List.length_append] at hl
  have hm : pre.length % 65536 = pre.length := Nat.mod_eq_of_lt (by omega)
  simp only [computeOffsets, hs, Except.ok_bind, hm]
  rfl

section decode

theorem rdropWhile_replicate (s : List UInt8) (n : ℕ) :
    (s ++ List.replicate n 0).rdropWhile (· = 0) = s.rdropWhile (· = 0) := by
  induction n
  case zero      => simp
  case succ n hi =>
    rw [List.replicate_succ', ←List.append_assoc, List.rdropWhile_concat_pos _ _ _ (by simp), hi]

theorem rdropWhile_rdropWhile (s : List UInt8) :
    (s.rdropWhile (· = 0)).rdropWhile (· = 0) = s.rdropWhile (· = 0) :=
  List.rdropWhile_idempotent _ _

theorem ofNat_readLE_le64 (v : UInt64) : UInt64.ofNat (Bytes.readLE (Bytes.le 8 v.toNat)) = v := by
  rw [Bytes.readLE_le (by simpa using v.toNat_lt), UInt64.ofNat_toNat]

theorem ofNat_readLE_le32 (v : UInt32) : UInt32.ofNat (Bytes.readLE (Bytes.le 4 v.toNat)) = v := by
  rw [Bytes.readLE_le (by simpa using v.toNat_lt), UInt32.ofNat_toNat]

theorem decode_fixed (hv : c.type.toValueType = some v.type) (hn : v.isNull = false)
    (hf : c.isFixedSize) (h : serializeColumn c v = .ok enc) :
    ∃ w, decode c.type enc = .ok w ∧ v.Same c.type w := by
  have hp : payload v = v.serializeTo := by simp [payload, hn]
  have he := serializeColumn_fixed hf h
  rw [hp] at he
  cases v
  case null => exact nomatch hn
  case string s =>
    have hc : c.type = .char := by
      cases hc : c.type <;> simp_all [TypeId.toValueType, Value.type, Column.isFixedSize]
    rw [he, hc]
    refine ⟨_, rfl, ?_⟩
    simp only [Value.Same, if_true, Value.serializeTo, rdropWhile_replicate, rdropWhile_rdropWhile]
  case bytes b =>
    cases hc : c.type <;> simp_all [TypeId.toValueType, Value.type, Column.isFixedSize]
  all_goals
    have hlen := serializeColumn_fixed_length hv hf h
    cases hc : c.type <;> simp only [hc, TypeId.toValueType, Value.type, reduceCtorEq, Option.some.injEq] at hv
    refine ⟨_, rfl, ?_⟩
    simp only [he, Value.Same, Value.serializeTo, fixedOf, Schema.fixedSizeOf, hc, Bytes.le_length,
      Option.getD_some, Nat.sub_self, List.replicate_zero, List.append_nil, ofNat_readLE_le64,
      ofNat_readLE_le32, Int64.toInt64_toUInt64, Int32.toInt32_toUInt32]
  case bool v => cases v <;> rfl

theorem decode_variable (hv : c.type.toValueType = some v.type) (hn : v.isNull = false)
    (hf : ¬c.isFixedSize) : decode c.type (payload v) = .ok v := by
  cases v <;> cases hc : c.type <;>
    simp_all [TypeId.toValueType, Value.type, Value.isNull, Column.isFixedSize, payload, decode,
      Value.serializeTo]

-- The bit that the decoder looks at tells whether the value is null.
def NullAt (raw : List UInt8) (index : ℕ) (v : Value) : Prop :=
  ∃ byte, readBytes raw (index / 8) 1 = .ok [byte] ∧ NullBitmap.isNull byte index = v.isNull

theorem deserializeValue_same (hv : c.type.toValueType = some v.type)
    (h : serializeColumn c v = .ok enc) (hl : (pre ++ enc ++ post).length < 65536)
    (hb : NullAt (pre ++ enc ++ post) index v) :
    ∃ w, deserializeValue (pre ++ enc ++ post) index pre.length c = .ok w ∧ v.Same c.type w := by
  have ⟨byte, hr, hbit⟩ := hb
  simp only [deserializeValue, hr, Except.ok_bind, List.any_cons, List.any_nil, Bool.or_false, hbit,
    hv, fixedSize_eq hv]
  cases hn : v.isNull
  case true =>
    cases v
    case null t => exact ⟨_, rfl, rfl⟩
    all_goals exact nomatch hn
  case false =>
    simp only [Bool.false_eq_true, if_false]
    by_cases hf : c.isFixedSize
    case pos =>
      have ⟨w, hd, hs⟩ := decode_fixed hv hn hf h
      have hm := readBytes_middle pre enc post
      rw [serializeColumn_fixed_length hv hf h] at hm
      exact ⟨w, by simp only [hf, if_true, hm, Except.ok_bind, hd], hs⟩
    case neg =>
      have he := serializeColumn_variable hf h
      have hn' := congrArg List.length he
      simp only [List.length_append, Bytes.le_length] at hn' hl
      have hp : (payload v).length < 65536 := by omega
      rw [Nat.mod_eq_of_lt hp] at he
      have hr := readLength_middle pre (payload v) post hp
      have hm := readBytes_middle (pre ++ Bytes.le 2 (payload v).length) (payload v) post
      rw [List.append_assoc pre, ←he] at hm
      rw [←he] at hr
      rw [List.length_append, Bytes.le_length] at hm
      have ho : (pre.length + 2) % 65536 = pre.length + 2 := Nat.mod_eq_of_lt (by omega)
      refine ⟨v, ?_, ?_⟩
      · simp only [hf, if_false, hr, Except.ok_bind, ho, hm, decode_variable hv hn hf, Bool.false_eq_true]
      · exact .refl

end decode

section tuples

-- The decoder's two loops over the columns, where `pre` stands before them.
theorem deserializeValues_same {cs : List Column} {vs : List Value}
    (ht : List.Forall₂ (fun v c => c.type.toValueType = some v.type) vs cs)
    (hc : ∀ c ∈ cs, ¬EmptyChar c) (h : serializeColumns cs vs = .ok enc)
    (hl : (pre ++ enc).length < 65536)
    (hb : ∀ {i v}, vs[i]? = some v → NullAt (pre ++ enc) (index + i) v) :
    ∃ offsets ws, computeOffsets (pre ++ enc) cs pre.length = .ok offsets ∧
      deserializeValues (pre ++ enc) cs offsets index = .ok ws ∧
      List.Forall₂ (fun (c, v) w => v.Same c.type w) (cs.zip vs) ws := by
  induction ht generalizing pre enc index
  case nil => exact ⟨[], [], rfl, rfl, .nil⟩
  case cons v c vs cs hv _ hi =>
    have ⟨e, he, h⟩ := Except.bind_eq_ok.mp h
    have ⟨es, hes, h⟩ := Except.bind_eq_ok.mp h
    obtain rfl : e ++ es = enc := by simpa using h
    rw [←List.append_assoc] at hl hb ⊢
    have ⟨hc, hcs⟩ := List.forall_mem_cons.mp hc
    have hnext : ∀ {i v}, vs[i]? = some v → NullAt (pre ++ e ++ es) (index + 1 + i) v := by
      intro i v hi
      have := hb (i := i + 1) (by simpa using hi)
      rwa [Nat.add_comm i 1, ←Nat.add_assoc] at this
    have ⟨os, ws, ho, hd, hs⟩ := hi hcs hes hl hnext
    have ⟨w, hw, hsame⟩ := deserializeValue_same hv he hl (hb (i := 0) rfl)
    rw [List.length_append] at ho
    refine ⟨pre.length :: os, w :: ws, ?_, ?_, .cons hsame hs⟩
    · rw [computeOffsets_cons hv hc he hl, ho]
      rfl
    · rw [Nat.add_zero] at hw
      simp only [deserializeValues, hw, hd, Except.ok_bind, Except.pure_eq_ok]

theorem ofValues_eq_ok {values : List Value} {schema : Schema} {t : Tuple} :
    ofValues values schema = .ok t ↔ t = ⟨schema, values⟩ ∧ t.Typed := by
  have ht : (Tuple.mk schema values).Typed ↔ values.length = schema.columnCount ∧
      (values.zip schema.columns).all fun x => x.2.type.toValueType = some x.1.type := by
    refine ⟨fun h => ?_, fun h => ⟨?_⟩⟩
    · obtain ⟨hl, hz⟩ := List.forall₂_iff_zip.mp h.types
      exact ⟨hl, List.all_eq_true.mpr fun x hm => by simpa using hz hm⟩
    · refine List.forall₂_iff_zip.mpr ⟨h.1, fun {v c} hm => ?_⟩
      simpa using List.all_eq_true.mp h.2 (v, c) hm
  simp only [ofValues]
  split_ifs with hl hz
  case pos =>
    refine ⟨fun h => ?_, fun h => absurd (ht.mp (h.1 ▸ h.2)).1 hl⟩
    cases h
  case pos =>
    rw [Except.ok.injEq]
    exact ⟨fun h => h ▸ ⟨rfl, ht.mpr ⟨not_not.mp hl, hz⟩⟩, fun h => h.1.symm⟩
  case neg =>
    refine ⟨fun h => ?_, fun h => absurd (ht.mp (h.1 ▸ h.2)).2 hz⟩
    cases h

-- Decoding what the tuple is encoded to, where a heap admits it, reads nothing outside the bytes and
-- gives the tuple back.
def RoundTrips (t : Tuple) : Prop :=
  ∀ {bytes}, t.serialize = .ok bytes → bytes.length ≤ 8180 →
    ∃ t', deserialize bytes t.schema = .ok t' ∧ t'.schema = t.schema ∧
      List.Forall₂ (fun (c, v) w => v.Same c.type w) (t.schema.columns.zip t.values) t'.values

theorem nullAt_nullBitmap {values : List Value} (h : values[i]? = some v) :
    NullAt (nullBitmap values ++ enc) i v := by
  have ⟨hi, _⟩ := List.getElem?_eq_some_iff.mp h
  have hlt : i / 8 < (nullBitmap values).length := by
    simp only [nullBitmap_length, NullBitmap.size]
    omega
  have hb := bit_nullBitmap h
  rw [NullBitmap.bit, List.getElem?_eq_getElem hlt] at hb
  refine ⟨(nullBitmap values)[i / 8], ?_, by simpa using hb⟩
  have hle : i / 8 + 1 ≤ (nullBitmap values ++ enc).length := by
    rw [List.length_append]
    omega
  rw [readBytes, if_pos hle, List.drop_append_of_le_length hlt.le, List.drop_eq_getElem_cons hlt]
  rfl

theorem Typed.roundTrips {t : Tuple} (ht : t.Typed) (hc : ∀ c ∈ t.schema.columns, ¬EmptyChar c) :
    t.RoundTrips := by
  intro bytes h hl
  have ⟨enc, he, h⟩ := Except.bind_eq_ok.mp h
  obtain rfl : nullBitmap t.values ++ enc = bytes := by simpa using h
  have hb : ∀ {i v}, t.values[i]? = some v → NullAt (nullBitmap t.values ++ enc) (0 + i) v :=
    fun hi => (Nat.zero_add _).symm ▸ nullAt_nullBitmap hi
  have ⟨os, ws, ho, hd, hs⟩ := deserializeValues_same ht.types hc he (by omega) hb
  have hn : (nullBitmap t.values).length = NullBitmap.size t.schema.columnCount := by
    rw [nullBitmap_length, ht.types.length_eq]
    rfl
  rw [hn] at ho
  refine ⟨⟨t.schema, ws⟩, ?_, rfl, hs⟩
  simp only [deserialize, ho, hd, Except.ok_bind, Except.pure_eq_ok]

end tuples

end Tuple
end Duck
