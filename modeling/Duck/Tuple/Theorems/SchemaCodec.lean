import Duck.Lib.Except
import Duck.Tuple.Schema

namespace Duck

namespace TypeId

theorem toCode_lt (t : TypeId) : t.toCode < 65536 := by
  cases t
  case other h => exact h
  all_goals decide

theorem toCode_ofCode (code : ℕ) : (ofCode code).toCode = code % 65536 := by
  simp only [ofCode]
  split <;> simp_all [toCode]

theorem ofCode_toCode (t : TypeId) : ofCode t.toCode = t := by
  cases t
  case other code le lt =>
    have hm : code % 65536 = code := Nat.mod_eq_of_lt lt
    simp only [ofCode, toCode]
    split
    case h_11 hn _ =>
      rw [hm] at hn
      subst hn
      rfl
    all_goals omega
  all_goals rfl

end TypeId

namespace Column

variable {raw : List UInt8} {c : Column}

theorem serialize_length (c : Column) : c.serialize.length = 6 + c.name.length := by
  simp only [serialize, List.length_append, Bytes.le_length]
  omega

-- The four fields, as they stand in the encoding.
theorem deserialize_serialize (h : c.name.length < 65536) (rest : List UInt8) :
    deserialize (c.serialize ++ rest) = .ok (c, c.serialize.length % 65536) := by
  have hl : Bytes.readLE (Bytes.le 2 c.name.length) = c.name.length := Bytes.readLE_le h
  have ht : Bytes.readLE (Bytes.le 2 c.type.toCode) = c.type.toCode := Bytes.readLE_le c.type.toCode_lt
  have hn : Bytes.readLE (Bytes.le 2 c.length.toNat) = c.length.toNat := Bytes.readLE_le c.length.toNat_lt
  have hlen := serialize_length c
  have e₀ : (c.serialize ++ rest).take 2 = Bytes.le 2 c.name.length := by
    simp [serialize]
  have e₁ : ((c.serialize ++ rest).drop 2).take c.name.length = c.name := by
    simp [serialize]
  have e₂ : ((c.serialize ++ rest).drop (2 + c.name.length)).take 2 = Bytes.le 2 c.type.toCode := by
    simp [serialize, List.drop_append, List.take_append]
  have e₃ : ((c.serialize ++ rest).drop (2 + c.name.length + 2)).take 2 = Bytes.le 2 c.length.toNat := by
    rw [serialize, List.append_assoc, List.drop_left' (by simp; omega), List.take_left' Bytes.le_length]
  have h₀ : ¬(c.serialize ++ rest).length < 2 := by
    rw [List.length_append]
    omega
  have h₁ : ¬(c.serialize ++ rest).length < 2 + c.name.length + 4 := by
    rw [List.length_append]
    omega
  have hs : (2 + c.name.length + 2 + 2) % 65536 = c.serialize.length % 65536 := by
    rw [hlen]
    congr 1
    omega
  simp only [deserialize, if_neg h₀, e₀, hl, if_neg h₁, e₁, e₂, e₃, ht, hn, TypeId.ofCode_toCode,
    UInt16.ofNat_toNat, hs]

theorem take_append_drop_add (i j : ℕ) : (raw.drop i).take j ++ raw.drop (i + j) = raw.drop i := by
  rw [←List.drop_drop, List.take_append_drop]

theorem le_readLE_take (h : 2 ≤ raw.length) : Bytes.le 2 (Bytes.readLE (raw.take 2)) = raw.take 2 := by
  have := Bytes.le_readLE (raw.take 2)
  rwa [List.length_take, Nat.min_eq_left h] at this

theorem readLE_take_lt (raw : List UInt8) : Bytes.readLE (raw.take 2) < 65536 := by
  have hp := Nat.pow_le_pow_right (show 0 < 256 by decide) (raw.length_take_le 2)
  exact Nat.lt_of_lt_of_le (Bytes.readLE_lt _) hp

-- What is decoded stands at the front of the bytes.
theorem prefix_of_deserialize (h : deserialize raw = .ok (c, n)) :
    c.name.length < 65536 ∧ c.serialize <+: raw ∧ n = c.serialize.length % 65536 := by
  rw [serialize_length]
  simp only [deserialize] at h
  split_ifs at h with h₀ h₁
  simp only [Except.ok.injEq, Prod.mk.injEq] at h
  obtain ⟨rfl, rfl⟩ := h
  generalize hm : Bytes.readLE (raw.take 2) = m at *
  have hlt : m < 65536 := hm ▸ readLE_take_lt raw
  have hname : ((raw.drop 2).take m).length = m := by
    rw [List.length_take, List.length_drop]
    omega
  have ht := readLE_take_lt (raw.drop (2 + m))
  have hl := readLE_take_lt (raw.drop (2 + m + 2))
  refine ⟨hname.symm ▸ hlt, List.prefix_iff_eq_append.mpr ?_, ?_⟩
  · simp only [serialize_length, hname]
    simp only [serialize, hname, TypeId.toCode_ofCode, Nat.mod_eq_of_lt ht, UInt16.toNat_ofNat',
      Nat.mod_eq_of_lt hl]
    rw [le_readLE_take (by simp; omega), le_readLE_take (by simp; omega), ←hm,
      le_readLE_take (by omega), hm, show 6 + m = 2 + m + 2 + 2 by omega]
    simp only [List.append_assoc, take_append_drop_add, List.take_append_drop]
  · simp only [hname]
    congr 1
    omega

theorem deserialize_eq_ok :
    deserialize raw = .ok (c, n) ↔
      c.name.length < 65536 ∧ c.serialize <+: raw ∧ n = c.serialize.length % 65536 := by
  refine ⟨prefix_of_deserialize, fun ⟨hn, ⟨rest, hr⟩, hs⟩ => ?_⟩
  rw [←hr, hs]
  exact deserialize_serialize hn rest

end Column

namespace Schema

open Column

variable {raw : List UInt8} {cs : List Column}

-- Each column and the place where its encoding starts when the first one starts at `o`.
def Along (P : Column → ℕ → Prop) : List Column → (o : ℕ) → Prop
  | [],      _ => True
  | c :: cs, o => P c o ∧ Along P cs (o + c.serialize.length)

theorem along_iff :
    Along P cs o ↔
      ∀ i c, cs[i]? = some c → P c (o + ((cs.take i).flatMap Column.serialize).length) := by
  induction cs generalizing o
  case nil          => simp [Along]
  case cons d cs hi =>
    simp only [Along, hi]
    refine ⟨fun ⟨hd, hcs⟩ i c hc => ?_, fun h => ⟨?_, fun i c hc => ?_⟩⟩
    · cases i
      case zero   =>
        obtain rfl : d = c := by simpa using hc
        simpa using hd
      case succ i => simpa [Nat.add_assoc] using hcs i c (by simpa using hc)
    · simpa using h 0 d rfl
    · simpa [Nat.add_assoc] using h (i + 1) c (by simpa using hc)

theorem Along.mono (h : ∀ c ∈ cs, ∀ {o}, P c o → Q c o) (ha : Along P cs o) : Along Q cs o := by
  induction cs generalizing o
  case nil          => trivial
  case cons c cs hi =>
    have ⟨hc, hcs⟩ := List.forall_mem_cons.mp h
    exact ⟨hc ha.1, hi hcs ha.2⟩

-- What the decoder asks of a column at the offset that it keeps in 16 bits.
def Placed (raw : List UInt8) (c : Column) (o : ℕ) : Prop :=
  c.name.length < 65536 ∧ c.serialize <+: raw.drop (o % 65536)

theorem deserializeColumns_eq_ok :
    deserializeColumns raw n (o % 65536) = .ok cs ↔ cs.length = n ∧ Along (Placed raw) cs o := by
  induction n generalizing o cs
  case zero      => cases cs <;> simp [deserializeColumns, Along]
  case succ n hi =>
    simp only [deserializeColumns]
    have hnext : ∀ c : Column,
        (o % 65536 + c.serialize.length % 65536) % 65536 = (o + c.serialize.length) % 65536 :=
      fun c => (Nat.add_mod ..).symm
    refine ⟨fun h => ?_, fun ⟨hn, h⟩ => ?_⟩
    · split_ifs at h
      have ⟨⟨c, size⟩, hc, h⟩ := Except.bind_eq_ok.mp h
      have ⟨cs', hcs, h⟩ := Except.bind_eq_ok.mp h
      obtain ⟨hname, hpre, rfl⟩ := deserialize_eq_ok.mp hc
      obtain rfl : c :: cs' = cs := by simpa using h
      have hcs : deserializeColumns raw n ((o % 65536 + c.serialize.length % 65536) % 65536) = .ok cs' := hcs
      rw [hnext] at hcs
      have ⟨hn, ha⟩ := hi.mp hcs
      exact ⟨congrArg (· + 1) hn, ⟨hname, hpre⟩, ha⟩
    · cases cs
      case nil       => exact nomatch hn
      case cons c cs =>
        obtain ⟨⟨hname, hpre⟩, ha⟩ := h
        have hpos : 0 < (raw.drop (o % 65536)).length := by
          have := hpre.length_le
          rw [serialize_length] at this
          omega
        rw [List.length_drop] at hpos
        have hc := deserialize_eq_ok.mpr ⟨hname, hpre, rfl⟩
        have hcs := hi.mpr ⟨Nat.succ.inj hn, ha⟩
        rw [if_neg (by omega), hc, Except.ok_bind]
        simp only [hnext, hcs, Except.ok_bind, Except.pure_eq_ok]

theorem append_prefix_drop {l m : List UInt8} :
    l ++ m <+: raw.drop o ↔ l <+: raw.drop o ∧ m <+: raw.drop (o + l.length) := by
  constructor
  · rintro ⟨rest, hr⟩
    refine ⟨⟨m ++ rest, by rw [←hr, List.append_assoc]⟩, ⟨rest, ?_⟩⟩
    rw [←List.drop_drop, ←hr, List.append_assoc, List.drop_left]
  · rintro ⟨⟨rest, hr⟩, hm⟩
    rw [←List.drop_drop, ←hr, List.drop_left] at hm
    rw [←hr]
    exact (List.prefix_append_right_inj l).mpr hm

theorem flatMap_prefix_drop :
    cs.flatMap Column.serialize <+: raw.drop o ↔ Along (fun c o => c.serialize <+: raw.drop o) cs o := by
  induction cs generalizing o
  case nil          => simp [Along]
  case cons c cs hi => rw [List.flatMap_cons, append_prefix_drop, hi, Along]

variable {s : Schema}

theorem serialize_of_lt (h : s.columns.length < 65536) :
    s.serialize = Bytes.le 2 s.columns.length ++ s.columns.flatMap Column.serialize := by
  simp only [serialize, columnCount, Nat.mod_eq_of_lt h, List.take_length]

theorem readLE_serialize : Bytes.readLE (s.serialize.take 2) = s.columns.length % 65536 := by
  have ht : s.serialize.take 2 = Bytes.le 2 (s.columns.length % 65536) := by simp [serialize, columnCount]
  have hlt : s.columns.length % 65536 < 256 ^ 2 := Nat.mod_lt _ (by decide)
  rw [ht, Bytes.readLE_le hlt]

theorem deserialize_eq_ok :
    deserialize raw = .ok s ↔
      2 ≤ raw.length ∧ s.columns.length = Bytes.readLE (raw.take 2) ∧ Along (Placed raw) s.columns 2 := by
  simp only [deserialize]
  split_ifs with h
  case pos => exact ⟨nofun, fun h' => absurd h'.1 (by omega)⟩
  case neg =>
    rw [←deserializeColumns_eq_ok]
    refine ⟨fun h' => ?_, fun h' => ?_⟩
    · have ⟨cs, hcs, hs⟩ := Except.bind_eq_ok.mp h'
      obtain rfl : Schema.mk cs = s := by simpa using hs
      exact ⟨by omega, hcs⟩
    · exact Except.bind_eq_ok.mpr ⟨_, h'.2, rfl⟩

section roundTrip

-- Both halves of the codec give back what they are given: the schema, and each of its columns with
-- any bytes behind it.
structure RoundTrips (s : Schema) : Prop where
  schema  : deserialize s.serialize = .ok s
  columns : ∀ c ∈ s.columns, ∀ rest, Column.deserialize (c.serialize ++ rest) = .ok (c, c.serialize.length)

-- Where the encoding of the `i`-th column starts.
def start (s : Schema) (i : ℕ) : ℕ :=
  2 + ((s.columns.take i).flatMap Column.serialize).length

-- A column that starts past the reach of a 16-bit offset must repeat the bytes at the wrapped offset.
def Repeats (s : Schema) : Prop :=
  ∀ i c, s.columns[i]? = some c → 65536 ≤ s.start i → c.serialize <+: s.serialize.drop (s.start i % 65536)

theorem serialize_drop_two (h : s.columns.length < 65536) :
    s.serialize.drop 2 = s.columns.flatMap Column.serialize := by
  rw [serialize_of_lt h, List.drop_left' Bytes.le_length]

theorem along_serialize (h : s.columns.length < 65536) :
    Along (fun c o => c.serialize <+: s.serialize.drop o) s.columns 2 := by
  have hp : s.columns.flatMap Column.serialize <+: s.serialize.drop 2 :=
    ⟨[], by rw [List.append_nil, serialize_drop_two h]⟩
  exact flatMap_prefix_drop.mp hp

theorem deserialize_serialize_iff (h : s.columns.length < 65536)
    (hn : ∀ c ∈ s.columns, c.name.length < 65536) : deserialize s.serialize = .ok s ↔ s.Repeats := by
  have hl : 2 ≤ s.serialize.length := by
    simp [serialize_of_lt h]
  rw [deserialize_eq_ok, readLE_serialize, Nat.mod_eq_of_lt h]
  refine ⟨fun ⟨_, _, ha⟩ i c hc _ => (along_iff.mp ha i c hc).2, fun hr => ⟨hl, rfl, ?_⟩⟩
  refine along_iff.mpr fun i c hc => ⟨hn c (List.mem_of_getElem? hc), ?_⟩
  by_cases ho : s.start i < 65536
  case neg => exact hr i c hc (by omega)
  case pos =>
    have := along_iff.mp (along_serialize h) i c hc
    rwa [←start, ←Nat.mod_eq_of_lt ho] at this

theorem column_consumed_iff (hn : c.name.length < 65536) :
    (∀ rest, Column.deserialize (c.serialize ++ rest) = .ok (c, c.serialize.length)) ↔
      c.name.length ≤ 65529 := by
  have hlen := serialize_length c
  simp only [deserialize_serialize hn, Except.ok.injEq, Prod.mk.injEq, true_and]
  have hiff : c.serialize.length % 65536 = c.serialize.length ↔ c.serialize.length < 65536 :=
    Nat.mod_eq_iff_lt (by decide)
  rw [hiff, forall_const]
  omega

theorem codec_iff (s : Schema) (h : s.columns.length ≤ 65535) (hn : ∀ c ∈ s.columns, c.name.length ≤ 65535) :
    s.RoundTrips ↔ (∀ c ∈ s.columns, c.name.length ≤ 65529) ∧ s.Repeats := by
  have hlt : s.columns.length < 65536 := by omega
  have hn' : ∀ c ∈ s.columns, c.name.length < 65536 := fun c hc => Nat.lt_succ_of_le (hn c hc)
  rw [←deserialize_serialize_iff hlt hn']
  refine ⟨fun h' => ⟨fun c hc => ?_, h'.schema⟩, fun h' => ⟨h'.2, fun c hc => ?_⟩⟩
  · exact (column_consumed_iff (hn' c hc)).mp (h'.columns c hc)
  · exact (column_consumed_iff (hn' c hc)).mpr (h'.1 c hc)

-- The first column takes 65536 bytes when its name has 65530, which the decoder counts as none.
def pair (n : List UInt8) : Schema where
  columns := [⟨n, .int32, 0⟩, ⟨[98], .int64, 0⟩]

theorem codec_iff_pair : (pair [97]).RoundTrips := by
  refine (codec_iff (pair [97]) (by decide) (by decide)).mpr ⟨by decide, fun i c hc hs => ?_⟩
  match i with
  | 0     => exact absurd hs (by decide)
  | 1     => exact absurd hs (by decide)
  | i + 2 => cases hc

theorem pair_lt {n : List UInt8} : (pair n).columns.length < 65536 := by
  simp [pair]

theorem pair_names {n : List UInt8} (h : n.length < 65536) : ∀ c ∈ (pair n).columns, c.name.length < 65536 := by
  simp [pair, h]

theorem pair_not_repeats {n : List UInt8} (h : n.length = 65530) : ¬(pair n).Repeats := by
  intro hr
  have hs : (pair n).start 1 = 65538 := by
    simp only [start, pair, List.take_succ_cons, List.take_zero, List.flatMap_cons, List.flatMap_nil,
      List.append_nil, serialize_length, h]
  have hp := hr 1 ⟨[98], .int64, 0⟩ rfl (by rw [hs]; decide)
  rw [hs, serialize_drop_two pair_lt] at hp
  have hp := hp.head (by decide)
  have hl : UInt8.ofNat n.length = 250 := by
    rw [h]
    decide
  simp [pair, Column.serialize, Bytes.le, hl] at hp

theorem not_codec :
    ¬∀ s : Schema, 1 ≤ s.columns.length → s.columns.length ≤ 65535 →
      (∀ c ∈ s.columns, c.name.length ≤ 65535) → s.RoundTrips := by
  intro h
  have hl : (List.replicate 65530 (97 : UInt8)).length = 65530 := List.length_replicate
  generalize List.replicate 65530 (97 : UInt8) = n at hl
  have hn := pair_names (show n.length < 65536 by omega)
  have hr := h (pair n) (by simp [pair]) (by simp [pair]) fun c hc => Nat.le_of_lt_succ (hn c hc)
  exact pair_not_repeats hl <| (deserialize_serialize_iff pair_lt hn).mp hr.schema

end roundTrip

end Schema
end Duck
