import Duck.Tuple.SchemaReader
import Duck.Tuple.Theorems.SchemaCodec

namespace Duck

open Duck.Tuple (Fault readBytes)

variable {raw : List UInt8} {c : Column} {cs : List Column}

theorem Column.read_eq (raw : List UInt8) : read raw = (deserialize raw).mapError .error := by
  simp only [read, deserialize]
  split_ifs with h₀ h₁
  case pos => rfl
  all_goals
    have hr : readBytes raw 0 2 = .ok (raw.take 2) := by
      simp [readBytes, Nat.le_of_not_lt h₀]
    rw [hr, Except.ok_bind]
  case pos => rw [if_pos h₁]; rfl
  case neg =>
    simp only [if_neg h₁, readBytes]
    rw [if_pos (by omega), Except.ok_bind, if_pos (by omega), Except.ok_bind, if_pos (by omega)]
    rfl

namespace Schema

theorem readColumns_eq : readColumns raw n o = (deserializeColumns raw n o).mapError .error := by
  induction n generalizing o
  case zero      => rfl
  case succ n hi =>
    simp only [readColumns, deserializeColumns, subspan]
    split_ifs with h₀ h₁
    case pos => rfl
    case neg => omega
    case pos =>
      rw [Except.ok_bind, Column.read_eq]
      cases Column.deserialize (raw.drop o)
      case error => rfl
      case ok r  =>
        simp only [Except.mapError, Except.ok_bind, hi]
        cases deserializeColumns raw n ((o + r.2) % 65536) <;> rfl

-- The decoder never looks past the end of the bytes.
theorem read_eq (raw : List UInt8) : read raw = (deserialize raw).mapError .error := by
  simp only [read, deserialize]
  split_ifs with h
  case pos => rfl
  case neg =>
    have hr : readBytes raw 0 2 = .ok (raw.take 2) := by
      simp [readBytes, Nat.le_of_not_lt h]
    rw [hr, Except.ok_bind, readColumns_eq]
    cases deserializeColumns raw (Bytes.readLE (raw.take 2)) 2 <;> rfl

theorem read_ne_outside : read raw ≠ .error .outside := by
  rw [read_eq]
  cases deserialize raw
  case ok    => exact nofun
  case error =>
    intro h
    cases h

section layout

theorem Placed.eq_append (h : Placed raw c o) : ∃ rest, raw.drop (o % 65536) = c.serialize ++ rest :=
  h.2.imp fun _ h => h.symm

theorem Placed.columnSizeOf (h : Placed raw c o) : columnSizeOf raw (o % 65536) = c.serialize.length := by
  have ⟨rest, hr⟩ := h.eq_append
  have ht : (c.serialize ++ rest).take 2 = Bytes.le 2 c.name.length := by
    simp [Column.serialize]
  rw [Schema.columnSizeOf, hr, ht, Bytes.readLE_le h.1, Column.serialize_length]

theorem Placed.typeCodeOf (h : Placed raw c o) : typeCodeOf raw (o % 65536) = c.type.toCode := by
  have ⟨rest, hr⟩ := h.eq_append
  have hs : o % 65536 + c.serialize.length - 4 = o % 65536 + (2 + c.name.length) := by
    rw [Column.serialize_length]
    omega
  have ht : ((c.serialize ++ rest).drop (2 + c.name.length)).take 2 = Bytes.le 2 c.type.toCode := by
    simp [Column.serialize, List.drop_append, List.take_append]
  rw [Schema.typeCodeOf, h.columnSizeOf, hs, ←List.drop_drop, hr, ht, Bytes.readLE_le c.type.toCode_lt]

theorem Placed.columnBytes (h : Placed raw c o) : columnBytes raw (o % 65536) = c.serialize := by
  have ⟨rest, hr⟩ := h.eq_append
  rw [Schema.columnBytes, h.columnSizeOf, hr, List.take_left]

theorem Along.forall_starts {A : ℕ → Prop} (h : Along (Placed raw) cs o) :
    (∀ p ∈ starts raw cs.length o, A p) ↔ Along (fun _ p => A p) cs o := by
  induction cs generalizing o
  case nil          => simp [starts, Along]
  case cons c cs hi => simp [starts, Along, h.1.columnSizeOf, hi h.2]

theorem placed_of_le (h : o % 65536 + columnSizeOf raw (o % 65536) ≤ raw.length) : ∃ c, Placed raw c o := by
  rw [columnSizeOf] at h
  have h₀ : ¬(raw.drop (o % 65536)).length < 2 := by
    rw [List.length_drop]
    omega
  have h₁ : ¬(raw.drop (o % 65536)).length < 2 + Bytes.readLE ((raw.drop (o % 65536)).take 2) + 4 := by
    rw [List.length_drop]
    omega
  obtain ⟨⟨c, n⟩, hc⟩ : ∃ r, Column.deserialize (raw.drop (o % 65536)) = .ok r := by
    simp only [Column.deserialize, if_neg h₀, if_neg h₁]
    exact ⟨_, rfl⟩
  obtain ⟨hn, hp, _⟩ := Column.deserialize_eq_ok.mp hc
  exact ⟨c, hn, hp⟩

theorem exists_along (h : ∀ p ∈ starts raw n o, p % 65536 + columnSizeOf raw (p % 65536) ≤ raw.length) :
    ∃ cs : List Column, cs.length = n ∧ Along (Placed raw) cs o := by
  induction n generalizing o
  case zero      => exact ⟨[], rfl, trivial⟩
  case succ n hi =>
    have ⟨ho, hs⟩ := List.forall_mem_cons.mp h
    have ⟨c, hc⟩ := placed_of_le ho
    rw [hc.columnSizeOf] at hs
    have ⟨cs, hn, ha⟩ := hi hs
    exact ⟨c :: cs, congrArg (· + 1) hn, hc, ha⟩

-- The decoder throws exactly when a column does not lie within the bytes.
theorem complete_iff : Complete raw ↔ ∃ s, deserialize raw = .ok s := by
  constructor
  · intro ⟨hl, h⟩
    have ⟨cs, hn, ha⟩ := exists_along h
    exact ⟨⟨cs⟩, deserialize_eq_ok.mpr ⟨hl, hn, ha⟩⟩
  · intro ⟨s, hs⟩
    have ⟨hl, hn, ha⟩ := deserialize_eq_ok.mp hs
    refine ⟨hl, ?_⟩
    rw [columnCountOf, ←hn, ha.forall_starts]
    refine ha.mono fun c _ o hp => ?_
    have := hp.2.length_le
    have := Column.serialize_length c
    rw [List.length_drop] at *
    rw [hp.columnSizeOf]
    omega

end layout

section accepts

-- What the rest of the engine relies on, and the bytes that the schema came from.
structure Usable (s : Schema) (raw : List UInt8) : Prop where
  columns : 1 ≤ s.columnCount
  types   : ∀ c ∈ s.columns, fixedSizeOf c ≠ none ∧ c.type.toValueType ≠ none
  bytes   : s.serialize <+: raw

structure Accepts (raw : List UInt8) : Prop where
  inside : read raw ≠ .error .outside
  usable : ∀ {s}, read raw = .ok s → s.Usable raw

theorem known_iff : fixedSizeOf c ≠ none ∧ c.type.toValueType ≠ none ↔ c.type.toCode < 10 := by
  simp only [fixedSizeOf]
  cases c.type
  case other le lt => simp [TypeId.toValueType, TypeId.toCode, le]
  all_goals simp [TypeId.toValueType, TypeId.toCode]

theorem along_const {P : Column → Prop} : Along (fun c _ => P c) cs o ↔ ∀ c ∈ cs, P c := by
  induction cs generalizing o
  case nil          => simp [Along]
  case cons c cs hi => simp [Along, hi]

theorem along_and : Along P cs o ∧ Along Q cs o ↔ Along (fun c o => P c o ∧ Q c o) cs o := by
  simp only [along_iff]
  exact ⟨fun ⟨h, h'⟩ i c hc => ⟨h i c hc, h' i c hc⟩, fun h => ⟨fun i c hc => (h i c hc).1, fun i c hc => (h i c hc).2⟩⟩

theorem serialize_prefix_iff {s : Schema} (h : deserialize raw = .ok s) :
    s.serialize <+: raw ↔ Along (fun c o => c.serialize <+: raw.drop o) s.columns 2 := by
  have ⟨hl, hn, _⟩ := deserialize_eq_ok.mp h
  have hlt : s.columns.length < 65536 := hn ▸ Column.readLE_take_lt raw
  have hc : Bytes.le 2 s.columns.length = raw.take 2 := by
    rw [hn, Column.le_readLE_take hl]
  rw [serialize_of_lt hlt, ←flatMap_prefix_drop, ←List.drop_zero (l := raw), append_prefix_drop]
  simp [hc, List.take_prefix, Nat.min_eq_left hl]

theorem usable_iff {s : Schema} (h : deserialize raw = .ok s) :
    s.Usable raw ↔
      1 ≤ columnCountOf raw ∧
        ∀ o ∈ starts raw (columnCountOf raw) 2,
          typeCodeOf raw (o % 65536) < 10 ∧ columnBytes raw (o % 65536) <+: raw.drop o := by
  have ⟨_, hn, ha⟩ := deserialize_eq_ok.mp h
  have hu : s.Usable raw ↔ 1 ≤ s.columns.length ∧
      Along (fun c o => c.type.toCode < 10 ∧ c.serialize <+: raw.drop o) s.columns 2 := by
    rw [←along_and, ←serialize_prefix_iff h, along_const]
    simp only [←known_iff]
    exact ⟨fun h => ⟨h.columns, h.types, h.bytes⟩, fun h => ⟨h.1, h.2.1, h.2.2⟩⟩
  rw [hu, columnCountOf, ←hn, ha.forall_starts]
  refine and_congr_right fun _ => ⟨fun h => ?_, fun h => ?_⟩
  · refine (along_and.mp ⟨ha, h⟩).mono fun c _ o ⟨hp, ht, hb⟩ => ?_
    rw [hp.typeCodeOf, hp.columnBytes]
    exact ⟨ht, hb⟩
  · refine (along_and.mp ⟨ha, h⟩).mono fun c _ o ⟨hp, ht, hb⟩ => ?_
    rw [hp.typeCodeOf] at ht
    rw [hp.columnBytes] at hb
    exact ⟨ht, hb⟩

theorem read_eq_ok {s : Schema} : read raw = .ok s ↔ deserialize raw = .ok s := by
  rw [read_eq]
  cases deserialize raw <;> simp [Except.mapError]

theorem accepts_iff (raw : List UInt8) :
    Accepts raw ↔
      (Complete raw → 1 ≤ columnCountOf raw ∧
        ∀ o ∈ starts raw (columnCountOf raw) 2,
          typeCodeOf raw (o % 65536) < 10 ∧ columnBytes raw (o % 65536) <+: raw.drop o) := by
  constructor
  · intro h hc
    obtain ⟨s, hs⟩ := complete_iff.mp hc
    exact (usable_iff hs).mp (h.usable (read_eq_ok.mpr hs))
  · intro h
    refine ⟨read_ne_outside, fun {s} hs => ?_⟩
    have hs := read_eq_ok.mp hs
    exact (usable_iff hs).mpr (h (complete_iff.mpr ⟨s, hs⟩))

-- A count of zero gives a schema without columns, which the other constructor refuses.
theorem not_accepts : ¬∀ raw, Accepts raw := by
  intro h
  have hs : read [0, 0] = .ok ⟨[]⟩ := rfl
  exact absurd ((h [0, 0]).usable hs).columns (by decide)

end accepts

end Schema
end Duck
