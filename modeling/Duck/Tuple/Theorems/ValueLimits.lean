import Duck.Tuple.Theorems.RoundTrip

namespace Duck.Tuple

variable {c : Column} {v : Value} {cs : List Column} {vs : List Value} {t : Tuple}

-- A value that its column cannot hold.
inductive TooLong (c : Column) (v : Value) : Prop
  | char    (type : c.type = .char) (null : v.isNull = false) (size : c.length.toNat < v.serializedSize)
  | maximum (type : c.type = .varchar ∨ c.type = .varbinary) (null : v.isNull = false) (declared : 0 < c.length.toNat)
      (size : c.length.toNat < v.serializedSize)
  | limit   (type : c.type = .varchar ∨ c.type = .varbinary) (null : v.isNull = false)
      (size : 65535 < v.serializedSize)

section throws

-- The checks see every column but the VARBINARY ones.
theorem checkSize_error : (∃ e, checkSize c v = .error e) ↔ c.type ≠ .varbinary ∧ TooLong c v := by
  constructor
  · rintro ⟨e, h⟩
    simp only [checkSize] at h
    split_ifs at h with hn ht h₀ h₁ h₂ h₃ h₄
    · exact ⟨by simp [h₀.1], .char h₀.1 (by simpa using hn) h₀.2⟩
    · exact ⟨by simp [h₁.1], .maximum (.inl h₁.1) (by simpa using hn) h₁.2.1 h₁.2.2⟩
    · exact ⟨by simp [h₂.1], .limit (.inl h₂.1) (by simpa using hn) h₂.2⟩
    · simp [h₃.1] at ht
    · simp [h₄.1] at ht
  · rintro ⟨hb, h⟩
    cases h
    case char ht hn hs => exact ⟨_, by simp [checkSize, hn, ht, hs]; rfl⟩
    case maximum ht hn hd hs =>
      have ht := ht.resolve_right hb
      exact ⟨_, by simp [checkSize, hn, ht, hd, hs]; rfl⟩
    case limit ht hn hs =>
      have ht := ht.resolve_right hb
      simp only [checkSize, hn, ht]
      split_ifs <;> simp_all

theorem serializeColumn_error : (∃ e, serializeColumn c v = .error e) ↔ ∃ e, checkSize c v = .error e := by
  simp only [serializeColumn]
  cases checkSize c v
  case error e => simp
  case ok      => split_ifs <;> simp

theorem serializeColumns_error :
    (∃ e, serializeColumns cs vs = .error e) ↔ ∃ x ∈ cs.zip vs, ∃ e, serializeColumn x.1 x.2 = .error e := by
  induction cs generalizing vs
  case nil          => simp [serializeColumns]
  case cons c cs hi =>
    cases vs
    case nil       => simp [serializeColumns]
    case cons v vs =>
      rw [List.zip_cons_cons, List.exists_mem_cons_iff, ←hi]
      simp only [serializeColumns]
      cases serializeColumn c v
      case error => simp
      case ok    => cases serializeColumns cs vs <;> simp

theorem serialize_error :
    (∃ e, t.serialize = .error e) ↔
      ∃ x ∈ t.schema.columns.zip t.values, x.1.type ≠ .varbinary ∧ TooLong x.1 x.2 := by
  simp only [←checkSize_error, ←serializeColumn_error, ←serializeColumns_error, serialize]
  cases serializeColumns t.schema.columns t.values <;> simp

end throws

section prefixes

-- The bytes of one column, with the true length of the value in front where the length varies.
structure Encodes (c : Column) (v : Value) (enc : List UInt8) : Prop where
  bytes  : serializeColumn c v = .ok enc
  length : ¬c.isFixedSize → Bytes.readLE (enc.take 2) = (payload v).length ∧ enc.drop 2 = payload v

structure RejectsExactly (t : Tuple) : Prop where
  throws   : (∃ e, t.serialize = .error e) ↔ ∃ x ∈ t.schema.columns.zip t.values, TooLong x.1 x.2
  prefixes : ∀ {bytes}, t.serialize = .ok bytes →
    ∃ encs, List.Forall₂ (fun x enc => Encodes x.1 x.2 enc) (t.schema.columns.zip t.values) encs ∧
      bytes = nullBitmap t.values ++ encs.flatten

theorem encodes_of_not_tooLong (hv : c.type.toValueType = some v.type) (hl : ¬TooLong c v)
    (h : serializeColumn c v = .ok enc) : Encodes c v enc := by
  refine ⟨h, fun hf => ?_⟩
  have ht : c.type = .varchar ∨ c.type = .varbinary := by
    cases hc : c.type <;> simp_all [Column.isFixedSize, TypeId.toValueType]
  have hlt : (payload v).length < 65536 := by
    cases hn : v.isNull
    case true  => simp [payload, hn]
    case false =>
      have hs := mt (TooLong.limit ht hn) hl
      simp only [payload, hn, serializeTo_length, Bool.false_eq_true, if_false]
      omega
  have he := serializeColumn_variable hf h
  rw [Nat.mod_eq_of_lt hlt] at he
  rw [he, List.take_left' Bytes.le_length, List.drop_left' Bytes.le_length, Bytes.readLE_le hlt]
  exact ⟨rfl, rfl⟩

theorem serializeColumns_encodes (ht : List.Forall₂ (fun v c => c.type.toValueType = some v.type) vs cs)
    (hl : ∀ x ∈ cs.zip vs, ¬TooLong x.1 x.2) (h : serializeColumns cs vs = .ok enc) :
    ∃ encs, List.Forall₂ (fun x enc => Encodes x.1 x.2 enc) (cs.zip vs) encs ∧ enc = encs.flatten := by
  induction ht generalizing enc
  case nil => exact ⟨[], .nil, by simpa [serializeColumns] using h.symm⟩
  case cons v c vs cs hv _ hi =>
    have ⟨hd, hl⟩ := List.forall_mem_cons.mp hl
    have ⟨e, he, h⟩ := Except.bind_eq_ok.mp h
    have ⟨es, hes, h⟩ := Except.bind_eq_ok.mp h
    have ⟨encs, ha, hf⟩ := hi hl hes
    refine ⟨e :: encs, .cons (encodes_of_not_tooLong hv hd he) ha, ?_⟩
    rw [List.flatten_cons, ←hf]
    simpa using h.symm

theorem Typed.prefixes (ht : t.Typed) (hl : ∀ x ∈ t.schema.columns.zip t.values, ¬TooLong x.1 x.2)
    (h : t.serialize = .ok bytes) :
    ∃ encs, List.Forall₂ (fun x enc => Encodes x.1 x.2 enc) (t.schema.columns.zip t.values) encs ∧
      bytes = nullBitmap t.values ++ encs.flatten := by
  have ⟨enc, he, h⟩ := Except.bind_eq_ok.mp h
  have ⟨encs, ha, hf⟩ := serializeColumns_encodes ht.types hl he
  refine ⟨encs, ha, ?_⟩
  rw [←hf]
  simpa using h.symm

theorem rejectsExactly_iff (t : Tuple) (ht : t.Typed) :
    t.RejectsExactly ↔
      (∃ x ∈ t.schema.columns.zip t.values, x.1.type ≠ .varbinary ∧ TooLong x.1 x.2) ∨
        ∀ x ∈ t.schema.columns.zip t.values, x.1.type = .varbinary → ¬TooLong x.1 x.2 := by
  constructor
  · intro h
    by_cases he : ∃ e, t.serialize = .error e
    case pos => exact .inl (serialize_error.mp he)
    case neg => exact .inr fun x hx _ hl => he (h.throws.mpr ⟨x, hx, hl⟩)
  · intro h
    have hthrows : (∃ e, t.serialize = .error e) ↔ ∃ x ∈ t.schema.columns.zip t.values, TooLong x.1 x.2 := by
      rw [serialize_error]
      constructor
      · rintro ⟨x, hx, _, hl⟩
        exact ⟨x, hx, hl⟩
      · rintro ⟨x, hx, hl⟩
        exact h.elim id fun hb => ⟨x, hx, fun hb' => hb x hx hb' hl, hl⟩
    refine ⟨hthrows, fun {bytes} hok => ?_⟩
    refine ht.prefixes (fun x hx hl => ?_) hok
    obtain ⟨e, he⟩ := hthrows.mpr ⟨x, hx, hl⟩
    exact Except.error_ne_ok (he.symm.trans hok)

theorem rejectsExactly_iff_tooLong :
    (⟨⟨[⟨[97], .varbinary, 0⟩, ⟨[98], .char, 1⟩]⟩, [.bytes [7], .string [1, 2]]⟩ : Tuple).RejectsExactly ↔
      (∃ x ∈ [((⟨[97], .varbinary, 0⟩ : Column), Value.bytes [7]), (⟨[98], .char, 1⟩, .string [1, 2])],
        x.1.type ≠ .varbinary ∧ TooLong x.1 x.2) ∨
      ∀ x ∈ [((⟨[97], .varbinary, 0⟩ : Column), Value.bytes [7]), (⟨[98], .char, 1⟩, .string [1, 2])],
        x.1.type = .varbinary → ¬TooLong x.1 x.2 :=
  rejectsExactly_iff ⟨⟨[⟨[97], .varbinary, 0⟩, ⟨[98], .char, 1⟩]⟩, [.bytes [7], .string [1, 2]]⟩
    ⟨.cons rfl <| .cons rfl .nil⟩

-- Two bytes in a VARBINARY column of at most one.
theorem not_rejectsExactly : ¬∀ t : Tuple, t.Typed → t.RejectsExactly := by
  intro h
  have hr := h ⟨⟨[⟨[97], .varbinary, 1⟩]⟩, [.bytes [1, 2]]⟩ ⟨.cons rfl .nil⟩
  obtain ⟨e, he⟩ := hr.throws.mpr
    ⟨(⟨[97], .varbinary, 1⟩, .bytes [1, 2]), List.mem_singleton_self _, .maximum (.inr rfl) rfl (by decide) (by decide)⟩
  exact Except.error_ne_ok he.symm

end prefixes

end Duck.Tuple
