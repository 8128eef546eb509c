import Duck.Catalog.Theorems.OpenDatabase
import Duck.Execution.Theorems.SequentialScan

namespace Duck

variable {m m' : HeapMap} {rid : RID} {bytes : List UInt8}

-- What is in the map after a call was there before, or is what the call has brought.
theorem HeapMap.Outcome.origin {op : HeapOp} (h : m.Outcome granted op result m') (hb : m' rid = some bytes) :
    m rid = some bytes ∨ op = .insert bytes ∨ ∃ rid', op = .update rid' bytes := by
  cases h
  case inserted =>
    obtain ⟨-, hx⟩ | ⟨-, hx⟩ := update_eq_some.mp hb
    · cases hx
      exact .inr <| .inl rfl
    · exact .inl hx
  case updated  =>
    obtain ⟨-, hx⟩ | ⟨-, hx⟩ := update_eq_some.mp hb
    · cases hx
      exact .inr <| .inr ⟨_, rfl⟩
    · obtain ⟨-, hy⟩ | ⟨-, hy⟩ := update_eq_some.mp hx
      · cases hy
      · exact .inl hy
  case lost     =>
    obtain ⟨-, hx⟩ | ⟨-, hx⟩ := update_eq_some.mp hb
    · cases hx
    · exact .inl hx
  case deleted  =>
    obtain ⟨-, hx⟩ | ⟨-, hx⟩ := update_eq_some.mp hb
    · cases hx
    · exact .inl hx
  all_goals exact .inl hb

namespace Table

variable {t : Table} {op : Op}

-- The values have the types of their columns, which the constructor of a tuple checks.
def Op.Typed : Op → Prop
  | insert tuple   => tuple.Typed
  | update _ tuple => tuple.Typed
  | _              => True

-- Every tuple is what one over the columns of the table has been encoded to.
def Encodes (t : Table) (m : HeapMap) : Prop :=
  ∀ rid bytes, m rid = some bytes → ∃ tuple : Tuple, tuple.Typed ∧ tuple.schema = t.schema ∧ tuple.serialize = .ok bytes

-- No column is a CHAR of length 0, the one kind whose values are not found again.
def Sound (t : Table) : Prop :=
  ∀ c ∈ t.schema.columns, ¬Tuple.EmptyChar c

-- Every tuple can be read.
def Readable (t : Table) (m : HeapMap) : Prop :=
  ∀ rid bytes, m rid = some bytes → ∃ record, t.record bytes = .ok record

theorem schema_of_compatible {tuple : Tuple} (hc : t.schema.compatibleWith tuple.schema = true) : tuple.schema = t.schema := by
  have hc : t.schema.columns = tuple.schema.columns := of_decide_eq_true hc
  exact congrArg Schema.mk hc.symm

theorem Outcome.encodes (h : t.Outcome m granted op result m') (ho : op.Typed) (hm : t.Encodes m) : t.Encodes m' := by
  intro rid bytes hb
  cases h
  case inserted hc hs h  =>
    obtain hb | hx | ⟨_, hx⟩ := h.origin hb
    · exact hm rid bytes hb
    · cases hx
      exact ⟨_, ho, schema_of_compatible hc, hs⟩
    · cases hx
  case updated hc _ hs h =>
    obtain hb | hx | ⟨_, hx⟩ := h.origin hb
    · exact hm rid bytes hb
    · cases hx
    · cases hx
      exact ⟨_, ho, schema_of_compatible hc, hs⟩
  case deleted _ h       =>
    obtain hb | hx | ⟨_, hx⟩ := h.origin hb
    · exact hm rid bytes hb
    · cases hx
    · cases hx
  all_goals exact hm rid bytes hb

theorem Encodes.readable (hm : t.Encodes m) (hc : t.Sound) (hl : ∀ rid bytes, m rid = some bytes → bytes.length ≤ 8180) :
    t.Readable m := by
  intro rid bytes hb
  obtain ⟨tuple, ht, hs, hx⟩ := hm rid bytes hb
  rw [Sound, ←hs] at hc
  obtain ⟨read, hr, -⟩ := ht.roundTrips hc hx (hl rid bytes hb)
  rw [hs] at hr
  exact ⟨⟨read.values⟩, by rw [record, hr]; rfl⟩

end Table

theorem HeapPool.Holds.length_le {s : HeapPool} (hs : s.Holds chains maps) (hh : h ∈ s.heaps) (hb : maps h rid = some bytes) :
    bytes.length ≤ 8180 := by
  obtain ⟨⟨views, hshows, ht⟩, -, -⟩ := id hs
  have hm := ht.mem_of_bound hh hb
  obtain ⟨v, hv⟩ := (ht.linked h hh).view hm
  rw [←ht.maps h hh, contents_of_mem hm hv] at hb
  exact (hshows.bytesOf hv).length_le hb

-- Every tuple is that of its table.
def DatabaseMap.Encodes (u : DatabaseMap) : Prop :=
  ∀ name entry m, u.tables name = some (entry, m) → entry.table.Encodes m

namespace OpenDatabase

variable {s : OpenDatabase} {u v : DatabaseMap} {event : Event}

-- The tuples that a call brings are typed.
def Event.Typed : Event → Prop
  | .call _ op _ _ => op.Typed
  | _              => True

theorem Spec.encodes (e : Spec u event v) (ht : event.Typed) (hu : u.Encodes) : v.Encodes := by
  intro name entry m h
  cases e
  case created               =>
    obtain ⟨-, hx⟩ | ⟨-, h⟩ := update_eq_some.mp h
    · cases hx
      intro rid bytes hb
      cases hb
    · exact hu _ _ _ h
  case dropped               =>
    obtain ⟨-, hx⟩ | ⟨-, h⟩ := update_eq_some.mp h
    · cases hx
    · exact hu _ _ _ h
  case called he ho          =>
    obtain ⟨-, hx⟩ | ⟨-, h⟩ := update_eq_some.mp h
    · cases hx
      exact ho.encodes ht (hu _ _ _ he)
    · exact hu _ _ _ h
  case reopened              => exact hu _ _ _ (DatabaseMap.kept_eq_some.mp h).1
  all_goals exact hu _ _ _ h

theorem encodes (hs : Runs.Steps Spec .empty events u) (ht : ∀ event ∈ events, event.Typed) : u.Encodes := by
  refine hs.preserves_of_mem (P := DatabaseMap.Encodes) (fun ha e hu => e.encodes (ht _ ha) hu) ?_
  intro name entry m he
  cases he

theorem Represents.readable (hs : s.Represents heaps chains maps u) (hu : u.Encodes) (he : u.tables name = some (entry, m))
    (hc : entry.table.Sound) : entry.table.Readable m := by
  obtain ⟨hh, -, hm, -⟩ := hs.tables _ _ _ he
  exact (hu _ _ _ he).readable hc fun rid bytes hb => hs.pool.length_le hh (hm ▸ hb)

end OpenDatabase
end Duck
