import Duck.Execution.Operator
import Duck.Execution.Theorems.NestedLoopJoin

namespace Duck

open Program Cursor NestedLoopJoin

variable {bad : σ → Bool} {child' child : Cursor σ String Record} {full items : List Item}
variable {I : List Item → σ → Prop} {predicate : Predicate} {columns : List ℕ} {n : ℕ}

namespace FilterOperator

-- What the filter makes of what its child gives.
def pass (predicate : Predicate) : Item → Option Item
  | .error e   => some (.error e)
  | .ok record =>
    match predicate.accepts record with
    | .ok true  => some (.ok record)
    | .ok false => none
    | .error e  => some (.error e)

-- What the loop of `next` keeps, with the number of records to come from the child.
def Passing (predicate : Predicate) (I : List Item → σ → Prop) (items : List Item) (m : ℕ) (s : σ) : Prop :=
  ∃ of, I of s ∧ of.filterMap (pass predicate) = items ∧ of.length = m

theorem streams (h : Streams bad child' child full I) :
    Streams bad (cursor child' predicate) (cursor child predicate) (full.filterMap (pass predicate))
      (fun items s => ∃ of, I of s ∧ of.filterMap (pass predicate) = items) where
  reset := by
    rintro _ s ⟨of, hi, rfl⟩
    exact (h.reset hi).mono fun ⟨hr, hi⟩ => ⟨hr, full, hi, rfl⟩
  next  := by
    rintro _ s ⟨of, hi, rfl⟩
    refine .untilSome (I := Passing predicate I (of.filterMap (pass predicate))) Nat.lt_wfRel.wf ?_ ⟨of, hi, rfl, rfl⟩
    rintro m s ⟨rest, hi, hrest, rfl⟩
    rw [←hrest]
    refine (h.next hi).bind ?_ ?_
    · rintro record t ⟨hr, hi⟩
      obtain _ | ⟨_ | r, rest⟩ := rest <;> cases hr
      · exact .pure ⟨rfl, [], hi, rfl⟩
      · change EndsUnless _ (Program.ofExcept (predicate.accepts r) >>= _) (Program.ofExcept (predicate.accepts r) >>= _) _ _
        rcases ha : predicate.accepts r with e | _ | _
        · rw [List.filterMap_cons_some (b := .error e) (by rw [pass, ha])]
          exact .same <| .throw ⟨rfl, rest, hi, rfl⟩
        · rw [List.filterMap_cons_none (by rw [pass, ha])]
          exact .pure ⟨_, Nat.lt_succ_self _, rest, hi, rfl, rfl⟩
        · rw [List.filterMap_cons_some (b := .ok r) (by rw [pass, ha])]
          exact .pure ⟨rfl, rest, hi, rfl⟩
    · rintro e t ⟨hr, hi⟩
      obtain _ | ⟨_ | r, rest⟩ := rest <;> cases hr
      exact ⟨rfl, rest, hi, rfl⟩

end FilterOperator

namespace ProjectionOperator

def project (columns : List ℕ) (record : Record) : Item :=
  Record.mk <$> columns.mapM record.get

theorem streams (h : Streams bad child' child full I) :
    Streams bad (cursor child' columns) (cursor child columns) (full.map (· >>= project columns))
      (fun items s => ∃ of, I of s ∧ of.map (· >>= project columns) = items) where
  reset := by
    rintro _ s ⟨of, hi, rfl⟩
    exact (h.reset hi).mono fun ⟨hr, hi⟩ => ⟨hr, full, hi, rfl⟩
  next  := by
    rintro _ s ⟨of, hi, rfl⟩
    refine (h.next hi).bind ?_ ?_
    · rintro record t ⟨hr, hi⟩
      obtain _ | ⟨_ | r, rest⟩ := of <;> cases hr
      · exact .pure ⟨rfl, [], hi, rfl⟩
      · change EndsUnless _ (Program.ofExcept (columns.mapM r.get) >>= _) (Program.ofExcept (columns.mapM r.get) >>= _) _ _
        rw [List.map_cons, Except.ok_bind, project]
        rcases columns.mapM r.get with e | values
        · exact .same <| .throw ⟨rfl, rest, hi, rfl⟩
        · exact .pure ⟨rfl, rest, hi, rfl⟩
    · rintro e t ⟨hr, hi⟩
      obtain _ | ⟨_ | r, rest⟩ := of <;> cases hr
      exact ⟨rfl, rest, hi, rfl⟩

end ProjectionOperator

namespace LimitOperator

theorem streams (h : Streams bad child' child full I) :
    Streams (bad ∘ Prod.fst) (cursor child' n) (cursor child n) (full.take n)
      (fun items s => ∃ of, I of s.1 ∧ of.take (n - s.2) = items) where
  reset := by
    rintro _ ⟨s, k⟩ ⟨of, hi, rfl⟩
    refine (unless_beside_reset <| h.reset hi).bind ?_ ?_
    · rintro _ ⟨t, k⟩ ⟨⟨-, hi⟩, -⟩
      exact .same <| .update ⟨rfl, full, hi, rfl⟩
    · rintro e t ⟨⟨hr, -⟩, -⟩
      cases hr
  next  := by
    rintro _ ⟨s, k⟩ ⟨of, hi, rfl⟩
    change EndsUnless _ (if n ≤ k then _ else _) (if n ≤ k then _ else _) _ _
    by_cases hk : n ≤ k
    case pos =>
      rw [if_pos hk, if_pos hk, Nat.sub_eq_zero_of_le hk]
      exact .pure ⟨rfl, of, hi, by rw [Nat.sub_eq_zero_of_le hk, List.take_zero, List.tail_nil]⟩
    case neg =>
      rw [if_neg hk, if_neg hk]
      obtain ⟨m, hm⟩ : ∃ m, n - k = m + 1 := ⟨n - k - 1, by omega⟩
      refine .update_bind <| (unless_beside_next <| h.next hi).mono ?_
      rintro _ ⟨t, _⟩ ⟨⟨rfl, hi⟩, rfl⟩
      refine ⟨?_, of.tail, hi, ?_⟩
      · rw [hm]
        obtain _ | ⟨_ | r, rest⟩ := of <;> rfl
      · rw [hm, show n - (k + 1) = m by omega]
        cases of <;> simp

end LimitOperator
end Duck
