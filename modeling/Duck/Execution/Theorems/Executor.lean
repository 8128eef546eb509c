import Duck.Execution.Executor
import Duck.Execution.Theorems.Operators
import Duck.Execution.Theorems.SequentialScan
import Duck.Table.Theorems.TableHeap.Growth

namespace Duck

open Program Cursor NestedLoopJoin

variable {tx : Option TransactionID} {views : Views} {others : Database → Database} {s t : Database}
variable {rest : List Pin} {spare : ℕ} {plan left right : PhysicalPlanNode} {full : List Item}

namespace PhysicalPlanNode

-- The tables of the plan are chains of pages.
def OnChains (views : Views) : PhysicalPlanNode → Prop
  | sequentialScan table        => ∃ ps, SequentialScanOperator.Chained views table.heap ps
  | nestedLoopJoin left right .. => left.OnChains views ∧ right.OnChains views
  | filter child _              => child.OnChains views
  | projection child ..         => child.OnChains views
  | limit child _               => child.OnChains views

def scans : PhysicalPlanNode → ℕ
  | sequentialScan _            => 1
  | nestedLoopJoin left right .. => left.scans + right.scans
  | filter child _              => child.scans
  | projection child ..         => child.scans
  | limit child _               => child.scans

end PhysicalPlanNode

namespace Operator

-- The tree that gives up once a call of one of its scans has lost something.
def watched (others : Database → Database) (op : Operator) : Cursor (Database × op.State) String Record :=
  op.withScans <| SequentialScanOperator.watched others

-- What is lost stays so.
theorem create_lost (op : Operator) (hl : s.lost tx = true) : op.create.Ends s fun _ t => t.lost tx = true := by
  induction op generalizing s
  case scan table tx'            => exact SequentialScanOperator.create_lost hl
  case filter ih                 => exact ih hl
  case projection ih             => exact ih hl
  case limit ih                  => exact (ih hl).bind (fun hl => .pure hl) id
  case nestedLoopJoin ihl ihr    =>
    exact (ihl hl).bind (fun hl => (ihr hl).bind (fun hl => .pure hl) id) id

-- `holds` is what the tree has between two calls.
structure Runs (others : Database → Database) (tx : Option TransactionID) (views : Views) (op : Operator) (scans : ℕ)
    (full : List Item) (holds : op.State → List Pin → List Item → Prop) : Prop where
  streams : ∀ {spare rest}, Streams (Database.lost tx ∘ Prod.fst) (op.watched others) (op.cursor others) full
    (Owned (World tx views (spare + 1)) holds rest)
  create  : ∀ {spare rest s}, World tx views (spare + scans) rest s →
    op.create.Ends s fun result t => t.lost tx = true ∨ ∃ st own, result = .ok st ∧ holds st own full ∧
      World tx views spare (own ++ rest) t

variable {op left right : Operator} {scans : ℕ} {full : List Item} {holds : op.State → List Pin → List Item → Prop}

namespace Runs

theorem filter (h : op.Runs others tx views scans full holds) (comparator : Expression) :
    (op.filter comparator).Runs others tx views scans (full.filterMap (FilterOperator.pass comparator.predicate))
      fun st own items => ∃ of, holds st own of ∧ of.filterMap (FilterOperator.pass comparator.predicate) = items where
  streams   := .iff (FilterOperator.streams h.streams) exists_owned_iff
  create hw := by
    refine (h.create hw).mono ?_
    rintro _ t (hl | ⟨st, own, rfl, hh, hw⟩)
    · exact .inl hl
    · exact .inr ⟨st, own, rfl, ⟨full, hh, rfl⟩, hw⟩

theorem projection (h : op.Runs others tx views scans full holds) (columns : List ℕ) (schema : Schema) :
    (op.projection columns schema).Runs others tx views scans (full.map (· >>= ProjectionOperator.project columns))
      fun st own items => ∃ of, holds st own of ∧ of.map (· >>= ProjectionOperator.project columns) = items where
  streams   := .iff (ProjectionOperator.streams h.streams) exists_owned_iff
  create hw := by
    refine (h.create hw).mono ?_
    rintro _ t (hl | ⟨st, own, rfl, hh, hw⟩)
    · exact .inl hl
    · exact .inr ⟨st, own, rfl, ⟨full, hh, rfl⟩, hw⟩

theorem limit (h : op.Runs others tx views scans full holds) (count : ℕ) :
    (op.limit count).Runs others tx views scans (full.take count)
      fun st own items => ∃ of, holds st.1 own of ∧ of.take (count - st.2) = items where
  streams {spare rest} := by
    have hs : Streams _ _ _ full (Owned (World tx views (spare + 1)) holds rest) := h.streams
    refine .iff (.on (LimitOperator.streams hs) (fun _ _ => id) fun _ _ => rfl) ?_
    rintro items ⟨s, st, produced⟩
    constructor
    · rintro ⟨of, ⟨own, hh, hw⟩, rfl⟩
      exact ⟨own, ⟨of, hh, rfl⟩, hw⟩
    · rintro ⟨own, ⟨of, hh, rfl⟩, hw⟩
      exact ⟨of, ⟨own, hh, hw⟩, rfl⟩
  create hw            := by
    refine (h.create hw).bind ?_ ?_
    · rintro st t (hl | ⟨_, own, he, hh, hw⟩)
      · exact .pure <| .inl hl
      · obtain rfl := Except.ok.inj he
        exact .pure <| .inr ⟨_, own, rfl, ⟨full, hh, rfl⟩, hw⟩
    · rintro e t (hl | ⟨_, _, he, _⟩)
      · exact .inl hl
      · cases he

theorem nestedLoopJoin (hl : left.Runs others tx views scansLeft fullLeft holdsLeft)
    (hr : right.Runs others tx views scansRight fullRight holdsRight) (predicate : Expression) (schema : Schema) :
    (left.nestedLoopJoin right predicate schema).Runs others tx views (scansLeft + scansRight)
      (leftItems predicate.predicate fullRight fullLeft)
      fun st own items => ∃ total m, Pending predicate.predicate fullRight
        (fun _ ls rs p => ∃ ownLeft ownRight, holdsLeft p.1.1 ownLeft ls ∧ holdsRight p.1.2 ownRight rs ∧
          p.2 = ownLeft ++ ownRight) total items m ((st.1, own), st.2) where
  streams {spare rest} := by
    have hc : Children (Database.lost tx ∘ Prod.fst) (left.watched others).onLeft (left.cursor others).onLeft
        (right.watched others).onRight (right.cursor others).onRight fullRight
        fun _ => Both (World tx views (spare + 1)) holdsLeft holdsRight rest := {
      nextLeft   := (Streams.left hl.streams).next
      nextRight  := (Streams.right (fun hp hw => hw.perm hp) hr.streams).next
      resetRight := (Streams.right (fun hp hw => hw.perm hp) hr.streams).reset }
    refine .iff (.on (NestedLoopJoin.streams hc (Streams.left hl.streams).reset) (fun _ _ => id) fun _ _ => rfl) ?_
    rintro items ⟨s, st, join⟩
    constructor
    · rintro ⟨total, m, n, ls, rs, ⟨ownLeft, ownRight, hl, hr, hw⟩, hresets, hstart, hitems, hm⟩
      refine ⟨ownLeft ++ ownRight, ⟨total, m, n, ls, rs, ⟨ownLeft, ownRight, hl, hr, rfl⟩, hresets, hstart, hitems, hm⟩, ?_⟩
      rwa [List.append_assoc]
    · rintro ⟨_, ⟨total, m, n, ls, rs, ⟨ownLeft, ownRight, hl, hr, rfl⟩, hresets, hstart, hitems, hm⟩, hw⟩
      refine ⟨total, m, n, ls, rs, ⟨ownLeft, ownRight, hl, hr, ?_⟩, hresets, hstart, hitems, hm⟩
      rwa [←List.append_assoc]
  create {spare rest s} hw := by
    have hw : World tx views (spare + scansRight + scansLeft) rest s := by rwa [Nat.add_right_comm, Nat.add_assoc]
    refine (hl.create hw).bind ?_ ?_
    case refine_2 =>
      rintro e t (hl | ⟨_, _, he, _⟩)
      · exact .inl hl
      · cases he
    rintro stLeft t (hlost | ⟨_, ownLeft, he, hhl, hw⟩)
    · exact (create_lost right hlost).bind (fun hl => .pure <| .inl hl) .inl
    · obtain rfl := Except.ok.inj he
      refine (hr.create hw).bind ?_ ?_
      · rintro stRight u (hl | ⟨_, ownRight, he, hhr, hw⟩)
        · exact .pure <| .inl hl
        · obtain rfl := Except.ok.inj he
          refine .pure <| .inr ⟨_, ownLeft ++ ownRight, rfl, ?_, ?_⟩
          · exact ⟨_, _, 0, fullLeft, fullRight, ⟨ownLeft, ownRight, hhl, hhr, rfl⟩, rfl, fun _ => rfl, if_pos rfl, rfl⟩
          · rw [List.append_assoc]
            exact hw.perm <| List.perm_append_comm_assoc ..
      · rintro e t (hl | ⟨_, _, he, _⟩)
        · exact .inl hl
        · cases he

end Runs

end Operator

namespace Executor

theorem runs (hu : Undisturbed others tx views) (hp : plan.OnChains views) :
    ∃ full holds, (operator tx plan).Runs others tx views plan.scans full holds := by
  induction plan
  case sequentialScan table =>
    obtain ⟨ps, hc⟩ := hp
    exact ⟨_, _, SequentialScanOperator.streams hu hc, SequentialScanOperator.create_ends hc⟩
  case nestedLoopJoin left right predicate schema ihl ihr =>
    obtain ⟨_, _, hl⟩ := ihl hp.1
    obtain ⟨_, _, hr⟩ := ihr hp.2
    exact ⟨_, _, hl.nestedLoopJoin hr predicate schema⟩
  case filter child predicate ih =>
    obtain ⟨_, _, h⟩ := ih hp
    exact ⟨_, _, h.filter predicate⟩
  case projection child columns schema ih =>
    obtain ⟨_, _, h⟩ := ih hp
    exact ⟨_, _, h.projection columns schema⟩
  case limit child limit ih =>
    obtain ⟨_, _, h⟩ := ih hp
    exact ⟨_, _, h.limit limit⟩

-- Calls of the tree, in one of which a scan comes to a state that has lost something.
abbrev RunLoses (others : Database → Database) (tx : Option TransactionID) (op : Operator) :=
  RunFails (Database.lost tx ∘ Prod.fst) (op.watched others) (op.cursor others)

-- Calls of `next` of a tree that has just been built have these results.
def Drains (others : Database → Database) (tx : Option TransactionID) (views : Views) (plan : PhysicalPlanNode)
    (results : List (Except String (Option Record))) : Prop :=
  ∀ {s}, World tx views (plan.scans + 1) [] s → (build tx plan).Ends s fun result t => t.lost tx = true ∨
    ∃ op st, result = .ok ⟨op, st⟩ ∧ (RunLoses others tx op (.replicate results.length .next) (t, st) ∨
      ∃ u, (op.cursor others).run (.replicate results.length .next) (t, st) = some (results, u))

-- Whatever has been called, the tree starts again after a reset, and once there is no record more there is none
-- until the next reset.
structure Restarts (others : Database → Database) (tx : Option TransactionID) (views : Views) (plan : PhysicalPlanNode)
    (op : Operator) (p : Database × op.State) : Prop where
  reset : ∀ calls n, RunLoses others tx op (calls ++ .reset :: .replicate n .next) p ∨ ∃ before results t,
    (op.cursor others).run (calls ++ .reset :: .replicate n .next) p = some (before ++ .ok none :: results, t) ∧
      before.length = calls.length ∧ results.length = n ∧ Drains others tx views plan results
  none  : ∀ calls n, RunLoses others tx op (calls ++ .replicate n .next) p ∨ ∃ before results t,
    (op.cursor others).run (calls ++ .replicate n .next) p = some (before ++ results, t) ∧
      before.length = calls.length ∧ results.length = n ∧
        ∀ i j, i ≤ j → j < n → results[i]? = some (.ok none) → results[j]? = some (.ok none)

theorem build_ends (hr : (operator tx plan).Runs others tx views plan.scans full holds)
    (hw : World tx views (plan.scans + 1) [] s) :
    (build tx plan).Ends s fun result t => t.lost tx = true ∨ ∃ st, result = .ok ⟨operator tx plan, st⟩ ∧
      Owned (World tx views 1) holds [] full (t, st) := by
  have hw : World tx views (1 + plan.scans) [] s := by rwa [Nat.add_comm]
  refine (hr.create hw).bind ?_ ?_
  · rintro st t (hl | ⟨_, own, he, hh, hw⟩)
    · exact .pure <| .inl hl
    · obtain rfl := Except.ok.inj he
      exact .pure <| .inr ⟨st, rfl, own, hh, hw⟩
  · rintro e t (hl | ⟨_, _, he, _⟩)
    · exact .inl hl
    · cases he

theorem reset_restarts (hu : Undisturbed others tx views) (hp : plan.OnChains views)
    (hw : World tx views (plan.scans + 1) [] s) :
    (build tx plan).Ends s fun result t => t.lost tx = true ∨
      ∃ op st, result = .ok ⟨op, st⟩ ∧ Restarts others tx views plan op (t, st) := by
  obtain ⟨full, holds, hr⟩ := runs hu hp
  have hd (n : ℕ) : Drains others tx views plan (answers full full (.replicate n .next)) := by
    intro s hw
    refine (build_ends hr hw).mono fun h => h.imp_right ?_
    rintro ⟨st, rfl, ho⟩
    refine ⟨_, st, rfl, ?_⟩
    rw [answers_length, List.length_replicate]
    exact (hr.streams.run ho _).imp_right fun ⟨u, hx, _⟩ => ⟨u, hx⟩
  refine (build_ends hr hw).mono fun h => h.imp_right ?_
  rintro ⟨st, rfl, ho⟩
  refine ⟨_, st, rfl, fun calls n => ?_, fun calls n => ?_⟩
  · refine (hr.streams.run ho _).imp_right ?_
    rintro ⟨u, hx, _⟩
    rw [answers_append] at hx
    exact ⟨_, _, u, hx, answers_length, by rw [answers_length, List.length_replicate], hd n⟩
  · refine (hr.streams.run ho _).imp_right ?_
    rintro ⟨u, hx, _⟩
    rw [answers_append] at hx
    refine ⟨_, _, u, hx, answers_length, by rw [answers_length, List.length_replicate], fun i j hij hj hi => ?_⟩
    exact answers_next_none hij hj hi

-- A heap with one tuple, before a transaction that has begun.
theorem stocked {bytes : List UInt8} {p : Pager} (hb : bytes.length ≤ 8180)
    (e : TableHeap.insertTuple ⟨1⟩ bytes TableHeap.fresh = some (.ok (some ⟨1, 0⟩), p)) (hd : p.denied = false) :
    ∃ views s, World (some 0) views 3 [] s ∧ SequentialScanOperator.Chained views ⟨1⟩ [1] ∧
      rows views [1] 0 = [(⟨1, 0⟩, bytes)] := by
  have hs := TableHeap.turn_shows TableHeap.fresh_shows (Function.update_self ..) rfl hb e hd
  rw [Function.update_idem] at hs
  have hw : World (some 0) _ 3 [] (TransactionManager.init p).begin.2 := ⟨⟨[], hs, by decide⟩, by rintro _ ⟨rfl⟩; rfl⟩
  refine ⟨_, _, hw, ⟨.cons (Function.update_self ..) (by decide) List.not_mem_nil .nil, by decide⟩, ?_⟩
  have hrows : (PageView.empty.bind 0 bytes).rows 1 0 = [(⟨1, 0⟩, bytes)] := by
    rw [PageView.rows_live Nat.zero_lt_one PageView.bind_slots_self, PageView.rows_end (Nat.le_refl 1)]
  simp only [rows, Function.update_self, Option.elim_some, hrows, List.append_nil]

-- A table with one column joined with itself.
def selfJoin : PhysicalPlanNode :=
  let scan := .sequentialScan ⟨⟨1⟩, ⟨[{ name := [], type := .bool, length := 0 }]⟩⟩
  .limit (.filter (.nestedLoopJoin scan scan (.constant (.bool true)) ⟨[]⟩) (.column 0)) 1

-- The table has one row, of TRUE.
theorem reset_restarts_selfJoin : ∃ views s, rows views [1] 0 = [(⟨1, 0⟩, [0, 1])] ∧ World (some 0) views 3 [] s ∧
    (build (some 0) selfJoin).Ends s fun result t => t.lost (some 0) = true ∨
      ∃ op st, result = .ok ⟨op, st⟩ ∧ Restarts id (some 0) views selfJoin op (t, st) := by
  have e : TableHeap.insertTuple ⟨1⟩ [0, 1] TableHeap.fresh =
      some (.ok (some ⟨1, 0⟩), TableHeap.after (TableHeap.turn [0, 1]) TableHeap.fresh) :=
    TableHeap.insertFrom_here (f := 0) rfl rfl
  obtain ⟨views, s, hw, hc, hrows⟩ := stocked (by decide) e rfl
  exact ⟨views, s, hrows, hw, reset_restarts ⟨fun _ _ _ => rfl, id⟩ ⟨⟨[1], hc⟩, ⟨[1], hc⟩⟩ hw⟩

end Executor
end Duck
