import Duck.Execution.NestedLoopJoin
import Mathlib.Data.List.Basic

namespace Duck.NestedLoopJoin

open Program Cursor

-- A record to come, or an exception in its place.
abbrev Item := Except String Record

-- What `fetch_block` makes of the records to come. An exception takes those before it with it.
def fetched : ℕ → List Item → Except String (List Record) × List Item
  | 0,     items              => (.ok [], items)
  | _ + 1, []                 => (.ok [], [])
  | _ + 1, .error e :: items  => (.error e, items)
  | n + 1, .ok record :: items =>
    ((record :: ·) <$> (fetched n items).1, (fetched n items).2)

theorem fetched_length (n : ℕ) (items : List Item) :
    (fetched n items).2.length ≤ items.length ∧
      ∀ {block}, (fetched n items).1 = .ok block → block.length + (fetched n items).2.length = items.length := by
  induction n, items using fetched.induct
  case case1 items              => exact ⟨le_rfl, by rintro _ ⟨rfl⟩; exact Nat.zero_add _⟩
  case case2                    => exact ⟨le_rfl, by rintro _ ⟨rfl⟩; rfl⟩
  case case3 e items            => exact ⟨Nat.le_succ _, fun h => absurd h Except.error_ne_ok⟩
  case case4 n record items ih  =>
    refine ⟨Nat.le_succ_of_le ih.left, fun h => ?_⟩
    obtain ⟨block, hb, rfl⟩ := Except.map_eq_ok.mp h
    rw [List.length_cons, List.length_cons, ←ih.right hb]
    exact Nat.add_right_comm ..

theorem fetched_lt (hi : items ≠ []) : (fetched (n + 1) items).2.length < items.length := by
  obtain _ | ⟨_ | record, items⟩ := items
  · exact absurd rfl hi
  · exact Nat.lt_succ_self _
  · exact Nat.lt_succ_of_le (fetched_length n items).left

theorem fetched_eq_nil (h : (fetched (n + 1) items).1 = .ok []) : items = [] := by
  obtain _ | ⟨_ | record, items⟩ := items
  · rfl
  · cases h
  · obtain ⟨_, _, h⟩ := Except.map_eq_ok.mp h
    cases h

section items

variable (predicate : Predicate)

-- What the join gives for two records.
def matched (right left : Record) : List Item :=
  match predicate.accepts (left + right) with
  | .ok true  => [.ok (left + right)]
  | .ok false => []
  | .error e  => [.error e]

def matchedBlock (block : List Record) (right : Record) : List Item :=
  block.flatMap <| matched predicate right

-- What it gives for a block from the left side, with these records to come from the right one.
def rightItems (block : List Record) (rs : List Item) : List Item :=
  if rs = [] then
    []
  else
    (match (fetched kBlockSize rs).1 with
      | .ok records => records.flatMap (matchedBlock predicate block)
      | .error e    => [.error e]) ++ rightItems block (fetched kBlockSize rs).2
termination_by rs.length
decreasing_by exact fetched_lt ‹_›

-- What it gives for the records to come from the left side, where the right one has `full` after each reset.
def leftItems (full ls : List Item) : List Item :=
  if ls = [] then
    []
  else
    (match (fetched kBlockSize ls).1 with
      | .ok block => rightItems predicate block full
      | .error e  => [.error e]) ++ leftItems full (fetched kBlockSize ls).2
termination_by ls.length
decreasing_by exact fetched_lt ‹_›

-- How many blocks are still to come from the left side.
def blockCount (ls : List Item) : ℕ :=
  if ls = [] then
    0
  else
    (match (fetched kBlockSize ls).1 with
      | .ok _    => 1
      | .error _ => 0) + blockCount (fetched kBlockSize ls).2
termination_by ls.length
decreasing_by exact fetched_lt ‹_›

variable {predicate} {block records : List Record} {full ls rs rest : List Item}

@[simp]
theorem rightItems_nil : rightItems predicate block [] = [] := by
  rw [rightItems, if_pos rfl]

theorem rightItems_ok (hr : rs ≠ []) (h : fetched kBlockSize rs = (.ok records, rest)) :
    rightItems predicate block rs = records.flatMap (matchedBlock predicate block) ++ rightItems predicate block rest := by
  rw [rightItems, if_neg hr, h]

theorem rightItems_error (hr : rs ≠ []) (h : fetched kBlockSize rs = (.error e, rest)) :
    rightItems predicate block rs = .error e :: rightItems predicate block rest := by
  rw [rightItems, if_neg hr, h, List.singleton_append]

@[simp]
theorem leftItems_nil : leftItems predicate full [] = [] := by
  rw [leftItems, if_pos rfl]

theorem leftItems_ok (hl : ls ≠ []) (h : fetched kBlockSize ls = (.ok block, rest)) :
    leftItems predicate full ls = rightItems predicate block full ++ leftItems predicate full rest := by
  rw [leftItems, if_neg hl, h]

theorem leftItems_error (hl : ls ≠ []) (h : fetched kBlockSize ls = (.error e, rest)) :
    leftItems predicate full ls = .error e :: leftItems predicate full rest := by
  rw [leftItems, if_neg hl, h, List.singleton_append]

@[simp]
theorem blockCount_nil : blockCount [] = 0 := by
  rw [blockCount, if_pos rfl]

theorem blockCount_ok (hl : ls ≠ []) (h : fetched kBlockSize ls = (.ok block, rest)) :
    blockCount ls = 1 + blockCount rest := by
  rw [blockCount, if_neg hl, h]

theorem blockCount_error (hl : ls ≠ []) (h : fetched kBlockSize ls = (.error e, rest)) :
    blockCount ls = blockCount rest := by
  rw [blockCount, if_neg hl, h, Nat.zero_add]

end items

-- Both children on one state. `J n ls rs` says what is to come from them, and how often the right one has been
-- reset.
structure Children (bad : σ → Bool) (left' left right' right : Cursor σ String Record) (rightFull : List Item)
    (J : ℕ → List Item → List Item → σ → Prop) : Prop where
  nextLeft   : ∀ {n ls rs s}, J n ls rs s →
    EndsUnless bad left'.next left.next s fun result t => result = item ls ∧ J n ls.tail rs t
  nextRight  : ∀ {n ls rs s}, J n ls rs s →
    EndsUnless bad right'.next right.next s fun result t => result = item rs ∧ J n ls rs.tail t
  resetRight : ∀ {n ls rs s}, J n ls rs s →
    EndsUnless bad right'.reset right.reset s fun result t => result = .ok () ∧ J (n + 1) ls rightFull t

variable {bad : σ → Bool} {left' left right' right op op' : Cursor σ String Record} {predicate : Predicate}
variable {leftFull rightFull : List Item}

theorem fetchBlock_ends {I : List Item → σ → Prop}
    (h : ∀ {items s}, I items s →
      EndsUnless bad op'.next op.next s fun result t => result = item items ∧ I items.tail t) (hi : I items s) :
    EndsUnless bad (fetchBlock op' n) (fetchBlock op n) s fun result t =>
      result = (fetched n items).1 ∧ I (fetched n items).2 t := by
  induction n generalizing items s
  case zero      => exact .pure ⟨rfl, hi⟩
  case succ n ih =>
    refine (h hi).bind ?_ ?_
    · rintro record t ⟨hr, ht⟩
      obtain _ | ⟨_ | r, items⟩ := items
      · cases hr
        exact .pure ⟨rfl, ht⟩
      · cases hr
      · cases hr
        rw [List.tail_cons] at ht
        refine (ih ht).bind ?_ ?_
        · rintro block u ⟨hb, hu⟩
          exact .pure ⟨by rw [fetched, ←hb]; rfl, hu⟩
        · rintro e u ⟨he, hu⟩
          exact ⟨by rw [fetched, ←he]; rfl, hu⟩
    · rintro e t ⟨hr, ht⟩
      obtain _ | ⟨e' | r, items⟩ := items <;> cases hr
      exact ⟨rfl, ht⟩

-- What is to come for the current block from the left side, of the current block from the right one.
def current (predicate : Predicate) (join : State) : List Item :=
  match join.rightBlock.drop join.rightIt with
  | []            => []
  | right :: rest =>
    (join.leftBlock.drop join.leftIt).flatMap (matched predicate right) ++
      rest.flatMap (matchedBlock predicate join.leftBlock)

theorem current_of_start {join : State} (h : join.leftIt = 0) :
    current predicate join = (join.rightBlock.drop join.rightIt).flatMap (matchedBlock predicate join.leftBlock) := by
  rw [current]
  split
  case h_1 hd => rw [hd, List.flatMap_nil]
  case h_2 hd => rw [hd, h, List.drop_zero, List.flatMap_cons, matchedBlock]

def toCome (predicate : Predicate) (rightFull ls rs : List Item) (join : State) : List Item :=
  if join.leftBlock = [] then
    leftItems predicate rightFull ls
  else
    current predicate join ++ rightItems predicate join.leftBlock rs ++ leftItems predicate rightFull ls

-- What becomes less from turn to turn: the records to come from the left side, those from the right one for
-- the current left block, and the rest of that for the current right record.
def measure (ls rs : List Item) (join : State) : ℕ × ℕ × ℕ :=
  (ls.length,
    if join.leftBlock = [] then 0 else 1 + 2 * rs.length + (join.rightBlock.length - join.rightIt),
    join.leftBlock.length - join.leftIt)

def Less : ℕ × ℕ × ℕ → ℕ × ℕ × ℕ → Prop :=
  Prod.Lex (· < ·) (Prod.Lex (· < ·) (· < ·))

theorem less_wf : WellFounded Less :=
  WellFounded.prod_lex Nat.lt_wfRel.wf (WellFounded.prod_lex Nat.lt_wfRel.wf Nat.lt_wfRel.wf)

instance : IsTrans (ℕ × ℕ × ℕ) Less :=
  inferInstanceAs (IsTrans _ (Prod.Lex (· < ·) (Prod.Lex (· < ·) (· < ·))))

theorem Less.of_le (h : Less m₁ m₂) (hm : m₂ = m ∨ Less m₂ m) : Less m₁ m := by
  obtain rfl | hm := hm
  · exact h
  · exact IsTrans.trans (r := Less) _ _ _ h hm

section turn

variable (predicate : Predicate) (rightFull : List Item) (J : ℕ → List Item → List Item → σ → Prop) (total : ℕ)

-- The join between two turns. The right side is reset `total` times, all told.
structure At (items : List Item) (m : ℕ × ℕ × ℕ) (n : ℕ) (ls rs : List Item) (s : σ) (join : State) : Prop where
  children : J n ls rs s
  resets   : n + blockCount ls = total
  start    : join.rightBlock.length ≤ join.rightIt → join.leftIt = 0
  items    : toCome predicate rightFull ls rs join = items
  measure  : measure ls rs join = m

def Pending (items : List Item) (m : ℕ × ℕ × ℕ) (p : σ × State) : Prop :=
  ∃ n ls rs, At predicate rightFull J total items m n ls rs p.1 p.2

-- A call that ends has given the first of what was to come. Where there was nothing to come, the left side is
-- exhausted.
def Given (items : List Item) (result : Except String (Option Record)) (p : σ × State) : Prop :=
  result = item items ∧ ∃ m, Pending predicate rightFull J total items.tail m p ∧ (items = [] → m.1 = 0)

-- What the first and the second part of a turn leave. `P` is what they are for.
def Loaded (P : State → Prop) (lost : (ℕ × ℕ × ℕ) → σ × State → Prop) (items : List Item) (m : ℕ × ℕ × ℕ) :
    Except String Bool → σ × State → Prop
  | .error e,   p => Given predicate rightFull J total items (.error e) p
  | .ok false,  p => lost m p
  | .ok true,   p => P p.2 ∧ ∃ m', (m' = m ∨ Less m' m) ∧ Pending predicate rightFull J total items m' p

end turn

variable {J : ℕ → List Item → List Item → σ → Prop} {p : σ × State} {total : ℕ} {items : List Item} {m : ℕ × ℕ × ℕ}

-- A call of a child leaves the members of the join alone.
theorem onChild_ends {x x' : Program σ String α} {P : Except String α → σ → Prop} {join : State}
    (h : EndsUnless bad x' x s P) :
    EndsUnless (bad ∘ Prod.fst) (onChild x') (onChild x) (s, join) fun result p => P result p.1 ∧ p.2 = join :=
  .on (fun _ _ => id) <| h.mono fun h => ⟨h, rfl⟩

theorem loadLeft_ends (hc : Children bad left' left right' right rightFull J)
    (hp : Pending predicate rightFull J total items m p) :
    EndsUnless (bad ∘ Prod.fst) (loadLeft left' right') (loadLeft left right) p
      (Loaded predicate rightFull J total (fun join => join.leftBlock ≠ [])
        (fun _ p => Given predicate rightFull J total items (.ok none) p) items m) := by
  obtain ⟨n, ls, rs, hp⟩ := hp
  obtain ⟨s, join⟩ := p
  change EndsUnless _ (if _ then _ else _) (if _ then _ else _) _ _
  by_cases hb : join.leftBlock = []
  case neg =>
    rw [if_pos (by simpa using hb), if_pos (by simpa using hb)]
    exact .pure ⟨hb, m, .inl rfl, n, ls, rs, hp⟩
  case pos =>
    rw [if_neg (by simpa using hb), if_neg (by simpa using hb)]
    obtain ⟨hj, hn, hstart, hitems, rfl⟩ := hp
    rw [toCome, if_pos hb] at hitems
    refine (onChild_ends <| fetchBlock_ends hc.nextLeft hj).bind ?_ ?_
    case refine_2 =>
      rintro e ⟨t, join'⟩ ⟨⟨he, ht⟩, (rfl : join' = join)⟩
      have hl : ls ≠ [] := by
        rintro rfl
        cases he
      have hf : fetched kBlockSize ls = (.error e, (fetched kBlockSize ls).2) := Prod.ext he.symm rfl
      rw [leftItems_error hl hf] at hitems
      subst hitems
      refine ⟨rfl, _, ⟨n, _, rs, ht, by rw [←hn, blockCount_error hl hf], hstart, ?_, rfl⟩, nofun⟩
      exact if_pos hb
    case refine_1 =>
      rintro block ⟨t, join'⟩ ⟨⟨he, ht⟩, (rfl : join' = join)⟩
      by_cases hbl : block = []
      case pos =>
        subst hbl
        obtain rfl := fetched_eq_nil he.symm
        rw [leftItems_nil] at hitems
        subst hitems
        refine .pure ⟨rfl, _, ⟨n, _, rs, ht, hn, hstart, ?_, rfl⟩, fun _ => rfl⟩
        exact (if_pos rfl).trans leftItems_nil
      case neg =>
        have hl : ls ≠ [] := by
          rintro rfl
          exact hbl <| (Except.ok.inj he)
        have hf : fetched kBlockSize ls = (.ok block, (fetched kBlockSize ls).2) := Prod.ext he.symm rfl
        rw [leftItems_ok hl hf] at hitems
        change EndsUnless _ (if _ then _ else _) (if _ then _ else _) _ _
        rw [if_neg (by simpa using hbl), if_neg (by simpa using hbl)]
        change EndsUnless _ (onChild _ >>= _) (onChild _ >>= _) _ _
        refine (onChild_ends (hc.resetRight ht)).bind ?_ ?_
        · rintro _ ⟨u, join'⟩ ⟨⟨-, hu⟩, (rfl : join' = _)⟩
          refine .pure ⟨hbl, _, .inr <| .left _ _ <| fetched_lt hl, n + 1, _, rightFull, hu, ?_, fun _ => rfl, ?_, rfl⟩
          · rw [←hn, blockCount_ok hl hf, Nat.add_assoc]
          · rw [←hitems]
            exact if_neg hbl
        · rintro e _ ⟨⟨he, -⟩, -⟩
          cases he

theorem loadRight_ends (hc : Children bad left' left right' right rightFull J)
    (hp : Pending predicate rightFull J total items m p) (hb : p.2.leftBlock ≠ []) :
    EndsUnless (bad ∘ Prod.fst) (loadRight right') (loadRight right) p
      (Loaded predicate rightFull J total (fun join => join.leftBlock ≠ [] ∧ join.rightIt < join.rightBlock.length)
        (fun m p => ∃ m', Less m' m ∧ Pending predicate rightFull J total items m' p) items m) := by
  obtain ⟨n, ls, rs, hp⟩ := hp
  obtain ⟨s, join⟩ := p
  change EndsUnless _ (if _ then _ else _) (if _ then _ else _) _ _
  by_cases hi : join.rightIt < join.rightBlock.length
  case pos =>
    rw [if_pos hi, if_pos hi]
    exact .pure ⟨⟨hb, hi⟩, m, .inl rfl, n, ls, rs, hp⟩
  case neg =>
    rw [if_neg hi, if_neg hi]
    obtain ⟨hj, hn, hstart, hitems, rfl⟩ := hp
    have h0 := hstart <| not_lt.mp hi
    have hcur : current predicate join = [] := by
      rw [current, List.drop_eq_nil_of_le <| not_lt.mp hi]
    rw [toCome, if_neg hb, hcur, List.nil_append] at hitems
    refine (onChild_ends <| fetchBlock_ends hc.nextRight hj).bind ?_ ?_
    case refine_2 =>
      rintro e ⟨t, join'⟩ ⟨⟨he, ht⟩, (rfl : join' = join)⟩
      have hr : rs ≠ [] := by
        rintro rfl
        cases he
      have hf : fetched kBlockSize rs = (.error e, (fetched kBlockSize rs).2) := Prod.ext he.symm rfl
      rw [rightItems_error hr hf] at hitems
      subst hitems
      refine ⟨rfl, _, ⟨n, ls, _, ht, hn, hstart, ?_, rfl⟩, nofun⟩
      rw [toCome, if_neg hb, hcur]
      rfl
    case refine_1 =>
      rintro block ⟨t, join'⟩ ⟨⟨he, ht⟩, (rfl : join' = join)⟩
      by_cases hbl : block = []
      case pos =>
        subst hbl
        obtain rfl := fetched_eq_nil he.symm
        rw [rightItems_nil, List.nil_append] at hitems
        refine .pure ⟨_, ?_, n, ls, _, ht, hn, fun _ => h0, (if_pos rfl).trans hitems, rfl⟩
        refine .right _ <| .left _ _ ?_
        simp [hb]
      case neg =>
        have hr : rs ≠ [] := by
          rintro rfl
          exact hbl <| (Except.ok.inj he)
        have hf : fetched kBlockSize rs = (.ok block, (fetched kBlockSize rs).2) := Prod.ext he.symm rfl
        rw [rightItems_ok hr hf] at hitems
        change EndsUnless _ (if _ then _ else _) (if _ then _ else _) _ _
        rw [if_neg (by simpa using hbl)]
        refine .pure ⟨⟨hb, List.length_pos_iff.mpr hbl⟩, _, .inr ?_, n, ls, _, ht, hn, fun _ => h0, ?_, rfl⟩
        · refine .right _ <| .left _ _ ?_
          have hlen := (fetched_length kBlockSize rs).right he.symm
          have hpos := List.length_pos_iff.mpr hbl
          simp only [hb, if_false, Prod.map_snd]
          omega
        · rw [←hitems]
          exact (if_neg hb).trans <| congrArg₂ _ (congrArg₂ _ (current_of_start h0) rfl) rfl

theorem compareNext_ends (hp : Pending predicate rightFull J total items m p) (hb : p.2.leftBlock ≠ [])
    (hi : p.2.rightIt < p.2.rightBlock.length) :
    (compareNext predicate).Ends p fun result t => match result with
      | .ok none => ∃ m', Less m' m ∧ Pending predicate rightFull J total items m' t
      | result   => Given predicate rightFull J total items result t := by
  obtain ⟨n, ls, rs, hj, hn, hstart, hitems, rfl⟩ := hp
  obtain ⟨s, join⟩ := p
  set record := join.rightBlock.getD join.rightIt ⟨[]⟩ with hrecord
  have hr : join.rightBlock.drop join.rightIt = record :: join.rightBlock.drop (join.rightIt + 1) := by
    rw [List.drop_eq_getElem_cons hi, hrecord, List.getD_eq_getElem?_getD, List.getElem?_eq_getElem hi, Option.getD_some]
  rw [toCome, if_neg hb, current, hr] at hitems
  simp only at hitems
  unfold compareNext
  refine .bind (⟨.ok join, (s, join), rfl, rfl, rfl⟩ : state.Ends (s, join) fun result t =>
    result = .ok join ∧ t = (s, join)) ?_ fun h => absurd h.1 Except.error_ne_ok
  rintro _ _ ⟨h, rfl⟩
  obtain rfl := (Except.ok.inj h).symm
  cases hl : join.leftBlock[join.leftIt]?
  case none          =>
    have hle := List.getElem?_eq_none_iff.mp hl
    rw [List.drop_eq_nil_of_le hle, List.flatMap_nil, List.nil_append] at hitems
    refine .pure ⟨_, .right _ <| .left _ _ ?_, n, ls, rs, hj, hn, fun _ => rfl, ?_, rfl⟩
    · simp only [hb, if_false, Prod.map_snd]
      have : join.rightIt < join.rightBlock.length := hi
      omega
    · rw [←hitems]
      exact (if_neg hb).trans <| congrArg₂ _ (congrArg₂ _ (current_of_start rfl) rfl) rfl
  case some leftRecord =>
    obtain ⟨hlt, rfl⟩ := List.getElem?_eq_some_iff.mp hl
    rw [List.drop_eq_getElem_cons hlt, List.flatMap_cons, matched] at hitems
    have hnext : ∀ {items}, (join.leftBlock.drop (join.leftIt + 1)).flatMap (matched predicate record) ++
          (join.rightBlock.drop (join.rightIt + 1)).flatMap (matchedBlock predicate join.leftBlock) ++
          rightItems predicate join.leftBlock rs ++ leftItems predicate rightFull ls = items →
        ∃ m', Less m' (measure ls rs join) ∧
          Pending predicate rightFull J total items m' (s, { join with leftIt := join.leftIt + 1 }) := by
      rintro _ rfl
      refine ⟨_, .right _ <| .right _ ?_, n, ls, rs, hj, hn, fun h => absurd hi h.not_gt, ?_, rfl⟩
      · exact Nat.sub_lt_sub_left hlt <| Nat.lt_succ_self _
      · rw [toCome, if_neg hb, current, hr]
    change Ends (ofExcept (predicate.accepts (join.leftBlock[join.leftIt] + record)) >>= _) _ _
    rcases ha : predicate.accepts (join.leftBlock[join.leftIt] + record) with e | _ | _
    · rw [ha] at hitems
      subst hitems
      obtain ⟨m', -, hp⟩ := hnext rfl
      exact .throw ⟨rfl, m', by simpa using hp, by simp⟩
    · rw [ha] at hitems
      exact .pure <| hnext <| by simpa using hitems
    · rw [ha] at hitems
      subst hitems
      obtain ⟨m', -, hp⟩ := hnext rfl
      exact .pure ⟨rfl, m', by simpa using hp, by simp⟩

theorem turn_ends (hc : Children bad left' left right' right rightFull J)
    (hp : Pending predicate rightFull J total items m p) :
    EndsUnless (bad ∘ Prod.fst) (turn left' right' predicate) (turn left right predicate) p
      (EndsUnless.Turn Less (Pending predicate rightFull J total items) (Given predicate rightFull J total items) m) := by
  refine (loadLeft_ends hc hp).bind ?_ id
  rintro (_ | _) t hl
  · exact .pure hl
  obtain ⟨hb, m₁, hm₁, hp⟩ := hl
  refine (loadRight_ends hc hp hb).bind ?_ id
  rintro (_ | _) u hr
  · obtain ⟨m₂, hm₂, hp⟩ := hr
    exact .pure ⟨m₂, hm₂.of_le hm₁, hp⟩
  obtain ⟨⟨hb, hi⟩, m₂, hm₂, hp⟩ := hr
  refine .bind (.same <| compareNext_ends hp hb hi) ?_ id
  rintro (_ | record) v hv
  · obtain ⟨m₃, hm₃, hp⟩ := hv
    exact .pure ⟨m₃, (hm₃.of_le hm₂).of_le hm₁, hp⟩
  · exact .pure hv

-- A call of `next` ends, and gives the first of what is to come.
theorem next_ends (hc : Children bad left' left right' right rightFull J)
    (hp : Pending predicate rightFull J total items m p) :
    EndsUnless (bad ∘ Prod.fst) (next left' right' predicate) (next left right predicate) p
      (Given predicate rightFull J total items) :=
  .untilSome less_wf (turn_ends hc) hp

theorem reset_ends (hc : Children bad left' left right' right rightFull J)
    (hl : ∀ {n ls rs s}, J n ls rs s →
      EndsUnless bad left'.reset left.reset s fun result t => result = .ok () ∧ J n leftFull rs t)
    (hp : Pending predicate rightFull J total items m p) :
    EndsUnless (bad ∘ Prod.fst) (reset left' right') (reset left right) p fun result t => result = .ok () ∧
      ∃ total m, Pending predicate rightFull J total (leftItems predicate rightFull leftFull) m t := by
  obtain ⟨n, ls, rs, hj, -⟩ := hp
  obtain ⟨s, join⟩ := p
  refine (onChild_ends <| hl hj).bind ?_ ?_
  case refine_2 => exact fun ⟨⟨he, _⟩, _⟩ => absurd he Except.error_ne_ok
  rintro _ ⟨t, join'⟩ ⟨⟨-, ht⟩, -⟩
  refine (onChild_ends <| hc.resetRight ht).bind ?_ ?_
  case refine_2 => exact fun ⟨⟨he, _⟩, _⟩ => absurd he Except.error_ne_ok
  rintro _ ⟨u, join'⟩ ⟨⟨-, hu⟩, -⟩
  exact .same <| .update ⟨rfl, _, _, n + 1, leftFull, rightFull, hu, rfl, fun _ => rfl, if_pos rfl, rfl⟩

theorem streams (hc : Children bad left' left right' right rightFull J)
    (hl : ∀ {n ls rs s}, J n ls rs s →
      EndsUnless bad left'.reset left.reset s fun result t => result = .ok () ∧ J n leftFull rs t) :
    Streams (bad ∘ Prod.fst) (cursor left' right' predicate) (cursor left right predicate)
      (leftItems predicate rightFull leftFull) (fun items p => ∃ total m, Pending predicate rightFull J total items m p) where
  reset := fun ⟨_, _, hp⟩ => reset_ends hc hl hp
  next  := fun ⟨total, _, hp⟩ => (next_ends hc hp).mono fun ⟨hr, m, hp, _⟩ => ⟨hr, total, m, hp⟩

-- Without exceptions the records to come are those of nested loops over blocks.

theorem drop_lt {ls : List Record} (hl : ls ≠ []) : (ls.drop kBlockSize).length < ls.length := by
  have := List.length_pos_iff.mpr hl
  rw [List.length_drop, kBlockSize]
  omega

def blocks (ls : List Record) : List (List Record) :=
  if ls = [] then
    []
  else
    ls.take kBlockSize :: blocks (ls.drop kBlockSize)
termination_by ls.length
decreasing_by exact drop_lt ‹_›

theorem blocks_cons {ls : List Record} (hl : ls ≠ []) :
    blocks ls = ls.take kBlockSize :: blocks (ls.drop kBlockSize) := by
  rw [blocks, if_neg hl]

def joinedBlock (predicate : Predicate) (rs block : List Record) : List Record :=
  rs.flatMap fun right => (block.filter fun left => predicate.accepts (left + right) = .ok true).map (· + right)

def joined (predicate : Predicate) (ls rs : List Record) : List Record :=
  (blocks ls).flatMap <| joinedBlock predicate rs

theorem fetched_ok (n : ℕ) (as : List Record) :
    fetched n (as.map Except.ok) = (.ok (as.take n), (as.drop n).map Except.ok) := by
  induction n generalizing as
  case zero      => rfl
  case succ n ih =>
    cases as
    case nil         => rfl
    case cons a as   =>
      rw [List.map_cons, fetched, ih]
      rfl

theorem matchedBlock_ok {block : List Record} {r : Record} (ha : ∀ l ∈ block, ∃ b, predicate.accepts (l + r) = .ok b) :
    matchedBlock predicate block r =
      ((block.filter fun l => predicate.accepts (l + r) = .ok true).map (· + r)).map Except.ok := by
  induction block
  case nil          => rfl
  case cons l ls ih =>
    have ih := ih fun l hl => ha l <| List.mem_cons_of_mem _ hl
    rw [matchedBlock] at ih ⊢
    rw [List.flatMap_cons, ih, matched, List.filter_cons]
    obtain ⟨b, hb⟩ := ha l List.mem_cons_self
    cases b <;> simp [hb]

theorem rightItems_eq (block rs : List Record)
    (ha : ∀ l ∈ block, ∀ r ∈ rs, ∃ b, predicate.accepts (l + r) = .ok b) :
    rightItems predicate block (rs.map Except.ok) = (joinedBlock predicate rs block).map Except.ok := by
  by_cases hr : rs = []
  case pos => rw [hr, List.map_nil, rightItems_nil, joinedBlock, List.flatMap_nil, List.map_nil]
  case neg =>
    rw [rightItems_ok (by simpa using hr) (fetched_ok _ rs), rightItems_eq block (rs.drop kBlockSize), joinedBlock]
    · rw [List.flatMap_congr fun right hr => matchedBlock_ok fun left hl => ha left hl right <| List.mem_of_mem_take hr]
      rw [←List.map_flatMap, ←List.map_append, ←List.flatMap_append, List.take_append_drop, joinedBlock]
    · exact fun left hl right hr => ha left hl right <| List.mem_of_mem_drop hr
termination_by rs.length
decreasing_by exact drop_lt hr

theorem leftItems_eq (ls rs : List Record)
    (ha : ∀ l ∈ ls, ∀ r ∈ rs, ∃ b, predicate.accepts (l + r) = .ok b) :
    leftItems predicate (rs.map Except.ok) (ls.map Except.ok) = (joined predicate ls rs).map Except.ok := by
  by_cases hl : ls = []
  case pos => rw [hl, List.map_nil, leftItems_nil, joined, blocks, if_pos rfl, List.flatMap_nil, List.map_nil]
  case neg =>
    rw [leftItems_ok (by simpa using hl) (fetched_ok _ ls), leftItems_eq (ls.drop kBlockSize) rs, rightItems_eq]
    · rw [joined, joined, blocks_cons hl, List.flatMap_cons, List.map_append]
    · exact fun left hl => ha left <| List.mem_of_mem_take hl
    · exact fun left hl => ha left <| List.mem_of_mem_drop hl
termination_by ls.length
decreasing_by exact drop_lt hl

theorem blockCount_eq (ls : List Record) : blockCount (ls.map Except.ok) = (blocks ls).length := by
  by_cases hl : ls = []
  case pos => rw [hl, List.map_nil, blockCount_nil, blocks, if_pos rfl, List.length_nil]
  case neg =>
    rw [blockCount_ok (by simpa using hl) (fetched_ok _ ls), blockCount_eq (ls.drop kBlockSize)]
    rw [blocks_cons hl, List.length_cons, Nat.add_comm]
termination_by ls.length
decreasing_by exact drop_lt hl

-- Children that have finitely many records and throw nothing.
structure Sides (left right : Cursor σ String Record) (rights : List Record) (J : List Record → List Record → σ → Prop) :
    Prop where
  nextLeft   : ∀ {ls rs s}, J ls rs s → left.next.Ends s fun result t => result = .ok ls.head? ∧ J ls.tail rs t
  nextRight  : ∀ {ls rs s}, J ls rs s → right.next.Ends s fun result t => result = .ok rs.head? ∧ J ls rs.tail t
  resetRight : ∀ {ls rs s}, J ls rs s → right.reset.Ends s fun result t => result = .ok () ∧ J ls rights t

variable {K : List Record → List Record → σ → Prop} {lefts rights rs : List Record}

-- The children next to the count of resets.
def Counted (K : List Record → List Record → σ → Prop) (n : ℕ) (ls rs : List Item) (p : σ × ℕ) : Prop :=
  ∃ as bs, ls = as.map Except.ok ∧ rs = bs.map Except.ok ∧ K as bs p.1 ∧ p.2 = n

theorem Sides.children (hs : Sides left right rights K) :
    Children (fun _ => false) left.beside left.beside right.counted right.counted (rights.map Except.ok) (Counted K) where
  nextLeft   := by
    rintro n _ _ ⟨s, _⟩ ⟨as, bs, rfl, rfl, hk, rfl⟩
    refine .same <| (beside_next <| hs.nextLeft hk).mono ?_
    rintro result p ⟨⟨rfl, hk⟩, hp⟩
    exact ⟨(item_map_ok as).symm, as.tail, bs, List.map_tail.symm, rfl, hk, hp⟩
  nextRight  := by
    rintro n _ _ ⟨s, _⟩ ⟨as, bs, rfl, rfl, hk, rfl⟩
    refine .same <| (beside_next <| hs.nextRight hk).mono ?_
    rintro result p ⟨⟨rfl, hk⟩, hp⟩
    exact ⟨(item_map_ok bs).symm, as, bs.tail, rfl, List.map_tail.symm, hk, hp⟩
  resetRight := by
    rintro n _ _ ⟨s, _⟩ ⟨as, _, rfl, rfl, hk, rfl⟩
    refine .same <| .update_bind <| (beside_reset <| hs.resetRight hk).mono ?_
    rintro result p ⟨⟨rfl, hk⟩, hp⟩
    exact ⟨rfl, as, rights, rfl, rfl, hk, hp⟩

theorem accepts_of_bool (hv : predicate record = .ok v) (ht : v.type = .bool) : ∃ b, predicate.accepts record = .ok b := by
  rw [Predicate.accepts, hv]
  cases v
  case null t =>
    obtain rfl : t = .bool := ht
    exact ⟨false, rfl⟩
  case bool b => exact ⟨b, rfl⟩
  all_goals cases ht

-- The join after `i` calls, which have left nothing of the left side once there were no records any more.
def Called (predicate : Predicate) (K : List Record → List Record → σ → Prop) (lefts rights : List Record) (i : ℕ)
    (p : (σ × ℕ) × State) : Prop :=
  ∃ m, Pending predicate (rights.map Except.ok) (Counted K) (blocks lefts).length
    (((joined predicate lefts rights).drop i).map Except.ok) m p ∧ ((joined predicate lefts rights).length < i → m.1 = 0)

theorem Called.next {p : (σ × ℕ) × State} (hs : Sides left right rights K)
    (hc : Called predicate K lefts rights i p) :
    (cursor left.beside right.counted predicate).next.Ends p fun result t =>
      result = .ok (joined predicate lefts rights)[i]? ∧ Called predicate K lefts rights (i + 1) t := by
  obtain ⟨m, hp, -⟩ := hc
  refine (next_ends hs.children hp).ends.mono ?_
  rintro result t ⟨rfl, m', hp, hm⟩
  rw [←List.map_tail, List.tail_drop] at hp
  refine ⟨by rw [item_map_ok, List.head?_drop], m', hp, fun hi => hm ?_⟩
  rw [List.drop_eq_nil_of_le <| Nat.lt_succ_iff.mp hi, List.map_nil]

-- Every call of `next` ends, and the records are those of the nested loops, for which the right side is reset
-- once for each block.
theorem enumerates (hs : Sides left right rights K)
    (hp : ∀ l ∈ lefts, ∀ r ∈ rights, ∃ v, predicate (l + r) = .ok v ∧ v.type = .bool) (hk : K lefts rs s) (n : ℕ) :
    ∃ t, (cursor left.beside right.counted predicate).run (.replicate n .next) ((s, 0), {}) =
        some ((List.range n).map fun i => .ok (joined predicate lefts rights)[i]?, t) ∧
      ((joined predicate lefts rights).length < n → t.1.2 = (blocks lefts).length) := by
  have hstart : Called predicate K lefts rights 0 ((s, 0), {}) := by
    refine ⟨_, ⟨0, lefts.map Except.ok, rs.map Except.ok, ⟨lefts, rs, rfl, rfl, hk, rfl⟩, ?_, fun _ => rfl, ?_, rfl⟩, nofun⟩
    · rw [blockCount_eq, Nat.zero_add]
    · refine (if_pos rfl).trans <| leftItems_eq lefts rights fun l hl r hr => ?_
      obtain ⟨v, hv, ht⟩ := hp l hl r hr
      exact accepts_of_bool hv ht
  obtain ⟨t, hr, m, ⟨k, ls, _, ⟨as, bs, rfl, _, _, hc⟩, hresets, _, _, rfl⟩, hm⟩ := run_next (Called.next hs) hstart n
  refine ⟨t, by rw [hr, List.range_eq_range'], fun hn => ?_⟩
  rw [Nat.zero_add] at hm
  rw [List.length_eq_zero_iff.mp <| hm hn, blockCount_nil] at hresets
  exact hc.trans hresets

-- Two lists as children.

def leftList (ls : List Record) : Cursor (List Record × List Record) String Record where
  reset := .update fun s => (ls, s.2)
  next  := .call fun s => (.ok s.1.head?, (s.1.tail, s.2))

def rightList (rs : List Record) : Cursor (List Record × List Record) String Record where
  reset := .update fun s => (s.1, rs)
  next  := .call fun s => (.ok s.2.head?, (s.1, s.2.tail))

theorem lists_sides (ls rs : List Record) : Sides (leftList ls) (rightList rs) rs fun as bs s => s = (as, bs) where
  nextLeft h   := .call ⟨by rw [h], by rw [h]⟩
  nextRight h  := .call ⟨by rw [h], by rw [h]⟩
  resetRight h := .update ⟨rfl, by rw [h]⟩

def firstEqualsSecond : Predicate :=
  (Expression.comparison (.column 0) .equal (.column 1)).predicate

theorem enumerates_lists :
    ∃ t, (cursor (leftList [⟨[.int32 1]⟩, ⟨[.int32 2]⟩]).beside (rightList [⟨[.int32 2]⟩]).counted firstEqualsSecond).run
        (.replicate 3 .next) ((([⟨[.int32 1]⟩, ⟨[.int32 2]⟩], []), 0), {}) =
          some ((List.range 3).map fun i =>
            .ok (joined firstEqualsSecond [⟨[.int32 1]⟩, ⟨[.int32 2]⟩] [⟨[.int32 2]⟩])[i]?, t) ∧
      ((joined firstEqualsSecond [⟨[.int32 1]⟩, ⟨[.int32 2]⟩] [⟨[.int32 2]⟩]).length < 3 →
        t.1.2 = (blocks [⟨[.int32 1]⟩, ⟨[.int32 2]⟩]).length) := by
  refine enumerates (lists_sides _ _) ?_ rfl 3
  intro l hl r hr
  obtain rfl := List.mem_singleton.mp hr
  obtain rfl | rfl := by simpa using hl
  · exact ⟨.bool false, by decide, rfl⟩
  · exact ⟨.bool true, by decide, rfl⟩

end Duck.NestedLoopJoin
