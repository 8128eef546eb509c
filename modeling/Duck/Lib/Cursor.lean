import Duck.Lib.Failure

-- What gives one element after another, until there are no more, and may start again.
structure Cursor (σ ε α : Type) where
  reset : Program σ ε Unit
  next  : Program σ ε (Option α)

namespace Cursor

open Program

variable {c c' : Cursor σ ε α} {bad : σ → Bool}

def givingUp (bad : σ → Bool) (e : ε) (c : Cursor σ ε α) : Cursor σ ε α where
  reset := c.reset.givingUp bad e
  next  := c.next.givingUp bad e

-- The cursor on a part of the state.
def on (proj : τ → σ) (put : σ → τ → τ) (c : Cursor σ ε α) : Cursor τ ε α where
  reset := .on proj put c.reset
  next  := .on proj put c.next

-- The cursor next to a state that it does not know.
def beside (c : Cursor σ ε α) : Cursor (σ × τ) ε α :=
  c.on Prod.fst fun s t => (s, t.2)

-- Two cursors in the same world.

def onLeft (c : Cursor (ω × σ) ε α) : Cursor (ω × σ × τ) ε α :=
  c.on (fun s => (s.1, s.2.1)) fun l s => (l.1, l.2, s.2.2)

def onRight (c : Cursor (ω × τ) ε α) : Cursor (ω × σ × τ) ε α :=
  c.on (fun s => (s.1, s.2.2)) fun r s => (r.1, s.2.1, r.2)

-- The cursor next to a count of its resets.
def counted (c : Cursor σ ε α) : Cursor (σ × ℕ) ε α where
  reset := do
    .update (Prod.map id (· + 1))
    c.beside.reset
  next  := c.beside.next

inductive Call
  | reset
  | next

-- A reset has no element for a result.
def call (c : Cursor σ ε α) : Call → Program σ ε (Option α)
  | .reset => (fun _ => none) <$> c.reset
  | .next  => c.next

-- The results of calls one after the other, whatever they throw.
def run (c : Cursor σ ε α) : List Call → σ → Option (List (Except ε (Option α)) × σ)
  | [],            s => some ([], s)
  | call :: calls, s =>
    (c.call call s).bind fun (result, t) => (c.run calls t).map fun (results, u) => (result :: results, u)

-- What a call gives with these elements to come. An exception may stand for an element.
def item : List (Except ε α) → Except ε (Option α)
  | []            => .ok none
  | .ok a :: _    => .ok (some a)
  | .error e :: _ => .error e

def answer (items : List (Except ε α)) : Call → Except ε (Option α)
  | .reset => .ok none
  | .next  => item items

-- What is to come after a call, which is everything again after a reset.
def remaining (full items : List (Except ε α)) : Call → List (Except ε α)
  | .reset => full
  | .next  => items.tail

def answers (full : List (Except ε α)) : List (Except ε α) → List Call → List (Except ε (Option α))
  | _,     []            => []
  | items, call :: calls => answer items call :: answers full (remaining full items call) calls

-- The call gives up.
def Fails (bad : σ → Bool) (c' : Cursor σ ε α) (call : Call) (s : σ) : Prop :=
  ∃ e t, c'.call call s = some (.error e, t) ∧ bad t = true

-- One of the calls does, after all before it have not.
def RunFails (bad : σ → Bool) (c' c : Cursor σ ε α) (calls : List Call) (s : σ) : Prop :=
  ∃ before call after results t, calls = before ++ call :: after ∧ c.run before s = some (results, t) ∧
    Fails bad c' call t

-- In a state of `I items` these elements are to come.
structure Streams (bad : σ → Bool) (c' c : Cursor σ ε α) (full : List (Except ε α))
    (I : List (Except ε α) → σ → Prop) : Prop where
  reset : ∀ {items s}, I items s →
    EndsUnless bad c'.reset c.reset s fun result t => result = .ok () ∧ I full t
  next  : ∀ {items s}, I items s →
    EndsUnless bad c'.next c.next s fun result t => result = item items ∧ I items.tail t

variable {items full : List (Except ε α)} {I : List (Except ε α) → σ → Prop}

theorem Streams.call (h : Streams bad c' c full I) (hi : I items s) (call : Call) :
    EndsUnless bad (c'.call call) (c.call call) s fun result t =>
      result = answer items call ∧ I (remaining full items call) t := by
  cases call
  case next  => exact h.next hi
  case reset =>
    rw [Cursor.call, Cursor.call, map_eq_pure_bind, map_eq_pure_bind]
    refine (h.reset hi).bind ?_ ?_
    · rintro _ t ⟨-, hi⟩
      exact .pure ⟨rfl, hi⟩
    · rintro e t ⟨⟨⟩, -⟩

theorem run_cons {call : Call} {calls : List Call} (hx : c.call call s = some (result, t))
    (hr : c.run calls t = some (results, u)) : c.run (call :: calls) s = some (result :: results, u) := by
  simp only [run, hx, Option.bind_some, hr, Option.map_some]

-- The calls are answered as by a list of the elements.
theorem Streams.run (h : Streams bad c' c full I) (hi : I items s) (calls : List Call) :
    RunFails bad c' c calls s ∨ ∃ t, c.run calls s = some (answers full items calls, t) ∧
      I (calls.foldl (remaining full) items) t := by
  induction calls generalizing items s
  case nil                => exact .inr ⟨s, rfl, hi⟩
  case cons call calls ih =>
    obtain ⟨result, t, hx', ⟨hb, e, rfl⟩ | ⟨hx, rfl, hi⟩⟩ := h.call hi call
    · exact .inl ⟨[], call, calls, [], s, rfl, rfl, e, t, hx', hb⟩
    · refine (ih hi).imp ?_ ?_
      · rintro ⟨before, last, after, results, u, rfl, hr, hf⟩
        exact ⟨call :: before, last, after, answer items call :: results, u, rfl, run_cons hx hr, hf⟩
      · rintro ⟨u, hr, hi⟩
        exact ⟨u, run_cons hx hr, hi⟩

theorem Streams.iff {J : List (Except ε α) → σ → Prop} (h : Streams bad c' c full I) (hj : ∀ {items s}, I items s ↔ J items s) :
    Streams bad c' c full J where
  reset hi := (h.reset <| hj.mpr hi).mono fun ⟨hr, hi⟩ => ⟨hr, hj.mp hi⟩
  next hi  := (h.next <| hj.mpr hi).mono fun ⟨hr, hi⟩ => ⟨hr, hj.mp hi⟩

theorem Streams.on {proj : τ → σ} {put : σ → τ → τ} {bad' : τ → Bool} (h : Streams bad c' c full I)
    (hb : ∀ s t, bad s = true → bad' (put s t) = true) (hp : ∀ s t, proj (put s t) = s) :
    Streams bad' (c'.on proj put) (c.on proj put) full fun items t => I items (proj t) where
  reset hi := .on hb <| (h.reset hi).mono fun {_ _} ⟨hr, hi⟩ => ⟨hr, (hp _ _).symm ▸ hi⟩
  next hi  := .on hb <| (h.next hi).mono fun {_ _} ⟨hr, hi⟩ => ⟨hr, (hp _ _).symm ▸ hi⟩

-- Calls of `next` alone, the first of them being the `k`th.
theorem run_next {J : ℕ → σ → Prop} {f : ℕ → Except ε (Option α)}
    (h : ∀ {i s}, J i s → c.next.Ends s fun result t => result = f i ∧ J (i + 1) t) (hj : J k s) (n : ℕ) :
    ∃ t, c.run (.replicate n .next) s = some ((List.range' k n).map f, t) ∧ J (k + n) t := by
  induction n generalizing k s
  case zero      => exact ⟨s, rfl, hj⟩
  case succ n ih =>
    obtain ⟨_, t, hx, rfl, hj⟩ := h hj
    obtain ⟨u, hr, hj⟩ := ih hj
    refine ⟨u, run_cons hx hr, ?_⟩
    rwa [Nat.add_right_comm] at hj

theorem unless_beside_next {P : Except ε (Option α) → σ → Prop} {u : τ} (h : EndsUnless bad c'.next c.next s P) :
    EndsUnless (bad ∘ Prod.fst) c'.beside.next c.beside.next (s, u) fun result p => P result p.1 ∧ p.2 = u := by
  obtain ⟨result, t, hx', h⟩ := h
  refine ⟨result, (t, u), by simp only [beside, on, Program.on, hx', Option.map_some], h.imp_right ?_⟩
  rintro ⟨hx, hp⟩
  exact ⟨by simp only [beside, on, Program.on, hx, Option.map_some], hp, rfl⟩

theorem unless_beside_reset {P : Except ε Unit → σ → Prop} {u : τ} (h : EndsUnless bad c'.reset c.reset s P) :
    EndsUnless (bad ∘ Prod.fst) c'.beside.reset c.beside.reset (s, u) fun result p => P result p.1 ∧ p.2 = u := by
  obtain ⟨result, t, hx', h⟩ := h
  refine ⟨result, (t, u), by simp only [beside, on, Program.on, hx', Option.map_some], h.imp_right ?_⟩
  rintro ⟨hx, hp⟩
  exact ⟨by simp only [beside, on, Program.on, hx, Option.map_some], hp, rfl⟩

theorem beside_next {P : Except ε (Option α) → σ → Prop} {u : τ} (h : c.next.Ends s P) :
    c.beside.next.Ends (s, u) fun result p => P result p.1 ∧ p.2 = u :=
  have ⟨result, t, hx, hp⟩ := h
  ⟨result, (t, u), by simp only [beside, on, Program.on, hx, Option.map_some], hp, rfl⟩

theorem beside_reset {P : Except ε Unit → σ → Prop} {u : τ} (h : c.reset.Ends s P) :
    c.beside.reset.Ends (s, u) fun result p => P result p.1 ∧ p.2 = u :=
  have ⟨result, t, hx, hp⟩ := h
  ⟨result, (t, u), by simp only [beside, on, Program.on, hx, Option.map_some], hp, rfl⟩

theorem answers_length : (answers full items calls).length = calls.length := by
  induction calls generalizing items
  case nil               => rfl
  case cons call rest ih => simp only [answers, List.length_cons, ih]

theorem answers_append {before after : List Call} : answers full items (before ++ after) =
    answers full items before ++ answers full (before.foldl (remaining full) items) after := by
  induction before generalizing items
  case nil               => rfl
  case cons call rest ih => simp only [List.cons_append, answers, ih, List.foldl_cons]

-- The elements that calls of `next` give, and nothing after the last.
theorem answers_next : answers full items (.replicate n .next) = (List.range n).map fun i => item (items.drop i) := by
  induction n generalizing items
  case zero      => rfl
  case succ n ih =>
    rw [List.replicate_succ, answers, answer, remaining, ih, List.range_succ_eq_map, List.map_cons, List.map_map]
    simp [Function.comp_def, List.drop_tail]

-- A cursor that has resources of its own in a world that it shares. `rest` is what others have.
def Owned (world : List ρ → ω → Prop) (holds : σ → List ρ → List (Except ε α) → Prop) (rest : List ρ)
    (items : List (Except ε α)) (p : ω × σ) : Prop :=
  ∃ own, holds p.2 own items ∧ world (own ++ rest) p.1

theorem exists_owned_iff {world : List ρ → ω → Prop} {holds : σ → List ρ → List (Except ε α) → Prop}
    {of : List (Except ε α) → List (Except ε β)} {results : List (Except ε β)} {p : ω × σ} :
    (∃ items, Owned world holds rest items p ∧ of items = results) ↔
      Owned world (fun s own results => ∃ items, holds s own items ∧ of items = results) rest results p := by
  constructor
  · rintro ⟨items, ⟨own, hh, hw⟩, rfl⟩
    exact ⟨own, ⟨items, hh, rfl⟩, hw⟩
  · rintro ⟨own, ⟨items, hh, rfl⟩, hw⟩
    exact ⟨items, ⟨own, hh, hw⟩, rfl⟩

section both

variable {world : List ρ → ω → Prop} {rest : List ρ} {bad : ω → Bool}
variable {holdsLeft : σ → List ρ → List (Except ε α) → Prop} {holdsRight : τ → List ρ → List (Except ε α) → Prop}

-- What two cursors have to come that own resources of the same world.
def Both (world : List ρ → ω → Prop) (holdsLeft : σ → List ρ → List (Except ε α) → Prop)
    (holdsRight : τ → List ρ → List (Except ε α) → Prop) (rest : List ρ) (ls rs : List (Except ε α)) (p : ω × σ × τ) :
      Prop :=
  ∃ ownLeft ownRight, holdsLeft p.2.1 ownLeft ls ∧ holdsRight p.2.2 ownRight rs ∧
    world (ownLeft ++ (ownRight ++ rest)) p.1

theorem Both.left {x x' : Program (ω × σ) ε β} {p : ω × σ × τ} (hb : Both world holdsLeft holdsRight rest ls rs p)
    (h : ∀ {rest s}, Owned world holdsLeft rest ls s →
      EndsUnless (bad ∘ Prod.fst) x' x s fun result t => result = a ∧ Owned world holdsLeft rest ls' t) :
    EndsUnless (bad ∘ Prod.fst) (Program.on (fun s => (s.1, s.2.1)) (fun l s => (l.1, l.2, s.2.2)) x')
      (Program.on (fun s => (s.1, s.2.1)) (fun l s => (l.1, l.2, s.2.2)) x) p fun result t =>
        result = a ∧ Both world holdsLeft holdsRight rest ls' rs t := by
  obtain ⟨ownLeft, ownRight, hl, hr, hw⟩ := hb
  refine .on (fun _ _ => id) <| (h ⟨ownLeft, hl, hw⟩).mono ?_
  rintro _ ⟨w, l⟩ ⟨rfl, ownLeft, hl, hw⟩
  exact ⟨rfl, ownLeft, ownRight, hl, hr, hw⟩

theorem Both.right {x x' : Program (ω × τ) ε β} {p : ω × σ × τ}
    (hp : ∀ {own own' w}, own'.Perm own → world own w → world own' w) (hb : Both world holdsLeft holdsRight rest ls rs p)
    (h : ∀ {rest s}, Owned world holdsRight rest rs s →
      EndsUnless (bad ∘ Prod.fst) x' x s fun result t => result = a ∧ Owned world holdsRight rest rs' t) :
    EndsUnless (bad ∘ Prod.fst) (Program.on (fun s => (s.1, s.2.2)) (fun r s => (r.1, s.2.1, r.2)) x')
      (Program.on (fun s => (s.1, s.2.2)) (fun r s => (r.1, s.2.1, r.2)) x) p fun result t =>
        result = a ∧ Both world holdsLeft holdsRight rest ls rs' t := by
  obtain ⟨ownLeft, ownRight, hl, hr, hw⟩ := hb
  refine .on (fun _ _ => id) <| (h ⟨ownRight, hr, hp (List.perm_append_comm_assoc ..) hw⟩).mono ?_
  rintro _ ⟨w, r⟩ ⟨rfl, ownRight, hr, hw⟩
  exact ⟨rfl, ownLeft, ownRight, hl, hr, hp (List.perm_append_comm_assoc ..) hw⟩

theorem Streams.left {c' c : Cursor (ω × σ) ε α}
    (h : ∀ {rest}, Streams (bad ∘ Prod.fst) c' c full (Owned world holdsLeft rest)) :
    Streams (bad ∘ Prod.fst) c'.onLeft c.onLeft full fun ls p => Both world holdsLeft holdsRight rest ls rs p where
  reset hb := hb.left h.reset
  next hb  := hb.left h.next

theorem Streams.right {c' c : Cursor (ω × τ) ε α} (hp : ∀ {own own' w}, own'.Perm own → world own w → world own' w)
    (h : ∀ {rest}, Streams (bad ∘ Prod.fst) c' c full (Owned world holdsRight rest)) :
    Streams (bad ∘ Prod.fst) c'.onRight c.onRight full fun rs p => Both world holdsLeft holdsRight rest ls rs p where
  reset hb := hb.right hp h.reset
  next hb  := hb.right hp h.next

end both

theorem item_eq_none_iff : item items = .ok none ↔ items = [] := by
  obtain _ | ⟨_ | _, items⟩ := items <;> simp [item]

-- There is nothing after the end.
theorem answers_next_none {i j n : ℕ} (hij : i ≤ j) (hj : j < n)
    (hi : (answers full items (.replicate n .next))[i]? = some (.ok none)) :
    (answers full items (.replicate n .next))[j]? = some (.ok none) := by
  rw [answers_next] at hi ⊢
  simp only [List.getElem?_map, List.getElem?_range, hj, Nat.lt_of_le_of_lt hij hj, Option.map_some, Option.some.injEq] at hi ⊢
  rw [item_eq_none_iff, List.drop_eq_nil_iff] at hi ⊢
  exact Nat.le_trans hi hij

theorem item_map_ok (as : List α) : item (as.map Except.ok : List (Except ε α)) = .ok as.head? := by
  cases as <;> rfl

end Cursor
