import Duck.Lib.Except

-- A program over a state. It may throw, which keeps the state, and it may fail to end.
abbrev Program (σ ε α : Type) :=
  ExceptT ε (StateT σ Option) α

namespace Program

variable {x : Program σ ε α} {f : α → Program σ ε β} {Q R : Except ε α → σ → Prop}

def read (proj : σ → α) : Program σ ε α :=
  fun s => some (.ok (proj s), s)

def update (f : σ → σ) : Program σ ε Unit :=
  fun s => some (.ok (), f s)

def ofExcept (x : Except ε α) : Program σ ε α :=
  fun s => some (x, s)

-- A call whose result and next state are known at once.
def call (f : σ → Except ε α × σ) : Program σ ε α :=
  fun s => some (f s)

-- The program `x` on a part of the state.
def on (proj : τ → σ) (put : σ → τ → τ) (x : Program σ ε α) : Program τ ε α :=
  fun t => (x (proj t)).map fun (result, s) => (result, put s t)

-- `body`, again and again, until it has a result.
def loop (body : α → Program σ ε (α ⊕ β)) (a : α) : Program σ ε β := do
  match ← body a with
  | .inl next => by apply loop; exacts [body, next]
  | .inr b    => return b
partial_fixpoint

-- A step of a run that is known in advance: `x` gives `a`, and leaves a state that is `fine`.
def expect [DecidableEq α] (fine : σ → Bool) (a : α) (x : Program σ String α) : Program σ String Unit := do
  let b ← x
  if b ≠ a then
    throw ""
  else if ← read fine then
    return ()
  else
    throw ""

-- `x`, and then the cleanup that its result asks for, also when it throws.
def cleanly (x : Program σ ε (α × β)) (cleanup : Option β → σ → σ) : Program σ ε α :=
  fun s => (x s).map fun
    | (.ok (a, b), s) => (.ok a, cleanup b s)
    | (.error e, s)   => (.error e, cleanup none s)

section apply

theorem bind_apply (x : Program σ ε α) (f : α → Program σ ε β) (s : σ) :
    (x >>= f) s = (x s).bind fun
      | (.ok a, t)    => f a t
      | (.error e, t) => some (.error e, t) := by
  change (x s).bind (fun (result, t) => ExceptT.bindCont f result t) = _
  match x s with
  | none               => rfl
  | some (.ok a, t)    => rfl
  | some (.error e, t) => rfl

theorem bind_eq (h : x s = some (.ok a, t)) : (x >>= f) s = f a t := by
  rw [bind_apply, h, Option.bind_some]

theorem bind_ok (h : (x >>= f) s = some (.ok b, u)) : ∃ a t, x s = some (.ok a, t) ∧ f a t = some (.ok b, u) := by
  rw [bind_apply] at h
  rcases hx : x s with _ | ⟨_ | a, t⟩
  · rw [hx] at h
    cases h
  · rw [hx] at h
    cases h
  · rw [hx] at h
    exact ⟨a, t, rfl, h⟩

theorem map_apply (f : α → β) (x : Program σ ε α) (s : σ) :
    (f <$> x) s = (x s).map fun (result, t) => (f <$> result, t) := by
  rw [map_eq_pure_bind, bind_apply]
  obtain _ | ⟨_ | _, t⟩ := x s <;> rfl

theorem map_of_eq (f : α → β) {x : Program σ ε α} (hx : x s = some (result, t)) : (f <$> x) s = some (f <$> result, t) := by
  rw [map_apply, hx, Option.map_some]

@[simp]
theorem read_bind (proj : σ → α) (s : σ) : (read proj >>= f) s = f (proj s) s :=
  rfl

@[simp]
theorem update_bind (g : σ → σ) (f : Unit → Program σ ε β) (s : σ) : (update g >>= f) s = f () (g s) :=
  rfl

@[simp]
theorem update_apply (g : σ → σ) (s : σ) : (update g : Program σ ε Unit) s = some (.ok (), g s) :=
  rfl

theorem expect_ok [DecidableEq α] {fine : σ → Bool} {a : α} {x : Program σ String α}
    (h : expect fine a x s = some (.ok (), t)) : x s = some (.ok a, t) ∧ fine t := by
  obtain ⟨b, u, hx, hu⟩ := bind_ok h
  split at hu
  case isTrue     => cases hu
  case isFalse hb =>
    obtain rfl := not_not.mp hb
    rw [read_bind] at hu
    split at hu
    case isFalse    => cases hu
    case isTrue hf  =>
      obtain ⟨_, rfl⟩ := Prod.mk.inj <| Option.some.inj hu
      exact ⟨hx, hf⟩

-- Programs one after the other on a part of the state.
theorem on_forM (proj : τ → σ) (put : σ → τ → τ) (h₁ : ∀ t, put (proj t) t = t) (h₂ : ∀ s t, proj (put s t) = s)
    (h₃ : ∀ s s' t, put s (put s' t) = put s t) (f : α → Program σ ε Unit) (as : List α) :
    on proj put (as.forM f) = as.forM fun a => on proj put (f a) := by
  induction as
  case nil          =>
    funext t
    change some (Except.ok (), put (proj t) t) = some (Except.ok (), t)
    rw [h₁]
  case cons a as ih =>
    funext t
    change (on proj put (f a >>= fun _ => as.forM f)) t = (on proj put (f a) >>= fun _ => as.forM _) t
    rw [←ih, bind_apply, on, bind_apply, on]
    rcases f a (proj t) with _ | ⟨_ | _, s⟩
    · rfl
    · rfl
    · simp only [Option.map_some, Option.bind_some, on, h₂, h₃]

-- One turn of a loop.
theorem loop_eq (body : α → Program σ ε (α ⊕ β)) (a : α) :
    loop body a = body a >>= Sum.elim (loop body) pure := by
  rw [loop]
  refine bind_congr fun x => ?_
  cases x <;> rfl

end apply

-- The program ends, with a result and a state of `Q`.
def Ends (x : Program σ ε α) (s : σ) (Q : Except ε α → σ → Prop) : Prop :=
  ∃ result t, x s = some (result, t) ∧ Q result t

namespace Ends

theorem of_eq (h : x.Ends s Q) (he : x s = some (result, t)) : Q result t := by
  have ⟨_, _, hx, hq⟩ := h
  obtain ⟨rfl, rfl⟩ := Prod.mk.inj <| Option.some.inj <| hx.symm.trans he
  exact hq

theorem mono (h : x.Ends s R) (hq : ∀ {result t}, R result t → Q result t) : x.Ends s Q :=
  have ⟨result, t, hx, hr⟩ := h
  ⟨result, t, hx, hq hr⟩

-- The result and the state are those of the program.
theorem self (h : x.Ends s Q) : x.Ends s fun result t => x s = some (result, t) ∧ Q result t :=
  have ⟨result, t, hx, hq⟩ := h
  ⟨result, t, hx, hx, hq⟩

theorem and (h : x.Ends s Q) (h' : x.Ends s R) : x.Ends s fun result t => Q result t ∧ R result t :=
  have ⟨result, t, hx, hq⟩ := h
  ⟨result, t, hx, hq, h'.of_eq hx⟩

theorem ofExcept {x : Except ε α} {Q : Except ε α → σ → Prop} (h : Q x s) : (Program.ofExcept x).Ends s Q :=
  ⟨_, _, rfl, h⟩

theorem pure (h : Q (.ok a) s) : Ends (pure a) s Q :=
  ⟨.ok a, s, rfl, h⟩

theorem throw (h : Q (.error e) s) : Ends (throw e) s Q :=
  ⟨.error e, s, rfl, h⟩

theorem read {proj : σ → α} (h : Q (.ok (proj s)) s) : (Program.read proj).Ends s Q :=
  ⟨_, _, rfl, h⟩

theorem update {f : σ → σ} {Q : Except ε Unit → σ → Prop} (h : Q (.ok ()) (f s)) :
    (Program.update f).Ends s Q :=
  ⟨_, _, rfl, h⟩

theorem update_bind {f : σ → σ} {k : Unit → Program σ ε β} {Q : Except ε β → σ → Prop} (h : (k ()).Ends (f s) Q) :
    (Program.update f >>= k).Ends s Q :=
  h

theorem read_bind {proj : σ → α} {Q : Except ε β → σ → Prop} (h : (f (proj s)).Ends s Q) :
    (Program.read proj >>= f).Ends s Q :=
  h

theorem call {f : σ → Except ε α × σ} (h : Q (f s).1 (f s).2) : (Program.call f).Ends s Q :=
  ⟨_, _, rfl, h⟩

theorem bind {Q : Except ε β → σ → Prop} (h : x.Ends s R)
    (hok : ∀ {a t}, R (.ok a) t → (f a).Ends t Q) (herr : ∀ {e t}, R (.error e) t → Q (.error e) t) :
    (x >>= f).Ends s Q := by
  have ⟨result, t, hx, hr⟩ := h
  have hb := bind_apply x f s
  rw [hx, Option.bind_some] at hb
  cases result
  case error e => exact ⟨.error e, t, hb, herr hr⟩
  case ok a    =>
    have ⟨result, u, ha, hq⟩ := hok hr
    exact ⟨result, u, hb.trans ha, hq⟩

theorem map {f : α → β} {Q : Except ε β → σ → Prop} (h : x.Ends s fun result t => Q (f <$> result) t) :
    (f <$> x).Ends s Q := by
  rw [map_eq_pure_bind]
  exact h.bind .pure id

theorem of_map {f : α → β} {Q : Except ε β → σ → Prop} (h : (f <$> x).Ends s Q) :
    x.Ends s fun result t => Q (f <$> result) t := by
  obtain ⟨_, t, hx, hq⟩ := h
  rw [map_apply] at hx
  obtain ⟨⟨result, _⟩, hy, he⟩ := Option.map_eq_some_iff.mp hx
  obtain ⟨rfl, rfl⟩ := Prod.mk.inj he
  exact ⟨result, _, hy, hq⟩

theorem on {proj : τ → σ} {Q : Except ε α → τ → Prop}
    (h : x.Ends (proj t) fun result s => Q result (put s t)) : (Program.on proj put x).Ends t Q := by
  have ⟨result, s, hx, hq⟩ := h
  exact ⟨result, put s t, by simp only [Program.on, hx, Option.map_some], hq⟩

theorem cleanly {x : Program σ ε (α × β)} {R : Except ε (α × β) → σ → Prop} (h : x.Ends s R)
    (hok : ∀ {a b t}, R (.ok (a, b)) t → Q (.ok a) (cleanup b t))
    (herr : ∀ {e t}, R (.error e) t → Q (.error e) (cleanup none t)) : (Program.cleanly x cleanup).Ends s Q := by
  have ⟨result, t, hx, hr⟩ := h
  cases result
  case ok a    => exact ⟨_, _, by simp only [Program.cleanly, hx, Option.map_some], hok hr⟩
  case error e => exact ⟨_, _, by simp only [Program.cleanly, hx, Option.map_some], herr hr⟩

end Ends
end Program
