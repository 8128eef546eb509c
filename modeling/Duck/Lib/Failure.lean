import Duck.Lib.Program

namespace Program

variable {x x' : Program σ ε α} {f f' : α → Program σ ε β} {Q R : Except ε α → σ → Prop} {bad : σ → Bool}

-- `body`, again and again, until it has a result. Everything that it changes is part of the state.
def again (body : Program σ ε (Option α)) (s : σ) : Option (Except ε α × σ) :=
  match body s with
  | none                   => none
  | some (.ok none, t)     => by apply again; exacts [body, t]
  | some (.ok (some a), t) => some (.ok a, t)
  | some (.error e, t)     => some (.error e, t)
partial_fixpoint

def untilSome (body : Program σ ε (Option α)) : Program σ ε α :=
  again body

-- `x`, which throws when it has come to a bad state.
def givingUp (bad : σ → Bool) (e : ε) (x : Program σ ε α) : Program σ ε α :=
  fun s => (x s).map fun (result, t) => (if bad t then .error e else result, t)

-- `x` ends with a result and a state of `Q`, unless `x'`, which is `x` but gives up, does give up.
def EndsUnless (bad : σ → Bool) (x' x : Program σ ε α) (s : σ) (Q : Except ε α → σ → Prop) : Prop :=
  ∃ result t, x' s = some (result, t) ∧
    ((bad t = true ∧ ∃ e, result = .error e) ∨ (x s = some (result, t) ∧ Q result t))

theorem untilSome_eq (body : Program σ ε (Option α)) :
    untilSome body = body >>= fun
      | none   => untilSome body
      | some a => pure a := by
  funext s
  rw [bind_apply, untilSome, again]
  rcases body s with _ | ⟨_ | _ | _, t⟩ <;> rfl

namespace EndsUnless

theorem mono (h : EndsUnless bad x' x s R) (hq : ∀ {result t}, R result t → Q result t) : EndsUnless bad x' x s Q :=
  have ⟨result, t, hx, h⟩ := h
  ⟨result, t, hx, h.imp_right fun ⟨hx, hr⟩ => ⟨hx, hq hr⟩⟩

theorem same (h : x.Ends s Q) : EndsUnless bad x x s Q :=
  have ⟨result, t, hx, hq⟩ := h
  ⟨result, t, hx, .inr ⟨hx, hq⟩⟩

theorem ends (h : EndsUnless (fun _ => false) x' x s Q) : x.Ends s Q :=
  have ⟨result, t, _, h⟩ := h
  ⟨result, t, h.resolve_left fun ⟨hb, _⟩ => absurd hb Bool.false_ne_true⟩

theorem pure (h : Q (.ok a) s) : EndsUnless bad (pure a) (pure a) s Q :=
  same <| .pure h

theorem update_bind {g : σ → σ} {k k' : Unit → Program σ ε β} {Q : Except ε β → σ → Prop}
    (h : EndsUnless bad (k' ()) (k ()) (g s) Q) : EndsUnless bad (update g >>= k') (update g >>= k) s Q :=
  h

theorem givingUp (h : x.Ends s fun result t => bad t = true ∨ Q result t) :
    EndsUnless bad (x.givingUp bad e) x s Q := by
  obtain ⟨result, t, hx, hq⟩ := h
  refine ⟨_, t, by rw [Program.givingUp, hx]; rfl, ?_⟩
  by_cases hb : bad t = true
  case pos => exact .inl ⟨hb, e, if_pos hb⟩
  case neg =>
    rw [if_neg hb]
    exact .inr ⟨hx, hq.resolve_left hb⟩

theorem bind {Q : Except ε β → σ → Prop} (h : EndsUnless bad x' x s R)
    (hok : ∀ {a t}, R (.ok a) t → EndsUnless bad (f' a) (f a) t Q) (herr : ∀ {e t}, R (.error e) t → Q (.error e) t) :
    EndsUnless bad (x' >>= f') (x >>= f) s Q := by
  obtain ⟨result, t, hx', h⟩ := h
  rw [EndsUnless, bind_apply, hx', Option.bind_some]
  obtain ⟨hb, e, rfl⟩ | ⟨hx, hr⟩ := h
  · exact ⟨_, t, rfl, .inl ⟨hb, e, rfl⟩⟩
  · rw [bind_apply, hx, Option.bind_some]
    cases result
    case error e => exact ⟨_, t, rfl, .inr ⟨rfl, herr hr⟩⟩
    case ok a    => exact hok hr

theorem on {proj : τ → σ} {put : σ → τ → τ} {bad' : τ → Bool} {Q : Except ε α → τ → Prop}
    (hb : ∀ s t, bad s = true → bad' (put s t) = true)
    (h : EndsUnless bad x' x (proj t) fun result s => Q result (put s t)) :
    EndsUnless bad' (Program.on proj put x') (Program.on proj put x) t Q := by
  obtain ⟨result, s, hx', h⟩ := h
  refine ⟨result, put s t, by rw [Program.on, hx']; rfl, h.imp (fun ⟨hs, he⟩ => ⟨hb s t hs, he⟩) ?_⟩
  rintro ⟨hx, hq⟩
  exact ⟨by rw [Program.on, hx]; rfl, hq⟩

-- What a turn of a loop comes to: one that goes on makes the measure less.
def Turn (r : μ → μ → Prop) (I : μ → σ → Prop) (Q : Except ε α → σ → Prop) (m : μ) :
    Except ε (Option α) → σ → Prop
  | .ok none,     t => ∃ n, r n m ∧ I n t
  | .ok (some a), t => Q (.ok a) t
  | .error e,     t => Q (.error e) t

theorem untilSome {body body' : Program σ ε (Option α)} {r : μ → μ → Prop} (hr : WellFounded r) {I : μ → σ → Prop}
    (h : ∀ {m s}, I m s → EndsUnless bad body' body s (Turn r I Q m)) (hi : I m s) :
    EndsUnless bad (untilSome body') (untilSome body) s Q := by
  induction hr.apply m generalizing s
  case intro m _ ih =>
    rw [untilSome_eq, untilSome_eq body]
    refine (h hi).bind ?_ id
    rintro (_ | a) t ht
    · obtain ⟨n, hn, hi⟩ := ht
      exact ih n hn hi
    · exact .pure ht

end EndsUnless
end Program
