import Duck.Lib.Cursor

namespace Program

variable {x : Program σ ε α} {f : α → Program σ ε β} {Q R : Except ε α → σ → Prop}

-- If the program ends, then with a result and a state of `Q`.
def Leaves (x : Program σ ε α) (s : σ) (Q : Except ε α → σ → Prop) : Prop :=
  ∀ result t, x s = some (result, t) → Q result t

namespace Leaves

theorem mono (h : x.Leaves s R) (hq : ∀ {result t}, R result t → Q result t) : x.Leaves s Q :=
  fun _ _ hx => hq (h _ _ hx)

-- The result and the state are those of the program.
theorem self : x.Leaves s fun result t => x s = some (result, t) :=
  fun _ _ hx => hx

theorem pure (h : Q (.ok a) s) : Leaves (pure a) s Q := by
  rintro _ _ ⟨⟩
  exact h

theorem throw (h : Q (.error e) s) : Leaves (throw e) s Q := by
  rintro _ _ ⟨⟩
  exact h

theorem ofExcept {x : Except ε α} {Q : Except ε α → σ → Prop} (h : Q x s) : (Program.ofExcept x).Leaves s Q := by
  rintro _ _ ⟨⟩
  exact h

theorem read {proj : σ → α} (h : Q (.ok (proj s)) s) : (Program.read proj).Leaves s Q := by
  rintro _ _ ⟨⟩
  exact h

theorem update {g : σ → σ} {Q : Except ε Unit → σ → Prop} (h : Q (.ok ()) (g s)) : (Program.update g).Leaves s Q := by
  rintro _ _ ⟨⟩
  exact h

theorem bind {Q : Except ε β → σ → Prop} (h : x.Leaves s R) (hok : ∀ {a t}, R (.ok a) t → (f a).Leaves t Q)
    (herr : ∀ {e t}, R (.error e) t → Q (.error e) t) : (x >>= f).Leaves s Q := by
  intro result u hx
  rw [bind_apply] at hx
  rcases he : x s with _ | ⟨_ | a, t⟩ <;> rw [he] at hx
  · cases hx
  · cases hx
    exact herr (h _ _ he)
  · exact hok (h _ _ he) _ _ hx

theorem read_bind {proj : σ → α} {Q : Except ε β → σ → Prop} (h : (f (proj s)).Leaves s Q) :
    (Program.read proj >>= f).Leaves s Q :=
  h

theorem update_bind {g : σ → σ} {k : Unit → Program σ ε β} {Q : Except ε β → σ → Prop} (h : (k ()).Leaves (g s) Q) :
    (Program.update g >>= k).Leaves s Q :=
  h

theorem call {g : σ → Except ε α × σ} (h : Q (g s).1 (g s).2) : (Program.call g).Leaves s Q := by
  intro result t hx
  rw [Option.some.inj hx] at h
  exact h

theorem cleanly {x : Program σ ε (α × β)} {R : Except ε (α × β) → σ → Prop} (h : x.Leaves s R)
    (hok : ∀ {a b t}, R (.ok (a, b)) t → Q (.ok a) (cleanup b t))
    (herr : ∀ {e t}, R (.error e) t → Q (.error e) (cleanup none t)) : (Program.cleanly x cleanup).Leaves s Q := by
  intro result u hx
  rcases he : x s with _ | ⟨_ | ⟨a, b⟩, t⟩ <;> rw [Program.cleanly, he] at hx
  · cases hx
  · cases hx
    exact herr (h _ _ he)
  · cases hx
    exact hok (h _ _ he)

theorem on {proj : τ → σ} {put : σ → τ → τ} {Q : Except ε α → τ → Prop}
    (h : x.Leaves (proj t) fun result s => Q result (put s t)) : (Program.on proj put x).Leaves t Q := by
  intro result u hx
  rw [Program.on] at hx
  obtain ⟨⟨_, s⟩, he, hx⟩ := Option.map_eq_some_iff.mp hx
  cases hx
  exact h _ _ he

-- What holds of a result, and what holds when the program throws.
def Post (Q : α → σ → Prop) (E : ε → σ → Prop) : Except ε α → σ → Prop
  | .ok a,    t => Q a t
  | .error e, t => E e t

variable {E : ε → σ → Prop} {P : α → σ → Prop}

theorem andThen {Q : β → σ → Prop} (h : x.Leaves s (Post P E)) (hok : ∀ {a t}, P a t → (f a).Leaves t (Post Q E)) :
    (x >>= f).Leaves s (Post Q E) :=
  h.bind hok id

-- A turn of a loop that goes on keeps the invariant.
def Turn (I : σ → Prop) (Q : α → σ → Prop) : Option α → σ → Prop
  | none,   t => I t
  | some a, t => Q a t

-- What holds of everything that the choice may be holds of the choice.
theorem choose_imp {p : α → Prop} {h : ∃ a, p a} {P : α → Prop} (hp : ∀ a, p a → P a) : P (Classical.choose h) :=
  hp _ <| Classical.choose_spec h

-- What every turn of a loop keeps. A limit of loops that are cut short is below the loop that is cut short where it
-- would leave `Q`.
theorem loop {body : α → Program σ ε (α ⊕ β)} {I : α → σ → Prop} {Q : Except ε β → σ → Prop}
    (h : ∀ {a s}, I a s → (body a).Leaves s fun
      | .ok (.inl a), t => I a t
      | .ok (.inr b), t => Q (.ok b) t
      | .error e,     t => Q (.error e) t)
    (hi : I a s) : (Program.loop body a).Leaves s Q := by
  refine Program.loop.fixpoint_induct body (fun f => ∀ a s, I a s → (f a).Leaves s Q) ?_ ?_ a s hi
  · intro c hc hf
    refine choose_imp (P := fun f : α → Program σ ε β => ∀ a s, I a s → (f a).Leaves s Q) ?_
    intro f hs a s hi result t hx
    classical
    let g (a : α) : Program σ ε β := fun s => if I a s → ∀ result t, f a s = some (result, t) → Q result t then f a s else none
    have hg := (hs g).mpr fun y hy a s => ?_
    · have hr := hg a s
      rw [hx] at hr
      generalize hz : g a s = z at hr
      cases hr
      by_contra hq
      rw [show g a s = none from if_neg fun hall => hq <| hall hi _ _ hx] at hz
      cases hz
    · have hr := (hs f).mp (fun _ _ => by constructor) y hy a s
      generalize hu : y a s = u at hr ⊢
      generalize hv : f a s = v at hr
      cases hr
      case bot  => constructor
      case refl =>
        rw [show g a s = f a s from if_pos fun hi result t ht => hf y hy a s hi result t <| hu.trans <| hv.symm.trans ht, hv]
        constructor
  · intro f hf a s hi
    refine (h hi).bind ?_ id
    rintro (a | b) t ht
    · exact hf a t ht
    · exact .pure ht

theorem untilSome {body : Program σ ε (Option α)} {I : σ → Prop}
    (h : ∀ {s}, I s → body.Leaves s (Post (Turn I P) E)) (hi : I s) : (untilSome body).Leaves s (Post P E) := by
  intro result t hx
  refine again.partial_correctness body (fun s r => I s → Post P E r.1 r.2) ?_ s (result, t) hx hi
  intro next ih s r hx hi
  rcases hb : body s with _ | ⟨_ | _ | _, t⟩ <;> rw [hb] at hx
  · cases hx
  · cases hx
    exact h hi _ _ hb
  · exact ih _ _ hx (h hi _ _ hb)
  · cases hx
    exact h hi _ _ hb

end Leaves
end Program

namespace Cursor

open Program Leaves

variable {c : Cursor σ ε α} {I : σ → Prop} {P : α → Prop} {E : ε → Prop}

-- From a state of `I`, what the cursor gives is of `P`, what it throws is of `E`, and the next state is of `I`.
structure Gives (c : Cursor σ ε α) (I : σ → Prop) (P : α → Prop) (E : ε → Prop) : Prop where
  reset : ∀ {s}, I s → c.reset.Leaves s (Post (fun _ t => I t) fun e t => I t ∧ E e)
  next  : ∀ {s}, I s → c.next.Leaves s (Post (fun a t => I t ∧ ∀ r ∈ a, P r) fun e t => I t ∧ E e)

def Good (P : α → Prop) (E : ε → Prop) : Except ε (Option α) → Prop
  | .ok a    => ∀ r ∈ a, P r
  | .error e => E e

theorem Gives.call (h : c.Gives I P E) (hi : I s) (call : Call) :
    (c.call call).Leaves s fun result t => I t ∧ Good P E result := by
  cases call
  case next  =>
    refine (h.next hi).mono ?_
    rintro (e | a) t h
    · exact h
    · exact h
  case reset =>
    rw [Cursor.call, map_eq_pure_bind]
    exact (h.reset hi).bind (fun h => .pure ⟨h, fun _ hr => absurd hr (Option.not_mem_none _)⟩) id

-- All that calls give, one after the other.
theorem Gives.run (h : c.Gives I P E) {calls : List Call} (hi : I s) (hr : c.run calls s = some (results, u)) :
    I u ∧ ∀ result ∈ results, Good P E result := by
  induction calls generalizing s results
  case nil                =>
    cases hr
    exact ⟨hi, nofun⟩
  case cons call calls ih =>
    obtain ⟨⟨result, t⟩, hx, hr⟩ := Option.bind_eq_some_iff.mp hr
    obtain ⟨⟨results, u⟩, hr, he⟩ := Option.map_eq_some_iff.mp hr
    cases he
    obtain ⟨hi, hg⟩ := h.call hi call _ _ hx
    obtain ⟨hu, hgs⟩ := ih hi hr
    exact ⟨hu, List.forall_mem_cons.mpr ⟨hg, hgs⟩⟩

theorem Gives.imp {P' : α → Prop} {E' : ε → Prop} (h : c.Gives I P E) (hp : ∀ {a}, P a → P' a)
    (he : ∀ {e}, E e → E' e) : c.Gives I P' E' where
  reset hi := by
    refine (h.reset hi).mono ?_
    rintro (e | a) t h
    · exact ⟨h.1, he h.2⟩
    · exact h
  next hi  := by
    refine (h.next hi).mono ?_
    rintro (e | a) t h
    · exact ⟨h.1, he h.2⟩
    · exact ⟨h.1, fun r hr => hp (h.2 r hr)⟩

theorem Gives.on {proj : τ → σ} {put : σ → τ → τ} {J : τ → Prop} (h : c.Gives I P E) (hp : ∀ {t}, J t → I (proj t))
    (hj : ∀ {s t}, J t → I s → J (put s t)) : (c.on proj put).Gives J P E where
  reset hi := by
    refine .on <| (h.reset (hp hi)).mono ?_
    rintro (e | a) t h
    · exact ⟨hj hi h.1, h.2⟩
    · exact hj hi h
  next hi  := by
    refine .on <| (h.next (hp hi)).mono ?_
    rintro (e | a) t h
    · exact ⟨hj hi h.1, h.2⟩
    · exact ⟨hj hi h.1, h.2⟩

end Cursor
