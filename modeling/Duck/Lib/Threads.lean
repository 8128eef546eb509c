import Duck.Lib.Runs
import Mathlib.Logic.Function.Basic

-- What is left of a thread: a result, or an atomic action and what comes after each of its results.
inductive Thread (A : Type) (R : A → Type) (α : Type)
  | ret (a : α)
  | act (a : A) (next : R a → Thread A R α)

namespace Thread

variable {A : Type} {R : A → Type} {α β τ σ : Type}

def bind : Thread A R α → (α → Thread A R β) → Thread A R β
  | ret a,      f => f a
  | act a next, f => act a fun r => (next r).bind f

instance : Monad (Thread A R) where
  pure := ret
  bind := bind

def perform (a : A) : Thread A R (R a) :=
  act a ret

theorem pure_eq (a : α) : (pure a : Thread A R α) = ret a :=
  rfl

@[simp]
theorem ret_bind (a : α) (f : α → Thread A R β) : (ret a >>= f) = f a :=
  rfl

@[simp]
theorem act_bind (a : A) (next : R a → Thread A R α) (f : α → Thread A R β) :
    (act a next >>= f) = act a fun r => next r >>= f :=
  rfl

@[simp]
theorem perform_bind (a : A) (f : R a → Thread A R β) : (perform a >>= f) = act a f :=
  rfl

theorem discard_eq (x : Thread A R α) : Functor.discard x = x >>= fun _ => ret () :=
  rfl

-- The thread alone, where each action is what `run` makes of it.
def interpret {m : Type → Type} [Monad m] {R : A → Type} {α : Type} (run : (a : A) → m (R a)) : Thread A R α → m α
  | ret a      => return a
  | act a next => do (next (← run a)).interpret run

section interpret

variable {m : Type → Type} [Monad m] {R : A → Type} {α β : Type} {run : (a : A) → m (R a)}

@[simp]
theorem interpret_ret (a : α) : (ret a : Thread A R α).interpret run = pure a :=
  rfl

@[simp]
theorem interpret_perform [LawfulMonad m] (a : A) : (perform a : Thread A R (R a)).interpret run = run a :=
  bind_pure (run a)

@[simp]
theorem interpret_bind [LawfulMonad m] (x : Thread A R α) (f : α → Thread A R β) :
    (x >>= f).interpret run = x.interpret run >>= fun a => (f a).interpret run := by
  induction x
  case ret a         => rw [ret_bind, interpret_ret, pure_bind]
  case act a next ih =>
    rw [act_bind, interpret, interpret, bind_assoc]
    exact bind_congr fun r => ih r

@[simp]
theorem interpret_pure (a : α) : (pure a : Thread A R α).interpret run = pure a :=
  rfl

@[simp]
theorem interpret_discard [LawfulMonad m] (x : Thread A R α) :
    (Functor.discard x).interpret run = Functor.discard (x.interpret run) := by
  rw [discard_eq, interpret_bind, Functor.discard, map_const, Function.comp_apply, map_eq_pure_bind]
  rfl

end interpret

-- Threads over a shared state.
structure System (A : Type) (R : A → Type) (τ σ α : Type) where
  shared  : σ
  threads : τ → Thread A R α

-- A thread that has returned makes its next call, or a thread takes its next action.
inductive System.Step [DecidableEq τ] (effect : τ → σ → (a : A) → R a → σ → Prop) (calls : α → Thread A R α → Prop)
    (s : System A R τ σ α) : τ × Option (Sigma R) → System A R τ σ α → Prop
  | call : (s.threads t = .ret b) → (calls b x) →
    Step effect calls s (t, none) { s with threads := Function.update s.threads t x }
  | act  : (s.threads t = .act a next) → (effect t s.shared a r u) →
    Step effect calls s (t, some ⟨a, r⟩) ⟨u, Function.update s.threads t (next r)⟩

theorem System.Step.act_inv [DecidableEq τ] {effect : τ → σ → (a : A) → R a → σ → Prop}
    {calls : α → Thread A R α → Prop} {s s' : System A R τ σ α} {r : R a} (e : s.Step effect calls (t, some ⟨a, r⟩) s') :
    (∃ next, s.threads t = .act a next) ∧ effect t s.shared a r s'.shared := by
  cases e
  case act u next ht he => exact ⟨⟨next, ht⟩, he⟩

-- What the threads agree on. An action of a thread may be taken where `pre` holds; it keeps `inv`, and
-- does to the other threads no more than what they `rely` on.
structure Agreement (effect : τ → σ → (a : A) → R a → σ → Prop) where
  inv  : σ → Prop
  rely : τ → σ → σ → Prop
  pre  : τ → A → σ → Prop
  kept : ∀ {t s a r s'}, inv s → pre t a s → effect t s a r s' → inv s' ∧ ∀ t', t' ≠ t → rely t' s s'

namespace Agreement

variable {effect : τ → σ → (a : A) → R a → σ → Prop} (g : Agreement effect)

def Stable (t : τ) (P : σ → Prop) : Prop :=
  ∀ s s', g.inv s → g.inv s' → g.rely t s s' → P s → P s'

theorem Stable.and {g : Agreement effect} (h : g.Stable t P) (h' : g.Stable t P') : g.Stable t fun s => P s ∧ P' s :=
  fun s s' hi hi' hr => And.imp (h s s' hi hi' hr) (h' s s' hi hi' hr)

-- From `P` on, every action of the thread meets its precondition, and the results are those of `Q`.
def Safe (t : τ) (Q : α → σ → Prop) : (σ → Prop) → Thread A R α → Prop
  | P, .ret b      => ∀ s, g.inv s → P s → Q b s
  | P, .act a next => ∃ P₁, g.Stable t P₁ ∧ (∀ s, g.inv s → P s → P₁ s) ∧ (∀ s, g.inv s → P₁ s → g.pre t a s) ∧
    ∀ s r s', g.inv s → g.inv s' → P₁ s → effect t s a r s' → ∃ P', P' s' ∧ Safe t Q P' (next r)

namespace Safe

variable {g} {t : τ} {P P' : σ → Prop} {Q Q' : α → σ → Prop} {x : Thread A R α}

theorem weaken (h : g.Safe t Q P x) (hp : ∀ s, g.inv s → P' s → P s) : g.Safe t Q P' x := by
  cases x
  case ret => exact fun s hi hs => h s hi <| hp s hi hs
  case act =>
    obtain ⟨P₁, hs, hp₁, hx⟩ := h
    exact ⟨P₁, hs, fun s hi h => hp₁ s hi <| hp s hi h, hx⟩

theorem ret (h : ∀ s, g.inv s → P s → Q b s) : g.Safe t Q P (.ret b) :=
  h

theorem act {next : R a → Thread A R α} (hs : g.Stable t P) (hp : ∀ s, g.inv s → P s → g.pre t a s)
    (h : ∀ s r s', g.inv s → g.inv s' → P s → effect t s a r s' → ∃ P', P' s' ∧ g.Safe t Q P' (next r)) :
    g.Safe t Q P (.act a next) :=
  ⟨P, hs, fun _ _ => id, hp, h⟩

theorem bind {f : α → Thread A R β} {Q' : β → σ → Prop} (h : g.Safe t Q P x) (hf : ∀ b, g.Safe t Q' (Q b) (f b)) :
    g.Safe t Q' P (x >>= f) := by
  induction x generalizing P
  case ret b         => exact (hf b).weaken h
  case act a next ih =>
    obtain ⟨P₁, hs, hp, hpre, hx⟩ := h
    refine ⟨P₁, hs, hp, hpre, fun s r s' hi hi' h he => ?_⟩
    obtain ⟨P', hp', hr⟩ := hx s r s' hi hi' h he
    exact ⟨P', hp', ih r hr⟩

end Safe

-- A system whose threads keep to the agreement.
structure Agrees (Q : τ → α → σ → Prop) (s : System A R τ σ α) : Prop where
  inv     : g.inv s.shared
  threads : ∀ t, ∃ P, P s.shared ∧ g.Safe t (Q t) P (s.threads t)

variable {g} {calls : α → Thread A R α → Prop} {Q : τ → α → σ → Prop} {s s' : System A R τ σ α}

theorem Agrees.step [DecidableEq τ] (hq : ∀ t b, g.Stable t (Q t b)) (hc : ∀ t b x, calls b x → g.Safe t (Q t) (Q t b) x)
    (h : g.Agrees Q s) (e : s.Step effect calls l s') : g.Agrees Q s' := by
  cases e
  case call t b x ht hx =>
    refine ⟨h.inv, fun t' => ?_⟩
    by_cases he : t' = t
    case neg => simpa only [Function.update_of_ne he] using h.threads t'
    case pos =>
      subst he
      obtain ⟨P, hp, hs⟩ := h.threads t'
      rw [ht] at hs
      exact ⟨Q t' b, hs _ h.inv hp, by simpa only [Function.update_self] using hc t' b x hx⟩
  case act t a next r u ht he =>
    obtain ⟨P, hp, hs⟩ := h.threads t
    rw [ht] at hs
    obtain ⟨P₁, _, hp₁, hpre, hx⟩ := hs
    have hp := hp₁ _ h.inv hp
    obtain ⟨hi, hr⟩ := g.kept h.inv (hpre _ h.inv hp) he
    refine ⟨hi, fun t' => ?_⟩
    by_cases hne : t' = t
    case pos =>
      subst hne
      simpa only [Function.update_self] using hx _ r u h.inv hi hp he
    case neg =>
      obtain ⟨P', hp', hs'⟩ := h.threads t'
      simp only [Function.update_of_ne hne]
      cases hx' : s.threads t'
      case ret b =>
        rw [hx'] at hs'
        exact ⟨Q t' b, hq t' b _ _ h.inv hi (hr t' hne) (hs' _ h.inv hp'), fun _ _ => id⟩
      case act   =>
        rw [hx'] at hs'
        obtain ⟨P₂, hst, hp₂, hx⟩ := hs'
        exact ⟨P₂, hst _ _ h.inv hi (hr t' hne) (hp₂ _ h.inv hp'), P₂, hst, fun _ _ => id, hx⟩

theorem Agrees.reachable [DecidableEq τ] (hq : ∀ t b, g.Stable t (Q t b))
    (hc : ∀ t b x, calls b x → g.Safe t (Q t) (Q t b) x) (h : Runs.Reachable init (System.Step effect calls) s)
    (hi : ∀ {s}, init s → g.Agrees Q s) : g.Agrees Q s :=
  h.invariant hi fun e h => h.step hq hc e

-- No interleaving takes an action where its precondition does not hold.
theorem Agrees.pre (h : g.Agrees Q s) (ht : s.threads t = .act a next) : g.pre t a s.shared := by
  obtain ⟨P, hp, hs⟩ := h.threads t
  rw [ht] at hs
  obtain ⟨P₁, _, hp₁, hpre, _⟩ := hs
  exact hpre _ h.inv <| hp₁ _ h.inv hp

end Agreement
end Thread
