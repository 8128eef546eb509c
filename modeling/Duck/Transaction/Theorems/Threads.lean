import Duck.Transaction.Theorems.LockManager.Locked

namespace Duck.LockingThread

open Thread LockManager

variable {B σ : Type} {R : B → Type}
  {effect : TransactionID → LockManager × σ → (a : LockSection ⊕ B) → LockSection.OrResult R a → LockManager × σ → Prop}
  {g : Agreement effect} {tx : TransactionID} {K : LockManager × σ → Prop} {mode : LockMode} {rid : RID}

-- An agreement that leaves the locks to the lock manager.
structure Locks (g : Agreement effect) : Prop where
  inv      : ∀ {s}, g.inv s → s.1.Invariant
  rely     : ∀ {tx s s'}, g.rely tx s s' → s'.1.txs tx = s.1.txs tx ∧ s'.1.waiting tx = s.1.waiting tx
  sections : ∀ {tx s a r s'}, effect tx s (.inl a) r s' → ∃ m, s.1.Section tx a r m ∧ s' = (m, s.2)
  request  : ∀ {tx mode rid s}, g.pre tx (.inl (.request mode rid)) s ↔ s.1.waiting tx = none
  await    : ∀ {tx s}, g.pre tx (.inl .await) s

-- What the transaction knows also after it has waited for a lock. Only who grows gets one.
structure Lasting (g : Agreement effect) (tx : TransactionID) (K : LockManager × σ → Prop) : Prop where
  stable : g.Stable tx K
  frame  : ∀ {m m' s}, Section.Frame tx m m' → ((m.txs tx).state ≠ .growing → m' = m) → K (m, s) → K (m', s)

theorem Lasting.and (h : Lasting g tx K) (h' : Lasting g tx K') : Lasting g tx fun s => K s ∧ K' s where
  stable      := h.stable.and h'.stable
  frame hf hg := And.imp (h.frame hf hg) (h'.frame hf hg)

theorem Locks.stable_waiting (hl : Locks g) : g.Stable tx fun s => s.1.waiting tx = w :=
  fun _ _ _ _ hr hw => (hl.rely hr).2.trans hw

-- What it knows of its locks and its state.
theorem Locks.stable_txs (hl : Locks g) (P : Transaction → Prop) : g.Stable tx fun s => P (s.1.txs tx) :=
  fun _ _ _ _ hr h => Eq.subst (motive := P) (hl.rely hr).1.symm h

theorem Locks.stable_has (hl : Locks g) : g.Stable tx fun s => s.1.Has tx rid mode :=
  hl.stable_txs fun t => rid ∈ t.locks mode ∨ rid ∈ t.exclusiveLocks

theorem locking_inl {effect : TransactionID → LockManager × σ → (b : B) → R b → LockManager × σ → Prop}
    {s s' : LockManager × σ} {a : LockSection} {r : a.Result} (e : Locking effect tx s (.inl a) r s') :
    ∃ m, s.1.Section tx a r m ∧ s' = (m, s.2) := by
  cases e
  exact ⟨_, ‹_›, rfl⟩

theorem locking_inr {effect : TransactionID → LockManager × σ → (b : B) → R b → LockManager × σ → Prop}
    {s s' : LockManager × σ} {b : B} {r : R b} (e : Locking effect tx s (.inr b) r s') : effect tx s b r s' := by
  cases e
  assumption

-- A call that asks for a lock, by a transaction that knows `K`, and perhaps (`grows`) that it grows. Then it is only
-- refused a lock that it does not have.
theorem Locks.lock_safe (hl : Locks g) (hk : Lasting g tx K) (grows : Prop) :
    g.Safe tx (fun (granted : Bool) s => s.1.waiting tx = none ∧ K s ∧
      (granted → s.1.Has tx rid mode ∧ (s.1.txs tx).state = .growing) ∧
      (granted = false → grows → (s.1.txs tx).state ≠ .growing ∧ ¬s.1.Has tx rid mode))
      (fun s => s.1.waiting tx = none ∧ K s ∧ (grows → (s.1.txs tx).state = .growing))
      (lock mode rid : LockingThread R Bool) := by
  refine .act ?_ (fun s _ hs => hl.request.mpr hs.1) fun s r s' hi _ hs e => ?_
  · exact hl.stable_waiting.and <| hk.stable.and <| hl.stable_txs fun t => grows → t.state = .growing
  obtain ⟨m, he, rfl⟩ := hl.sections e
  have hk' := hk.frame he.frame (fun hg => he.idle hg) hs.2.1
  obtain ⟨granted, rfl, hw, hg⟩ | ⟨rfl, request, hw, hm, hg⟩ := he.of_request
  · refine ⟨_, ⟨hw hs.1, hk', hg, fun hr hg => ?_⟩, fun _ _ h => h⟩
    exact absurd (hs.2.2 hg) (hr ▸ he).of_refused
  · refine ⟨fun s => s.1.waiting tx = some (rid, request) ∧ K s ∧ (s.1.txs tx).state = .growing ∧ ¬s.1.Has tx rid mode,
      ⟨hw, hk', hg, he.of_waits⟩, ?_⟩
    refine .act ?_ (fun s _ _ => hl.await) fun s r s' hi _ hs e => ?_
    · exact hl.stable_waiting.and <| hk.stable.and <| hl.stable_txs fun t =>
        t.state = .growing ∧ ¬(rid ∈ t.locks mode ∨ rid ∈ t.exclusiveLocks)
    obtain ⟨m, hm', rfl⟩ := hl.sections e
    obtain ⟨hw, hr⟩ := hm'.of_await hs.1
    refine ⟨_, ⟨hw, hk.frame hm'.frame (fun hg => absurd hs.2.2.1 hg) hs.2.1, fun hg => ?_, fun hf _ => ?_⟩, fun _ _ h => h⟩
    · exact ⟨hm ▸ (hr hg).1, (hr hg).2.trans hs.2.2.1⟩
    · obtain ⟨ht, hk⟩ := (hf ▸ hm').of_timeOut hs.1
      have hx : (m.txs tx).exclusiveLocks = (s.1.txs tx).exclusiveLocks := hk .exclusive
      exact ⟨ht, fun h => hs.2.2.2 <| h.imp (hk mode ▸ ·) (hx ▸ ·)⟩

end Duck.LockingThread
