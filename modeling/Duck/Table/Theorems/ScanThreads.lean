import Duck.Buffer.Theorems.PoolManager.Refinement
import Duck.Table.ScanThreads

namespace Duck

namespace Session

variable {s t : Session} {m : PageMap} {more : List Pin}

-- The pins of others do not matter to the calls of a client.
theorem Step.frame (e : s.Step ev t) :
    Step ⟨s.pool, s.owned, s.pins ++ more⟩ ev ⟨t.pool, t.owned, t.pins ++ more⟩ := by
  cases e
  case newPage h            => exact .newPage h
  case noNewPage h          => exact .noNewPage h
  case fetchPage hp h       => exact .fetchPage hp h
  case noPage hp h          => exact .noPage hp h
  case deletePage hp h      => exact .deletePage hp h
  case flushAll h           => exact .flushAll h
  case flushDisk            => exact .flushDisk
  case write pins₁ pin pins₂ data h =>
    rw [List.append_assoc, List.cons_append]
    exact .write (by rw [h, List.append_assoc, List.cons_append])
  case unpinPage pins₁ pin pins₂ dirty h hw =>
    rw [List.append_assoc]
    exact .unpinPage (by rw [h, List.append_assoc, List.cons_append]) hw

theorem Models.setPins {ps : List Pin} (hm : s.Models m) (h : ps.Perm s.pins) : Models { s with pins := ps } m where
  accounts := hm.accounts.setPins h
  online   := hm.online
  roomy    := hm.roomy
  owned    := hm.owned
  bytes    := hm.bytes
  saved p  := fun f ht hd hn => hm.saved p f ht hd fun pin hp => hn pin (h.mem_iff.mpr hp)

-- Clients that own pages of the file.
theorem Models.open (hw : d.WellFormed) (ho : d.file.failing = false) (hc : d.capacity < invalidPageID)
    (hu : ∀ p ∈ ids, d.InUse p) :
    Models ⟨.create d n, ids, []⟩ fun p => if p ∈ ids then some (d.stored p) else none where
  accounts := ⟨PoolManager.create_wellFormed, hw, hu _, nofun, nofun, nofun⟩
  online   := ho
  roomy    := hc
  owned    := by simp
  bytes h  := by
    obtain ⟨_, ⟨⟩⟩ := Option.ite_none_right_eq_some.mp h
    exact PoolManager.bytesOf_stored rfl
  saved _  := .uncached rfl

end Session

namespace ScanThread

open Thread TableHeap

variable {scan : TableHeap.Scan} {pin : Option Pin}

-- The calls of a scan are its threads, where nothing comes between their steps.

theorem interpret_step (a : Action) : (step a).interpret run = run a :=
  interpret_perform a

theorem scan_eq (h : TableHeap) : h.scan = (ScanThread.scan h).interpret run := by
  rw [ScanThread.scan, interpret_bind, interpret_step]
  rfl

theorem nextPage_eq : scan.nextPage = (nextPage scan).interpret run := by
  obtain ⟨rid, _ | f⟩ := scan
  · rfl
  · rw [TableHeap.Scan.nextPage, nextPage, interpret_bind, interpret_step]
    refine bind_congr fun page => ?_
    by_cases hp : page.hasNextPage
    case neg => simp [hp]
    case pos =>
      simp only [hp, Bool.not_true, Bool.false_eq_true, if_false]
      rw [interpret_bind, interpret_step]
      refine bind_congr fun _ => ?_
      rw [interpret_bind, interpret_step]
      refine bind_congr fun next => ?_
      cases next
      case none      => rfl
      case some next =>
        rw [interpret_bind, interpret_step]
        rfl

theorem next_eq : scan.next = .loop (fun scan => (turn scan).interpret run) scan := by
  rw [TableHeap.Scan.next]
  congr
  funext ⟨rid, frame⟩
  cases frame
  case none   => rfl
  case some f =>
    rw [turn, interpret_bind, interpret_step]
    refine bind_congr fun page => ?_
    dsimp only
    split
    case isFalse => rfl
    case isTrue  =>
      rw [interpret_bind, ←nextPage_eq]
      refine bind_congr fun result => ?_
      obtain ⟨_ | _, _⟩ := result <;> rfl

theorem close_eq : scan.close = (close scan).interpret run := by
  obtain ⟨rid, _ | f⟩ := scan
  · rfl
  · exact (interpret_step (.unpin f)).symm

-- From a pin on, which it has fetched and not unpinned since, the thread uses that pin only, and comes to a
-- result of `Q`. A page that could not be fetched is not looked at.
def Keeps (Q : Option Pin → α → Prop) : Option Pin → ScanThread α → Prop
  | pin, .ret a                => Q pin a
  | pin, .act (.fetchPage p) k => pin = none ∧ ∀ f, Keeps Q (some ⟨p, f, false⟩) (k (some f))
  | pin, .act (.slotted f) k   => pin.map Pin.frameId = some f ∧ ∀ page, Keeps Q pin (k page)
  | pin, .act (.pageId f) k    => pin.map Pin.frameId = some f ∧ ∀ p, Keeps Q pin (k p)
  | pin, .act (.unpin f) k     => pin.map Pin.frameId = some f ∧ Keeps Q none (k ())

namespace Keeps

variable {Q : Option Pin → α → Prop}

theorem bind {Q' : Option Pin → β → Prop} {x : ScanThread α} {f : α → ScanThread β}
    (h : Keeps Q pin x) (hf : ∀ {pin a}, Q pin a → Keeps Q' pin (f a)) : Keeps Q' pin (x >>= f) := by
  induction x generalizing pin
  case ret a         => exact hf h
  case act a next ih =>
    cases a
    case fetchPage         => exact ⟨h.1, fun g => ih _ (h.2 g)⟩
    case slotted | pageId  => exact ⟨h.1, fun r => ih _ (h.2 r)⟩
    case unpin             => exact ⟨h.1, ih _ h.2⟩

theorem fetchPage {k : Option FrameID → ScanThread α} (h : ∀ f, Keeps Q (some ⟨p, f, false⟩) (k (some f))) :
    Keeps Q none (step (.fetchPage p) >>= k) :=
  ⟨rfl, h⟩

theorem slotted {k : SlottedPage → ScanThread α} (hp : pin.map Pin.frameId = some f) (h : ∀ page, Keeps Q pin (k page)) :
    Keeps Q pin (step (.slotted f) >>= k) :=
  ⟨hp, h⟩

theorem pageId {k : PageID → ScanThread α} (hp : pin.map Pin.frameId = some f) (h : ∀ p, Keeps Q pin (k p)) :
    Keeps Q pin (step (.pageId f) >>= k) :=
  ⟨hp, h⟩

theorem unpin {k : Unit → ScanThread α} (hp : pin.map Pin.frameId = some f) (h : Keeps Q none (k ())) :
    Keeps Q pin (step (.unpin f) >>= k) :=
  ⟨hp, h⟩

end Keeps

-- The pin is that of the page that an object points to.
def PinOf (pin : Option Pin) (scan : TableHeap.Scan) : Prop :=
  pin.map Pin.frameId = scan.currentPage

def Owns (pin : Option Pin) (life : Life) : Prop :=
  pin.map Pin.frameId = life.currentPage

theorem construct_eq : construct h =
    .act (.fetchPage h.firstPageId) fun frame => .ret (.ready ⟨⟨h.firstPageId, 0⟩, frame⟩) :=
  rfl

theorem keeps_construct : Keeps Owns none (construct h) :=
  ⟨rfl, fun _ => rfl⟩

theorem keeps_leave (hp : PinOf pin scan) (hl : life.currentPage = none) : Keeps Owns pin (leave scan life) := by
  obtain ⟨rid, _ | f⟩ := scan
  · exact hp.trans hl.symm
  · exact .unpin hp hl.symm

theorem pinOf_skip {page : SlottedPage} (hp : PinOf pin scan) : PinOf pin (scan.skip page) := by
  rw [TableHeap.Scan.skip]
  split
  · exact hp
  · split <;> exact hp

theorem keeps_nextPage (hp : PinOf pin scan) : Keeps (fun pin x => PinOf pin x.2) pin (nextPage scan) := by
  obtain ⟨rid, _ | f⟩ := scan
  · exact hp
  · refine .slotted hp fun page => ?_
    split
    case isTrue  => exact hp
    case isFalse => exact .unpin hp <| .fetchPage fun g => .pageId rfl fun _ => rfl

theorem keeps_turn (hp : PinOf pin scan) :
    Keeps (fun pin x => PinOf pin <| x.elim id Prod.snd) pin (turn scan) := by
  obtain ⟨rid, _ | f⟩ := scan
  · exact hp
  · refine .slotted hp fun page => ?_
    have hs : PinOf pin (TableHeap.Scan.skip ⟨rid, some f⟩ page) := pinOf_skip hp
    dsimp only
    split
    case isFalse => exact hs
    case isTrue  =>
      refine (keeps_nextPage hs).bind ?_
      rintro _ ⟨_ | _, _⟩ hp <;> exact hp

theorem keeps_next (hp : PinOf pin scan) : Keeps Owns pin (next scan) := by
  refine (keeps_turn hp).bind ?_
  rintro _ (_ | _) hp <;> exact hp

end ScanThread

namespace Scans

-- A new pool and no scan. Clients may own pages of the file.
inductive Initial : Scans → Prop
  | start : d.WellFormed → (d.file.failing = false) → (d.capacity < invalidPageID) → (∀ p ∈ ids, d.InUse p) →
    Initial ⟨⟨.create d n, ids, []⟩, fun _ => .ret .absent, [], [], []⟩

-- A `fetch_page` of a scan that gives no page is that of its constructor. The file stays below 2 ^ 32 - 1
-- pages, and a page never has 2 ^ 32 pins at once.
structure CarefulStep (s : Scans) (l : Label) (t : Scans) : Prop where
  step  : s.Step l t
  page  : ∀ i, l = .noPage i → ∃ h, s.threads i = ScanThread.construct h
  roomy : t.clients.pool.disk.capacity < invalidPageID
  pins  : ∀ p, pinsOn t.clients.pins p + pinsOn (t.held.map Prod.snd) p < 4294967296

variable {s t : Scans} {i j : ℕ}

section held

-- The pool with all its pins.
def all (s : Scans) : Session :=
  ⟨s.clients.pool, s.clients.owned, s.clients.pins ++ s.held.map Prod.snd⟩

-- The pin that a scan has, if any.
def Has (s : Scans) (i : ℕ) (pin : Option Pin) : Prop :=
  ∀ q, (i, q) ∈ s.held ↔ pin = some q

theorem Has.holds (h : s.Has i pin) (hp : pin.map Pin.frameId = some f) : s.Holds i f := by
  obtain ⟨q, rfl, hf⟩ := Option.map_eq_some_iff.mp hp
  exact ⟨q, (h q).mpr rfl, hf⟩

theorem Has.not_holds (h : s.Has i none) : ¬s.Holds i f := by
  rintro ⟨q, hq, _⟩
  cases (h q).mp hq

theorem Has.unique (h : s.Has i pin) (h' : s.Has i pin') : pin = pin' :=
  Option.ext fun q => (h q).symm.trans (h' q)

-- The pin of a scan among all that are held.
theorem Has.split (h : s.Has i (some pin)) (hk : (s.held.map Prod.fst).Nodup) :
    ∃ l₁ l₂, s.held = l₁ ++ (i, pin) :: l₂ ∧ s.held.filter (·.1 ≠ i) = l₁ ++ l₂ := by
  obtain ⟨l₁, l₂, hl⟩ := List.append_of_mem <| (h pin).mpr rfl
  refine ⟨l₁, l₂, hl, ?_⟩
  have hn : i ∉ (l₁ ++ l₂).map Prod.fst := by
    have hn : ((i, pin) :: (l₁ ++ l₂)).map Prod.fst |>.Nodup :=
      (List.perm_middle.map Prod.fst).nodup_iff.mp <| hl ▸ hk
    exact (List.nodup_cons.mp hn).1
  have hf : (l₁ ++ l₂).filter (·.1 ≠ i) = l₁ ++ l₂ := by
    refine List.filter_eq_self.mpr fun x hx => ?_
    simpa using fun he => hn <| List.mem_map.mpr ⟨x, hx, he⟩
  rw [hl, List.filter_append, List.filter_cons_of_neg (by simp), ←List.filter_append, hf]

end held

open ScanThread

structure Invariant (s : Scans) : Prop where
  models : ∃ m, s.all.Models m
  clean  : ∀ x ∈ s.held, x.2.wrote = false
  keys   : (s.held.map Prod.fst).Nodup
  keeps  : ∀ i, ∃ pin, s.Has i pin ∧ Keeps Owns pin (s.threads i)
  once   : s.fetched.Perm (s.unpinned ++ s.held.map (·.2.pageId))

namespace Invariant

theorem start (h : Initial s) : s.Invariant := by
  cases h
  case start hw ho hc hu =>
    exact ⟨⟨_, .open hw ho hc hu⟩, by simp, .nil, fun i => ⟨none, by simp [Has], rfl⟩, .nil⟩

-- What a scan has, as far as its thread tells.
theorem has (hi : s.Invariant) (ht : s.threads i = x) : ∃ pin, s.Has i pin ∧ Keeps Owns pin x :=
  ht ▸ hi.keeps i

theorem balanced (hi : s.Invariant) : s.Balanced where
  fetches i p k ht f := by
    obtain ⟨_, hh, rfl, _⟩ := hi.has ht
    exact hh.not_holds
  reads i f k ht     := by
    obtain ⟨_, hh, hp, _⟩ := hi.has ht
    exact hh.holds hp
  names i f k ht     := by
    obtain ⟨_, hh, hp, _⟩ := hi.has ht
    exact hh.holds hp
  unpins i f k ht    := by
    obtain ⟨_, hh, hp, _⟩ := hi.has ht
    exact hh.holds hp
  destroyed i ht f   := by
    obtain ⟨_, hh, hp⟩ := hi.has ht
    exact (Option.map_eq_none_iff.mp hp ▸ hh).not_holds
  once               := hi.once
  count p f ht       := by
    obtain ⟨m, hm⟩ := hi.models
    exact (hm.accounts.count ht).trans List.countP_append

-- A call of the pool.
theorem models_step (hi : s.Invariant) (e : s.all.Step ev c) (hs : t.all = { c with pins := t.all.pins })
    (hp : t.all.pins.Perm c.pins) (hc : t.clients.pool.disk.capacity < invalidPageID)
    (hn : ∀ p, pinsOn t.clients.pins p + pinsOn (t.held.map Prod.snd) p < 4294967296) : ∃ m, t.all.Models m := by
  obtain ⟨m, hm⟩ := hi.models
  have hcap : c.pool.disk.capacity < invalidPageID := (congrArg (·.pool.disk.capacity) hs) ▸ hc
  have hpins (p) : pinsOn c.pins p < 4294967296 := by
    have he : pinsOn c.pins p = _ := (hp.countP_eq _).symm.trans List.countP_append
    exact he ▸ hn p
  obtain ⟨m', _, hm'⟩ := hm.step ⟨⟨e, hcap⟩, hpins⟩
  exact ⟨m', hs ▸ hm'.setPins hp⟩

-- A thread goes on with its pin.
theorem set (hi : s.Invariant) (hx : ∀ pin, s.Has i pin → Keeps Owns pin (s.threads i) → Keeps Owns pin x) :
    (s.set i x).Invariant := by
  refine ⟨hi.models, hi.clean, hi.keys, fun k => ?_, hi.once⟩
  obtain ⟨pin, hh, hk⟩ := hi.keeps k
  refine ⟨pin, hh, ?_⟩
  by_cases hki : k = i
  case pos =>
    subst hki
    simpa only [Scans.set, Function.update_self] using hx pin hh hk
  case neg => simpa only [Scans.set, Function.update_of_ne hki] using hk

theorem resume (hi : s.Invariant) (ht : s.threads i = x) (hx : ∀ pin, Keeps Owns pin x → Keeps Owns pin y) :
    (s.set i y).Invariant :=
  hi.set fun pin _ hk => hx pin <| ht ▸ hk

theorem others (hi : s.Invariant) (e : s.clients.Step ev c) (h : CarefulStep s l { s with clients := c }) :
    Invariant { s with clients := c } :=
  ⟨hi.models_step e.frame rfl (.refl _) h.roomy h.pins, hi.clean, hi.keys, hi.keeps, hi.once⟩

theorem move (hi : s.Invariant) (ht : s.threads i = .ret life) (hl : life.currentPage = none) (hij : i ≠ j)
    (hj : s.threads j = .ret (.ready other)) : (s.move j i other).Invariant := by
  have hall : (s.move j i other).held.map Prod.snd = s.held.map Prod.snd := by
    simp only [Scans.move, List.map_map]
    rfl
  obtain ⟨_, hhi, hpi⟩ := hi.has ht
  obtain rfl := Option.map_eq_none_iff.mp <| hpi.trans hl
  obtain ⟨pin, hhj, hpj⟩ := hi.has hj
  have hm {k q} : (k, q) ∈ (s.move j i other).held ↔ (if k = i then (j, q) ∈ s.held else k ≠ j ∧ (k, q) ∈ s.held) := by
    simp only [Scans.move, List.mem_map, Prod.mk.injEq, Prod.exists]
    constructor
    · rintro ⟨k', q, hq, rfl, rfl⟩
      by_cases hkj : k' = j
      case pos => rwa [if_pos hkj, if_pos rfl, ←hkj]
      case neg =>
        have hki : k' ≠ i := by
          rintro rfl
          cases (hhi q).mp hq
        rw [if_neg hkj, if_neg hki]
        exact ⟨hkj, hq⟩
    · intro hq
      split at hq
      case isTrue hki  => exact ⟨j, q, hq, by rw [if_pos rfl, hki], rfl⟩
      case isFalse hki => exact ⟨k, q, hq.2, if_neg hq.1, rfl⟩
  refine ⟨?_, ?_, ?_, fun k => ?_, ?_⟩
  · obtain ⟨m, hm⟩ := hi.models
    exact ⟨m, by rwa [all, hall]⟩
  · rintro ⟨k, q⟩ hq
    have hq := hm.mp hq
    split at hq
    case isTrue  => exact hi.clean (j, q) hq
    case isFalse => exact hi.clean _ hq.2
  · have hk : (s.move j i other).held.map Prod.fst = (s.held.map Prod.fst).map fun k => if k = j then i else k := by
      simp only [Scans.move, List.map_map]
      rfl
    rw [hk]
    refine hi.keys.map_on fun a ha b hb he => ?_
    have hn {a} (ha : a ∈ s.held.map Prod.fst) : a ≠ i := by
      rintro rfl
      obtain ⟨⟨_, q⟩, hq, rfl⟩ := List.mem_map.mp ha
      cases (hhi q).mp hq
    have := hn ha
    have := hn hb
    grind
  · by_cases hki : k = i
    case pos =>
      subst hki
      refine ⟨pin, fun q => ?_, ?_⟩
      · rw [hm, if_pos rfl]
        exact hhj q
      · simpa [Scans.move, Scans.set] using hpj
    case neg =>
      by_cases hkj : k = j
      case pos =>
        subst hkj
        refine ⟨none, fun q => ?_, ?_⟩
        · simp [hm, hki]
        · simp only [Scans.move, Scans.set, Function.update_of_ne hki, Function.update_self]
          rfl
      case neg =>
        obtain ⟨pin, hh, hk⟩ := hi.keeps k
        refine ⟨pin, fun q => ?_, ?_⟩
        · simpa [hm, hki, hkj] using hh q
        · simpa only [Scans.move, Scans.set, Function.update_of_ne hki, Function.update_of_ne hkj] using hk
  · have hp : (s.move j i other).held.map (·.2.pageId) = s.held.map (·.2.pageId) := by
      simp only [Scans.move, List.map_map]
      rfl
    exact hp ▸ hi.once

theorem fetchPage (hi : s.Invariant) (ht : s.threads i = .act (.fetchPage p) k) (hp : p ∈ s.clients.owned)
    (hf : s.clients.pool.fetchPage p = (.ok (some f), m)) (hs : t = { (s.set i (k (some f))).setPool m with
      held    := (i, ⟨p, f, false⟩) :: s.held
      fetched := p :: s.fetched }) (h : CarefulStep s l t) : t.Invariant := by
  subst hs
  obtain ⟨_, hh, rfl, hk⟩ := hi.has ht
  refine ⟨?_, ?_, ?_, fun j => ?_, ?_⟩
  · exact hi.models_step (.fetchPage hp hf) rfl List.perm_middle h.roomy h.pins
  · exact List.forall_mem_cons.mpr ⟨rfl, hi.clean⟩
  · refine List.nodup_cons.mpr ⟨fun hm => ?_, hi.keys⟩
    obtain ⟨⟨_, q⟩, hq, rfl⟩ := List.mem_map.mp hm
    cases (hh q).mp hq
  · by_cases hji : j = i
    case pos =>
      subst hji
      refine ⟨some ⟨p, f, false⟩, fun q => ?_, ?_⟩
      · simp [hh q, eq_comm]
      · simpa [setPool, Scans.set] using hk f
    case neg =>
      obtain ⟨pin, hh, hk⟩ := hi.keeps j
      refine ⟨pin, fun q => ?_, ?_⟩
      · simpa [hji] using hh q
      · simpa only [setPool, Scans.set, Function.update_of_ne hji] using hk
  · exact (hi.once.cons p).trans List.perm_middle.symm

theorem noPage (hi : s.Invariant) (ht : s.threads i = .act (.fetchPage p) k) (hp : p ∈ s.clients.owned)
    (hf : s.clients.pool.fetchPage p = (.ok none, m)) (h : CarefulStep s (.noPage i) ((s.set i (k none)).setPool m)) :
    ((s.set i (k none)).setPool m).Invariant := by
  obtain ⟨heap, hc⟩ := h.page i rfl
  obtain ⟨_, hh, rfl, _⟩ := hi.has ht
  have hk : k none = .ret (.ready ⟨⟨heap.firstPageId, 0⟩, none⟩) := by
    rw [construct_eq] at hc
    cases ht.symm.trans hc
    rfl
  have hn := hi.set (i := i) (x := k none) fun pin hp _ => by
    rw [hp.unique hh, hk]
    rfl
  exact ⟨hi.models_step (.noPage hp hf) rfl (.refl _) h.roomy h.pins, hn.clean, hn.keys, hn.keeps, hn.once⟩

theorem unpin (hi : s.Invariant) (ht : s.threads i = .act (.unpin f) k) (hs : t = {
      (s.set i (k ())).setPool (s.clients.pool.unpinPage (s.clients.pool.frames f).pageId false) with
      held     := s.held.filter (·.1 ≠ i)
      unpinned := (s.clients.pool.frames f).pageId :: s.unpinned }) (h : CarefulStep s l t) : t.Invariant := by
  subst hs
  obtain ⟨_, hh, hp, hk⟩ := hi.has ht
  obtain ⟨pin, rfl, rfl⟩ := Option.map_eq_some_iff.mp hp
  obtain ⟨l₁, l₂, hl, hfilter⟩ := hh.split hi.keys
  obtain ⟨m, hm⟩ := hi.models
  have hpage : (s.clients.pool.frames pin.frameId).pageId = pin.pageId := by
    refine hm.accounts.pool.table_page <| hm.accounts.held <| List.mem_append_right _ ?_
    exact List.mem_map.mpr ⟨(i, pin), (hh pin).mpr rfl, rfl⟩
  have hw : pin.wrote = false := hi.clean (i, pin) ((hh pin).mpr rfl)
  have hsplit : s.all.pins = (s.clients.pins ++ l₁.map Prod.snd) ++ pin :: l₂.map Prod.snd := by
    simp [all, hl]
  refine ⟨?_, fun x hx => hi.clean x (List.mem_of_mem_filter hx), ?_, fun j => ?_, ?_⟩
  · have e : s.all.Step (.unpinPage pin.pageId false) _ := .unpinPage hsplit (by simp [hw])
    refine hi.models_step e ?_ ?_ h.roomy h.pins
    · simp only [all, setPool, Scans.set, hpage]
    · simp only [all, setPool, Scans.set, hfilter, List.map_append, List.append_assoc]
      exact .refl _
  · exact hi.keys.sublist <| List.filter_sublist.map Prod.fst
  · by_cases hji : j = i
    case pos =>
      subst hji
      refine ⟨none, fun q => ?_, ?_⟩
      · simp
      · simpa [setPool, Scans.set] using hk
    case neg =>
      obtain ⟨pin, hh, hk⟩ := hi.keeps j
      refine ⟨pin, fun q => ?_, ?_⟩
      · simpa [hji] using hh q
      · simpa only [setPool, Scans.set, Function.update_of_ne hji] using hk
  · have hm : (s.unpinned ++ s.held.map (·.2.pageId)).Perm
        (pin.pageId :: (s.unpinned ++ (l₁ ++ l₂).map (·.2.pageId))) := by
      rw [hl, List.map_append, List.map_append, List.map_cons, ←List.append_assoc, ←List.append_assoc]
      exact List.perm_middle
    simp only [hpage, hfilter]
    exact hi.once.trans hm

theorem step (hi : s.Invariant) (h : CarefulStep s l t) : t.Invariant := by
  have e := h.step
  cases e
  case others e                 => exact hi.others e h
  case construct ht             =>
    refine hi.resume ht fun pin hk => ?_
    obtain rfl := Option.map_eq_none_iff.mp hk
    exact keeps_construct
  case next ht                  => exact hi.resume ht fun _ => id
  case turn ht                  => exact hi.resume ht fun _ => keeps_next
  case moveAssign hij ht        => exact hi.resume ht fun _ hp => keeps_leave hp rfl
  case destroy ht               => exact hi.resume ht fun _ hp => keeps_leave hp rfl
  case selfAssign               => exact hi
  case moveConstruct i j _ hi' hj  =>
    refine hi.move hi' rfl ?_ hj
    rintro rfl
    cases hi'.symm.trans hj
  case assigned i j _ hi' hj       =>
    refine hi.move hi' rfl ?_ hj
    rintro rfl
    cases hi'.symm.trans hj
  case fetchPage ht hp hf       => exact hi.fetchPage ht hp hf rfl h
  case noPage ht hp hf          => exact hi.noPage ht hp hf h
  case slotted ht               => exact hi.resume ht fun _ hk => hk.2 _
  case pageId ht                => exact hi.resume ht fun _ hk => hk.2 _
  case unpin ht                 => exact hi.unpin ht rfl h

end Invariant

theorem CarefulStep.scans_balance (h : Runs.Reachable Initial CarefulStep s) : s.Balanced :=
  (h.invariant .start fun e hi => hi.step e : s.Invariant).balanced

theorem Step.careful (e : s.Step l t) (hl : ∀ i, l ≠ .noPage i) (hc : t.clients.pool.disk.capacity < invalidPageID)
    (hn : t.clients.pins.length + t.held.length < 4294967296) : CarefulStep s l t := by
  refine ⟨e, fun i he => absurd he (hl i), hc, fun p => Nat.lt_of_le_of_lt (Nat.add_le_add ?_ ?_) hn⟩
  · exact List.countP_le_length
  · exact List.countP_le_length.trans_eq (List.length_map _)

-- A page without tuples before page 1.
def linked : PageData :=
  .ofMemory (SlottedPage.setNextPage (.init ⟨fun _ => 0⟩) 1).data

theorem write_linked {s : Session} (h : s.pins = [pin]) : s.Step (.write pin.pageId linked) { s with
    pool := s.pool.setFrame pin.frameId { s.pool.frames pin.frameId with data := linked }
    pins := [{ pin with wrote := true }] } := by
  have h : s.pins = [] ++ pin :: [] := h
  exact .write h

-- Page 1 is in the file.
def small (n : ℕ) : Scans :=
  ⟨⟨.create (DiskManager.fresh .empty).allocatePage.2 n, [1], []⟩, fun _ => .ret .absent, [], [], []⟩

theorem start_small : Initial (small n) := by
  have h := (DiskManager.fresh_wellFormed (f := .empty)).allocatePage fun _ => by decide
  exact .start h.wellFormed rfl (by decide) fun p hp => h.inUse.mpr <| .inr <| List.mem_singleton.mp hp

-- A scan that has gone on to its second page.
theorem scans_balance_small : ∃ s : Scans, s.Balanced ∧ s.fetched = [1, 2] ∧ s.unpinned = [2] := by
  have h₀ : Runs.Reachable Initial CarefulStep (small 2) := .start start_small
  have h₁ := h₀.next <| Step.careful (.others (.newPage (f := 0) rfl)) (by simp) (by decide) (by decide)
  have h₂ := h₁.next <| Step.careful (.others (write_linked rfl)) (by simp) (by decide) (by decide)
  have h₃ := h₂.next <| Step.careful (.construct (i := 0) (h := ⟨2⟩) rfl) (by simp) (by decide) (by decide)
  have h₄ := h₃.next <| Step.careful (.fetchPage (i := 0) (p := 2) rfl (by decide) rfl) (by simp) (by decide) (by decide)
  have h₅ := h₄.next <| Step.careful (.next (i := 0) rfl) (by simp) (by decide) (by decide)
  have h₆ := h₅.next <| Step.careful (.turn (i := 0) rfl) (by simp) (by decide) (by decide)
  have h₇ := h₆.next <| Step.careful (.slotted (i := 0) rfl) (by simp) (by decide) (by decide)
  have h₈ := h₇.next <| Step.careful (.slotted (i := 0) rfl) (by simp) (by decide) (by decide)
  have h₉ := h₈.next <| Step.careful (.unpin (i := 0) rfl) (by simp) (by decide) (by decide)
  have h₁₀ := h₉.next <|
    Step.careful (.fetchPage (i := 0) (p := 1) (f := 1) rfl (by decide) rfl) (by simp) (by decide) (by decide)
  exact ⟨_, CarefulStep.scans_balance h₁₀, rfl, rfl⟩

-- The second page cannot be fetched, and the first one is unpinned once more.
theorem not_balanced : ¬∀ s, Runs.Reachable Initial Step s → s.Balanced := by
  intro h
  have h₀ : Runs.Reachable Initial Step (small 1) := .start start_small
  have h₁ := h₀.next (.others (.newPage (f := 0) rfl))
  have h₂ := h₁.next (.others (write_linked rfl))
  have h₃ := h₂.next (.construct (i := 0) (h := ⟨2⟩) rfl)
  have h₄ := h₃.next (.fetchPage (i := 0) (p := 2) rfl (by decide) rfl)
  have h₅ := h₄.next (.next (i := 0) rfl)
  have h₆ := h₅.next (.turn (i := 0) rfl)
  have h₇ := h₆.next (.slotted (i := 0) rfl)
  have h₈ := h₇.next (.slotted (i := 0) rfl)
  have h₉ := h₈.next (.unpin (i := 0) rfl)
  have h₁₀ := h₉.next (.noPage (i := 0) (p := 1) rfl (by decide) rfl)
  have h₁₁ := h₁₀.next (.destroy (i := 0) rfl)
  obtain ⟨pin, hp, _⟩ := (h _ h₁₁).unpins 0 0 _ rfl
  cases hp

end Scans
end Duck
