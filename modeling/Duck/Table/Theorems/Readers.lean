import Duck.Table.Theorems.Heaps
import Duck.Table.Theorems.TableHeap.Outcomes

namespace Duck

open Pager

-- A scan, the heap it is on, and what it has returned since it was made.
structure OpenScan where
  heap     : TableHeap
  scan     : TableHeap.Scan
  returned : List (RID × List UInt8)

-- A pool with the scans on it, and the pins of its other clients.
structure Readers where
  pager : Pager
  scans : List OpenScan
  rest  : List Pin

namespace Readers

inductive Call
  | getTuple (rid : RID) (granted : Bool) (tuple : Option (List UInt8))
  | scan (h : TableHeap)
  | next (o : OpenScan) (granted : Bool) (row : Option (RID × List UInt8))
  | reset (o : OpenScan)
  | close (o : OpenScan)
  | newPage
  | fetchPage (p : PageID)
  | unpinPage (p : PageID)

-- The calls that return, of scans on heaps that do not change meanwhile and of other clients. Each may be
-- refused a page.
inductive Step (views : Views) (s : Readers) : Call → Readers → Prop
  | getTuple  : (views rid.pageId ≠ none) → (TableHeap.getTuple h rid s.pager = some (.ok tuple, t)) →
    Step views s (.getTuple rid (!t.denied) tuple) { s with pager := t.forgiven }
  | scan      : (Linked views h.firstPageId ps) → (h.firstPageId ≠ invalidPageID) →
    (h.scan s.pager = some (.ok x, t)) →
    Step views s (.scan h) { s with pager := t.forgiven, scans := ⟨h, x, []⟩ :: s.scans }
  | next      : (s.scans = os₁ ++ o :: os₂) → (o.scan.next s.pager = some (.ok (row, x), t)) →
    Step views s (.next o (!t.denied) row) { s with
      pager := t.forgiven
      scans := os₁ ++ { o with scan := x, returned := o.returned ++ row.toList } :: os₂ }
  | reset     : (s.scans = os₁ ++ o :: os₂) → (o.heap.scan s.pager = some (.ok x, t)) →
    (o.scan.close t = some (.ok (), u)) → Step views s (.reset o) { s with
      pager := u.forgiven
      scans := os₁ ++ { o with scan := x, returned := [] } :: os₂ }
  | close     : (s.scans = os₁ ++ o :: os₂) → (o.scan.close s.pager = some (.ok (), t)) →
    Step views s (.close o) { s with pager := t.forgiven, scans := os₁ ++ os₂ }
  | newPage   : (Pager.newPage s.pager = some (.ok frame, t)) → Step views s .newPage { s with
      pager := t.forgiven
      rest  := (frame.map fun f => ⟨(t.pool.frames f).pageId, f, true⟩).toList ++ s.rest }
  | fetchPage : (views p ≠ none) → (Pager.fetchPage p s.pager = some (.ok frame, t)) →
    Step views s (.fetchPage p) { s with
      pager := t.forgiven
      rest  := (frame.map (⟨p, ·, false⟩)).toList ++ s.rest }
  | unpinPage : (s.rest = pins₁ ++ pin :: pins₂) → Step views s (.unpinPage pin.pageId) { s with
      pager := unpin pin.frameId dirty s.pager
      rest  := pins₁ ++ pins₂ }

def Initial (views : Views) (s : Readers) : Prop :=
  s.scans = [] ∧ s.pager.Shows s.rest views

-- What has no tuple to return has none, and a scan without a next tuple has returned all of them.
def Honest (s : Readers) : Call → Prop
  | .getTuple rid _ none => (s.pager.pool.bytesOf rid.pageId).slotted.hasSlot rid.slotNum = false
  | .next o _ none       => ∀ rid bytes, o.heap.Live s.pager rid bytes → (rid, bytes) ∈ o.returned
  | _                    => True

-- Where there is something to return, its page is granted, and the first one of the scan was. The tuple that
-- is read is not an empty one.
def Granted (s : Readers) : Call → Prop
  | .getTuple rid granted _ => (s.pager.pool.bytesOf rid.pageId).slotted.hasSlot rid.slotNum →
    granted = true ∧ (s.pager.pool.bytesOf rid.pageId).slotted.getTuple rid.slotNum ≠ []
  | .next o granted _       => ¬(∀ rid bytes, o.heap.Live s.pager rid bytes → (rid, bytes) ∈ o.returned) →
    granted = true ∧ o.scan.currentPage ≠ none
  | _                       => True

-- A scan that leaves its page for the next one gets it, and there are ids for new pages.
def Careful (s : Readers) : Call → Prop
  | .next _ granted _ => granted = true
  | .newPage          => s.pager.pool.disk.freeList = [] → s.pager.pool.disk.capacity < invalidPageID
  | _                 => True

-- There is room for one more pin.
def Roomy (s : Readers) : Prop :=
  s.scans.length + s.rest.length + 1 < 4294967296

structure CarefulStep (views : Views) (s : Readers) (c : Call) (t : Readers) : Prop where
  step    : s.Step views c t
  careful : s.Careful c
  room    : s.Roomy

-- The scan has its pin and has returned what is not to come, or it never got its first page.
def Open (views : Views) (o : OpenScan) : Option Pin → Prop
  | some pin => ∃ ps tuples, Linked views o.heap.firstPageId ps ∧ o.heap.firstPageId ≠ invalidPageID ∧
    o.scan.Placed pin views tuples ∧ o.returned ++ tuples = rows views ps 0
  | none     => (∃ ps, Linked views o.heap.firstPageId ps) ∧ o.heap.firstPageId ≠ invalidPageID ∧ o.scan.currentPage = none

def Invariant (views : Views) (s : Readers) : Prop :=
  ∃ held : List (OpenScan × Option Pin), held.map Prod.fst = s.scans ∧ (∀ x ∈ held, Open views x.1 x.2) ∧
    s.pager.Shows (held.filterMap Prod.snd ++ s.rest) views

end Readers

namespace Pager.Shows

variable {s t : Pager} {pins : List Pin} {views : Views} {p : PageID}

theorem newPage (hs : s.Shows pins views) :
    Pager.newPage.Ends s fun result t => t.denied = true ∨
      ∃ f, result = .ok (some f) ∧ t.Shows (⟨(t.pool.frames f).pageId, f, true⟩ :: pins) views := by
  obtain ⟨owned, hk, ho⟩ := hs
  refine hk.newPage.mono fun {result t} hx => hx.imp And.left ?_
  rintro ⟨f, p, hr, hp, -, ht, -⟩
  have hpage : (t.pool.frames f).pageId = p := by
    have hm : (⟨p, f, true⟩ : Pin) ∈ ⟨p, f, true⟩ :: pins := List.mem_cons_self
    exact ht.pageId hm
  refine ⟨f, hr, p :: owned, hpage.symm ▸ ht.mono fun {q d} _ hd v hv => ?_, fun q v hv => ?_⟩
  case refine_2 => exact List.mem_cons_of_mem _ (ho q v hv)
  have hq : q ≠ p := by
    rintro rfl
    exact hp (ho q v hv)
  rw [Function.update_of_ne hq] at hd
  exact hd v hv

-- A page that is refused leaves everything as it was.
theorem newPage_returns (hs : s.Shows pins views) (hi : s.pool.disk.freeList = [] → s.pool.disk.capacity < invalidPageID)
    (hx : Pager.newPage s = some (.ok frame, t)) :
    t.forgiven.Shows ((frame.map fun f => ⟨(t.pool.frames f).pageId, f, true⟩).toList ++ pins) views := by
  have ⟨owned, hk, ho⟩ := hs
  have ⟨hnone, hsome⟩ := hk.newPage_returns hi hx
  cases frame
  case none   => exact ⟨owned, hnone rfl, ho⟩
  case some f =>
    obtain hd | ⟨_, hr, ht⟩ := hs.newPage.of_eq hx
    · cases (hsome <| Option.some_ne_none f).symm.trans hd
    · obtain rfl := Option.some.inj <| Except.ok.inj hr
      exact ht.forgiven.symm ▸ ht

theorem fetchPage_returns (hs : s.Shows pins views) (hv : views p ≠ none) (hn : pinsOn pins p + 1 < 4294967296)
    (hx : Pager.fetchPage p s = some (.ok frame, t)) :
    t.forgiven.Shows ((frame.map (⟨p, ·, false⟩)).toList ++ pins) views ∧ (frame = none → t.denied = true) ∧
      (frame ≠ none → t.denied = false) := by
  obtain ⟨v, hv⟩ := Option.ne_none_iff_exists'.mp hv
  have ⟨owned, hk, ho⟩ := hs
  obtain ⟨hd, hr⟩ | ⟨f, hr, ht⟩ := (hs.fetchPage hv hn).of_eq hx
  · cases frame
    case some f => exact absurd rfl (hr f)
    case none   =>
      refine ⟨?_, fun _ => hd, (absurd rfl ·)⟩
      obtain hp | ⟨f, m', hp, -⟩ | ⟨e, m', hp, -⟩ := hk.accounts.pool.fetchPage (hk.accounts.inUse (ho p v hv)).lt
      all_goals simp only [Pager.fetchPage, Program.call, hp, Option.some.injEq, Prod.mk.injEq] at hx
      · obtain ⟨-, rfl⟩ := hx
        exact hs.refused
      · cases hx.1
      · cases hx.1
  · obtain rfl := Except.ok.inj hr
    exact ⟨ht.forgiven.symm ▸ ht, (absurd · <| Option.some_ne_none f), fun _ => ht.denied⟩

theorem unpinMid (hs : s.Shows (pins₁ ++ pin :: pins₂) views) :
    (Pager.unpin pin.frameId dirty s).Shows (pins₁ ++ pins₂) views := by
  obtain ⟨owned, hk, ho⟩ := hs
  exact ⟨owned, hk.unpin, ho⟩

end Pager.Shows

namespace Readers

variable {views : Views} {s t : Readers} {pins : List Pin} {o : OpenScan} {pin : Option Pin} {c : Call}

theorem Invariant.init (h : Initial views s) : Invariant views s := by
  obtain ⟨hs, hr⟩ := h
  exact ⟨[], hs.symm, nofun, hr⟩

theorem filterMap_middle {held₁ held₂ : List (OpenScan × Option Pin)} :
    List.Perm ((held₁ ++ (o, pin) :: held₂).filterMap Prod.snd) (pin.toList ++ (held₁ ++ held₂).filterMap Prod.snd) := by
  refine (List.perm_middle.filterMap _).trans (.of_eq ?_)
  cases pin <;> rfl

-- One of the scans, with its pin.
theorem Invariant.split (hi : Invariant views s) (h : s.scans = os₁ ++ o :: os₂) :
    ∃ (held₁ held₂ : List (OpenScan × Option Pin)) (pin : Option Pin), held₁.map Prod.fst = os₁ ∧ held₂.map Prod.fst = os₂ ∧
      (∀ x ∈ held₁ ++ held₂, Open views x.1 x.2) ∧ Open views o pin ∧
      s.pager.Shows (pin.toList ++ ((held₁ ++ held₂).filterMap Prod.snd ++ s.rest)) views := by
  obtain ⟨held, hh, ho, hs⟩ := hi
  obtain ⟨held₁, held', rfl, h₁, h'⟩ := List.map_eq_append_iff.mp <| hh.trans h
  obtain ⟨⟨_, pin⟩, held₂, rfl, rfl, h₂⟩ := List.map_eq_cons_iff.mp h'
  refine ⟨held₁, held₂, pin, h₁, h₂, fun x hx => ho x ?_, ho (_, pin) (by simp), hs.perm ?_⟩
  · obtain hx | hx := List.mem_append.mp hx
    · exact List.mem_append_left _ hx
    · exact List.mem_append_right _ <| List.mem_cons_of_mem _ hx
  · exact ((filterMap_middle.append_right _).trans (.of_eq <| List.append_assoc ..)).symm

theorem Invariant.join {held₁ held₂ : List (OpenScan × Option Pin)} (hs₁ : held₁.map Prod.fst = os₁)
    (hs₂ : held₂.map Prod.fst = os₂)
    (ho : ∀ x ∈ held₁ ++ held₂, Open views x.1 x.2) (hopen : Open views o pin) {t : Pager} {rest : List Pin}
    (hs : t.Shows (pin.toList ++ ((held₁ ++ held₂).filterMap Prod.snd ++ rest)) views) :
    Invariant views ⟨t, os₁ ++ o :: os₂, rest⟩ := by
  refine ⟨held₁ ++ (o, pin) :: held₂, by simp [hs₁, hs₂], fun x hx => ?_, hs.perm ?_⟩
  · obtain rfl | hx := List.perm_middle.mem_iff.mp hx |> List.mem_cons.mp
    · exact hopen
    · exact ho x hx
  · exact (filterMap_middle.append_right _).trans (.of_eq <| List.append_assoc ..)

section calls

variable {p q : Pager} {h : TableHeap} {id : PageID}

theorem room (hn : pins.length + 1 < 4294967296) : pinsOn pins id + 1 < 4294967296 :=
  Nat.lt_of_le_of_lt (Nat.succ_le_succ List.countP_le_length) hn

theorem Open.heap (ho : Open views o pin) :
    (∃ ps, Linked views o.heap.firstPageId ps) ∧ o.heap.firstPageId ≠ invalidPageID := by
  cases pin
  case none => exact ⟨ho.1, ho.2.1⟩
  case some =>
    obtain ⟨ps, _, hl, hp, -, -⟩ := ho
    exact ⟨⟨ps, hl⟩, hp⟩

theorem Open.new (hl : Linked views h.firstPageId ps) (hp : h.firstPageId ≠ invalidPageID)
    (hs : p.Shows pins views) (hn : pins.length + 1 < 4294967296) (hx : h.scan p = some (.ok x, q)) :
    ∃ pin, Open views ⟨h, x, []⟩ pin ∧ q.forgiven.Shows (pin.toList ++ pins) views := by
  obtain ⟨frame, t, hf, hx⟩ := Program.bind_ok hx
  obtain ⟨hr, rfl⟩ := Prod.mk.inj <| Option.some.inj hx
  obtain rfl := Except.ok.inj hr
  obtain ⟨v, hv⟩ := hl.view (hl.first_mem hp)
  have ⟨ht, _, _⟩ := hs.fetchPage_returns (by simp [hv]) (room hn) hf
  refine ⟨_, ?_, ht⟩
  cases frame
  case none   => exact ⟨⟨ps, hl⟩, hp, rfl⟩
  case some f => exact ⟨ps, _, hl, hp, ⟨rfl, rfl, hp, fun _ _ => Nat.zero_le _, ps, hl, rfl⟩, rfl⟩

theorem next_closed (h : o.scan.currentPage = none) : o.scan.next p = some (.ok (none, o.scan), p) := by
  obtain ⟨_, ⟨rid, _⟩, _⟩ := o
  subst h
  rw [TableHeap.Scan.next, Program.loop_eq]
  rfl

-- A scan that is refused its next page gives nothing.
theorem Open.next (ho : Open views o pin) (hs : p.Shows (pin.toList ++ pins) views) (hn : pins.length + 1 < 4294967296)
    (hx : o.scan.next p = some (.ok (row, x), q)) :
    (q.denied = true ∧ row = none) ∨
      (row = none → o.scan.currentPage ≠ none → ∀ rid bytes, o.heap.Live p rid bytes → (rid, bytes) ∈ o.returned) ∧
        (o.scan.currentPage = none → row = none) ∧
        ∃ pin', Open views { o with scan := x, returned := o.returned ++ row.toList } pin' ∧
          q.Shows (pin'.toList ++ pins) views := by
  cases pin
  case none     =>
    rw [next_closed ho.2.2] at hx
    obtain ⟨hr, rfl⟩ := Prod.mk.inj <| Option.some.inj hx
    obtain ⟨rfl, rfl⟩ := Prod.mk.inj <| Except.ok.inj hr
    exact .inr ⟨fun _ hc => absurd ho.2.2 hc, fun _ => rfl, none, ho, hs⟩
  case some pin =>
    obtain ⟨ps, tuples, hl, hp, hplaced, hret⟩ := ho
    obtain ⟨_, hr⟩ := hplaced.reading hs
    refine ((hr.next_ends fun _ _ => room hn).of_eq hx).imp (And.imp_right fun h => h _ rfl) ?_
    rintro ⟨_, _, he, hr, -⟩
    obtain ⟨rfl, rfl⟩ := Prod.mk.inj <| Except.ok.inj he
    obtain ⟨pin', hplaced', ht⟩ := hr.placed
    refine ⟨fun hnone _ rid bytes hlive => ?_, fun hc => ?_, some pin', ⟨ps, _, hl, hp, hplaced', ?_⟩, ht⟩
    · obtain rfl := List.head?_eq_none_iff.mp hnone
      rw [List.append_nil] at hret
      rw [hret]
      exact (mem_rows hs hl).mpr <| (hl.live_iff hs hp).mp hlive
    · cases hplaced.frame.symm.trans hc
    · cases tuples
      case nil  => simpa using hret
      case cons => simpa using hret

theorem Open.close (ho : Open views o pin) (hs : p.forgiven.Shows (pin.toList ++ pins) views)
    (hx : o.scan.close p = some (.ok (), q)) : q.forgiven.Shows pins views := by
  cases pin
  case none     =>
    rw [TableHeap.Scan.close, ho.2.2] at hx
    obtain ⟨-, rfl⟩ := Prod.mk.inj <| Option.some.inj hx
    exact hs
  case some pin =>
    obtain ⟨_, _, _, _, hplaced, _⟩ := ho
    rw [TableHeap.Scan.close, hplaced.frame] at hx
    obtain ⟨-, rfl⟩ := Prod.mk.inj <| Option.some.inj hx
    exact Pager.Shows.unpin hs

-- A page that is granted shows whether there is a tuple to return.
theorem getTuple_cases (hs : p.Shows pins views) (hv : views rid.pageId ≠ none) (hn : pins.length + 1 < 4294967296)
    (hx : h.getTuple rid p = some (.ok tuple, q)) : q.forgiven.Shows pins views ∧ ((q.denied = true ∧ tuple = none) ∨
      q.denied = false ∧ (tuple = none ↔ ((p.pool.bytesOf rid.pageId).slotted.hasSlot rid.slotNum →
        (p.pool.bytesOf rid.pageId).slotted.getTuple rid.slotNum = []))) := by
  have ⟨v, hview⟩ := Option.ne_none_iff_exists'.mp hv
  obtain ⟨hd, hr⟩ | ⟨he, ht⟩ := (TableHeap.getTuple_ends hs hview (room hn)).of_eq hx
  · have hnone := hr _ rfl
    refine ⟨?_, .inl ⟨hd, hnone⟩⟩
    exact (hs.fetchPage_returns hv (room hn) <| TableHeap.onPage_refused hs.denied hx hd).1
  · have hholds := hs.bytesOf hview
    obtain rfl := Except.ok.inj he
    refine ⟨ht.forgiven.symm ▸ ht, .inr ⟨ht.denied, ?_⟩⟩
    rw [hholds.getTuple_eq, hholds.hasSlot_iff]
    cases v.slots rid.slotNum <;> simp

end calls

theorem length_held {held : List (OpenScan × Option Pin)} (h : held.map Prod.fst = s.scans) :
    (held.filterMap Prod.snd ++ s.rest).length ≤ s.scans.length + s.rest.length := by
  rw [List.length_append, ←h, List.length_map]
  exact Nat.add_le_add_right (List.length_filterMap_le ..) _

theorem length_split {held₁ held₂ : List (OpenScan × Option Pin)} (hroom : s.Roomy)
    (h : s.scans = os₁ ++ o :: os₂) (h₁ : held₁.map Prod.fst = os₁) (h₂ : held₂.map Prod.fst = os₂) :
    ((held₁ ++ held₂).filterMap Prod.snd ++ s.rest).length + 1 + 1 < 4294967296 := by
  subst h₁ h₂
  have hle := List.length_filterMap_le Prod.snd (held₁ ++ held₂)
  simp only [Roomy, h, List.length_append, List.length_cons, List.length_map] at hroom hle ⊢
  omega

theorem length_pin (h : pins.length + 1 + 1 < 4294967296) : (pin.toList ++ pins).length + 1 < 4294967296 := by
  cases pin
  case none => exact Nat.lt_of_succ_lt h
  case some => exact h

namespace Invariant

theorem step (hi : Invariant views s) (h : CarefulStep views s c t) : Invariant views t := by
  obtain ⟨e, hc, hroom⟩ := h
  obtain ⟨held, hheld, ho, hs⟩ := id hi
  have hlen : (held.filterMap Prod.snd ++ s.rest).length + 1 < 4294967296 :=
    Nat.lt_of_le_of_lt (Nat.succ_le_succ <| length_held hheld) hroom
  cases e
  case getTuple hv hx       => exact ⟨held, hheld, ho, (getTuple_cases hs hv hlen hx).1⟩
  case scan hl hp hx        =>
    obtain ⟨pin, hopen, ht⟩ := Open.new hl hp hs hlen hx
    exact ⟨(_, pin) :: held, by simp [hheld], List.forall_mem_cons.mpr ⟨hopen, ho⟩, by cases pin <;> exact ht⟩
  case next hsplit hx       =>
    obtain ⟨held₁, held₂, pin, h₁, h₂, ho, hopen, hs⟩ := hi.split hsplit
    obtain ⟨hd, -⟩ | ⟨-, -, pin', hopen', ht⟩ := hopen.next hs (Nat.lt_of_succ_lt <| length_split hroom hsplit h₁ h₂) hx
    · simp [Careful, hd] at hc
    · exact join h₁ h₂ ho hopen' <| ht.forgiven.symm ▸ ht
  case reset hsplit hx hu   =>
    obtain ⟨held₁, held₂, pin, h₁, h₂, ho, hopen, hs⟩ := hi.split hsplit
    obtain ⟨⟨ps, hl⟩, hp⟩ := hopen.heap
    obtain ⟨pin', hopen', ht⟩ := Open.new hl hp hs (length_pin <| length_split hroom hsplit h₁ h₂) hx
    exact join h₁ h₂ ho hopen' <| hopen.close (ht.perm (List.perm_append_comm_assoc ..)) hu
  case close hsplit hx      =>
    obtain ⟨held₁, held₂, pin, h₁, h₂, ho, hopen, hs⟩ := hi.split hsplit
    have hf : s.pager.forgiven = s.pager := hs.forgiven
    exact ⟨held₁ ++ held₂, by simp [h₁, h₂], ho, hopen.close (hf.symm ▸ hs) hx⟩
  case newPage hx           =>
    have ht := hs.newPage_returns hc hx
    exact ⟨held, hheld, ho, ht.perm (List.perm_append_comm_assoc ..)⟩
  case fetchPage hv hx      =>
    have ⟨ht, _⟩ := hs.fetchPage_returns hv (room hlen) hx
    exact ⟨held, hheld, ho, ht.perm (List.perm_append_comm_assoc ..)⟩
  case unpinPage hsplit     =>
    refine ⟨held, hheld, ho, ?_⟩
    rw [hsplit, ←List.append_assoc] at hs
    rw [←List.append_assoc]
    exact hs.unpinMid

theorem honest_getTuple (hi : Invariant views s) (hroom : s.Roomy) (e : s.Step views (.getTuple rid granted tuple) t) :
    s.Honest (.getTuple rid granted tuple) ↔ s.Granted (.getTuple rid granted tuple) := by
  obtain ⟨held, hheld, ho, hs⟩ := hi
  have hlen := Nat.lt_of_le_of_lt (Nat.succ_le_succ <| length_held hheld) hroom
  cases e with | getTuple hv hx =>
  obtain ⟨-, ⟨hd, rfl⟩ | ⟨hd, hn⟩⟩ := getTuple_cases hs hv hlen hx
  · simp [Honest, Granted, hd]
  · cases tuple
    case none   =>
      have hn := hn.mp rfl
      simp only [Honest, Granted, hd, Bool.not_false, true_and, Bool.eq_false_iff]
      exact ⟨fun h hh => absurd hh h, fun h hh => h hh (hn hh)⟩
    case some b =>
      have hn := hn.not.mp (by simp)
      simp only [Honest, Granted, hd, Bool.not_false, true_and, true_iff]
      exact fun _ he => hn fun _ => he

theorem honest_next (hi : Invariant views s) (hroom : s.Roomy) (e : s.Step views (.next o granted row) t) :
    s.Honest (.next o granted row) ↔ s.Granted (.next o granted row) := by
  cases e with | next hsplit hx =>
  obtain ⟨held₁, held₂, pin, h₁, h₂, -, hopen, hs⟩ := hi.split hsplit
  have hn := Nat.lt_of_succ_lt <| length_split hroom hsplit h₁ h₂
  obtain ⟨hd, rfl⟩ | ⟨hlast, hfirst, _, -, ht⟩ := hopen.next hs hn hx
  · simp [Honest, Granted, hd]
  · have hd := ht.denied
    by_cases hc : o.scan.currentPage = none
    · simp [Honest, Granted, hc, hfirst hc]
    · refine iff_of_true ?_ fun _ => ⟨by simp [hd], hc⟩
      cases row
      case none => exact hlast rfl hc
      case some => trivial

-- What is not returned is not there exactly if no page was missing.
theorem honest_iff (hi : Invariant views s) (hroom : s.Roomy) (e : s.Step views c t) : s.Honest c ↔ s.Granted c := by
  cases c
  case getTuple => exact hi.honest_getTuple hroom e
  case next     => exact hi.honest_next hroom e
  all_goals exact .rfl

end Invariant

theorem CarefulStep.reads_honestly (hr : Runs.Reachable (Initial views) (CarefulStep views) s) (hroom : s.Roomy)
    (e : s.Step views c t) : s.Honest c ↔ s.Granted c :=
  Invariant.honest_iff (hr.invariant .init fun e hi => hi.step e) hroom e

-- A page with a tuple, in a file without others.
def tuplePage : PageData :=
  (TableHeap.blank.slotted.insertTuple [7] none).2.stored

def tupleDisk : DiskManager where
  file     := {
    bytes a  := if a < 8192 then 0 else tuplePage.bytes (a - 8192)
    size     := 16384
    past a h := by
      rw [if_neg (by omega)]
      exact tuplePage.past _ (by rw [kPageSize_eq]; omega)
    failing  := false }
  capacity := 2
  freeList := []
  magic    := kDBMagic
  version  := kDBFormatVersion

def tupleViews : Views :=
  Function.update (fun _ => none) 1 (some (PageView.empty.bind 0 [7]))

theorem stored_tuplePage : tupleDisk.stored 1 = tuplePage := by
  refine PageData.ofMemory_eq fun a _ => ?_
  have ha : (1 : PageID).toNat * kPageSize + a = 8192 + a := rfl
  rw [ha]
  refine (if_neg (by omega)).trans ?_
  rw [Nat.add_sub_cancel_left]

theorem tupleViews_shown : tupleViews.Shown 1 (tupleDisk.stored 1) := by
  intro v hv
  rw [tupleViews, Function.update_self] at hv
  obtain rfl := Option.some.inj hv
  have hi : TableHeap.blank.slotted.insertTuple [7] none = (some ⟨invalidPageID, 0⟩, _) := rfl
  have hp := (TableHeap.blank_holds.insertTuple (by decide) hi).2.2
  rwa [stored_tuplePage, tuplePage, hi, hp.stored_slotted]

def unread (n : ℕ) : Readers :=
  ⟨⟨.create tupleDisk n, false⟩, [], []⟩

theorem init_unread : Initial tupleViews (unread n) := by
  have hw : tupleDisk.WellFormed := ⟨by decide, nofun, nofun, .nil, Nat.zero_le _⟩
  have hu : tupleDisk.InUse 1 := ⟨by decide, by decide, nofun⟩
  refine ⟨rfl, [1], ⟨⟨PoolManager.create_wellFormed, hw, fun hp => List.mem_singleton.mp hp ▸ hu, nofun, nofun, nofun⟩,
    rfl, fun hp hv => ?_⟩, fun p v hv => ?_⟩
  · obtain rfl := List.mem_singleton.mp hp
    cases hv
    case cached h => cases h
    case stored   => exact tupleViews_shown
  · by_contra hp
    rw [tupleViews, Function.update_of_ne (by simpa using hp)] at hv
    cases hv

-- Another client takes the only frame, and the tuple is not there any more.
theorem not_reads_honestly :
    ¬∀ {views s c t}, Runs.Reachable (Initial views) (Step views) s → s.Step views c t → s.Honest c := by
  intro h
  have e : (unread 1).Step tupleViews .newPage _ := .newPage (show Pager.newPage _ = some (.ok (some 0), _) from rfl)
  obtain ⟨held, -, -, hs⟩ := (Invariant.init init_unread).step ⟨e, fun _ => by decide, by simp [Roomy, unread]⟩
  have hv : tupleViews (RID.mk 1 0).pageId ≠ none := by simp [tupleViews]
  have hx {q t} (hf : Pager.fetchPage 1 q = some (.ok none, t)) : TableHeap.getTuple ⟨1⟩ ⟨1, 0⟩ q = some (.ok none, t) := by
    rw [TableHeap.getTuple, TableHeap.onPage, Program.bind_eq hf]
    rfl
  have hdead := h ((Runs.Reachable.start init_unread).next e) (.getTuple hv <| hx rfl)
  exact Bool.false_ne_true <| hdead.symm.trans <| (hs.bytesOf (Function.update_self ..)).hasSlot_iff.mpr (by simp)

-- A heap of one tuple, which a scan reads to its end. Another client is refused a page meanwhile.
theorem scanned : ∃ p₁ p₂ p₃ p₄ p₅ x p₆, TableHeap.create ⟨.create (.fresh .empty) 1, false⟩ = some (.ok ⟨1⟩, p₁) ∧
    TableHeap.insertTuple ⟨1⟩ [7] p₁ = some (.ok (some ⟨1, 0⟩), p₂) ∧
    TableHeap.scan ⟨1⟩ p₂ = some (.ok ⟨⟨1, 0⟩, some 0⟩, p₃) ∧
    Pager.newPage p₃.forgiven = some (.ok none, p₄) ∧
    TableHeap.Scan.next ⟨⟨1, 0⟩, some 0⟩ p₄.forgiven = some (.ok (some (⟨1, 0⟩, [7]), ⟨⟨1, 1⟩, some 0⟩), p₅) ∧
    TableHeap.Scan.next ⟨⟨1, 1⟩, some 0⟩ p₅.forgiven = some (.ok (none, x), p₆) ∧
    p₁.denied = false ∧ p₂.denied = false ∧ p₃.forgiven.pool.disk.capacity < invalidPageID ∧ p₅.denied = false ∧
    p₆.denied = false := by
  iterate 7 apply Exists.intro
  refine ⟨rfl, ?_, ?_, ?_, ?_, ?_, ?_⟩
  · rw [TableHeap.insertTuple, if_neg (by decide), TableHeap.insertFrom_eq]
    rfl
  · rfl
  · rfl
  · rw [TableHeap.Scan.next_eq]
    rfl
  · rw [TableHeap.Scan.next_eq]
    rfl
  · exact ⟨rfl, rfl, by decide, rfl, rfl⟩

-- The tuple is read by a scan to its end.
theorem reads_honestly_scanned : ∃ views s o, Runs.Reachable (Initial views) (CarefulStep views) s ∧
    o.returned = [(⟨1, 0⟩, [7])] ∧ s.Honest (.next o true none) := by
  obtain ⟨p₁, p₂, p₃, p₄, p₅, x, p₆, e₁, e₂, e₃, e₄, e₅, e₆, d₁, d₂, hi, d₅, d₆⟩ := scanned
  have hm₁ : TableHeap.Abstracts ⟨1⟩ [] p₁ .empty := by
    obtain hd | ⟨_, hr, hm⟩ := (TableHeap.create_abstracts (.create DiskManager.fresh_wellFormed) rfl).of_eq e₁
    · cases d₁.symm.trans hd
    · exact Except.ok.inj hr ▸ hm
  have hb : [(7 : UInt8)] ≠ [] ∧ [(7 : UInt8)].length ≤ kPageSize - 8 - 4 := by decide
  have h₂ : TableHeap.Step ⟨1⟩ p₁ (.insert [7], .rid (some ⟨1, 0⟩)) p₂ :=
    ⟨hb, by rw [HeapOp.run, Program.map_apply, e₂]; rfl, d₂⟩
  obtain ⟨_, _, views, ps, hs, hm⟩ := hm₁.step h₂
  have r : Runs.Reachable (Initial views) (CarefulStep views) ⟨p₂, [], []⟩ := .start ⟨rfl, hs⟩
  have r := r.next ⟨.scan hm.linked hm.valid e₃, trivial, by simp [Roomy]⟩
  have r := r.next ⟨.newPage e₄, fun _ => hi, by simp [Roomy]⟩
  have r := r.next ⟨.next (List.nil_append _).symm e₅, by rw [d₅]; rfl, by simp [Roomy]⟩
  have e : Step views ⟨p₅.forgiven, [⟨⟨1⟩, ⟨⟨1, 1⟩, some 0⟩, [(⟨1, 0⟩, [7])]⟩], []⟩ (.next _ (!p₆.denied) none) _ :=
    .next (List.nil_append _).symm e₆
  rw [d₆] at e
  exact ⟨views, _, _, r, rfl, (CarefulStep.reads_honestly r (by simp [Roomy]) e).mpr fun _ => ⟨rfl, Option.some_ne_none 0⟩⟩

end Readers
end Duck
