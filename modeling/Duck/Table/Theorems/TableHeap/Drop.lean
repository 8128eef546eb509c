import Duck.Buffer.Theorems.PoolManager.Reclaim
import Duck.Table.Table
import Duck.Table.Theorems.TableHeap.Growth

namespace Duck

open PoolManager Pager

-- The chain `ps` has been dropped: the pages that others have pinned are counted and stay as they are, and every
-- other one has left the pool. These go on the free list, from where they are handed out again, as long as the list
-- has room for them.
structure Dropped (s : Pager) (pins : List Pin) (ps : List PageID) (failed : ℕ) (t : Pager) : Prop where
  count    : failed = ps.countP fun p => pinsOn pins p ≠ 0
  pinned   : ∀ p ∈ ps, pinsOn pins p ≠ 0 → t.pool.disk.InUse p
  held     : ∀ pin ∈ pins, t.pool.pageTable pin.pageId = some pin.frameId ∧
    t.pool.frames pin.frameId = s.pool.frames pin.frameId
  gone     : ∀ p ∈ ps, pinsOn pins p = 0 → t.pool.pageTable p = none
  freed    : ∀ p ∈ ps, pinsOn pins p = 0 → ∀ f, s.pool.pageTable p = some f → f ∈ t.pool.freeFrames
  freeList : t.pool.disk.freeList = s.pool.disk.freeList ++
    (ps.filter fun p => pinsOn pins p = 0).take (1025 - s.pool.disk.freeList.length)
  once     : t.pool.disk.freeList.Nodup
  reused   : t.pool.disk.allocatePages t.pool.disk.freeList.length = t.pool.disk.freeList.reverse

variable {s t u : Pager} {owned : List PageID} {pins : List Pin} {views : Views} {p : PageID} {ps acc : List PageID}
variable {S : PageID → PageData → Prop} {h : TableHeap} {n : ℕ}

namespace TableHeap

-- The walk of `all_pages` finds the chain, unless it is not given a page, which is not in the pool then.
theorem collectPages_ends (hk : s.Keeps owned pins views.Shown) (ho : ∀ p v, views p = some v → p ∈ owned)
    (hl : Linked views p ps) (hp : p ≠ invalidPageID) : (collectPages p acc).Ends s fun result t =>
      (t.denied = true ∧ (∃ q ∈ ps, s.pool.pageTable q = none) ∧ ∀ x, result = .ok x → x.2 = .failed) ∨
        result = .ok (acc ++ ps, .success) ∧ t.Keeps owned pins views.Shown ∧ s.pool.Looked ps t.pool := by
  induction hl generalizing s acc
  case nil => exact absurd rfl hp
  case cons p v ps hv hi hn hl ih =>
    rw [collectPages, Program.loop_eq]
    refine .bind (R := fun result t => (t.denied = true ∧ s.pool.pageTable p = none ∧
        ∀ x, result = .ok x → ∃ y, x = .inr y ∧ y.2 = .failed) ∨
      result = .ok (if v.nextPage = invalidPageID then .inr (acc ++ [p], .success) else .inl (v.nextPage, acc ++ [p])) ∧
        t.Keeps owned pins views.Shown ∧ s.pool.Looked [p] t.pool ∧
        (s.pool.pageTable p ≠ none → t.pool.pageTable = s.pool.pageTable)) ?_ ?_ ?_
    · refine hk.look (ho _ _ hv) (fun {f t} hd ht hlook hsame => ?_) (fun hd hc => ?_) (fun hd hc => ?_)
      · refine .bind (R := fun result u => result = .ok v.nextPage ∧ u = unpin f false t) ?_ ?_ ?_
        · refine pinned_ends (R := fun result u => result = .ok (v.nextPage, false) ∧ u = t) ?_ ?_ ?_
          · exact ends_slotted <| .pure ⟨by rw [(hd v hv).nextPage_eq], rfl⟩
          · rintro a dirty u ⟨hr, rfl⟩
            obtain ⟨rfl, rfl⟩ := Prod.mk.inj <| Except.ok.inj hr
            exact ⟨rfl, rfl⟩
          · exact fun h => absurd h.1 Except.error_ne_ok
        · rintro a u ⟨hr, rfl⟩
          obtain rfl := Except.ok.inj hr
          by_cases hx : v.nextPage = invalidPageID
          case pos =>
            simp only [hx, if_true]
            exact .pure <| .inr ⟨rfl, ht, hlook, hsame⟩
          case neg =>
            simp only [hx, if_false]
            exact .pure <| .inr ⟨rfl, ht, hlook, hsame⟩
        · exact fun h => absurd h.1 Except.error_ne_ok
      · refine .pure <| .inl ⟨hd, hc, ?_⟩
        rintro _ ⟨rfl⟩
        exact ⟨_, rfl, rfl⟩
      · exact .inl ⟨hd, hc, fun _ h => absurd h Except.error_ne_ok⟩
    · rintro (next | x) t (⟨hd, hc, hx⟩ | ⟨hr, ht, hlook, hsame⟩)
      · obtain ⟨_, hx, -⟩ := hx _ rfl
        cases hx
      · split at hr
        case isTrue  => cases hr
        case isFalse hx =>
          obtain rfl := Sum.inl.inj <| Except.ok.inj hr
          refine Program.Ends.mono (ih ht hx) ?_
          rintro result u (⟨hd, ⟨q, hq, hc⟩, hx⟩ | ⟨hr, hu, hlook'⟩)
          · refine .inl ⟨hd, ?_, hx⟩
            by_cases hp : s.pool.pageTable p = none
            case pos => exact ⟨p, List.mem_cons_self, hp⟩
            case neg => exact ⟨q, List.mem_cons_of_mem _ hq, hsame hp ▸ hc⟩
          · rw [List.append_assoc] at hr
            refine .inr ⟨hr, hu, (hlook.mono ?_).trans (hlook'.mono (List.subset_cons_self ..))⟩
            simp
      · obtain ⟨y, hy, hf⟩ := hx _ rfl
        obtain rfl := Sum.inr.inj hy
        exact .pure <| .inl ⟨hd, ⟨p, List.mem_cons_self, hc⟩, fun _ h => Except.ok.inj h ▸ hf⟩
      · split at hr
        case isFalse => cases hr
        case isTrue hx =>
          obtain rfl := Sum.inr.inj <| Except.ok.inj hr
          rw [hx] at hl
          obtain rfl := hl.nil_of_invalid
          exact .pure <| .inr ⟨rfl, ht, hlook⟩
    · rintro e t (⟨hd, hc, -⟩ | ⟨hr, -⟩)
      · exact .inl ⟨hd, ⟨p, List.mem_cons_self, hc⟩, fun _ h => absurd h Except.error_ne_ok⟩
      · cases hr

-- A page is dropped, unless someone has pinned it.
theorem dropPage_ends (hk : s.Keeps owned pins S) (hp : p ∈ owned) : (h.dropPage p).Ends s fun result t =>
    (result = .ok false ∧ t = s ∧ pinsOn pins p ≠ 0) ∨
      result = .ok true ∧ pinsOn pins p = 0 ∧ t.Keeps (owned.filter (· ≠ p)) pins S ∧ s.pool.Deleted p t.pool ∧
        t.pool.disk.freeList = s.pool.disk.freeList ++ [p].take (1025 - s.pool.disk.freeList.length) := by
  have ha := hk.accounts
  refine (hk.deletePage hp).self.mono ?_
  rintro result t ⟨hx, ⟨rfl, rfl, pin, hm, rfl⟩ | ⟨rfl, ht⟩⟩
  · exact .inl ⟨rfl, rfl, fun hz => pinsOn_eq_zero.mp hz pin hm rfl⟩
  · obtain ⟨hr, rfl⟩ := Prod.mk.inj <| Option.some.inj hx
    obtain ⟨hf, -⟩ | ⟨m', hd, hdel⟩ := WellFormed.deletePage ha.disk (ha.inUse hp)
    · cases (congrArg Prod.fst hf).symm.trans hr
    · simp only [hd]
      refine .inr ⟨trivial, ?_, by simpa only [hd] using ht, hdel, deletePage_freeList hd⟩
      refine ha.no_pins fun hf => ?_
      cases hdel
      case uncached hn _   => cases hn.symm.trans hf
      case cached hc hz _ => rwa [←Option.some.inj <| hc.symm.trans hf]

-- The loop of `drop_pages`.
theorem dropAll_ends (hk : s.Keeps owned pins S) (hn : ps.Nodup) (ho : ∀ p ∈ ps, p ∈ owned) :
    (ps.foldlM (fun failed p => do return if ← h.dropPage p then failed else failed + 1) n : PagerM ℕ).Ends s fun result t =>
      result = .ok (n + ps.countP fun p => pinsOn pins p ≠ 0) ∧ s.pool.Reclaimed pins ps t.pool ∧
        ∃ owned', t.Keeps owned' pins S ∧ ∀ p ∈ owned, (p ∈ ps → pinsOn pins p ≠ 0) → p ∈ owned' := by
  induction ps generalizing s owned n
  case nil => exact .pure ⟨rfl, .nil, owned, hk, fun _ hp _ => hp⟩
  case cons p ps ih =>
    obtain ⟨hp, hn⟩ := List.nodup_cons.mp hn
    rw [List.foldlM_cons]
    refine .bind (R := fun result t => result = .ok (if pinsOn pins p ≠ 0 then n + 1 else n) ∧
      ((pinsOn pins p ≠ 0 ∧ t = s) ∨ pinsOn pins p = 0 ∧ t.Keeps (owned.filter (· ≠ p)) pins S ∧
        s.pool.Deleted p t.pool ∧
        t.pool.disk.freeList = s.pool.disk.freeList ++ [p].take (1025 - s.pool.disk.freeList.length))) ?_ ?_
      (fun h => absurd h.1 Except.error_ne_ok)
    · refine (dropPage_ends hk (ho p List.mem_cons_self)).bind ?_ ?_
      · rintro a t (⟨hr, rfl, hz⟩ | ⟨hr, hz, hx⟩)
        · obtain rfl := Except.ok.inj hr
          exact .pure ⟨by simp [hz], .inl ⟨hz, rfl⟩⟩
        · obtain rfl := Except.ok.inj hr
          exact .pure ⟨by simp [hz], .inr ⟨hz, hx⟩⟩
      · rintro e t (⟨hr, -⟩ | ⟨hr, -⟩)
        · cases hr
        · cases hr
    · rintro a t ⟨hr, ⟨hz, rfl⟩ | ⟨hz, ht, hd, hl⟩⟩
      · rw [if_pos hz] at hr
        obtain rfl := Except.ok.inj hr
        refine (ih hk hn fun q hq => ho q <| List.mem_cons_of_mem _ hq).mono ?_
        rintro result u ⟨rfl, hx, owned', hu, ho'⟩
        refine ⟨?_, hx.kept hz, owned', hu, fun q hq hps => ho' q hq fun hm => hps <| List.mem_cons_of_mem _ hm⟩
        simp [hz, Nat.add_assoc, Nat.add_comm 1]
      · rw [if_neg (not_not.mpr hz)] at hr
        obtain rfl := Except.ok.inj hr
        refine (ih ht hn fun q hq => ?_).mono ?_
        · refine List.mem_filter.mpr ⟨ho q <| List.mem_cons_of_mem _ hq, decide_eq_true ?_⟩
          rintro rfl
          exact hp hq
        · rintro result u ⟨rfl, hx, owned', hu, ho'⟩
          refine ⟨?_, hx.deleted hd hz hp hl, owned', hu, fun q hq hps => ho' q ?_ fun hm => ?_⟩
          · simp [hz]
          · refine List.mem_filter.mpr ⟨hq, decide_eq_true ?_⟩
            rintro rfl
            exact hps List.mem_cons_self hz
          · exact hps <| List.mem_cons_of_mem _ hm

end TableHeap

theorem Pager.Keeps.held_unchanged (hk : s.Keeps owned pins S) (hu : u.Keeps owned' pins S)
    (hl : s.pool.Looked ps t.pool) (hr : t.pool.Reclaimed pins ps u.pool) (hp : pin ∈ pins) :
    u.pool.pageTable pin.pageId = some pin.frameId ∧ u.pool.frames pin.frameId = s.pool.frames pin.frameId := by
  have hz := hk.accounts.pinned hp
  have hf := hl.frames hz
  exact ⟨hu.accounts.held hp, (hr.frames <| hf.symm ▸ hz).trans hf⟩

-- The frame of a page that nobody has pinned has been given to no page that someone has pinned.
theorem Pager.Keeps.freed (hk : s.Keeps owned pins S) (ht : t.Keeps owned pins S) (hl : s.pool.Looked ps t.pool)
    (hr : t.pool.Reclaimed pins ps u.pool) (hp : p ∈ ps) (hz : pinsOn pins p = 0) (hf : s.pool.pageTable p = some f) :
    f ∈ u.pool.freeFrames := by
  obtain ⟨q, hq, hg⟩ : ∃ q ∈ ps, t.pool.pageTable q = some f :=
    (hl.table hf).elim (fun hg => ⟨p, hp, hg⟩) id
  by_cases hn : pinsOn pins q = 0
  case pos => exact hr.freed hq hn hg
  case neg =>
    obtain ⟨pin, hm, rfl⟩ : ∃ pin ∈ pins, pin.pageId = q := by
      by_contra hx
      exact hn <| pinsOn_eq_zero.mpr fun pin hm he => hx ⟨pin, hm, he⟩
    obtain rfl := Option.some.inj <| (ht.accounts.held hm).symm.trans hg
    obtain rfl := hk.accounts.pool.table_inj hf (hk.accounts.held hm)
    exact absurd hz hn

namespace Table

variable {t : Table}

theorem dropPages_ends (hk : s.Keeps owned pins views.Shown) (ho : ∀ p v, views p = some v → p ∈ owned)
    (hl : Linked views t.heap.firstPageId ps) (hp : t.heap.firstPageId ≠ invalidPageID) :
    t.dropPages.Ends s fun result u =>
      ((∃ q ∈ ps, s.pool.pageTable q = none) ∧ ∀ x, result = .ok x → x.2 = .readPagesFailed) ∨
        ∃ failed, result = .ok (failed, .success) ∧ Dropped s pins ps failed u := by
  refine (TableHeap.collectPages_ends hk ho hl hp).bind ?_ ?_
  · rintro ⟨pages, status⟩ u (⟨-, hc, hx⟩ | ⟨hr, hu, hlook⟩)
    · obtain rfl : status = .failed := hx _ rfl
      refine .pure <| .inl ⟨hc, ?_⟩
      rintro _ ⟨rfl⟩
      rfl
    · obtain ⟨hpages, rfl⟩ := Prod.mk.inj <| Except.ok.inj hr
      obtain rfl := hpages.symm
      have hmem {q} (hq : q ∈ ps) : q ∈ owned := by
        obtain ⟨v, hv⟩ := hl.view hq
        exact ho q v hv
      refine (TableHeap.dropAll_ends hu hl.nodup fun q hq => hmem hq).bind ?_
        fun h => absurd h.1 Except.error_ne_ok
      rintro n w ⟨hn, hrec, owned', hw, ho'⟩
      obtain rfl := Except.ok.inj hn
      refine .pure <| .inr ⟨_, rfl, ?_⟩
      constructor
      case count    => exact Nat.zero_add _
      case pinned   => exact fun q hq hz => hw.accounts.inUse <| ho' q (hmem hq) fun _ => hz
      case held     => exact fun pin hm => hk.held_unchanged hw hlook hrec hm
      case gone     => exact fun q hq hz => hrec.gone hq hz
      case freed    => exact fun q hq hz f hf => hk.freed hu hlook hrec hq hz hf
      case freeList => rw [hrec.freeList, hlook.freeList]
      case once     => exact hw.accounts.disk.free_nodup
      case reused   => exact DiskManager.allocatePages_freeList rfl
  · rintro e u (⟨-, hc, -⟩ | ⟨hr, -⟩)
    · exact .inl ⟨hc, fun _ h => absurd h Except.error_ne_ok⟩
    · cases hr

theorem dropPages_accounts (hs : s.Shows pins views) (hl : Linked views t.heap.firstPageId ps)
    (hp : t.heap.firstPageId ≠ invalidPageID) (hr : t.dropPages s = some (.ok (failed, .success), u)) :
    Dropped s pins ps failed u := by
  obtain ⟨owned, hk, ho⟩ := hs
  obtain ⟨-, hx⟩ | ⟨_, hf, hd⟩ := (dropPages_ends hk ho hl hp).of_eq hr
  · cases hx _ rfl
  · cases hf
    exact hd

-- A heap of one page, and a free list that is full.
def crammed : Pager :=
  { TableHeap.fresh with pool := { TableHeap.fresh.pool with disk := { TableHeap.fresh.pool.disk with
    capacity := 1027
    freeList := (List.range 1025).map fun i => .ofNat (i + 2) } } }

theorem crammed_free : p ∈ crammed.pool.disk.freeList ↔ 2 ≤ p.toNat ∧ p.toNat < 1027 := by
  simp only [crammed, List.mem_map, List.mem_range]
  constructor
  · rintro ⟨i, hi, rfl⟩
    rw [UInt32.toNat_ofNat', Nat.mod_eq_of_lt (by omega)]
    omega
  · rintro ⟨h₁, h₂⟩
    refine ⟨p.toNat - 2, by omega, UInt32.toNat_inj.mp ?_⟩
    rw [UInt32.toNat_ofNat', Nat.mod_eq_of_lt (by omega)]
    omega

theorem crammed_disk : crammed.pool.disk.WellFormed where
  pos        := by decide
  free_lt h  := UInt32.lt_iff_toNat_lt.mpr (crammed_free.mp h).2
  free_ne h  := by
    rintro rfl
    exact absurd (crammed_free.mp h).1 (by decide)
  free_nodup := by
    simp only [crammed]
    refine List.Nodup.map_on (fun i hi j hj h => ?_) List.nodup_range
    have h := congrArg UInt32.toNat h
    have hi := List.mem_range.mp hi
    have hj := List.mem_range.mp hj
    rw [UInt32.toNat_ofNat', UInt32.toNat_ofNat', Nat.mod_eq_of_lt (by omega), Nat.mod_eq_of_lt (by omega)] at h
    omega
  free_le    := by simp [crammed]

theorem crammed_shows : crammed.Shows [] (Function.update (fun _ => none) 1 (some .empty)) := by
  obtain ⟨owned, hk, ho⟩ := TableHeap.fresh_shows
  have hc : TableHeap.fresh.pool.disk.capacity = 2 := by decide
  refine ⟨owned, ⟨hk.accounts.setDisk crammed_disk ?_ fun {p} hu => ?_, hk.granted, fun {p d} hq hv => hk.versions hq ?_⟩, ho⟩
  · rw [hc]
    decide
  · have hlt := UInt32.lt_iff_toNat_lt.mp <| hc ▸ hu.lt
    have hlt : p.toNat < 2 := hlt
    refine ⟨UInt32.lt_iff_toNat_lt.mpr <| hlt.trans (by decide), hu.ne, fun hm => ?_⟩
    have := (crammed_free.mp hm).1
    omega
  · have hf : crammed.pool.disk.file = TableHeap.fresh.pool.disk.file := rfl
    exact version_setDisk (DiskManager.stored_of_file hf) hv

theorem crammed_linked : Linked (Function.update (fun _ => none) 1 (some .empty)) 1 [1] :=
  .cons (Function.update_self ..) (by decide) List.not_mem_nil .nil

-- The page is in the pool, so that it is granted.
theorem crammed_drops : ∃ failed u, dropPages ⟨⟨1⟩, ⟨[]⟩⟩ crammed = some (.ok (failed, .success), u) := by
  obtain ⟨owned, hk, ho⟩ := crammed_shows
  obtain ⟨result, u, hr, ⟨⟨q, hq, hn⟩, -⟩ | ⟨failed, rfl, -⟩⟩ :=
    dropPages_ends (t := ⟨⟨1⟩, ⟨[]⟩⟩) hk ho crammed_linked (show (1 : PageID) ≠ invalidPageID by decide)
  · rw [List.mem_singleton.mp hq] at hn
    exact absurd hn (by decide)
  · exact ⟨failed, u, hr⟩

theorem dropPages_accounts_crammed : ∃ failed u, Dropped crammed [] [1] failed u := by
  obtain ⟨failed, u, hr⟩ := crammed_drops
  exact ⟨failed, u, dropPages_accounts crammed_shows crammed_linked (show (1 : PageID) ≠ invalidPageID by decide) hr⟩

-- Nobody has pinned the page, and no page is counted, but the page is not on the free list.
theorem not_dropPages_accounts :
    ¬∀ (t : Table) s pins views ps failed u, Pager.Shows s pins views → Linked views t.heap.firstPageId ps →
      t.heap.firstPageId ≠ invalidPageID → t.dropPages s = some (.ok (failed, .success), u) →
        (ps.filter fun p => p ∉ u.pool.disk.freeList).length = failed := by
  intro hall
  have hv : (1 : PageID) ≠ invalidPageID := by decide
  obtain ⟨failed, u, hr⟩ := crammed_drops
  obtain ⟨owned, hk, ho⟩ := crammed_shows
  have hcount := hall _ _ _ _ _ _ _ crammed_shows crammed_linked hv hr
  obtain ⟨-, hx⟩ | ⟨_, hf, hd⟩ := (dropPages_ends (t := ⟨⟨1⟩, ⟨[]⟩⟩) hk ho crammed_linked hv).of_eq hr
  · cases hx _ rfl
  · obtain ⟨rfl, -⟩ := Prod.mk.inj <| Except.ok.inj hf
    have hfree : u.pool.disk.freeList = crammed.pool.disk.freeList := by
      rw [hd.freeList]
      simp [crammed]
    have hn : (1 : PageID) ∉ u.pool.disk.freeList := by
      rw [hfree, crammed_free]
      decide
    rw [hd.count] at hcount
    simp [hn, pinsOn] at hcount

end Table
end Duck
