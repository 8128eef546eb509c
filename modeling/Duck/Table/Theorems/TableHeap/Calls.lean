import Duck.Buffer.Theorems.Pager
import Duck.Table.TableHeap
import Duck.Table.Theorems.SlottedPage.Holds

namespace Duck

-- A page that stands in the table, and has no tuple.
def Pager.Blank (s : Pager) (p : PageID) : Prop :=
  ∃ f v, s.pool.pageTable p = some f ∧ (s.pool.frames f).data.slotted.Holds v ∧ v.slotCount = 0

namespace TableHeap

open PoolManager Pager

variable {s t : Pager} {owned : List PageID} {pins : List Pin} {pin : Pin} {p : PageID} {f : FrameID}
variable {S : PageID → PageData → Prop} {bytes : List UInt8}

-- A page without tuples.
def blank : PageData :=
  PageData.zero.slotted.init.stored

section rules

variable {Q : Except String β → Pager → Prop}

theorem ends_slotted {k : SlottedPage → PagerM β} (h : (k (s.pool.frames f).data.slotted).Ends s Q) :
    (slotted f >>= k).Ends s Q :=
  h

theorem ends_pageId {k : PageID → PagerM β} (h : (k (s.pool.frames f).pageId).Ends s Q) :
    (Pager.pageId f >>= k).Ends s Q :=
  h

theorem ends_put {k : Unit → PagerM β} (h : (k ()).Ends (write f page.stored s) Q) :
    (put f page >>= k).Ends s Q :=
  h

-- A caller who is let down by `fetch_page` gets no page.
theorem ends_fetchPage {k : Option FrameID → PagerM β} (hk : s.Keeps owned pins S) (hp : p ∈ owned)
    (hn : pinsOn pins p + 1 < 4294967296)
    (hsome : ∀ {f t}, t.Keeps owned (⟨p, f, false⟩ :: pins) S → (t.pool.frames f).isDirty = s.isDirty p →
      (k (some f)).Ends t Q)
    (hnone : ∀ {t}, t.denied = true → (k none).Ends t Q)
    (herr : ∀ {e t}, t.denied = true → Q (.error e) t) : (fetchPage p >>= k).Ends s Q := by
  refine (hk.fetchPage hp hn).bind ?_ ?_
  · rintro (_ | f) t (⟨hd, hf⟩ | ⟨g, hg, ht, hc⟩)
    · exact hnone hd
    · cases hg
    · exact absurd rfl (hf f)
    · obtain rfl := Option.some.inj <| Except.ok.inj hg
      exact hsome ht hc
  · rintro e t (⟨hd, _⟩ | ⟨_, hg, _⟩)
    · exact herr hd
    · cases hg

-- A page whose caller has been let down may still stand in the table, without a valid id.
theorem ends_newPage {k : Option FrameID → PagerM β} (hk : s.Keeps owned pins S)
    (hsome : ∀ {f p t}, p ∉ owned → p ≠ invalidPageID →
      t.Keeps (p :: owned) (⟨p, f, true⟩ :: pins) (Function.update S p fun _ => True) →
      (t.pool.frames f).data = .zero → (∀ g, g ≠ f → t.pool.frames g = s.pool.frames g) → (k (some f)).Ends t Q)
    (hbad : ∀ {f t}, t.denied = true → t.pool.pageTable (t.pool.frames f).pageId = some f →
      (∀ g, g ≠ f → t.pool.frames g = s.pool.frames g) → (k (some f)).Ends t Q)
    (hnone : ∀ {t}, t.denied = true → (k none).Ends t Q)
    (herr : ∀ {e t}, t.denied = true → Q (.error e) t) : (newPage >>= k).Ends s Q := by
  refine hk.newPage.bind ?_ ?_
  · rintro (_ | f) t (⟨hd, hf⟩ | ⟨g, q, hg, hq, hi, ht, hz, hf⟩)
    · exact hnone hd
    · cases hg
    · exact hbad hd (hf f rfl).1 (hf f rfl).2
    · obtain rfl := Option.some.inj <| Except.ok.inj hg
      exact hsome hq hi ht hz hf
  · rintro e t (⟨hd, _⟩ | ⟨_, _, hg, _⟩)
    · exact herr hd
    · cases hg

end rules

section onPage

variable {body : PageID → SlottedPage → α × SlottedPage × Bool}

-- A call on one page finds a version of it, and leaves what it has made of that.
theorem onPage_ends (hk : s.Keeps owned pins S) (hp : p ∈ owned) (hn : pinsOn pins p + 1 < 4294967296) :
    (onPage p missing body).Ends s fun result t => (t.denied = true ∧ ∀ a, result = .ok a → a = missing) ∨
      ∃ d, S p d ∧ ∃ a page dirty, body p d.slotted = (a, page, dirty) ∧ result = .ok a ∧
        t.Keeps owned pins (Keeps.overwrite S p page.stored (s.isDirty p || dirty)) := by
  refine ends_fetchPage hk hp hn (fun {f t} ht hc => ?_) (fun hd => ?_) (fun hd => ?_)
  · have hm : Pin.mk p f false ∈ Pin.mk p f false :: pins := List.mem_cons_self
    have hi : (t.pool.frames f).pageId = p := ht.pageId hm
    obtain ⟨⟨a, page, dirty⟩, hb⟩ : ∃ x, body p (t.pool.frames f).data.slotted = x := ⟨_, rfl⟩
    refine pinned_ends (R := fun result u => result = .ok (a, dirty) ∧ u = write f page.stored t) ?_ ?_ ?_
    · refine ends_pageId <| ends_slotted ?_
      rw [hi, hb]
      exact ends_put <| .pure ⟨rfl, rfl⟩
    · rintro a' dirty' u ⟨hr, rfl⟩
      obtain ⟨rfl, rfl⟩ := Prod.mk.inj <| Except.ok.inj hr
      exact .inr ⟨_, ht.data hm, _, _, _, hb, rfl, hc ▸ ht.scope _⟩
    · rintro e u ⟨hr, _⟩
      cases hr
  · exact .pure <| .inl ⟨hd, fun _ h => (Except.ok.inj h).symm⟩
  · exact .inl ⟨hd, nofun⟩

-- A caller who has been let down remains so.
theorem onPage_denied (hd : s.denied = true) : (onPage p missing body).Ends s fun _ t => t.denied = true := by
  refine Program.Ends.bind (R := fun _ t => t.denied = true) (.call ?_) ?_ id
  · split
    · exact hd
    · rfl
  · rintro (_ | f) t hd
    · exact .pure hd
    · exact pinned_ends (R := fun _ t => t.denied = true)
        (ends_pageId <| ends_slotted <| ends_put <| .pure hd) id id

end onPage

section newPages

theorem create_ends (hk : s.Keeps owned pins S) :
    create.Ends s fun result t => t.Unless <| ∃ p, result = .ok ⟨p⟩ ∧ p ∉ owned ∧ p ≠ invalidPageID ∧
      t.Keeps (p :: owned) pins (Function.update S p (· = blank)) := by
  refine ends_newPage hk (fun {f p t} hp hi ht hz _ => ?_) (fun {f t} hd _ _ => ?_) (fun hd => ?_) (fun hd => ?_)
  · have hm : Pin.mk p f true ∈ Pin.mk p f true :: pins := List.mem_cons_self
    have hf : (t.pool.frames f).pageId = p := ht.pageId hm
    refine pinned_ends (R := fun result u => result = .ok (⟨p⟩, true) ∧ u = write f blank t) ?_ ?_ ?_
    · refine ends_slotted <| ends_put <| ends_pageId <| .pure ?_
      rw [write_pageId, hf, hz]
      exact ⟨rfl, rfl⟩
    · rintro a dirty u ⟨hr, rfl⟩
      obtain ⟨rfl, rfl⟩ := Prod.mk.inj <| Except.ok.inj hr
      have hs := ht.scope true (d := blank)
      rw [Bool.or_true, Keeps.overwrite_update] at hs
      exact .inr ⟨p, rfl, hp, hi, hs⟩
    · rintro e u ⟨hr, _⟩
      cases hr
  · refine pinned_ends (R := fun result u => u.denied = true) ?_ (fun h => .inl h) (fun h => .inl h)
    exact ends_slotted <| ends_put <| ends_pageId <| .pure hd
  · exact .throw <| .inl hd
  · exact .inl hd

theorem blank_holds : blank.slotted.Holds .empty := by
  have h := SlottedPage.Holds.init .zero
  rwa [blank, h.stored_slotted]

-- The page after which `n` comes.
def linked (d : PageData) (n : PageID) : PageData :=
  (d.slotted.setNextPage n).stored

theorem initPage_ends : (pinned f do put f (← slotted f).init; return ((), true)).Ends s fun result u =>
    result = .ok () ∧ u = unpin f true (write f (s.pool.frames f).data.slotted.init.stored s) := by
  refine pinned_ends (R := fun result u => result = .ok ((), true) ∧
    u = write f (s.pool.frames f).data.slotted.init.stored s) ?_ ?_ ?_
  · exact ends_slotted <| ends_put <| .pure ⟨rfl, rfl⟩
  · rintro a dirty u ⟨hr, rfl⟩
    obtain ⟨rfl, rfl⟩ := Prod.mk.inj <| Except.ok.inj hr
    exact ⟨rfl, rfl⟩
  · rintro e u ⟨hr, _⟩
    cases hr

theorem appendPage_ends {g : FrameID} (hk : s.Keeps owned (⟨p, g, w⟩ :: pins) S)
    (hd : (s.pool.frames g).data = d) (hn : d.slotted.nextPage = invalidPageID) :
    (appendPage g).Ends s fun result t =>
      (t.denied = true ∧ ∀ x, result = .ok x → x.2 = true ∧ t.Blank x.1) ∨
      ∃ n u, result = .ok (n, true) ∧ n ∉ owned ∧ n ≠ invalidPageID ∧ t = write g (linked d n) u ∧
        u.Keeps (n :: owned) (⟨p, g, w⟩ :: pins) (Function.update S n (· = blank)) := by
  refine ends_newPage hk (fun {f n t} hp hi ht hz hf => ?_) (fun {f t} hd' ht hf => ?_) (fun hd => ?_) (fun hd => ?_)
  case refine_3 => exact .throw <| .inl ⟨hd, nofun⟩
  case refine_4 => exact .inl ⟨hd, nofun⟩
  case refine_1 =>
    have hm : Pin.mk n f true ∈ Pin.mk n f true :: Pin.mk p g w :: pins := List.mem_cons_self
    have hm' : Pin.mk p g w ∈ Pin.mk n f true :: Pin.mk p g w :: pins := List.mem_cons_of_mem _ List.mem_cons_self
    have hpn : p ≠ n := fun he => hp <| he ▸ hk.accounts.cached (hk.accounts.held List.mem_cons_self)
    have hgf : g ≠ f := ht.frame_ne hm' hm hpn
    have he : (t.pool.frames f).data.slotted.init.stored = blank := by rw [hz, blank]
    refine (he ▸ initPage_ends).bind ?_ nofun
    rintro a u ⟨_, rfl⟩
    have hs := ht.scope true (d := blank)
    rw [Bool.or_true, Keeps.overwrite_update] at hs
    have hdata : ((unpin f true (write f blank t)).pool.frames g).data = d := by
      rw [unpin_data, write_data_ne hgf, hf g hgf, hd]
    have hid : ((unpin f true (write f blank t)).pool.frames f).pageId = n := by
      rw [unpin_pageId, write_pageId, ht.pageId hm]
    refine ends_slotted ?_
    rw [hdata, if_pos hn]
    refine ends_pageId <| ends_put <| .pure ?_
    rw [hid, SlottedPage.setNextPage_nextPage]
    exact .inr ⟨n, _, rfl, hp, hi, rfl, hs⟩
  -- Without a valid id the new page is found again at once, since its frame stands in the table.
  case refine_2 =>
    refine initPage_ends.bind ?_ nofun
    rintro a u ⟨_, rfl⟩
    generalize hb : (t.pool.frames f).data.slotted.init = page
    have hpage : page.Holds .empty := hb ▸ SlottedPage.Holds.init _
    generalize hu : unpin f true (write f page.stored t) = u
    have hsame : (u.pool.frames f).data = page.stored := by rw [←hu, unpin_data, write_data_self]
    have hid : (u.pool.frames f).pageId = (t.pool.frames f).pageId := by rw [←hu, unpin_pageId, write_pageId]
    have htable : u.pool.pageTable (t.pool.frames f).pageId = some f := by rw [←hu, unpin_pageTable, write_pageTable, ht]
    have hden : u.denied = true := by rw [←hu, unpin_denied, write_denied, hd']
    have hnext : (u.pool.frames g).data.slotted.nextPage = invalidPageID := by
      by_cases hgf : g = f
      case pos => rw [hgf, hsame, hpage.stored_slotted, hpage.nextPage_eq]; rfl
      case neg => rw [←hu, unpin_data, write_data_ne hgf, hf g hgf, hd, hn]
    refine ends_slotted ?_
    rw [if_pos hnext]
    refine ends_pageId <| ends_put <| .pure <| .inl ⟨hden, ?_⟩
    rintro _ ⟨rfl⟩
    rw [SlottedPage.setNextPage_nextPage, hid]
    refine ⟨rfl, ?_⟩
    by_cases hgf : g = f
    case pos =>
      subst hgf
      rw [hsame, hpage.stored_slotted]
      have hlink : (SlottedPage.setNextPage _ (t.pool.frames g).pageId).Holds _ := hpage.setNextPage
      refine ⟨g, PageView.empty.link (t.pool.frames g).pageId, htable, ?_, rfl⟩
      rw [write_data_self, hlink.stored_slotted]
      exact hlink
    case neg =>
      refine ⟨f, .empty, htable, ?_, rfl⟩
      rw [write_data_ne (Ne.symm hgf), hsame, hpage.stored_slotted]
      exact hpage

-- What a visit of page `p` gives, where the page was found to hold `d`.
inductive Visited (owned : List PageID) (S : PageID → PageData → Prop) (p : PageID) (d : PageData)
    (bytes : List UInt8) (created : Bool) :
    Except String (RID ⊕ PageID × Bool) → List PageID → (PageID → PageData → Prop) → Prop
  | inserted : tryInsert d.slotted bytes = (some rid, page) →
    Visited owned S p d bytes created (.ok (.inl { rid with pageId := p })) owned
      (Function.update S p (· = page.stored))
  | full     : tryInsert d.slotted bytes = (none, page) → page.nextPage ≠ invalidPageID →
    Visited owned S p d bytes created (.ok (.inr (page.nextPage, created))) owned
      (Keeps.overwrite S p page.stored false)
  | last     : tryInsert d.slotted bytes = (none, page) → page.nextPage = invalidPageID → created = true →
    Visited owned S p d bytes created (.error e) owned (Keeps.overwrite S p page.stored false)
  | appended : tryInsert d.slotted bytes = (none, page) → page.nextPage = invalidPageID → created = false →
    n ∉ owned → n ≠ invalidPageID →
    Visited owned S p d bytes created (.ok (.inr (n, true))) (n :: owned)
      (Function.update (Function.update S n (· = blank)) p (· = linked page.stored n))

theorem visitPage_ends {g : FrameID} (hk : s.Keeps owned (⟨p, g, w⟩ :: pins) S) :
    (visitPage g bytes created).Ends s fun result t =>
      (t.denied = true ∧ ∀ x, result = .ok x → ∃ q, x = .inr (q, true) ∧ t.Blank q) ∨
      ∃ d owned' S', S p d ∧ Visited owned S p d bytes created result owned' S' ∧ t.Keeps owned' pins S' := by
  have hm : Pin.mk p g w ∈ Pin.mk p g w :: pins := List.mem_cons_self
  obtain ⟨d, hd⟩ : ∃ d, (s.pool.frames g).data = d := ⟨_, rfl⟩
  have hS : S p d := hd ▸ hk.data hm
  have hid : (s.pool.frames g).pageId = p := hk.pageId hm
  -- A scope that does not mark the page dirty leaves what it has written, or what was there before.
  have hclean {e} : (unpin g false (write g e s)).Keeps owned pins (Keeps.overwrite S p e false) := by
    refine (hk.scope _).mono fun {q a} _ h => ?_
    by_cases hq : q = p
    case neg => simpa only [Keeps.overwrite, Function.update_of_ne hq] using h
    case pos =>
      subst hq
      simp only [Keeps.overwrite, Function.update_self] at h ⊢
      exact h.imp_right fun h => ⟨trivial, h.2⟩
  rcases hi : tryInsert d.slotted bytes with ⟨_ | rid, page⟩
  · by_cases hn : page.nextPage = invalidPageID
    case neg =>
      refine pinned_ends (R := fun result u => result = .ok (.inr (page.nextPage, created), false) ∧
        u = write g page.stored s) ?_ ?_ (fun {e u} h => absurd h.1 Except.error_ne_ok)
      · refine ends_slotted ?_
        rw [hd, hi]
        refine ends_put ?_
        simp only [ne_eq, hn, not_false_eq_true, if_true]
        exact .pure ⟨rfl, rfl⟩
      · rintro a dirty u ⟨hr, rfl⟩
        obtain ⟨rfl, rfl⟩ := Prod.mk.inj <| Except.ok.inj hr
        exact .inr ⟨d, _, _, hS, .full hi hn, hclean⟩
    case pos =>
      cases created
      case true =>
        refine pinned_ends (R := fun result u => (∃ e, result = .error e) ∧ u = write g page.stored s)
          ?_ (fun {a dirty u} h => absurd h.1.choose_spec.symm Except.error_ne_ok) ?_
        · refine ends_slotted ?_
          rw [hd, hi]
          refine ends_put ?_
          simp only [ne_eq, hn, not_true, if_false, if_true]
          exact .throw ⟨⟨_, rfl⟩, rfl⟩
        · rintro e u ⟨_, rfl⟩
          exact .inr ⟨d, _, _, hS, .last hi hn rfl, hclean⟩
      case false =>
        have hw : (write g page.stored s).Keeps owned (⟨p, g, w⟩ :: pins) (Keeps.overwrite S p page.stored false) := by
          refine (hk.mono fun {q a} _ h => ?_).write hm (by simp [Keeps.overwrite])
          by_cases hq : q = p
          case pos => exact hq ▸ by simpa [Keeps.overwrite, ←hq] using .inr h
          case neg => simpa only [Keeps.overwrite, Function.update_of_ne hq] using h
        have ha := appendPage_ends hw write_data_self (SlottedPage.stored_nextPage.trans hn)
        refine pinned_ends (R := fun result u =>
          (u.denied = true ∧ ∀ x, result = .ok x → x.2 = true ∧ ∃ q, x.1 = .inr (q, true) ∧ u.Blank q) ∨
          ∃ n u', result = .ok (.inr (n, true), true) ∧ n ∉ owned ∧ n ≠ invalidPageID ∧
            u = write g (linked page.stored n) u' ∧ u'.Keeps (n :: owned) (⟨p, g, w⟩ :: pins)
              (Function.update (Keeps.overwrite S p page.stored false) n (· = blank))) ?_ ?_ ?_
        · refine ends_slotted ?_
          rw [hd, hi]
          refine ends_put ?_
          simp only [ne_eq, hn, not_true, if_false, Bool.false_eq_true]
          refine ha.bind ?_ ?_
          · rintro ⟨n, dirty⟩ u (⟨hd, hb⟩ | ⟨n', u', hr, hx⟩)
            · refine .pure <| .inl ⟨hd, ?_⟩
              rintro x ⟨rfl⟩
              exact ⟨(hb _ rfl).1, n, rfl, (hb _ rfl).2⟩
            · obtain ⟨rfl, rfl⟩ := Prod.mk.inj <| Except.ok.inj hr
              exact .pure <| .inr ⟨n, u', rfl, hx⟩
          · rintro e u (⟨hd, _⟩ | ⟨_, _, hr, _⟩)
            · exact .inl ⟨hd, fun _ h => absurd h Except.error_ne_ok⟩
            · cases hr
        · rintro a dirty u (⟨hd, hb⟩ | ⟨n, u', hr, hn', hi', rfl, hu⟩)
          · obtain ⟨_, q, rfl, f, v, hx⟩ := hb _ rfl
            refine .inl ⟨hd, ?_⟩
            rintro x ⟨rfl⟩
            exact ⟨q, rfl, f, v, by simpa using hx⟩
          · obtain ⟨rfl, rfl⟩ := Prod.mk.inj <| Except.ok.inj hr
            have hpn : p ≠ n := fun he => hn' <| he ▸ hk.accounts.cached (hk.accounts.held hm)
            refine .inr ⟨d, _, _, hS, .appended hi hn rfl hn' hi', ?_⟩
            have hs := hu.scope true (d := linked page.stored n)
            rw [Bool.or_true, Keeps.overwrite_true] at hs
            refine hs.mono fun {q a} _ h => ?_
            by_cases hq : q = p
            case pos => simpa [hq] using h
            case neg =>
              rw [Function.update_of_ne hq] at h ⊢
              by_cases hqn : q = n
              case pos => simpa [hqn] using h
              case neg => simpa [hqn, Keeps.overwrite, hq] using h
        · rintro e u (⟨hd, _⟩ | ⟨_, _, hr, _⟩)
          · exact .inl ⟨hd, fun _ h => absurd h Except.error_ne_ok⟩
          · cases hr
  · refine pinned_ends (R := fun result u => result = .ok (.inl { rid with pageId := p }, true) ∧
      u = write g page.stored s) ?_ ?_ (fun {e u} h => absurd h.1 Except.error_ne_ok)
    · refine ends_slotted ?_
      rw [hd, hi]
      refine ends_put <| ends_pageId <| .pure ⟨?_, rfl⟩
      rw [write_pageId, hid]
    · rintro a dirty u ⟨hr, rfl⟩
      obtain ⟨rfl, rfl⟩ := Prod.mk.inj <| Except.ok.inj hr
      have hs := hk.scope true (d := page.stored)
      rw [Bool.or_true, Keeps.overwrite_true] at hs
      exact .inr ⟨d, _, _, hS, .inserted hi, hs⟩

end newPages

end TableHeap
end Duck
