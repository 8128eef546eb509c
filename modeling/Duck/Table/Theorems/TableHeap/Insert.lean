import Duck.Table.Theorems.TableHeap.Chain

namespace Duck

namespace SlottedPage.Holds

open TableHeap

variable {p q : SlottedPage} {v : PageView} {bytes : List UInt8}

theorem tryInsert_some (h : p.Holds v) (hl : bytes.length < 65536) (hi : tryInsert p bytes = (some rid, q)) :
    rid.slotNum ≤ v.slotCount ∧ v.slots rid.slotNum = none ∧ q.Holds (v.bind rid.slotNum bytes) := by
  simp only [tryInsert] at hi
  split at hi
  case h_1 hs =>
    obtain ⟨⟨rfl⟩, rfl⟩ := Prod.mk.inj hi
    exact h.insertTuple hl hs
  case h_2 r hs =>
    obtain rfl := insertTuple_none hs
    split at hi
    case isTrue  => cases hi
    case isFalse => exact h.compact.insertTuple hl hi

theorem tryInsert_none (h : p.Holds v) (hi : tryInsert p bytes = (none, q)) : q.Holds v := by
  simp only [tryInsert] at hi
  split at hi
  case h_1 hs   => cases hi
  case h_2 r hs =>
    obtain rfl := insertTuple_none hs
    split at hi
    case isTrue  => exact (Prod.mk.inj hi).2 ▸ h
    case isFalse => exact insertTuple_none hi ▸ h.compact

theorem tryInsert_blank (h : p.Holds v) (hc : v.slotCount = 0) (hl : bytes.length ≤ 8180) :
    tryInsert p bytes ≠ (none, q) := by
  have ⟨rid, q', hi⟩ := h.insertTuple_blank hc hl
  simp [tryInsert, hi]

end SlottedPage.Holds

namespace Pager.Shows

open TableHeap

variable {s t : Pager} {pins : List Pin} {views views' : Views} {p q n : PageID} {v w : PageView}

theorem mono (hs : s.Shows pins views) (hv : ∀ p v, views' p = some v → views p = some v) : s.Shows pins views' := by
  have ⟨owned, hk, ho⟩ := hs
  exact ⟨owned, hk.mono fun _ h v hp => h v (hv _ v hp), fun p v hp => ho p v (hv p v hp)⟩

theorem denied (hs : s.Shows pins views) : s.denied = false :=
  have ⟨_, hk, _⟩ := hs
  hk.granted

theorem bytesOf (hs : s.Shows pins views) (hv : views p = some v) : (s.pool.bytesOf p).slotted.Holds v :=
  have ⟨_, hk, ho⟩ := hs
  hk.versions (ho p v hv) PoolManager.version_bytesOf v hv

-- What has been written to a page last shows its new view.
theorem setView {S : PageID → PageData → Prop} (hk : s.Keeps owned pins S) (ho : p ∈ owned)
    (hv : ∀ p v, views p = some v → p ∈ owned) (hp : ∀ {d}, S p d → d.slotted.Holds w)
    (hS : ∀ {q d}, q ∈ owned → q ≠ p → S q d → views.Shown q d) : s.Shows pins (Function.update views p (some w)) := by
  refine ⟨owned, hk.mono fun {q d} hq hd v hv => ?_, fun q v hq => ?_⟩
  · by_cases hqp : q = p
    case pos =>
      subst hqp
      rw [Function.update_self, Option.some.injEq] at hv
      exact hv ▸ hp hd
    case neg =>
      rw [Function.update_of_ne hqp] at hv
      exact hS hq hqp hd v hv
  · by_cases hqp : q = p
    case pos => exact hqp ▸ ho
    case neg => exact hv q v (by rwa [Function.update_of_ne hqp] at hq)

end Pager.Shows

namespace TableHeap

open Pager

variable {s t : Pager} {pins : List Pin} {views views' : Views} {p q n : PageID} {ps : List PageID} {v w : PageView}
variable {bytes : List UInt8} {created : Bool}

-- One page with a view, changed at once.
theorem onPage_shows {body : PageID → SlottedPage → α × SlottedPage × Bool} (hs : s.Shows pins views)
    (hv : views p = some v) (hn : pinsOn pins p + 1 < 4294967296) :
    (onPage p missing body).Ends s fun result t => (t.denied = true ∧ ∀ a, result = .ok a → a = missing) ∨
      ∃ page, page.Holds v ∧ ∃ a page' dirty, body p page = (a, page', dirty) ∧ result = .ok a ∧
        ∀ w, page'.Holds w → ((s.isDirty p || dirty) = true ∨ w = v) →
          t.Shows pins (Function.update views p (some w)) := by
  obtain ⟨owned, hk, ho⟩ := hs
  refine (onPage_ends hk (ho p v hv) hn).mono fun {result t} h => h.imp_right ?_
  rintro ⟨d, hd, a, page', dirty, hb, hr, ht⟩
  refine ⟨d.slotted, hd v hv, a, page', dirty, hb, hr, fun w hw hc => ?_⟩
  refine Shows.setView ht (ho p v hv) ho (fun {e} he => ?_) fun {q e} _ hq he => ?_
  · simp only [Keeps.overwrite, Function.update_self] at he
    obtain rfl | ⟨hf, he⟩ := he
    · rwa [hw.stored_slotted]
    · rw [hf] at hc
      exact hc.resolve_left Bool.false_ne_true ▸ he v hv
  · rwa [Keeps.overwrite, Function.update_of_ne hq] at he

section insert

variable {Q : Except String (Option RID) → Pager → Prop} {owned : List PageID}

-- One turn of the loop of `insert_tuple`.
theorem insertFrom_eq : insertFrom p bytes created = (do
    match ← fetchPage p with
    | none         => return none
    | some frameId =>
      match ← visitPage frameId bytes created with
      | .inl rid             => return some rid
      | .inr (next, created) => insertFrom next bytes created) := by
  rw [insertFrom, Program.loop_eq, bind_assoc]
  refine bind_congr fun result => ?_
  cases result
  case none         => rw [pure_bind]; rfl
  case some frameId =>
    rw [bind_assoc]
    refine bind_congr fun visited => ?_
    cases visited <;> rw [pure_bind] <;> rfl

theorem insertFrom_here (hf : fetchPage p s = some (.ok (some f), t))
    (hv : visitPage f bytes created t = some (.ok (.inl rid), u)) : insertFrom p bytes created s = some (.ok (some rid), u) := by
  rw [insertFrom_eq, Program.bind_eq hf]
  exact Program.bind_eq hv

theorem insertTuple_here {h : TableHeap} (hb : bytes.length ≤ 8180)
    (hf : fetchPage h.firstPageId s = some (.ok (some f), t)) (hv : visitPage f bytes false t = some (.ok (.inl rid), u)) :
    h.insertTuple bytes s = some (.ok (some rid), u) := by
  rw [insertTuple, if_neg (by rw [kPageSize_eq]; omega)]
  exact insertFrom_here hf hv

theorem insertFrom_next (hf : fetchPage p s = some (.ok (some f), t))
    (hv : visitPage f bytes created t = some (.ok (.inr (next, fresh)), u)) :
    insertFrom p bytes created s = insertFrom next bytes fresh u := by
  rw [insertFrom_eq, Program.bind_eq hf]
  exact Program.bind_eq hv

-- The loop of `insert_tuple` ends on a page without tuples, whatever else has gone wrong.
theorem insertFrom_blank (hb : s.Blank p) (hd : s.denied = true) (hl : bytes.length ≤ 8180) :
    (insertFrom p bytes created).Ends s fun _ t => t.denied = true := by
  obtain ⟨f, v, ht, hv, hc⟩ := hb
  rw [insertFrom_eq]
  have hf : s.pool.fetchPage p = (.ok (some f), s.pool.pinned p f) := by
    rw [PoolManager.fetchPage, PoolManager.findCachedPage_hit ht]
  refine Program.Ends.bind (R := fun result t => result = .ok (some f) ∧ t = { s with pool := s.pool.pinned p f })
    (.call ?_) ?_ (fun {e t} h => absurd h.1 Except.error_ne_ok)
  · simp only [hf, and_self]
  · rintro a t ⟨ha, rfl⟩
    obtain rfl := Except.ok.inj ha
    have hdata : (((s.pool.pinned p f).frames f).data) = (s.pool.frames f).data := by
      simp [PoolManager.pinned, PoolManager.setFrame, Page.incPinCount]
    refine Program.Ends.bind (R := fun result t => t.denied = true ∧ ∃ rid, result = .ok (.inl rid)) ?_ ?_ (fun h => h.1)
    · rcases hi : tryInsert (s.pool.frames f).data.slotted bytes with ⟨_ | rid, page⟩
      · exact absurd hi <| hv.tryInsert_blank hc hl
      · refine pinned_ends (R := fun result t => t.denied = true ∧ ∃ rid, result = .ok (.inl rid, true))
          ?_ ?_ (fun {e u} h => absurd h.2.choose_spec Except.error_ne_ok)
        · refine ends_slotted ?_
          simp only [hdata, hi]
          exact ends_put <| ends_pageId <| .pure ⟨hd, _, rfl⟩
        · rintro a dirty u ⟨hd, rid, hr⟩
          obtain ⟨rfl, rfl⟩ := Prod.mk.inj <| Except.ok.inj hr
          exact ⟨hd, rid, rfl⟩
    · rintro a t ⟨hd, rid, hr⟩
      obtain rfl := Except.ok.inj hr
      exact .pure hd

-- What a visit of a page gives, and the views after it.
inductive Visit (pins : List Pin) (views : Views) (p : PageID) (v : PageView) (bytes : List UInt8) (created : Bool) :
    Except String (RID ⊕ PageID × Bool) → Views → Prop
  | inserted : v.slots slot = none → slot ≤ v.slotCount →
    Visit pins views p v bytes created (.ok (.inl ⟨p, slot⟩)) (Function.update views p (some (v.bind slot bytes)))
  | full     : created = false → v.nextPage ≠ invalidPageID →
    Visit pins views p v bytes created (.ok (.inr (v.nextPage, false))) views
  | appended : created = false → v.nextPage = invalidPageID → views next = none → next ≠ invalidPageID →
    pinsOn pins next = 0 → Visit pins views p v bytes created (.ok (.inr (next, true)))
      (Function.update (Function.update views p (some (v.link next))) next (some .empty))

theorem visitPage_shows {f : FrameID} {b : Bool} (ht : t.Keeps owned (⟨p, f, b⟩ :: pins) views.Shown)
    (ho : ∀ p v, views p = some v → p ∈ owned) (hv : views p = some v) (hl : bytes.length ≤ 8180)
    (hb : created = true → v.slotCount = 0) : (visitPage f bytes created).Ends t fun x u =>
      (u.denied = true ∧ ∀ y, x = .ok y → ∃ q, y = .inr (q, true) ∧ u.Blank q) ∨
        ∃ views', Visit pins views p v bytes created x views' ∧ u.Shows pins views' := by
  have hp := ho p v hv
  refine (visitPage_ends ht).mono fun {x u} h => h.imp_right ?_
  rintro ⟨d, owned', S', hd, hx, hu⟩
  have hd := hd v hv
  cases hx
  case inserted rid page hi =>
    have ⟨hc, hf, hw⟩ := hd.tryInsert_some (by omega) hi
    refine ⟨_, .inserted hf hc, Shows.setView hu hp ho (fun {e} he => ?_) fun {q e} _ hq he => ?_⟩
    · rw [Function.update_self] at he
      rwa [he, hw.stored_slotted]
    · rwa [Function.update_of_ne hq] at he
  case full page hi hnext   =>
    have hw := hd.tryInsert_none hi
    rw [hw.nextPage_eq] at hnext ⊢
    cases created
    case true  => exact absurd hi <| hd.tryInsert_blank (hb rfl) hl
    case false =>
      refine ⟨_, .full rfl hnext, owned, hu.mono fun {q e} _ he v' hv' => ?_, ho⟩
      by_cases hq : q = p
      case neg =>
        rw [Keeps.overwrite, Function.update_of_ne hq] at he
        exact he v' hv'
      case pos =>
        subst hq
        simp only [Keeps.overwrite, Function.update_self] at he
        obtain rfl := Option.some.inj <| hv.symm.trans hv'
        obtain rfl | ⟨_, he⟩ := he
        · rwa [hw.stored_slotted]
        · exact he v hv
  case last page hi hnext hcr => exact absurd hi <| hd.tryInsert_blank (hb hcr) hl
  case appended page n hi hnext hcr hno hni =>
    have hw := hd.tryInsert_none hi
    rw [hw.nextPage_eq] at hnext
    have hnp : n ≠ p := fun he => hno (he ▸ hp)
    have hvn : views n = none := Option.eq_none_iff_forall_ne_some.mpr fun v' hv' => hno (ho n v' hv')
    have hpins : pinsOn pins n = 0 := pinsOn_eq_zero.mpr fun pin hm he =>
      hno <| he ▸ ht.accounts.cached (ht.accounts.held <| List.mem_cons_of_mem _ hm)
    have hlink : (linked page.stored n).slotted.Holds (v.link n) := by
      rw [linked, hw.stored_slotted, hw.setNextPage.stored_slotted]
      exact hw.setNextPage
    refine ⟨_, .appended hcr hnext hvn hni hpins, n :: owned, hu.mono fun {q e} _ he v' hv' => ?_, fun q v' hv' => ?_⟩
    · by_cases hqn : q = n
      case pos =>
        subst hqn
        rw [Function.update_of_ne hnp, Function.update_self] at he
        rw [Function.update_self, Option.some.injEq] at hv'
        exact hv' ▸ he ▸ blank_holds
      case neg =>
        rw [Function.update_of_ne hqn] at hv'
        by_cases hqp : q = p
        case pos =>
          subst hqp
          rw [Function.update_self] at he
          rw [Function.update_self, Option.some.injEq] at hv'
          exact hv' ▸ he ▸ hlink
        case neg =>
          rw [Function.update_of_ne hqp, Function.update_of_ne hqn] at he
          rw [Function.update_of_ne hqp] at hv'
          exact he v' hv'
    · by_cases hqn : q = n
      case pos => exact hqn ▸ List.mem_cons_self
      case neg =>
        rw [Function.update_of_ne hqn] at hv'
        refine List.mem_cons_of_mem _ ?_
        by_cases hqp : q = p
        case pos => exact hqp ▸ hp
        case neg => exact ho q v' (by rwa [Function.update_of_ne hqp] at hv')

-- One turn of the loop.
theorem insertFrom_step (hs : s.Shows pins views) (hv : views p = some v) (hn : pinsOn pins p + 1 < 4294967296)
    (hl : bytes.length ≤ 8180) (hb : created = true → v.slotCount = 0)
    (hinserted : ∀ {slot t}, v.slots slot = none → slot ≤ v.slotCount →
      t.Shows pins (Function.update views p (some (v.bind slot bytes))) → Q (.ok (some ⟨p, slot⟩)) t)
    (hfull : ∀ {t}, created = false → v.nextPage ≠ invalidPageID → t.Shows pins views →
      (insertFrom v.nextPage bytes false).Ends t Q)
    (happended : ∀ {n t}, created = false → v.nextPage = invalidPageID → views n = none → n ≠ invalidPageID →
      pinsOn pins n = 0 →
      t.Shows pins (Function.update (Function.update views p (some (v.link n))) n (some .empty)) →
      (insertFrom n bytes true).Ends t Q)
    (hdenied : ∀ {result t}, t.denied = true → Q result t) : (insertFrom p bytes created).Ends s Q := by
  have ⟨owned, hk, ho⟩ := hs
  rw [insertFrom_eq]
  refine ends_fetchPage hk (ho p v hv) hn (fun {f t} ht hc => ?_) (fun hd => .pure <| hdenied hd) hdenied
  refine (visitPage_shows ht ho hv hl hb).bind ?_ ?_
  · rintro x u (⟨hd, hx⟩ | ⟨views', hx, hu⟩)
    · obtain ⟨q, rfl, hq⟩ := hx x rfl
      exact (insertFrom_blank hq hd hl).mono fun hd => hdenied hd
    · cases hx
      case inserted hf hc                     => exact .pure <| hinserted hf hc hu
      case full hcr hnext                     => exact hfull hcr hnext hu
      case appended hcr hnext hvn hni hpins   => exact happended hcr hnext hvn hni hpins hu
  · rintro e u (⟨hd, _⟩ | ⟨views', hx, hu⟩)
    · exact hdenied hd
    · cases hx

-- The loop on a page without tuples, which it has made before.
theorem insertFrom_fresh (hs : s.Shows pins views) (hv : views p = some .empty)
    (hn : pinsOn pins p + 1 < 4294967296) (hl : bytes.length ≤ 8180) :
    (insertFrom p bytes true).Ends s fun result t => t.Unless <|
      result = .ok (some ⟨p, 0⟩) ∧ t.Shows pins (Function.update views p (some (PageView.empty.bind 0 bytes))) := by
  refine insertFrom_step hs hv hn hl (fun _ => rfl) (fun {slot t} _ hc ht => ?_) nofun nofun (fun hd => .inl hd)
  obtain rfl := Nat.le_zero.mp hc
  exact .inr ⟨rfl, ht⟩

theorem insertFrom_ends (hs : s.Shows pins views) (hl : Linked views p ps) (hp : p ≠ invalidPageID)
    (hn : ∀ q ∈ ps, pinsOn pins q + 1 < 4294967296) (hb : bytes.length ≤ 8180) :
    (insertFrom p bytes false).Ends s fun result t => t.Unless <| ∃ rid views' ps',
      result = .ok (some rid) ∧ t.Shows pins views' ∧ Placed pins views ps bytes rid views' ps' := by
  induction hl generalizing s
  case nil => exact absurd rfl hp
  case cons p v ps hv _ hnp hl ih =>
    refine insertFrom_step hs hv (hn p List.mem_cons_self) hb nofun (fun {slot t} hf hc ht => ?_)
      (fun {t} _ hi ht => ?_) (fun {n t} _ hnext hvn hni hpn ht => ?_) (fun hd => .inl hd)
    · exact .inr ⟨_, _, _, rfl, ht, .existing List.mem_cons_self hv hf hc⟩
    · refine (ih ht hi fun q hq => hn q (List.mem_cons_of_mem _ hq)).mono fun {result u} h => h.imp_right ?_
      rintro ⟨rid, views', ps', hr, hu, hx⟩
      exact ⟨rid, views', _, hr, hu, hx.cons⟩
    · rw [hnext] at hl
      obtain rfl := hl.nil_of_invalid
      refine (insertFrom_fresh ht (Function.update_self ..) (by rw [hpn]; decide) hb).mono fun {result u} h =>
        h.imp_right ?_
      rintro ⟨hr, hu⟩
      rw [Function.update_idem] at hu
      exact ⟨_, _, _, hr, hu, .appended (List.nil_append _).symm hv hvn hni hpn⟩

end insert

end TableHeap
end Duck
