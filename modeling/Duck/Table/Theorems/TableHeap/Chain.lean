import Duck.Table.Theorems.TableHeap.Calls

namespace Duck

-- What is known of the pages that hold tuples.
abbrev Views := PageID → Option PageView

def Views.Shown (views : Views) (p : PageID) (d : PageData) : Prop :=
  ∀ v, views p = some v → d.slotted.Holds v

-- Whatever the pool may find a page to hold shows its view.
def Pager.Shows (s : Pager) (pins : List Pin) (views : Views) : Prop :=
  ∃ owned, s.Keeps owned pins views.Shown ∧ ∀ p v, views p = some v → p ∈ owned

-- A chain of pages that starts with the given one and ends with an invalid id.
inductive Linked (views : Views) : PageID → List PageID → Prop
  | nil  : Linked views invalidPageID []
  | cons : (views p = some v) → (p ≠ invalidPageID) → (p ∉ ps) → (Linked views v.nextPage ps) →
    Linked views p (p :: ps)

-- The tuples of the pages of a chain.
def contents (views : Views) (ps : List PageID) (rid : RID) : Option (List UInt8) :=
  if rid.pageId ∈ ps then (views rid.pageId).bind (·.slots rid.slotNum) else none

section Views

variable {views : Views} {p q n : PageID} {ps : List PageID} {v : PageView}

theorem Linked.congr {views' : Views} (h : Linked views p ps) (hv : ∀ q ∈ ps, views' q = views q) :
    Linked views' p ps := by
  induction h
  case nil                      => exact .nil
  case cons hp hi hn _ ih =>
    refine .cons ((hv _ List.mem_cons_self).trans hp) hi hn <| ih fun q hq => hv q (List.mem_cons_of_mem _ hq)

theorem Linked.view (h : Linked views p ps) (hq : q ∈ ps) : ∃ v, views q = some v := by
  induction h
  case nil               => cases hq
  case cons hp _ _ _ ih  =>
    obtain rfl | hq := List.mem_cons.mp hq
    · exact ⟨_, hp⟩
    · exact ih hq

theorem Linked.nodup (h : Linked views p ps) : ps.Nodup := by
  induction h
  case nil              => exact .nil
  case cons _ _ hn _ ih => exact List.nodup_cons.mpr ⟨hn, ih⟩

theorem Linked.valid (h : Linked views p ps) (hq : q ∈ ps) : q ≠ invalidPageID := by
  induction h
  case nil              => cases hq
  case cons _ hi _ _ ih =>
    obtain rfl | hq := List.mem_cons.mp hq
    · exact hi
    · exact ih hq

theorem Linked.head (h : Linked views p ps) (hp : p ≠ invalidPageID) : ∃ qs, ps = p :: qs := by
  cases h
  case nil  => exact absurd rfl hp
  case cons => exact ⟨_, rfl⟩

theorem Linked.first_mem (h : Linked views p ps) (hp : p ≠ invalidPageID) : p ∈ ps := by
  obtain ⟨qs, rfl⟩ := h.head hp
  cases h
  case cons => exact List.mem_cons_self

theorem Linked.next_mem (h : Linked views p ps) (hq : q ∈ ps) (hv : views q = some v)
    (hn : v.nextPage ≠ invalidPageID) : v.nextPage ∈ ps := by
  induction h
  case nil                    => cases hq
  case cons p u ps hp _ _ hl ih =>
    refine List.mem_cons_of_mem _ ?_
    obtain rfl | hq := List.mem_cons.mp hq
    · obtain rfl := Option.some.inj <| hp.symm.trans hv
      exact hl.first_mem hn
    · exact ih hq

theorem Linked.nil_of_invalid (h : Linked views invalidPageID ps) : ps = [] := by
  cases h
  case nil       => rfl
  case cons hi _ => exact absurd rfl hi

-- A changed view keeps the chain if it keeps the link.
theorem Linked.setView (h : Linked views p ps) (hq : views q = some v) (hn : w.nextPage = v.nextPage) :
    Linked (Function.update views q (some w)) p ps := by
  induction h
  case nil => exact .nil
  case cons p u ps hp hi hps hl ih =>
    by_cases he : p = q
    case neg => exact .cons ((Function.update_of_ne he ..).trans hp) hi hps ih
    case pos =>
      subst he
      obtain rfl := Option.some.inj <| hp.symm.trans hq
      exact .cons (Function.update_self ..) hi hps (hn ▸ ih)

-- The chain grows at its end.
theorem Linked.append (h : Linked views p (ps ++ [q])) (hn : n ∉ ps ++ [q])
    (hi : n ≠ invalidPageID) (hw : w.nextPage = invalidPageID) :
    Linked (Function.update (Function.update views q (some (v.link n))) n (some w)) p (ps ++ [q] ++ [n]) := by
  have hnq : n ≠ q := fun he => hn (he ▸ by simp)
  induction ps generalizing p
  case nil =>
    cases h
    case cons _ hq' _ _ =>
      refine .cons ((Function.update_of_ne hnq.symm ..).trans (Function.update_self ..)) hq' (by simp [hnq.symm]) ?_
      refine .cons (Function.update_self ..) hi List.not_mem_nil ?_
      exact hw.symm ▸ .nil
  case cons r ps ih =>
    cases h
    case cons u hp hr hl hps =>
      have hrn : r ≠ n := fun he => hn (he ▸ by simp)
      have hrq : r ≠ q := fun he => hps (he ▸ by simp)
      refine .cons (v := u) ?_ hr ?_ ?_
      · rw [Function.update_of_ne hrn, Function.update_of_ne hrq, hp]
      · exact fun hm => (List.mem_append.mp hm).elim hps fun hm => hrn <| List.mem_singleton.mp hm
      · exact ih hl fun hm => hn <| List.mem_cons_of_mem _ hm

theorem Linked.not_mem (h : Linked views p ps) (hn : views n = none) : n ∉ ps := fun hm =>
  have ⟨_, hv⟩ := h.view hm
  nomatch hn.symm.trans hv

end Views

section contents

variable {views views' : Views} {p q n : PageID} {ps ps' : List PageID} {v w : PageView} {rid rid' : RID}
variable {bytes : List UInt8} {pins : List Pin}

theorem contents_of_mem (hm : rid.pageId ∈ ps) (hv : views rid.pageId = some v) :
    contents views ps rid = v.slots rid.slotNum := by
  simp only [contents, hm, if_true, hv, Option.bind_some]

theorem contents_of_not_mem (hm : rid.pageId ∉ ps) : contents views ps rid = none := by
  simp only [contents, hm, if_false]

-- A page's new slots are the new tuples.
theorem contents_setView (hm : q ∈ ps) (hv : views q = some v) (hw : w.slots = Function.update v.slots i b) :
    contents (Function.update views q (some w)) ps = Function.update (contents views ps) ⟨q, i⟩ b := by
  funext rid
  by_cases hq : rid.pageId = q
  case neg =>
    have hne : rid ≠ ⟨q, i⟩ := fun he => hq (congrArg RID.pageId he)
    rw [Function.update_of_ne hne, contents, Function.update_of_ne hq, contents]
  case pos =>
    rw [contents_of_mem (hq ▸ hm) (v := w) (by rw [hq, Function.update_self]), hw]
    by_cases hi : rid.slotNum = i
    case pos =>
      have he : rid = ⟨q, i⟩ := by
        cases rid
        simp only at hq hi
        rw [hq, hi]
      rw [he, Function.update_self, Function.update_self]
    case neg =>
      have hne : rid ≠ ⟨q, i⟩ := fun he => hi (congrArg RID.slotNum he)
      rw [Function.update_of_ne hi, Function.update_of_ne hne, contents_of_mem (hq ▸ hm) (hq ▸ hv)]

-- Where a tuple has been placed: in a dead slot of a page of the chain, or on a page of its own.
inductive Placed (pins : List Pin) (views : Views) (ps : List PageID) (bytes : List UInt8) :
    RID → Views → List PageID → Prop
  | existing : (page ∈ ps) → (views page = some view) → (view.slots slot = none) → (slot ≤ view.slotCount) →
    Placed pins views ps bytes ⟨page, slot⟩ (Function.update views page (some (view.bind slot bytes))) ps
  | appended : (ps = init ++ [last]) → (views last = some view) → (views next = none) →
    (next ≠ invalidPageID) → (pinsOn pins next = 0) →
    Placed pins views ps bytes ⟨next, 0⟩
      (Function.update (Function.update views last (some (view.link next))) next
        (some (PageView.empty.bind 0 bytes))) (ps ++ [next])

namespace Placed

theorem cons (h : Placed pins views ps bytes rid views' ps') :
    Placed pins views (p :: ps) bytes rid views' (p :: ps') := by
  cases h
  case existing hm hv hs hc    => exact .existing (List.mem_cons_of_mem _ hm) hv hs hc
  case appended he hv hn hi hp => exact .appended (by rw [he, List.cons_append]) hv hn hi hp

theorem linked (h : Placed pins views ps bytes rid views' ps') (hl : Linked views p ps) : Linked views' p ps' := by
  cases h
  case existing hm hv hs hc    => exact hl.setView hv rfl
  case appended he hv hn hi hp =>
    subst he
    exact hl.append (hl.not_mem hn) hi rfl

theorem free (h : Placed pins views ps bytes rid views' ps') (hl : Linked views p ps) : contents views ps rid = none := by
  cases h
  case existing hm hv hs hc    => rw [contents_of_mem hm hv, hs]
  case appended he hv hn hi hp => exact contents_of_not_mem (hl.not_mem hn)

theorem contents (h : Placed pins views ps bytes rid views' ps') (hl : Linked views p ps) :
    contents views' ps' = Function.update (contents views ps) rid (some bytes) := by
  cases h
  case existing hm hv hs hc    => exact contents_setView hm hv rfl
  case appended qs q v n he hv hn hi hp =>
    have hnq : n ≠ q := by
      rintro rfl
      cases hn.symm.trans hv
    have hm : n ∈ ps ++ [n] := by simp
    -- The link of the last page and the new page without tuples change no tuple.
    have he : Duck.contents (Function.update (Function.update views q (some (v.link n))) n (some .empty)) (ps ++ [n]) =
        Duck.contents views ps := by
      funext rid
      by_cases hr : rid.pageId = n
      case pos =>
        rw [contents_of_mem (hr ▸ hm) (v := .empty) (by rw [hr, Function.update_self])]
        exact (contents_of_not_mem (hr ▸ hl.not_mem hn)).symm
      case neg =>
        simp only [Duck.contents, List.mem_append, List.mem_singleton, hr, or_false, Function.update_of_ne hr]
        by_cases hq : rid.pageId = q
        case neg => rw [Function.update_of_ne hq]
        case pos => rw [hq, Function.update_self, hv]; rfl
    let grown : Views := Function.update (Function.update views q (some (v.link n))) n (some .empty)
    have hg : grown n = some .empty := Function.update_self ..
    have hs := contents_setView (w := PageView.empty.bind 0 bytes) hm hg rfl
    rw [Function.update_idem] at hs
    rw [hs, he]

theorem frame (h : Placed pins views ps bytes rid views' ps') (hq : q ∉ ps') : views' q = views q := by
  cases h
  case existing a _ _ hm hv hs hc       =>
    have hne : q ≠ a := by
      rintro rfl
      exact hq hm
    rw [Function.update_of_ne hne]
  case appended qs a v n he hv hn hi hp =>
    have hqn : q ≠ n := by
      rintro rfl
      exact hq (by simp)
    have hqa : q ≠ a := by
      rintro rfl
      exact hq (by simp [he])
    rw [Function.update_of_ne hqn, Function.update_of_ne hqa]

theorem mem (h : Placed pins views ps bytes rid views' ps') : rid.pageId ∈ ps' := by
  cases h
  case existing hm _ _ _ => exact hm
  case appended          => simp

theorem grows (h : Placed pins views ps bytes rid views' ps') (hq : q ∈ ps') :
    q ∈ ps ∨ views q = none ∧ pinsOn pins q = 0 := by
  cases h
  case existing                => exact .inl hq
  case appended he hv hn hi hp =>
    refine (List.mem_append.mp hq).imp_right fun hq => ?_
    obtain rfl := List.mem_singleton.mp hq
    exact ⟨hn, hp⟩

end Placed

end contents

end Duck
