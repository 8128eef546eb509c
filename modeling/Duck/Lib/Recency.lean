import Mathlib.Data.List.Pairwise
import Mathlib.Tactic.Common

-- Elements are accessed one after the other, and a history lists them, the latest last.
namespace Recency

variable {α : Type} {h : List α} {l l' : List α} {a b c : α}

-- The last access of `a` was before the last one of `b`.
def Older (h : List α) (a b : α) : Prop :=
  ∃ before after, h = before ++ a :: after ∧ a ∉ after ∧ b ∈ after

theorem Older.ne (ho : Older h a b) : a ≠ b := by
  obtain ⟨_, _, -, ha, hb⟩ := ho
  exact fun he => ha (he ▸ hb)

-- An access of another element changes nothing.
theorem Older.access (ho : Older h a b) (hc : a ≠ c) : Older (h ++ [c]) a b := by
  obtain ⟨before, after, rfl, ha, hb⟩ := ho
  refine ⟨before, after ++ [c], by simp, ?_, List.mem_append_left _ hb⟩
  simpa [ha] using hc

theorem older_accessed (ha : a ∈ h) (hc : a ≠ c) : Older (h ++ [c]) a c := by
  induction h
  case nil => cases ha
  case cons b h ih =>
    by_cases hm : a ∈ h
    case pos =>
      obtain ⟨before, after, hs, hn, hc⟩ := ih hm
      exact ⟨b :: before, after, by rw [List.cons_append, hs, List.cons_append], hn, hc⟩
    case neg =>
      obtain rfl := (List.mem_cons.mp ha).resolve_right hm
      exact ⟨[], h ++ [c], rfl, by simpa [hm] using hc, by simp⟩

-- A list of accessed elements in the order of their last accesses.
structure Ranked (h : List α) (l : List α) : Prop where
  accessed : ∀ a ∈ l, a ∈ h
  ordered  : l.Pairwise (Older h)

namespace Ranked

theorem nil : Ranked h [] :=
  ⟨fun _ hm => absurd hm List.not_mem_nil, .nil⟩

theorem nodup (hr : Ranked h l) : l.Nodup :=
  hr.ordered.imp Older.ne

theorem sublist (hr : Ranked h l) (hs : l'.Sublist l) : Ranked h l' :=
  ⟨fun a ha => hr.accessed a (hs.subset ha), hr.ordered.sublist hs⟩

-- An access of an element that is not on the list.
theorem extend (hr : Ranked h l) (hc : c ∉ l) : Ranked (h ++ [c]) l where
  accessed a ha := List.mem_append_left _ <| hr.accessed a ha
  ordered       := hr.ordered.imp_of_mem fun ha _ ho => ho.access fun he => hc (he ▸ ha)

-- The element that is accessed becomes the last of the list.
theorem access (hr : Ranked h l) (hc : c ∉ l) : Ranked (h ++ [c]) (l ++ [c]) where
  accessed a ha := by
    obtain ha | ha := List.mem_append.mp ha
    · exact (hr.extend hc).accessed a ha
    · exact List.mem_append_right _ ha
  ordered       := by
    refine List.pairwise_append.mpr ⟨(hr.extend hc).ordered, List.pairwise_singleton _ _, fun a ha b hb => ?_⟩
    obtain rfl := List.mem_singleton.mp hb
    exact older_accessed (hr.accessed a ha) fun he => hc (he ▸ ha)

-- What is found first is older than whatever else could be found.
theorem first {p : α → Bool} (hr : Ranked h l) (hf : l.find? p = some a) (hb : b ∈ l) (hp : p b) (hn : b ≠ a) :
    Older h a b := by
  obtain ⟨-, before, after, rfl, hbefore⟩ := List.find?_eq_some_iff_append.mp hf
  obtain hb | hb := List.mem_append.mp hb
  · have := hbefore b hb
    simp [hp] at this
  · have hb := (List.mem_cons.mp hb).resolve_left hn
    exact (List.pairwise_cons.mp (List.pairwise_append.mp hr.ordered).2.1).1 b hb

end Ranked
end Recency
