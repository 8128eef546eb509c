import Duck.Lib.Safety

namespace Program

-- The program leaves `proj` of the state as it is.
def Preserves (x : Program σ ε α) (proj : σ → β) : Prop :=
  ∀ s, x.Leaves s fun _ t => proj t = proj s

namespace Preserves

variable {proj : σ → γ} {x : Program σ ε α} {f : α → Program σ ε β}

theorem pure (a : α) : Preserves (Pure.pure a : Program σ ε α) proj :=
  fun _ => .pure rfl

theorem throw (e : ε) : Preserves (MonadExcept.throw e : Program σ ε α) proj :=
  fun _ => .throw rfl

theorem ofExcept (x : Except ε α) : (Program.ofExcept x : Program σ ε α).Preserves proj :=
  fun _ => .ofExcept rfl

theorem read (g : σ → α) : (Program.read g : Program σ ε α).Preserves proj :=
  fun _ => .read rfl

theorem update {g : σ → σ} (h : ∀ s, proj (g s) = proj s) : (Program.update g : Program σ ε Unit).Preserves proj :=
  fun s => .update (h s)

theorem call {g : σ → Except ε α × σ} (h : ∀ s, proj (g s).2 = proj s) : (Program.call g).Preserves proj :=
  fun s => .call (h s)

theorem bind (h : x.Preserves proj) (hf : ∀ a, (f a).Preserves proj) : (x >>= f).Preserves proj := by
  intro s
  refine (h s).bind (fun {a t} ht => ?_) id
  exact (hf a t).mono fun hu => hu.trans ht

theorem map {f : α → β} (h : x.Preserves proj) : (f <$> x).Preserves proj := by
  rw [map_eq_pure_bind]
  exact h.bind fun a => .pure (f a)

-- What is read decides how the program goes on.
theorem read_bind {g : σ → α} (hf : ∀ a, (f a).Preserves proj) : (Program.read g >>= f).Preserves proj :=
  (read g).bind hf

theorem cleanly {x : Program σ ε (α × β)} {cleanup : Option β → σ → σ} (h : x.Preserves proj)
    (hc : ∀ b s, proj (cleanup b s) = proj s) : (Program.cleanly x cleanup).Preserves proj :=
  fun s => (h s).cleanly (hc _ _).trans (hc _ _).trans

theorem loop {body : α → Program σ ε (α ⊕ β)} (h : ∀ a, (body a).Preserves proj) (a : α) :
    (Program.loop body a).Preserves proj := by
  intro s
  refine Leaves.loop (I := fun _ t => proj t = proj s) (fun {a t} ht => (h a t).mono ?_) rfl
  rintro (e | a | b) u hu
  · exact hu.trans ht
  · exact hu.trans ht
  · exact hu.trans ht

theorem foldlM {f : β → α → Program σ ε β} (h : ∀ b a, (f b a).Preserves proj) (as : List α) (b : β) :
    (as.foldlM f b).Preserves proj := by
  induction as generalizing b
  case nil          => exact .pure b
  case cons a as ih =>
    rw [List.foldlM_cons]
    exact (h b a).bind ih

-- A program on a part of the state, of which `proj` is a part.
theorem on {x : Program τ ε α} {sub : σ → τ} {put : τ → σ → σ} {part : τ → γ} (h : x.Preserves part)
    (hs : ∀ s, part (sub s) = proj s)
    (hp : ∀ t s, proj (put t s) = part t) : (Program.on sub put x).Preserves proj :=
  fun s => .on <| (h _).mono fun ht => (hp _ _).trans <| ht.trans (hs s)

end Preserves
end Program
