import BspOnMpi.Lib.Threads

/-! Footprints. A state is what is at its locations. A step with a footprint looks at some
locations and changes some; steps that keep out of each other's way may change places. -/

namespace BspOnMpi.Lib

variable {σ L V : Type*} (view : L → σ → V) (I : σ → Prop)

def Agree (reads writes : L → Prop) (s t : σ) : Prop :=
  ∀ l, reads l ∨ writes l → view l t = view l s

/-- In the states with `I`, the step `f` changes only `writes`, and what it makes of them
depends only on `reads` and `writes`. -/
structure Footprint (f : σ → Option σ) (reads writes : L → Prop) : Prop where
  frame : ∀ {s s'}, I s → f s = some s' → ∀ l, ¬writes l → view l s' = view l s
  determined : ∀ {s t s'}, I s → I t → Agree view reads writes s t → f s = some s' →
    ∃ t', f t = some t' ∧ ∀ l, writes l → view l t' = view l s'

variable {view I} {reads writes : L → Prop}

theorem Footprint.congr {f g : σ → Option σ} (hf : Footprint view I f reads writes)
    (h : ∀ s, g s = f s) :
    Footprint view I g reads writes :=
  (funext h : g = f) ▸ hf

theorem footprint_none : Footprint view I (fun _ => none) reads writes :=
  ⟨fun _ hs => (nomatch hs), fun _ _ _ hs => (nomatch hs)⟩

theorem footprint_total {f : σ → σ} (hframe : ∀ s, I s → ∀ l, ¬writes l → view l (f s) = view l s)
    (hdet : ∀ s t, I s → I t → Agree view reads writes s t →
      ∀ l, writes l → view l (f t) = view l (f s)) :
    Footprint view I (fun s => some (f s)) reads writes := by
  constructor
  · intro s s' hs hf
    cases hf
    exact hframe s hs
  · intro s t s' hs ht h hf
    cases hf
    exact ⟨f t, rfl, hdet s t hs ht h⟩

theorem footprint_guard {c : σ → Prop} [DecidablePred c] {f : σ → Option σ}
    (hc : ∀ s t, I s → I t → Agree view reads writes s t → c s → c t)
    (hf : Footprint view (fun s => I s ∧ c s) f reads writes) :
    Footprint view I (fun s => if c s then f s else none) reads writes := by
  constructor
  · intro s s' hs hfs
    split at hfs
    · exact hf.frame ⟨hs, ‹_›⟩ hfs
    · cases hfs
  · intro s t s' hs ht h hfs
    split at hfs
    · rename_i hcs
      have hct := hc s t hs ht h hcs
      obtain ⟨t', ht', hview⟩ := hf.determined ⟨hs, hcs⟩ ⟨ht, hct⟩ h hfs
      exact ⟨t', by rw [if_pos hct]; exact ht', hview⟩
    · cases hfs

theorem Footprint.swaps (hext : ∀ s t, (∀ l, view l s = view l t) → s = t) {f g : σ → Option σ}
    {rf wf rg wg : L → Prop} (hf : Footprint view I f rf wf) (hg : Footprint view I g rg wg)
    (hIf : ∀ s s', I s → f s = some s' → I s') (hIg : ∀ s s', I s → g s = some s' → I s')
    (hfg : ∀ l, wf l → ¬(rg l ∨ wg l)) (hgf : ∀ l, wg l → ¬(rf l ∨ wf l)) : Swaps I f g := by
  intro s t u hs ht hu
  have hIt := hIf s t hs ht
  have hback : Agree view rg wg t s := fun l hl =>
    (hf.frame hs ht l fun hw => hfg l hw hl).symm
  obtain ⟨v, hv, hvu⟩ := hg.determined hIt hs hback hu
  have hIv := hIg s v hs hv
  have hahead : Agree view rf wf s v := fun l hl =>
    hg.frame hs hv l fun hw => hgf l hw hl
  obtain ⟨u', hu', hut⟩ := hf.determined hs hIv hahead ht
  refine ⟨v, hv, hu'.trans (congrArg some (hext u' u fun l => ?_))⟩
  by_cases hwf : wf l
  · -- what `f` writes, `g` leaves alone
    rw [hut l hwf, hg.frame hIt hu l fun hw => hgf l hw (.inr hwf)]
  · rw [hf.frame hIv hu' l hwf]
    by_cases hwg : wg l
    · exact hvu l hwg
    · rw [hg.frame hs hv l hwg, hg.frame hIt hu l hwg, hf.frame hs ht l hwf]

end BspOnMpi.Lib
