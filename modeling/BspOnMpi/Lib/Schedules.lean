import BspOnMpi.Lib.Runs
import Mathlib.Data.List.Perm.Basic
import Mathlib.Data.List.Perm.Lattice

/-! Schedules of commuting steps. A schedule is the list of the agents that take a step. When the
steps of different agents commute, a schedule that ends where nobody can step fixes the end of all
others: every schedule can be completed to a rearrangement of it. -/

namespace BspOnMpi.Lib

variable {α σ : Type*}

/-- Steps that are possible at once are possible one after the other, with one result. -/
def Commuting (step : α → σ → Option σ) : Prop :=
  ∀ a b s t u, a ≠ b → step a s = some t → step b s = some u →
    ∃ v, step b t = some v ∧ step a u = some v

variable [DecidableEq α] {step : α → σ → Option σ}

/-- An agent that can step at the start steps along every schedule, or still can at its end. -/
theorem run_advance (hc : Commuting step) {a : α} {as : List α} {s t u : σ}
    (hrun : run step as s = some t) (ha : step a s = some u) :
    (a ∈ as ∧ run step (as.erase a) u = some t) ∨
      ∃ v, step a t = some v ∧ run step as u = some v := by
  induction as generalizing s u with
  | nil =>
    cases hrun
    exact .inr ⟨u, ha, rfl⟩
  | cons b as ih =>
    obtain ⟨s₁, hs₁, hrest⟩ := Option.bind_eq_some_iff.mp hrun
    by_cases hab : a = b
    · subst hab
      cases ha.symm.trans hs₁
      exact .inl ⟨List.mem_cons_self, by rw [List.erase_cons_head]; exact hrest⟩
    · obtain ⟨v, hbv, hav⟩ := hc a b s u s₁ hab ha hs₁
      rcases ih hrest hav with ⟨hmem, herase⟩ | ⟨x, hx, hax⟩
      · refine .inl ⟨List.mem_cons_of_mem b hmem, ?_⟩
        rw [List.erase_cons_tail (by simpa using Ne.symm hab), run, hbv]
        exact herase
      · exact .inr ⟨x, hx, by rw [run, hbv]; exact hax⟩

/-- Every schedule can be completed to a rearrangement of one that ends in a dead end. -/
theorem schedule_completes (hc : Commuting step) {as bs : List α} {s t u : σ}
    (hend : ∀ a, step a t = none) (has : run step as s = some t) (hbs : run step bs s = some u) :
    ∃ cs, run step cs u = some t ∧ (bs ++ cs).Perm as := by
  induction bs generalizing as s with
  | nil =>
    cases hbs
    exact ⟨as, has, List.Perm.refl as⟩
  | cons b bs ih =>
    obtain ⟨s₁, hs₁, hrest⟩ := Option.bind_eq_some_iff.mp hbs
    rcases run_advance hc has hs₁ with ⟨hmem, herase⟩ | ⟨v, hv, -⟩
    · obtain ⟨cs, hcs, hperm⟩ := ih herase hrest
      exact ⟨cs, hcs, (hperm.cons b).trans (List.perm_cons_erase hmem).symm⟩
    · rw [hend b] at hv
      cases hv

end BspOnMpi.Lib
