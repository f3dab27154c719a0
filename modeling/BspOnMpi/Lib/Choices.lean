import BspOnMpi.Lib.Runs

/-! Machines that choose. A machine whose steps have several outcomes, and which asks something of
an action before it is taken. A program is safe if nothing that is asked can fail. A system that
answers every safe step with one of its outcomes runs safe programs to one of their outcomes. -/

namespace BspOnMpi.Lib

structure Chooser (α σ ε : Type*) where
  asks : α → σ → Prop
  next : α → σ → σ → Prop
  emits : α → σ → List ε

namespace Chooser

variable {α β σ τ ε : Type*} (m : Chooser α σ ε)

def Safe : List α → σ → Prop
  | [], _ => True
  | a :: as, s => m.asks a s ∧ ∀ s', m.next a s s' → Safe as s'

/-- A run with what the machine emits on the way. -/
inductive Outcome : List α → σ → List ε → σ → Prop
  | nil (s : σ) : Outcome [] s [] s
  | cons {a : α} {as : List α} {s s' s'' : σ} {es : List ε} (hstep : m.next a s s')
    (h : Outcome as s' es s'') : Outcome (a :: as) s (m.emits a s ++ es) s''

variable {m}

theorem safe_refined {step : β → τ → Option τ} {emit : β → τ → List ε} {R : σ → τ → Prop}
    {Q : α → β → Prop}
    (hstep : ∀ a b s t, Q a b → R s t → m.asks a s → ∃ t', step b t = some t' ∧
      (∃ s', m.next a s s' ∧ R s' t') ∧ emit b t = m.emits a s)
    {as : List α} {bs : List β} (hQ : List.Forall₂ Q as bs) {s : σ} {t : τ} (hR : R s t)
    (hsafe : m.Safe as s) : ∃ t', run step bs t = some t' ∧
      ∃ s', m.Outcome as s (trace step emit bs t) s' ∧ R s' t' := by
  induction hQ generalizing s t with
  | nil => exact ⟨t, rfl, s, .nil s, hR⟩
  | @cons a b as bs hab hrest ih =>
    obtain ⟨t₁, ht₁, ⟨s₁, hs₁, hR₁⟩, hemits⟩ := hstep a b s t hab hR hsafe.1
    obtain ⟨t', ht', s', hout, hR'⟩ := ih hR₁ (hsafe.2 s₁ hs₁)
    refine ⟨t', by rw [run, ht₁]; exact ht', s', ?_, hR'⟩
    rw [trace, ht₁, hemits]
    exact .cons hs₁ hout

/-- A system whose steps may be undefined: as far as it gets, it does what the machine may do. -/
theorem safe_along {step : β → τ → Option τ} {ok : β → τ → Prop} {R : σ → τ → Prop}
    {Q : α → β → Prop}
    (hstep : ∀ a b s t, Q a b → R s t → m.asks a s →
      ok b t ∧ ∀ t', step b t = some t' → ∃ s', m.next a s s' ∧ R s' t')
    {as rest : List α} {bs : List β} (hQ : List.Forall₂ Q as bs) {s : σ} {t : τ} (hR : R s t)
    (hsafe : m.Safe (as ++ rest) s) : Along step ok bs t ∧ ∀ t', run step bs t = some t' →
      ∃ es s', m.Outcome as s es s' ∧ R s' t' ∧ m.Safe rest s' := by
  induction hQ generalizing s t with
  | nil =>
    refine ⟨trivial, fun t' ht' => ?_⟩
    cases ht'
    exact ⟨[], s, .nil s, hR, hsafe⟩
  | @cons a b as bs hab hrest ih =>
    obtain ⟨hok, hnext⟩ := hstep a b s t hab hR hsafe.1
    refine ⟨⟨hok, fun t₁ ht₁ => ?_⟩, fun t' ht' => ?_⟩
    · obtain ⟨s₁, hs₁, hR₁⟩ := hnext t₁ ht₁
      exact (ih hR₁ (hsafe.2 s₁ hs₁)).1
    · obtain ⟨t₁, ht₁, hlast⟩ := Option.bind_eq_some_iff.mp ht'
      obtain ⟨s₁, hs₁, hR₁⟩ := hnext t₁ ht₁
      obtain ⟨es, s', hout, hR', hsafe'⟩ := (ih hR₁ (hsafe.2 s₁ hs₁)).2 t' hlast
      exact ⟨_, s', .cons hs₁ hout, hR', hsafe'⟩

theorem outcomes_agree {R : σ → σ → Prop} {ok : α → Prop}
    (hstep : ∀ a s t s' t', ok a → R s t → m.next a s s' → m.next a t t' →
      m.emits a s = m.emits a t ∧ R s' t')
    {as : List α} (hok : ∀ a ∈ as, ok a) {s s' t t' : σ} {es es' : List ε} (hR : R s t)
    (hs : m.Outcome as s es s') (ht : m.Outcome as t es' t') : es = es' ∧ R s' t' := by
  induction hs generalizing t es' with
  | nil s =>
    cases ht
    exact ⟨rfl, hR⟩
  | @cons a as s s₁ s' es hnext hs ih =>
    cases ht with
    | cons hnext' ht =>
      obtain ⟨hemits, hR₁⟩ := hstep a s t s₁ _ (hok a List.mem_cons_self) hR hnext hnext'
      obtain ⟨hes, hR'⟩ := ih (fun b hb => hok b (List.mem_cons_of_mem a hb)) hR₁ ht
      exact ⟨by rw [hemits, hes], hR'⟩

end Chooser

end BspOnMpi.Lib
