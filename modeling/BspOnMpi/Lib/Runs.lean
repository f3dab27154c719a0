import Mathlib.Data.List.Basic

/-! Runs of partial steps. A step takes an action and a state and may be undefined. What a run
emits is collected in the order of its actions, and a property of state and emissions that every
admitted action preserves holds at the end of every admitted run. -/

namespace BspOnMpi.Lib

variable {α σ ε : Type*}

def run (step : α → σ → Option σ) : List α → σ → Option σ
  | [], s => some s
  | a :: as, s => (step a s).bind (run step as)

def trace (step : α → σ → Option σ) (emit : α → σ → List ε) : List α → σ → List ε
  | [], _ => []
  | a :: as, s => emit a s ++ ((step a s).map (trace step emit as)).getD []

theorem trace_singleton (step : α → σ → Option σ) (emit : α → σ → List ε) (a : α) (s : σ) :
    trace step emit [a] s = emit a s := by
  cases hs : step a s <;> simp [trace, hs]

theorem mem_trace {step : α → σ → Option σ} {emit : α → σ → List ε} {as : List α} {s : σ} {e : ε}
    (h : e ∈ trace step emit as s) : ∃ a ∈ as, ∃ t, e ∈ emit a t := by
  induction as generalizing s with
  | nil => simp [trace] at h
  | cons a as ih =>
    rcases List.mem_append.mp h with h | h
    · exact ⟨a, List.mem_cons_self, s, h⟩
    · cases hs : step a s with
      | none => simp [hs] at h
      | some s' =>
        rw [hs, Option.map_some, Option.getD_some] at h
        obtain ⟨b, hb, hmem⟩ := ih h
        exact ⟨b, List.mem_cons_of_mem a hb, hmem⟩

/-- Every action of the run is admitted in the state it is taken in. -/
def Along (step : α → σ → Option σ) (ok : α → σ → Prop) : List α → σ → Prop
  | [], _ => True
  | a :: as, s => ok a s ∧ ∀ s', step a s = some s' → Along step ok as s'

instance decidableAlong (step : α → σ → Option σ) (ok : α → σ → Prop)
    [∀ a s, Decidable (ok a s)] : ∀ as s, Decidable (Along step ok as s)
  | [], _ => inferInstanceAs (Decidable True)
  | a :: as, s =>
    have : Decidable (∀ s', step a s = some s' → Along step ok as s') :=
      match hs : step a s with
      | none => .isTrue fun _ h => by cases h
      | some s' =>
        have := decidableAlong step ok as s'
        decidable_of_iff (Along step ok as s') (by simp)
    inferInstanceAs (Decidable (_ ∧ _))

theorem run_append (step : α → σ → Option σ) (as bs : List α) (s : σ) :
    run step (as ++ bs) s = (run step as s).bind (run step bs) := by
  induction as generalizing s with
  | nil => rfl
  | cons a as ih =>
    simp only [List.cons_append, run, Option.bind_assoc]
    congr 1
    funext s'
    exact ih s'

theorem run_congr {step step' : α → σ → Option σ} {as : List α}
    (h : ∀ a ∈ as, ∀ s, step a s = step' a s)
    (s : σ) : run step as s = run step' as s := by
  induction as generalizing s with
  | nil => rfl
  | cons a as ih =>
    rw [run, run, h a List.mem_cons_self]
    congr 1
    funext s'
    exact ih (fun b hb => h b (List.mem_cons_of_mem a hb)) s'

theorem run_map {β : Type*} {step : α → σ → Option σ} {step' : β → σ → Option σ} {f : β → α}
    (h : ∀ b s, step (f b) s = step' b s) (bs : List β) (s : σ) :
    run step (bs.map f) s = run step' bs s := by
  induction bs generalizing s with
  | nil => rfl
  | cons b bs ih =>
    rw [List.map_cons, run, run, h]
    congr 1
    funext s'
    exact ih s'

theorem trace_map {β ζ : Type*} {step : α → σ → Option σ} {step' : β → σ → Option σ}
    {emit : α → σ → List ε} {emit' : β → σ → List ε} {f : β → α} {g : ε → ζ}
    (hstep : ∀ b s, step (f b) s = step' b s)
    (hemit : ∀ b s, (emit (f b) s).map g = (emit' b s).map g) (bs : List β) (s : σ) :
    (trace step emit (bs.map f) s).map g = (trace step' emit' bs s).map g := by
  induction bs generalizing s with
  | nil => rfl
  | cons b bs ih =>
    rw [List.map_cons, trace, trace, List.map_append, List.map_append, hemit, hstep]
    cases step' b s with
    | none => rfl
    | some t =>
      congr 1
      exact ih t

theorem run_taken {step : α → σ → Option σ} {as : List α} {s t : σ} (h : run step as s = some t)
    {a : α} (ha : a ∈ as) : ∃ s₁ s₂, step a s₁ = some s₂ := by
  obtain ⟨xs, ys, rfl⟩ := List.append_of_mem ha
  rw [run_append] at h
  obtain ⟨s₁, -, hrest⟩ := Option.bind_eq_some_iff.mp h
  obtain ⟨s₂, hs₂, -⟩ := Option.bind_eq_some_iff.mp hrest
  exact ⟨s₁, s₂, hs₂⟩

theorem run_preserves {step : α → σ → Option σ} {I : σ → Prop} {as : List α}
    (hstep : ∀ a ∈ as, ∀ s s', I s → step a s = some s' → I s') {s t : σ}
    (h : run step as s = some t) (hs : I s) : I t := by
  induction as generalizing s with
  | nil =>
    cases h
    exact hs
  | cons a as ih =>
    obtain ⟨s', hs', hrest⟩ := Option.bind_eq_some_iff.mp h
    exact ih (fun b hb => hstep b (List.mem_cons_of_mem a hb)) hrest
      (hstep a List.mem_cons_self s s' hs hs')

theorem run_range_taken {step : ℕ → σ → Option σ} {n : ℕ} {s t : σ}
    (h : run step (List.range n) s = some t) {i : ℕ} (hi : i < n) :
    ∃ s₁ s₂, run step (List.range i) s = some s₁ ∧ step i s₁ = some s₂ := by
  induction n generalizing t with
  | zero => omega
  | succ n ih =>
    rw [List.range_succ, run_append] at h
    obtain ⟨s₁, hs₁, hlast⟩ := Option.bind_eq_some_iff.mp h
    rcases Nat.lt_or_eq_of_le (Nat.le_of_lt_succ hi) with hlt | rfl
    · exact ih hs₁ hlt
    · obtain ⟨s₂, hs₂, -⟩ := Option.bind_eq_some_iff.mp hlast
      exact ⟨s₁, s₂, hs₁, hs₂⟩

theorem trace_filterMap {β : Type*} {step : α → σ → Option σ} {emit : α → σ → List ε}
    {g : ε → Option β} {f : α → Option β} (hf : ∀ a s, (emit a s).filterMap g = (f a).toList)
    {as : List α} {s t : σ} (h : run step as s = some t) :
    (trace step emit as s).filterMap g = as.filterMap f := by
  induction as generalizing s with
  | nil => rfl
  | cons a as ih =>
    obtain ⟨s', hs', hrest⟩ := Option.bind_eq_some_iff.mp h
    rw [trace, hs', Option.map_some, Option.getD_some, List.filterMap_append, hf, ih hrest,
      List.filterMap_cons]
    cases f a <;> rfl

theorem along_mem {step : α → σ → Option σ} {ok : α → σ → Prop} {as : List α} {s t : σ}
    (h : Along step ok as s) (hrun : run step as s = some t) {a : α} (ha : a ∈ as) :
    ∃ s, ok a s := by
  induction as generalizing s with
  | nil => cases ha
  | cons b as ih =>
    obtain ⟨s', hs', hrest⟩ := Option.bind_eq_some_iff.mp hrun
    rcases List.mem_cons.mp ha with rfl | hmem
    · exact ⟨s, h.1⟩
    · exact ih (h.2 s' hs') hrest hmem

theorem along_mono {step : α → σ → Option σ} {ok ok' : α → σ → Prop} {as : List α} {s : σ}
    (h : ∀ a ∈ as, ∀ s, ok a s → ok' a s) (has : Along step ok as s) : Along step ok' as s := by
  induction as generalizing s with
  | nil => trivial
  | cons a as ih =>
    exact ⟨h a List.mem_cons_self s has.1,
      fun s' hs' => ih (fun b hb => h b (List.mem_cons_of_mem a hb)) (has.2 s' hs')⟩

theorem along_invariant {step : α → σ → Option σ} {ok I : α → σ → Prop} {as : List α} {s : σ}
    {J : σ → Prop} (hJ : ∀ a s, J s → I a s) (hstep : ∀ a s s', J s → step a s = some s' → J s')
    (h : Along step ok as s) (hs : J s) : Along step (fun a s => ok a s ∧ I a s) as s := by
  induction as generalizing s with
  | nil => trivial
  | cons a as ih =>
    exact ⟨⟨h.1, hJ a s hs⟩, fun s' hs' => ih (h.2 s' hs') (hstep a s s' hs hs')⟩

/-- The rule for runs: the invariant may speak about what was emitted so far. -/
theorem run_logged {step : α → σ → Option σ} (emit : α → σ → List ε) {ok : α → σ → Prop}
    (inv : List ε → σ → Prop)
    (hstep : ∀ a s log, inv log s → ok a s → ∃ s', step a s = some s' ∧ inv (log ++ emit a s) s')
    {as : List α} {s : σ} (log : List ε) (hinv : inv log s) (hok : Along step ok as s) :
    ∃ s', run step as s = some s' ∧ inv (log ++ trace step emit as s) s' := by
  induction as generalizing s log with
  | nil => exact ⟨s, rfl, by simpa [trace] using hinv⟩
  | cons a as ih =>
    obtain ⟨s', hs', hinv'⟩ := hstep a s log hinv hok.1
    obtain ⟨t, ht, hinvt⟩ := ih _ hinv' (hok.2 s' hs')
    refine ⟨t, by simp [run, hs', ht], ?_⟩
    simpa [trace, hs', List.append_assoc] using hinvt

theorem along_append {step : α → σ → Option σ} {ok : α → σ → Prop} {as bs : List α} {s : σ} :
    Along step ok (as ++ bs) s ↔
      Along step ok as s ∧ ∀ t, run step as s = some t → Along step ok bs t := by
  induction as generalizing s with
  | nil => simp [Along, run]
  | cons a as ih =>
    simp only [List.cons_append, Along, ih, run, Option.bind_eq_some_iff]
    constructor
    · rintro ⟨hok, hrest⟩
      exact ⟨⟨hok, fun s' hs' => (hrest s' hs').1⟩, fun t ⟨s', hs', ht⟩ => (hrest s' hs').2 t ht⟩
    · rintro ⟨⟨hok, has⟩, hbs⟩
      exact ⟨hok, fun s' hs' => ⟨has s' hs', fun t ht => hbs t ⟨s', hs', ht⟩⟩⟩

theorem trace_append {step : α → σ → Option σ} {emit : α → σ → List ε} {as : List α} {s t : σ}
    (h : run step as s = some t) (bs : List α) :
    trace step emit (as ++ bs) s = trace step emit as s ++ trace step emit bs t := by
  induction as generalizing s with
  | nil =>
    cases h
    rfl
  | cons a as ih =>
    obtain ⟨s', hs', hrest⟩ := Option.bind_eq_some_iff.mp h
    simp only [List.cons_append, trace, hs', Option.map_some, Option.getD_some, ih hrest,
      List.append_assoc]

theorem run_followed {step : α → σ → Option σ} {emit : α → σ → List ε} {ok : α → σ → Prop}
    {R : σ → σ → Prop}
    (hstep : ∀ a s t s', R s t → step a s = some s' → ∃ t', step a t = some t' ∧ R s' t')
    (hemit : ∀ a s t, R s t → emit a t = emit a s) (hok : ∀ a s t, R s t → ok a s → ok a t)
    {as : List α} {s t s' : σ} (hR : R s t) (hrun : run step as s = some s') :
    (∃ t', run step as t = some t' ∧ R s' t') ∧ trace step emit as t = trace step emit as s ∧
      (Along step ok as s → Along step ok as t) := by
  induction as generalizing s t with
  | nil =>
    cases hrun
    exact ⟨⟨t, rfl, hR⟩, rfl, id⟩
  | cons a as ih =>
    obtain ⟨s₁, hs₁, hrest⟩ := Option.bind_eq_some_iff.mp hrun
    obtain ⟨t₁, ht₁, hR₁⟩ := hstep a s t s₁ hR hs₁
    obtain ⟨⟨t', ht', hR'⟩, htrace, halong⟩ := ih hR₁ hrest
    refine ⟨⟨t', by rw [run, ht₁]; exact ht', hR'⟩, ?_,
      fun has => ⟨hok a s t hR has.1, fun t₂ ht₂ => ?_⟩⟩
    · simp only [trace, hs₁, ht₁, Option.map_some, Option.getD_some, hemit a s t hR, htrace]
    · cases ht₁.symm.trans ht₂
      exact halong (has.2 s₁ hs₁)

/-- A run of one system is followed by a run of another, which emits the same. -/
theorem run_refined {τ : Type*} {step : α → σ → Option σ} {step' : α → τ → Option τ}
    {emit : α → σ → List ε} {emit' : α → τ → List ε} {R : τ → σ → Prop} {as : List α}
    (hstep : ∀ a ∈ as, ∀ s t s', R t s → step a s = some s' →
      ∃ t', step' a t = some t' ∧ R t' s' ∧ emit' a t = emit a s)
    {s s' : σ} {t : τ} (hR : R t s) (hrun : run step as s = some s') :
    ∃ t', run step' as t = some t' ∧ R t' s' ∧ trace step' emit' as t = trace step emit as s := by
  induction as generalizing s t with
  | nil =>
    cases hrun
    exact ⟨t, rfl, hR, rfl⟩
  | cons a as ih =>
    obtain ⟨s₁, hs₁, hrest⟩ := Option.bind_eq_some_iff.mp hrun
    obtain ⟨t₁, ht₁, hR₁, hemit⟩ := hstep a List.mem_cons_self s t s₁ hR hs₁
    obtain ⟨t', ht', hR', htrace⟩ := ih (fun b hb => hstep b (List.mem_cons_of_mem a hb)) hR₁ hrest
    refine ⟨t', by rw [run, ht₁]; exact ht', hR', ?_⟩
    simp only [trace, hs₁, ht₁, Option.map_some, Option.getD_some, hemit, htrace]

theorem run_simulated {τ : Type*} {step : α → σ → Option σ} {step' : α → τ → Option τ}
    {R : τ → σ → Prop} {as : List α}
    (hstep : ∀ a ∈ as, ∀ s t s', R t s → step a s = some s' → ∃ t', step' a t = some t' ∧ R t' s')
    {s s' : σ} {t : τ} (hR : R t s) (hrun : run step as s = some s') :
    ∃ t', run step' as t = some t' ∧ R t' s' := by
  have hquiet : ∀ a ∈ as, ∀ s t s', R t s → step a s = some s' → ∃ t', step' a t = some t' ∧
      R t' s' ∧ (fun _ _ => [] : α → τ → List Unit) a t = (fun _ _ => [] : α → σ → List Unit) a s :=
    fun a ha s t s' h hs => (hstep a ha s t s' h hs).imp fun _ ht => ⟨ht.1, ht.2, rfl⟩
  obtain ⟨t', ht', hR', -⟩ := run_refined hquiet hR hrun
  exact ⟨t', ht', hR'⟩

/-- All components below `n` take their step, or none does. -/
def allBelow (n : ℕ) (f : ℕ → Option σ) (w : ℕ → σ) : Option (ℕ → σ) :=
  if (List.range n).all fun q => (f q).isSome then
    some fun q => if q < n then (f q).getD (w q) else w q
  else none

theorem allBelow_eq_some {n : ℕ} {f : ℕ → Option σ} {w w' : ℕ → σ} (h : allBelow n f w = some w') :
    (∀ q < n, f q = some (w' q)) ∧ ∀ q, n ≤ q → w' q = w q := by
  unfold allBelow at h
  split at h
  · rename_i hall
    cases h
    refine ⟨fun q hq => ?_, fun q hq => if_neg (by omega)⟩
    obtain ⟨s, hs⟩ := Option.isSome_iff_exists.mp
      (List.all_eq_true.mp hall q (List.mem_range.mpr hq))
    simp [hs, hq]
  · cases h

theorem allBelow_defined {n : ℕ} {f : ℕ → Option σ} (w : ℕ → σ) (h : ∀ q < n, ∃ s, f q = some s) :
    ∃ w', allBelow n f w = some w' := by
  have hall : ((List.range n).all fun q => (f q).isSome) = true := by
    rw [List.all_eq_true]
    intro q hq
    obtain ⟨s, hs⟩ := h q (List.mem_range.mp hq)
    simp [hs]
  exact ⟨_, if_pos hall⟩

theorem allBelow_congr {n : ℕ} {f g : ℕ → Option σ} {w : ℕ → σ} (h : ∀ q < n, f q = g q) :
    allBelow n f w = allBelow n g w := by
  have hall : ((List.range n).all fun q => (f q).isSome) =
      (List.range n).all fun q => (g q).isSome := by
    rw [Bool.eq_iff_iff, List.all_eq_true, List.all_eq_true]
    refine forall_congr' fun q => forall_congr' fun hq => ?_
    rw [h q (List.mem_range.mp hq)]
  have hvalue : (fun q => if q < n then (f q).getD (w q) else w q) =
      fun q => if q < n then (g q).getD (w q) else w q := by
    funext q
    split
    · rw [h q ‹_›]
    · rfl
  rw [allBelow, allBelow, hall, hvalue]

theorem flatMap_only {α : Type} {f : ℕ → List α} {n i : ℕ} (hi : i < n)
    (h : ∀ j < n, j ≠ i → f j = []) : (List.range n).flatMap f = f i := by
  induction n with
  | zero => omega
  | succ n ih =>
    rw [List.range_succ, List.flatMap_append, List.flatMap_singleton]
    rcases Nat.lt_or_eq_of_le (Nat.le_of_lt_succ hi) with hlt | rfl
    · rw [ih hlt fun j hj hne => h j (by omega) hne, h n (by omega) (by omega), List.append_nil]
    · have hnil : (List.range i).flatMap f = [] := by
        rw [List.flatMap_eq_nil_iff]
        intro j hj
        have hlt := List.mem_range.mp hj
        exact h j (by omega) (by omega)
      rw [hnil, List.nil_append]

end BspOnMpi.Lib
