import BspOnMpi.Lib.Threads
import Mathlib.Algebra.Order.BigOperators.Group.Finset
import Mathlib.Data.Prod.Lex

/-! Threads that get to their end. Every call is at most one statement outside the lock, or one
critical section. While the threads run, the calls take effect one at a time, a call outside the
lock with its statement and the others with their release. As long as the calls are defined in
such an order no thread fails, and every run can be carried on to the end. -/

namespace BspOnMpi.Lib

variable {A γ σ : Type*}

inductive Plain : List (Instr A) → Prop
  | nil : Plain []
  | free (a : A) : Plain [.free a]
  | critical (as : List A) : Plain (critical as)

section Held

variable {eff : ℕ → A → σ → Option σ} {code : ℕ → γ → σ → List (Instr A)} {I : σ → Prop}
  {Ok : ℕ → Instr A → Prop} {Admits : ℕ → γ → Prop} {p q : ℕ} {as : List A} {s s' : σ}

variable (h : Disciplined eff code I Ok Admits) (hok : ∀ a ∈ as, Ok q (.held a))

include h hok

theorem held_kept (hs : I s) (hrun : run (eff q) as s = some s') : I s' :=
  run_preserves (fun a ha _ _ hI hstep => h.keeps (hok a ha) hI hstep) hrun hs

theorem held_stable (hs : I s) (hrun : run (eff q) as s = some s') (hne : p ≠ q) {c : γ}
    (hc : Admits p c) : code p c s' = code p c s := by
  have hinv : I s' ∧ code p c s' = code p c s := by
    refine run_preserves (I := fun u => I u ∧ code p c u = code p c s)
      (fun a ha u u' hu hstep => ?_)
      hrun ⟨hs, rfl⟩
    exact ⟨h.keeps (hok a ha) hu.1 hstep, (h.stable hne hc (hok a ha) hu.1 hstep).trans hu.2⟩
  exact hinv.2

theorem held_front (hs : I s) (hrun : run (eff q) as s = some s') (hne : p ≠ q) {a : A}
    (ha : Ok p (.free a)) {u : σ} (hlast : eff p a s' = some u) :
    ∃ v, eff p a s = some v ∧ run (eff q) as v = some u :=
  run_front (fun b hb _ _ hI hstep => h.keeps (hok b hb) hI hstep)
    (fun b hb => (h.swaps hne ha (hok b hb)).2) hs hrun hlast

end Held

def Begun (program : ℕ → List γ) (order : List (ℕ × γ)) (opened : ℕ → Option γ)
    (calls : ℕ → List γ) :
    Prop :=
  ∀ p, ofThread p order ++ ((opened p).toList ++ calls p) = program p

section Begun

variable {program calls : ℕ → List γ} {order : List (ℕ × γ)} {opened : ℕ → Option γ} {p : ℕ} {c : γ}
  {cs : List γ}

theorem begun_open (h : Begun program order opened calls) (ho : opened p = none)
    (hcalls : calls p = c :: cs) :
    Begun program order (Function.update opened p (some c)) (Function.update calls p cs) := by
  intro q
  by_cases hq : q = p
  · subst hq
    rw [Function.update_self, Function.update_self, ← h q, ho, hcalls]
    rfl
  · rw [Function.update_of_ne hq, Function.update_of_ne hq, h q]

theorem begun_close (h : Begun program order opened calls) (ho : opened p = some c) :
    Begun program (order ++ [(p, c)]) (Function.update opened p none) calls := by
  intro q
  by_cases hq : q = p
  · subst hq
    rw [Function.update_self, ofThread_append, ← h q, ho, List.append_assoc]
    simp
  · rw [Function.update_of_ne hq, ofThread_append, ofThread_other (Ne.symm hq), ofThread_nil,
      List.append_nil, h q]

end Begun

/-- The calls of `order` have taken effect, from `s` to `base`; `opened` are the calls that
the threads are at. The holder of the lock has gone from `base` to the shared state, the
others have done nothing of their calls. -/
structure Linear (eff : ℕ → A → σ → Option σ) (code : ℕ → γ → σ → List (Instr A))
    (program : ℕ → List γ) (s : σ) (order : List (ℕ × γ)) (opened : ℕ → Option γ) (base : σ)
    (t : Threads σ A γ) : Prop where
  begun : Begun program order opened t.calls
  past : run (atomically eff code) order s = some base
  closed : ∀ p, opened p = none → t.rest p = []
  waiting : ∀ p c, opened p = some c → t.holder ≠ some p →
    t.rest p = code p c t.shared ∧ t.rest p ≠ []
  alone : t.holder = none → t.shared = base
  inside : ∀ p, t.holder = some p → ∃ c as bs,
    opened p = some c ∧ code p c base = critical (as ++ bs) ∧
    t.rest p = bs.map .held ++ [.release] ∧ run (eff p) as base = some t.shared

section Linear

variable {eff : ℕ → A → σ → Option σ} {code : ℕ → γ → σ → List (Instr A)} {I : σ → Prop}
  {Ok : ℕ → Instr A → Prop} {Admits : ℕ → γ → Prop} {program : ℕ → List γ} {s base : σ}
  {order : List (ℕ × γ)} {opened : ℕ → Option γ} {t : Threads σ A γ} {p : ℕ}

theorem atomically_kept (h : Disciplined eff code I Ok Admits) {e : ℕ × γ} (he : Admits e.1 e.2)
    {s' : σ} (hs : I s) (hrun : atomically eff code e s = some s') : I s' :=
  run_preserves (fun _ hi _ _ hI hstep => h.keeps (h.admitted he hs _ hi) hI hstep) hrun hs

theorem linear_whole (hl : Linear eff code program s order opened base t) (hp : t.holder ≠ some p)
    {i : Instr A} {is : List (Instr A)} (hrest : t.rest p = i :: is) :
    ∃ c, opened p = some c ∧ code p c t.shared = i :: is := by
  cases ho : opened p with
  | none =>
    rw [hl.closed p ho] at hrest
    cases hrest
  | some c => exact ⟨c, rfl, (hl.waiting p c ho hp).1.symm.trans hrest⟩

theorem linear_holder (hl : Linear eff code program s order opened base t) {a : A}
    {is : List (Instr A)} (hrest : t.rest p = .free a :: is) : t.holder ≠ some p := by
  intro hp
  obtain ⟨c, as, bs, -, -, hbs, -⟩ := hl.inside p hp
  rw [hrest] at hbs
  cases bs <;> cases hbs

theorem plain_free {a : A} {is : List (Instr A)} (h : Plain (.free a :: is)) : is = [] := by
  cases h
  rfl

theorem plain_acquire {is : List (Instr A)} (h : Plain (.acquire :: is)) :
    ∃ as : List A, is = as.map .held ++ [.release] := by
  cases h with
  | critical as => exact ⟨as, rfl⟩

theorem plain_inside {i : Instr A} {is : List (Instr A)} (h : Plain (i :: is)) :
    (∀ a, i ≠ .held a) ∧ i ≠ .release := by
  cases h with
  | free => exact ⟨fun _ => nofun, nofun⟩
  | critical => exact ⟨fun _ => nofun, nofun⟩

variable (h : Disciplined eff code I Ok Admits) (hplain : ∀ p c s, Plain (code p c s))
  (hprogram : ∀ p, ∀ c ∈ program p, Admits p c) (hs : I s)
  (hl : Linear eff code program s order opened base t)

include hprogram hl in
theorem linear_admits {c : γ} (ho : opened p = some c) : Admits p c := by
  refine hprogram p c ?_
  rw [← hl.begun p, ho]
  simp

include h hprogram hs hl

theorem linear_base : I base := by
  refine run_preserves (fun e he _ _ hI hstep => atomically_kept h (hprogram _ _ ?_) hI hstep)
    hl.past hs
  rw [← hl.begun e.1]
  exact List.mem_append_left _ (mem_ofThread.mpr he)

theorem linear_inside (hp : t.holder = some p) : ∃ c as bs, opened p = some c ∧
    code p c base = critical (as ++ bs) ∧ t.rest p = bs.map .held ++ [.release] ∧
    run (eff p) as base = some t.shared ∧ (∀ a ∈ as, Ok p (.held a)) ∧ ∀ b ∈ bs,
      Ok p (.held b) := by
  obtain ⟨c, as, bs, ho, hcode, hrest, hrun⟩ := hl.inside p hp
  have hok : ∀ a ∈ as ++ bs, Ok p (.held a) := by
    intro a ha
    refine h.admitted (linear_admits hprogram hl ho) (linear_base h hprogram hs hl) _ ?_
    rw [hcode]
    exact List.mem_cons_of_mem _ (List.mem_append_left _ (List.mem_map_of_mem ha))
  exact ⟨c, as, bs, ho, hcode, hrest, hrun, fun a ha => hok a (List.mem_append_left _ ha),
    fun b hb => hok b (List.mem_append_right _ hb)⟩

theorem linear_shared : I t.shared := by
  have hbase := linear_base h hprogram hs hl
  cases hq : t.holder with
  | none =>
    rw [hl.alone hq]
    exact hbase
  | some q =>
    obtain ⟨-, as, -, -, -, -, hrun, hok, -⟩ := linear_inside h hprogram hs hl hq
    exact held_kept h hok hbase hrun

theorem linear_same (hp : t.holder ≠ some p) {c : γ} (hc : Admits p c) :
    code p c t.shared = code p c base := by
  cases hq : t.holder with
  | none => rw [hl.alone hq]
  | some q =>
    obtain ⟨-, as, -, -, -, -, hrun, hok, -⟩ := linear_inside h hprogram hs hl hq
    refine held_stable h hok (linear_base h hprogram hs hl) hrun (fun hpq => hp ?_) hc
    rw [hpq, hq]

variable (hdefined : ∀ order : List (ℕ × γ), (∀ p, ofThread p order <+: program p) →
  (run (atomically eff code) order s).isSome)

omit h hprogram hs in
include hdefined in
theorem linear_defined (cs : List (ℕ × γ)) (hcs : ∀ p, ofThread p cs <+: (opened p).toList) :
    ∃ u, run (atomically eff code) cs base = some u := by
  obtain ⟨u, hu⟩ := Option.isSome_iff_exists.mp (hdefined (order ++ cs) fun p => by
    rw [ofThread_append, ← hl.begun p]
    exact (List.prefix_append_right_inj _).mpr ((hcs p).trans (List.prefix_append _ _)))
  rw [run_append, hl.past, Option.bind_some] at hu
  exact ⟨u, hu⟩

omit h hprogram hs in
include hdefined in
theorem linear_next {c : γ} (ho : opened p = some c) :
    ∃ u, atomically eff code (p, c) base = some u := by
  obtain ⟨u, hu⟩ := linear_defined hl hdefined [(p, c)] fun q => by
    by_cases hq : p = q
    · subst hq
      rw [ofThread_self, ho]
      exact List.prefix_refl _
    · rw [ofThread_other hq]
      exact List.nil_prefix
  obtain ⟨v, hv, -⟩ := Option.bind_eq_some_iff.mp hu
  exact ⟨v, hv⟩

omit h hprogram hs in
include hdefined in
theorem linear_second {q : ℕ} (hne : q ≠ p) {c d : γ} (ho : opened p = some c)
    (hq : opened q = some d) : ∃ v u, atomically eff code (q, d) base = some v ∧
      atomically eff code (p, c) v = some u := by
  obtain ⟨u, hu⟩ := linear_defined hl hdefined [(q, d), (p, c)] fun r => by
    by_cases hr : q = r
    · subst hr
      rw [ofThread_self, ofThread_other (Ne.symm hne), hq]
      exact List.prefix_refl _
    · rw [ofThread_other hr]
      by_cases hp : p = r
      · subst hp
        rw [ofThread_self, ho]
        exact List.prefix_refl _
      · rw [ofThread_other hp]
        exact List.nil_prefix
  obtain ⟨v, hv, hrest⟩ := Option.bind_eq_some_iff.mp hu
  obtain ⟨u, hu, -⟩ := Option.bind_eq_some_iff.mp hrest
  exact ⟨v, u, hv, hu⟩

include hplain hdefined

theorem linear_effect {i : Instr A} {is : List (Instr A)} (hrest : t.rest p = i :: is) :
    ∃ s', i.effect (eff p) t.shared = some s' := by
  cases i with
  | acquire | release => exact ⟨t.shared, rfl⟩
  | held a =>
    have hp : t.holder = some p := by
      by_contra hp
      obtain ⟨c, -, hcode⟩ := linear_whole hl hp hrest
      exact (plain_inside (hcode ▸ hplain p c t.shared)).1 a rfl
    obtain ⟨c, as, bs, ho, hcode, hbs, hrun⟩ := hl.inside p hp
    rw [hrest] at hbs
    cases bs with
    | nil => cases hbs
    | cons b bs =>
      cases (List.cons.inj hbs).1
      obtain ⟨u, hu⟩ := linear_next hl hdefined ho
      rw [atomically, hcode, run_critical, run_append, hrun, Option.bind_some] at hu
      obtain ⟨s', hs', -⟩ := Option.bind_eq_some_iff.mp hu
      exact ⟨s', hs'⟩
  | free a =>
    have hp := linear_holder hl hrest
    obtain ⟨c, ho, hcode⟩ := linear_whole hl hp hrest
    have hwhole := hplain p c t.shared
    rw [hcode] at hwhole
    have hfree : code p c t.shared = [.free a] := by rw [hcode, plain_free hwhole]
    have hc := linear_admits hprogram hl ho
    cases hq : t.holder with
    | none =>
      obtain ⟨u, hu⟩ := linear_next hl hdefined ho
      rw [← hl.alone hq, atomically, hfree, run_free] at hu
      exact ⟨u, hu⟩
    | some q =>
      -- once the holder is through, the statement is defined, and it may come before that
      have hpq : p ≠ q := fun hpq => hp (by rw [hpq, hq])
      obtain ⟨d, as, bs, hd, hcrit, -, hrun, -, hbs⟩ := linear_inside h hprogram hs hl hq
      obtain ⟨v, u, hv, hu⟩ := linear_second hl hdefined (Ne.symm hpq) ho hd
      rw [atomically, hcrit, run_critical, run_append, hrun] at hv
      have hshared := linear_shared h hprogram hs hl
      rw [atomically, held_stable h hbs hshared hv hpq hc, hfree, run_free] at hu
      have hok : Ok p (.free a) :=
        h.admitted hc hshared _ (by rw [hfree]; exact List.mem_singleton_self _)
      obtain ⟨w, hw, -⟩ := held_front h hbs hshared hv hpq hok hu
      exact ⟨w, hw⟩

omit hplain hdefined

theorem linear_others {i : Instr A} (hok : Ok p i) {s' : σ}
    (hstep : i.effect (eff p) t.shared = some s') {q : ℕ} (hne : q ≠ p) {c : γ}
    (ho : opened q = some c) (hq : t.holder ≠ some q) :
    t.rest q = code q c s' ∧ t.rest q ≠ [] := by
  obtain ⟨hrest, hnil⟩ := hl.waiting q c ho hq
  refine ⟨?_, hnil⟩
  rw [hrest, h.stable hne (linear_admits hprogram hl ho) hok (linear_shared h hprogram hs hl) hstep]

theorem linear_start (hrest : t.rest p = []) {c : γ} {cs : List γ} (hcalls : t.calls p = c :: cs) :
    ∃ order' opened', Linear eff code program s order' opened' base { t with
      rest := Function.update t.rest p (code p c t.shared)
      calls := Function.update t.calls p cs } := by
  have hp : t.holder ≠ some p := by
    intro hp
    obtain ⟨-, -, bs, -, -, hbs, -⟩ := hl.inside p hp
    rw [hrest] at hbs
    cases bs <;> cases hbs
  have ho : opened p = none := by
    cases ho : opened p with
    | none => rfl
    | some d => exact absurd hrest (hl.waiting p d ho hp).2
  have hopen := begun_open hl.begun ho hcalls
  have hc : Admits p c := hprogram p c (by rw [← hopen p, Function.update_self]; simp)
  have hother : ∀ q, t.holder = some q → q ≠ p := fun q hq hqp => hp (hqp ▸ hq)
  cases hcode : code p c t.shared with
  | nil =>
    refine ⟨_, _, begun_close hopen (Function.update_self ..), ?_, fun q hq => ?_,
      fun q d hd hq => ?_, hl.alone, fun q hq => ?_⟩
    · have hbase := linear_same h hprogram hs hl hp hc
      rw [run_append, hl.past, Option.bind_some, run, atomically, ← hbase, hcode]
      rfl
    · by_cases hqp : q = p
      · subst hqp
        exact Function.update_self ..
      · simp only [Function.update_of_ne hqp] at hq ⊢
        exact hl.closed q hq
    · have hqp : q ≠ p := by
        rintro rfl
        rw [Function.update_self] at hd
        cases hd
      simp only [Function.update_of_ne hqp] at hd ⊢
      exact hl.waiting q d hd hq
    · simp only [Function.update_of_ne (hother q hq)]
      exact hl.inside q hq
  | cons i is =>
    refine ⟨_, _, hopen, hl.past, fun q hq => ?_, fun q d hd hq => ?_, hl.alone, fun q hq => ?_⟩
    · have hqp : q ≠ p := by
        rintro rfl
        rw [Function.update_self] at hq
        cases hq
      simp only [Function.update_of_ne hqp] at hq ⊢
      exact hl.closed q hq
    · by_cases hqp : q = p
      · subst hqp
        simp only [Function.update_self] at hd ⊢
        cases hd
        exact ⟨hcode.symm, List.cons_ne_nil _ _⟩
      · simp only [Function.update_of_ne hqp] at hd ⊢
        exact hl.waiting q d hd hq
    · simp only [Function.update_of_ne (hother q hq)]
      exact hl.inside q hq

include hplain

theorem linear_free {a : A} {is : List (Instr A)} (hrest : t.rest p = .free a :: is) {s' : σ}
    (hstep : eff p a t.shared = some s') : ∃ order' opened' base',
      Linear eff code program s order' opened' base' { t with
        shared := s'
        rest := Function.update t.rest p is } := by
  have hp := linear_holder hl hrest
  obtain ⟨c, ho, hcode⟩ := linear_whole hl hp hrest
  have hwhole := hplain p c t.shared
  rw [hcode] at hwhole
  cases plain_free hwhole
  have hc := linear_admits hprogram hl ho
  have hshared := linear_shared h hprogram hs hl
  have hok : Ok p (.free a) := h.admitted hc hshared _ (by rw [hcode]; exact List.mem_cons_self)
  have hother : ∀ q, t.holder = some q → q ≠ p := fun q hq hqp => hp (hqp ▸ hq)
  -- the statement may come before what the holder of the lock has done
  obtain ⟨base', hbase', halone, hinside⟩ : ∃ base', eff p a base = some base' ∧
      (t.holder = none → s' = base') ∧ ∀ q as, t.holder = some q → (∀ b ∈ as, Ok q (.held b)) →
        run (eff q) as base = some t.shared → run (eff q) as base' = some s' := by
    cases hq : t.holder with
    | none =>
      rw [hl.alone hq] at hstep
      exact ⟨s', hstep, fun _ => rfl, fun _ _ => nofun⟩
    | some q =>
      obtain ⟨-, as, -, -, -, -, hrun, hok', -⟩ := linear_inside h hprogram hs hl hq
      have hpq := (hother q hq).symm
      obtain ⟨v, hv, -⟩ := held_front h hok' (linear_base h hprogram hs hl) hrun hpq hok hstep
      refine ⟨v, hv, nofun, fun r bs hr hbs hrun' => ?_⟩
      cases hr
      obtain ⟨v', hv', hrun''⟩ :=
        held_front h hbs (linear_base h hprogram hs hl) hrun' hpq hok hstep
      cases hv.symm.trans hv'
      exact hrun''
  refine ⟨_, _, base', begun_close hl.begun ho, ?_, fun q hq => ?_, fun q d hd hq => ?_, halone,
    fun q hq => ?_⟩
  · rw [run_append, hl.past, Option.bind_some, run, atomically,
      ← linear_same h hprogram hs hl hp hc, hcode, run_free, hbase']
    rfl
  · by_cases hqp : q = p
    · subst hqp
      exact Function.update_self ..
    · simp only [Function.update_of_ne hqp] at hq ⊢
      exact hl.closed q hq
  · have hqp : q ≠ p := by
      rintro rfl
      rw [Function.update_self] at hd
      cases hd
    simp only [Function.update_of_ne hqp] at hd ⊢
    exact linear_others h hprogram hs hl (i := .free a) hok hstep hqp hd hq
  · have hqp := hother q hq
    obtain ⟨d, as, bs, hd, hcrit, hbs, hrun, hok', -⟩ := linear_inside h hprogram hs hl hq
    simp only [Function.update_of_ne hqp]
    refine ⟨d, as, bs, hd, ?_, hbs, hinside q as hq hok' hrun⟩
    rw [← hcrit]
    exact h.stable hqp (linear_admits hprogram hl hd) hok (linear_base h hprogram hs hl)
      (i := .free a) hbase'

omit h hprogram hs in
theorem linear_acquire {is : List (Instr A)} (hrest : t.rest p = .acquire :: is)
    (hnone : t.holder = none) : Linear eff code program s order opened base { t with
      holder := some p
      rest := Function.update t.rest p is } := by
  have hp : t.holder ≠ some p := by rw [hnone]; nofun
  obtain ⟨c, ho, hcode⟩ := linear_whole hl hp hrest
  have hwhole := hplain p c t.shared
  rw [hcode] at hwhole
  obtain ⟨bs, rfl⟩ := plain_acquire hwhole
  refine ⟨hl.begun, hl.past, fun q hq => ?_, fun q d hd hq => ?_, nofun, fun q hq => ?_⟩
  · have hqp : q ≠ p := by
      rintro rfl
      rw [ho] at hq
      cases hq
    simp only [Function.update_of_ne hqp]
    exact hl.closed q hq
  · have hqp : q ≠ p := fun hqp => hq (by rw [hqp])
    simp only [Function.update_of_ne hqp]
    exact hl.waiting q d hd (by rw [hnone]; nofun)
  · cases hq
    refine ⟨c, [], bs, ho, ?_, Function.update_self .., by rw [run, hl.alone hnone]⟩
    rw [← hl.alone hnone, hcode]
    rfl

theorem linear_held {a : A} {is : List (Instr A)} (hrest : t.rest p = .held a :: is) {s' : σ}
    (hstep : eff p a t.shared = some s') : Linear eff code program s order opened base { t with
      shared := s'
      rest := Function.update t.rest p is } := by
  have hp : t.holder = some p := by
    by_contra hp
    obtain ⟨c, -, hcode⟩ := linear_whole hl hp hrest
    exact (plain_inside (hcode ▸ hplain p c t.shared)).1 a rfl
  obtain ⟨c, as, bs, ho, hcode, hbs, hrun, -, hok⟩ := linear_inside h hprogram hs hl hp
  rw [hrest] at hbs
  cases bs with
  | nil => cases hbs
  | cons b bs =>
    obtain ⟨hb, rfl⟩ := List.cons.inj hbs
    cases hb
    refine ⟨hl.begun, hl.past, fun q hq => ?_, fun q d hd hq => ?_, fun hnone => ?_, fun q hq => ?_⟩
    · have hqp : q ≠ p := by
        rintro rfl
        rw [ho] at hq
        cases hq
      simp only [Function.update_of_ne hqp]
      exact hl.closed q hq
    · have hqp : q ≠ p := fun hqp => hq (by rw [hqp]; exact hp)
      simp only [Function.update_of_ne hqp]
      exact linear_others h hprogram hs hl (i := .held a) (hok a List.mem_cons_self) hstep hqp hd hq
    · rw [hp] at hnone
      cases hnone
    · cases hp.symm.trans hq
      refine ⟨c, as ++ [a], bs, ho, ?_, Function.update_self .., ?_⟩
      · rw [hcode, List.append_assoc]
        rfl
      · rw [run_append, hrun, Option.bind_some, run, hstep]
        rfl

theorem linear_release {is : List (Instr A)} (hrest : t.rest p = .release :: is) :
    ∃ order' opened', Linear eff code program s order' opened' t.shared { t with
      holder := none
      rest := Function.update t.rest p is } := by
  have hp : t.holder = some p := by
    by_contra hp
    obtain ⟨c, -, hcode⟩ := linear_whole hl hp hrest
    exact (plain_inside (hcode ▸ hplain p c t.shared)).2 rfl
  obtain ⟨c, as, bs, ho, hcode, hbs, hrun, -⟩ := linear_inside h hprogram hs hl hp
  rw [hrest] at hbs
  cases bs with
  | cons b bs => cases hbs
  | nil =>
    cases hbs
    refine ⟨_, _, begun_close hl.begun ho, ?_, fun q hq => ?_, fun q d hd _ => ?_, fun _ => rfl,
      nofun⟩
    · rw [run_append, hl.past, Option.bind_some, run, atomically, hcode, run_critical,
        List.append_nil, hrun]
      rfl
    · by_cases hqp : q = p
      · subst hqp
        exact Function.update_self ..
      · simp only [Function.update_of_ne hqp] at hq ⊢
        exact hl.closed q hq
    · have hqp : q ≠ p := by
        rintro rfl
        rw [Function.update_self] at hd
        cases hd
      simp only [Function.update_of_ne hqp] at hd ⊢
      refine hl.waiting q d hd fun hq => hqp ?_
      exact Option.some.inj (hq.symm.trans hp)

theorem linear_fire {t' : Threads σ A γ} (hfire : fireThread eff code p t = some t') :
    ∃ order' opened' base', Linear eff code program s order' opened' base' t' := by
  rcases fire_cases hfire with ⟨c, cs, hrest, hcalls, -, rfl⟩ |
    ⟨i, is, s', hrest, -, hready, hstep, rfl⟩
  · obtain ⟨order', opened', h'⟩ := linear_start h hprogram hs hl hrest hcalls
    exact ⟨order', opened', base, h'⟩
  · cases i with
    | free a => exact linear_free h hplain hprogram hs hl hrest hstep
    | acquire =>
      cases hstep
      exact ⟨_, _, _, linear_acquire hplain hl hrest (by simpa [Instr.ready] using hready)⟩
    | held a => exact ⟨_, _, _, linear_held h hplain hprogram hs hl hrest hstep⟩
    | release =>
      cases hstep
      obtain ⟨order', opened', h'⟩ := linear_release h hplain hprogram hs hl hrest
      exact ⟨order', opened', _, h'⟩

end Linear

theorem linear_init (eff : ℕ → A → σ → Option σ) (code : ℕ → γ → σ → List (Instr A))
    (program : ℕ → List γ) (s : σ) :
    Linear eff code program s [] (fun _ => none) s (startThreads s program) :=
  ⟨fun _ => rfl, rfl, fun _ _ => rfl, fun _ _ => nofun, fun _ => rfl, fun _ => nofun⟩

section Run

variable {eff : ℕ → A → σ → Option σ} {code : ℕ → γ → σ → List (Instr A)} {I : σ → Prop}
  {Ok : ℕ → Instr A → Prop} {Admits : ℕ → γ → Prop} {program : ℕ → List γ} {s : σ}
  {t : Threads σ A γ} {ps : List ℕ} {p : ℕ}

variable (h : Disciplined eff code I Ok Admits) (hplain : ∀ p c s, Plain (code p c s))
  (hprogram : ∀ p, ∀ c ∈ program p, Admits p c) (hs : I s)

include h hplain hprogram hs

theorem linear_run (hrun : run (fireThread eff code) ps (startThreads s program) = some t) :
    ∃ order opened base, Linear eff code program s order opened base t := by
  refine run_preserves
    (I := fun t => ∃ order opened base, Linear eff code program s order opened base t)
    (fun p _ t t' ht hfire => ?_) hrun ⟨_, _, _, linear_init eff code program s⟩
  obtain ⟨order, opened, base, hl⟩ := ht
  exact linear_fire h hplain hprogram hs hl hfire

variable (hdefined : ∀ order : List (ℕ × γ), (∀ p, ofThread p order <+: program p) →
  (run (atomically eff code) order s).isSome)

include hdefined

theorem never_stuck (hrun : run (fireThread eff code) ps (startThreads s program) = some t)
    {i : Instr A} {is : List (Instr A)} (hrest : t.rest p = i :: is)
    (hready : i.ready t.holder = true) : (fireThread eff code p t).isSome := by
  obtain ⟨order, opened, base, hl⟩ := linear_run h hplain hprogram hs hrun
  obtain ⟨s', hs'⟩ := linear_effect h hplain hprogram hs hl hdefined hrest
  simp only [fireThread, hrest, hready, hs', if_true, Option.map_some, Option.isSome_some]

theorem linear_progress {order : List (ℕ × γ)} {opened : ℕ → Option γ} {base : σ}
    (hl : Linear eff code program s order opened base t) (hfin : ¬Finished t) :
    ∃ p, (fireThread eff code p t).isSome := by
  have hready : ∀ p i is, t.rest p = i :: is → i.ready t.holder = true →
      ∃ p, (fireThread eff code p t).isSome := by
    intro p i is hrest hi
    obtain ⟨s', hs'⟩ := linear_effect h hplain hprogram hs hl hdefined hrest
    exact ⟨p, by simp only [fireThread, hrest, hi, hs', if_true, Option.map_some,
      Option.isSome_some]⟩
  cases hp : t.holder with
  | some p =>
    obtain ⟨-, -, bs, -, -, hrest, -⟩ := hl.inside p hp
    cases bs with
    | nil => exact hready p .release [] hrest rfl
    | cons b bs => exact hready p (.held b) _ hrest rfl
  | none =>
    obtain ⟨p, hp'⟩ := not_forall.mp hfin
    cases hrest : t.rest p with
    | cons i is => exact hready p i is hrest (by rw [hp]; cases i <;> rfl)
    | nil =>
      cases hcalls : t.calls p with
      | nil => exact absurd ⟨hrest, hcalls⟩ hp'
      | cons c cs => exact ⟨p, by simp only [fireThread, hrest, hcalls, Option.isSome_some]⟩

end Run

def remaining (n : ℕ) (t : Threads σ A γ) : ℕ ×ₗ ℕ :=
  toLex (∑ p ∈ Finset.range n, (t.calls p).length, ∑ p ∈ Finset.range n, (t.rest p).length)

theorem sum_shrinks {β : Type*} {n p : ℕ} (hp : p < n) {f : ℕ → List β} {x : β} {xs : List β}
    (hx : f p = x :: xs) : ∑ q ∈ Finset.range n, (Function.update f p xs q).length <
      ∑ q ∈ Finset.range n, (f q).length := by
  refine Finset.sum_lt_sum (fun q _ => ?_) ⟨p, Finset.mem_range.mpr hp, ?_⟩
  · by_cases hq : q = p
    · subst hq
      rw [Function.update_self, hx]
      exact Nat.le_succ _
    · rw [Function.update_of_ne hq]
  · rw [Function.update_self, hx]
    exact Nat.lt_succ_self _

theorem remaining_fire {eff : ℕ → A → σ → Option σ} {code : ℕ → γ → σ → List (Instr A)} {n p : ℕ}
    {t t' : Threads σ A γ} (hidle : ∀ p, n ≤ p → t.rest p = [] ∧ t.calls p = [])
    (hfire : fireThread eff code p t = some t') : remaining n t' < remaining n t := by
  have hp : t.rest p ≠ [] ∨ t.calls p ≠ [] → p < n := by
    intro hne
    by_contra hlt
    obtain ⟨hrest, hcalls⟩ := hidle p (Nat.le_of_not_lt hlt)
    rcases hne with hne | hne
    · exact hne hrest
    · exact hne hcalls
  rw [remaining, remaining, Prod.Lex.toLex_lt_toLex]
  rcases fire_cases hfire with ⟨c, cs, hrest, hcalls, -, rfl⟩ | ⟨i, is, s, hrest, -, -, -, rfl⟩
  · exact .inl (sum_shrinks (hp (.inr (by rw [hcalls]; exact List.cons_ne_nil _ _))) hcalls)
  · exact .inr ⟨rfl, sum_shrinks (hp (.inl (by rw [hrest]; exact List.cons_ne_nil _ _))) hrest⟩

section Completion

variable {eff : ℕ → A → σ → Option σ} {code : ℕ → γ → σ → List (Instr A)} {I : σ → Prop}
  {Ok : ℕ → Instr A → Prop} {Admits : ℕ → γ → Prop} {program : ℕ → List γ} {s : σ} {n : ℕ}

theorem completes (h : Disciplined eff code I Ok Admits) (hplain : ∀ p c s, Plain (code p c s))
    (hprogram : ∀ p, ∀ c ∈ program p, Admits p c) (hs : I s)
    (hdefined : ∀ order : List (ℕ × γ), (∀ p, ofThread p order <+: program p) →
      (run (atomically eff code) order s).isSome)
    (hfinite : ∀ p, n ≤ p → program p = []) {ps : List ℕ} {t : Threads σ A γ}
    (hrun : run (fireThread eff code) ps (startThreads s program) = some t) :
    ∃ qs t', run (fireThread eff code) qs t = some t' ∧ Finished t' := by
  have hmain : ∀ (m : ℕ ×ₗ ℕ) (t : Threads σ A γ), remaining n t = m →
      (∃ order opened base, Linear eff code program s order opened base t) →
      ∃ qs t', run (fireThread eff code) qs t = some t' ∧ Finished t' := by
    intro m
    induction m using WellFoundedLT.induction with
    | ind m ih =>
      intro t ht hlinear
      by_cases hfin : Finished t
      · exact ⟨[], t, rfl, hfin⟩
      obtain ⟨order, opened, base, hl⟩ := hlinear
      obtain ⟨p, hp⟩ := linear_progress h hplain hprogram hs hdefined hl hfin
      obtain ⟨t', hfire⟩ := Option.isSome_iff_exists.mp hp
      have hidle : ∀ p, n ≤ p → t.rest p = [] ∧ t.calls p = [] := by
        intro p hp
        have hbegun := hl.begun p
        rw [hfinite p hp, List.append_eq_nil_iff, List.append_eq_nil_iff] at hbegun
        obtain ⟨-, ho, hcalls⟩ := hbegun
        refine ⟨hl.closed p ?_, hcalls⟩
        cases ho' : opened p with
        | none => rfl
        | some c =>
          rw [ho'] at ho
          cases ho
      obtain ⟨qs, t'', hqs, hfin'⟩ := ih _ (ht ▸ remaining_fire hidle hfire) t' rfl
        (linear_fire h hplain hprogram hs hl hfire)
      exact ⟨p :: qs, t'', by rw [run, hfire]; exact hqs, hfin'⟩
  exact hmain _ t rfl (linear_run h hplain hprogram hs hrun)

end Completion

end BspOnMpi.Lib
