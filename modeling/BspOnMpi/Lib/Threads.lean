import BspOnMpi.Lib.Runs
import Mathlib.Data.List.Basic
import Mathlib.Logic.Function.Basic

/-! Threads with one lock. Threads work through calls on a shared state. A call is a sequence of
statements with at most one critical section. When a statement outside the lock may change places
with what other threads do, every interleaving has the result of the calls made one at a time. -/

namespace BspOnMpi.Lib

section Reorder

variable {β σ : Type*}

def ofThread (p : ℕ) (xs : List (ℕ × β)) : List β :=
  xs.filterMap fun e => if e.1 = p then some e.2 else none

@[simp] theorem ofThread_nil (p : ℕ) : ofThread p ([] : List (ℕ × β)) = [] := rfl

@[simp] theorem ofThread_append (p : ℕ) (xs ys : List (ℕ × β)) :
    ofThread p (xs ++ ys) = ofThread p xs ++ ofThread p ys :=
  List.filterMap_append

@[simp] theorem ofThread_self (p : ℕ) (x : β) (xs : List (ℕ × β)) :
    ofThread p ((p, x) :: xs) = x :: ofThread p xs := by
  simp [ofThread]

theorem ofThread_other {p q : ℕ} (h : q ≠ p) (x : β) (xs : List (ℕ × β)) :
    ofThread p ((q, x) :: xs) = ofThread p xs := by
  simp [ofThread, h]

theorem ofThread_map (p : ℕ) (xs : List β) : ofThread p (xs.map fun x => (p, x)) = xs := by
  induction xs with
  | nil => rfl
  | cons x xs ih => rw [List.map_cons, ofThread_self, ih]

theorem ofThread_map_other {p q : ℕ} (h : q ≠ p) (xs : List β) :
    ofThread p (xs.map fun x => (q, x)) = [] := by
  induction xs with
  | nil => rfl
  | cons x xs ih => rw [List.map_cons, ofThread_other h, ih]

theorem mem_ofThread {p : ℕ} {x : β} {xs : List (ℕ × β)} : x ∈ ofThread p xs ↔ (p, x) ∈ xs := by
  simp only [ofThread, List.mem_filterMap, Option.ite_none_right_eq_some, Option.some.injEq]
  constructor
  · rintro ⟨e, he, rfl, rfl⟩
    exact he
  · exact fun h => ⟨_, h, rfl, rfl⟩

theorem ofThread_filter (p : ℕ) (xs : List (ℕ × β)) :
    ofThread p xs = (xs.filter fun e => e.1 = p).map Prod.snd := by
  induction xs with
  | nil => rfl
  | cons x xs ih =>
    obtain ⟨q, x⟩ := x
    by_cases hq : q = p
    · subst hq
      simpa using ih
    · rw [ofThread_other hq, ih]
      simp [hq]

theorem ofThread_filterMap {γ : Type*} (p : ℕ) (f : β → Option γ) (xs : List (ℕ × β)) :
    ofThread p (xs.filterMap fun e => (f e.2).map fun y => (e.1, y)) =
      (ofThread p xs).filterMap f := by
  induction xs with
  | nil => rfl
  | cons x xs ih =>
    obtain ⟨q, x⟩ := x
    by_cases hq : q = p
    · subst hq
      cases hf : f x <;> simp [hf, ih]
    · cases hf : f x <;> simp [hf, ih, ofThread_other hq]

theorem pairwise_ofThread {R : ℕ × β → ℕ × β → Prop} {xs : List (ℕ × β)}
    (hsame : ∀ p, (ofThread p xs).Pairwise fun x y => R (p, x) (p, y))
    (hother : ∀ e ∈ xs, ∀ f ∈ xs, e.1 ≠ f.1 → R e f) : xs.Pairwise R := by
  induction xs with
  | nil => exact List.Pairwise.nil
  | cons x xs ih =>
    refine List.Pairwise.cons (fun y hy => ?_) (ih (fun p => ?_) fun e he f hf =>
      hother e (List.mem_cons_of_mem x he) f (List.mem_cons_of_mem x hf))
    · obtain ⟨p, x⟩ := x
      obtain ⟨q, y⟩ := y
      by_cases hpq : p = q
      · subst hpq
        have hhead := hsame p
        rw [ofThread_self, List.pairwise_cons] at hhead
        exact hhead.1 y (mem_ofThread.mpr hy)
      · exact hother (p, x) List.mem_cons_self (q, y) (List.mem_cons_of_mem _ hy) hpq
    · refine (hsame p).sublist ?_
      exact (List.sublist_cons_self x xs).filterMap _

/-- A state that is made of parts: when each of its steps is a step of one part, the parts
run on their own, whatever the order of the steps is. -/
theorem run_parts {τ ε : Type*} {step : ℕ × β → τ → Option τ} {part : ℕ → β → σ → Option σ}
    {ok : ℕ → β → σ → Prop} {emit : ℕ × β → τ → List (ℕ × ε)} {say : ℕ → β → σ → List ε}
    {R : (ℕ → σ) → τ → Prop}
    (hstep : ∀ p b s t u, R s t → ok p b (s p) → part p b (s p) = some u →
      ∃ t', step (p, b) t = some t' ∧ R (Function.update s p u) t' ∧
        emit (p, b) t = (say p b (s p)).map fun x => (p, x))
    {xs : List (ℕ × β)} {s s' : ℕ → σ} {t : τ} (hR : R s t)
    (hok : ∀ p, Along (part p) (ok p) (ofThread p xs) (s p))
    (hrun : ∀ p, run (part p) (ofThread p xs) (s p) = some (s' p)) :
    ∃ t', run step xs t = some t' ∧ R s' t' ∧
      ∀ p, ofThread p (trace step emit xs t) = trace (part p) (say p) (ofThread p xs) (s p) := by
  induction xs generalizing s t with
  | nil =>
    have hs : s = s' := funext fun p => Option.some.inj (hrun p)
    exact ⟨t, rfl, hs ▸ hR, fun p => rfl⟩
  | cons x xs ih =>
    obtain ⟨p, b⟩ := x
    have hp := hrun p
    have hokp := hok p
    rw [ofThread_self] at hp hokp
    obtain ⟨u, hu, hrest⟩ := Option.bind_eq_some_iff.mp hp
    obtain ⟨t₁, ht₁, hR₁, hemit⟩ := hstep p b s t u hR hokp.1 hu
    have hparts : ∀ q, Along (part q) (ok q) (ofThread q xs) (Function.update s p u q) ∧
        run (part q) (ofThread q xs) (Function.update s p u q) = some (s' q) := by
      intro q
      by_cases hq : q = p
      · subst hq
        rw [Function.update_self]
        exact ⟨hokp.2 u hu, hrest⟩
      · rw [Function.update_of_ne hq]
        have hokq := hok q
        have hrunq := hrun q
        rw [ofThread_other (Ne.symm hq)] at hokq hrunq
        exact ⟨hokq, hrunq⟩
    obtain ⟨t', ht', hR', htrace⟩ := ih hR₁ (fun q => (hparts q).1) fun q => (hparts q).2
    refine ⟨t', by rw [run, ht₁]; exact ht', hR', fun q => ?_⟩
    rw [trace, ht₁, hemit, Option.map_some, Option.getD_some, ofThread_append, htrace]
    by_cases hq : q = p
    · subst hq
      rw [ofThread_map, ofThread_self, trace, hu, Function.update_self]
      rfl
    · rw [ofThread_map_other (Ne.symm hq), ofThread_other (Ne.symm hq), Function.update_of_ne hq]
      rfl

def Swaps (I : σ → Prop) (f g : σ → Option σ) : Prop :=
  ∀ s t u, I s → f s = some t → g t = some u → ∃ v, g s = some v ∧ f v = some u

variable {I : σ → Prop}

theorem run_front {α : Type*} {step : α → σ → Option σ} {xs : List α} {f : σ → Option σ}
    (hI : ∀ e ∈ xs, ∀ s s', I s → step e s = some s' → I s') (hf : ∀ e ∈ xs, Swaps I (step e) f)
    {s t u : σ} (hs : I s) (hrun : run step xs s = some t) (hlast : f t = some u) :
    ∃ v, f s = some v ∧ run step xs v = some u := by
  induction xs generalizing s with
  | nil =>
    cases hrun
    exact ⟨u, hlast, rfl⟩
  | cons e xs ih =>
    obtain ⟨s₁, hs₁, hrest⟩ := Option.bind_eq_some_iff.mp hrun
    have hI₁ := hI e List.mem_cons_self s s₁ hs hs₁
    obtain ⟨v₁, hv₁, hrun₁⟩ := ih (fun x hx => hI x (List.mem_cons_of_mem e hx))
      (fun x hx => hf x (List.mem_cons_of_mem e hx)) hI₁ hrest
    obtain ⟨v, hv, hev⟩ := hf e List.mem_cons_self s s₁ v₁ hs hs₁ hv₁
    exact ⟨v, hv, by rw [run, hev]; exact hrun₁⟩

variable {step : ℕ × β → σ → Option σ} (Ok : ℕ × β → Prop) (locked : ℕ × β → Bool)

/-- A sequence may be rearranged as long as the order of each thread and the order of
what is done under the lock stay. -/
theorem run_reorder (hI : ∀ e s s', Ok e → I s → step e s = some s' → I s')
    (hswap : ∀ e f, Ok e → Ok f → e.1 ≠ f.1 → ¬(locked e = true ∧ locked f = true) →
      Swaps I (step e) (step f))
    {xs ys : List (ℕ × β)} (hthreads : ∀ p, ofThread p xs = ofThread p ys)
    (hlocked : xs.filter locked = ys.filter locked) (hok : ∀ e ∈ xs, Ok e) {s t : σ} (hs : I s)
    (hrun : run step xs s = some t) : run step ys s = some t := by
  induction ys generalizing xs s with
  | nil =>
    have hnil : xs = [] := by
      rw [List.eq_nil_iff_forall_not_mem]
      rintro ⟨p, x⟩ hx
      have hmem := mem_ofThread.mpr hx
      rw [hthreads p] at hmem
      cases hmem
    rw [← hrun, hnil]
  | cons y ys ih =>
    obtain ⟨p, y⟩ := y
    -- the first event of its thread has only events of other threads before it
    obtain ⟨before, after, hxs, hbefore⟩ : ∃ before after, xs = before ++ (p, y) :: after ∧
        ofThread p before = [] := by
      have hp := hthreads p
      rw [ofThread_self] at hp
      obtain ⟨before, e, after, hxs, hnone, he, -⟩ := List.filterMap_eq_cons_iff.mp hp
      rw [Option.ite_none_right_eq_some, Option.some.injEq] at he
      obtain ⟨rfl, rfl⟩ := he
      exact ⟨before, after, hxs, List.filterMap_eq_nil_iff.mpr hnone⟩
    subst hxs
    have hother : ∀ e ∈ before, e.1 ≠ p := by
      rintro ⟨q, x⟩ hx rfl
      have hmem := mem_ofThread.mpr hx
      rw [hbefore] at hmem
      cases hmem
    have hfree : locked (p, y) = true → before.filter locked = [] := by
      intro hy
      rw [List.filter_append, List.filter_cons_of_pos hy, List.filter_cons_of_pos hy] at hlocked
      cases hfirst : before.filter locked with
      | nil => rfl
      | cons z zs =>
        rw [hfirst] at hlocked
        have hz : z ∈ before := List.mem_of_mem_filter (hfirst ▸ List.mem_cons_self)
        exact absurd (congrArg Prod.fst (List.cons.inj hlocked).1) (hother z hz)
    have hokb : ∀ e ∈ before, Ok e := fun e he => hok e (List.mem_append_left _ he)
    have hoky : Ok (p, y) := hok _ (List.mem_append_right _ List.mem_cons_self)
    rw [run_append] at hrun
    obtain ⟨s₁, hs₁, hrest⟩ := Option.bind_eq_some_iff.mp hrun
    obtain ⟨s₂, hs₂, hafter⟩ := Option.bind_eq_some_iff.mp hrest
    have hmoves : ∀ e ∈ before, Swaps I (step e) (step (p, y)) := by
      intro e he
      refine hswap e (p, y) (hokb e he) hoky (hother e he) fun hboth => ?_
      have hnil := hfree hboth.2
      rw [List.filter_eq_nil_iff] at hnil
      exact hnil e he hboth.1
    obtain ⟨v, hv, hbefore'⟩ := run_front (fun e he s s' => hI e s s' (hokb e he)) hmoves hs hs₁ hs₂
    have hrun' : run step (before ++ after) v = some t := by
      rw [run_append, hbefore']
      exact hafter
    rw [run, hv]
    refine ih (fun q => ?_) ?_ (fun e he => ?_) (hI _ _ _ hoky hs hv) hrun'
    · have hq := hthreads q
      by_cases hqp : p = q
      · subst hqp
        simpa [hbefore] using hq
      · simpa [ofThread_other hqp] using hq
    · cases hy : locked (p, y)
      · simpa [hy] using hlocked
      · simpa [hy, hfree hy] using hlocked
    · rcases List.mem_append.mp he with he | he
      · exact hokb e he
      · exact hok e (List.mem_append_right _ (List.mem_cons_of_mem _ he))

end Reorder

/-- A statement of a thread, with its actions outside and inside the critical section. -/
inductive Instr (A : Type*)
  | free (a : A)
  | acquire
  | held (a : A)
  | release

namespace Instr

variable {A σ : Type*}

def locked : Instr A → Bool
  | .free _ => false
  | _ => true

def effect (f : A → σ → Option σ) : Instr A → σ → Option σ
  | .free a, s | .held a, s => f a s
  | .acquire, s | .release, s => some s

def ready (holder : Option ℕ) : Instr A → Bool
  | .acquire => holder.isNone
  | _ => true

def holderAfter (p : ℕ) (holder : Option ℕ) : Instr A → Option ℕ
  | .acquire => some p
  | .release => none
  | _ => holder

end Instr

variable {A γ σ : Type*}

def critical (as : List A) : List (Instr A) := .acquire :: (as.map .held ++ [.release])

def Guarded (is : List (Instr A)) : Prop :=
  is.filter Instr.locked = [] ∨ ∃ as, is.filter Instr.locked = critical as

theorem guarded_nil : Guarded ([] : List (Instr A)) := .inl rfl

theorem guarded_free (a : A) : Guarded [.free a] := .inl rfl

theorem guarded_critical (as : List A) : Guarded (critical as) := by
  refine .inr ⟨as, List.filter_eq_self.mpr fun i hi => ?_⟩
  simp only [critical, List.mem_cons, List.mem_append, List.mem_map, List.not_mem_nil,
    or_false] at hi
  rcases hi with rfl | ⟨a, -, rfl⟩ | rfl <;> rfl

theorem run_free (f : A → σ → Option σ) (a : A) (s : σ) :
    run (Instr.effect f) [.free a] s = f a s :=
  Option.bind_fun_some (f a s)

theorem run_critical (f : A → σ → Option σ) (as : List A) (s : σ) :
    run (Instr.effect f) (critical as) s = run f as s := by
  have hheld : run (Instr.effect f) (as.map .held) s = run f as s := run_map (fun _ _ => rfl) as s
  rw [critical, run, Instr.effect, Option.bind_some, run_append, hheld]
  exact Option.bind_fun_some _

/-- `rest` is what the threads have left of their current calls, `calls` are the calls that
they have not begun. -/
structure Threads (σ A γ : Type*) where
  shared : σ
  holder : Option ℕ
  rest : ℕ → List (Instr A)
  calls : ℕ → List γ

def startThreads (s : σ) (program : ℕ → List γ) : Threads σ A γ :=
  { shared := s, holder := none, rest := fun _ => [], calls := program }

def Finished (t : Threads σ A γ) : Prop := ∀ p, t.rest p = [] ∧ t.calls p = []

section Fire

variable (eff : ℕ → A → σ → Option σ) (code : ℕ → γ → σ → List (Instr A))

/-- The next statement of thread `p`; a call is expanded when it begins. -/
def fireThread (p : ℕ) (t : Threads σ A γ) : Option (Threads σ A γ) :=
  match t.rest p with
  | [] =>
    match t.calls p with
    | [] => none
    | c :: cs => some { t with
        rest := Function.update t.rest p (code p c t.shared)
        calls := Function.update t.calls p cs }
  | i :: is =>
    if i.ready t.holder then
      (i.effect (eff p) t.shared).map fun s =>
        { t with
          shared := s
          holder := i.holderAfter p t.holder
          rest := Function.update t.rest p is }
    else none

def atomically (e : ℕ × γ) (s : σ) : Option σ :=
  run (Instr.effect (eff e.1)) (code e.1 e.2 s) s

end Fire

/-- `start` notes how a call was expanded. -/
inductive Event (A γ : Type*)
  | start (c : γ) (is : List (Instr A))
  | instr (i : Instr A)

def Event.locked : Event A γ → Bool
  | .start .. => false
  | .instr i => i.locked

def Event.call (x : γ × List (Instr A)) : List (Event A γ) := .start x.1 x.2 :: x.2.map .instr

def tagged (e : ℕ × γ × List (Instr A)) : List (ℕ × Event A γ) :=
  (Event.call e.2).map fun x => (e.1, x)

theorem ofThread_tagged (p : ℕ) (order : List (ℕ × γ × List (Instr A))) :
    ofThread p (order.flatMap tagged) = (ofThread p order).flatMap Event.call := by
  induction order with
  | nil => rfl
  | cons e order ih =>
    obtain ⟨q, x⟩ := e
    rw [List.flatMap_cons, ofThread_append, ih]
    by_cases hq : q = p
    · subst hq
      rw [ofThread_self, List.flatMap_cons, tagged, ofThread_map]
    · rw [ofThread_other hq, tagged, ofThread_map_other hq, List.nil_append]

theorem call_locked (x : γ × List (Instr A)) :
    (Event.call x).filter Event.locked = (x.2.filter Instr.locked).map .instr := by
  rw [Event.call, List.filter_cons_of_neg (by simp [Event.locked]), List.filter_map]
  rfl

theorem tagged_locked (e : ℕ × γ × List (Instr A)) :
    (tagged e).filter (fun x => x.2.locked) =
      (e.2.2.filter Instr.locked).map fun i => (e.1, .instr i) := by
  rw [tagged, List.filter_map]
  show ((Event.call e.2).filter Event.locked).map _ = _
  rw [call_locked, List.map_map]
  rfl

section Run

variable (eff : ℕ → A → σ → Option σ) (code : ℕ → γ → σ → List (Instr A))

def firedEvents (p : ℕ) (t : Threads σ A γ) : List (ℕ × Event A γ) :=
  match t.rest p, t.calls p with
  | i :: _, _ => [(p, .instr i)]
  | [], c :: _ => [(p, .start c (code p c t.shared))]
  | [], [] => []

open Classical in
noncomputable def perform (e : ℕ × Event A γ) (s : σ) : Option σ :=
  match e.2 with
  | .start c is => if code e.1 c s = is then some s else none
  | .instr i => i.effect (eff e.1) s

variable {eff code}

theorem fire_cases {p : ℕ} {t t' : Threads σ A γ} (h : fireThread eff code p t = some t') :
    (∃ c cs, t.rest p = [] ∧ t.calls p = c :: cs ∧
      firedEvents code p t = [(p, .start c (code p c t.shared))] ∧
      t' = { t with
        rest := Function.update t.rest p (code p c t.shared)
        calls := Function.update t.calls p cs }) ∨
    ∃ i is s, t.rest p = i :: is ∧ firedEvents code p t = [(p, .instr i)] ∧
      i.ready t.holder = true ∧ i.effect (eff p) t.shared = some s ∧
      t' = { t with
        shared := s
        holder := i.holderAfter p t.holder
        rest := Function.update t.rest p is } := by
  simp only [fireThread] at h
  split at h
  · rename_i hrest
    split at h
    · cases h
    · rename_i c cs hcalls
      cases h
      exact .inl ⟨c, cs, hrest, hcalls, by simp only [firedEvents, hrest, hcalls], rfl⟩
  · rename_i i is hrest
    split at h
    · rename_i hready
      obtain ⟨s, hs, rfl⟩ := Option.map_eq_some_iff.mp h
      exact .inr ⟨i, is, s, hrest, by simp only [firedEvents, hrest], hready, hs, rfl⟩
    · cases h

theorem fire_performs {p : ℕ} {t t' : Threads σ A γ} (h : fireThread eff code p t = some t') :
    run (perform eff code) (firedEvents code p t) t.shared = some t'.shared := by
  rcases fire_cases h with ⟨c, cs, -, -, hemit, rfl⟩ | ⟨i, is, s, -, hemit, -, hs, rfl⟩
  · rw [hemit]
    simp [run, perform]
  · rw [hemit]
    simp [run, perform, hs]

theorem run_performs {ps : List ℕ} {t t' : Threads σ A γ}
    (h : run (fireThread eff code) ps t = some t') :
    run (perform eff code) (trace (fireThread eff code) (firedEvents code) ps t) t.shared =
      some t'.shared := by
  induction ps generalizing t with
  | nil =>
    cases h
    rfl
  | cons p ps ih =>
    obtain ⟨t₁, ht₁, hrest⟩ := Option.bind_eq_some_iff.mp h
    rw [trace, ht₁, Option.map_some, Option.getD_some, run_append, fire_performs ht₁]
    exact ih hrest

theorem run_tagged {order : List (ℕ × γ × List (Instr A))} {s t : σ}
    (h : run (perform eff code) (order.flatMap tagged) s = some t) :
    run (atomically eff code) (order.map fun e => (e.1, e.2.1)) s = some t := by
  induction order generalizing s with
  | nil => exact h
  | cons e order ih =>
    obtain ⟨p, c, is⟩ := e
    rw [List.flatMap_cons, run_append] at h
    obtain ⟨s₁, hs₁, hrest⟩ := Option.bind_eq_some_iff.mp h
    rw [List.map_cons, run]
    refine Option.bind_eq_some_iff.mpr ⟨s₁, ?_, ih hrest⟩
    obtain ⟨s₂, hs₂, his⟩ := Option.bind_eq_some_iff.mp hs₁
    simp only [perform] at hs₂
    split at hs₂
    · rename_i hcode
      cases hs₂
      have hmap : run (perform eff code) (is.map fun i => (p, Event.instr i)) s =
          run (Instr.effect (eff p)) is s :=
        run_map (fun _ _ => rfl) is s
      rw [List.map_map] at his
      rw [atomically, hcode]
      exact hmap.symm.trans his
    · cases hs₂

end Run

/-- `order` are the calls that have passed the start of their critical section, `opened`
those that have not come to it; the holder of the lock has `left` to do inside. -/
structure Serial (program : ℕ → List γ) (xs : List (ℕ × Event A γ))
    (order : List (ℕ × γ × List (Instr A))) (opened : ℕ → List (γ × List (Instr A)))
    (left : List (Instr A)) (t : Threads σ A γ) : Prop where
  begun : ∀ p, (ofThread p order ++ opened p).map Prod.fst ++ t.calls p = program p
  done : ∀ p, ofThread p xs ++ (t.rest p).map .instr =
    (ofThread p order ++ opened p).flatMap Event.call
  coming : ∀ p, (t.rest p).filter Instr.locked =
    (if t.holder = some p then left else []) ++
      (opened p).flatMap fun x => x.2.filter Instr.locked
  inside : xs.filter (fun x => x.2.locked) ++ left.map (fun i => (t.holder.getD 0, .instr i)) =
    (order.flatMap tagged).filter fun x => x.2.locked
  held : (t.holder = none ∧ left = []) ∨
    ∃ p, ∃ as : List A, t.holder = some p ∧ left = as.map .held ++ [.release]
  unentered : ∀ p, ∀ x ∈ opened p, ∃ as, x.2.filter Instr.locked = critical as

theorem filter_tagged_append (order : List (ℕ × γ × List (Instr A))) (e : ℕ × γ × List (Instr A)) :
    ((order ++ [e]).flatMap tagged).filter (fun x => x.2.locked) =
      (order.flatMap tagged).filter (fun x => x.2.locked) ++
        (e.2.2.filter Instr.locked).map fun i => (e.1, .instr i) := by
  rw [List.flatMap_append, List.flatMap_singleton, List.filter_append, tagged_locked]

section Serial

variable {eff : ℕ → A → σ → Option σ} {code : ℕ → γ → σ → List (Instr A)} {program : ℕ → List γ}
  {xs : List (ℕ × Event A γ)} {order : List (ℕ × γ × List (Instr A))}
  {opened : ℕ → List (γ × List (Instr A))} {left : List (Instr A)} {t : Threads σ A γ} {p : ℕ}

theorem opened_nil (h : Serial program xs order opened left t) (hrest : t.rest p = []) :
    opened p = [] ∧ t.holder ≠ some p := by
  have hcoming := h.coming p
  rw [hrest, List.filter_nil, eq_comm, List.append_eq_nil_iff] at hcoming
  constructor
  · rw [List.eq_nil_iff_forall_not_mem]
    intro x hx
    obtain ⟨as, has⟩ := h.unentered p x hx
    have hnil := List.flatMap_eq_nil_iff.mp hcoming.2 x hx
    rw [has] at hnil
    cases hnil
  · intro hp
    have hleft := hcoming.1
    rw [if_pos hp] at hleft
    rcases h.held with ⟨hnone, -⟩ | ⟨q, as, -, has⟩
    · rw [hnone] at hp
      cases hp
    · rw [has] at hleft
      simp at hleft

theorem serial_start (h : Serial program xs order opened left t) (hrest : t.rest p = []) {c : γ}
    {cs : List γ} (hcalls : t.calls p = c :: cs) {is : List (Instr A)} (hg : Guarded is) :
    ∃ order' opened', Serial program (xs ++ [(p, .start c is)]) order' opened' left
      { t with rest := Function.update t.rest p is, calls := Function.update t.calls p cs } := by
  obtain ⟨hopened, hholder⟩ := opened_nil h hrest
  have hbegun := h.begun p
  have hdone := h.done p
  rw [hopened, List.append_nil] at hbegun hdone
  rw [hrest, List.map_nil, List.append_nil] at hdone
  have hlocked : (xs ++ [(p, Event.start c is)]).filter (fun x => x.2.locked) =
      xs.filter fun x => x.2.locked := by
    simp [Event.locked]
  rcases hg with hfree | ⟨as, has⟩
  · refine ⟨order ++ [(p, c, is)], opened, fun q => ?_, fun q => ?_, fun q => ?_, ?_, h.held,
      h.unentered⟩
    · by_cases hq : p = q
      · subst hq
        simp only [hopened, ofThread_append, ofThread_self, ofThread_nil, List.append_nil,
          Function.update_self, ← hbegun, hcalls]
        simp
      · simp only [ofThread_append, ofThread_other hq, ofThread_nil, List.append_nil,
          Function.update_of_ne (Ne.symm hq)]
        exact h.begun q
    · by_cases hq : p = q
      · subst hq
        simp only [hopened, ofThread_append, ofThread_self, ofThread_nil, List.append_nil,
          Function.update_self, hdone, List.flatMap_append, List.flatMap_singleton, Event.call]
        simp
      · simp only [ofThread_append, ofThread_other hq, ofThread_nil, List.append_nil,
          Function.update_of_ne (Ne.symm hq)]
        exact h.done q
    · by_cases hq : p = q
      · subst hq
        simp [hopened, hfree, hholder]
      · simp only [Function.update_of_ne (Ne.symm hq)]
        exact h.coming q
    · rw [hlocked, filter_tagged_append, hfree, List.map_nil, List.append_nil]
      exact h.inside
  · refine ⟨order, Function.update opened p [(c, is)], fun q => ?_, fun q => ?_, fun q => ?_, ?_,
      h.held, fun q x hx => ?_⟩
    · by_cases hq : p = q
      · subst hq
        simp only [Function.update_self, ← hbegun, hcalls]
        simp
      · simp only [Function.update_of_ne (Ne.symm hq)]
        exact h.begun q
    · by_cases hq : p = q
      · subst hq
        simp only [ofThread_append, ofThread_self, ofThread_nil, Function.update_self, hdone,
          List.flatMap_append, List.flatMap_singleton, Event.call]
        simp
      · simp only [ofThread_append, ofThread_other hq, ofThread_nil, List.append_nil,
          Function.update_of_ne (Ne.symm hq)]
        exact h.done q
    · by_cases hq : p = q
      · subst hq
        simp [hholder]
      · simp only [Function.update_of_ne (Ne.symm hq)]
        exact h.coming q
    · rw [hlocked]
      exact h.inside
    · by_cases hq : p = q
      · subst hq
        rw [Function.update_self, List.mem_singleton] at hx
        exact ⟨as, by rw [hx]; exact has⟩
      · rw [Function.update_of_ne (Ne.symm hq)] at hx
        exact h.unentered q x hx

theorem opened_head (h : Serial program xs order opened left t) {i : Instr A} {is : List (Instr A)}
    (hhead : ((opened p).flatMap fun x => x.2.filter Instr.locked) = i :: is) :
    ∃ x more as, opened p = x :: more ∧ x.2.filter Instr.locked = critical as ∧ i = .acquire ∧
      is = as.map .held ++ [.release] ++ more.flatMap fun x => x.2.filter Instr.locked := by
  have hun := h.unentered p
  cases hopen : opened p with
  | nil =>
    rw [hopen] at hhead
    cases hhead
  | cons x more =>
    obtain ⟨as, has⟩ := hun x (hopen ▸ List.mem_cons_self)
    rw [hopen, List.flatMap_cons, has, critical, List.cons_append, List.cons.injEq] at hhead
    exact ⟨x, more, as, rfl, has, hhead.1.symm, hhead.2.symm⟩

theorem holder_of_inside (h : Serial program xs order opened left t) {i : Instr A}
    {is : List (Instr A)} (hrest : t.rest p = i :: is) (hi : i.locked = true) (hne : i ≠ .acquire) :
    t.holder = some p ∧ ∃ l, left = i :: l ∧
      is.filter Instr.locked = l ++ (opened p).flatMap fun x => x.2.filter Instr.locked := by
  have hcoming := h.coming p
  rw [hrest, List.filter_cons_of_pos hi] at hcoming
  by_cases hp : t.holder = some p
  · rw [if_pos hp] at hcoming
    rcases h.held with ⟨hnone, -⟩ | ⟨q, as, -, has⟩
    · rw [hnone] at hp
      cases hp
    · cases hleft : left with
      | nil =>
        rw [hleft] at has
        simp at has
      | cons j l =>
        rw [hleft, List.cons_append, List.cons.injEq] at hcoming
        exact ⟨hp, l, by rw [hcoming.1], hcoming.2⟩
  · rw [if_neg hp, List.nil_append] at hcoming
    obtain ⟨-, -, -, -, -, hacq, -⟩ := opened_head h hcoming.symm
    exact absurd hacq hne

theorem done_shift (h : Serial program xs order opened left t) {i : Instr A} {is : List (Instr A)}
    (hrest : t.rest p = i :: is) (q : ℕ) :
    ofThread q (xs ++ [(p, .instr i)]) ++ (Function.update t.rest p is q).map .instr =
      (ofThread q order ++ opened q).flatMap Event.call := by
  have hdone := h.done q
  by_cases hq : p = q
  · subst hq
    rw [hrest] at hdone
    rw [ofThread_append, ofThread_self, ofThread_nil, Function.update_self, List.append_assoc]
    exact hdone
  · rw [ofThread_append, ofThread_other hq, ofThread_nil, List.append_nil,
      Function.update_of_ne (Ne.symm hq)]
    exact hdone

theorem filter_event (i : Instr A) :
    (xs ++ [(p, Event.instr i)]).filter (fun x => x.2.locked) =
      xs.filter (fun x => x.2.locked) ++ if i.locked then [(p, .instr i)] else [] := by
  rw [List.filter_append]
  cases hi : i.locked <;> simp [Event.locked, hi]

theorem serial_free (h : Serial program xs order opened left t) {a : A} {is : List (Instr A)}
    (hrest : t.rest p = .free a :: is) (s : σ) :
    Serial program (xs ++ [(p, .instr (.free a))]) order opened left
      { t with shared := s, rest := Function.update t.rest p is } := by
  refine ⟨h.begun, done_shift h hrest, fun q => ?_, ?_, h.held, h.unentered⟩
  · have hcoming := h.coming q
    dsimp only
    by_cases hq : p = q
    · subst hq
      rw [hrest, List.filter_cons_of_neg (by simp [Instr.locked])] at hcoming
      rw [Function.update_self]
      exact hcoming
    · rw [Function.update_of_ne (Ne.symm hq)]
      exact hcoming
  · rw [filter_event, Instr.locked, if_neg Bool.false_ne_true, List.append_nil]
    exact h.inside

theorem serial_acquire (h : Serial program xs order opened left t) {is : List (Instr A)}
    (hrest : t.rest p = .acquire :: is) (hnone : t.holder = none) (s : σ) :
    ∃ order' opened' left', Serial program (xs ++ [(p, .instr .acquire)]) order' opened' left'
      { t with shared := s, holder := some p, rest := Function.update t.rest p is } := by
  have hfirst := h.coming p
  have hleft : left = [] := by
    rcases h.held with ⟨-, hleft⟩ | ⟨q, as, hq, -⟩
    · exact hleft
    · rw [hnone] at hq
      cases hq
  rw [hrest, List.filter_cons_of_pos rfl, hnone, if_neg (by simp), List.nil_append] at hfirst
  obtain ⟨x, more, as, hopened, has, -, his⟩ := opened_head h hfirst.symm
  refine ⟨order ++ [(p, x)], Function.update opened p more, as.map .held ++ [.release],
    fun q => ?_, fun q => ?_, fun q => ?_, ?_, .inr ⟨p, as, rfl, rfl⟩, fun q y hy => ?_⟩
  · have hbegun := h.begun q
    by_cases hq : p = q
    · subst hq
      rw [hopened] at hbegun
      rw [← hbegun, ofThread_append, ofThread_self, ofThread_nil, Function.update_self]
      simp
    · rw [ofThread_append, ofThread_other hq, ofThread_nil, List.append_nil,
        Function.update_of_ne (Ne.symm hq)]
      exact hbegun
  · rw [done_shift h hrest q]
    by_cases hq : p = q
    · subst hq
      rw [hopened, ofThread_append, ofThread_self, ofThread_nil, Function.update_self]
      simp
    · rw [ofThread_append, ofThread_other hq, ofThread_nil, List.append_nil,
        Function.update_of_ne (Ne.symm hq)]
  · have hcoming := h.coming q
    dsimp only
    by_cases hq : p = q
    · subst hq
      rw [Function.update_self, Function.update_self, if_pos rfl]
      exact his
    · rw [hnone, if_neg (by simp)] at hcoming
      rw [Function.update_of_ne (Ne.symm hq), Function.update_of_ne (Ne.symm hq),
        if_neg (by simpa using hq)]
      exact hcoming
  · have hinside := h.inside
    rw [hleft, List.map_nil, List.append_nil] at hinside
    rw [filter_event, filter_tagged_append, hinside, has]
    simp [Instr.locked, critical]
  · by_cases hq : p = q
    · subst hq
      rw [Function.update_self] at hy
      exact h.unentered p y (hopened ▸ List.mem_cons_of_mem x hy)
    · rw [Function.update_of_ne (Ne.symm hq)] at hy
      exact h.unentered q y hy

theorem serial_held (h : Serial program xs order opened left t) {a : A} {is : List (Instr A)}
    (hrest : t.rest p = .held a :: is) (s : σ) :
    ∃ left', Serial program (xs ++ [(p, .instr (.held a))]) order opened left'
      { t with shared := s, rest := Function.update t.rest p is } := by
  obtain ⟨hp, l, hleft, his⟩ := holder_of_inside h hrest rfl (by simp)
  refine ⟨l, h.begun, done_shift h hrest, fun q => ?_, ?_, ?_, h.unentered⟩
  · have hcoming := h.coming q
    dsimp only
    by_cases hq : p = q
    · subst hq
      rw [Function.update_self, if_pos hp]
      exact his
    · rw [hp, if_neg (by simpa using hq)] at hcoming
      rw [Function.update_of_ne (Ne.symm hq), hp, if_neg (by simpa using hq)]
      exact hcoming
  · have hinside := h.inside
    rw [hleft, hp] at hinside
    rw [filter_event, ← hinside, hp]
    simp [Instr.locked]
  · rcases h.held with ⟨hnone, -⟩ | ⟨q, as, hq, has⟩
    · rw [hnone] at hp
      cases hp
    · rw [hleft] at has
      cases as with
      | nil => simp at has
      | cons b as =>
        rw [List.map_cons, List.cons_append, List.cons.injEq] at has
        exact .inr ⟨q, as, hq, has.2⟩

theorem serial_release (h : Serial program xs order opened left t) {is : List (Instr A)}
    (hrest : t.rest p = .release :: is) (s : σ) :
    Serial program (xs ++ [(p, .instr .release)]) order opened []
      { t with shared := s, holder := none, rest := Function.update t.rest p is } := by
  obtain ⟨hp, l, hleft, his⟩ := holder_of_inside h hrest rfl (by simp)
  have hl : l = [] := by
    rcases h.held with ⟨hnone, -⟩ | ⟨q, as, -, has⟩
    · rw [hnone] at hp
      cases hp
    · rw [hleft] at has
      cases as with
      | nil => simpa using has
      | cons b as => simp at has
  refine ⟨h.begun, done_shift h hrest, fun q => ?_, ?_, .inl ⟨rfl, rfl⟩, h.unentered⟩
  · have hcoming := h.coming q
    dsimp only
    rw [if_neg (by simp)]
    by_cases hq : p = q
    · subst hq
      rw [Function.update_self, his, hl]
    · rw [hp, if_neg (by simpa using hq)] at hcoming
      rw [Function.update_of_ne (Ne.symm hq)]
      exact hcoming
  · have hinside := h.inside
    rw [hleft, hp, hl] at hinside
    rw [filter_event, ← hinside]
    simp [Instr.locked]

theorem serial_fire (hg : ∀ p c s, Guarded (code p c s)) (h : Serial program xs order opened left t)
    {t' : Threads σ A γ} (hfire : fireThread eff code p t = some t') :
    ∃ order' opened' left',
      Serial program (xs ++ firedEvents code p t) order' opened' left' t' := by
  rcases fire_cases hfire with ⟨c, cs, hrest, hcalls, hemit, rfl⟩ |
    ⟨i, is, s, hrest, hemit, hready, -, rfl⟩
  · rw [hemit]
    obtain ⟨order', opened', h'⟩ := serial_start h hrest hcalls (hg p c t.shared)
    exact ⟨order', opened', left, h'⟩
  · rw [hemit]
    cases i with
    | free a => exact ⟨_, _, _, serial_free h hrest s⟩
    | acquire => exact serial_acquire h hrest (by simpa [Instr.ready] using hready) s
    | held a =>
      obtain ⟨left', h'⟩ := serial_held h hrest s
      exact ⟨_, _, left', h'⟩
    | release => exact ⟨_, _, _, serial_release h hrest s⟩

theorem serial_run (hg : ∀ p c s, Guarded (code p c s)) {ps : List ℕ} {t' : Threads σ A γ}
    (h : Serial program xs order opened left t) (hrun : run (fireThread eff code) ps t = some t') :
    ∃ order' opened' left',
      Serial program (xs ++ trace (fireThread eff code) (firedEvents code) ps t) order' opened'
        left'
        t' := by
  induction ps generalizing xs order opened left t with
  | nil =>
    cases hrun
    exact ⟨order, opened, left, by rw [trace, List.append_nil]; exact h⟩
  | cons p ps ih =>
    obtain ⟨t₁, ht₁, hrest⟩ := Option.bind_eq_some_iff.mp hrun
    obtain ⟨order₁, opened₁, left₁, h₁⟩ := serial_fire hg h ht₁
    rw [trace, ht₁, Option.map_some, Option.getD_some, ← List.append_assoc]
    exact ih h₁ hrest

theorem serial_init (s : σ) (program : ℕ → List γ) :
    Serial program ([] : List (ℕ × Event A γ)) [] (fun _ => []) [] (startThreads s program) :=
  ⟨fun _ => rfl, fun _ => rfl, fun _ => by simp [startThreads], rfl, .inl ⟨rfl, rfl⟩, by simp⟩

end Serial

/-- `I` holds of the shared state, `Ok` are the statements and `Admits` the calls of a
thread. A statement outside the lock changes places with those of other threads, which
also leave the expansion of a call alone. -/
structure Disciplined (eff : ℕ → A → σ → Option σ) (code : ℕ → γ → σ → List (Instr A))
    (I : σ → Prop) (Ok : ℕ → Instr A → Prop) (Admits : ℕ → γ → Prop) : Prop where
  guarded : ∀ p c s, Guarded (code p c s)
  admitted : ∀ {p c s}, Admits p c → I s → ∀ i ∈ code p c s, Ok p i
  keeps : ∀ {p i s s'}, Ok p i → I s → i.effect (eff p) s = some s' → I s'
  stable : ∀ {p q c i s s'}, p ≠ q → Admits p c → Ok q i → I s → i.effect (eff q) s = some s' →
    code p c s' = code p c s
  swaps : ∀ {p q a i}, p ≠ q → Ok p (.free a) → Ok q i →
    Swaps I (eff p a) (i.effect (eff q)) ∧ Swaps I (i.effect (eff q)) (eff p a)

section Disciplined

variable {eff : ℕ → A → σ → Option σ} {code : ℕ → γ → σ → List (Instr A)} {I : σ → Prop}
  {Ok : ℕ → Instr A → Prop} {Admits : ℕ → γ → Prop}

def OkEvent (Ok : ℕ → Instr A → Prop) (Admits : ℕ → γ → Prop) (e : ℕ × Event A γ) : Prop :=
  match e.2 with
  | .start c _ => Admits e.1 c
  | .instr i => Ok e.1 i

theorem swaps_start (h : Disciplined eff code I Ok Admits) {p : ℕ} {c : γ} {is : List (Instr A)}
    (hc : Admits p c) {e : ℕ × Event A γ} (hok : OkEvent Ok Admits e) (hne : p ≠ e.1) :
    Swaps I (perform eff code (p, .start c is)) (perform eff code e) ∧
      Swaps I (perform eff code e) (perform eff code (p, .start c is)) := by
  have hstart : ∀ s t : σ, perform eff code (p, .start c is) s = some t →
      s = t ∧ code p c s = is := by
    intro s t hs
    simp only [perform] at hs
    split at hs
    · exact ⟨Option.some.inj hs, ‹_›⟩
    · cases hs
  have hcode : ∀ s t : σ, I s → perform eff code e s = some t → code p c t = code p c s := by
    intro s t hI hs
    obtain ⟨q, e⟩ := e
    cases e with
    | start d js =>
      simp only [perform] at hs
      split at hs
      · rw [Option.some.inj hs]
      · cases hs
    | instr i => exact h.stable hne hc hok hI hs
  constructor
  · intro s t u hI hs ht
    obtain ⟨rfl, his⟩ := hstart s t hs
    exact ⟨u, ht, by simp [perform, hcode _ _ hI ht, his]⟩
  · intro s t u hI hs ht
    obtain ⟨rfl, his⟩ := hstart t u ht
    rw [hcode _ _ hI hs] at his
    exact ⟨s, by simp [perform, his], hs⟩

theorem swaps_skip {f g : σ → Option σ} (hf : ∀ s, f s = some s) : Swaps I f g ∧ Swaps I g f := by
  constructor
  · intro s t u _ hs ht
    cases (hf s).symm.trans hs
    exact ⟨u, ht, hf u⟩
  · intro s t u _ hs ht
    cases (hf t).symm.trans ht
    exact ⟨s, hf s, hs⟩

theorem swaps_events (h : Disciplined eff code I Ok Admits) {e f : ℕ × Event A γ}
    (he : OkEvent Ok Admits e) (hf : OkEvent Ok Admits f) (hne : e.1 ≠ f.1)
    (hfree : ¬(e.2.locked = true ∧ f.2.locked = true)) :
    Swaps I (perform eff code e) (perform eff code f) := by
  obtain ⟨p, e⟩ := e
  obtain ⟨q, f⟩ := f
  cases e with
  | start c is => exact (swaps_start h he hf hne).1
  | instr i =>
    cases f with
    | start c is => exact (swaps_start h hf he (Ne.symm hne)).2
    | instr j =>
      cases i with
      | free a => exact (h.swaps hne he hf).1
      | acquire | release => exact (swaps_skip fun _ => rfl).1
      | held a =>
        cases j with
        | free b => exact (h.swaps (Ne.symm hne) hf he).2
        | acquire | release => exact (swaps_skip fun _ => rfl).2
        | held b => exact absurd ⟨rfl, rfl⟩ hfree

structure Allowed (I : σ → Prop) (Ok : ℕ → Instr A → Prop) (Admits : ℕ → γ → Prop)
    (t : Threads σ A γ) : Prop where
  shared : I t.shared
  rest : ∀ p, ∀ i ∈ t.rest p, Ok p i
  calls : ∀ p, ∀ c ∈ t.calls p, Admits p c

theorem fire_allowed (h : Disciplined eff code I Ok Admits) {p : ℕ} {t t' : Threads σ A γ}
    (ht : Allowed I Ok Admits t) (hfire : fireThread eff code p t = some t') :
    Allowed I Ok Admits t' ∧ ∀ e ∈ firedEvents code p t, OkEvent Ok Admits e := by
  rcases fire_cases hfire with ⟨c, cs, hrest, hcalls, hemit, rfl⟩ |
    ⟨i, is, s, hrest, hemit, -, hs, rfl⟩
  · have hc : Admits p c := ht.calls p c (hcalls ▸ List.mem_cons_self)
    refine ⟨⟨ht.shared, fun q => ?_, fun q => ?_⟩, fun e he => ?_⟩
    · by_cases hq : p = q
      · subst hq
        simp only [Function.update_self]
        exact h.admitted hc ht.shared
      · simp only [Function.update_of_ne (Ne.symm hq)]
        exact ht.rest q
    · by_cases hq : p = q
      · subst hq
        simp only [Function.update_self]
        exact fun d hd => ht.calls p d (hcalls ▸ List.mem_cons_of_mem c hd)
      · simp only [Function.update_of_ne (Ne.symm hq)]
        exact ht.calls q
    · rw [hemit, List.mem_singleton] at he
      rw [he]
      exact hc
  · have hi : Ok p i := ht.rest p i (hrest ▸ List.mem_cons_self)
    refine ⟨⟨h.keeps hi ht.shared hs, fun q => ?_, ht.calls⟩, fun e he => ?_⟩
    · by_cases hq : p = q
      · subst hq
        simp only [Function.update_self]
        exact fun j hj => ht.rest p j (hrest ▸ List.mem_cons_of_mem i hj)
      · simp only [Function.update_of_ne (Ne.symm hq)]
        exact ht.rest q
    · rw [hemit, List.mem_singleton] at he
      rw [he]
      exact hi

theorem run_allowed (h : Disciplined eff code I Ok Admits) {ps : List ℕ} {t t' : Threads σ A γ}
    (ht : Allowed I Ok Admits t) (hrun : run (fireThread eff code) ps t = some t') :
    ∀ e ∈ trace (fireThread eff code) (firedEvents code) ps t, OkEvent Ok Admits e := by
  induction ps generalizing t with
  | nil => simp [trace]
  | cons p ps ih =>
    obtain ⟨t₁, ht₁, hrest⟩ := Option.bind_eq_some_iff.mp hrun
    obtain ⟨hallowed, hemit⟩ := fire_allowed h ht ht₁
    rw [trace, ht₁, Option.map_some, Option.getD_some]
    intro e he
    rcases List.mem_append.mp he with he | he
    · exact hemit e he
    · exact ih hallowed hrest e he

/-- Every interleaving has the result of the calls made one at a time, in an order that
keeps the order of each thread. -/
theorem serializable (h : Disciplined eff code I Ok Admits) {s : σ} (hs : I s)
    {program : ℕ → List γ} (hprogram : ∀ p, ∀ c ∈ program p, Admits p c) {ps : List ℕ}
    {t : Threads σ A γ} (hrun : run (fireThread eff code) ps (startThreads s program) = some t)
    (hfin : Finished t) : ∃ order : List (ℕ × γ), (∀ p, ofThread p order = program p) ∧
      run (atomically eff code) order s = some t.shared := by
  obtain ⟨order, opened, left, hserial⟩ := serial_run h.guarded (serial_init s program) hrun
  rw [List.nil_append] at hserial
  have hopened := fun p => opened_nil hserial (hfin p).1
  have hleft : left = [] := by
    rcases hserial.held with ⟨-, hleft⟩ | ⟨p, -, hp, -⟩
    · exact hleft
    · exact absurd hp (hopened p).2
  have hallowed : Allowed I Ok Admits (startThreads s program : Threads σ A γ) :=
    ⟨hs, fun _ _ hi => absurd hi List.not_mem_nil, hprogram⟩
  refine ⟨order.map fun e => (e.1, e.2.1), fun p => ?_, run_tagged ?_⟩
  · have hbegun := hserial.begun p
    rw [(hopened p).1, (hfin p).2, List.append_nil, List.append_nil] at hbegun
    rw [← hbegun, ofThread, ofThread, List.filterMap_map, List.map_filterMap]
    apply List.filterMap_congr
    intro e _
    by_cases hp : e.1 = p <;> simp [hp]
  · refine run_reorder (OkEvent Ok Admits) (fun e => e.2.locked) ?_
      (fun e f => swaps_events h) (fun p => ?_) ?_ (run_allowed h hallowed hrun) hs
        (run_performs hrun)
    · intro e s s' hok hI hstep
      obtain ⟨p, e⟩ := e
      cases e with
      | start c is =>
        simp only [perform] at hstep
        split at hstep
        · exact Option.some.inj hstep ▸ hI
        · cases hstep
      | instr i => exact h.keeps hok hI hstep
    · have hdone := hserial.done p
      rw [(hopened p).1, (hfin p).1, List.append_nil, List.map_nil, List.append_nil] at hdone
      rw [hdone, ofThread_tagged]
    · have hinside := hserial.inside
      rw [hleft, List.map_nil, List.append_nil] at hinside
      exact hinside

end Disciplined

/-- As long as a thread has something to do, some thread is not stopped by the lock. -/
theorem unblocked {eff : ℕ → A → σ → Option σ} {code : ℕ → γ → σ → List (Instr A)}
    (hg : ∀ p c s, Guarded (code p c s)) {s : σ} {program : ℕ → List γ} {ps : List ℕ}
    {t : Threads σ A γ} (hrun : run (fireThread eff code) ps (startThreads s program) = some t)
    (hfin : ¬Finished t) : ∃ p, (fireThread eff code p t).isSome ∨
      ∃ i is, t.rest p = i :: is ∧ i.effect (eff p) t.shared = none := by
  obtain ⟨order, opened, left, hserial⟩ := serial_run hg (serial_init s program) hrun
  have hready : ∀ p i is, t.rest p = i :: is → i.ready t.holder = true →
      ∃ p, (fireThread eff code p t).isSome ∨
        ∃ i is, t.rest p = i :: is ∧ i.effect (eff p) t.shared = none := by
    intro p i is hrest hi
    cases heff : i.effect (eff p) t.shared with
    | none => exact ⟨p, .inr ⟨i, is, hrest, heff⟩⟩
    | some s => exact ⟨p, .inl (by simp [fireThread, hrest, hi, heff])⟩
  rcases hserial.held with ⟨hnone, -⟩ | ⟨p, as, hp, hleft⟩
  · obtain ⟨p, hp⟩ := not_forall.mp hfin
    cases hrest : t.rest p with
    | cons i is =>
      refine hready p i is hrest ?_
      rw [hnone]
      cases i <;> rfl
    | nil =>
      cases hcalls : t.calls p with
      | nil => exact absurd ⟨hrest, hcalls⟩ hp
      | cons c cs => exact ⟨p, .inl (by simp [fireThread, hrest, hcalls])⟩
  · -- the holder has the end of its critical section before it
    have hcoming := hserial.coming p
    rw [if_pos hp, hleft] at hcoming
    cases hrest : t.rest p with
    | nil =>
      rw [hrest] at hcoming
      simp at hcoming
    | cons i is =>
      refine hready p i is hrest ?_
      cases i with
      | free | held | release => rfl
      | acquire =>
        rw [hrest, List.filter_cons_of_pos rfl] at hcoming
        cases as <;> simp at hcoming

end BspOnMpi.Lib
