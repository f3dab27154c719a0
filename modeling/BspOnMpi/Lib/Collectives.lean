import BspOnMpi.Lib.Schedules
import Mathlib.Logic.Function.Basic

/-! Parties that meet in collectives. `n` parties run on their own between collective operations.
A party that enters a collective posts its contribution; it leaves once the parties that it needs
have posted theirs, so others may be further or have not come yet. The steps of different parties
commute, and a run in lock step is one of the schedules. -/

namespace BspOnMpi.Lib

/-- What a party does next. `resume` is given the contributions of the needed parties,
and is undefined when they belong to another collective. -/
inductive Move (σ γ : Type*)
  | silent (s : σ)
  | collective (c : γ) (needs : ℕ → Bool) (resume : (ℕ → Option γ) → Option σ)
  | halt

structure Party (σ γ : Type*) where
  state : σ
  posted : List γ
  done : ℕ

variable {σ γ : Type*} (n : ℕ) (next : ℕ → σ → Move σ γ)

def received (needs : ℕ → Bool) (k : ℕ) (c : ℕ → Party σ γ) (q : ℕ) : Option γ :=
  if q < n ∧ needs q then (c q).posted[k]? else none

def act (p : ℕ) (c : ℕ → Party σ γ) : Option (Party σ γ) :=
  let a := c p
  match next p a.state with
  | .silent s => some { a with state := s }
  | .collective x needs resume =>
    if a.posted.length = a.done then some { a with posted := a.posted ++ [x] }
    else if ∀ q < n, needs q → a.done < (c q).posted.length then
      (resume (received n needs a.done c)).map fun s => { a with state := s, done := a.done + 1 }
    else none
  | .halt => none

def fire (p : ℕ) (c : ℕ → Party σ γ) : Option (ℕ → Party σ γ) :=
  if p < n then (act n next p c).map (Function.update c p) else none

variable {n next} {c c' : ℕ → Party σ γ} {p q : ℕ}

def Extends (n : ℕ) (c c' : ℕ → Party σ γ) : Prop := ∀ q < n, (c q).posted <+: (c' q).posted

theorem act_posted {a : Party σ γ} (h : act n next p c = some a) : (c p).posted <+: a.posted := by
  simp only [act] at h
  split at h
  · cases h
    exact List.prefix_refl _
  · split at h
    · cases h
      exact List.prefix_append _ _
    · split at h
      · obtain ⟨s, -, rfl⟩ := Option.map_eq_some_iff.mp h
        exact List.prefix_refl _
      · cases h
  · cases h

theorem extends_update {a : Party σ γ} (h : (c p).posted <+: a.posted) :
    Extends n c (Function.update c p a) := by
  intro q _
  by_cases hqp : q = p
  · subst hqp
    rw [Function.update_self]
    exact h
  · simp [hqp]

theorem act_stable (hp : c' p = c p) (hext : Extends n c c') {a : Party σ γ}
    (h : act n next p c = some a) : act n next p c' = some a := by
  simp only [act, hp] at h ⊢
  split at h
  · exact h
  · split at h
    · rw [if_pos ‹_›]
      exact h
    · split at h
      · rename_i x needs resume hmove hposted hneeds
        have hneeds' : ∀ q < n, needs q → (c p).done < (c' q).posted.length := fun q hq hn =>
          Nat.lt_of_lt_of_le (hneeds q hq hn) (hext q hq).length_le
        have hreceived : received n needs (c p).done c' = received n needs (c p).done c := by
          funext q
          simp only [received]
          split
          · rename_i hq
            obtain ⟨more, hmore⟩ := hext q hq.1
            rw [← hmore, List.getElem?_append_left (hneeds q hq.1 hq.2)]
          · rfl
        rw [if_neg hposted, if_pos hneeds', hreceived]
        exact h
      · cases h
  · cases h

theorem fire_eq_some (h : fire n next p c = some c') :
    p < n ∧ ∃ a, act n next p c = some a ∧ c' = Function.update c p a := by
  rw [fire] at h
  split at h
  · obtain ⟨a, ha, rfl⟩ := Option.map_eq_some_iff.mp h
    exact ⟨‹_›, a, ha, rfl⟩
  · cases h

theorem fire_extends (h : fire n next p c = some c') : Extends n c c' := by
  obtain ⟨-, a, ha, rfl⟩ := fire_eq_some h
  exact extends_update (act_posted ha)

theorem fire_commuting : Commuting (fire (σ := σ) (γ := γ) n next) := by
  intro p q c t u hpq ht hu
  obtain ⟨hp, a, ha, rfl⟩ := fire_eq_some ht
  obtain ⟨hq, b, hb, rfl⟩ := fire_eq_some hu
  have hb' := act_stable (Function.update_of_ne (Ne.symm hpq) a c)
    (extends_update (n := n) (act_posted ha)) hb
  have ha' := act_stable (Function.update_of_ne hpq b c) (extends_update (n := n) (act_posted hb))
    ha
  refine ⟨Function.update (Function.update c p a) q b, ?_, ?_⟩
  · rw [fire, if_pos hq, hb']
    rfl
  · rw [fire, if_pos hp, ha', Function.update_comm hpq]
    rfl

theorem run_extends {ps : List ℕ} (h : run (fire n next) ps c = some c') : Extends n c c' :=
  run_preserves (I := Extends n c)
    (fun _ _ _ _ hext hs q hq => (hext q hq).trans (fire_extends hs q hq)) h
    fun _ _ => List.prefix_refl _

theorem sweep {sched : ℕ → List ℕ} {x : ℕ → Party σ γ}
    (hext : ∀ p < n, (c p).posted <+: (x p).posted)
    (h : ∀ p < n, ∀ c', c' p = c p → Extends n c c' →
      run (fire n next) (sched p) c' = some (Function.update c' p (x p))) :
    run (fire n next) ((List.range n).flatMap sched) c =
      some fun p => if p < n then x p else c p := by
  have hprefix : ∀ m ≤ n, run (fire n next) ((List.range m).flatMap sched) c =
      some fun p => if p < m then x p else c p := by
    intro m
    induction m with
    | zero => exact fun _ => rfl
    | succ m ih =>
      intro hm
      have hself : (fun p => if p < m then x p else c p) m = c m := if_neg (Nat.lt_irrefl m)
      have hgrown : Extends n c fun p => if p < m then x p else c p := by
        intro q hq
        show (c q).posted <+: (if q < m then x q else c q).posted
        split
        · exact hext q hq
        · exact List.prefix_refl _
      rw [List.range_succ, List.flatMap_append, List.flatMap_singleton, run_append, ih (by omega),
        Option.bind_some, h m (by omega) _ hself hgrown]
      congr 1
      funext p
      by_cases hp : p = m
      · subst hp
        rw [Function.update_self, if_pos (Nat.lt_succ_self p)]
      · rw [Function.update_of_ne hp]
        simp only [show p < m + 1 ↔ p < m by omega]
  exact hprefix n (Nat.le_refl n)

inductive Silent (next : ℕ → σ → Move σ γ) (p : ℕ) : ℕ → σ → σ → Prop
  | refl (s : σ) : Silent next p 0 s s
  | step {k : ℕ} {s s' t : σ} (h : next p s = .silent s') (hrest : Silent next p k s' t) :
    Silent next p (k + 1) s t

theorem run_silent {k : ℕ} {s t : σ} (h : Silent next p k s t) (hp : p < n) (hs : (c p).state = s) :
    run (fire n next) (List.replicate k p) c =
      some (Function.update c p { c p with state := t }) := by
  induction h generalizing c with
  | refl s =>
    subst hs
    rw [List.replicate_zero, run, Function.update_eq_self]
  | @step k s s' t hmove hrest ih =>
    have hact : act n next p c = some { c p with state := s' } := by
      simp only [act, hs, hmove]
    rw [List.replicate_succ, run, fire, if_pos hp, hact, Option.map_some, Option.bind_some,
      ih (by rw [Function.update_self])]
    simp only [Function.update_self, Function.update_idem]

/-- Everyone below `n` has left the same collectives, and entered no other. -/
def Between (n k : ℕ) (c : ℕ → Party σ γ) : Prop :=
  ∀ p < n, (c p).posted.length = k ∧ (c p).done = k

theorem silent_phase {k : ℕ} (hc : Between n k c) {count : ℕ → ℕ} {s : ℕ → σ}
    (h : ∀ p < n, Silent next p (count p) (c p).state (s p)) :
    ∃ c', run (fire n next) ((List.range n).flatMap fun p => List.replicate (count p) p) c =
      some c' ∧ Between n k c' ∧ ∀ p < n, (c' p).state = s p ∧ (c' p).posted = (c p).posted := by
  have hsweep : run (fire n next) ((List.range n).flatMap fun p => List.replicate (count p) p) c =
      some fun p => if p < n then { c p with state := s p } else c p := by
    refine sweep (fun _ _ => List.prefix_refl _) fun p hp c' hc' _ => ?_
    rw [run_silent (h p hp) hp (by rw [hc']), hc']
  refine ⟨_, hsweep, fun p hp => ?_, fun p hp => ?_⟩
  · simp only [if_pos hp]
    exact hc p hp
  · simp only [if_pos hp, and_self]

theorem each_acts {x : ℕ → Party σ γ} (hext : ∀ p < n, (c p).posted <+: (x p).posted)
    (h : ∀ p < n, ∀ c', c' p = c p → Extends n c c' → act n next p c' = some (x p)) :
    run (fire n next) (List.range n) c = some fun p => if p < n then x p else c p := by
  have hsweep : run (fire n next) ((List.range n).flatMap fun p => [p]) c =
      some fun p => if p < n then x p else c p := by
    refine sweep hext fun p hp c' hc' hgrown => ?_
    rw [run, fire, if_pos hp, h p hp c' hc' hgrown]
    rfl
  rwa [List.flatMap_singleton'] at hsweep

section Exchange

variable {k : ℕ} {x : ℕ → γ} {needs : ℕ → ℕ → Bool} {resume : ℕ → (ℕ → Option γ) → Option σ}

theorem all_enter (hc : Between n k c)
    (hmove : ∀ p < n, next p (c p).state = .collective (x p) (needs p) (resume p)) :
    run (fire n next) (List.range n) c = some fun p =>
      if p < n then { c p with posted := (c p).posted ++ [x p] } else c p := by
  refine each_acts (fun _ _ => List.prefix_append _ _) fun p hp c' hc' _ => ?_
  simp only [act, hc', hmove p hp]
  rw [if_pos ((hc p hp).1.trans (hc p hp).2.symm)]

theorem all_leave {s : ℕ → σ}
    (hmove : ∀ p < n, next p (c p).state = .collective (x p) (needs p) (resume p))
    (hposted : ∀ q < n, (c q).posted.length = k + 1 ∧ (c q).posted[k]? = some (x q))
    (hdone : ∀ q < n, (c q).done = k)
    (hresume : ∀ p < n, resume p (fun q => if q < n ∧ needs p q then some (x q) else none) =
      some (s p)) :
    run (fire n next) (List.range n) c = some fun p =>
      if p < n then { state := s p, posted := (c p).posted, done := k + 1 } else c p := by
  refine each_acts (fun _ _ => List.prefix_refl _) fun p hp c' hc' hext => ?_
  have hlt : ∀ q < n, k < (c q).posted.length := fun q hq => by
    have hlen := (hposted q hq).1
    omega
  have hneeds : ∀ q < n, needs p q → k < (c' q).posted.length := fun q hq _ =>
    Nat.lt_of_lt_of_le (hlt q hq) (hext q hq).length_le
  have hreceived : received n (needs p) k c' =
      fun q => if q < n ∧ needs p q then some (x q) else none := by
    funext q
    simp only [received]
    split
    · rename_i hq
      obtain ⟨more, hmore⟩ := hext q hq.1
      rw [← hmore, List.getElem?_append_left (hlt q hq.1)]
      exact (hposted q hq.1).2
    · rfl
  have hlen := (hposted p hp).1
  simp only [act, hc', hmove p hp, hdone p hp]
  rw [if_neg (by omega), if_pos hneeds, hreceived, hresume p hp]
  rfl

theorem exchange_phase (hc : Between n k c) {s : ℕ → σ}
    (hmove : ∀ p < n, next p (c p).state = .collective (x p) (needs p) (resume p))
    (hresume : ∀ p < n, resume p (fun q => if q < n ∧ needs p q then some (x q) else none) =
      some (s p)) :
    ∃ c', run (fire n next) (List.range n ++ List.range n) c = some c' ∧ Between n (k + 1) c' ∧
      ∀ p < n, (c' p).state = s p ∧ (c' p).posted = (c p).posted ++ [x p] := by
  let c₁ : ℕ → Party σ γ := fun p =>
    if p < n then { c p with posted := (c p).posted ++ [x p] } else c p
  have hc₁ : ∀ p < n, c₁ p = { c p with posted := (c p).posted ++ [x p] } := fun p hp => if_pos hp
  have hposted : ∀ q < n, (c₁ q).posted.length = k + 1 ∧ (c₁ q).posted[k]? = some (x q) := by
    intro q hq
    rw [hc₁ q hq]
    simp [← (hc q hq).1]
  have hmove₁ : ∀ p < n, next p (c₁ p).state = .collective (x p) (needs p) (resume p) :=
    fun p hp => by rw [hc₁ p hp]; exact hmove p hp
  have hdone : ∀ q < n, (c₁ q).done = k := fun q hq => by rw [hc₁ q hq]; exact (hc q hq).2
  have hleave := all_leave hmove₁ hposted hdone hresume
  refine ⟨_, by rw [run_append, all_enter hc hmove]; exact hleave, fun p hp => ?_, fun p hp => ?_⟩
  · simp only [if_pos hp, and_true]
    exact (hposted p hp).1
  · simp only [if_pos hp, hc₁ p hp, and_self]

end Exchange

/-- The parts of the contributions of the needed parties, and `own` for the others. Undefined
when one of them takes part in another collective. -/
def gather {β : Type*} (n : ℕ) (needs : ℕ → Bool) (part : γ → Option β) (own : β)
    (received : ℕ → Option γ) : Option (ℕ → β) :=
  if ∀ p < n, needs p → ((received p).bind part).isSome then
    some fun p => ((received p).bind part).getD own
  else none

theorem gather_eq {β : Type*} {m n : ℕ} (hm : m = n) (needs : ℕ → Bool) (own : β)
    {part : γ → Option β} {x : ℕ → γ} {y : ℕ → β} (h : ∀ p < n, part (x p) = some (y p)) :
    gather m needs part own (fun p => if p < n ∧ needs p then some (x p) else none) =
      some fun p => if p < n ∧ needs p then y p else own := by
  subst hm
  have hall : ∀ p < m, needs p →
      (((if p < m ∧ needs p then some (x p) else none : Option γ)).bind part).isSome := by
    intro p hp hneeds
    simp [hp, hneeds, h]
  rw [gather, if_pos hall]
  congr 1
  funext p
  by_cases hneeds : p < m ∧ needs p
  · simp [hneeds, h p hneeds.1]
  · simp [hneeds]

theorem gather_needed {β : Type*} {m n : ℕ} (hm : m = n) (needs : ℕ → Bool) (own : β)
    {part : γ → Option β} {x : ℕ → γ} {y : ℕ → β} (h : ∀ p < n, part (x p) = some (y p)) :
    ∃ send, gather m needs part own (fun p => if p < n ∧ needs p then some (x p) else none) =
      some send ∧ ∀ p < n, needs p → send p = y p :=
  ⟨_, gather_eq hm needs own h, fun _ hp hneeds => if_pos ⟨hp, hneeds⟩⟩

section Kinds

variable {κ : Type*} (kind : γ → κ)

/-- All parties have left collectives of the kinds `ks` and are at `s`. -/
structure At (n : ℕ) (ks : List κ) (s : ℕ → σ) (c : ℕ → Party σ γ) : Prop where
  between : Between n ks.length c
  state : ∀ p < n, (c p).state = s p
  kinds : ∀ p < n, (c p).posted.map kind = ks

def startParties (s : ℕ → σ) : ℕ → Party σ γ := fun p => { state := s p, posted := [], done := 0 }

def Leads (n : ℕ) (next : ℕ → σ → Move σ γ) (c c' : ℕ → Party σ γ) : Prop :=
  ∃ ps, run (fire n next) ps c = some c'

theorem Leads.trans {c c' c'' : ℕ → Party σ γ} (h : Leads n next c c') (h' : Leads n next c' c'') :
    Leads n next c c'' := by
  obtain ⟨ps, hps⟩ := h
  obtain ⟨qs, hqs⟩ := h'
  exact ⟨ps ++ qs, by rw [run_append, hps]; exact hqs⟩

def Matching (xs ys : List γ) : Prop := xs.map kind <+: ys.map kind ∨ ys.map kind <+: xs.map kind

variable {kind} {ks : List κ} {s s' : ℕ → σ}

theorem start_at (s : ℕ → σ) : At kind n [] s (startParties s : ℕ → Party σ γ) :=
  ⟨fun _ _ => ⟨rfl, rfl⟩, fun _ _ => rfl, fun _ _ => rfl⟩

theorem silent_at (h : At kind n ks s c) {count : ℕ → ℕ}
    (hs : ∀ p < n, Silent next p (count p) (s p) (s' p)) :
    ∃ c', Leads n next c c' ∧ At kind n ks s' c' := by
  obtain ⟨c', hrun, hbetween, hc'⟩ := silent_phase h.between
    fun p hp => by rw [h.state p hp]; exact hs p hp
  refine ⟨c', ⟨_, hrun⟩, hbetween, fun p hp => (hc' p hp).1, fun p hp => ?_⟩
  rw [(hc' p hp).2]
  exact h.kinds p hp

theorem exchange_at (h : At kind n ks s c) {x : ℕ → γ} {needs : ℕ → ℕ → Bool}
    {resume : ℕ → (ℕ → Option γ) → Option σ} {k : κ}
    (hmove : ∀ p < n, next p (s p) = .collective (x p) (needs p) (resume p))
    (hkind : ∀ p < n, kind (x p) = k)
    (hresume : ∀ p < n, resume p (fun q => if q < n ∧ needs p q then some (x q) else none) =
      some (s' p)) : ∃ c', Leads n next c c' ∧ At kind n (ks ++ [k]) s' c' := by
  obtain ⟨c', hrun, hbetween, hc'⟩ := exchange_phase h.between
    (fun p hp => by rw [h.state p hp]; exact hmove p hp) hresume
  refine ⟨c', ⟨_, hrun⟩, ?_, fun p hp => (hc' p hp).1, fun p hp => ?_⟩
  · rw [List.length_append]
    exact hbetween
  · rw [(hc' p hp).2, List.map_append, h.kinds p hp, List.map_singleton, hkind p hp]

theorem At.congr (h : At kind n ks s c) (hs : ∀ p < n, s p = s' p) : At kind n ks s' c :=
  ⟨h.between, fun p hp => (h.state p hp).trans (hs p hp), h.kinds⟩

/-- Where the lock-step schedule ends with all parties halted, every schedule can be completed
to the same end, all of them are of one length, and no two parties are in collectives of
different kinds. -/
theorem schedules_agree {final : ℕ → Party σ γ} (hlead : Leads n next c final)
    (hfinal : At kind n ks s final) (hhalt : ∀ p < n, next p (s p) = .halt) :
    ∃ steps, ∀ ps c', run (fire n next) ps c = some c' →
      (∃ qs c'', (ps ++ qs).length = steps ∧ run (fire n next) qs c' = some c'' ∧
        ∀ p < n, (c'' p).state = s p) ∧
      ∀ p < n, ∀ q < n, Matching kind (c' p).posted (c' q).posted := by
  obtain ⟨all, hall⟩ := hlead
  have hstuck : ∀ p, fire n next p final = none := by
    intro p
    rw [fire]
    split
    · rename_i hp
      simp only [act, hfinal.state p hp, hhalt p hp]
      rfl
    · rfl
  refine ⟨all.length, fun ps c' hps => ?_⟩
  obtain ⟨qs, hqs, hperm⟩ := schedule_completes fire_commuting hstuck hall hps
  refine ⟨⟨qs, final, hperm.length_eq, hqs, hfinal.state⟩, fun p hp q hq => ?_⟩
  have hkinds : ∀ p < n, (c' p).posted.map kind <+: ks := by
    intro p hp
    rw [← hfinal.kinds p hp]
    exact (run_extends hqs p hp).map _
  exact List.prefix_or_prefix_of_prefix (hkinds p hp) (hkinds q hq)

end Kinds

end BspOnMpi.Lib
