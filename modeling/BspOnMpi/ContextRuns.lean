import BspOnMpi.ContextLive

/-! Runs of registrations. All contexts queue the same collective requests and synchronise. The
register and the map of every context then hold exactly the live registrations. -/

namespace BspOnMpi.ContextRuns
open Lib Exptable Memreg Mapper ContextMemreg ContextLive

def QueuedAs (g : ℕ) (L : List Live) (k : ℕ) (op : RegOp) (r : RegReq) : Prop :=
  match op with
  | .push ident nbytes =>
    r = { data := ident, size := nbytes, serial := L.length + k, push := true } ∧
      ∀ l ∈ L, l.row g ≠ ident
  | .pop ident => ∃ l ∈ L, l.row g = ident ∧
      r = { data := ident, size := l.nbytes, serial := l.serial, push := false }

section Queue

variable {processors g lp : ℕ} {L : List Live} {c₀ c : ContextReg}

theorem regExec_spec (h : ContextInv processors g lp L c₀) (hg : g < processors)
    (htake : takeRequests c = c₀) {op : RegOp} {c' : ContextReg} (hop : regExec op c = some c') :
    takeRequests c' = c₀ ∧
      ∃ r, c'.regRequests = c.regRequests ++ [r] ∧ QueuedAs g L c.regRequests.length op r := by
  have hmap : c.memoryRegisterMap = c₀.memoryRegisterMap := by rw [← htake]; rfl
  have hreg : c.memoryRegister = c₀.memoryRegister := by rw [← htake]; rfl
  have hpid : c.globalPid = g := by
    rw [← h.processing.pid, ← htake]
    rfl
  have hused : c₀.memoryRegister.usedSlotCount g = L.length := by
    have hu := marked_used h.registered.marked (c := g) (by rw [h.processing.nprocs]; exact hg)
    rwa [List.length_map] at hu
  cases op with
  | push ident nbytes =>
    simp only [regExec, bspPushReg] at hop
    split at hop
    · rename_i hcond
      cases hop
      refine ⟨htake, _, rfl, by rw [hpid, hreg, hused], fun l hl heq => ?_⟩
      have hsome := (map_isSome h.processing ident).mpr ⟨l, hl, heq⟩
      rw [← hmap] at hsome
      simp [Option.isNone_iff_eq_none.mp hcond.1] at hsome
    · cases hop
  | pop ident =>
    simp only [regExec, bspPopReg] at hop
    split at hop
    · obtain ⟨e, he, rfl⟩ := Option.map_eq_some_iff.mp hop
      rw [hmap, h.processing.map] at he
      obtain ⟨l, hl, rfl⟩ := Option.map_eq_some_iff.mp he
      have hmem := List.mem_of_find?_eq_some hl
      have hrow : l.row g = ident := by simpa using List.find?_some hl
      exact ⟨htake, _, rfl, l, hmem, hrow, rfl⟩
    · cases hop

theorem queue_spec (h : ContextInv processors g lp L c₀) (hg : g < processors) {ops : List RegOp}
    (hrun : run regExec ops c₀ = some c) : takeRequests c = c₀ ∧
      c.regRequests.length = ops.length ∧
      ∀ k op, ops[k]? = some op → ∃ r, c.regRequests[k]? = some r ∧ QueuedAs g L k op r := by
  induction ops using List.reverseRecOn generalizing c with
  | nil =>
    cases hrun
    have hnil := h.processing.requests
    refine ⟨?_, by rw [hnil]; rfl, fun k op hk => by simp at hk⟩
    rw [takeRequests, ← hnil]
  | append_singleton ops op ih =>
    rw [run_append] at hrun
    obtain ⟨c₁, hc₁, hlast⟩ := Option.bind_eq_some_iff.mp hrun
    obtain ⟨c₂, hc₂, heq⟩ := Option.bind_eq_some_iff.mp hlast
    cases heq
    obtain ⟨h1, h2, h4⟩ := ih hc₁
    obtain ⟨h5, r, hr, hq⟩ := regExec_spec h hg h1 hc₂
    refine ⟨h5, by rw [hr]; simp [h2], fun k op' hk => ?_⟩
    rw [hr]
    rcases Nat.lt_or_ge k ops.length with hlt | hge
    · rw [List.getElem?_append_left hlt] at hk
      rw [List.getElem?_append_left (by omega)]
      exact h4 k op' hk
    · have hk0 : k = ops.length := by
        have hlen := (List.getElem?_eq_some_iff.mp hk).1
        simp at hlen
        omega
      subst hk0
      simp only [List.getElem?_append_right (Nat.le_refl _), Nat.sub_self, List.getElem?_cons_zero,
        Option.some.injEq] at hk
      subst hk
      refine ⟨r, ?_, by rw [← h2]; exact hq⟩
      rw [List.getElem?_append_right (by omega), h2, Nat.sub_self]
      rfl

theorem queue_registered (h : ContextInv processors g lp L c₀) (htake : takeRequests c = c₀) :
    Registered c.memoryRegister (L.map Live.row) g := by
  have hreg : c.memoryRegister = c₀.memoryRegister := by
    rw [← htake]
    rfl
  rw [hreg]
  exact h.registered

end Queue

/-- A collective call: the address of every context, or an earlier registration. -/
inductive RegCall
  | push (row : Row) (nbytes : ℕ)
  | pop (l : Live)

def RegCall.op (g : ℕ) : RegCall → RegOp
  | .push row nbytes => .push (row g) nbytes
  | .pop l => .pop (l.row g)

/-- From position `k` on, the calls lead from the live registrations `L` to `L'`: a push
is of addresses that are not live in any context, a pop of a registration that is live.
The superstep started with `n₀` live registrations. -/
inductive Legal (processors n₀ : ℕ) : ℕ → List Live → List RegCall → List Live → Prop
  | nil (k : ℕ) (L : List Live) : Legal processors n₀ k L [] L
  | push {k : ℕ} {L L' : List Live} {row : Row} {nbytes : ℕ} {calls : List RegCall}
    (hnew : ∀ g < processors, ∀ l ∈ L, l.row g ≠ row g)
    (h : Legal processors n₀ (k + 1) (L ++ [⟨below processors row, nbytes, n₀ + k⟩]) calls L') :
    Legal processors n₀ k L (.push row nbytes :: calls) L'
  | pop {k : ℕ} {xs ys L' : List Live} {l : Live} {calls : List RegCall}
    (h : Legal processors n₀ (k + 1) (xs ++ ys) calls L') :
    Legal processors n₀ k (xs ++ l :: ys) (.pop l :: calls) L'

def OldOrNew (processors : ℕ) (L₀ L : List Live) : Prop :=
  ∀ l ∈ L, l ∈ L₀ ∨ ∀ g < processors, ∀ m ∈ L₀, m.row g ≠ l.row g

section Legal

variable {processors nnodes : ℕ} {L₀ L L' : List Live} {w : ℕ → ContextReg} {calls : List RegCall}
  {k : ℕ}

theorem oldOrNew_push (hold : OldOrNew processors L₀ L) {l : Live}
    (hnew : ∀ g < processors, ∀ m ∈ L₀, m.row g ≠ l.row g) : OldOrNew processors L₀ (L ++ [l]) := by
  intro m hm
  rcases List.mem_append.mp hm with hm | hm
  · exact hold m hm
  · cases List.mem_singleton.mp hm
    exact .inr hnew

theorem oldOrNew_pop {xs ys : List Live} {l : Live}
    (hold : OldOrNew processors L₀ (xs ++ l :: ys)) :
    OldOrNew processors L₀ (xs ++ ys) := by
  intro m hm
  apply hold m
  rcases List.mem_append.mp hm with hm | hm
  · exact List.mem_append_left _ hm
  · exact List.mem_append_right _ (List.mem_cons_of_mem _ hm)

theorem queued_tail {call : RegCall} (hq : ∀ g < processors, ∀ i c, (call :: calls)[i]? = some c →
      QueuedAs g L₀ (k + i) (c.op g) (requestAt w (k + i) g)) :
    ∀ g < processors, ∀ i c, calls[i]? = some c →
      QueuedAs g L₀ (k + 1 + i) (c.op g) (requestAt w (k + 1 + i) g) := by
  intro g hg i c hi
  have htail := hq g hg (i + 1) c hi
  rwa [show k + (i + 1) = k + 1 + i by omega] at htail

theorem legal_stepsTo (hpos : 0 < processors)
    (hinj : ∀ g < processors, ∀ l ∈ L₀, ∀ m ∈ L₀, l.row g = m.row g → l = m)
    (hlegal : Legal processors L₀.length k L calls L') {M : List Live}
    (hq : ∀ g < processors, ∀ i call, calls[i]? = some call →
      QueuedAs g L₀ (k + i) (call.op g) (requestAt w (k + i) g))
    (hold : OldOrNew processors L₀ L) (hsteps : StepsTo processors (requestAt w) k M L) :
    StepsTo processors (requestAt w) (k + calls.length) M L' := by
  induction hlegal with
  | nil k L => exact hsteps
  | @push k L L' row nbytes calls hnew h ih =>
    have hreq : ∀ g < processors, requestAt w k g =
        { data := row g, size := nbytes, serial := L₀.length + k, push := true } ∧
          ∀ l ∈ L₀, l.row g ≠ row g := fun g hg => hq g hg 0 _ rfl
    have hrow : pushed processors (requestAt w k) nbytes (L₀.length + k) =
        ⟨below processors row, nbytes, L₀.length + k⟩ := by
      rw [pushed, Live.mk.injEq]
      refine ⟨funext fun g => ?_, rfl, rfl⟩
      by_cases hg : g < processors
      · simp [below, hg, (hreq g hg).1]
      · simp [below, hg]
    have hstep : StepTo processors (requestAt w k) L
        (L ++ [⟨below processors row, nbytes, L₀.length + k⟩]) := by
      rw [← hrow]
      refine .push (fun g hg => ?_) fun g hg l hl => ?_
      · rw [(hreq g hg).1]
        exact ⟨rfl, rfl, rfl⟩
      · rw [(hreq g hg).1]
        exact hnew g hg l hl
    have hold' : OldOrNew processors L₀ (L ++ [⟨below processors row, nbytes, L₀.length + k⟩]) := by
      refine oldOrNew_push hold fun g hg m hm => ?_
      simpa [below, hg] using (hreq g hg).2 m hm
    have hrest := ih (queued_tail hq) hold' (.succ hsteps hstep)
    rwa [show k + 1 + calls.length = k + (RegCall.push row nbytes :: calls).length by
      simp; omega] at hrest
  | @pop k xs ys L' l calls h ih =>
    have hreq : ∀ g < processors, ∃ m ∈ L₀, m.row g = l.row g ∧ requestAt w k g =
        { data := l.row g, size := m.nbytes, serial := m.serial, push := false } :=
      fun g hg => hq g hg 0 _ rfl
    -- a registration that could be popped was live when the superstep started
    have hl : l ∈ L₀ := by
      obtain ⟨m, hm, hrow, -⟩ := hreq 0 hpos
      exact (hold l (by simp)).resolve_right fun hnew => hnew 0 hpos m hm hrow
    have hu : Uniform processors (requestAt w k) false l.nbytes l.serial := by
      intro g hg
      obtain ⟨m, hm, hrow, hr⟩ := hreq g hg
      cases hinj g hg m hm l hl hrow
      rw [hr]
      exact ⟨rfl, rfl, rfl⟩
    have hstep : StepTo processors (requestAt w k) (xs ++ l :: ys) (xs ++ ys) := by
      refine .pop hu fun g hg => ?_
      obtain ⟨m, -, -, hr⟩ := hreq g hg
      rw [hr]
    have hrest := ih (queued_tail hq) (oldOrNew_pop hold) (.succ hsteps hstep)
    rwa [show k + 1 + calls.length = k + (RegCall.pop l :: calls).length by simp; omega] at hrest

end Legal

def Queued (processors : ℕ) (calls : List RegCall) (w w₁ : ℕ → ContextReg) : Prop :=
  ∀ g < processors, run regExec (calls.map (RegCall.op g)) (w g) = some (w₁ g)

def startContexts (processors nnodes : ℕ) (fresh : ℕ → ℕ → ℕ → ℕ) : ℕ → ContextReg := fun g =>
  contextInit processors g ((taskMapper processors nnodes 0).globalToLocal g) (fresh g)

/-- Runs in which all contexts queue the same legal calls, fewer than 2^27 in a superstep, with
the live registrations. -/
inductive RegRun (processors nnodes : ℕ) : List Live → (ℕ → ContextReg) → Prop
  | init (fresh : ℕ → ℕ → ℕ → ℕ) :
    RegRun processors nnodes [] (startContexts processors nnodes fresh)
  | step {L L' : List Live} {w w₁ w' : ℕ → ContextReg} {calls : List RegCall}
    {fresh : ℕ → ℕ → RegReq} (hr : RegRun processors nnodes L w)
    (hlegal : Legal processors L.length 0 L calls L') (hfew : calls.length < 2 ^ 27)
    (hq : Queued processors calls w w₁)
    (hs : syncMemoryreg processors nnodes fresh w₁ = some w') : RegRun processors nnodes L' w'

/-- Register and map of context `g` are exactly the live registrations. -/
structure Translates (processors g : ℕ) (L : List Live) (c : ContextReg) : Prop where
  find : ∀ l ∈ L, ∀ gp < processors,
    memoryRegisterFind c.memoryRegister c.globalPid gp (l.row g) = some (l.row gp)
  keys : ∀ x, (c.memoryRegisterMap x).isSome ↔ ∃ l ∈ L, l.row g = x
  pointers : ∀ l ∈ L, ∃ e, c.memoryRegisterMap (l.row g) = some e ∧ e.nbytes = l.nbytes ∧
    ∀ gp < processors, e.pointers gp = l.row gp
  popped : ∀ x, (∀ l ∈ L, l.row g ≠ x) → ∀ gp < processors,
    memoryRegisterFind c.memoryRegister c.globalPid gp x = none

section Runs

variable {processors nnodes : ℕ} {L : List Live} {w : ℕ → ContextReg}

theorem start_inv (h : Mapped processors nnodes) (fresh : ℕ → ℕ → ℕ → ℕ) {g : ℕ}
    (hg : g < processors) : ContextInv processors g (g % icd processors nnodes) []
      (startContexts processors nnodes fresh g) := by
  have hreg := initialize_registered processors 1 g (fresh g) (by decide)
  exact ⟨⟨rfl, globalToLocal_eq h _ hg, ⟨_, hreg.marked, rfl⟩, rfl, rfl, List.nodup_nil,
    fun _ => rfl, rfl⟩, hreg⟩

theorem step_inv (h : Mapped processors nnodes)
    (hw : ∀ g < processors, ContextInv processors g (g % icd processors nnodes) L (w g))
    {calls : List RegCall} {L' : List Live} (hlegal : Legal processors L.length 0 L calls L')
    (hfew : calls.length < 2 ^ 27) {w₁ : ℕ → ContextReg} (hq : Queued processors calls w w₁)
    (fresh : ℕ → ℕ → RegReq) :
    ∃ w', syncMemoryreg processors nnodes fresh w₁ = some w' ∧
      ∀ g < processors, ContextInv processors g (g % icd processors nnodes) L' (w' g) := by
  have hspec := fun g hg => queue_spec (hw g hg) hg (hq g hg)
  have hreqs : ∀ g < processors, ∀ i call, calls[i]? = some call →
      QueuedAs g L (0 + i) (call.op g) (requestAt w₁ (0 + i) g) := by
    intro g hg i call hi
    obtain ⟨r, hr, hqr⟩ := (hspec g hg).2.2 i (call.op g) (by simp [hi])
    rw [Nat.zero_add, requestAt, hr]
    exact hqr
  have hsteps := legal_stepsTo h.processors_pos
    (fun g hg l hl m hm heq => live_injective (hw g hg).processing hl hm heq) hlegal hreqs
    (fun l hl => .inl hl) (.zero L)
  rw [Nat.zero_add] at hsteps
  refine syncMemoryreg_spec h fresh (fun g hg => ?_) hfew (fun g hg => ?_) (fun g hg => ?_) hsteps
  · rw [(hspec g hg).2.1, List.length_map]
  · rw [(hspec g hg).1]
    exact (hw g hg).processing
  · exact queue_registered (hw g hg) (hspec g hg).1

theorem regRun_inv (h : Mapped processors nnodes) (hr : RegRun processors nnodes L w) :
    ∀ g < processors, ContextInv processors g (g % icd processors nnodes) L (w g) := by
  induction hr with
  | init fresh => exact fun g hg => start_inv h fresh hg
  | step hr hlegal hfew hq hs ih =>
    obtain ⟨w', hw', hinv⟩ := step_inv h ih hlegal hfew hq _
    cases hs.symm.trans hw'
    exact hinv

theorem inv_translates {g lp : ℕ} (hg : g < processors) {c : ContextReg}
    (h : ContextInv processors g lp L c) : Translates processors g L c := by
  have hn := h.processing.nprocs
  have hpid := h.processing.pid
  have hfind : ∀ x, ∀ gp < processors, memoryRegisterFind c.memoryRegister c.globalPid gp x =
      (lastRow (L.map Live.row) g x).map fun r => r gp := by
    intro x gp hgp
    rw [hpid, find_spec h.registered.marked (by omega) (by omega), registered_live h.registered]
  refine ⟨fun l hl gp hgp => ?_, map_isSome h.processing, fun l hl => ⟨l.entry,
    map_live h.processing hl, rfl, fun _ _ => rfl⟩, fun x hx gp hgp => ?_⟩
  · obtain ⟨xs, ys, rfl⟩ := List.append_of_mem hl
    have hlast : lastRow ((xs ++ l :: ys).map Live.row) g (l.row g) = some l.row := by
      refine lastRow_eq_some.mpr ⟨xs.map Live.row, ys.map Live.row, by simp, rfl, fun y hy => ?_⟩
      obtain ⟨m, hm, rfl⟩ := List.mem_map.mp hy
      have hnodup := h.processing.nodup
      rw [List.map_append, List.map_cons, List.nodup_middle, List.nodup_cons] at hnodup
      intro heq
      exact hnodup.1 (List.mem_append_right _ (List.mem_map.mpr ⟨m, hm, heq⟩))
    rw [hfind _ gp hgp, hlast]
    rfl
  · have hnone : lastRow (L.map Live.row) g x = none := by
      apply lastRow_eq_none.mpr
      intro r hr
      obtain ⟨l, hl, rfl⟩ := List.mem_map.mp hr
      exact hx l hl
    rw [hfind _ gp hgp, hnone]
    rfl

end Runs

section Example

def pushCalls : List RegCall := [.push (fun g => 100 + g) 8, .push (fun g => 200 + g) 4]

def liveTwo : List Live :=
  [⟨below 3 fun g => 100 + g, 8, 0⟩, ⟨below 3 fun g => 200 + g, 4, 1⟩]

theorem mapped_three : Mapped 3 2 := ⟨by decide, by decide⟩

theorem pushCalls_legal : Legal 3 0 0 [] pushCalls liveTwo := by
  refine .push (by simp) (.push (fun g hg l hl => ?_) (.nil _ _))
  simp only [List.nil_append, List.mem_singleton] at hl
  subst hl
  simp only [below, hg, if_true]
  omega

def queuedTwo (w : ℕ → ContextReg) : ℕ → ContextReg := fun g =>
  { w g with regRequests :=
    [{ data := 100 + g, size := 8, serial := 0, push := true },
      { data := 200 + g, size := 4, serial := 1, push := true }] }

theorem pushCalls_queued (fresh : ℕ → ℕ → ℕ → ℕ) :
    Queued 3 pushCalls (startContexts 3 2 fresh) (queuedTwo (startContexts 3 2 fresh)) :=
  fun _ _ => rfl

end Example

section Skipped

variable {processors : ℕ}

def manyCalls (n : ℕ) : List RegCall := (List.range n).map fun i => .push (fun _ => i) 1

def manyLive (processors n : ℕ) : List Live :=
  (List.range n).map fun i => ⟨below processors fun _ => i, 1, i⟩

def manyRequests (n : ℕ) : List RegReq := (List.range n).map fun i => ⟨i, 1, i, true⟩

theorem legal_snoc {n₀ k : ℕ} {calls : List RegCall} {L M : List Live}
    (h : Legal processors n₀ k L calls M) (row : Row) (nbytes : ℕ)
    (hnew : ∀ g < processors, ∀ l ∈ M, l.row g ≠ row g) :
    Legal processors n₀ k L (calls ++ [.push row nbytes])
      (M ++ [⟨below processors row, nbytes, n₀ + (k + calls.length)⟩]) := by
  induction h with
  | nil k L => exact .push hnew (.nil _ _)
  | @push k L L' row' nbytes' calls hnew' h ih =>
    refine .push hnew' ?_
    have hlast := ih hnew
    rwa [show k + 1 + calls.length = k + (RegCall.push row' nbytes' :: calls).length by
      simp; omega] at hlast
  | @pop k xs ys L' l calls h ih =>
    refine .pop ?_
    have hlast := ih hnew
    rwa [show k + 1 + calls.length = k + (RegCall.pop l :: calls).length by simp; omega] at hlast

theorem many_legal (n : ℕ) : Legal processors 0 0 [] (manyCalls n) (manyLive processors n) := by
  induction n with
  | zero => exact .nil 0 []
  | succ n ih =>
    have hnew : ∀ g < processors, ∀ l ∈ manyLive processors n, l.row g ≠ n := by
      intro g hg l hl
      obtain ⟨i, hi, rfl⟩ := List.mem_map.mp hl
      have hrow : below processors (fun _ => i) g = i := if_pos hg
      show below processors (fun _ => i) g ≠ n
      rw [hrow]
      exact (List.mem_range.mp hi).ne
    have hlast := legal_snoc ih (fun _ => n) 1 hnew
    rw [manyCalls, manyLive, List.range_succ, List.map_append, List.map_append]
    simpa [manyCalls, manyLive] using hlast

theorem many_queued {c : ContextReg} (hmap : ∀ x, c.memoryRegisterMap x = none)
    (hused : c.memoryRegister.usedSlotCount c.globalPid = 0) (hnone : c.regRequests = []) (g : ℕ)
    {n : ℕ}
    (hmax : n ≤ maxRegisterReqs) : run regExec ((manyCalls n).map (RegCall.op g)) c =
      some { c with regRequests := manyRequests n } := by
  induction n with
  | zero =>
    rw [manyRequests, List.range_zero, List.map_nil, ← hnone]
    rfl
  | succ n ih =>
    have hlen : (manyRequests n).length = n := by
      rw [manyRequests, List.length_map, List.length_range]
    rw [manyCalls, List.range_succ, List.map_append, List.map_append, run_append]
    rw [manyCalls] at ih
    rw [ih (by omega), Option.bind_some]
    simp only [List.map_cons, List.map_nil, RegCall.op, run, regExec, bspPushReg, hmap,
      Option.isNone_none,
      hlen, hused, Nat.zero_add, true_and, if_pos (Nat.lt_of_succ_le hmax), Option.bind_some]
    rw [manyRequests, manyRequests, List.range_succ, List.map_append]
    rfl

def manyQueued (n g : ℕ) : ContextReg :=
  { startContexts 2 1 (fun _ _ _ => 0) g with regRequests := manyRequests n }

end Skipped

end BspOnMpi.ContextRuns
