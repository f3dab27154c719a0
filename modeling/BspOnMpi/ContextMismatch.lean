import BspOnMpi.ContextRuns

/-! Mismatched registrations. The contexts may queue different requests, as long as they queue
equally many. A position is accepted when kinds, sizes and serials agree. A serial is the length
of the table plus the length of the queue, so that after a pop it is given again. -/

namespace BspOnMpi.ContextMismatch
open Lib Exptable Memreg Mapper ContextMemreg ContextLive ContextRuns

def Disagree (L : List Live) (g g' : ℕ) (r r' : RegReq) : Prop :=
  r.push ≠ r'.push ∨ r.size ≠ r'.size ∨
    r.push = false ∧ r'.push = false ∧
      ∃ l ∈ L, ∃ l' ∈ L, l.row g = r.data ∧ l'.row g' = r'.data ∧ l ≠ l'

def Mismatch (processors : ℕ) (L : List Live) (w : ℕ → ContextReg) (regReqSize : ℕ) : Prop :=
  ∃ k < regReqSize, ∃ g < processors, ∃ g' < processors,
    Disagree L g g' (requestAt w k g) (requestAt w k g')

/-- Registrations that the contexts pop at a position are the same if they all have the
same serial and the same size, and a size or serial of context 0 that looks like none is
that of all contexts. -/
structure Distinguishable (processors : ℕ) (L : List Live) (requests : ℕ → RegReq) : Prop where
  serials : ∀ l : ℕ → Live,
    (∀ g < processors, (requests g).push = false ∧ l g ∈ L ∧ (l g).row g = (requests g).data) →
    (∀ g < processors, (l g).serial = (l 0).serial ∧ (l g).nbytes = (l 0).nbytes) →
      ∀ g < processors, l g = l 0
  sizes : (requests 0).size = noValue → ∀ g < processors, (requests g).size = noValue
  noSerial : (requests 0).serial = noValue → ∀ g < processors, (requests g).serial = noValue

def historyStep (processors : ℕ) (requests : ℕ → RegReq) (L : List Live) : List Live :=
  if (requests 0).push then L ++ [pushed processors requests (requests 0).size (requests 0).serial]
  else eraseLast (fun l => l.row 0 = (requests 0).data) L

def history (processors : ℕ) (w : ℕ → ContextReg) (L : List Live) (k : ℕ) : List Live :=
  (List.range k).foldl (fun L i => historyStep processors (requestAt w i) L) L

/-- Runs in which every context makes its own calls, equally many in a superstep and fewer than
2^27, and every position can be distinguished. -/
inductive AnyRun (processors nnodes : ℕ) : List Live → (ℕ → ContextReg) → Prop
  | init (fresh : ℕ → ℕ → ℕ → ℕ) :
    AnyRun processors nnodes [] (startContexts processors nnodes fresh)
  | step {L : List Live} {w w₁ w' : ℕ → ContextReg} {ops : ℕ → List RegOp} {regReqSize : ℕ}
    {fresh : ℕ → ℕ → RegReq} (hr : AnyRun processors nnodes L w)
    (hq : ∀ g < processors, run regExec (ops g) (w g) = some (w₁ g))
    (hcount : SameCount processors w₁ regReqSize) (hfew : regReqSize < 2 ^ 27)
    (hd : ∀ k < regReqSize, Distinguishable processors L (requestAt w₁ k))
    (hs : syncMemoryreg processors nnodes fresh w₁ = some w') :
    AnyRun processors nnodes (history processors w₁ L regReqSize) w'

def QueuedAt (g : ℕ) (L : List Live) (k : ℕ) (r : RegReq) : Prop := ∃ op, QueuedAs g L k op r

theorem queued_push {g k : ℕ} {L : List Live} {r : RegReq} (h : QueuedAt g L k r)
    (hr : r.push = true) :
    ∀ l ∈ L, l.row g ≠ r.data := by
  obtain ⟨op, hop⟩ := h
  cases op with
  | push ident nbytes =>
    rw [hop.1]
    exact hop.2
  | pop ident =>
    obtain ⟨l, -, -, rfl⟩ := hop
    cases hr

theorem queued_pop {g k : ℕ} {L : List Live} {r : RegReq} (h : QueuedAt g L k r)
    (hr : r.push = false) :
    ∃ l ∈ L, l.row g = r.data ∧ l.serial = r.serial ∧ l.nbytes = r.size := by
  obtain ⟨op, hop⟩ := h
  cases op with
  | push ident nbytes =>
    rw [hop.1] at hr
    cases hr
  | pop ident =>
    obtain ⟨l, hl, hrow, rfl⟩ := hop
    exact ⟨l, hl, hrow, rfl, rfl⟩

section Position

variable {processors : ℕ} {requests : ℕ → RegReq} {L M : List Live}

theorem uniform_of_check {st : Check}
    (h : run (fun gp => checkRequest (requests gp)) (List.range processors) checkStart = some st)
    (hd : Distinguishable processors L requests) :
    Uniform processors requests (requests 0).push (requests 0).size (requests 0).serial := by
  intro g hg
  obtain ⟨n, rfl⟩ : ∃ n, processors = n + 1 := ⟨processors - 1, by omega⟩
  obtain ⟨hkind, hsize, hserial⟩ := check_passed h (Nat.le_of_lt_succ hg)
  have hkind' := (check_passed h (Nat.zero_le n)).1
  refine ⟨?_, ?_, ?_⟩
  · exact Option.some.inj (hkind.symm.trans hkind')
  · by_cases hn : (requests 0).size = noValue
    · rw [hn]
      exact hd.sizes hn g hg
    · exact (hsize hn).2
  · by_cases hn : (requests 0).serial = noValue
    · rw [hn]
      exact hd.noSerial hn g hg
    · exact (hserial hn).2

theorem processRequest_check {n : ℕ} {myR : ℕ → RegReq} {cs cs' : ℕ → ContextReg}
    (h : processRequest processors n requests myR cs = some cs') (hn : 0 < n) :
    ∃ st, run (fun gp => checkRequest (requests gp)) (List.range processors) checkStart =
      some st := by
  obtain ⟨st, hst, -⟩ := Option.map_eq_some_iff.mp h
  obtain ⟨m, rfl⟩ : ∃ m, n = m + 1 := ⟨n - 1, by omega⟩
  rw [List.range_succ_eq_map, run] at hst
  obtain ⟨st', hst', -⟩ := Option.bind_eq_some_iff.mp hst
  obtain ⟨check, hcheck, -⟩ := Option.bind_eq_some_iff.mp hst'
  exact ⟨check, hcheck⟩

theorem processRequest_applied {n : ℕ} {myR : ℕ → RegReq} {cs cs' : ℕ → ContextReg}
    (h : processRequest processors n requests myR cs = some cs') {push : Bool} {size serial : ℕ}
    (hu : Uniform processors requests push size serial) (hpos : 0 < processors) {lp : ℕ}
      (hlp : lp < n) :
    ∃ c', applyRequest processors (cs lp) ⟨serial, size, some push⟩ requests
      (myR (cs lp).localPid).data = some c' := by
  obtain ⟨st, hst, -⟩ := Option.map_eq_some_iff.mp h
  -- the contexts behind the loop have not changed, and the comparison starts or repeats
  have hprefix : ∀ k ≤ n, ∀ st, run (processContext processors requests myR) (List.range k)
      (checkStart, cs) = some st → (st.1 = checkStart ∨ st.1 = ⟨serial, size, some push⟩) ∧
        ∀ i, k ≤ i → st.2 i = cs i := by
    intro k
    induction k with
    | zero =>
      intro _ st hst
      cases hst
      exact ⟨.inl rfl, fun _ _ => rfl⟩
    | succ k ih =>
      intro hk st hst
      rw [List.range_succ, run_append] at hst
      obtain ⟨st₁, hst₁, hlast⟩ := Option.bind_eq_some_iff.mp hst
      obtain ⟨hcheck, hrest⟩ := ih (by omega) st₁ hst₁
      simp only [run, Option.bind_fun_some, processContext, check_uniform hu hpos hcheck,
        Option.bind_eq_bind, Option.bind_some] at hlast
      obtain ⟨c, -, hc⟩ := Option.bind_eq_some_iff.mp hlast
      cases hc
      refine ⟨.inr rfl, fun i hi => ?_⟩
      show Function.update st₁.2 k c i = cs i
      rw [Function.update_of_ne (show i ≠ k by omega)]
      exact hrest i (by omega)
  obtain ⟨st₁, st₂, hst₁, hst₂⟩ := run_range_taken hst hlp
  obtain ⟨hcheck, hsame⟩ := hprefix lp hlp.le st₁ hst₁
  rw [processContext, check_uniform hu hpos hcheck, hsame lp le_rfl] at hst₂
  obtain ⟨check, hcheck', happly⟩ := Option.bind_eq_some_iff.mp hst₂
  cases hcheck'
  obtain ⟨c, hc, -⟩ := Option.bind_eq_some_iff.mp happly
  exact ⟨c, hc⟩

theorem popped_same (hpos : 0 < processors) {size serial : ℕ}
    (hu : Uniform processors requests false size serial)
    (hd : Distinguishable processors L requests)
    (hlive : ∀ g < processors, ∃ l ∈ L, l ∈ M ∧ l.row g = (requests g).data ∧
      l.serial = (requests g).serial ∧ l.nbytes = (requests g).size) :
    ∃ l, ∀ g < processors, l ∈ M ∧ l.row g = (requests g).data := by
  have hinh : Nonempty Live := ⟨⟨fun _ => 0, 0, 0⟩⟩
  choose! l hL hM hrow hserial hsize using hlive
  have hsame := hd.serials l (fun g hg => ⟨(hu g hg).1, hL g hg, hrow g hg⟩) fun g hg => by
    rw [hserial g hg, hserial 0 hpos, hsize g hg, hsize 0 hpos, (hu g hg).2.1, (hu g hg).2.2,
      (hu 0 hpos).2.1, (hu 0 hpos).2.2]
    exact ⟨rfl, rfl⟩
  refine ⟨l 0, fun g hg => ⟨hM 0 hpos, ?_⟩⟩
  rw [← hsame g hg]
  exact hrow g hg

theorem accepted_stepTo {k : ℕ} (hpos : 0 < processors)
    (hinj : ∀ g < processors, ∀ l ∈ L, ∀ m ∈ L, l.row g = m.row g → l = m)
    (hq : ∀ g < processors, QueuedAt g L k (requests g)) (hold : OldOrNew processors L M)
    (hd : Distinguishable processors L requests)
    (hu : Uniform processors requests (requests 0).push (requests 0).size (requests 0).serial)
    (happly : ∀ g < processors, ∃ lp c c', Processing processors g lp M c ∧
      applyRequest processors c ⟨(requests 0).serial, (requests 0).size, some (requests 0).push⟩
        requests (requests g).data = some c') :
    StepTo processors requests M (historyStep processors requests M) ∧
      OldOrNew processors L (historyStep processors requests M) := by
  cases hkind : (requests 0).push with
  | true =>
    rw [hkind] at hu
    have hfresh : ∀ g < processors, ∀ l ∈ M, l.row g ≠ (requests g).data := by
      intro g hg
      obtain ⟨lp, c, c', hc, hc'⟩ := happly g hg
      rw [hkind, applyRequest, if_pos rfl] at hc'
      exact pushRegister_fresh hc hc'
    rw [historyStep, if_pos hkind]
    refine ⟨.push hu hfresh, oldOrNew_push hold fun g hg m hm => ?_⟩
    have hrow : (pushed processors requests (requests 0).size (requests 0).serial).row g =
        (requests g).data := if_pos hg
    rw [hrow]
    exact queued_push (hq g hg) (hu g hg).1 m hm
  | false =>
    rw [hkind] at hu
    -- every context pops a registration that was live when the superstep started
    have hlive : ∀ g < processors, ∃ l ∈ L, l ∈ M ∧ l.row g = (requests g).data ∧
        l.serial = (requests g).serial ∧ l.nbytes = (requests g).size := by
      intro g hg
      obtain ⟨lp, c, c', hc, hc'⟩ := happly g hg
      rw [hkind, applyRequest, if_neg (by simp)] at hc'
      obtain ⟨l, hl, hrow⟩ := popRegister_live hc hc'
      obtain ⟨m, hm, hmrow, hserial, hsize⟩ := queued_pop (hq g hg) (hu g hg).1
      have hlm : l.row g = m.row g := hrow.trans hmrow.symm
      have hlL := (hold l hl).resolve_right fun hnew => hnew g hg m hm hlm.symm
      cases hinj g hg l hlL m hm hlm
      exact ⟨l, hlL, hl, hmrow, hserial, hsize⟩
    obtain ⟨l, hl⟩ := popped_same hpos hu hd hlive
    have hlM : l ∈ M := (hl 0 hpos).1
    have hl0 : l.row 0 = (requests 0).data := (hl 0 hpos).2
    obtain ⟨lp, c, -, hc, -⟩ := happly 0 hpos
    obtain ⟨xs, ys, rfl⟩ := List.append_of_mem hlM
    have herase : historyStep processors requests (xs ++ l :: ys) = xs ++ ys := by
      rw [historyStep, if_neg (by simp [hkind])]
      apply eraseLast_split (by simpa using hl0)
      intro m hm
      have hnodup := hc.nodup
      rw [List.map_append, List.map_cons, List.nodup_middle, List.nodup_cons] at hnodup
      have hne : m.row 0 ≠ l.row 0 := fun heq => hnodup.1 (List.mem_append_right _
        (List.mem_map.mpr ⟨m, hm, heq⟩))
      rw [hl0] at hne
      simpa using hne
    rw [herase]
    exact ⟨.pop hu fun g hg => (hl g hg).2, oldOrNew_pop hold⟩

theorem applyRequest_congr {requests' : ℕ → RegReq}
    (heq : ∀ gp < processors, requests' gp = requests gp)
    (c : ContextReg) (st : Check) (data : ℕ) :
    applyRequest processors c st requests' data = applyRequest processors c st requests data := by
  have hrow : (below processors fun gp => (requests' gp).data) =
      below processors fun gp => (requests gp).data := by
    funext gp
    by_cases hgp : gp < processors
    · simp [below, hgp, heq gp hgp]
    · simp [below, hgp]
  rw [applyRequest, applyRequest, hrow]

end Position

section Runs

variable {processors nnodes regReqSize : ℕ} {L : List Live} {w w₁ : ℕ → ContextReg}
  {ops : ℕ → List RegOp}

theorem ops_uniform (h : Mapped processors nnodes) {fresh : ℕ → ℕ → RegReq}
    (hcount : SameCount processors w₁ regReqSize) {k rank : ℕ} (hrank : rank < nnodes)
    (hthis : 0 < (taskMapper processors nnodes rank).procsThisNode) (hk : k < regReqSize)
    (hd : Distinguishable processors L (requestAt w₁ k)) {cs : ℕ → ContextReg}
    (hs : processMemoryregOps processors nnodes fresh w₁ regReqSize rank = some cs) :
    Uniform processors (requestAt w₁ k) (requestAt w₁ k 0).push (requestAt w₁ k 0).size
      (requestAt w₁ k 0).serial := by
  obtain ⟨cs', hcs', -⟩ := Option.map_eq_some_iff.mp hs
  obtain ⟨c₁, c₂, hstep⟩ := run_taken hcs' (List.mem_range.mpr hk)
  rw [taskMapper_nprocs h _] at hstep
  obtain ⟨st, hst⟩ := processRequest_check hstep hthis
  have hsame : ∀ gp < processors, requestOf processors nnodes fresh w₁ regReqSize rank k gp =
      requestAt w₁ k gp := fun gp hgp => requestOf_eq h fresh hcount hgp hrank hk
  have hcheck : run (fun gp => checkRequest (requestAt w₁ k gp))
      (List.range processors) checkStart = some st := by
    rw [← hst]
    refine run_congr (fun gp hgp st => ?_) _
    rw [hsame gp (List.mem_range.mp hgp)]
  exact uniform_of_check hcheck hd

theorem ops_applied (h : Mapped processors nnodes) {fresh : ℕ → ℕ → RegReq}
    (hcount : SameCount processors w₁ regReqSize)
    (hw : ∀ gp < processors, Processing processors gp (gp % icd processors nnodes) L
      (takeRequests (w₁ gp)))
    {k : ℕ} {M : List Live} (hsteps : StepsTo processors (requestAt w₁) k L M) (hk : k < regReqSize)
    {push : Bool} {size serial : ℕ} (hu : Uniform processors (requestAt w₁ k) push size serial)
    {g : ℕ} (hg : g < processors) {cs : ℕ → ContextReg}
    (hs : processMemoryregOps processors nnodes fresh w₁ regReqSize (g / icd processors nnodes) =
      some cs) :
    ∃ lp c c', Processing processors g lp M c ∧
      applyRequest processors c ⟨serial, size, some push⟩ (requestAt w₁ k) (requestAt w₁ k g).data =
        some c' := by
  have hrank := node_lt h hg
  have hlp := mod_lt_procs h hg
  have hdm := Nat.div_add_mod' g (icd processors nnodes)
  have hsame : ∀ i < regReqSize, ∀ gp < processors,
      requestOf processors nnodes fresh w₁ regReqSize (g / icd processors nnodes) i gp =
        requestAt w₁ i gp := fun i hi gp hgp => requestOf_eq h fresh hcount hgp hrank hi
  obtain ⟨cs', hcs', -⟩ := Option.map_eq_some_iff.mp hs
  obtain ⟨s₁, s₂, hs₁, hs₂⟩ := run_range_taken hcs' hk
  rw [taskMapper_nprocs h _] at hs₁ hs₂
  obtain ⟨t, ht, hholds⟩ := processRequests_run hsteps (fun i hi => hsame i (by omega))
    (fun i lp hlp => ownRequest_eq h fresh _ i lp hlp)
      (nodeHolds_start h hw (g / icd processors nnodes))
  cases hs₁.symm.trans ht
  have hp := hholds.holds _ hlp
  rw [hdm] at hp
  obtain ⟨c', hc'⟩ := processRequest_applied hs₂ (uniform_congr (hsame k hk) hu)
    (by omega) hlp
  refine ⟨_, _, c', hp, ?_⟩
  rw [← applyRequest_congr (hsame k hk), ← hc', hp.localPid, ownRequest_eq h fresh _ k _ hlp, hdm,
    hsame k hk g hg]

theorem history_stepsTo (h : Mapped processors nnodes) {fresh : ℕ → ℕ → RegReq}
    (hcount : SameCount processors w₁ regReqSize)
    (hw : ∀ gp < processors, Processing processors gp (gp % icd processors nnodes) L
      (takeRequests (w₁ gp)))
    (hq : ∀ k < regReqSize, ∀ g < processors, QueuedAt g L k (requestAt w₁ k g))
    (hd : ∀ k < regReqSize, Distinguishable processors L (requestAt w₁ k))
    (hs : ∀ rank < nnodes, ∃ cs, processMemoryregOps processors nnodes fresh w₁ regReqSize
      rank = some cs)
    {k : ℕ} (hk : k ≤ regReqSize) :
    StepsTo processors (requestAt w₁) k L (history processors w₁ L k) ∧
      OldOrNew processors L (history processors w₁ L k) := by
  induction k with
  | zero => exact ⟨.zero L, fun l hl => .inl hl⟩
  | succ k ih =>
    obtain ⟨hsteps, hold⟩ := ih (by omega)
    have hpos := h.processors_pos
    obtain ⟨cs, hcs⟩ := hs _ (node_lt h hpos)
    have hlt := globalToLocal_lt h (0 / icd processors nnodes) hpos rfl
    have hu := ops_uniform h hcount (node_lt h hpos) (by omega) (by omega) (hd k (by omega)) hcs
    have hstep := accepted_stepTo hpos
      (fun g hg l hl m hm heq => live_injective (hw g hg) hl hm heq) (hq k (by omega)) hold
        (hd k (by omega)) hu
      fun g hg => by
        obtain ⟨cs, hcs⟩ := hs _ (node_lt h hg)
        exact ops_applied h hcount hw hsteps (by omega) hu hg hcs
    have hsucc : history processors w₁ L (k + 1) =
        historyStep processors (requestAt w₁ k) (history processors w₁ L k) := by
      rw [history, List.range_succ, List.foldl_append]
      rfl
    rw [hsucc]
    exact ⟨.succ hsteps hstep.1, hstep.2⟩

structure Calls (processors nnodes : ℕ) (L : List Live) (w₁ : ℕ → ContextReg) (regReqSize : ℕ) :
    Prop where
  taken : ∀ g < processors,
    Processing processors g (g % icd processors nnodes) L (takeRequests (w₁ g))
  registered : ∀ g < processors, Registered (w₁ g).memoryRegister (L.map Live.row) g
  queued : ∀ k < regReqSize, ∀ g < processors, QueuedAt g L k (requestAt w₁ k g)

theorem calls_queued
    (hw : ∀ g < processors, ContextInv processors g (g % icd processors nnodes) L (w g))
    (hq : ∀ g < processors, run regExec (ops g) (w g) = some (w₁ g))
    (hcount : SameCount processors w₁ regReqSize) : Calls processors nnodes L w₁ regReqSize := by
  have hspec := fun g hg => queue_spec (hw g hg) hg (hq g hg)
  refine ⟨fun g hg => ?_, fun g hg => ?_, fun k hk g hg => ?_⟩
  · rw [(hspec g hg).1]
    exact (hw g hg).processing
  · exact queue_registered (hw g hg) (hspec g hg).1
  · obtain ⟨-, hlen, hqueued⟩ := hspec g hg
    have hlt : k < (ops g).length := by
      rw [← hlen, hcount g hg]
      exact hk
    obtain ⟨r, hr, hqr⟩ := hqueued k (ops g)[k] (List.getElem?_eq_getElem hlt)
    rw [requestAt, hr]
    exact ⟨_, hqr⟩

theorem memregAt_few (h : Mapped processors nnodes) {fresh : ℕ → ℕ → RegReq}
    (hcount : SameCount processors w₁ regReqSize) (hfew : regReqSize < 2 ^ 27)
    (hpos : 0 < regReqSize) {rank : ℕ} (hrank : rank < nnodes) :
    memregAt processors nnodes fresh w₁ rank =
      processMemoryregOps processors nnodes fresh w₁ regReqSize rank :=
  memregAt_process (even_of_count h hcount) hpos hrank fun _ hq =>
    memregSize_spec h hcount hfew hq

theorem sync_processed (h : Mapped processors nnodes) {fresh : ℕ → ℕ → RegReq}
    (hcount : SameCount processors w₁ regReqSize) (hfew : regReqSize < 2 ^ 27)
    {w' : ℕ → ContextReg} (hs : syncMemoryreg processors nnodes fresh w₁ = some w')
    (hpos : 0 < regReqSize) :
    ∀ rank < nnodes, ∃ cs, processMemoryregOps processors nnodes fresh w₁ regReqSize rank =
      some cs := by
  intro rank hrank
  obtain ⟨cs, hcs, -⟩ := syncMemoryreg_at h hs hrank
  rw [memregAt_few h hcount hfew hpos hrank] at hcs
  exact ⟨cs, hcs⟩

theorem anyRun_inv (h : Mapped processors nnodes) (hr : AnyRun processors nnodes L w) :
    ∀ g < processors, ContextInv processors g (g % icd processors nnodes) L (w g) := by
  induction hr with
  | init fresh => exact fun g hg => start_inv h fresh hg
  | @step L w w₁ w' ops regReqSize fresh hr hq hcount hfew hd hs ih =>
    obtain ⟨htaken, hreg, hqueued⟩ := calls_queued ih hq hcount
    have hsteps : StepsTo processors (requestAt w₁) regReqSize L
      (history processors w₁ L regReqSize) := by
      by_cases hpos : 0 < regReqSize
      · exact (history_stepsTo h hcount htaken hqueued hd
          (sync_processed h hcount hfew hs hpos) le_rfl).1
      · cases Nat.eq_zero_of_not_pos hpos
        exact .zero L
    obtain ⟨w'', hw'', hinv⟩ := syncMemoryreg_spec h fresh hcount hfew htaken hreg hsteps
    cases hs.symm.trans hw''
    exact hinv

theorem disagree_not_uniform {k g g' : ℕ} {requests : ℕ → RegReq} (hpos : 0 < processors)
    (hinj : ∀ g < processors, ∀ l ∈ L, ∀ m ∈ L, l.row g = m.row g → l = m)
    (hq : ∀ g < processors, QueuedAt g L k (requests g))
    (hd : Distinguishable processors L requests) (hg : g < processors) (hg' : g' < processors)
    (hdis : Disagree L g g' (requests g) (requests g')) {push : Bool} {size serial : ℕ} :
    ¬ Uniform processors requests push size serial := by
  intro hu
  rcases hdis with hpush | hsize | ⟨hpop, -, l, hl, l', hl', hrow, hrow', hne⟩
  · exact hpush ((hu g hg).1.trans (hu g' hg').1.symm)
  · exact hsize ((hu g hg).2.1.trans (hu g' hg').2.1.symm)
  · cases (hu g hg).1.symm.trans hpop
    have hlive : ∀ g < processors, ∃ l ∈ L, l ∈ L ∧ l.row g = (requests g).data ∧
        l.serial = (requests g).serial ∧ l.nbytes = (requests g).size := by
      intro g hg
      obtain ⟨m, hm, hrest⟩ := queued_pop (hq g hg) (hu g hg).1
      exact ⟨m, hm, hm, hrest⟩
    obtain ⟨m, hm⟩ := popped_same hpos hu hd hlive
    have h1 := hinj g hg l hl m (hm g hg).1 (hrow.trans (hm g hg).2.symm)
    have h2 := hinj g' hg' l' hl' m (hm g' hg').1 (hrow'.trans (hm g' hg').2.symm)
    exact hne (h1.trans h2.symm)

end Runs

section Example

def sizesDiffer (g : ℕ) : List RegOp := [.push 100 (8 + g)]

def queuedSizes (w : ℕ → ContextReg) : ℕ → ContextReg := fun g =>
  { w g with regRequests := [{ data := 100, size := 8 + g, serial := 0, push := true }] }

end Example

section Undetected

variable {processors nnodes : ℕ} {L : List Live} {w : ℕ → ContextReg}

def queueing (c : ContextReg) (r : RegReq) : ContextReg := { c with regRequests := [r] }

def pushRequest (row : Row) (nbytes serial g : ℕ) : RegReq :=
  { data := row g, size := nbytes, serial := serial, push := true }

def popRequest (g : ℕ) (l : Live) : RegReq :=
  { data := l.row g, size := l.nbytes, serial := l.serial, push := false }

theorem queue_push {g lp : ℕ} {c : ContextReg} (h : ContextInv processors g lp L c)
    (hg : g < processors) {row : Row} (n : ℕ) (hnew : ∀ l ∈ L, l.row g ≠ row g) :
    run regExec [.push (row g) n] c = some (queueing c (pushRequest row n L.length g)) := by
  have hused := marked_used h.registered.marked (c := g) (by rw [h.processing.nprocs]; exact hg)
  have hnone : c.memoryRegisterMap (row g) = none := by
    rw [← Option.not_isSome_iff_eq_none, map_isSome h.processing]
    rintro ⟨l, hl, heq⟩
    exact hnew l hl heq
  rw [List.length_map] at hused
  simp [run, regExec, bspPushReg, hnone, h.processing.requests, h.processing.pid, hused,
    maxRegisterReqs, queueing, pushRequest]

theorem queue_pop {g lp : ℕ} {c : ContextReg} (h : ContextInv processors g lp L c) {l : Live}
    (hl : l ∈ L) : run regExec [.pop (l.row g)] c = some (queueing c (popRequest g l)) := by
  simp [run, regExec, bspPopReg, map_live h.processing hl, h.processing.requests, Live.entry,
    maxRegisterReqs, queueing, popRequest]

theorem run_push (h : Mapped processors nnodes) (hr : RegRun processors nnodes L w) (row : Row)
    (n : ℕ) (hnew : ∀ g < processors, ∀ l ∈ L, l.row g ≠ row g) :
    ∃ w', RegRun processors nnodes (L ++ [⟨below processors row, n, L.length⟩]) w' := by
  have hinv := regRun_inv h hr
  have hlegal : Legal processors L.length 0 L [.push row n]
    (L ++ [⟨below processors row, n, L.length⟩]) :=
    .push hnew (.nil _ _)
  have hq : Queued processors [.push row n] w fun g =>
      queueing (w g) (pushRequest row n L.length g) :=
    fun g hg => queue_push (hinv g hg) hg n (hnew g hg)
  obtain ⟨w', hs, -⟩ := step_inv h hinv hlegal (by simp) hq fun _ _ => ⟨0, 0, 0, false⟩
  exact ⟨w', .step hr hlegal (by simp) hq hs⟩

theorem run_pop (h : Mapped processors nnodes) (xs : List Live) {ys : List Live} {l : Live}
    (hr : RegRun processors nnodes (xs ++ l :: ys) w) :
    ∃ w', RegRun processors nnodes (xs ++ ys) w' := by
  have hinv := regRun_inv h hr
  have hlegal : Legal processors (xs ++ l :: ys).length 0 (xs ++ l :: ys) [.pop l] (xs ++ ys) :=
    .pop (.nil _ _)
  have hq : Queued processors [.pop l] w fun g => queueing (w g) (popRequest g l) :=
    fun g hg => queue_pop (hinv g hg) (by simp)
  obtain ⟨w', hs, -⟩ := step_inv h hinv hlegal (by simp) hq fun _ _ => ⟨0, 0, 0, false⟩
  exact ⟨w', .step hr hlegal (by simp) hq hs⟩

theorem processRequest_pops {requests myR : ℕ → RegReq} {n size serial : ℕ} {pidOf : ℕ → ℕ}
    {cs : ℕ → ContextReg} (hu : Uniform processors requests false size serial)
    (hcs : NodeHolds processors n pidOf L cs) (hmy : ∀ lp < n, myR lp = requests (pidOf lp))
    (hlive : ∀ g < processors, ∃ l ∈ L, l.row g = (requests g).data) :
    ∃ cs', processRequest processors n requests myR cs = some cs' := by
  have hrun : ∀ k ≤ n, ∃ st, run (processContext processors requests myR) (List.range k)
      (checkStart, cs) = some st ∧ (st.1 = checkStart ∨ st.1 = ⟨serial, size, some false⟩) ∧
      ∀ lp, k ≤ lp → st.2 lp = cs lp := by
    intro k
    induction k with
    | zero => exact fun _ => ⟨_, rfl, .inl rfl, fun _ _ => rfl⟩
    | succ k ih =>
      intro hk
      obtain ⟨st, hst, hcheck, hrest⟩ := ih (by omega)
      have hpid := hcs.pid_lt k (by omega)
      have hc := hcs.holds k (by omega)
      rw [← hrest k le_rfl] at hc
      obtain ⟨l, hl, hrow⟩ := hlive _ hpid
      obtain ⟨xs, ys, rfl⟩ := List.append_of_mem hl
      obtain ⟨c', hc', -⟩ := popRegister_spec hc hpid
      have hdata : (myR (st.2 k).localPid).data = l.row (pidOf k) := by
        rw [hc.localPid, hmy k (by omega), hrow]
      refine ⟨(⟨serial, size, some false⟩, Function.update st.2 k c'), ?_, .inr rfl,
        fun lp hlp => ?_⟩
      · rw [List.range_succ, run_append, hst, Option.bind_some]
        simp [run, processContext, check_uniform hu (by omega) hcheck, applyRequest, hdata, hc']
      · simpa [Function.update_of_ne (show lp ≠ k by omega)] using hrest lp (by omega)
  obtain ⟨st, hst, -⟩ := hrun n le_rfl
  exact ⟨st.2, congrArg (Option.map Prod.snd) hst⟩

def popping (w : ℕ → ContextReg) (l : ℕ → Live) (g : ℕ) : ContextReg :=
  queueing (w g) (popRequest g (l g))

/-- Different registrations that have one serial and one size can be popped together. -/
theorem pops_accepted (h : Mapped processors nnodes)
    (hw : ∀ g < processors, ContextInv processors g (g % icd processors nnodes) L (w g))
    {l : ℕ → Live} (hl : ∀ g < processors, l g ∈ L)
    (hsame : ∀ g < processors, (l g).serial = (l 0).serial ∧ (l g).nbytes = (l 0).nbytes)
    (fresh : ℕ → ℕ → RegReq) :
    ∃ w', syncMemoryreg processors nnodes fresh (popping w l) = some w' := by
  have hcount : SameCount processors (popping w l) 1 := fun g hg => rfl
  have hu : Uniform processors (requestAt (popping w l) 0) false (l 0).nbytes (l 0).serial :=
    fun g hg => ⟨rfl, (hsame g hg).2, (hsame g hg).1⟩
  have htaken : ∀ g < processors, Processing processors g (g % icd processors nnodes) L
      (takeRequests (popping w l g)) := by
    intro g hg
    have hempty : takeRequests (popping w l g) = w g := by
      have hnil := (hw g hg).processing.requests
      show { w g with regRequests := [] } = w g
      rw [← hnil]
    rw [hempty]
    exact (hw g hg).processing
  refine syncMemoryreg_defined fun rank hrank => ?_
  have hreq : ∀ gp < processors, requestOf processors nnodes fresh (popping w l) 1 rank 0 gp =
      requestAt (popping w l) 0 gp :=
        fun gp hgp => requestOf_eq h fresh hcount hgp hrank (by decide)
  obtain ⟨cs, hcs⟩ := processRequest_pops (uniform_congr hreq hu) (nodeHolds_start h htaken rank)
    (fun lp hlp => ownRequest_eq h fresh rank 0 lp hlp)
    fun g hg => ⟨l g, hl g hg, by rw [hreq g hg]; rfl⟩
  have hn := taskMapper_nprocs h rank
  rw [memregAt_few h hcount (by decide) Nat.one_pos hrank]
  simp only [processMemoryregOps, hn, List.range_one, run, hcs, Option.bind_some, Option.map_some]
  exact ⟨_, rfl⟩

def twoLive (g : ℕ) : Live := ⟨below 2 fun _ => 200 + 100 * g, 8, 1⟩

end Undetected

end BspOnMpi.ContextMismatch
