import BspOnMpi.ContextAgreement
import BspOnMpi.ContextRegister

/-! Growth of the receive buffers. The rows of `request_received_table` over runs of `bsp_sync`:
the table is expanded by the largest number of received requests in every superstep that has some.
-/

namespace BspOnMpi.ContextGrowth
open Lib Exptable Memreg Reqtable Machine Calls Mapper ContextMemreg ContextLive ContextRuns
  LocalDelivery Contexts ContextLog ContextSync ContextSuperstep ContextProgram ContextAgreement
  ContextRegister
open BspxSync (syncReset)
open Bspx hiding exec

section Frame

variable {processors nnodes q : ℕ}

theorem exec_received {e : ℕ × ContextOp} {node node' : Node}
    (h : exec processors nnodes q e node = some node') :
    node'.proc.bsp.requestReceivedTable = node.proc.bsp.requestReceivedTable := by
  obtain ⟨l, op⟩ := e
  cases op with
  | pushReg | popReg =>
    obtain ⟨reg, -, rfl⟩ := Option.map_eq_some_iff.mp h
    rfl
  | put | get | hpput | hpget =>
    obtain ⟨base, -, rfl⟩ := Option.map_eq_some_iff.mp h
    split <;> rfl
  | send | hpsend =>
    simp only [exec] at h
    split at h
    · cases h
      rfl
    · obtain ⟨bsp, hsend, rfl⟩ := Option.map_eq_some_iff.mp h
      rw [remoteSend] at hsend
      split at hsend
      · cases hsend
        rfl
      · cases hsend
  | setTagsize | getTag | compute | hpmove =>
    cases h
    rfl
  | move =>
    obtain ⟨r, -, rfl⟩ := Option.map_eq_some_iff.mp h
    rfl

theorem run_received {ops : List (ℕ × ContextOp)} {node node' : Node}
    (h : run (exec processors nnodes q) ops node = some node') :
    node'.proc.bsp.requestReceivedTable = node.proc.bsp.requestReceivedTable :=
  run_preserves (fun _ _ _ _ hp hs => (exec_received hs).trans hp) h rfl

theorem splitQueue_received {n k : ℕ} {node node' : Node} (h : splitQueue n k node = some node') :
    node'.proc.bsp.requestReceivedTable = node.proc.bsp.requestReceivedTable := by
  induction k generalizing node with
  | zero => cases h
  | succ k ih =>
    obtain ⟨⟨bsp, r⟩, hmove, hrest⟩ := Option.bind_eq_some_iff.mp h
    have hbsp : bsp.requestReceivedTable = node.proc.bsp.requestReceivedTable := by
      rw [bspxHpmove] at hmove
      split at hmove
      · cases hmove
        rfl
      · obtain ⟨message, -, hret⟩ := Option.map_eq_some_iff.mp hmove
        cases hret
        rfl
    cases r with
    | none =>
      cases hrest
      exact hbsp
    | some r =>
      simp only at hrest
      split at hrest
      · rw [ih hrest]
        exact hbsp
      · cases hrest

theorem finish_received (n : ℕ) (node : Node) :
    (finish n node).proc.bsp.requestReceivedTable = node.proc.bsp.requestReceivedTable := by
  have hproc : ∀ (lps : List ℕ) (node : Node), (lps.foldl
      (fun node lp => node.onQueue lp LocalDeliveryQueue.bsmpMessagequeueSync) node).proc =
        node.proc := by
    intro lps
    induction lps with
    | nil => exact fun _ => rfl
    | cons lp lps ih => exact fun node => ih _
  simp only [finish, Node.onBsp, hproc]

end Frame

section Superstep

variable {processors nnodes : ℕ} {tagSize : ℕ → ℕ} {logs : ℕ → List (ℕ × ContextCall)}
  {w : ℕ → Node}
  {q : ℕ}

/-- The largest number of requests that node `q` receives from one node. -/
def received (processors nnodes : ℕ) (logs : ℕ → List (ℕ × ContextCall)) (q : ℕ) : ℕ :=
  largest (fun p => (columnRequests (nodeCalls processors nnodes p (logs p)) q).length) nnodes

theorem arrayMax_three (array : ℕ → ℕ) (n : ℕ) :
    arrayMax array (3 * n) 3 = largest (fun p => array (3 * p)) n := by
  induction n with
  | zero => rfl
  | succ n ih =>
    have hthree : 3 * (n + 1) = 3 * n + 1 + 1 + 1 := by omega
    have h0 : 3 * n % 3 = 0 := by omega
    have h1 : (3 * n + 1) % 3 ≠ 0 := by omega
    have h2 : (3 * n + 1 + 1) % 3 ≠ 0 := by omega
    rw [largest_succ, ← ih, arrayMax, hthree, List.range_succ, List.range_succ, List.range_succ]
    simp only [List.foldl_append, List.foldl_cons, List.foldl_nil, if_pos h0, if_neg h1, if_neg h2]
    rfl

variable (h : NodesReady processors nnodes tagSize logs w)

include h

theorem recvAt_received (hq : q < nnodes) :
    arrayMax (recvAt processors nnodes w q) (3 * nnodes) 3 = received processors nnodes logs q := by
  rw [arrayMax_three]
  apply largest_congr
  intro p hp
  exact recvAt_request h hp hq

theorem received_zero (hq : q < nnodes) (hany : anyGetsAt processors nnodes w q = false) :
    received processors nnodes logs q = 0 := by
  have hlt : received processors nnodes logs q < 1 := by
    apply largest_lt Nat.one_pos
    intro p hp
    rw [no_gets h hq hany hp hq]
    exact Nat.one_pos
  omega

theorem afterRequests_rows (hq : q < nnodes) :
    (afterRequests processors nnodes w q).requestReceivedTable.rows =
      (w q).proc.bsp.requestReceivedTable.rows + received processors nnodes logs q := by
  let bsp := syncReset (afterLocal processors nnodes w q).proc.bsp
  have hrows : bsp.requestReceivedTable.rows = (w q).proc.bsp.requestReceivedTable.rows := by
    simp only [bsp, afterLocal_bsp]
    rfl
  have hn : bsp.nprocs = nnodes := (afterLocal_logged h hq).nprocs
  by_cases hex : exchangesAt processors nnodes w q = true
  · by_cases hany : anyGetsAt processors nnodes w q = true
    · have hmax := recvAt_received h hq
      rw [afterRequests, if_pos hex, syncRequests, if_pos hany]
      simp only [expandableTableComm, afterExpand, if_pos hex, syncExpand, if_pos hany]
      rw [show (syncReset (afterLocal processors nnodes w q).proc.bsp).nprocs = nnodes from hn,
        hmax]
      by_cases hpos : 0 < received processors nnodes logs q
      · rw [if_pos hpos, requestTableExpand, expand_rows, Nat.add_comm, ← hrows]
      · rw [if_neg hpos, Nat.eq_zero_of_not_pos hpos, Nat.add_zero, ← hrows]
    · rw [received_zero h hq (by simpa using hany), Nat.add_zero, ← hrows]
      rw [afterRequests, if_pos hex, syncRequests, if_neg hany]
      simp only [afterExpand, if_pos hex, syncExpand, if_neg hany, bsp]
  · have hany : anyGetsAt processors nnodes w q = false := by
      rw [exchangesAt, Bool.or_eq_true, not_or] at hex
      simpa using hex.2
    rw [received_zero h hq hany, Nat.add_zero, ← hrows, afterRequests, if_neg hex, afterExpand,
      if_neg hex]

theorem syncNode_rows (hq : q < nnodes) {node : Node}
    (hs : syncNode processors nnodes w q = some node) :
    node.proc.bsp.requestReceivedTable.rows =
      (w q).proc.bsp.requestReceivedTable.rows + received processors nnodes logs q := by
  obtain ⟨split, hreceive, rfl⟩ := Option.map_eq_some_iff.mp hs
  rw [finish_received, ← afterRequests_rows h hq]
  rw [receiveAt] at hreceive
  by_cases hex : exchangesAt processors nnodes w q = true
  · rw [if_pos hex] at hreceive
    obtain ⟨r, hdeliver, hsplit⟩ := Option.bind_eq_some_iff.mp hreceive
    obtain ⟨st, -, rfl⟩ := Option.map_eq_some_iff.mp hdeliver
    rw [splitQueue_received hsplit]
    rfl
  · rw [if_neg hex] at hreceive
    cases hreceive
    rfl

end Superstep

/-- Worlds with the largest numbers of requests that the nodes have received in the
supersteps so far. -/
inductive Counted (processors nnodes : ℕ) : (ℕ → List ℕ) → (ℕ → ℕ) → (ℕ → Node) → Prop
  | init (x : ℕ → Start) :
    Counted processors nnodes (fun _ => []) (fun _ => 0) fun q => initNode processors nnodes (x q) q
  | step {counts : ℕ → List ℕ} {tagSize : ℕ → ℕ} {w w' : ℕ → Node} {ops : ℕ → List (ℕ × ContextOp)}
    {fresh : ℕ → ℕ → RegReq} (hr : Counted processors nnodes counts tagSize w)
    (ha : Admissible processors nnodes ops w)
    (hs : superstep processors nnodes fresh ops w = some w') :
    Counted processors nnodes
      (fun q => counts q ++ [received processors nnodes (logsAt processors nnodes ops w) q])
      (tagsAfter processors nnodes ops w tagSize) w'

section Runs

variable {processors nnodes : ℕ} {counts : ℕ → List ℕ} {tagSize : ℕ → ℕ} {w : ℕ → Node} {q : ℕ}

theorem counted_reachable (hr : Counted processors nnodes counts tagSize w) :
    Reachable processors nnodes tagSize w := by
  induction hr with
  | init x => exact .init x
  | step hr ha hs ih => exact .step ih ha hs

theorem constructed_received (n : ℕ) (bsp : BSPObject) :
    (constructed n bsp).requestReceivedTable = bsp.requestReceivedTable := by
  induction n with
  | zero => rfl
  | succ n ih =>
    rw [constructed, List.range_succ, List.foldl_append]
    exact ih

theorem superstep_rows (hm : Mapped processors nnodes) (hp : processors ≤ 2 ^ 31)
    (hr : Reachable processors nnodes tagSize w) {ops : ℕ → List (ℕ × ContextOp)}
    (ha : Admissible processors nnodes ops w) {fresh : ℕ → ℕ → RegReq} {w' : ℕ → Node}
    (hs : superstep processors nnodes fresh ops w = some w') (hq : q < nnodes) :
    (w' q).proc.bsp.requestReceivedTable.rows = (w q).proc.bsp.requestReceivedTable.rows +
      received processors nnodes (logsAt processors nnodes ops w) q := by
  obtain ⟨v, hv, hready, hrun⟩ := localPhase_spec (reachable_ready hm hp hr).1 ha.admitted
  rw [superstep, hv, Option.bind_some] at hs
  obtain ⟨regs, -, hall⟩ := Option.bind_eq_some_iff.mp hs
  obtain ⟨node, hnode, hregs⟩ := Option.map_eq_some_iff.mp ((allBelow_eq_some hall).1 q hq)
  have hrows := syncNode_rows hready hq hnode
  rw [run_received (hrun q hq).1] at hrows
  rw [← hregs]
  exact hrows

theorem counted_rows (hm : Mapped processors nnodes) (hp : processors ≤ 2 ^ 31)
    (hr : Counted processors nnodes counts tagSize w) (hq : q < nnodes) :
    (w q).proc.bsp.requestReceivedTable.rows = reqtabMinSize + (counts q).sum := by
  induction hr with
  | init x =>
    simp only [initNode, constructed_received]
    rfl
  | step hr ha hs ih =>
    rw [superstep_rows hm hp (counted_reachable hr) ha hs hq, ih, List.sum_append,
      List.sum_singleton, Nat.add_assoc]

end Runs

section Requests

variable {processors nnodes : ℕ} {w : ℕ → Node} {q : ℕ}

def getOps (q : ℕ) : List (ℕ × ContextOp) := if q = 1 then [(0, .get 0 100 0 50 1)] else []

theorem second_node (hm : Mapped processors nnodes) (hmany : icd processors nnodes < processors) :
    1 < nnodes ∧ 0 < contextsOn processors nnodes 1 := by
  have hnode : nodeOf processors nnodes (icd processors nnodes) = 1 := Nat.div_self (icd_pos hm)
  have hlocal : localOf processors nnodes (icd processors nnodes) = 0 := Nat.mod_self _
  have h1 := nodeOf_lt hm hmany
  have h2 := localOf_lt hm hmany
  rw [hnode] at h1 h2
  rw [hlocal] at h2
  exact ⟨h1, h2⟩

theorem getOps_log (hm : Mapped processors nnodes) (hmany : icd processors nnodes < processors)
    (hw : AllHold processors nnodes w) :
    logsAt processors nnodes getOps w q = if q = 1 then [(0, .get 0 100 0 50 1)] else [] := by
  rw [logsAt, logOf, getOps]
  by_cases hq : q = 1
  · subst hq
    obtain ⟨-, hlp⟩ := second_node hm hmany
    have hbase := find_byte hm hw hlp hm.processors_pos
    rw [if_pos rfl, if_pos rfl, trace_singleton]
    simp only [emit, hbase]
    rfl
  · rw [if_neg hq, if_neg hq]
    rfl

theorem getOps_received (hm : Mapped processors nnodes) (hmany : icd processors nnodes < processors)
    (hw : AllHold processors nnodes w) :
    received processors nnodes (logsAt processors nnodes getOps w) q = if q = 0 then 1 else 0 := by
  have hzero : nodeOf processors nnodes 0 = 0 := Nat.zero_div _
  have hcount : ∀ p, (columnRequests (nodeCalls processors nnodes p
      (logsAt processors nnodes getOps w p)) q).length = if p = 1 ∧ q = 0 then 1 else 0 := by
    intro p
    rw [getOps_log hm hmany hw]
    by_cases hp : p = 1
    · subst hp
      by_cases hq : q = 0
      · subst hq
        simp [nodeCalls, nodeCall, hzero, columnRequests, requestsFor]
      · simp [nodeCalls, nodeCall, hzero, columnRequests, requestsFor, hq, Ne.symm hq]
    · simp [hp, nodeCalls, columnRequests]
  simp only [received, hcount]
  by_cases hq : q = 0
  · subst hq
    rw [if_pos rfl]
    apply Nat.le_antisymm
    · refine Nat.le_of_lt_succ (largest_lt (by omega) fun p _ => ?_)
      split <;> omega
    · exact le_largest (fun p => if p = 1 ∧ 0 = 0 then 1 else 0) (second_node hm hmany).1
  · rw [if_neg hq]
    refine Nat.lt_one_iff.mp (largest_lt Nat.one_pos fun p _ => ?_)
    rw [if_neg fun h => hq h.2]
    exact Nat.one_pos

theorem getOps_superstep (hm : Mapped processors nnodes) (hp : processors ≤ 2 ^ 31)
    (hmany : icd processors nnodes < processors) {tagSize : ℕ → ℕ}
    (hr : Reachable processors nnodes tagSize w) (hw : AllHold processors nnodes w)
    (fresh : ℕ → ℕ → RegReq) :
    ∃ w', superstep processors nnodes fresh getOps w = some w' ∧
      Admissible processors nnodes getOps w ∧ AllHold processors nnodes w' := by
  have haccess : ∀ q < nnodes, ∀ e ∈ getOps q, Access e.2 := by
    intro q _ e he
    rw [getOps] at he
    split at he
    · cases List.mem_singleton.mp he
      trivial
    · cases he
  have hstatic : ∀ q, ∀ e ∈ getOps q, Static processors nnodes q (tagSize q)
      (fun lp => ((w q).contexts lp).reg) e := by
    intro q e he
    rw [getOps] at he
    split at he
    · rename_i hq
      subst hq
      cases List.mem_singleton.mp he
      obtain ⟨-, hlp⟩ := second_node hm hmany
      have hfind := find_byte hm hw hlp hm.processors_pos
      exact ⟨hlp, hm.processors_pos, by omega, by omega, by omega,
        fun hnone => Option.some_ne_none _ (hfind.symm.trans hnone)⟩
    · cases he
  have hadmissible : Admissible processors nnodes getOps w := by
    refine ⟨fun q hq => along_static hm ((reachable_ready hm hp hr).1.logged q hq) (fun _ => rfl)
      (hstatic q), [], fun q _ lp _ => ?_⟩
    rw [getOps]
    split <;> rfl
  obtain ⟨v, w', hv, hsync, -⟩ := access_superstep hm hp hr haccess hadmissible fresh
  have hs : superstep processors nnodes fresh getOps w = some w' := by
    rw [superstep, hv]
    exact hsync
  refine ⟨w', hs, hadmissible, fun g hg => ?_⟩
  rw [superstep_regs hm (fun q hq e he => access_registers (haccess q hq e he))
    (reachable_skips hm hr) hs hg]
  exact hw g hg

theorem counted_any (hm : Mapped processors nnodes) (hp : processors ≤ 2 ^ 31)
    (hmany : icd processors nnodes < processors) (k : ℕ) :
    ∃ counts tagSize w, Counted processors nnodes counts tagSize w ∧ AllHold processors nnodes w ∧
      (∀ q, ∀ c ∈ counts q, c ≤ 1) ∧ (counts 0).sum = k := by
  have hfresh : ℕ → ℕ → RegReq := fun _ _ => ⟨0, 0, 0, false⟩
  induction k with
  | zero =>
    obtain ⟨w', hs, ha, hw'⟩ := byte_superstep hm hp (fun _ => sampleStart) hfresh
    have hzero : ∀ q, received processors nnodes (logsAt processors nnodes
        (registerOps processors nnodes (fun _ => 100) 1) fun q =>
          initNode processors nnodes sampleStart q) q = 0 := by
      intro q
      refine Nat.lt_one_iff.mp (largest_lt Nat.one_pos fun p _ => ?_)
      rw [logsAt, registerOps_log]
      exact Nat.one_pos
    refine ⟨_, _, w', .step (.init fun _ => sampleStart) ha hs, hw', fun q c hc => ?_, ?_⟩
    · rw [List.nil_append, hzero] at hc
      rw [List.mem_singleton.mp hc]
      exact Nat.zero_le 1
    · rw [List.nil_append, hzero]
      rfl
  | succ k ih =>
    obtain ⟨counts, tagSize, w, hr, hw, hone, hsum⟩ := ih
    obtain ⟨w', hs, ha, hw'⟩ :=
      getOps_superstep hm hp hmany (counted_reachable hr) hw hfresh
    refine ⟨_, _, w', .step hr ha hs, hw', fun q c hc => ?_, ?_⟩
    · rcases List.mem_append.mp hc with hold | hnew
      · exact hone q c hold
      · rw [List.mem_singleton.mp hnew, getOps_received hm hmany hw]
        split <;> omega
    · rw [List.sum_append, hsum, getOps_received hm hmany hw]
      rfl

end Requests

section Bounds

variable {processors nnodes : ℕ}

theorem received_local (hm : Mapped processors nnodes) (hone : processors ≤ icd processors nnodes)
    {tagSize : ℕ → ℕ} {logs : ℕ → List (ℕ × ContextCall)}
    (hsound : ∀ p < nnodes, ∀ c ∈ logs p, Sound processors nnodes p (tagSize p) c) (q : ℕ) :
    received processors nnodes logs q = 0 := by
  refine Nat.lt_one_iff.mp (largest_lt Nat.one_pos fun p hp => ?_)
  have hnil : columnRequests (nodeCalls processors nnodes p (logs p)) q = [] := by
    rw [columnRequests, List.flatMap_eq_nil_iff]
    intro call hcall
    obtain ⟨⟨lp, c⟩, hc, hnode⟩ := List.mem_filterMap.mp hcall
    obtain ⟨hlp, hpid⟩ := hsound p hp _ hc
    have hzero : p = 0 := by
      obtain ⟨hlt, hdiv, -⟩ := local_global hm hlp
      rw [← hdiv]
      exact Nat.div_eq_of_lt (hlt.trans_le hone)
    cases c with
    | get pid src offset dst size =>
      have hown : nodeOf processors nnodes pid = p := by
        rw [hzero]
        exact Nat.div_eq_of_lt (lt_of_lt_of_le hpid hone)
      simp [nodeCall, hown] at hnode
    | put | send | hpsend =>
      simp only [nodeCall, Option.ite_none_left_eq_some, Option.some.injEq] at hnode
      rw [← hnode.2]
      rfl
    | setTagsize =>
      cases hnode
      rfl
  rw [hnil]
  exact Nat.one_pos

theorem counted_local (hm : Mapped processors nnodes) (hp : processors ≤ 2 ^ 31)
    (hone : processors ≤ icd processors nnodes) {counts : ℕ → List ℕ} {tagSize : ℕ → ℕ}
    {w : ℕ → Node}
    (hr : Counted processors nnodes counts tagSize w) (q : ℕ) : (counts q).sum = 0 := by
  induction hr with
  | init x => rfl
  | step hr ha hs ih =>
    obtain ⟨v, -, -, hrun⟩ :=
      localPhase_spec (reachable_ready hm hp (counted_reachable hr)).1 ha.admitted
    rw [List.sum_append, ih, received_local hm hone fun p hp => (hrun p hp).2]
    rfl

/-- One number of rows, other than the largest `unsigned int`, suffices for all runs in which
no node receives more than `R` requests from one node. -/
def Bounded (processors nnodes R : ℕ) : Prop :=
  ∃ bound < 2 ^ 32 - 1, ∀ counts tagSize w, Counted processors nnodes counts tagSize w →
    (∀ q < nnodes, ∀ c ∈ counts q, c ≤ R) →
    ∀ q < nnodes, (w q).proc.bsp.requestReceivedTable.rows ≤ bound

theorem not_bounded (hm : Mapped processors nnodes) (hp : processors ≤ 2 ^ 31)
    (hmany : icd processors nnodes < processors) {R : ℕ} (hR : 0 < R) :
    ¬ Bounded processors nnodes R := by
  rintro ⟨bound, -, hall⟩
  obtain ⟨counts, tagSize, w, hr, -, hone, hsum⟩ :=
    counted_any hm hp hmany (bound + 1 - reqtabMinSize)
  have hle := hall counts tagSize w hr (fun q _ c hc => (hone q c hc).trans hR) 0 hm.nnodes_pos
  rw [counted_rows hm hp hr hm.nnodes_pos, hsum] at hle
  omega

/-- The table grows with the run unless there is nothing to receive. -/
theorem rows_bounded_iff (hm : Mapped processors nnodes) (hp : processors ≤ 2 ^ 31) :
    (∀ R, Bounded processors nnodes R ↔ R = 0 ∨ processors ≤ icd processors nnodes) ∧
      ∀ counts tagSize w, Counted processors nnodes counts tagSize w → ∀ q < nnodes,
        (w q).proc.bsp.requestReceivedTable.rows = reqtabMinSize + (counts q).sum := by
  refine ⟨fun R => ⟨fun h => ?_, fun h => ⟨reqtabMinSize, by decide, ?_⟩⟩, ?_⟩
  · by_contra hne
    rw [not_or, Nat.not_le] at hne
    exact not_bounded hm hp hne.2 (Nat.pos_of_ne_zero hne.1) h
  · intro counts tagSize w hr hR q hq
    have hzero : (counts q).sum = 0 := by
      rcases h with rfl | hone
      · exact List.sum_eq_zero_iff_forall_eq_nat.mpr fun c hc => Nat.le_zero.mp (hR q hq c hc)
      · exact counted_local hm hp hone hr q
    exact Nat.le_of_eq (by rw [counted_rows hm hp hr hq, hzero, Nat.add_zero])
  · intro counts tagSize w hr q hq
    exact counted_rows hm hp hr hq

theorem rows_bounded_two : Mapped 2 2 ∧ (2 : ℕ) ≤ 2 ^ 31 ∧
    (∀ R, Bounded 2 2 R ↔ R = 0 ∨ 2 ≤ icd 2 2) ∧
      ∀ counts tagSize w, Counted 2 2 counts tagSize w → ∀ q < 2,
        (w q).proc.bsp.requestReceivedTable.rows = reqtabMinSize + (counts q).sum :=
  ⟨⟨by decide, by decide⟩, by decide, rows_bounded_iff ⟨by decide, by decide⟩ (by decide)⟩

theorem rows_unbounded : ¬ Bounded 2 2 1 :=
  not_bounded ⟨by decide, by decide⟩ (by decide) (by decide) Nat.one_pos

end Bounds

end BspOnMpi.ContextGrowth
