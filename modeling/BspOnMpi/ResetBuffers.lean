import BspOnMpi.Drma

/-! Resetting the buffers. `bspx_resetbuffers`. The row counts of the four tables are reset; the
used slots of the two request tables are not. -/

namespace BspOnMpi.ResetBuffers
open Lib Exptable Slots Delivtable DelivPush Memreg DelivExecute Reqtable Machine Bspx Calls
  BspxSync Superstep

def bspxResetbuffers (bsp : BSPObject) : BSPObject :=
  { bsp with
    requestTable := requestTableResetrowcount bsp.requestTable reqtabMinSize
    requestReceivedTable := requestTableResetrowcount bsp.requestReceivedTable reqtabMinSize
    deliveryTable := deliveryTableResetrowcount bsp.deliveryTable delivtabMinSize
    deliveryReceivedTable := deliveryTableResetrowcount bsp.deliveryReceivedTable delivtabMinSize
    messageQueue := messageQueueSync bsp.messageQueue }

def resetAll (w : World) : World := fun q => { w q with bsp := bspxResetbuffers (w q).bsp }

def freshAll (n : ℕ) (alloc : ℕ → Alloc) (w : World) : World := fun q =>
  { w q with bsp := { bspxInitBspobject (alloc q) (w q).bsp.globalArrays n q with
      memoryRegister := (w q).bsp.memoryRegister
      messageQueue := { messageQueueInitialize with
        sendTagSize := (w q).bsp.messageQueue.sendTagSize } } }

structure Emptied (n : ℕ) (bsp : BSPObject) : Prop where
  requests : Fits bsp.requestTable ∧ ∀ c < n, bsp.requestTable.usedSlotCount c = 0
  requestsReceived : Fits bsp.requestReceivedTable
  deliveries : Rep bsp.deliveryTable fun _ => []
  deliveriesReceived : Rep bsp.deliveryReceivedTable fun _ => []
  messages : bspxQsize bsp = (0, 0)

structure Undisturbed (rows : List Row) (q : ℕ) (p p' : Proc) : Prop where
  mem : p'.mem = p.mem
  messages : bspxQsize p'.bsp = (0, 0)
  tagSize : p'.bsp.messageQueue.sendTagSize = p.bsp.messageQueue.sendTagSize
  register : Registered p'.bsp.memoryRegister rows q

/-- No processor waits for a get, and none has received more requests from one processor
than the smallest table holds. -/
def Resettable (n : ℕ) (w : World) : Prop := ∀ q < n, ∀ c < n,
  (w q).bsp.requestTable.usedSlotCount c = 0 ∧
    (w q).bsp.requestReceivedTable.usedSlotCount c ≤ reqtabMinSize

section Reset

variable {n : ℕ} {rows : ℕ → List Row} {tagSize : ℕ → ℕ} {cs : ℕ → List Call} {w : World}

theorem resetrowcount_rep {t : DeliveryTable} (hslot : t.slotSize = 8) :
    Rep (deliveryTableResetrowcount t delivtabMinSize) fun _ => [] :=
  clearIndex_rep (by decide : 9 ≤ delivtabMinSize) hslot rfl

theorem resetrowcount_requests {t : RequestTable} (hn : t.nprocs = n) (hslot : t.slotSize = 24)
    (hused : ∀ c < n, t.usedSlotCount c = 0) :
    Requests (requestTableResetrowcount t reqtabMinSize) fun _ => [] := by
  have hused' : ∀ c < t.nprocs, t.usedSlotCount c = 0 := by
    intro c hc
    exact hused c (hc.trans_eq hn)
  refine ⟨⟨hused', fun c hc => ?_, fun c hc => ?_⟩, fun _ => rfl,
    (by decide : 0 < reqtabMinSize), hslot⟩
  · exact (hused' c hc).trans_le (Nat.zero_le _)
  · show load _ 0 (t.usedSlotCount c) = []
    rw [hused' c hc]
    rfl

theorem reset_clean (h : Ready n rows tagSize cs w) (hw : Resettable n w) :
    Clean n rows tagSize (resetAll w) := by
  refine ⟨fun q hq => ?_⟩
  have hl := h.logged q hq
  exact
    { rank_lt := hq
      nprocs := hl.nprocs
      rank := hl.rank
      deliv := resetrowcount_rep hl.deliv.slot
      deliv_nprocs := hl.deliv_nprocs
      req := resetrowcount_requests hl.req_nprocs hl.req.slot fun c hc => (hw q hq c hc).1
      req_nprocs := hl.req_nprocs
      reg := hl.reg
      reg_nprocs := hl.reg_nprocs
      recvDeliv := ⟨hl.recvDeliv.nprocs, (by decide : 9 ≤ delivtabMinSize), hl.recvDeliv.slot, rfl⟩
      recvReq := ⟨hl.recvReq.nprocs, (by decide : 0 < reqtabMinSize), hl.recvReq.slot⟩
      tagSize := hl.tagSize
      queue := ⟨[], rfl, fun h => absurd rfl h⟩ }

theorem fresh_clean (h : Ready n rows tagSize cs w) (alloc : ℕ → Alloc) :
    Clean n rows tagSize (freshAll n alloc w) := by
  refine ⟨fun q hq => ?_⟩
  have hl := h.logged q hq
  have hinit := (init_clean alloc (fun q => (w q).bsp.globalArrays) (fun q => (w q).mem)
    (fun q => (w q).stack) n).logged q hq
  exact
    { hinit with
      reg := hl.reg
      reg_nprocs := hl.reg_nprocs
      tagSize := hl.tagSize
      queue := ⟨[], rfl, fun h => absurd rfl h⟩ }

theorem sync_clean (h : Clean n rows tagSize w) {v : World} (hmem : ∀ q, (w q).mem = (v q).mem)
    (htag : ∀ q, (w q).bsp.messageQueue.sendTagSize = (v q).bsp.messageQueue.sendTagSize) :
    ∃ w', bspxSync n w = some w' ∧ ∀ q < n, Undisturbed (rows q) q (v q) (w' q) := by
  have hcollective : Collective n rows fun _ => [] := ⟨fun _ _ => rfl, fun _ _ => trivial⟩
  have hsync := fun q hq => syncProc_spec h hcollective (q := q) hq
  obtain ⟨w', hw'⟩ := allBelow_defined w fun q hq => (hsync q hq).imp fun _ h => h.1
  refine ⟨w', hw', fun q hq => ?_⟩
  obtain ⟨p, hp, hsynced⟩ := hsync q hq
  obtain rfl : p = w' q := Option.some.inj (hp.symm.trans ((allBelow_eq_some hw').1 q hq))
  have hinbox : inboxAfter n (fun _ => []) q = [] := by simp [inboxAfter, sendsTo]
  have hrows : rowsAfter n (fun _ => []) (rows q) q = rows q := by
    simp [rowsAfter, newRows, pushes, pops, popRows]
  have hwrites : writesTo n (fun _ => []) (fun p => (w p).mem) q = [] :=
    List.flatMap_eq_nil_iff.mpr fun p _ => rfl
  have hreg := hsynced.logged.reg
  have hqueue := hsynced.queue.nMesg
  have haccum := hsynced.accumSize
  rw [hrows] at hreg
  rw [hinbox] at hqueue haccum
  refine ⟨?_, Prod.ext hqueue haccum, ?_, hreg⟩
  · rw [hsynced.mem, memAfter, hwrites, ← hmem q]
    rfl
  · rw [hsynced.logged.tagSize, ← htag q, (h.logged q hq).tagSize]
    rfl

end Reset

/-- Runs of supersteps in which all processors may also reset their buffers, when they
can. -/
inductive Run (n : ℕ) : (ℕ → List Row) → (ℕ → ℕ) → World → Prop
  | init (alloc : ℕ → Alloc) (globalArrays : ℕ → ℕ → GlobalArray) (mem : ℕ → Mem) (stack : ℕ → ℕ) :
    Run n (fun _ => []) (fun _ => 0) (initWorld alloc globalArrays mem stack n)
  | sync {rows : ℕ → List Row} {tagSize : ℕ → ℕ} {w w' : World} {ops : ℕ → List Op}
    (hr : Run n rows tagSize w) (ha : Admissible n rows tagSize ops w)
    (hs : superstep n ops w = some w') :
    Run n (fun q => rowsAfter n (callsAt n rows tagSize ops w) (rows q) q)
      (fun q => tagAfter (tagSize q) (callsAt n rows tagSize ops w q)) w'
  | reset {rows : ℕ → List Row} {tagSize : ℕ → ℕ} {w v : World} {ops : ℕ → List Op}
    (hr : Run n rows tagSize w)
    (ha : ∀ p < n, Along exec (Admitted ⟨n, p, rows p, tagSize p⟩) (ops p) (w p))
    (hv : localPhase n ops w = some v) (hw : Resettable n v) : Run n rows tagSize (resetAll v)

section Runs

variable {n : ℕ} {rows : ℕ → List Row} {tagSize : ℕ → ℕ} {w v : World} {ops : ℕ → List Op}

theorem localPhase_logs (h : Clean n rows tagSize w)
    (ha : ∀ p < n, Along exec (Admitted ⟨n, p, rows p, tagSize p⟩) (ops p) (w p))
    (hv : localPhase n ops w = some v) : Ready n rows tagSize (callsAt n rows tagSize ops w) v := by
  obtain ⟨v', hv', hready, -⟩ := localPhase_ready h ha
  rw [hv] at hv'
  cases hv'
  exact hready

theorem run_clean (h : Run n rows tagSize w) : Clean n rows tagSize w := by
  induction h with
  | init alloc globalArrays mem stack => exact init_clean alloc globalArrays mem stack n
  | sync hr ha hs ih =>
    obtain ⟨v, -, hsync⟩ := superstep_synced ih ha hs
    exact ⟨fun q hq => (hsync q hq).logged⟩
  | reset hr ha hv hw ih => exact reset_clean (localPhase_logs ih ha hv) hw

theorem reachable_run {P : (ℕ → List Call) → Prop} (h : Reachable n P rows tagSize w) :
    Run n rows tagSize w := by
  induction h with
  | init alloc globalArrays mem stack => exact Run.init alloc globalArrays mem stack
  | step hr ha hP hs ih => exact Run.sync ih ha hs

end Runs

/-- What a reset should leave: emptied tables, and a synchronisation that does the same
as one of fresh objects. -/
structure ResetClean (n : ℕ) (rows : ℕ → List Row) (w : World) : Prop where
  emptied : ∀ q < n, Emptied n (resetAll w q).bsp
  sync : ∃ w', bspxSync n (resetAll w) = some w' ∧
    ∀ q < n, Undisturbed (rows q) q (w q) (w' q)
  freshSync : ∀ alloc, ∃ w', bspxSync n (freshAll n alloc w) = some w' ∧
    ∀ q < n, Undisturbed (rows q) q (w q) (w' q)

/-- The state of a superstep can be reset when no get waits and no column of received
requests is too long. -/
theorem resetClean_iff {n : ℕ} {rows : ℕ → List Row} {tagSize : ℕ → ℕ} {ops : ℕ → List Op}
    {w v : World} (hr : Run n rows tagSize w)
    (ha : ∀ p < n, Along exec (Admitted ⟨n, p, rows p, tagSize p⟩) (ops p) (w p))
    (hv : localPhase n ops w = some v) : ResetClean n rows v ↔ Resettable n v := by
  have hready := localPhase_logs (run_clean hr) ha hv
  constructor
  · intro h q hq c hc
    have hl := hready.logged q hq
    have hemptied := h.emptied q hq
    exact ⟨hemptied.requests.2 c hc,
      hemptied.requestsReceived c (hc.trans_eq hl.recvReq.nprocs.symm)⟩
  · intro hw
    have hclean := reset_clean hready hw
    refine ⟨fun q hq => ?_, sync_clean hclean (fun _ => rfl) fun _ => rfl, fun alloc =>
      sync_clean (fresh_clean hready alloc) (fun _ => rfl) fun _ => rfl⟩
    have hl := hclean.logged q hq
    refine ⟨⟨hl.req.holds.fits, fun c hc => (hw q hq c hc).1⟩, fun c hc => ?_, hl.deliv, ?_, rfl⟩
    · exact (hw q hq c (hc.trans_eq (hready.logged q hq).recvReq.nprocs)).2
    · exact resetrowcount_rep (hready.logged q hq).recvDeliv.slot

theorem resetClean_registrations : ∃ v, localPhase 2 Drma.registerOps (startWorld 2) = some v ∧
    ResetClean 2 (fun _ => []) v := by
  have hstart := reachable_run (startWorld_reachable 2 fun _ => True)
  obtain ⟨v, hv, hready, hrun⟩ := localPhase_ready (run_clean hstart)
    Drma.register_admissible.admitted
  refine ⟨v, hv, (resetClean_iff hstart Drma.register_admissible.admitted hv).mpr ?_⟩
  intro q hq c hc
  have hvq := Option.some.inj (hrun q hq)
  rw [← hvq]
  exact ⟨rfl, Nat.zero_le _⟩

/-- Processor 1 still has its get after the reset. -/
theorem reset_keeps_get : ∃ rows tagSize w v, Run 2 rows tagSize w ∧
    localPhase 2 Drma.putGetOps w = some v ∧
      (resetAll v 1).bsp.requestTable.usedSlotCount 0 = 1 ∧ ¬ ResetClean 2 rows v := by
  obtain ⟨w, -, hr⟩ := Drma.register_reachable (fun _ => True) trivial
  have hrun := reachable_run hr
  obtain ⟨v, hv, hready, -⟩ := localPhase_ready (run_clean hrun) (Drma.putGet_admissible w).admitted
  have hused := (hready.logged 1 (by decide)).req.holds.used 0 (by
    rw [(hready.logged 1 (by decide)).req_nprocs]
    decide)
  rw [(Drma.putGet_calls w).2] at hused
  have hone : (resetAll v 1).bsp.requestTable.usedSlotCount 0 = 1 := hused
  refine ⟨_, _, w, v, hrun, hv, hone, fun h => ?_⟩
  have hzero := (h.emptied 1 (by decide)).requests.2 0 (by decide)
  rw [hone] at hzero
  cases hzero

end BspOnMpi.ResetBuffers
