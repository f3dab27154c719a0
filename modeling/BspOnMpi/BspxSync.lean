import BspOnMpi.Exchange

/-! Synchronisation. `bspx_sync`, run by all processors in lock step: every exchange takes what
the processors have at the same point of their code. The communicator copies `min (sendcount,
recvcount)` bytes for every pair of processors. -/

namespace BspOnMpi.BspxSync
open Lib Exptable Slots Delivtable DelivPush Memreg DelivExecute Reqtable Machine Bspx Calls
open Exchange (three_div three_mod)

/-- Up to the exchange of the indices. -/
def syncReset (bsp : BSPObject) : BSPObject :=
  { bsp with
    messageQueue := messageQueueSync bsp.messageQueue
    requestReceivedTable := requestTableReset bsp.requestReceivedTable
    deliveryReceivedTable := deliveryTableReset bsp.deliveryReceivedTable }

def anyOf (array : ℕ → ℕ) (nprocs : ℕ) : ℕ :=
  (List.range nprocs).foldl (fun anyGets p => anyGets ||| array p) 0

def sendIndex (bsp : BSPObject) (i : ℕ) : ℕ :=
  match i % 3 with
  | 0 => bsp.requestTable.usedSlotCount (i / 3)
  | 1 => bsp.deliveryTable.usedSlotCount (i / 3)
  | _ => anyOf bsp.requestTable.usedSlotCount bsp.nprocs

/-- `infocomm`: processor `q` receives three words from every processor. -/
def recvIndex (w : ℕ → BSPObject) (q i : ℕ) : ℕ := sendIndex (w (i / 3)) (3 * q + i % 3)

def syncExpand (bsp : BSPObject) (recvIndex : ℕ → ℕ) : BSPObject :=
  let req := bsp.requestReceivedTable
  let deliv := bsp.deliveryReceivedTable
  let dataSizes := bsp.requestTable.info.dataSizes
  let maxreqrows := arrayMax recvIndex (3 * bsp.nprocs) 3
  let maxdelrows := (List.range bsp.nprocs).foldl
    (fun maxdelrows p => max (recvIndex (1 + 3 * p) + dataSizes p) maxdelrows) 0
  let req := if req.rows < maxreqrows then requestTableExpand req (max req.rows maxreqrows) else req
  let deliv := if deliv.rows < maxdelrows then deliveryTableExpand deliv (max deliv.rows maxdelrows)
    else deliv
  { bsp with
    requestReceivedTable := { req with
      usedSlotCount := fun p => if p < bsp.nprocs then recvIndex (3 * p) else req.usedSlotCount p }
    deliveryReceivedTable := { deliv with
      usedSlotCount := fun p =>
        if p < bsp.nprocs then recvIndex (1 + 3 * p) + dataSizes p else deliv.usedSlotCount p } }

def syncRequests (w : ℕ → BSPObject) (recvIndex : ℕ → ℕ) (mem : Mem) (next q : ℕ) : BSPObject :=
  let bsp := w q
  if anyOf (fun p => recvIndex (3 * p + 2)) bsp.nprocs ≠ 0 then
    let req := expandableTableComm (fun p => (w p).requestTable) bsp.requestReceivedTable q
    { bsp with
      requestReceivedTable := req
      deliveryTable := requestTableExecute req bsp.deliveryTable mem next }
  else bsp

def syncDeliver (w : ℕ → BSPObject) (mem : Mem) (q : ℕ) : Option (BSPObject × Mem) :=
  let bsp := w q
  let recv := expandableTableComm (fun p => (w p).deliveryTable) bsp.deliveryReceivedTable q
  (deliveryTableExecute recv bsp.memoryRegister bsp.messageQueue mem bsp.rank).map fun st =>
    ({ bsp with
        deliveryReceivedTable := st.table
        messageQueue := st.mesgq
        requestTable := requestTableReset bsp.requestTable
        deliveryTable := deliveryTableReset bsp.deliveryTable
        memoryRegister := memoryRegisterPack st.memreg }, st.mem)

abbrev World := ℕ → Proc

def afterReset (w : World) : ℕ → BSPObject := fun p => syncReset (w p).bsp

def afterExpand (w : World) : ℕ → BSPObject := fun p =>
  syncExpand (afterReset w p) (recvIndex (afterReset w) p)

def afterRequests (w : World) : ℕ → BSPObject := fun p =>
  syncRequests (afterExpand w) (recvIndex (afterReset w) p) (w p).mem (w p).stack p

def syncProc (w : World) (q : ℕ) : Option Proc :=
  (syncDeliver (afterRequests w) (w q).mem q).map fun r => { w q with bsp := r.1, mem := r.2 }

/-- `bspx_sync` on the processors below `n`, undefined when one of them aborts. -/
def bspxSync (n : ℕ) (w : World) : Option World := allBelow n (syncProc w) w

def localPhase (n : ℕ) (ops : ℕ → List Op) (w : World) : Option World :=
  allBelow n (fun p => run exec (ops p) (w p)) w

def superstep (n : ℕ) (ops : ℕ → List Op) (w : World) : Option World :=
  (localPhase n ops w).bind (bspxSync n)

theorem anyOf_eq_zero {array : ℕ → ℕ} {n : ℕ} : anyOf array n = 0 ↔ ∀ p < n, array p = 0 := by
  induction n with
  | zero => simp [anyOf]
  | succ n ih =>
    have hstep : anyOf array (n + 1) = anyOf array n ||| array n := by
      simp [anyOf, List.range_succ]
    rw [hstep, Nat.or_eq_zero_iff, ih]
    constructor
    · rintro ⟨h1, h2⟩ p hp
      rcases Nat.lt_or_eq_of_le (Nat.le_of_lt_succ hp) with hlt | rfl
      · exact h1 p hlt
      · exact h2
    · exact fun h => ⟨fun p hp => h p (by omega), h n (by omega)⟩

theorem recvIndex_request (w : ℕ → BSPObject) (q p : ℕ) :
    recvIndex w q (3 * p) = (w p).requestTable.usedSlotCount q := by
  have hdiv := three_div p (Nat.zero_lt_succ 2)
  have hmod := three_mod p (Nat.zero_lt_succ 2)
  rw [Nat.add_zero] at hdiv hmod
  simp (disch := decide) only [recvIndex, sendIndex, hdiv, hmod, three_div, three_mod]

theorem recvIndex_delivery (w : ℕ → BSPObject) (q p : ℕ) :
    recvIndex w q (1 + 3 * p) = (w p).deliveryTable.usedSlotCount q := by
  rw [Nat.add_comm]
  simp (disch := decide) only [recvIndex, sendIndex, three_div, three_mod]

theorem recvIndex_anyGets (w : ℕ → BSPObject) (q p : ℕ) :
    recvIndex w q (3 * p + 2) = anyOf (w p).requestTable.usedSlotCount (w p).nprocs := by
  simp (disch := decide) only [recvIndex, sendIndex, three_div, three_mod]

end BspOnMpi.BspxSync
