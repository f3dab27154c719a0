import BspOnMpi.BspxSync
import BspOnMpi.ContextLog

/-! Synchronisation of the contexts. `ContextImpl::bsp_sync`, run by all nodes in lock step. The
local deliveries come first, then the indices, the requests and the deliveries of the nodes are
exchanged, and a node gives the messages that it has received to its contexts. The registrations,
which are processed between the exchanges, share no state with them. -/

namespace BspOnMpi.ContextSync
open Lib Exptable Slots Delivtable DelivPush Memreg DelivExecute Reqtable Machine Calls Exchange
  Mapper
  ContextMemreg LocalDelivery Contexts ContextLog
open Bspx hiding exec
open BspxSync (syncReset)

def executeLocal (n : ℕ) (node : Node) : Node :=
  (List.range n).foldl (fun node lp =>
    let r := (node.contexts lp).localDeliveries.execute node.proc.mem
    (node.onMem r.2).onQueue lp fun _ => r.1) node

def ownGets (bsp : BSPObject) : Bool :=
  (List.range bsp.nprocs).any fun p => 0 < bsp.requestTable.usedSlotCount p

/-- `CM_FLAG_GETS` and `CM_FLAG_MESSAGES` are bits 0 and 1, the size is above them. -/
def flagsWord (anyGets anyMessages : Bool) (regReqSize : ℕ) : ℕ :=
  anyGets.toNat ||| 2 * anyMessages.toNat ||| intToUInt32 (packSize regReqSize)

def sendIndex (regReqSize : ℕ) (bsp : BSPObject) (i : ℕ) : ℕ :=
  match i % 3 with
  | 0 => bsp.requestTable.usedSlotCount (i / 3)
  | 1 => bsp.deliveryTable.usedSlotCount (i / 3)
  | _ => flagsWord (ownGets bsp) (!deliveryTableEmpty bsp.deliveryTable) regReqSize

def recvIndex (regReqSize : ℕ → ℕ) (w : ℕ → BSPObject) (q i : ℕ) : ℕ :=
  sendIndex (regReqSize (i / 3)) (w (i / 3)) (3 * q + i % 3)

def anyFlag (recvIndex : ℕ → ℕ) (nprocs bit : ℕ) : Bool :=
  (List.range nprocs).any fun p => (recvIndex (3 * p + 2)).testBit bit

def syncExpand (bsp : BSPObject) (recvIndex : ℕ → ℕ) (anyGets : Bool) : BSPObject :=
  let req := bsp.requestReceivedTable
  let deliv := bsp.deliveryReceivedTable
  let dataSizes := bsp.requestTable.info.dataSizes
  let maxreqrows := arrayMax recvIndex (3 * bsp.nprocs) 3
  let maxdelrows := (List.range bsp.nprocs).foldl
    (fun maxdelrows p => max (recvIndex (1 + 3 * p) + dataSizes p) maxdelrows) 0
  let deliv := if deliv.rows < maxdelrows then deliveryTableExpand deliv (max deliv.rows maxdelrows)
    else deliv
  let req := if 0 < maxreqrows then requestTableExpand req maxreqrows else req
  { bsp with
    requestReceivedTable := if anyGets then { req with
        usedSlotCount :=
          fun p => if p < bsp.nprocs then recvIndex (3 * p) else req.usedSlotCount p }
      else bsp.requestReceivedTable
    deliveryReceivedTable := { deliv with
      usedSlotCount := fun p =>
        if p < bsp.nprocs then recvIndex (1 + 3 * p) + dataSizes p else deliv.usedSlotCount p } }

def syncRequests (w : ℕ → BSPObject) (anyGets : Bool) (mem : Mem) (next q : ℕ) : BSPObject :=
  let bsp := w q
  if anyGets then
    let req := expandableTableComm (fun p => (w p).requestTable) bsp.requestReceivedTable q
    { bsp with
      requestReceivedTable := req
      deliveryTable := requestTableExecute req bsp.deliveryTable mem next }
  else bsp

def syncDeliver (w : ℕ → BSPObject) (mem : Mem) (q : ℕ) : Option (BSPObject × Mem) :=
  let bsp := w q
  let recv := expandableTableComm (fun p => (w p).deliveryTable) bsp.deliveryReceivedTable q
  (deliveryTableExecute recv bsp.memoryRegister bsp.messageQueue mem bsp.rank).map fun st =>
    ({ bsp with
        deliveryReceivedTable := st.table
        messageQueue := st.mesgq
        memoryRegister := st.memreg }, st.mem)

/-- The loop that splits the message queue of a node with `n` contexts; the first
argument bounds its rounds. -/
def splitQueue (n : ℕ) : ℕ → Node → Option Node
  | 0, _ => none
  | k + 1, node => do
    let (bsp, r) ← bspxHpmove node.proc.bsp
    match r with
    | none => some (node.onBsp bsp)
    | some (bytes, tag, message) =>
      let lp := readInt (loadBytes bsp.deliveryReceivedTable.data message 4)
      if 4 ≤ bytes ∧ 0 ≤ lp ∧ lp < n then
        splitQueue n k ((node.onBsp bsp).onQueue lp.toNat fun q =>
          q.hpsend (.received tag) (.received (message + 4)) (bytes - 4))
      else none

def finish (n : ℕ) (node : Node) : Node :=
  let node := (List.range n).foldl
    (fun node lp => node.onQueue lp LocalDeliveryQueue.bsmpMessagequeueSync) node
  node.onBsp { node.proc.bsp with
    deliveryTable := deliveryTableReset node.proc.bsp.deliveryTable
    requestTable := requestTableReset node.proc.bsp.requestTable }

section Sync

variable (processors nnodes : ℕ) (w : ℕ → Node)

def contextsOn (node : ℕ) : ℕ := (taskMapper processors nnodes node).procsThisNode

def afterLocal (q : ℕ) : Node := executeLocal (contextsOn processors nnodes q) (w q)

def regsOf (g : ℕ) : ContextReg :=
  let mapper := taskMapper processors nnodes 0
  ((w (mapper.globalToNode g)).contexts (mapper.globalToLocal g)).reg

/-- The size that a node starts with; a node without contexts has no requests. -/
def ownReqSize (q : ℕ) : ℕ := (nodeReqSize processors nnodes (regsOf processors nnodes w) q).getD 0

def recvAt (q : ℕ) : ℕ → ℕ :=
  recvIndex (ownReqSize processors nnodes w) (fun p => (afterLocal processors nnodes w p).proc.bsp)
    q

def reqSizeAt (q : ℕ) : ℤ :=
  maxReqSize (ownReqSize processors nnodes w q)
    (fun p => recvAt processors nnodes w q (3 * p + 2) / 16)
    (afterLocal processors nnodes w q).proc.bsp.nprocs

def anyGetsAt (q : ℕ) : Bool :=
  let bsp := (afterLocal processors nnodes w q).proc.bsp
  ownGets bsp || anyFlag (recvAt processors nnodes w q) bsp.nprocs 0

def anyMessagesAt (q : ℕ) : Bool :=
  anyFlag (recvAt processors nnodes w q) (afterLocal processors nnodes w q).proc.bsp.nprocs 1

def exchangesAt (q : ℕ) : Bool :=
  anyMessagesAt processors nnodes w q || anyGetsAt processors nnodes w q

def afterExpand (q : ℕ) : BSPObject :=
  let bsp := syncReset (afterLocal processors nnodes w q).proc.bsp
  if exchangesAt processors nnodes w q then
    syncExpand bsp (recvAt processors nnodes w q) (anyGetsAt processors nnodes w q)
  else bsp

def afterRequests (q : ℕ) : BSPObject :=
  let p := (afterLocal processors nnodes w q).proc
  if exchangesAt processors nnodes w q then
    syncRequests (afterExpand processors nnodes w) (anyGetsAt processors nnodes w q) p.mem p.stack q
  else afterExpand processors nnodes w q

def receiveAt (q : ℕ) : Option Node :=
  let node := afterLocal processors nnodes w q
  if exchangesAt processors nnodes w q then
    (syncDeliver (afterRequests processors nnodes w) node.proc.mem q).bind fun r =>
      splitQueue (contextsOn processors nnodes q) (r.1.messageQueue.nMesg + 1)
        ((node.onBsp r.1).onMem r.2)
  else some (node.onBsp (afterRequests processors nnodes w q))

def syncNode (q : ℕ) : Option Node :=
  (receiveAt processors nnodes w q).map (finish (contextsOn processors nnodes q))

def withRegs (regs : ℕ → ContextReg) (q : ℕ) (node : Node) : Node :=
  { node with contexts := fun lp =>
      if lp < contextsOn processors nnodes q then
        { node.contexts lp with reg := (taskMapper processors nnodes q).getContext regs q lp }
      else node.contexts lp }

/-- `bsp_sync` on all nodes, undefined when one of them throws or aborts. -/
def bspSync (fresh : ℕ → ℕ → RegReq) : Option (ℕ → Node) := do
  let regs ← syncMemoryreg processors nnodes fresh (regsOf processors nnodes w)
  allBelow nnodes (fun q =>
    (syncNode processors nnodes w q).map (withRegs processors nnodes regs q)) w

end Sync

end BspOnMpi.ContextSync
