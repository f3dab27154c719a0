import BspOnMpi.ContextSync
import BspOnMpi.Messages

/-! The superstep of the contexts. What `bsp_sync` does to nodes whose tables and queues are logs:
the memory of a node first sees the deliveries of its own contexts and then those of the machine,
and every context finds the messages from its own node before those from the others. -/

namespace BspOnMpi.ContextSuperstep
open Lib Exptable Slots Delivtable DelivPush Memreg DelivExecute Reqtable Machine Calls Exchange
  Mapper
  ContextMemreg LocalDelivery Contexts ContextLog ContextSync
open Bspx hiding exec
open BspxSync (syncReset)
open Messages (Holding holding_cons)

def localMem (gets : ℕ → List LocalMemoryDelivery) (puts : ℕ → List (ℕ × List UInt8)) (n : ℕ)
    (mem : Mem) : Mem :=
  (List.range n).foldl (fun mem lp => writeAll (copyAll mem (gets lp)) (puts lp)) mem

theorem localMem_succ (gets : ℕ → List LocalMemoryDelivery) (puts : ℕ → List (ℕ × List UInt8))
    (n : ℕ) (mem : Mem) : localMem gets puts (n + 1) mem =
      writeAll (copyAll (localMem gets puts n mem) (gets n)) (puts n) := by
  rw [localMem, List.range_succ, List.foldl_append]
  rfl

theorem executeLocal_spec {node : Node} {gets : ℕ → List LocalMemoryDelivery}
    {puts : ℕ → List (ℕ × List UInt8)} {sent : ℕ → List LocalMessage} {n : ℕ}
    (h : ∀ lp < n, ∃ moved,
      Pending (node.contexts lp).localDeliveries (gets lp) (puts lp) (sent lp) moved) :
    (executeLocal n node).proc = { node.proc with mem := localMem gets puts n node.proc.mem } ∧
      (∀ lp < n, ∃ moved,
        Pending ((executeLocal n node).contexts lp).localDeliveries [] [] (sent lp) moved) ∧
      ∀ lp, n ≤ lp → (executeLocal n node).contexts lp = node.contexts lp := by
  induction n with
  | zero => exact ⟨rfl, fun lp hlp => absurd hlp (Nat.not_lt_zero lp), fun _ _ => rfl⟩
  | succ n ih =>
    obtain ⟨hproc, hqueues, hrest⟩ := ih fun lp hlp => h lp (by omega)
    obtain ⟨moved, hq⟩ := h n (Nat.lt_succ_self n)
    have hmem : (executeLocal n node).proc.mem = localMem gets puts n node.proc.mem := by rw [hproc]
    have hstep : executeLocal (n + 1) node =
        let r := ((executeLocal n node).contexts n).localDeliveries.execute
          (localMem gets puts n node.proc.mem)
        ((executeLocal n node).onMem r.2).onQueue n fun _ => r.1 := by
      rw [executeLocal, List.range_succ, List.foldl_append, ← hmem]
      rfl
    rw [← hrest n le_rfl] at hq
    obtain ⟨hlast, hdone⟩ := execute_pending hq (localMem gets puts n node.proc.mem)
    rw [hstep]
    refine ⟨?_, fun lp hlp => ?_, fun lp hlp => ?_⟩
    · simp only [Node.onQueue, Node.onMem, hlast, hproc, localMem_succ]
    · by_cases hl : lp = n
      · subst hl
        simp only [Node.onQueue, Function.update_self]
        exact ⟨moved, hdone⟩
      · simp only [Node.onQueue, Node.onMem, Function.update_of_ne hl]
        exact hqueues lp (by omega)
    · have hl : lp ≠ n := by omega
      simp only [Node.onQueue, Node.onMem, Function.update_of_ne hl]
      exact hrest lp (by omega)

theorem flagsWord_eq (anyGets anyMessages : Bool) (n : ℕ) :
    flagsWord anyGets anyMessages n =
      n % 2 ^ 28 * 16 + (anyGets.toNat + 2 * anyMessages.toNat) := by
  have hlow : anyGets.toNat ||| 2 * anyMessages.toNat = anyGets.toNat + 2 * anyMessages.toNat := by
    cases anyGets <;> cases anyMessages <;> rfl
  have hlt : anyGets.toNat + 2 * anyMessages.toNat < 2 ^ 4 := by
    cases anyGets <;> cases anyMessages <;> decide
  have hshift := Nat.shiftLeft_add_eq_or_of_lt hlt (n % 2 ^ 28)
  rw [Nat.shiftLeft_eq] at hshift
  rw [flagsWord, intToUInt32_packSize, hlow, Nat.or_comm]
  exact hshift.symm

theorem flagsWord_gets (anyGets anyMessages : Bool) (n : ℕ) :
    (flagsWord anyGets anyMessages n).testBit 0 = anyGets := by
  rw [flagsWord_eq, Nat.testBit_zero]
  cases anyGets <;> cases anyMessages <;> simp <;> omega

theorem flagsWord_messages (anyGets anyMessages : Bool) (n : ℕ) :
    (flagsWord anyGets anyMessages n).testBit 1 = anyMessages := by
  rw [flagsWord_eq, Nat.testBit_succ, Nat.testBit_zero]
  cases anyGets <;> cases anyMessages <;> simp <;> omega

section Indices

variable (sizes : ℕ → ℕ) (w : ℕ → BSPObject) (q p : ℕ)

theorem recvIndex_request : recvIndex sizes w q (3 * p) = (w p).requestTable.usedSlotCount q := by
  have hdiv := three_div p (Nat.zero_lt_succ 2)
  have hmod := three_mod p (Nat.zero_lt_succ 2)
  rw [Nat.add_zero] at hdiv hmod
  simp (disch := decide) only [recvIndex, sendIndex, hdiv, hmod, three_div, three_mod]

theorem recvIndex_delivery :
    recvIndex sizes w q (1 + 3 * p) = (w p).deliveryTable.usedSlotCount q := by
  rw [Nat.add_comm]
  simp (disch := decide) only [recvIndex, sendIndex, three_div, three_mod]

theorem recvIndex_flags : recvIndex sizes w q (3 * p + 2) =
    flagsWord (ownGets (w p)) (!deliveryTableEmpty (w p).deliveryTable) (sizes p) := by
  simp (disch := decide) only [recvIndex, sendIndex, three_div, three_mod]

theorem anyFlag_gets (n : ℕ) :
    anyFlag (recvIndex sizes w q) n 0 = (List.range n).any fun p => ownGets (w p) := by
  simp only [anyFlag, recvIndex_flags, flagsWord_gets]

theorem anyFlag_messages (n : ℕ) : anyFlag (recvIndex sizes w q) n 1 =
    (List.range n).any fun p => !deliveryTableEmpty (w p).deliveryTable := by
  simp only [anyFlag, recvIndex_flags, flagsWord_messages]

end Indices

structure NodesReady (processors nnodes : ℕ) (tagSize : ℕ → ℕ) (logs : ℕ → List (ℕ × ContextCall))
    (w : ℕ → Node) : Prop where
  mapped : Mapped processors nnodes
  logged : ∀ q < nnodes, NodeLogged processors nnodes q (tagSize q) (logs q) (w q)

section Exchange

variable {processors nnodes : ℕ} {tagSize : ℕ → ℕ} {logs : ℕ → List (ℕ × ContextCall)}
  {w : ℕ → Node}
  {p q : ℕ}

def memLocal (processors nnodes : ℕ) (logs : ℕ → List (ℕ × ContextCall)) (w : ℕ → Node) (q : ℕ) :
    Mem :=
  localMem (fun lp => (logs q).filterMap (localGet processors nnodes q lp))
    (fun lp => (logs q).filterMap (localPut processors nnodes q lp))
    (contextsOn processors nnodes q)
    (w q).proc.mem

/-- The slots that node `q` expects from node `p`. -/
def expectedSlots (processors nnodes : ℕ) (w : ℕ → Node) (q p : ℕ) : ℕ :=
  recvAt processors nnodes w q (1 + 3 * p) +
    (syncReset (afterLocal processors nnodes w q).proc.bsp).requestTable.info.dataSizes p

variable (h : NodesReady processors nnodes tagSize logs w)

include h

theorem afterLocal_spec (hq : q < nnodes) :
    (afterLocal processors nnodes w q).proc =
      { (w q).proc with mem := memLocal processors nnodes logs w q } ∧
    ∀ lp < contextsOn processors nnodes q, ∃ moved,
      Pending ((afterLocal processors nnodes w q).contexts lp).localDeliveries [] []
        ((logs q).filterMap (localSend processors nnodes q lp)) moved := by
  obtain ⟨h1, h2, -⟩ := executeLocal_spec (h.logged q hq).queues
  exact ⟨h1, h2⟩

theorem afterLocal_logged (hq : q < nnodes) : Logged ⟨nnodes, q, [], tagSize q⟩
    (nodeCalls processors nnodes q (logs q)) (afterLocal processors nnodes w q).proc := by
  have hl := (h.logged q hq).proc
  rw [(afterLocal_spec h hq).1]
  exact logged_queue hl _ hl.queue rfl

theorem afterLocal_mem (hq : q < nnodes) :
    (afterLocal processors nnodes w q).proc.mem = memLocal processors nnodes logs w q := by
  rw [(afterLocal_spec h hq).1]

omit h in
theorem anyGets_nodes (hn : (afterLocal processors nnodes w q).proc.bsp.nprocs = nnodes)
    (hq : q < nnodes) : anyGetsAt processors nnodes w q =
    (List.range nnodes).any fun p => ownGets (afterLocal processors nnodes w p).proc.bsp := by
  rw [anyGetsAt, recvAt, anyFlag_gets, hn, Bool.or_eq_right_iff_imp]
  exact fun hown => List.any_eq_true.mpr ⟨q, List.mem_range.mpr hq, hown⟩

omit h in
theorem anyMessages_nodes (hn : (afterLocal processors nnodes w q).proc.bsp.nprocs = nnodes) :
    anyMessagesAt processors nnodes w q = (List.range nnodes).any fun p =>
      !deliveryTableEmpty (afterLocal processors nnodes w p).proc.bsp.deliveryTable := by
  rw [anyMessagesAt, recvAt, anyFlag_messages, hn]

theorem anyGets_eq (hq : q < nnodes) : anyGetsAt processors nnodes w q =
    (List.range nnodes).any fun p => ownGets (afterLocal processors nnodes w p).proc.bsp :=
  anyGets_nodes (afterLocal_logged h hq).nprocs hq

theorem anyMessages_eq (hq : q < nnodes) : anyMessagesAt processors nnodes w q =
    (List.range nnodes).any fun p =>
      !deliveryTableEmpty (afterLocal processors nnodes w p).proc.bsp.deliveryTable :=
  anyMessages_nodes (afterLocal_logged h hq).nprocs

theorem exchanges_agree (hp : p < nnodes) (hq : q < nnodes) :
    exchangesAt processors nnodes w p = exchangesAt processors nnodes w q := by
  rw [exchangesAt, exchangesAt, anyGets_eq h hp, anyGets_eq h hq, anyMessages_eq h hp,
    anyMessages_eq h hq]

theorem no_gets (hq : q < nnodes) (hany : anyGetsAt processors nnodes w q = false) (hp : p < nnodes)
    {c : ℕ} (hc : c < nnodes) :
    columnRequests (nodeCalls processors nnodes p (logs p)) c = [] := by
  have hlp := afterLocal_logged h hp
  rw [anyGets_eq h hq, List.any_eq_false] at hany
  have hown := hany p (List.mem_range.mpr hp)
  rw [ownGets, List.any_eq_true, hlp.nprocs] at hown
  have hused : ¬ 0 < (afterLocal processors nnodes w p).proc.bsp.requestTable.usedSlotCount c :=
    fun hpos => hown ⟨c, List.mem_range.mpr hc, by simpa using hpos⟩
  rw [hlp.req.holds.used c (by rw [hlp.req_nprocs]; exact hc)] at hused
  exact List.eq_nil_of_length_eq_zero (by omega)

theorem no_messages (hq : q < nnodes) (hany : anyMessagesAt processors nnodes w q = false)
    (hp : p < nnodes) {c : ℕ} (hc : c < nnodes) :
    columnItems p (nodeCalls processors nnodes p (logs p)) c = [] := by
  have hlp := afterLocal_logged h hp
  rw [anyMessages_eq h hq, List.any_eq_false] at hany
  have hempty := hany p (List.mem_range.mpr hp)
  have hall : deliveryTableEmpty (afterLocal processors nnodes w p).proc.bsp.deliveryTable =
      true := by
    simpa using hempty
  rw [deliveryTableEmpty, List.all_eq_true] at hall
  have hcol := hall c (by rw [hlp.deliv_nprocs]; exact List.mem_range.mpr hc)
  rw [hlp.deliv.used c (by rw [hlp.deliv_nprocs]; exact hc), decide_eq_true_eq,
    indexSize_eq] at hcol
  cases hits : columnItems p (nodeCalls processors nnodes p (logs p)) c with
  | nil => rfl
  | cons it its =>
    rw [hits, colSize, extent_eq, indexSize_eq, List.map_cons, List.sum_cons, Item.slots_eq] at hcol
    omega

theorem expectedSlots_eq (hp : p < nnodes) (hq : q < nnodes) :
    expectedSlots processors nnodes w q p =
      colSize (columnItems p (nodeCalls processors nnodes p (logs p)) q) +
        announced (columnRequests (nodeCalls processors nnodes q (logs q)) p) := by
  have hlp := afterLocal_logged h hp
  have hu := hlp.deliv.used q (by rw [hlp.deliv_nprocs]; exact hq)
  rw [expectedSlots, recvAt, recvIndex_delivery]
  exact congrArg₂ (· + ·) hu ((afterLocal_logged h hq).req.sizes p)

theorem expand_delivery (hq : q < nnodes) (hex : exchangesAt processors nnodes w q = true) :
    let t := (afterExpand processors nnodes w q).deliveryReceivedTable
    DelivShape t nnodes ∧ ∀ p < nnodes, t.usedSlotCount p =
      colSize (columnItems p (nodeCalls processors nnodes p (logs p)) q) +
        announced (columnRequests (nodeCalls processors nnodes q (logs q)) p) ∧
      t.usedSlotCount p ≤ t.rows := by
  have hlq := afterLocal_logged h hq
  let bsp := syncReset (afterLocal processors nnodes w q).proc.bsp
  have hn : bsp.nprocs = nnodes := hlq.nprocs
  have hshape : DelivShape bsp.deliveryReceivedTable nnodes := reset_delivShape hlq.recvDeliv
  obtain ⟨hv, hroom⟩ := expanded_delivShape hshape (expectedSlots processors nnodes w q)
  let u := bsp.deliveryReceivedTable
  let m := (List.range nnodes).foldl (fun m p => max (expectedSlots processors nnodes w q p) m) 0
  let v := if u.rows < m then deliveryTableExpand u (max u.rows m) else u
  have ht : (afterExpand processors nnodes w q).deliveryReceivedTable = { v with
      usedSlotCount := fun p =>
        if p < nnodes then expectedSlots processors nnodes w q p else v.usedSlotCount p } := by
    simp only [afterExpand, if_pos hex, syncExpand]
    rw [show (syncReset (afterLocal processors nnodes w q).proc.bsp).nprocs = nnodes from hn]
    rfl
  simp only [ht]
  refine ⟨⟨hv.nprocs, hv.rows, hv.slot, hv.aimed⟩, fun p hp => ?_⟩
  rw [if_pos hp]
  exact ⟨expectedSlots_eq h hp hq, hroom p hp⟩

theorem recvAt_request (hp : p < nnodes) (hq : q < nnodes) : recvAt processors nnodes w q (3 * p) =
    (columnRequests (nodeCalls processors nnodes p (logs p)) q).length := by
  have hlp := afterLocal_logged h hp
  rw [recvAt, recvIndex_request]
  exact hlp.req.holds.used q (by rw [hlp.req_nprocs]; exact hq)

theorem expand_request (hq : q < nnodes) (hex : exchangesAt processors nnodes w q = true)
    (hany : anyGetsAt processors nnodes w q = true) :
    let t := (afterExpand processors nnodes w q).requestReceivedTable
    ReqShape t nnodes ∧ Fits t ∧ ∀ p < nnodes, t.usedSlotCount p =
      (columnRequests (nodeCalls processors nnodes p (logs p)) q).length := by
  have hlq := afterLocal_logged h hq
  let bsp := syncReset (afterLocal processors nnodes w q).proc.bsp
  have hn : bsp.nprocs = nnodes := hlq.nprocs
  let m := arrayMax (recvAt processors nnodes w q) (3 * nnodes) 3
  let u := bsp.requestReceivedTable
  have hu : ReqShape u nnodes := ⟨hlq.recvReq.nprocs, hlq.recvReq.rows, hlq.recvReq.slot⟩
  obtain ⟨hshape, hfits⟩ := expanded_reqShape hu (recvAt processors nnodes w q) (0 < m) m
    (by split <;> omega)
  let v := if 0 < m then requestTableExpand u m else u
  have ht : (afterExpand processors nnodes w q).requestReceivedTable = { v with
      usedSlotCount := fun p =>
        if p < nnodes then recvAt processors nnodes w q (3 * p) else v.usedSlotCount p } := by
    simp only [afterExpand, if_pos hex, syncExpand, if_pos hany]
    rw [show (syncReset (afterLocal processors nnodes w q).proc.bsp).nprocs = nnodes from hn]
  simp only [ht]
  refine ⟨hshape, hfits, fun p hp => ?_⟩
  rw [if_pos hp]
  exact recvAt_request h hp hq

omit h in
theorem expand_frame (processors nnodes : ℕ) (w : ℕ → Node) (q : ℕ) : ∃ req recv,
    afterExpand processors nnodes w q = { syncReset (afterLocal processors nnodes w q).proc.bsp with
      requestReceivedTable := req, deliveryReceivedTable := recv } := by
  rw [afterExpand]
  split
  · exact ⟨_, _, rfl⟩
  · exact ⟨_, _, rfl⟩

theorem requests_answered (hp : p < nnodes) (hex : exchangesAt processors nnodes w p = true) :
    Rep (afterRequests processors nnodes w p).deliveryTable
      (sentItems (fun p => nodeCalls processors nnodes p (logs p))
        (memLocal processors nnodes logs w) p) ∧
      (afterRequests processors nnodes w p).deliveryTable.nprocs = nnodes := by
  have hlp := afterLocal_logged h hp
  have hframe : ∀ p, (afterExpand processors nnodes w p).deliveryTable =
      (afterLocal processors nnodes w p).proc.bsp.deliveryTable ∧
      (afterExpand processors nnodes w p).requestTable =
      (afterLocal processors nnodes w p).proc.bsp.requestTable := by
    intro p
    obtain ⟨req, recv, hexp⟩ := expand_frame processors nnodes w p
    rw [hexp]
    exact ⟨rfl, rfl⟩
  have hrep := hlp.deliv
  have hdn := hlp.deliv_nprocs
  rw [← (hframe p).1] at hrep hdn
  rw [afterRequests, if_pos hex, syncRequests]
  by_cases hany : anyGetsAt processors nnodes w p = true
  · obtain ⟨hshape, hfits, hcount⟩ := expand_request h hp hex hany
    have hreqs : ∀ c < nnodes, Requests (afterExpand processors nnodes w c).requestTable
        (columnRequests (nodeCalls processors nnodes c (logs c))) ∧
        (afterExpand processors nnodes w c).requestTable.nprocs = nnodes := by
      intro c hc
      rw [(hframe c).2]
      exact ⟨(afterLocal_logged h hc).req, (afterLocal_logged h hc).req_nprocs⟩
    simp only [if_pos hany, afterLocal_mem h hp]
    exact answers_rep hreqs hshape hfits hcount hrep hdn hp _ _
  · simp only [if_neg hany]
    refine ⟨hrep.congr fun c hc => ?_, hdn⟩
    have hcn : c < nnodes := lt_of_lt_of_eq hc hdn
    rw [sentItems, no_gets h hp (by simpa using hany) hcn hp, List.map_nil, List.append_nil]

theorem requests_frame (hq : q < nnodes) : ∃ req deliv recv, afterRequests processors nnodes w q =
      { syncReset (afterLocal processors nnodes w q).proc.bsp with
        requestReceivedTable := req, deliveryTable := deliv, deliveryReceivedTable := recv } ∧
      ReqShape req nnodes := by
  have hl := afterLocal_logged h hq
  have hreset : ReqShape
      (requestTableReset (afterLocal processors nnodes w q).proc.bsp.requestReceivedTable)
      nnodes := ⟨hl.recvReq.nprocs, hl.recvReq.rows, hl.recvReq.slot⟩
  by_cases hex : exchangesAt processors nnodes w q = true
  · by_cases hany : anyGetsAt processors nnodes w q = true
    · obtain ⟨hshape, -, -⟩ := expand_request h hq hex hany
      have hcomm : ReqShape (expandableTableComm
        (fun p => (afterExpand processors nnodes w p).requestTable)
          (afterExpand processors nnodes w q).requestReceivedTable q) nnodes :=
        ⟨hshape.nprocs, hshape.rows, hshape.slot⟩
      obtain ⟨req, recv, hexp⟩ := expand_frame processors nnodes w q
      refine ⟨_, (afterRequests processors nnodes w q).deliveryTable, recv, ?_, hcomm⟩
      simp only [afterRequests, if_pos hex, syncRequests, if_pos hany, hexp]
    · simp only [afterRequests, if_pos hex, syncRequests, if_neg hany, afterExpand, syncExpand]
      exact ⟨_, _, _, rfl, hreset⟩
  · simp only [afterRequests, if_neg hex, afterExpand]
    exact ⟨_, _, _, rfl, hreset⟩

theorem requests_delivery (hq : q < nnodes) (hex : exchangesAt processors nnodes w q = true) :
    let t := (afterRequests processors nnodes w q).deliveryReceivedTable
    DelivShape t nnodes ∧ ∀ p < nnodes, t.usedSlotCount p =
      colSize (columnItems p (nodeCalls processors nnodes p (logs p)) q) +
        announced (columnRequests (nodeCalls processors nnodes q (logs q)) p) ∧
      t.usedSlotCount p ≤ t.rows := by
  have htable : (afterRequests processors nnodes w q).deliveryReceivedTable =
      (afterExpand processors nnodes w q).deliveryReceivedTable := by
    rw [afterRequests, if_pos hex, syncRequests]
    split <;> rfl
  rw [htable]
  exact expand_delivery h hq hex

def receivedTable (processors nnodes : ℕ) (w : ℕ → Node) (q : ℕ) : DeliveryTable :=
  expandableTableComm (fun p => (afterRequests processors nnodes w p).deliveryTable)
    (afterRequests processors nnodes w q).deliveryReceivedTable q

theorem received_columns (hq : q < nnodes) (hex : exchangesAt processors nnodes w q = true) :
    Received (receivedTable processors nnodes w q) (fun p => sentItems
      (fun p => nodeCalls processors nnodes p (logs p)) (memLocal processors nnodes logs w) p q) ∧
      DelivShape (receivedTable processors nnodes w q) nnodes := by
  obtain ⟨hshape, hcount⟩ := requests_delivery h hq hex
  have hsend := fun (p : ℕ) (hp : p < nnodes) => requests_answered h hp
    ((exchanges_agree h hp hq).trans hex)
  refine columns_received hsend hshape (fun p hp => ⟨?_, (hcount p hp).2⟩) hq
  rw [(hcount p hp).1]
  exact slots_le_announced _ _ _

end Exchange

section Node

variable {processors nnodes : ℕ} {tagSize : ℕ → ℕ} {logs : ℕ → List (ℕ × ContextCall)}
  {w : ℕ → Node}
  {p q : ℕ}

theorem nodeCalls_pushes (log : List (ℕ × ContextCall)) :
    pushes (nodeCalls processors nnodes p log) = [] := by
  rw [pushes, nodeCalls, List.filterMap_filterMap, List.filterMap_eq_nil_iff]
  intro e _
  cases e.2 <;> simp only [nodeCall] <;> (try split) <;> rfl

theorem nodeCalls_pops (log : List (ℕ × ContextCall)) :
    pops (nodeCalls processors nnodes p log) = [] := by
  rw [pops, nodeCalls, List.filterMap_filterMap, List.filterMap_eq_nil_iff]
  intro e _
  cases e.2 <;> simp only [nodeCall] <;> (try split) <;> rfl

structure Exchanged (processors nnodes : ℕ) (tagSize : ℕ → ℕ) (logs : ℕ → List (ℕ × ContextCall))
    (w : ℕ → Node) (q : ℕ) (bsp : BSPObject) (mem : Mem) : Prop where
  logged : Logged ⟨nnodes, q, [], tagAfter (tagSize q) (nodeCalls processors nnodes q (logs q))⟩ []
    { bsp := { bsp with
        deliveryTable := deliveryTableReset bsp.deliveryTable
        requestTable := requestTableReset bsp.requestTable }
      mem := mem
      stack := (w q).proc.stack }
  mem : mem = memAfter nnodes (fun p => nodeCalls processors nnodes p (logs p))
    (memLocal processors nnodes logs w) q
  recvTagSize : bsp.messageQueue.recvTagSize = tagSize q
  queue : Queued bsp.deliveryReceivedTable bsp.messageQueue
    ((inboxAfter nnodes (fun p => nodeCalls processors nnodes p (logs p)) q).map messageItem)

variable (h : NodesReady processors nnodes tagSize logs w)

include h

theorem quiet_items (hq : q < nnodes) (hex : exchangesAt processors nnodes w q = false)
    (hp : p < nnodes)
    {c : ℕ} (hc : c < nnodes) : sentItems (fun p => nodeCalls processors nnodes p (logs p))
      (memLocal processors nnodes logs w) p c = [] := by
  rw [exchangesAt, Bool.or_eq_false_iff] at hex
  rw [sentItems, no_messages h hq hex.1 hp hc, no_gets h hq hex.2 hc hp]
  rfl

theorem quiet_exchanged (hq : q < nnodes) (hex : exchangesAt processors nnodes w q = false) :
    Exchanged processors nnodes tagSize logs w q (afterRequests processors nnodes w q)
      (afterLocal processors nnodes w q).proc.mem := by
  have hl := afterLocal_logged h hq
  have hitems : ∀ p < nnodes, sentItems (fun p => nodeCalls processors nnodes p (logs p))
      (memLocal processors nnodes logs w) p q = [] := fun p hp => quiet_items h hq hex hp hq
  have hwrites : writesTo nnodes (fun p => nodeCalls processors nnodes p (logs p))
      (memLocal processors nnodes logs w) q = [] := by
    rw [writesTo, List.flatMap_eq_nil_iff]
    intro p hp
    have hput := putWrites_sent (fun p => nodeCalls processors nnodes p (logs p))
      (memLocal processors nnodes logs w) p q
    rw [hitems p (List.mem_range.mp hp)] at hput
    exact hput.symm
  have hinbox : inboxAfter nnodes (fun p => nodeCalls processors nnodes p (logs p)) q = [] := by
    rw [inboxAfter, List.flatMap_eq_nil_iff]
    intro p hp
    have hsend := sendItems_sent (fun p => nodeCalls processors nnodes p (logs p))
      (memLocal processors nnodes logs w) p q
    rw [hitems p (List.mem_range.mp hp)] at hsend
    exact List.map_eq_nil_iff.mp hsend.symm
  have htags : tagSizes (nodeCalls processors nnodes q (logs q)) = [] := by
    have htag := tagRequests_sent (fun p => nodeCalls processors nnodes p (logs p))
      (memLocal processors nnodes logs w) q
    rw [hitems q hq] at htag
    exact htag.symm
  have hafter : afterRequests processors nnodes w q =
      syncReset (afterLocal processors nnodes w q).proc.bsp := by
    simp [afterRequests, afterExpand, hex]
  rw [hafter]
  refine ⟨?_, ?_, hl.tagSize, ?_⟩
  · rw [tagAfter, htags]
    let mesgq := messageQueueSync (afterLocal processors nnodes w q).proc.bsp.messageQueue
    have htag : mesgq.sendTagSize = tagSize q := hl.tagSize
    have hreq : ReqShape
        (requestTableReset (afterLocal processors nnodes w q).proc.bsp.requestReceivedTable)
          nnodes :=
      ⟨hl.recvReq.nprocs, hl.recvReq.rows, hl.recvReq.slot⟩
    exact logged_synced hl hl.deliv hl.deliv_nprocs hreq (reset_delivShape hl.recvDeliv) hl.reg
      hl.reg_nprocs htag ⟨[], rfl, fun hne => absurd rfl hne⟩ _ _
  · rw [memAfter, hwrites, writeAll_nil, afterLocal_mem h hq]
  · rw [hinbox]
    exact ⟨rfl, fun hne => absurd rfl hne⟩

theorem deliver_exchanged (hq : q < nnodes) (hex : exchangesAt processors nnodes w q = true) :
    ∃ bsp mem, syncDeliver (afterRequests processors nnodes w)
      (afterLocal processors nnodes w q).proc.mem q =
      some (bsp, mem) ∧ Exchanged processors nnodes tagSize logs w q bsp mem := by
  have hl := afterLocal_logged h hq
  obtain ⟨req, deliv, recv, hframe, hreq⟩ := requests_frame h hq
  obtain ⟨hrecv, hshape⟩ := received_columns h hq hex
  obtain ⟨hanswered, hdn⟩ := requests_answered h hq hex
  rw [hframe] at hanswered hdn
  have hpush : ((List.range nnodes).flatMap fun p =>
      (pushes (nodeCalls processors nnodes p (logs p))).map fun a => (p, a)) = [] := by
    rw [List.flatMap_eq_nil_iff]
    intro p _
    rw [nodeCalls_pushes, List.map_nil]
  have hpop : popAll q (some (pushAll (afterLocal processors nnodes w q).proc.bsp.memoryRegister
      ((List.range nnodes).flatMap fun p =>
        (pushes (nodeCalls processors nnodes p (logs p))).map fun a => (p, a))))
      (pops (nodeCalls processors nnodes q (logs q))) =
        some (afterLocal processors nnodes w q).proc.bsp.memoryRegister := by
    rw [hpush, nodeCalls_pops]
    rfl
  obtain ⟨st, hst, ⟨d, hd⟩, hreg, hmem, hqueue, -, hrecvTag, hsendTag⟩ :=
    execute_sent hrecv hshape.nprocs hq
      (messageQueueSync (afterLocal processors nnodes w q).proc.bsp.messageQueue) ⟨rfl, rfl⟩ hpop
  rw [← afterLocal_mem h hq] at hst
  have hexec : deliveryTableExecute (receivedTable processors nnodes w q)
      (afterRequests processors nnodes w q).memoryRegister
      (afterRequests processors nnodes w q).messageQueue (afterLocal processors nnodes w q).proc.mem
      (afterRequests processors nnodes w q).rank = some st := by
    have hrank : (afterLocal processors nnodes w q).proc.bsp.rank = q := hl.rank
    rw [← hst, hframe]
    exact congrArg (deliveryTableExecute (receivedTable processors nnodes w q)
      (afterLocal processors nnodes w q).proc.bsp.memoryRegister
      (messageQueueSync (afterLocal processors nnodes w q).proc.bsp.messageQueue)
      (afterLocal processors nnodes w q).proc.mem) hrank
  refine ⟨_, _, congrArg (Option.map _) hexec, ⟨?_, hmem, ?_, hqueue⟩⟩
  · have hreceived : DelivShape st.table nnodes := by
      rw [hd]
      exact ⟨hshape.nprocs, hshape.rows, hshape.slot, hshape.aimed⟩
    have htag : st.mesgq.sendTagSize =
        tagAfter (tagSize q) (nodeCalls processors nnodes q (logs q)) := by
      rw [hsendTag]
      exact congrArg (fun s => tagAfter s (nodeCalls processors nnodes q (logs q))) hl.tagSize
    have hregister : Registered st.memreg [] q := by
      rw [hreg]
      exact hl.reg
    have hregn : st.memreg.nprocs = nnodes := by
      rw [hreg]
      exact hl.reg_nprocs
    have hlog := logged_synced hl hanswered hdn hreq hreceived hregister hregn htag ⟨_, hqueue⟩
      st.mem (w q).proc.stack
    rw [hframe]
    exact hlog
  · show st.mesgq.recvTagSize = _
    rw [hrecvTag]
    exact hl.tagSize

end Node

section Split

def resolve (p : Proc) : LocalMessage → Message
  | .copied m => m
  | .pointed tag payload nbytes =>
    ⟨readPointer p tag p.bsp.messageQueue.recvTagSize, readPointer p payload nbytes⟩

def forContext (lp : ℕ) (ms : List (ℕ × Message)) : List Message :=
  ms.filterMap fun e => if e.1 = lp then some e.2 else none

theorem resolve_congr {p p' : Proc} (hmem : p.mem = p'.mem)
    (hdata : p.bsp.deliveryReceivedTable.data = p'.bsp.deliveryReceivedTable.data)
    (htag : p.bsp.messageQueue.recvTagSize = p'.bsp.messageQueue.recvTagSize) :
    resolve p = resolve p' := by
  funext m
  have hread : readPointer p = readPointer p' := by
    funext pointer nbytes
    cases pointer with
    | memory address => simp only [readPointer, hmem]
    | received byte => simp only [readPointer, hdata]
  cases m with
  | copied m => rfl
  | pointed tag payload nbytes => simp only [resolve, hread, htag]

variable {n k : ℕ} {node : Node} {e : ℕ × Message} {ms : List (ℕ × Message)}

theorem forContext_cons_same : forContext e.1 (e :: ms) = e.2 :: forContext e.1 ms := by
  simp [forContext]

theorem forContext_cons_other {lp : ℕ} (h : lp ≠ e.1) :
    forContext lp (e :: ms) = forContext lp ms := by
  simp [forContext, Ne.symm h]

theorem splitQueue_cons (h : Holding node.proc.bsp ((e :: ms).map fun e => prefixed e.1 e.2))
    (hlp : e.1 < 2 ^ 31) : ∃ (q : MessageQueue) (t p : ℕ),
      q.sendTagSize = node.proc.bsp.messageQueue.sendTagSize ∧
      q.recvTagSize = node.proc.bsp.messageQueue.recvTagSize ∧
      Holding { node.proc.bsp with messageQueue := q } (ms.map fun e => prefixed e.1 e.2) ∧
      resolve node.proc (.pointed (.received t) (.received p) e.2.payload.length) = e.2 ∧
      splitQueue n (k + 1) node = if e.1 < n then
          splitQueue n k ((node.onBsp { node.proc.bsp with messageQueue := q }).onQueue e.1
            fun c => c.hpsend (.received t) (.received p) e.2.payload.length)
        else none := by
  obtain ⟨head, hp, hn, -, hinfo, htag, hpay, htail⟩ := holding_cons h
  have hne : node.proc.bsp.messageQueue.nMesg ≠ 0 := by omega
  have hlen : (prefixed e.1 e.2).payload.length = 4 + e.2.payload.length := by
    simp [prefixed]
  rw [hlen] at hpay hinfo
  rw [loadBytes, load_add] at hpay
  obtain ⟨hint, hbytes⟩ := List.append_inj hpay (by simp)
  let payload := 8 * (head + Delivtable.tagSize) + node.proc.bsp.messageQueue.recvTagSize
  have hread : readInt (loadBytes node.proc.bsp.deliveryReceivedTable.data payload 4) = e.1 := by
    rw [← readInt_intBytes hlp]
    exact congrArg readInt hint
  refine ⟨(dequeue node.proc.bsp head (4 + e.2.payload.length)).messageQueue,
    8 * (head + Delivtable.tagSize), payload + 4, rfl, rfl, htail _, ?_, ?_⟩
  · have hresolved : resolve node.proc (.pointed (.received (8 * (head + Delivtable.tagSize)))
        (.received (payload + 4)) e.2.payload.length) = ⟨(prefixed e.1 e.2).tag, e.2.payload⟩ :=
      congrArg₂ Message.mk htag hbytes
    exact hresolved
  · rw [splitQueue, hpmove_head hp hne, hinfo]
    simp only [Option.bind_eq_bind, Option.bind_some]
    have hcond : (4 ≤ 4 + e.2.payload.length ∧ 0 ≤ readInt (loadBytes
        (dequeue node.proc.bsp head (4 + e.2.payload.length)).deliveryReceivedTable.data payload
          4) ∧
        readInt (loadBytes (dequeue node.proc.bsp head
          (4 + e.2.payload.length)).deliveryReceivedTable.data payload 4) < n) ↔ e.1 < n := by
      have hdata : (dequeue node.proc.bsp head
        (4 + e.2.payload.length)).deliveryReceivedTable.data =
        node.proc.bsp.deliveryReceivedTable.data := rfl
      rw [hdata, hread]
      omega
    have hnat : (readInt (loadBytes (dequeue node.proc.bsp head
        (4 + e.2.payload.length)).deliveryReceivedTable.data payload 4)).toNat = e.1 :=
      congrArg Int.toNat hread
    have hsize : 4 + e.2.payload.length - 4 = e.2.payload.length := by omega
    by_cases hlt : e.1 < n
    · rw [if_pos hlt, if_pos (hcond.mpr hlt), hnat, hsize]
      rfl
    · rw [if_neg hlt, if_neg fun hc => hlt (hcond.mp hc)]

theorem splitQueue_spec {sent : ℕ → List LocalMessage} (hk : ms.length < k)
    (h : Holding node.proc.bsp (ms.map fun e => prefixed e.1 e.2)) (hlp : ∀ e ∈ ms, e.1 < 2 ^ 31)
    (hlt : ∀ e ∈ ms, e.1 < n)
    (hq : ∀ lp < n, ∃ moved, Pending (node.contexts lp).localDeliveries [] [] (sent lp) moved) :
    ∃ node' q, splitQueue n k node = some node' ∧
      node'.proc = { node.proc with bsp := { node.proc.bsp with messageQueue := q } } ∧
      q.sendTagSize = node.proc.bsp.messageQueue.sendTagSize ∧
      q.recvTagSize = node.proc.bsp.messageQueue.recvTagSize ∧
      (∃ ms, Queued node.proc.bsp.deliveryReceivedTable q ms) ∧
      ∀ lp < n, ∃ moved new,
        Pending (node'.contexts lp).localDeliveries [] [] (sent lp ++ new) moved ∧
        ∀ mem, new.map (resolve { node.proc with mem := mem }) = forContext lp ms := by
  induction ms generalizing k node sent with
  | nil =>
    obtain ⟨k, rfl⟩ := Nat.exists_eq_succ_of_ne_zero (Nat.ne_of_gt hk)
    have h0 : node.proc.bsp.messageQueue.nMesg = 0 := h.queued.nMesg
    refine ⟨node, node.proc.bsp.messageQueue, ?_, rfl, rfl, rfl, ⟨_, h.queued⟩, fun lp hl => ?_⟩
    · rw [splitQueue, bspxHpmove, if_pos h0]
      rfl
    · obtain ⟨moved, hp⟩ := hq lp hl
      exact ⟨moved, [], by rwa [List.append_nil], fun _ => rfl⟩
  | cons e ms ih =>
    obtain ⟨k, rfl⟩ := Nat.exists_eq_succ_of_ne_zero (Nat.ne_of_gt (Nat.zero_lt_of_lt hk))
    obtain ⟨q, t, p, hsend, hrecv, hhold, hres, hstep⟩ := splitQueue_cons (k := k) (n := n) h
      (hlp e (by simp))
    have hlen : ms.length < k := by
      simp only [List.length_cons] at hk
      omega
    have hen : e.1 < n := hlt e (by simp)
    let m : LocalMessage := .pointed (.received t) (.received p) e.2.payload.length
    let next := (node.onBsp { node.proc.bsp with messageQueue := q }).onQueue e.1
      fun c => c.hpsend (.received t) (.received p) e.2.payload.length
    have hnext : ∀ lp < n, ∃ moved, Pending (next.contexts lp).localDeliveries [] []
        (Function.update sent e.1 (sent e.1 ++ [m]) lp) moved := by
      intro lp hl
      obtain ⟨moved, hp⟩ := hq lp hl
      refine ⟨moved, ?_⟩
      by_cases hle : lp = e.1
      · subst hle
        simp only [next, Node.onQueue, Function.update_self]
        exact pending_hpsend hp _ _ _
      · simp only [next, Node.onQueue, Node.onBsp, Function.update_of_ne hle]
        exact hp
    have hhold' : Holding next.proc.bsp (ms.map fun e => prefixed e.1 e.2) := hhold
    obtain ⟨node', q', hs, hproc, hsend', hrecv', hqueued, hctx⟩ := ih hlen hhold'
      (fun x hx => hlp x (List.mem_cons_of_mem _ hx))
        (fun x hx => hlt x (List.mem_cons_of_mem _ hx)) hnext
    have hres' : ∀ mem,
        resolve { next.proc with mem := mem } = resolve { node.proc with mem := mem } :=
      fun _ => resolve_congr rfl rfl hrecv
    refine ⟨node', q', by rw [hstep, if_pos hen]; exact hs, hproc, hsend'.trans hsend,
      hrecv'.trans hrecv, hqueued, fun lp hl => ?_⟩
    obtain ⟨moved, new, hp, hnew⟩ := hctx lp hl
    simp only [hres'] at hnew
    by_cases hle : lp = e.1
    · subst hle
      rw [Function.update_self, List.append_assoc] at hp
      refine ⟨moved, [m] ++ new, hp, fun mem => ?_⟩
      rw [List.map_append, hnew, forContext_cons_same, ← hres]
      rfl
    · rw [Function.update_of_ne hle] at hp
      refine ⟨moved, new, hp, fun mem => ?_⟩
      rw [hnew, forContext_cons_other hle]

theorem splitQueue_targets {node' : Node}
    (h : Holding node.proc.bsp (ms.map fun e => prefixed e.1 e.2))
    (hlp : ∀ e ∈ ms, e.1 < 2 ^ 31) (hs : splitQueue n k node = some node') : ∀ e ∈ ms, e.1 < n := by
  induction ms generalizing k node with
  | nil => simp
  | cons e ms ih =>
    cases k with
    | zero => cases hs
    | succ k =>
      obtain ⟨q, t, p, -, -, hhold, -, hstep⟩ :=
        splitQueue_cons (k := k) (n := n) h (hlp e (by simp))
      rw [hstep] at hs
      by_cases hen : e.1 < n
      · rw [if_pos hen] at hs
        let next := (node.onBsp { node.proc.bsp with messageQueue := q }).onQueue e.1
          fun c => c.hpsend (.received t) (.received p) e.2.payload.length
        have hhold' : Holding next.proc.bsp (ms.map fun e => prefixed e.1 e.2) := hhold
        have hrest := ih hhold' (fun x hx => hlp x (List.mem_cons_of_mem _ hx)) hs
        exact List.forall_mem_cons.mpr ⟨hen, hrest⟩
      · rw [if_neg hen] at hs
        cases hs

theorem splitQueue_none {node' : Node} {q : ℕ} (hs : splitQueue 0 q node = some node') :
    node.proc.bsp.messageQueue.nMesg = 0 := by
  cases q with
  | zero => cases hs
  | succ q =>
    by_contra hne
    obtain ⟨⟨bsp, r⟩, hmove, hrest⟩ := Option.bind_eq_some_iff.mp hs
    rw [bspxHpmove, if_neg hne] at hmove
    obtain ⟨message, -, hret⟩ := Option.map_eq_some_iff.mp hmove
    cases hret
    simp only at hrest
    split at hrest
    · omega
    · cases hrest

end Split

def swapped (node : Node) (k : ℕ) : Node :=
  (List.range k).foldl
    (fun node lp => node.onQueue lp LocalDeliveryQueue.bsmpMessagequeueSync) node

theorem swapped_succ (node : Node) (k : ℕ) : swapped node (k + 1) =
    (swapped node k).onQueue k LocalDeliveryQueue.bsmpMessagequeueSync := by
  simp only [swapped, List.range_succ, List.foldl_append, List.foldl_cons, List.foldl_nil]

theorem swapped_spec {node : Node} {sent : ℕ → List LocalMessage} {k : ℕ}
    (h : ∀ lp < k, ∃ moved, Pending (node.contexts lp).localDeliveries [] [] (sent lp) moved) :
    (swapped node k).proc = node.proc ∧
      (∀ lp < k, Pending ((swapped node k).contexts lp).localDeliveries [] [] [] (sent lp)) ∧
      ∀ lp, k ≤ lp → (swapped node k).contexts lp = node.contexts lp := by
  induction k with
  | zero => exact ⟨rfl, fun lp hlp => absurd hlp (Nat.not_lt_zero lp), fun _ _ => rfl⟩
  | succ k ih =>
    obtain ⟨hproc, hdone, hrest⟩ := ih fun lp hlp => h lp (by omega)
    obtain ⟨moved, hq⟩ := h k (Nat.lt_succ_self k)
    rw [← hrest k le_rfl] at hq
    rw [swapped_succ]
    refine ⟨hproc, fun lp hlp => ?_, fun lp hlp => ?_⟩
    · by_cases hl : lp = k
      · subst hl
        simp only [Node.onQueue, Function.update_self]
        exact messagequeueSync_pending hq
      · simp only [Node.onQueue, Function.update_of_ne hl]
        exact hdone lp (by omega)
    · have hl : lp ≠ k := by omega
      simp only [Node.onQueue, Function.update_of_ne hl]
      exact hrest lp (by omega)

theorem finish_spec {n : ℕ} {node : Node} {sent : ℕ → List LocalMessage}
    (h : ∀ lp < n, ∃ moved, Pending (node.contexts lp).localDeliveries [] [] (sent lp) moved) :
    (finish n node).proc = { node.proc with bsp := { node.proc.bsp with
        deliveryTable := deliveryTableReset node.proc.bsp.deliveryTable
        requestTable := requestTableReset node.proc.bsp.requestTable } } ∧
      ∀ lp < n, Pending ((finish n node).contexts lp).localDeliveries [] [] [] (sent lp) := by
  obtain ⟨hproc, hdone, -⟩ := swapped_spec h
  have hfinish : finish n node = (swapped node n).onBsp { (swapped node n).proc.bsp with
      deliveryTable := deliveryTableReset (swapped node n).proc.bsp.deliveryTable
      requestTable := requestTableReset (swapped node n).proc.bsp.requestTable } := rfl
  rw [hfinish, hproc]
  refine ⟨?_, hdone⟩
  rw [Node.onBsp, hproc]

section Synced

variable (processors nnodes : ℕ)

def arrival (p q : ℕ) : ContextCall → Option (ℕ × Message)
  | .send pid m =>
    if nodeOf processors nnodes pid = p then none
    else if nodeOf processors nnodes pid = q then some (localOf processors nnodes pid, m) else none
  | .hpsend pid _ _ _ m =>
    if nodeOf processors nnodes pid = p then none
    else if pid = q then some (localOf processors nnodes pid, m) else none
  | _ => none

def arrivals (logs : ℕ → List (ℕ × ContextCall)) (q : ℕ) : List (ℕ × Message) :=
  (List.range nnodes).flatMap fun p => (logs p).filterMap fun e => arrival processors nnodes p q e.2

theorem sendsTo_nodeCalls (p q : ℕ) (log : List (ℕ × ContextCall)) :
    sendsTo q (nodeCalls processors nnodes p log) =
      (log.filterMap fun e => arrival processors nnodes p q e.2).map fun e => prefixed e.1 e.2 := by
  rw [sendsTo, nodeCalls, List.filterMap_filterMap, List.map_filterMap]
  congr 1
  funext e
  cases e.2 with
  | put pid => by_cases hp : nodeOf processors nnodes pid = p <;> simp [nodeCall, arrival, hp]
  | get pid => by_cases hp : nodeOf processors nnodes pid = p <;> simp [nodeCall, arrival, hp]
  | send pid m =>
    by_cases hp : nodeOf processors nnodes pid = p
    · simp [nodeCall, arrival, hp]
    · by_cases hq : nodeOf processors nnodes pid = q
      · subst hq
        simp [nodeCall, arrival, hp]
      · simp [nodeCall, arrival, hp, hq]
  | hpsend pid tag payload nbytes m =>
    by_cases hp : nodeOf processors nnodes pid = p
    · simp [nodeCall, arrival, hp]
    · by_cases hq : pid = q
      · subst hq
        simp [nodeCall, arrival, hp]
      · simp [nodeCall, arrival, hp, hq]
  | setTagsize size => simp [nodeCall, arrival]

theorem inbox_arrivals (logs : ℕ → List (ℕ × ContextCall)) (q : ℕ) :
    inboxAfter nnodes (fun p => nodeCalls processors nnodes p (logs p)) q =
      (arrivals processors nnodes logs q).map fun e => prefixed e.1 e.2 := by
  rw [inboxAfter, arrivals, List.map_flatMap]
  congr 1
  funext p
  exact sendsTo_nodeCalls processors nnodes p q (logs p)

def TagsFit (tagSize : ℕ → ℕ) (logs : ℕ → List (ℕ × ContextCall)) (q : ℕ) : Prop :=
  ∀ e ∈ arrivals processors nnodes logs q, 0 < contextsOn processors nnodes q →
    e.2.tag.length = tagSize q

def TargetsExist (logs : ℕ → List (ℕ × ContextCall)) (q : ℕ) : Prop :=
  ∀ e ∈ arrivals processors nnodes logs q, e.1 < contextsOn processors nnodes q

instance (logs : ℕ → List (ℕ × ContextCall)) (q : ℕ) :
    Decidable (TargetsExist processors nnodes logs q) :=
  inferInstanceAs (Decidable (∀ e ∈ arrivals processors nnodes logs q,
    e.1 < contextsOn processors nnodes q))

/-- Node `q` after the synchronisation: its tables are empty again, its memory is that
of the machine, and every context can move what was sent to it. What comes from other nodes
does not depend on the memory. -/
structure NodeSynced (tagSize : ℕ → ℕ) (logs : ℕ → List (ℕ × ContextCall)) (w : ℕ → Node) (q : ℕ)
    (node : Node) : Prop where
  logged : Logged ⟨nnodes, q, [], tagAfter (tagSize q) (nodeCalls processors nnodes q (logs q))⟩ []
    node.proc
  mem : node.proc.mem = memAfter nnodes (fun p => nodeCalls processors nnodes p (logs p))
    (memLocal processors nnodes logs w) q
  recvTagSize : node.proc.bsp.messageQueue.recvTagSize = tagSize q
  queues : ∀ lp < contextsOn processors nnodes q, ∃ new,
    Pending (node.contexts lp).localDeliveries [] [] []
      ((logs q).filterMap (localSend processors nnodes q lp) ++ new) ∧
    ∀ mem, new.map (resolve { node.proc with mem := mem }) =
      forContext lp (arrivals processors nnodes logs q)

end Synced

section Sync

variable {processors nnodes : ℕ} {tagSize : ℕ → ℕ} {logs : ℕ → List (ℕ × ContextCall)}
  {w : ℕ → Node}
  {q : ℕ}

theorem arrivals_lp (hm : Mapped processors nnodes) (hp : processors ≤ 2 ^ 31) :
    ∀ e ∈ arrivals processors nnodes logs q, e.1 < 2 ^ 31 := by
  intro e he
  obtain ⟨p, -, hep⟩ := List.mem_flatMap.mp he
  obtain ⟨c, -, hc⟩ := List.mem_filterMap.mp hep
  have hlocal : ∀ pid, localOf processors nnodes pid < 2 ^ 31 := fun pid =>
    lt_of_lt_of_le (Nat.mod_lt pid (icd_pos hm)) ((icd_le hm).trans hp)
  cases hcall : c.2 with
  | send pid m =>
    simp only [hcall, arrival] at hc
    split at hc
    · cases hc
    · split at hc
      · cases hc
        exact hlocal pid
      · cases hc
  | hpsend pid tag payload nbytes m =>
    simp only [hcall, arrival] at hc
    split at hc
    · cases hc
    · split at hc
      · cases hc
        exact hlocal pid
      · cases hc
  | put | get | setTagsize => simp [hcall, arrival] at hc

theorem exchanged_holding {bsp : BSPObject} {mem : Mem}
    (hex : Exchanged processors nnodes tagSize logs w q bsp mem)
    (htags : ∀ e ∈ arrivals processors nnodes logs q, e.2.tag.length = tagSize q) :
    Holding bsp ((arrivals processors nnodes logs q).map fun e => prefixed e.1 e.2) := by
  refine ⟨?_, fun m hm => ?_⟩
  · rw [← inbox_arrivals]
    exact hex.queue
  · obtain ⟨e, he, rfl⟩ := List.mem_map.mp hm
    rw [hex.recvTagSize]
    exact htags e he

structure Split (processors nnodes : ℕ) (tagSize : ℕ → ℕ) (logs : ℕ → List (ℕ × ContextCall))
    (w : ℕ → Node) (q : ℕ) (node : Node) (bsp : BSPObject) (mem : Mem) : Prop where
  exchanged : Exchanged processors nnodes tagSize logs w q bsp mem
  proc : ∃ mesgq, node.proc =
      { bsp := { bsp with messageQueue := mesgq }, mem := mem, stack := (w q).proc.stack } ∧
    mesgq.sendTagSize = bsp.messageQueue.sendTagSize ∧
    mesgq.recvTagSize = bsp.messageQueue.recvTagSize ∧ ∃ ms,
      Queued bsp.deliveryReceivedTable mesgq ms
  queues : ∀ lp < contextsOn processors nnodes q, ∃ moved new,
    Pending (node.contexts lp).localDeliveries [] []
      ((logs q).filterMap (localSend processors nnodes q lp) ++ new) moved ∧
    ∀ mem, new.map (resolve { node.proc with mem := mem }) =
      forContext lp (arrivals processors nnodes logs q)

variable (h : NodesReady processors nnodes tagSize logs w) (hp : processors ≤ 2 ^ 31)

include h

theorem quiet_arrivals (hq : q < nnodes) (hany : exchangesAt processors nnodes w q = false) :
    arrivals processors nnodes logs q = [] := by
  have hlen := (quiet_exchanged h hq hany).queue.nMesg
  have hzero : (afterRequests processors nnodes w q).messageQueue.nMesg = 0 := by
    obtain ⟨req, deliv, recv, hframe, -⟩ := requests_frame h hq
    rw [hframe]
    rfl
  rw [hzero, List.length_map, inbox_arrivals, List.length_map] at hlen
  exact List.eq_nil_of_length_eq_zero hlen.symm

include hp

theorem receive_spec (hq : q < nnodes)
    (htags : TagsFit processors nnodes tagSize logs q)
      (htargets : TargetsExist processors nnodes logs q) :
    ∃ node bsp mem, receiveAt processors nnodes w q = some node ∧
      Split processors nnodes tagSize logs w q node bsp mem := by
  obtain ⟨hproc, hqueues⟩ := afterLocal_spec h hq
  by_cases hany : exchangesAt processors nnodes w q = true
  · obtain ⟨bsp, mem, hdeliver, hex⟩ := deliver_exchanged h hq hany
    have hhold := exchanged_holding hex fun e he => htags e he (Nat.zero_lt_of_lt (htargets e he))
    have hlen : (arrivals processors nnodes logs q).length < bsp.messageQueue.nMesg + 1 := by
      rw [hhold.queued.nMesg]
      simp
    let node := ((afterLocal processors nnodes w q).onBsp bsp).onMem mem
    have hhold' : Holding node.proc.bsp ((arrivals processors nnodes logs q).map
        fun e => prefixed e.1 e.2) := hhold
    obtain ⟨node', mesgq, hsplit, hproc', hsend, hrecv, hqueued, hctx⟩ :=
      splitQueue_spec hlen hhold' (arrivals_lp h.mapped hp) htargets hqueues
    have hstack : node.proc = { bsp := bsp, mem := mem, stack := (w q).proc.stack } := by
      simp only [node, Node.onMem, Node.onBsp, hproc]
    refine ⟨node', bsp, mem, ?_, hex, ⟨mesgq, ?_, hsend, hrecv, hqueued⟩, fun lp hlp => ?_⟩
    · rw [receiveAt, if_pos hany, hdeliver]
      exact hsplit
    · rw [hproc', hstack]
    · obtain ⟨moved, new, hpend, hnew⟩ := hctx lp hlp
      refine ⟨moved, new, hpend, fun mem => ?_⟩
      rw [← hnew mem, hproc']
      exact congrArg (fun f => new.map f) (resolve_congr rfl rfl hrecv)
  · have hex := quiet_exchanged h hq (by simpa using hany)
    have hnone := quiet_arrivals h hq (by simpa using hany)
    refine ⟨(afterLocal processors nnodes w q).onBsp (afterRequests processors nnodes w q),
      afterRequests processors nnodes w q, _, by rw [receiveAt, if_neg hany], hex,
      ⟨(afterRequests processors nnodes w q).messageQueue, ?_, rfl, rfl, _, hex.queue⟩,
        fun lp hlp => ?_⟩
    · simp only [Node.onBsp, hproc]
    · obtain ⟨moved, hpend⟩ := hqueues lp hlp
      refine ⟨moved, [], by rw [List.append_nil]; exact hpend, fun _ => ?_⟩
      rw [hnone]
      rfl

theorem receive_targets (hq : q < nnodes)
    (htags : TagsFit processors nnodes tagSize logs q) {node : Node}
    (hs : receiveAt processors nnodes w q = some node) : TargetsExist processors nnodes logs q := by
  rw [TargetsExist]
  by_cases hany : exchangesAt processors nnodes w q = true
  · obtain ⟨bsp, mem, hdeliver, hex⟩ := deliver_exchanged h hq hany
    rw [receiveAt, if_pos hany, hdeliver] at hs
    rcases Nat.eq_zero_or_pos (contextsOn processors nnodes q) with hzero | hpos
    · rw [hzero] at hs
      have hlen := hex.queue.nMesg
      have hnone : bsp.messageQueue.nMesg = 0 := splitQueue_none hs
      rw [hnone, List.length_map, inbox_arrivals, List.length_map] at hlen
      rw [List.eq_nil_of_length_eq_zero hlen.symm]
      simp
    · have hhold : Holding (((afterLocal processors nnodes w q).onBsp bsp).onMem mem).proc.bsp
          ((arrivals processors nnodes logs q).map fun e => prefixed e.1 e.2) :=
        exchanged_holding hex fun e he => htags e he hpos
      exact splitQueue_targets hhold (arrivals_lp h.mapped hp) hs
  · rw [quiet_arrivals h hq (by simpa using hany)]
    simp

theorem syncNode_spec (hq : q < nnodes)
    (htags : TagsFit processors nnodes tagSize logs q)
      (htargets : TargetsExist processors nnodes logs q) :
    ∃ node, syncNode processors nnodes w q = some node ∧
      NodeSynced processors nnodes tagSize logs w q node := by
  obtain ⟨node, bsp, mem, hnode, hsplit⟩ := receive_spec h hp hq htags htargets
  obtain ⟨mesgq, hproc, hsend, hrecv, hqueued⟩ := hsplit.proc
  have hex := hsplit.exchanged
  choose! moved received hpend hreceived using hsplit.queues
  obtain ⟨hfin, hqueues⟩ := finish_spec fun lp (hlp : lp < contextsOn processors nnodes q) =>
    ⟨_, hpend lp hlp⟩
  rw [hproc] at hfin
  refine ⟨finish (contextsOn processors nnodes q) node, by rw [syncNode, hnode]; rfl, ?_, ?_, ?_,
    fun lp hlp => ⟨_, hqueues lp hlp, ?_⟩⟩
  · rw [hfin]
    exact logged_queue hex.logged mem hqueued hsend
  · rw [hfin]
    exact hex.mem
  · rw [hfin]
    exact hrecv.trans hex.recvTagSize
  · intro mem'
    have hresolve : resolve
      { (finish (contextsOn processors nnodes q) node).proc with mem := mem' } =
        resolve { node.proc with mem := mem' } := by
      rw [hfin, hproc]
      exact resolve_congr rfl rfl rfl
    rw [hresolve, hreceived lp hlp]

omit h hp in
theorem withRegs_synced {node : Node} (hs : NodeSynced processors nnodes tagSize logs w q node)
    (regs : ℕ → ContextReg) :
    NodeSynced processors nnodes tagSize logs w q (withRegs processors nnodes regs q node) := by
  refine ⟨hs.logged, hs.mem, hs.recvTagSize, fun lp hlp => ?_⟩
  obtain ⟨moved, hpend, hmoved⟩ := hs.queues lp hlp
  refine ⟨moved, ?_, hmoved⟩
  simp only [withRegs, if_pos hlp]
  exact hpend

/-- When the registrations pass, `bsp_sync` is defined and does what the machine does. -/
theorem bspSync_spec
    (htags : ∀ q < nnodes, TagsFit processors nnodes tagSize logs q)
    (htargets : ∀ q < nnodes, TargetsExist processors nnodes logs q)
    {fresh : ℕ → ℕ → RegReq} {regs : ℕ → ContextReg}
    (hregs : syncMemoryreg processors nnodes fresh (regsOf processors nnodes w) = some regs) :
    ∃ w', bspSync processors nnodes w fresh = some w' ∧
      ∀ q < nnodes, NodeSynced processors nnodes tagSize logs w q (w' q) ∧
        ∀ lp < contextsOn processors nnodes q, ((w' q).contexts lp).reg =
          (taskMapper processors nnodes q).getContext regs q lp := by
  have hnode := fun (q : ℕ) (hq : q < nnodes) => syncNode_spec h hp hq (htags q hq) (htargets q hq)
  obtain ⟨w', hw'⟩ := allBelow_defined w (f := fun q =>
    (syncNode processors nnodes w q).map (withRegs processors nnodes regs q)) (n := nnodes)
    fun q hq => by
      obtain ⟨node, hs, -⟩ := hnode q hq
      exact ⟨_, by rw [hs]; rfl⟩
  refine ⟨w', by rw [bspSync, hregs]; exact hw', fun q hq => ?_⟩
  obtain ⟨node, hs, hsync⟩ := hnode q hq
  have hq' := (allBelow_eq_some hw').1 q hq
  rw [hs, Option.map_some, Option.some.injEq] at hq'
  rw [← hq']
  refine ⟨withRegs_synced hsync regs, fun lp hlp => ?_⟩
  simp only [withRegs, if_pos hlp]

theorem bspSync_targets
    (htags : ∀ q < nnodes, TagsFit processors nnodes tagSize logs q)
    {fresh : ℕ → ℕ → RegReq} {w' : ℕ → Node} (hs : bspSync processors nnodes w fresh = some w') :
    (∃ regs, syncMemoryreg processors nnodes fresh (regsOf processors nnodes w) = some regs) ∧
      ∀ q < nnodes, TargetsExist processors nnodes logs q := by
  obtain ⟨regs, hregs, hall⟩ := Option.bind_eq_some_iff.mp hs
  refine ⟨⟨regs, hregs⟩, fun q hq => ?_⟩
  obtain ⟨node, hnode, -⟩ := Option.map_eq_some_iff.mp ((allBelow_eq_some hall).1 q hq)
  obtain ⟨received, hreceived, -⟩ := Option.map_eq_some_iff.mp hnode
  exact receive_targets h hp hq (htags q hq) hreceived

end Sync

end BspOnMpi.ContextSuperstep
