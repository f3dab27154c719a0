import BspOnMpi.ContextThreads
import BspOnMpi.ContextRegister
import BspOnMpi.ContextAgreement
import BspOnMpi.Interleaving

/-! Interleavings of the nodes and of their threads. A superstep of a node: the threads of its
contexts run until all of them have finished, then the node takes part in the collectives of
`ContextImpl::bsp_sync`, of which some are left out. The nodes have no common clock. Whatever the
schedules of the threads and of the nodes are, the end is that of supersteps in lock step, in
which every node takes the operations of its contexts one at a time. -/

namespace BspOnMpi.ContextInterleaving
open Lib Exptable Slots Delivtable Memreg DelivExecute Reqtable Machine Mapper ContextMemreg
  LocalDelivery Contexts ContextSync ContextAgreement ContextThreads
open Bspx hiding exec
open BspxSync (syncReset)
open ContextProgram (Start initNode sampleStart)

inductive Contribution
  | indices (words : ℕ → ℕ)
  | registrations (blockBytes : ℤ) (vs : ℕ → RegReq)
  | requests (table : RequestTable)
  | deliveries (table : DeliveryTable)

namespace Contribution

def kind : Contribution → Comm
  | .indices _ => .indices
  | .registrations blockBytes _ => .registrations blockBytes
  | .requests _ => .requests
  | .deliveries _ => .deliveries

def toIndices : Contribution → Option (ℕ → ℕ)
  | .indices words => some words
  | _ => none

def toRegistrations (blockBytes : ℤ) : Contribution → Option (ℕ → RegReq)
  | .registrations b vs => if b = blockBytes then some vs else none
  | _ => none

def toRequests : Contribution → Option RequestTable
  | .requests table => some table
  | _ => none

def toDeliveries : Contribution → Option DeliveryTable
  | .deliveries table => some table
  | _ => none

end Contribution

/-- What a node does in a superstep, with the schedule of its threads and what its
variables and the allocation of `vs` contain. -/
structure NodeStep where
  ops : ℕ → List ContextOp
  schedule : List ℕ
  pointer : ℕ → ℕ
  fresh : ℕ → RegReq

inductive Stage
  | tasks (fresh : ℕ → RegReq) (schedule : List ℕ) (t : Threads Shared Action ContextOp)
  | indices (fresh : ℕ → RegReq) (regReqSize : ℕ)
  | registrations (fresh : ℕ → RegReq) (regReqSize : ℕ) (recvIndex : ℕ → ℕ)
  | requests
  | deliveries
  | finished

structure Activity where
  node : Node
  stage : Stage
  rest : List NodeStep

def joined (n : ℕ) (t : Threads Shared Action ContextOp) : Bool :=
  (List.range n).all fun lp => (t.rest lp).isEmpty && (t.calls lp).isEmpty

/-- Tasks are made of the first `n` contexts only. -/
def spawn (n : ℕ) (ops : ℕ → List ContextOp) (lp : ℕ) : List ContextOp :=
  if lp < n then ops lp else []

def localReqSize (n : ℕ) (node : Node) : Option ℕ :=
  (run (fun lp => commonSize (node.contexts lp).reg.regRequests.length) (List.range n) none).map
    fun size => size.getD 0

def registerAll (n : ℕ) (cs : ℕ → ContextReg) (node : Node) : Node :=
  { node with contexts := fun lp =>
      if lp < n then { node.contexts lp with reg := cs lp } else node.contexts lp }

def requestsFrom (send : ℕ → RequestTable) (p : Proc) (q : ℕ) : BSPObject :=
  let req := expandableTableComm send p.bsp.requestReceivedTable q
  { p.bsp with
    requestReceivedTable := req
    deliveryTable := requestTableExecute req p.bsp.deliveryTable p.mem p.stack }

def deliverFrom (send : ℕ → DeliveryTable) (p : Proc) (q : ℕ) : Option (BSPObject × Mem) :=
  let recv := expandableTableComm send p.bsp.deliveryReceivedTable q
  (deliveryTableExecute recv p.bsp.memoryRegister p.bsp.messageQueue p.mem p.bsp.rank).map fun st =>
    ({ p.bsp with
        deliveryReceivedTable := st.table
        messageQueue := st.mesgq
        memoryRegister := st.memreg }, st.mem)

section Node

variable (processors nnodes : ℕ) (also : ℕ → ℕ → Bool) (q : ℕ)

def localVs (fresh : ℕ → RegReq) (regReqSize : ℕ) (node : Node) : ℕ → RegReq :=
  let mapper := taskMapper processors nnodes q
  writeAll fresh (requestWrites node.proc.bsp.nprocs regReqSize mapper.procsPerNode
    mapper.procsThisNode fun lp => (node.contexts lp).reg)

def requestIn (vr : ℕ → RegReq) (regReqSize req gp : ℕ) : RegReq :=
  let mapper := taskMapper processors nnodes q
  vr (mapper.globalToNode gp * (regReqSize * mapper.procsPerNode) +
    mapper.globalToLocal gp * regReqSize + req)

def ownRequestIn (vr : ℕ → RegReq) (regReqSize req lp : ℕ) : RegReq :=
  vr (q * (regReqSize * (taskMapper processors nnodes q).procsPerNode) + lp * regReqSize + req)

/-- `process_memoryreg_ops` once the requests of all nodes have been received. -/
def processReceived (vr : ℕ → RegReq) (regReqSize : ℕ) (cs : ℕ → ContextReg) :
    Option (ℕ → ContextReg) :=
  let mapper := taskMapper processors nnodes q
  (run (fun req => processRequest mapper.nprocs mapper.procsThisNode
      (requestIn processors nnodes q vr regReqSize req)
      (ownRequestIn processors nnodes q vr regReqSize req))
    (List.range regReqSize) fun lp => takeRequests (cs lp)).map fun cs lp =>
      { cs lp with memoryRegister := memoryRegisterPack (cs lp).memoryRegister }

def proceed (node : Node) : List NodeStep → Activity
  | [] => { node := node, stage := .finished, rest := [] }
  | step :: rest =>
    { node := node
      stage := .tasks step.fresh step.schedule
        (tasks node step.pointer (spawn (contextsOn processors nnodes q) step.ops))
      rest := rest }

/-- Step 3 up to its first collective. A node that takes part in none is done with
the superstep. -/
def exchange (recvIndex : ℕ → ℕ) (node : Node) (rest : List NodeStep) : Activity :=
  let bsp := node.proc.bsp
  let anyGets := ownGets bsp || anyFlag recvIndex bsp.nprocs 0
  if anyFlag recvIndex bsp.nprocs 1 || anyGets then
    { node := node.onBsp (syncExpand (syncReset bsp) recvIndex anyGets)
      stage := if anyGets then .requests else .deliveries
      rest := rest }
  else
    proceed processors nnodes q
      (finish (contextsOn processors nnodes q) (node.onBsp (syncReset bsp))) rest

/-- What node `q` does next: a statement of one of its threads, the start of `bsp_sync`, or
a collective. It waits for the nodes `also q` even when they send nothing. -/
def next (a : Activity) : Move Activity Contribution :=
  let n := contextsOn processors nnodes q
  let bsp := a.node.proc.bsp
  match a.stage with
  | .tasks fresh (lp :: schedule) t =>
    match fireThread apply (code processors nnodes q) lp t with
    | some t => .silent { a with stage := .tasks fresh schedule t }
    | none => .halt
  | .tasks fresh [] t =>
    if joined n t then
      match localReqSize n t.shared.node with
      | some regReqSize =>
        .silent { a with node := executeLocal n t.shared.node, stage := .indices fresh regReqSize }
      | none => .halt
    else .halt
  | .indices fresh regReqSize =>
    .collective (.indices (sendIndex regReqSize bsp)) (fun _ => true) fun received => do
      let send ← gather bsp.nprocs (fun _ => true) Contribution.toIndices (sendIndex regReqSize bsp)
        received
      let recvIndex := fun i => send (i / 3) (3 * q + i % 3)
      let size := maxReqSize regReqSize (fun p => recvIndex (3 * p + 2) / 16) bsp.nprocs
      return if 0 < size then { a with stage := .registrations fresh size.toNat recvIndex }
        else exchange processors nnodes q recvIndex a.node a.rest
  | .registrations fresh regReqSize recvIndex =>
    let block := regReqSize * (taskMapper processors nnodes q).procsPerNode
    let vs := localVs processors nnodes q fresh regReqSize a.node
    .collective (.registrations (block * sizeofReg : ℕ) vs) (fun _ => true) fun received => do
      let send ← gather bsp.nprocs (fun _ => true)
        (Contribution.toRegistrations (block * sizeofReg : ℕ)) vs received
      let cs ← processReceived processors nnodes q (comm0 send block q) regReqSize
        fun lp => (a.node.contexts lp).reg
      return exchange processors nnodes q recvIndex (registerAll n cs a.node) a.rest
  | .requests =>
    let needs := fun p => Interleaving.awaits bsp.requestReceivedTable p || also q p
    .collective (.requests bsp.requestTable) needs fun received => do
      let send ← gather bsp.nprocs needs Contribution.toRequests bsp.requestTable received
      return { a with node := a.node.onBsp (requestsFrom send a.node.proc q), stage := .deliveries }
  | .deliveries =>
    let needs := fun p => Interleaving.awaits bsp.deliveryReceivedTable p || also q p
    .collective (.deliveries bsp.deliveryTable) needs fun received => do
      let send ← gather bsp.nprocs needs Contribution.toDeliveries bsp.deliveryTable received
      let r ← deliverFrom send a.node.proc q
      let node ← splitQueue n (r.1.messageQueue.nMesg + 1) ((a.node.onBsp r.1).onMem r.2)
      return proceed processors nnodes q (finish n node) a.rest
  | .finished => .halt

end Node

abbrev Configuration := ℕ → Party Activity Contribution

section Program

variable (processors nnodes : ℕ)

def start (program : List (ℕ → NodeStep)) (w : ℕ → Node) : Configuration :=
  startParties fun q => proceed processors nnodes q (w q) (program.map fun steps => steps q)

def runTasks (q : ℕ) (step : NodeStep) (node : Node) : Option Node :=
  let n := contextsOn processors nnodes q
  (run (fireThread apply (code processors nnodes q)) step.schedule
    (tasks node step.pointer (spawn n step.ops))).bind fun t =>
      if joined n t then some t.shared.node else none

def superstep (steps : ℕ → NodeStep) (w : ℕ → Node) : Option (ℕ → Node) :=
  (allBelow nnodes (fun q => runTasks processors nnodes q (steps q) (w q)) w).bind fun v =>
    bspSync processors nnodes v fun q => (steps q).fresh

end Program

section Local

variable {processors nnodes : ℕ} {v : ℕ → Node} {q : ℕ}

theorem executeLocal_reg (n : ℕ) (node : Node) (lp : ℕ) :
    ((executeLocal n node).contexts lp).reg = (node.contexts lp).reg := by
  induction n with
  | zero => rfl
  | succ n ih =>
    let before := executeLocal n node
    let r := (before.contexts n).localDeliveries.execute before.proc.mem
    have hstep := ContextProgram.onQueue_reg (before.onMem r.2) n lp fun _ => r.1
    rw [executeLocal, List.range_succ, List.foldl_append]
    exact hstep.trans ih

theorem getContext_regs (hm : Mapped processors nnodes) {lp : ℕ}
    (hlp : lp < contextsOn processors nnodes q) :
    (taskMapper processors nnodes q).getContext (regsOf processors nnodes v) q lp =
      ((v q).contexts lp).reg := by
  rw [getContext_eq hm _ hlp]
  exact ContextRegister.regs_local hm hlp

theorem localReqSize_eq (hm : Mapped processors nnodes) :
    localReqSize (contextsOn processors nnodes q) (v q) =
      nodeReqSize processors nnodes (regsOf processors nnodes v) q := by
  rw [localReqSize, nodeReqSize]
  congr 1
  refine run_congr (fun lp hlp size => ?_) _
  rw [getContext_regs hm (List.mem_range.mp hlp)]

theorem requestWrites_congr {nprocs regReqSize ppn n : ℕ} {cs cs' : ℕ → ContextReg}
    (h : ∀ lp < n, cs lp = cs' lp) :
    requestWrites nprocs regReqSize ppn n cs = requestWrites nprocs regReqSize ppn n cs' := by
  rw [requestWrites, requestWrites]
  refine List.flatMap_congr fun lp hlp => ?_
  rw [h lp (List.mem_range.mp hlp)]

theorem localVs_eq (hm : Mapped processors nnodes) {fresh : ℕ → ℕ → RegReq} {regReqSize : ℕ}
    (hn : (v q).proc.bsp.nprocs = nnodes) :
    localVs processors nnodes q (fresh q) regReqSize (afterLocal processors nnodes v q) =
      sendRequests processors nnodes fresh (regsOf processors nnodes v) regReqSize q := by
  rw [localVs, sendRequests, afterLocal_bsp, hn]
  congr 1
  refine requestWrites_congr fun lp hlp => ?_
  rw [getContext_regs hm hlp]
  exact executeLocal_reg _ _ _

theorem applyRequest_localPid {c c' : ContextReg} {st : Check} {requests : ℕ → RegReq} {data : ℕ}
    (h : applyRequest processors c st requests data = some c') : c'.localPid = c.localPid := by
  rw [applyRequest] at h
  split at h
  · rw [pushRegister] at h
    split at h
    · cases h
    · cases h
      rfl
  · obtain ⟨t, -, hrest⟩ := Option.bind_eq_some_iff.mp h
    split at hrest
    · cases hrest
    · cases hrest
      rfl

def SameContexts (n : ℕ) (cs cs' : ℕ → ContextReg) : Prop :=
  ∀ lp < n, cs lp = cs' lp ∧ (cs' lp).localPid = lp

variable {requests requests' myR myR' : ℕ → RegReq} {n : ℕ}

theorem processContext_same (hreq : ∀ gp < processors, requests gp = requests' gp)
    (hmy : ∀ lp < n, myR lp = myR' lp) {llp : ℕ} (hlp : llp < n)
    {st st' next' : Check × (ℕ → ContextReg)}
    (hst : st.1 = st'.1 ∧ SameContexts n st.2 st'.2)
    (h : processContext processors requests' myR' llp st' = some next') :
    ∃ next, processContext processors requests myR llp st = some next ∧
      next.1 = next'.1 ∧ SameContexts n next.2 next'.2 := by
  obtain ⟨hcheck, hcs⟩ := hst
  obtain ⟨heq, hpid⟩ := hcs llp hlp
  obtain ⟨check, hrun, hrest⟩ := Option.bind_eq_some_iff.mp h
  obtain ⟨c, hc, hret⟩ := Option.bind_eq_some_iff.mp hrest
  cases hret
  have hrun' : run (fun gp => checkRequest (requests gp)) (List.range processors) st.1 =
      some check := by
    rw [hcheck, ← hrun]
    exact run_congr (fun gp hgp s => by rw [hreq gp (List.mem_range.mp hgp)]) _
  have hc' : applyRequest processors (st.2 llp) check requests (myR (st.2 llp).localPid).data =
      some c := by
    rw [ContextMismatch.applyRequest_congr hreq, heq, hpid, hmy llp hlp]
    rw [hpid] at hc
    exact hc
  refine ⟨(check, Function.update st.2 llp c), ?_, rfl, fun lp hl => ?_⟩
  · simp [processContext, hrun', hc']
  · by_cases hne : lp = llp
    · subst hne
      simp only [Function.update_self, applyRequest_localPid hc, hpid, and_self]
    · simp only [Function.update_of_ne hne]
      exact hcs lp hl

theorem processRequest_same (hreq : ∀ gp < processors, requests gp = requests' gp)
    (hmy : ∀ lp < n, myR lp = myR' lp) {cs cs' out' : ℕ → ContextReg} (hcs : SameContexts n cs cs')
    (h : processRequest processors n requests' myR' cs' = some out') :
    ∃ out, processRequest processors n requests myR cs = some out ∧ SameContexts n out out' := by
  obtain ⟨st', hst', rfl⟩ := Option.map_eq_some_iff.mp h
  obtain ⟨st, hst, -, hout⟩ := run_simulated
    (R := fun st st' => st.1 = st'.1 ∧ SameContexts n st.2 st'.2)
    (fun llp hllp _ _ _ hR hs => processContext_same hreq hmy (List.mem_range.mp hllp) hR hs)
    (t := (⟨noValue, noValue, none⟩, cs)) ⟨rfl, hcs⟩ hst'
  exact ⟨st.2, by rw [processRequest, hst]; rfl, hout⟩

theorem comm0_block {send send' : ℕ → ℕ → RegReq} {block p i : ℕ} (hp : send p = send' p)
    (hi : i < block) :
    comm0 send block q (p * block + i) = comm0 send' block q (p * block + i) := by
  obtain ⟨hdiv, hmod⟩ := block_index (p := p) hi
  rw [comm0, comm0, hdiv, hp]

section Received

variable (hm : Mapped processors nnodes) (hq : q < nnodes) {fresh : ℕ → ℕ → RegReq}
  {regReqSize : ℕ} {send : ℕ → ℕ → RegReq}
  (hsend : ∀ p < nnodes,
    send p = sendRequests processors nnodes fresh (regsOf processors nnodes v) regReqSize p)

include hm hq hsend

theorem requests_same {req : ℕ} (hreq : req < regReqSize) :
    let vr := comm0 send (regReqSize * (taskMapper processors nnodes q).procsPerNode) q
    (∀ gp < processors, requestIn processors nnodes q vr regReqSize req gp =
      requestOf processors nnodes fresh (regsOf processors nnodes v) regReqSize q req gp) ∧
    ∀ lp < contextsOn processors nnodes q, ownRequestIn processors nnodes q vr regReqSize req lp =
      ownRequest processors nnodes fresh (regsOf processors nnodes v) regReqSize q req lp := by
  have hlt : ∀ {lp : ℕ}, lp < icd processors nnodes →
      lp * regReqSize + req < regReqSize * (taskMapper processors nnodes q).procsPerNode :=
    fun hlp => by rw [procsPerNode_eq hm]; exact position_lt hlp hreq
  refine ⟨fun gp hgp => ?_, fun lp hlp => ?_⟩
  · rw [requestIn, requestOf, ContextLog.mapper_node hm q hgp, ContextLog.mapper_local hm q hgp,
      Nat.add_assoc]
    exact comm0_block (hsend _ (node_lt hm hgp)) (hlt (Nat.mod_lt gp (icd_pos hm)))
  · rw [ownRequestIn, ownRequest, Nat.add_assoc]
    have hn : contextsOn processors nnodes q = min _ _ := procsThisNode_eq hm
    exact comm0_block (hsend q hq) (hlt (by omega))

theorem processReceived_eq
    (hpid : ∀ lp < contextsOn processors nnodes q, ((v q).contexts lp).reg.localPid = lp)
    {cs' : ℕ → ContextReg} (h : processMemoryregOps processors nnodes fresh
      (regsOf processors nnodes v) regReqSize q = some cs') :
    ∃ cs, processReceived processors nnodes q
        (comm0 send (regReqSize * (taskMapper processors nnodes q).procsPerNode) q) regReqSize
        (fun lp => ((v q).contexts lp).reg) = some cs ∧
      SameContexts (contextsOn processors nnodes q) cs cs' := by
  obtain ⟨last', hlast', rfl⟩ := Option.map_eq_some_iff.mp h
  have hstart : SameContexts (contextsOn processors nnodes q)
      (fun lp => takeRequests ((v q).contexts lp).reg) fun lp => takeRequests
        ((taskMapper processors nnodes q).getContext (regsOf processors nnodes v) q lp) := by
    intro lp hlp
    simp only [getContext_regs hm hlp]
    exact ⟨trivial, hpid lp hlp⟩
  obtain ⟨last, hlast, hsame⟩ := run_simulated
    (fun req hreq cs' cs out' hR hs => by
      obtain ⟨hr, hmy⟩ := requests_same hm hq hsend (List.mem_range.mp hreq)
      exact processRequest_same (fun gp hgp => hr gp (hgp.trans_eq (taskMapper_nprocs hm q))) hmy hR
        hs) hstart hlast'
  refine ⟨_, by rw [processReceived]; exact congrArg (Option.map _) hlast, fun lp hlp => ?_⟩
  simp only [(hsame lp hlp).1, (hsame lp hlp).2, and_self]

end Received

theorem sync_sizes (hm : Mapped processors nnodes) {fresh : ℕ → ℕ → RegReq} {regs : ℕ → ContextReg}
    (h : syncMemoryreg processors nnodes fresh (regsOf processors nnodes v) = some regs)
    (hq : q < nnodes) :
    nodeReqSize processors nnodes (regsOf processors nnodes v) q =
      some (ownReqSize processors nnodes v q) := by
  obtain ⟨cs, hcs, -⟩ := syncMemoryreg_at hm h hq
  obtain ⟨size, hsize⟩ := Option.isSome_iff_exists.mp ((memregAt_cases hcs).1 q hq)
  rw [ownReqSize, hsize, Option.getD_some]

theorem memregSize_eq (hm : Mapped processors nnodes) (he : Entering processors nnodes v)
    (hq : q < nnodes) : memregSize processors nnodes (regsOf processors nnodes v) q =
      largest (ownReqSize processors nnodes v) nnodes :=
  (reqSizeAt_memreg hm he hq).symm.trans (reqSizeAt_eq hm he hq)

theorem sync_processed (hm : Mapped processors nnodes) (he : Entering processors nnodes v)
    {fresh : ℕ → ℕ → RegReq} {regs : ℕ → ContextReg}
    (h : syncMemoryreg processors nnodes fresh (regsOf processors nnodes v) = some regs)
    (hpos : 0 < largest (ownReqSize processors nnodes v) nnodes) (hq : q < nnodes) : ∃ cs,
      processMemoryregOps processors nnodes fresh (regsOf processors nnodes v)
        (largest (ownReqSize processors nnodes v) nnodes) q = some cs ∧
      ∀ lp < contextsOn processors nnodes q,
        (taskMapper processors nnodes q).getContext regs q lp = cs lp := by
  have hsize := memregSize_eq hm he hq
  rcases syncMemoryreg_cases hm h with ⟨hskips, -⟩ | ⟨size, -, hsizes, hprocessed⟩
  · have hle := hskips.size q hq
    omega
  · obtain ⟨cs, hcs, hlocal⟩ := hprocessed q hq
    have heq : size = largest (ownReqSize processors nnodes v) nnodes :=
      Int.ofNat.inj ((hsizes q hq).symm.trans hsize)
    rw [heq] at hcs
    refine ⟨cs, hcs, fun lp hlp => ?_⟩
    rw [getContext_eq hm _ hlp]
    exact hlocal lp hlp

theorem sync_skipped (hm : Mapped processors nnodes) (he : Entering processors nnodes v)
    {fresh : ℕ → ℕ → RegReq} {regs : ℕ → ContextReg}
    (h : syncMemoryreg processors nnodes fresh (regsOf processors nnodes v) = some regs)
    (hzero : largest (ownReqSize processors nnodes v) nnodes = 0) :
    regs = regsOf processors nnodes v := by
  rcases syncMemoryreg_cases hm h with ⟨-, hsame⟩ | ⟨size, hpos, hsizes, -⟩
  · exact hsame
  · have hsize := memregSize_eq hm he hm.nnodes_pos
    have hsizes := hsizes 0 hm.nnodes_pos
    omega

theorem withRegs_eq {regs cs : ℕ → ContextReg} (h : ∀ lp < contextsOn processors nnodes q,
      (taskMapper processors nnodes q).getContext regs q lp = cs lp) (node : Node) :
    withRegs processors nnodes regs q node =
      registerAll (contextsOn processors nnodes q) cs node := by
  rw [withRegs, registerAll]
  congr 1
  funext lp
  split
  · rw [h lp ‹_›]
  · rfl

theorem withRegs_own (hm : Mapped processors nnodes) {node : Node}
    (h : ∀ lp, (node.contexts lp).reg = ((v q).contexts lp).reg) :
    withRegs processors nnodes (regsOf processors nnodes v) q node = node := by
  have hcontexts : (fun lp => if lp < contextsOn processors nnodes q then
      { node.contexts lp with
        reg := (taskMapper processors nnodes q).getContext (regsOf processors nnodes v) q lp }
      else node.contexts lp) = node.contexts := by
    funext lp
    split
    · rw [getContext_regs hm ‹_›, ← h lp]
    · rfl
  rw [withRegs, hcontexts]

section WithRegs

variable (regs : ℕ → ContextReg)

theorem onQueue_withRegs (node : Node) (l : ℕ) (f : LocalDeliveryQueue → LocalDeliveryQueue) :
    (withRegs processors nnodes regs q node).onQueue l f =
      withRegs processors nnodes regs q (node.onQueue l f) := by
  rw [Node.onQueue, Node.onQueue, withRegs, withRegs]
  congr 1
  funext lp
  by_cases hl : lp = l
  · subst hl
    simp only [Function.update_self]
    split <;> rfl
  · simp only [Function.update_of_ne hl]

theorem splitQueue_withRegs {n k : ℕ} {node node' : Node} (h : splitQueue n k node = some node') :
    splitQueue n k (withRegs processors nnodes regs q node) =
      some (withRegs processors nnodes regs q node') := by
  induction k generalizing node with
  | zero => cases h
  | succ k ih =>
    obtain ⟨⟨bsp, r⟩, hmove, hrest⟩ := Option.bind_eq_some_iff.mp h
    refine Option.bind_eq_some_iff.mpr ⟨(bsp, r), hmove, ?_⟩
    cases r with
    | none =>
      cases hrest
      rfl
    | some message =>
      obtain ⟨bytes, tag, address⟩ := message
      simp only at hrest ⊢
      split at hrest
      · rw [if_pos ‹_›]
        exact (congrArg _ (onQueue_withRegs regs _ _ _)).trans (ih hrest)
      · cases hrest

theorem finish_withRegs (n : ℕ) (node : Node) :
    finish n (withRegs processors nnodes regs q node) =
      withRegs processors nnodes regs q (finish n node) := by
  have hqueues : (List.range n).foldl
        (fun node lp => node.onQueue lp LocalDeliveryQueue.bsmpMessagequeueSync)
        (withRegs processors nnodes regs q node) =
      withRegs processors nnodes regs q ((List.range n).foldl
        (fun node lp => node.onQueue lp LocalDeliveryQueue.bsmpMessagequeueSync) node) := by
    induction n with
    | zero => rfl
    | succ n ih =>
      rw [List.range_succ, List.foldl_append, List.foldl_append, ih]
      exact onQueue_withRegs regs _ _ _
  rw [finish, hqueues]
  rfl

end WithRegs

theorem anyFlag_congr {n bit : ℕ} {recv recv' : ℕ → ℕ} (h : ∀ i < 3 * n, recv i = recv' i) :
    anyFlag recv n bit = anyFlag recv' n bit := by
  rw [anyFlag, anyFlag, Bool.eq_iff_iff, List.any_eq_true, List.any_eq_true]
  refine exists_congr fun p => and_congr_right fun hp => ?_
  have hlt := List.mem_range.mp hp
  rw [h (3 * p + 2) (by omega)]

theorem maxReqSize_congr {size n : ℕ} {recv recv' : ℕ → ℕ} (h : ∀ i < 3 * n, recv i = recv' i) :
    maxReqSize size (fun p => recv (3 * p + 2) / 16) n =
      maxReqSize size (fun p => recv' (3 * p + 2) / 16) n := by
  apply List.foldl_ext
  intro m p hp
  have hlt := List.mem_range.mp hp
  simp only [h (3 * p + 2) (by omega)]

theorem syncExpand_congr {bsp : BSPObject} {n : ℕ} (hn : bsp.nprocs = n) {recv recv' : ℕ → ℕ}
    (h : ∀ i < 3 * n, recv i = recv' i) (anyGets : Bool) :
    syncExpand bsp recv anyGets = syncExpand bsp recv' anyGets := by
  subst hn
  simp only [syncExpand, Interleaving.arrayMax_congr h, Interleaving.deliveryRows_congr h,
    Interleaving.requestCounts_congr h, Interleaving.deliveryCounts_congr h]

end Local

section Placed

variable (processors nnodes : ℕ)

structure Placed (q : ℕ) (node : Node) : Prop where
  sized : Interleaving.Sized nnodes node.proc.bsp
  localPid : ∀ lp < contextsOn processors nnodes q, (node.contexts lp).reg.localPid = lp

variable {processors nnodes} {q : ℕ}

theorem init_placed (x : Start) (q : ℕ) :
    Placed processors nnodes q (initNode processors nnodes x q) := by
  have hsized : ∀ n, Interleaving.Sized nnodes (ContextProgram.constructed n
      (bspxInitBspobject x.alloc x.globalArrays nnodes q)) := by
    intro n
    induction n with
    | zero => exact ⟨rfl, rfl, rfl⟩
    | succ n ih =>
      rw [ContextProgram.constructed, List.range_succ, List.foldl_append]
      exact ⟨ih.nprocs, ih.requests, ih.deliveries⟩
  exact ⟨hsized _, fun _ _ => rfl⟩

theorem placed_onQueue {node : Node} (h : Placed processors nnodes q node) (l : ℕ)
    (f : LocalDeliveryQueue → LocalDeliveryQueue) : Placed processors nnodes q (node.onQueue l f) :=
  ⟨h.sized, fun lp hlp => by rw [ContextProgram.onQueue_reg]; exact h.localPid lp hlp⟩

theorem placed_onReg {node : Node} (h : Placed processors nnodes q node) {l : ℕ} {reg : ContextReg}
    (hreg : reg.localPid = (node.contexts l).reg.localPid) :
    Placed processors nnodes q (node.onReg l reg) := by
  refine ⟨h.sized, fun lp hlp => ?_⟩
  by_cases hl : lp = l
  · subst hl
    simp only [Node.onReg, Function.update_self]
    exact hreg.trans (h.localPid lp hlp)
  · simp only [Node.onReg, Function.update_of_ne hl]
    exact h.localPid lp hlp

theorem apply_placed {lp : ℕ} {a : Action} {s s' : Shared} (h : Placed processors nnodes q s.node)
    (hs : apply lp a s = some s') : Placed processors nnodes q s'.node := by
  have hbsp : ∀ {node : Node}, node.contexts = s.node.contexts →
      Interleaving.Sized nnodes node.proc.bsp → Placed processors nnodes q node :=
    fun hcontexts hsized => ⟨hsized, fun lp hlp => by rw [hcontexts]; exact h.localPid lp hlp⟩
  have hsized : ∀ {bsp : BSPObject}, bsp.nprocs = s.node.proc.bsp.nprocs →
      bsp.requestReceivedTable = s.node.proc.bsp.requestReceivedTable →
      bsp.deliveryReceivedTable = s.node.proc.bsp.deliveryReceivedTable →
      Interleaving.Sized nnodes bsp :=
    fun h1 h2 h3 => ⟨h1.trans h.sized.nprocs, h2 ▸ h.sized.requests, h3 ▸ h.sized.deliveries⟩
  have hqueue : ∀ l f, Placed processors nnodes q (s.onNode (s.node.onQueue l f)).node :=
    placed_onQueue h
  cases a with
  | fail => cases hs
  | localPut | localGet | localSend | localHpsend | advance =>
    cases hs
    exact hqueue _ _
  | memcpy | compute | pushPut | pushRequest | copyPut | writePid | copyTag | copyPayload
  | setTagsize =>
    cases hs
    exact hbsp rfl (hsized rfl rfl rfl)
  | pushSend =>
    simp only [apply] at hs
    split at hs
    · cases hs
      exact hbsp rfl (hsized rfl rfl rfl)
    · cases hs
  | getTag =>
    simp only [apply, onTop] at hs
    split at hs
    · cases hs
      exact hbsp rfl h.sized
    · cases hs
  | move =>
    simp only [apply, onTop] at hs
    split at hs
    · split at hs
      · cases hs
        exact hbsp rfl h.sized
      · cases hs
    · cases hs
  | pushReg ident nbytes =>
    obtain ⟨reg, hreg, rfl⟩ := Option.map_eq_some_iff.mp hs
    rw [bspPushReg] at hreg
    split at hreg
    · cases hreg
      exact placed_onReg h rfl
    · cases hreg
  | popReg ident =>
    obtain ⟨reg, hreg, rfl⟩ := Option.map_eq_some_iff.mp hs
    rw [bspPopReg] at hreg
    split at hreg
    · obtain ⟨e, -, rfl⟩ := Option.map_eq_some_iff.mp hreg
      exact placed_onReg h rfl
    · cases hreg

theorem fire_placed {rank lp : ℕ} {t t' : Threads Shared Action ContextOp}
    (h : Placed processors nnodes q t.shared.node)
    (hs : fireThread apply (code processors nnodes rank) lp t = some t') :
    Placed processors nnodes q t'.shared.node := by
  rcases fire_cases hs with ⟨c, cs, -, -, -, rfl⟩ | ⟨i, is, s, -, -, -, heffect, rfl⟩
  · exact h
  · cases i with
    | free | held => exact apply_placed h heffect
    | acquire | release =>
      cases heffect
      exact h

theorem runTasks_placed {step : NodeStep} {node node' : Node} (h : Placed processors nnodes q node)
    (hs : runTasks processors nnodes q step node = some node') :
    Placed processors nnodes q node' := by
  obtain ⟨t, ht, hjoined⟩ := Option.bind_eq_some_iff.mp hs
  obtain ⟨-, heq⟩ := Option.ite_none_right_eq_some.mp hjoined
  cases heq
  exact run_preserves (I := fun t => Placed processors nnodes q t.shared.node)
    (fun _ _ _ _ hI => fire_placed hI) ht h

end Placed

section Sized

open Interleaving (Sized)

variable (processors : ℕ) {nnodes : ℕ} {v : ℕ → Node} {q : ℕ}

theorem afterExpand_sized (h : Sized nnodes (v q).proc.bsp) :
    Sized nnodes (afterExpand processors nnodes v q) := by
  have h : Sized nnodes (afterLocal processors nnodes v q).proc.bsp := by
    rw [afterLocal_bsp]
    exact h
  simp only [afterExpand]
  split
  · refine ⟨h.nprocs, ?_, ?_⟩
    · simp only [syncExpand]
      split
      · split <;> exact h.requests
      · exact h.requests
    · simp only [syncExpand]
      split <;> exact h.deliveries
  · exact ⟨h.nprocs, h.requests, h.deliveries⟩

theorem afterRequests_sized (h : Sized nnodes (v q).proc.bsp) :
    Sized nnodes (afterRequests processors nnodes v q) := by
  have hs := afterExpand_sized processors h
  simp only [afterRequests, syncRequests]
  split
  · split
    · exact ⟨hs.nprocs, hs.requests, hs.deliveries⟩
    · exact hs
  · exact hs

variable {processors}

theorem splitQueue_sized {n k : ℕ} {node node' : Node} (h : Sized nnodes node.proc.bsp)
    (hs : splitQueue n k node = some node') : Sized nnodes node'.proc.bsp := by
  induction k generalizing node with
  | zero => cases hs
  | succ k ih =>
    obtain ⟨⟨bsp, r⟩, hmove, hrest⟩ := Option.bind_eq_some_iff.mp hs
    have hbsp : Sized nnodes bsp := by
      rw [bspxHpmove] at hmove
      split at hmove
      · cases hmove
        exact h
      · obtain ⟨message, -, heq⟩ := Option.map_eq_some_iff.mp hmove
        cases heq
        exact ⟨h.nprocs, h.requests, h.deliveries⟩
    cases r with
    | none =>
      cases hrest
      exact hbsp
    | some message =>
      obtain ⟨bytes, tag, address⟩ := message
      simp only at hrest
      split at hrest
      · exact ih hbsp hrest
      · cases hrest

theorem finish_sized {n : ℕ} {node : Node} (h : Sized nnodes node.proc.bsp) :
    Sized nnodes (finish n node).proc.bsp := by
  have hqueues : ((List.range n).foldl
      (fun node lp => node.onQueue lp LocalDeliveryQueue.bsmpMessagequeueSync) node).proc =
        node.proc := by
    induction n with
    | zero => rfl
    | succ n ih =>
      rw [List.range_succ, List.foldl_append]
      exact ih
  rw [finish, hqueues]
  exact ⟨h.nprocs, h.requests, h.deliveries⟩

theorem syncNode_sized (h : Sized nnodes (v q).proc.bsp) {node : Node}
    (hs : syncNode processors nnodes v q = some node) : Sized nnodes node.proc.bsp := by
  have hreq := afterRequests_sized processors h
  obtain ⟨node', hreceive, rfl⟩ := Option.map_eq_some_iff.mp hs
  apply finish_sized
  simp only [receiveAt] at hreceive
  split at hreceive
  · obtain ⟨r, hdeliver, hsplit⟩ := Option.bind_eq_some_iff.mp hreceive
    obtain ⟨st, hst, rfl⟩ := Option.map_eq_some_iff.mp hdeliver
    refine splitQueue_sized ?_ hsplit
    exact ⟨hreq.nprocs, hreq.requests, (Interleaving.execute_nprocs hst).trans hreq.deliveries⟩
  · cases hreceive
    exact hreq

end Sized

abbrev registered (processors nnodes : ℕ) (v : ℕ → Node) (regs : ℕ → ContextReg) (q : ℕ) : Node :=
  withRegs processors nnodes regs q (afterLocal processors nnodes v q)

section Phases

variable {processors nnodes : ℕ} (also : ℕ → ℕ → Bool)

theorem tasks_silent {q : ℕ} {fresh : ℕ → RegReq} {schedule : List ℕ}
    {t t' : Threads Shared Action ContextOp}
    (h : run (fireThread apply (code processors nnodes q)) schedule t = some t')
    (hjoined : joined (contextsOn processors nnodes q) t' = true) {size : ℕ}
    (hsize : localReqSize (contextsOn processors nnodes q) t'.shared.node = some size) (node : Node)
    (rest : List NodeStep) :
    Silent (next processors nnodes also) q (schedule.length + 1)
      { node := node, stage := .tasks fresh schedule t, rest := rest }
      { node := executeLocal (contextsOn processors nnodes q) t'.shared.node
        stage := .indices fresh size
        rest := rest } := by
  induction schedule generalizing t with
  | nil =>
    cases h
    refine .step ?_ (.refl _)
    simp only [next, if_pos hjoined, hsize]
  | cons lp schedule ih =>
    obtain ⟨t₁, ht₁, hrest⟩ := Option.bind_eq_some_iff.mp h
    refine .step ?_ (ih hrest)
    simp only [next, ht₁]

variable {ks : List Comm} {c : Configuration} {v : ℕ → Node} {fresh : ℕ → ℕ → RegReq}
  {rest : ℕ → List NodeStep}

theorem size_agrees (hm : Mapped processors nnodes) (h : Entering processors nnodes v) {q : ℕ}
    (hq : q < nnodes) {recv : ℕ → ℕ}
    (hrecv : ∀ i < 3 * nnodes, recv i = recvAt processors nnodes v q i) :
    maxReqSize (ownReqSize processors nnodes v q) (fun p => recv (3 * p + 2) / 16) nnodes =
      largest (ownReqSize processors nnodes v) nnodes := by
  rw [← reqSizeAt_eq hm h hq, reqSizeAt, afterLocal_bsp, h.nprocs q hq]
  exact maxReqSize_congr hrecv

def wordsOf (processors nnodes : ℕ) (v : ℕ → Node) (p : ℕ) : ℕ → ℕ :=
  sendIndex (ownReqSize processors nnodes v p) (afterLocal processors nnodes v p).proc.bsp

def wordsSeen (processors nnodes : ℕ) (v : ℕ → Node) (q p : ℕ) : ℕ → ℕ :=
  if p < nnodes ∧ true then wordsOf processors nnodes v p else wordsOf processors nnodes v q

theorem indices_at (hm : Mapped processors nnodes) (he : Entering processors nnodes v)
    (h : At Contribution.kind nnodes ks (fun q =>
      { node := afterLocal processors nnodes v q
        stage := .indices (fresh q) (ownReqSize processors nnodes v q)
        rest := rest q }) c) :
    ∃ recv : ℕ → ℕ → ℕ,
      (∀ q < nnodes, ∀ i < 3 * nnodes, recv q i = recvAt processors nnodes v q i) ∧
      ∃ c', Leads nnodes (next processors nnodes also) c c' ∧
        At Contribution.kind nnodes (ks ++ [.indices]) (fun q =>
          if 0 < largest (ownReqSize processors nnodes v) nnodes then
            { node := afterLocal processors nnodes v q
              stage := .registrations (fresh q) (largest (ownReqSize processors nnodes v) nnodes)
                (recv q)
              rest := rest q }
          else exchange processors nnodes q (recv q) (afterLocal processors nnodes v q)
            (rest q)) c' := by
  have hrecv : ∀ q < nnodes, ∀ i < 3 * nnodes,
      wordsSeen processors nnodes v q (i / 3) (3 * q + i % 3) = recvAt processors nnodes v q i := by
    intro q hq i hi
    have hdiv : i / 3 < nnodes := by omega
    simp only [wordsSeen, hdiv, and_self, if_true]
    rfl
  refine ⟨fun q i => wordsSeen processors nnodes v q (i / 3) (3 * q + i % 3), hrecv, ?_⟩
  refine exchange_at h (fun q _ => rfl) (fun _ _ => rfl) fun q hq => ?_
  have hn : (afterLocal processors nnodes v q).proc.bsp.nprocs = nnodes := by
    rw [afterLocal_bsp]
    exact he.nprocs q hq
  refine Option.bind_eq_some_iff.mpr
    ⟨wordsSeen processors nnodes v q, gather_eq hn _ _ fun p _ => rfl, ?_⟩
  simp only [hn, size_agrees hm he hq (hrecv q hq), Int.natCast_pos, Int.toNat_natCast]
  rfl

theorem registrations_at (hm : Mapped processors nnodes) (he : Entering processors nnodes v)
    (hv : ∀ q < nnodes, Placed processors nnodes q (v q)) {regs : ℕ → ContextReg}
    (hregs : syncMemoryreg processors nnodes fresh (regsOf processors nnodes v) = some regs)
    {recv : ℕ → ℕ → ℕ} (hpos : 0 < largest (ownReqSize processors nnodes v) nnodes)
    (h : At Contribution.kind nnodes ks (fun q =>
      { node := afterLocal processors nnodes v q
        stage := .registrations (fresh q) (largest (ownReqSize processors nnodes v) nnodes) (recv q)
        rest := rest q }) c) :
    ∃ k c', Leads nnodes (next processors nnodes also) c c' ∧
      At Contribution.kind nnodes (ks ++ [k]) (fun q =>
        exchange processors nnodes q (recv q) (registered processors nnodes v regs q)
          (rest q)) c' := by
  let size := largest (ownReqSize processors nnodes v) nnodes
  refine ⟨.registrations (size * icd processors nnodes * sizeofReg : ℕ),
    exchange_at h (fun q _ => rfl) (fun q _ => ?_) fun q hq => ?_⟩
  · rw [procsPerNode_eq hm]
    rfl
  have hn : (afterLocal processors nnodes v q).proc.bsp.nprocs = nnodes := by
    rw [afterLocal_bsp]
    exact (hv q hq).sized.nprocs
  obtain ⟨cs', hcs', hget⟩ := sync_processed hm he hregs hpos hq
  have hvs : ∀ p < nnodes, Contribution.toRegistrations
      (size * (taskMapper processors nnodes q).procsPerNode * sizeofReg : ℕ)
      (.registrations (size * (taskMapper processors nnodes p).procsPerNode * sizeofReg : ℕ)
        (localVs processors nnodes p (fresh p) size (afterLocal processors nnodes v p))) =
        some (sendRequests processors nnodes fresh (regsOf processors nnodes v) size p) := by
    intro p hp
    rw [procsPerNode_eq hm, procsPerNode_eq hm, Contribution.toRegistrations, if_pos rfl,
      localVs_eq hm (hv p hp).sized.nprocs]
  obtain ⟨send, hgather, hsend⟩ := gather_needed hn (fun _ => true)
    (localVs processors nnodes q (fresh q) size (afterLocal processors nnodes v q)) hvs
  refine Option.bind_eq_some_iff.mpr ⟨send, hgather, ?_⟩
  obtain ⟨cs, hcs, hsame⟩ := processReceived_eq hm hq (fun p hp => hsend p hp rfl)
    (hv q hq).localPid hcs'
  refine Option.bind_eq_some_iff.mpr ⟨cs, ?_, ?_⟩
  · rw [← hcs]
    congr 1
    funext lp
    exact executeLocal_reg _ _ _
  · have heq : registerAll (contextsOn processors nnodes q) cs (afterLocal processors nnodes v q) =
        registered processors nnodes v regs q :=
      (withRegs_eq (fun lp hlp => (hget lp hlp).trans (hsame lp hlp).1.symm) _).symm
    rw [heq]
    rfl

theorem entered_at (hm : Mapped processors nnodes) (he : Entering processors nnodes v)
    (hv : ∀ q < nnodes, Placed processors nnodes q (v q)) {regs : ℕ → ContextReg}
    (hregs : syncMemoryreg processors nnodes fresh (regsOf processors nnodes v) = some regs)
    (h : At Contribution.kind nnodes ks (fun q =>
      { node := afterLocal processors nnodes v q
        stage := .indices (fresh q) (ownReqSize processors nnodes v q)
        rest := rest q }) c) :
    ∃ recv : ℕ → ℕ → ℕ,
      (∀ q < nnodes, ∀ i < 3 * nnodes, recv q i = recvAt processors nnodes v q i) ∧
      ∃ ks' c', Leads nnodes (next processors nnodes also) c c' ∧
        At Contribution.kind nnodes ks' (fun q =>
          exchange processors nnodes q (recv q) (registered processors nnodes v regs q)
            (rest q)) c' := by
  obtain ⟨recv, hrecv, c₁, hc₁, h₁⟩ := indices_at also hm he h
  refine ⟨recv, hrecv, ?_⟩
  by_cases hpos : 0 < largest (ownReqSize processors nnodes v) nnodes
  · simp only [if_pos hpos] at h₁
    obtain ⟨k, c₂, hc₂, h₂⟩ := registrations_at also hm he hv hregs hpos h₁
    exact ⟨_, c₂, hc₁.trans hc₂, h₂⟩
  · simp only [if_neg hpos] at h₁
    refine ⟨_, c₁, hc₁, h₁.congr fun q hq => ?_⟩
    have hown : registered processors nnodes v (regsOf processors nnodes v) q =
        afterLocal processors nnodes v q := withRegs_own hm fun lp => executeLocal_reg _ _ lp
    rw [sync_skipped hm he hregs (by omega), hown]

theorem exchange_eq {q : ℕ} (hs : Placed processors nnodes q (v q)) {recv : ℕ → ℕ}
    (hrecv : ∀ i < 3 * nnodes, recv i = recvAt processors nnodes v q i) (regs : ℕ → ContextReg)
    (rest : List NodeStep) :
    exchange processors nnodes q recv (registered processors nnodes v regs q) rest =
      if exchangesAt processors nnodes v q then
        { node := (registered processors nnodes v regs q).onBsp (afterExpand processors nnodes v q)
          stage := if anyGetsAt processors nnodes v q then .requests else .deliveries
          rest := rest }
      else
        proceed processors nnodes q (finish (contextsOn processors nnodes q)
          ((registered processors nnodes v regs q).onBsp (afterExpand processors nnodes v q)))
            rest := by
  have hn : (afterLocal processors nnodes v q).proc.bsp.nprocs = nnodes := by
    rw [afterLocal_bsp]
    exact hs.sized.nprocs
  have hgets : (ownGets (afterLocal processors nnodes v q).proc.bsp || anyFlag recv nnodes 0) =
      anyGetsAt processors nnodes v q := by
    rw [anyFlag_congr hrecv, anyGetsAt, hn]
  have hexchanges : (anyFlag recv nnodes 1 || anyGetsAt processors nnodes v q) =
      exchangesAt processors nnodes v q := by
    rw [anyFlag_congr hrecv, exchangesAt, anyMessagesAt, hn]
  have hproc : (registered processors nnodes v regs q).proc =
      (afterLocal processors nnodes v q).proc := rfl
  have hreset : (syncReset (afterLocal processors nnodes v q).proc.bsp).nprocs = nnodes := hn
  have hexpand := syncExpand_congr hreset hrecv (anyGetsAt processors nnodes v q)
  simp only [exchange, hproc, hn, hgets, hexchanges, hexpand, afterExpand]
  split <;> rfl

section Tables

variable {regs : ℕ → ContextReg} (hv : ∀ q < nnodes, Placed processors nnodes q (v q))

include hv

theorem requests_at (hex : ∀ q < nnodes, exchangesAt processors nnodes v q = true)
    (hgets : ∀ q < nnodes, anyGetsAt processors nnodes v q = true)
    (h : At Contribution.kind nnodes ks (fun q =>
      { node := (registered processors nnodes v regs q).onBsp (afterExpand processors nnodes v q)
        stage := .requests
        rest := rest q }) c) :
    ∃ c', Leads nnodes (next processors nnodes also) c c' ∧
      At Contribution.kind nnodes (ks ++ [.requests]) (fun q =>
        { node :=
            (registered processors nnodes v regs q).onBsp (afterRequests processors nnodes v q)
          stage := .deliveries
          rest := rest q }) c' := by
  refine exchange_at h (fun q _ => rfl) (fun _ _ => rfl) fun q hq => ?_
  have hsized := afterExpand_sized processors (hv q hq).sized
  obtain ⟨send, hgather, hsend⟩ := gather_needed hsized.nprocs
    (fun p =>
      Interleaving.awaits (afterExpand processors nnodes v q).requestReceivedTable p || also q p)
    (afterExpand processors nnodes v q).requestTable
    fun p _ => (rfl : Contribution.toRequests
      (.requests (afterExpand processors nnodes v p).requestTable) = _)
  refine Option.bind_eq_some_iff.mpr ⟨send, hgather, ?_⟩
  have hcomm := Interleaving.comm_congr (fun p hp h0 =>
    hsend p (hsized.requests ▸ hp) (by simp [Interleaving.awaits, h0])) q
  have hrequests : requestsFrom send
      ((registered processors nnodes v regs q).onBsp (afterExpand processors nnodes v q)).proc q =
        afterRequests processors nnodes v q := by
    rw [afterRequests, if_pos (hex q hq), syncRequests, if_pos (hgets q hq)]
    simp only [requestsFrom, Node.onBsp, hcomm]
    rfl
  rw [hrequests]
  rfl

theorem deliveries_at (hex : ∀ q < nnodes, exchangesAt processors nnodes v q = true)
    (h : At Contribution.kind nnodes ks (fun q =>
      { node := (registered processors nnodes v regs q).onBsp (afterRequests processors nnodes v q)
        stage := .deliveries
        rest := rest q }) c) {w' : ℕ → Node}
          (hw' : ∀ q < nnodes, (syncNode processors nnodes v q).map
      (withRegs processors nnodes regs q) = some (w' q)) :
    ∃ c', Leads nnodes (next processors nnodes also) c c' ∧
      At Contribution.kind nnodes (ks ++ [.deliveries]) (fun q =>
        proceed processors nnodes q (w' q) (rest q)) c' := by
  refine exchange_at h (fun q _ => rfl) (fun _ _ => rfl) fun q hq => ?_
  have hsized := afterRequests_sized processors (hv q hq).sized
  obtain ⟨send, hgather, hsend⟩ := gather_needed hsized.nprocs
    (fun p => Interleaving.awaits (afterRequests processors nnodes v q).deliveryReceivedTable p ||
      also q p)
    (afterRequests processors nnodes v q).deliveryTable
    fun p _ => (rfl : Contribution.toDeliveries
      (.deliveries (afterRequests processors nnodes v p).deliveryTable) = _)
  refine Option.bind_eq_some_iff.mpr ⟨send, hgather, ?_⟩
  have hcomm := Interleaving.comm_congr (fun p hp h0 =>
    hsend p (hsized.deliveries ▸ hp) (by simp [Interleaving.awaits, h0])) q
  obtain ⟨node, hnode, heq⟩ := Option.map_eq_some_iff.mp (hw' q hq)
  obtain ⟨last, hlast, rfl⟩ := Option.map_eq_some_iff.mp hnode
  simp only [receiveAt, if_pos (hex q hq)] at hlast
  obtain ⟨r, hr, hsplit⟩ := Option.bind_eq_some_iff.mp hlast
  have hdeliver : deliverFrom send
      ((registered processors nnodes v regs q).onBsp (afterRequests processors nnodes v q)).proc q =
        some r := by
    rw [← hr]
    simp only [deliverFrom, Node.onBsp, hcomm, syncDeliver]
    rfl
  refine Option.bind_eq_some_iff.mpr ⟨r, hdeliver, ?_⟩
  refine Option.bind_eq_some_iff.mpr ⟨_, splitQueue_withRegs regs hsplit, ?_⟩
  rw [finish_withRegs, heq]
  rfl

theorem sync_at (hm : Mapped processors nnodes) (he : Entering processors nnodes v) {w' : ℕ → Node}
    (hs : bspSync processors nnodes v fresh = some w')
    (h : At Contribution.kind nnodes ks (fun q =>
      { node := afterLocal processors nnodes v q
        stage := .indices (fresh q) (ownReqSize processors nnodes v q)
        rest := rest q }) c) :
    ∃ ks' c', Leads nnodes (next processors nnodes also) c c' ∧
      At Contribution.kind nnodes ks' (fun q => proceed processors nnodes q (w' q) (rest q))
        c' := by
  obtain ⟨regs, hregs, hall⟩ := Option.bind_eq_some_iff.mp hs
  have hw' := (allBelow_eq_some hall).1
  obtain ⟨recv, hrecv, ks₁, c₁, hc₁, h₁⟩ := entered_at also hm he hv hregs h
  have h₂ := h₁.congr fun q hq => exchange_eq (hv q hq) (hrecv q hq) regs (rest q)
  have hgets := fun q (hq : q < nnodes) => gets_eq he hq
  have hexchanges : ∀ q < nnodes, exchangesAt processors nnodes v q =
      ((List.range nnodes).any (fun p => !deliveryTableEmpty (v p).proc.bsp.deliveryTable) ||
        (List.range nnodes).any fun p => ownGets (v p).proc.bsp) := fun q hq => by
    rw [exchangesAt, messages_eq he hq, hgets q hq]
  by_cases hex : ((List.range nnodes).any
    (fun p => !deliveryTableEmpty (v p).proc.bsp.deliveryTable) ||
      (List.range nnodes).any fun p => ownGets (v p).proc.bsp) = true
  · have hex' : ∀ q < nnodes, exchangesAt processors nnodes v q = true :=
      fun q hq => (hexchanges q hq).trans hex
    by_cases hany : ((List.range nnodes).any fun p => ownGets (v p).proc.bsp) = true
    · have hany' := fun q hq => (hgets q hq).trans hany
      obtain ⟨c₂, hc₂, h₃⟩ := requests_at also hv hex' hany' (h₂.congr fun q hq => by
        rw [if_pos (hex' q hq), if_pos (hany' q hq)])
      obtain ⟨c₃, hc₃, h₄⟩ := deliveries_at also hv hex' h₃ hw'
      exact ⟨_, c₃, (hc₁.trans hc₂).trans hc₃, h₄⟩
    · have hany' : ∀ q < nnodes, ¬ anyGetsAt processors nnodes v q = true :=
        fun q hq => by rw [hgets q hq]; exact hany
      obtain ⟨c₂, hc₂, h₃⟩ := deliveries_at also hv hex' (h₂.congr fun q hq => by
        rw [if_pos (hex' q hq), if_neg (hany' q hq), afterRequests, if_pos (hex' q hq),
          syncRequests, if_neg (hany' q hq)]) hw'
      exact ⟨_, c₂, hc₁.trans hc₂, h₃⟩
  · refine ⟨_, c₁, hc₁, h₂.congr fun q hq => ?_⟩
    have hex' : ¬ exchangesAt processors nnodes v q = true := by
      rw [hexchanges q hq]
      exact hex
    have hlast := hw' q hq
    simp only [syncNode, receiveAt, afterRequests, if_neg hex', Option.map_some, Option.some.injEq]
      at hlast
    rw [if_neg hex', ← hlast, ← finish_withRegs]
    rfl

theorem sync_placed (hm : Mapped processors nnodes) {w' : ℕ → Node}
    (hs : bspSync processors nnodes v fresh = some w') :
    ∀ q < nnodes, Placed processors nnodes q (w' q) := by
  obtain ⟨regs, hregs, hall⟩ := Option.bind_eq_some_iff.mp hs
  intro q hq
  obtain ⟨node, hnode, hw'⟩ := Option.map_eq_some_iff.mp ((allBelow_eq_some hall).1 q hq)
  rw [← hw']
  have hsized : Interleaving.Sized nnodes node.proc.bsp := syncNode_sized (hv q hq).sized hnode
  refine ⟨hsized, fun lp hlp => ?_⟩
  simp only [withRegs, if_pos hlp]
  rw [getContext_eq hm _ hlp]
  rcases syncMemoryreg_cases hm hregs with ⟨-, rfl⟩ | ⟨size, -, -, hprocessed⟩
  · rw [ContextRegister.regs_local hm hlp]
    exact (hv q hq).localPid lp hlp
  · obtain ⟨cs', hcs', hlocal⟩ := hprocessed q hq
    obtain ⟨cs, -, hsame⟩ := processReceived_eq hm hq (fun _ _ => rfl) (hv q hq).localPid hcs'
    rw [hlocal lp hlp]
    exact (hsame lp hlp).2

end Tables

theorem sync_entering (hm : Mapped processors nnodes)
    (hv : ∀ q < nnodes, Placed processors nnodes q (v q))
    (hfew : ∀ q < nnodes, ∀ lp < contextsOn processors nnodes q, queued v q lp < 2 ^ 27)
    {w' : ℕ → Node} (hs : bspSync processors nnodes v fresh = some w') :
    Entering processors nnodes v := by
  obtain ⟨regs, hregs, -⟩ := Option.bind_eq_some_iff.mp hs
  refine ⟨fun q hq => (hv q hq).sized.nprocs, fun q hq lp hlp => ⟨?_, hfew q hq lp hlp⟩⟩
  have hsize := sync_sizes hm hregs hq
  rw [← localReqSize_eq hm] at hsize
  obtain ⟨size, hrun, -⟩ := Option.map_eq_some_iff.mp hsize
  have hlen := commonSize_run hrun
  have hsame := (hlen lp hlp).symm.trans (hlen 0 (Nat.zero_lt_of_lt hlp))
  exact Option.some.inj hsame

variable (processors nnodes) in
/-- Contexts that keep to memory of their own and queue fewer than 2^27 registrations. -/
def Orderly (steps : ℕ → NodeStep) (w : ℕ → Node) : Prop :=
  ∀ q < nnodes,
    (∃ r, Readable r (w q) ∧ ∀ lp, ∀ op ∈ spawn (contextsOn processors nnodes q) (steps q).ops lp,
      Confined processors nnodes q r (w q) lp op) ∧
    ∀ node, runTasks processors nnodes q (steps q) (w q) = some node →
      ∀ lp < contextsOn processors nnodes q, (node.contexts lp).reg.regRequests.length < 2 ^ 27

variable {w w' : ℕ → Node} {steps : ℕ → NodeStep}

theorem superstep_at (hm : Mapped processors nnodes)
    (hw : ∀ q < nnodes, Placed processors nnodes q (w q)) (hok : Orderly processors nnodes steps w)
    (hs : superstep processors nnodes steps w = some w')
    (h : At Contribution.kind nnodes ks
      (fun q => proceed processors nnodes q (w q) (steps q :: rest q)) c) :
    (∃ ks' c', Leads nnodes (next processors nnodes also) c c' ∧
      At Contribution.kind nnodes ks' (fun q => proceed processors nnodes q (w' q) (rest q)) c') ∧
    ∀ q < nnodes, Placed processors nnodes q (w' q) := by
  obtain ⟨v, hv, hsync⟩ := Option.bind_eq_some_iff.mp hs
  have hrun := (allBelow_eq_some hv).1
  have hplaced : ∀ q < nnodes, Placed processors nnodes q (v q) :=
    fun q hq => runTasks_placed (hw q hq) (hrun q hq)
  have he := sync_entering hm hplaced (fun q hq => (hok q hq).2 _ (hrun q hq)) hsync
  refine ⟨?_, sync_placed hplaced hm hsync⟩
  obtain ⟨regs, hregs, -⟩ := Option.bind_eq_some_iff.mp hsync
  have hsilent : ∀ q < nnodes, Silent (next processors nnodes also) q
      ((steps q).schedule.length + 1) (proceed processors nnodes q (w q) (steps q :: rest q))
      { node := afterLocal processors nnodes v q
        stage := .indices (steps q).fresh (ownReqSize processors nnodes v q)
        rest := rest q } := by
    intro q hq
    obtain ⟨t, ht, hjoined⟩ := Option.bind_eq_some_iff.mp (hrun q hq)
    obtain ⟨hjoin, heq⟩ := Option.ite_none_right_eq_some.mp hjoined
    have hnode : t.shared.node = v q := Option.some.inj heq
    have hsize := (localReqSize_eq hm).trans (sync_sizes hm hregs hq)
    rw [afterLocal, ← hnode]
    rw [← hnode] at hsize
    exact tasks_silent also ht hjoin hsize _ _
  obtain ⟨c₁, hc₁, h₁⟩ := silent_at h hsilent
  obtain ⟨ks', c', hc', h'⟩ := sync_at also hplaced hm he hsync h₁
  exact ⟨ks', c', hc₁.trans hc', h'⟩

theorem program_at (hm : Mapped processors nnodes) {program : List (ℕ → NodeStep)}
    (hw : ∀ q < nnodes, Placed processors nnodes q (w q))
    (hok : Along (superstep processors nnodes) (Orderly processors nnodes) program w)
    (hs : run (superstep processors nnodes) program w = some w')
    (h : At Contribution.kind nnodes ks (fun q =>
      proceed processors nnodes q (w q) (program.map fun steps => steps q)) c) :
    ∃ ks' c', Leads nnodes (next processors nnodes also) c c' ∧
      At Contribution.kind nnodes ks' (fun q => proceed processors nnodes q (w' q) []) c' := by
  induction program generalizing ks w c with
  | nil =>
    cases hs
    exact ⟨ks, c, ⟨[], rfl⟩, h⟩
  | cons steps program ih =>
    obtain ⟨w₁, hw₁, hrest⟩ := Option.bind_eq_some_iff.mp hs
    obtain ⟨⟨ks₁, c₁, hc₁, h₁⟩, hplaced⟩ := superstep_at also hm hw hok.1 hw₁ h
    obtain ⟨ks', c', hc', h'⟩ := ih hplaced (hok.2 w₁ hw₁) hrest h₁
    exact ⟨ks', c', hc₁.trans hc', h'⟩

end Phases

section Serial

variable {processors nnodes : ℕ} {q : ℕ}

theorem idle_thread {schedule : List ℕ} {lp : ℕ} {t t' : Threads Shared Action ContextOp}
    (h : run (fireThread apply (code processors nnodes q)) schedule t = some t')
    (hidle : t.rest lp = [] ∧ t.calls lp = []) : t'.rest lp = [] ∧ t'.calls lp = [] := by
  refine run_preserves (I := fun t => t.rest lp = [] ∧ t.calls lp = []) (fun l _ t t' hI hs => ?_) h
    hidle
  rcases fire_cases hs with ⟨c, cs, -, hcalls, -, rfl⟩ | ⟨i, is, s, hrest, -, -, -, rfl⟩
  · have hne : lp ≠ l := by
      rintro rfl
      rw [hI.2] at hcalls
      cases hcalls
    simpa [Function.update_of_ne hne] using hI
  · have hne : lp ≠ l := by
      rintro rfl
      rw [hI.1] at hrest
      cases hrest
    simpa [Function.update_of_ne hne] using hI

theorem joined_finished {schedule : List ℕ} {n : ℕ} {node : Node} {pointer : ℕ → ℕ}
    {ops : ℕ → List ContextOp} {t : Threads Shared Action ContextOp}
    (h : run (fireThread apply (code processors nnodes q)) schedule
      (tasks node pointer (spawn n ops)) = some t)
    (hjoined : joined n t = true) : Finished t := by
  intro lp
  by_cases hlp : lp < n
  · have hthread := List.all_eq_true.mp hjoined lp (List.mem_range.mpr hlp)
    rw [Bool.and_eq_true, List.isEmpty_iff, List.isEmpty_iff] at hthread
    exact hthread
  · exact idle_thread h ⟨rfl, if_neg hlp⟩

theorem runTasks_serial {r : Regions} {step : NodeStep} {node node' : Node}
    (hread : Readable r node)
    (hops : ∀ lp, ∀ op ∈ spawn (contextsOn processors nnodes q) step.ops lp,
      Confined processors nnodes q r node lp op)
    (h : runTasks processors nnodes q step node = some node') :
    ∃ order : List (ℕ × ContextOp),
      (∀ lp, ofThread lp order = spawn (contextsOn processors nnodes q) step.ops lp) ∧
        run (exec processors nnodes q) order node = some node' := by
  obtain ⟨t, ht, hjoined⟩ := Option.bind_eq_some_iff.mp h
  obtain ⟨hjoin, heq⟩ := Option.ite_none_right_eq_some.mp hjoined
  cases heq
  obtain ⟨order, horder, hatomic⟩ := serializable (contexts_disciplined hread)
    (start_unchanged node step.pointer) hops ht (joined_finished ht hjoin)
  exact ⟨order, horder, run_exec hatomic⟩

def serially (processors nnodes : ℕ) (e : (ℕ → NodeStep) × (ℕ → List (ℕ × ContextOp))) :
    (ℕ → Node) → Option (ℕ → Node) :=
  ContextProgram.superstep processors nnodes (fun q => (e.1 q).fresh) e.2

def OrderOf (processors nnodes : ℕ) (steps : ℕ → NodeStep) (order : ℕ → List (ℕ × ContextOp)) :
    Prop :=
  ∀ q < nnodes, ∀ lp,
    ofThread lp (order q) = spawn (contextsOn processors nnodes q) (steps q).ops lp

variable {w w' : ℕ → Node}

theorem superstep_serial {steps : ℕ → NodeStep} (hok : Orderly processors nnodes steps w)
    (hs : superstep processors nnodes steps w = some w') :
    ∃ order, OrderOf processors nnodes steps order ∧
      serially processors nnodes (steps, order) w = some w' := by
  obtain ⟨v, hv, hsync⟩ := Option.bind_eq_some_iff.mp hs
  have hnode : ∀ q : ℕ, ∃ order : List (ℕ × ContextOp), q < nnodes →
      (∀ lp, ofThread lp order = spawn (contextsOn processors nnodes q) (steps q).ops lp) ∧
        run (exec processors nnodes q) order (w q) =
          runTasks processors nnodes q (steps q) (w q) := by
    intro q
    by_cases hq : q < nnodes
    · obtain ⟨⟨r, hread, hops⟩, -⟩ := hok q hq
      have hrun := (allBelow_eq_some hv).1 q hq
      obtain ⟨order, horder, hexec⟩ := runTasks_serial hread hops hrun
      exact ⟨order, fun _ => ⟨horder, hexec.trans hrun.symm⟩⟩
    · exact ⟨[], fun h => absurd h hq⟩
  choose order horder using hnode
  refine ⟨order, fun q hq => (horder q hq).1, ?_⟩
  rw [serially, ContextProgram.superstep, ContextProgram.localPhase,
    allBelow_congr fun q hq => (horder q hq).2, hv]
  exact hsync

theorem program_serial {program : List (ℕ → NodeStep)}
    (hok : Along (superstep processors nnodes) (Orderly processors nnodes) program w)
    (hs : run (superstep processors nnodes) program w = some w') :
    ∃ orders, List.Forall₂ (OrderOf processors nnodes) program orders ∧
      run (serially processors nnodes) (program.zip orders) w = some w' := by
  induction program generalizing w with
  | nil => exact ⟨[], .nil, hs⟩
  | cons steps program ih =>
    obtain ⟨w₁, hw₁, hrest⟩ := Option.bind_eq_some_iff.mp hs
    obtain ⟨order, horder, hserial⟩ := superstep_serial hok.1 hw₁
    obtain ⟨orders, horders, hrun⟩ := ih (hok.2 w₁ hw₁) hrest
    exact ⟨order :: orders,
      .cons horder horders, by rw [List.zip_cons_cons, run, hserial]; exact hrun⟩

end Serial

section Example

def registering (q : ℕ) : NodeStep :=
  { ops := fun _ => [.pushReg 64 8]
    schedule := if q = 0 then [0, 1, 1, 1, 1, 0, 0, 0] else [0, 0, 0, 0]
    pointer := fun _ => 0
    fresh := fun _ => ⟨0, 0, 0, false⟩ }

def exchanging (q : ℕ) : NodeStep :=
  { ops := fun lp =>
      if q = 0 then if lp = 0 then [.put 2 0 64 0 4] else [.send 2 0 8 4] else [.get 0 64 0 16 4]
    schedule := if q = 0 then [0, 1, 1, 1, 1, 1, 1, 1, 0, 0, 0, 0] else [0, 0, 0, 0]
    pointer := fun _ => 0
    fresh := fun _ => ⟨0, 0, 0, false⟩ }

def sampleNodes (q : ℕ) : Node := initNode 3 2 sampleStart q

def readOnly : Regions :=
  { reads := fun _ _ => True
    writes := fun _ _ => False
    apart := fun _ h => h.elim }

theorem readOnly_readable (node : Node) : Readable readOnly node := by
  intro lp
  dsimp only
  intro k _ _
  split
  · trivial
  · exact ⟨fun _ _ _ _ => .inl trivial, fun _ _ _ _ => .inl trivial⟩

def fewRequests (steps : ℕ → NodeStep) (w : ℕ → Node) : Bool :=
  (List.range 2).all fun q => (runTasks 3 2 q (steps q) (w q)).all fun node =>
    (List.range (contextsOn 3 2 q)).all fun lp => (node.contexts lp).reg.regRequests.length < 2 ^ 27

theorem orderly_of_few {steps : ℕ → NodeStep} {w : ℕ → Node}
    (hops : ∀ q lp, ∀ op ∈ (steps q).ops lp, Confined 3 2 q readOnly (w q) lp op)
    (hfew : fewRequests steps w = true) : Orderly 3 2 steps w := by
  refine fun q hq => ⟨⟨readOnly, readOnly_readable _, fun lp op hop => ?_⟩,
    fun node hnode lp hlp => ?_⟩
  · rw [spawn] at hop
    split at hop
    · exact hops q lp op hop
    · cases hop
  · have hq' := List.all_eq_true.mp hfew q (List.mem_range.mpr hq)
    rw [hnode, Option.all_some] at hq'
    exact of_decide_eq_true (List.all_eq_true.mp hq' lp (List.mem_range.mpr hlp))

end Example

end BspOnMpi.ContextInterleaving
