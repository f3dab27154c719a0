import BspOnMpi.ContextImpl

/-! What the contexts of a node queue. Between two synchronisations a node is a log of the calls
of its contexts: its tables hold what they address to other nodes, the local queues of the
contexts hold the rest. -/

namespace BspOnMpi.ContextLog
open Lib Exptable Slots Delivtable DelivPush Memreg Reqtable Machine Calls Mapper ContextMemreg
  LocalDelivery Contexts
open Bspx hiding exec

/-- A call of a context, with its target as a global pid; an unbuffered message comes
with the addresses and with the bytes that are copied if it leaves the node. -/
inductive ContextCall
  | put (pid dst : ℕ) (bytes : List UInt8)
  | get (pid src : ℕ) (offset : ℤ) (dst size : ℕ)
  | send (pid : ℕ) (m : Message)
  | hpsend (pid tag payload nbytes : ℕ) (m : Message)
  | setTagsize (size : ℕ)

def prefixed (lp : ℕ) (m : Message) : Message := ⟨m.tag, intBytes lp ++ m.payload⟩

section Log

variable (processors nnodes : ℕ)

def nodeOf (pid : ℕ) : ℕ := pid / icd processors nnodes

def localOf (pid : ℕ) : ℕ := pid % icd processors nnodes

/-- What node `rank` queues in its tables for a call of one of its contexts. -/
def nodeCall (rank : ℕ) : ContextCall → Option Call
  | .put pid dst bytes =>
    if nodeOf processors nnodes pid = rank then none
    else some (.put (nodeOf processors nnodes pid) dst bytes)
  | .get pid src offset dst size =>
    if nodeOf processors nnodes pid = rank then none
    else some (.get (nodeOf processors nnodes pid) src offset dst size)
  | .send pid m =>
    if nodeOf processors nnodes pid = rank then none
    else some (.send (nodeOf processors nnodes pid) (prefixed (localOf processors nnodes pid) m))
  | .hpsend pid _ _ _ m =>
    if nodeOf processors nnodes pid = rank then none
    else some (.send pid (prefixed (localOf processors nnodes pid) m))
  | .setTagsize size => some (.setTagsize size)

def nodeCalls (rank : ℕ) (log : List (ℕ × ContextCall)) : List Call :=
  log.filterMap fun e => nodeCall processors nnodes rank e.2

def localGet (rank lp : ℕ) (e : ℕ × ContextCall) : Option LocalMemoryDelivery :=
  match e.2 with
  | .get pid src offset dst size =>
    if nodeOf processors nnodes pid = rank ∧ e.1 = lp then some ⟨addOffset src offset, dst, size⟩
    else none
  | _ => none

def localPut (rank lp : ℕ) (e : ℕ × ContextCall) : Option (ℕ × List UInt8) :=
  match e.2 with
  | .put pid dst bytes =>
    if nodeOf processors nnodes pid = rank ∧ e.1 = lp then some (dst, bytes) else none
  | _ => none

def localSend (rank lp : ℕ) (e : ℕ × ContextCall) : Option LocalMessage :=
  match e.2 with
  | .send pid m =>
    if nodeOf processors nnodes pid = rank ∧ localOf processors nnodes pid = lp then
      some (.copied m)
    else none
  | .hpsend pid tag payload nbytes _ =>
    if nodeOf processors nnodes pid = rank ∧ localOf processors nnodes pid = lp then
      some (.pointed (.memory tag) (.memory payload) nbytes)
    else none
  | _ => none

/-- Tables and queues of node `rank` hold exactly the calls of the log. -/
structure NodeLogged (rank tagSize : ℕ) (log : List (ℕ × ContextCall)) (node : Node) : Prop where
  proc : Logged ⟨nnodes, rank, [], tagSize⟩ (nodeCalls processors nnodes rank log) node.proc
  queues : ∀ lp < (taskMapper processors nnodes rank).procsThisNode, ∃ moved,
    Pending (node.contexts lp).localDeliveries
      (log.filterMap (localGet processors nnodes rank lp))
      (log.filterMap (localPut processors nnodes rank lp))
      (log.filterMap (localSend processors nnodes rank lp)) moved

def emit (rank : ℕ) (e : ℕ × ContextOp) (node : Node) : List (ℕ × ContextCall) :=
  let p := node.proc
  let c := node.contexts e.1
  let message := fun tag payload nbytes =>
    Message.mk (load p.mem tag p.bsp.messageQueue.sendTagSize) (load p.mem payload nbytes)
  match e.2 with
  | .put pid src dst offset nbytes => (findBase c pid dst).toList.map fun base =>
      (e.1, .put pid (addOffset base offset) (load p.mem src nbytes))
  | .hpput pid src dst offset nbytes =>
    if nodeOf processors nnodes pid = rank then []
    else (findBase c pid dst).toList.map fun base =>
      (e.1, .put pid (addOffset base offset) (load p.mem src nbytes))
  | .get pid src offset dst nbytes => (findBase c pid src).toList.map fun base =>
      (e.1, .get pid base offset dst nbytes)
  | .hpget pid src offset dst nbytes =>
    if nodeOf processors nnodes pid = rank then []
    else (findBase c pid src).toList.map fun base => (e.1, .get pid base offset dst nbytes)
  | .send pid tag payload nbytes => [(e.1, .send pid (message tag payload nbytes))]
  | .hpsend pid tag payload nbytes =>
    [(e.1, .hpsend pid tag payload nbytes (message tag payload nbytes))]
  | .setTagsize tagNbytes => [(e.1, .setTagsize (toUInt32 tagNbytes))]
  | _ => []

def logOf (rank : ℕ) (ops : List (ℕ × ContextOp)) (node : Node) : List (ℕ × ContextCall) :=
  trace (exec processors nnodes rank) (emit processors nnodes rank) ops node

/-- The operations within the interface: an existing context and target, a registered
base, sizes and offsets below 2^31, a legal registration, a column of the table. -/
def Admitted (rank : ℕ) (e : ℕ × ContextOp) (node : Node) : Prop :=
  let p := node.proc
  let c := node.contexts e.1
  e.1 < (taskMapper processors nnodes rank).procsThisNode ∧
  match e.2 with
  | .pushReg ident nbytes => bspPushReg c.reg ident nbytes ≠ none
  | .popReg ident => bspPopReg c.reg ident ≠ none
  | .put pid _ dst _ nbytes | .hpput pid _ dst _ nbytes =>
    pid < processors ∧ nbytes < 2 ^ 31 ∧ findBase c pid dst ≠ none
  | .get pid src offset _ nbytes | .hpget pid src offset _ nbytes =>
    pid < processors ∧ nbytes < 2 ^ 31 ∧ -2 ^ 31 ≤ offset ∧ offset < 2 ^ 31 ∧
      findBase c pid src ≠ none
  | .send pid _ _ nbytes =>
    pid < processors ∧ nbytes + p.bsp.messageQueue.sendTagSize + 4 < 2 ^ 31
  | .hpsend pid _ _ nbytes =>
    pid < processors ∧ nbytes + p.bsp.messageQueue.sendTagSize + 4 < 2 ^ 31 ∧
      (nodeOf processors nnodes pid = rank ∨ pid < nnodes)
  | .move _ nbytes =>
    0 < c.localDeliveries.bsmpQsize → nbytes ≤ c.localDeliveries.bsmpTopSize
  | _ => True

instance (rank : ℕ) (e : ℕ × ContextOp) (node : Node) :
    Decidable (Admitted processors nnodes rank e node) :=
  match e with
  | (_, .pushReg ..) | (_, .popReg _) | (_, .put ..) | (_, .hpput ..) | (_, .get ..) |
    (_, .hpget ..)
  | (_, .send ..) | (_, .hpsend ..) | (_, .setTagsize _) | (_, .getTag _) | (_, .move ..)
  | (_, .hpmove) | (_, .compute _) => inferInstanceAs (Decidable (_ ∧ _))

end Log

section Exec

variable {processors nnodes rank tagSize : ℕ} {log : List (ℕ × ContextCall)} {node : Node}

theorem nodeCalls_append (e : ℕ × ContextCall) : nodeCalls processors nnodes rank (log ++ [e]) =
    nodeCalls processors nnodes rank log ++ (nodeCall processors nnodes rank e.2).toList := by
  rw [nodeCalls, List.filterMap_append, nodeCalls]
  cases h : nodeCall processors nnodes rank e.2 <;> simp [h]

theorem filterMap_append_toList {α β : Type} (f : α → Option β) (xs : List α) (x : α) :
    (xs ++ [x]).filterMap f = xs.filterMap f ++ (f x).toList := by
  rw [List.filterMap_append]
  cases h : f x <;> simp [h]

theorem nodeLogged_remote (h : NodeLogged processors nnodes rank tagSize log node)
    {e : ℕ × ContextCall} {c : Call} (hc : nodeCall processors nnodes rank e.2 = some c)
    (hget : ∀ lp, localGet processors nnodes rank lp e = none)
    (hput : ∀ lp, localPut processors nnodes rank lp e = none)
    (hsend : ∀ lp, localSend processors nnodes rank lp e = none) {bsp : BSPObject}
    (hp : Logged ⟨nnodes, rank, [], tagSize⟩ (nodeCalls processors nnodes rank log ++ [c])
      { node.proc with bsp := bsp }) :
    NodeLogged processors nnodes rank tagSize (log ++ [e]) (node.onBsp bsp) := by
  refine ⟨?_, fun lp hlp => ?_⟩
  · rw [nodeCalls_append, hc]
    exact hp
  · obtain ⟨moved, hq⟩ := h.queues lp hlp
    refine ⟨moved, ?_⟩
    simp only [filterMap_append_toList, hget, hput, hsend, Option.toList_none, List.append_nil]
    exact hq

theorem nodeLogged_local (h : NodeLogged processors nnodes rank tagSize log node)
    {e : ℕ × ContextCall} (hc : nodeCall processors nnodes rank e.2 = none) {lp : ℕ}
    {f : LocalDeliveryQueue → LocalDeliveryQueue}
    (hf : ∀ q gets puts sent moved, Pending q gets puts sent moved →
      Pending (f q) (gets ++ (localGet processors nnodes rank lp e).toList)
        (puts ++ (localPut processors nnodes rank lp e).toList)
        (sent ++ (localSend processors nnodes rank lp e).toList) moved)
    (hother : ∀ l, l ≠ lp → localGet processors nnodes rank l e = none ∧
      localPut processors nnodes rank l e = none ∧ localSend processors nnodes rank l e = none) :
    NodeLogged processors nnodes rank tagSize (log ++ [e]) (node.onQueue lp f) := by
  refine ⟨?_, fun l hl => ?_⟩
  · rw [nodeCalls_append, hc, Option.toList_none, List.append_nil]
    exact h.proc
  · obtain ⟨moved, hq⟩ := h.queues l hl
    refine ⟨moved, ?_⟩
    simp only [filterMap_append_toList]
    by_cases hl : l = lp
    · subst hl
      simp only [Node.onQueue, Function.update_self]
      exact hf _ _ _ _ _ hq
    · obtain ⟨h1, h2, h3⟩ := hother l hl
      simp only [Node.onQueue, Function.update_of_ne hl, h1, h2, h3, Option.toList_none,
        List.append_nil]
      exact hq

theorem nodeLogged_mem (h : NodeLogged processors nnodes rank tagSize log node) (mem : Mem) :
    NodeLogged processors nnodes rank tagSize log (node.onMem mem) :=
  ⟨logged_queue h.proc mem h.proc.queue rfl, h.queues⟩

theorem nodeLogged_reg (h : NodeLogged processors nnodes rank tagSize log node) (lp : ℕ)
    (reg : ContextReg) : NodeLogged processors nnodes rank tagSize log (node.onReg lp reg) := by
  refine ⟨h.proc, fun l hl => ?_⟩
  obtain ⟨moved, hq⟩ := h.queues l hl
  refine ⟨moved, ?_⟩
  by_cases hl : l = lp
  · subst hl
    simp only [Node.onReg, Function.update_self]
    exact hq
  · simp only [Node.onReg, Function.update_of_ne hl]
    exact hq

theorem nodeLogged_moved (h : NodeLogged processors nnodes rank tagSize log node) {lp : ℕ}
    {q : LocalDeliveryQueue} (hmove : ∀ gets puts sent moved,
      Pending (node.contexts lp).localDeliveries gets puts sent moved →
        ∃ moved', Pending q gets puts sent moved') :
    NodeLogged processors nnodes rank tagSize log (node.onQueue lp fun _ => q) := by
  refine ⟨h.proc, fun l hl => ?_⟩
  obtain ⟨moved, hq⟩ := h.queues l hl
  by_cases hl : l = lp
  · subst hl
    simp only [Node.onQueue, Function.update_self]
    exact hmove _ _ _ _ hq
  · simp only [Node.onQueue, Function.update_of_ne hl]
    exact ⟨moved, hq⟩

theorem advance_pending {q : LocalDeliveryQueue} (hpos : 0 < q.bsmpQsize)
    {gets : List LocalMemoryDelivery} {puts : List (ℕ × List UInt8)}
    {sent moved : List LocalMessage}
    (hq : Pending q gets puts sent moved) :
    ∃ moved', Pending q.bsmpAdvance gets puts sent moved' := by
  have hsize : q.bsmpQsize = moved.length := mailbox_qsize hq.moved
  cases moved with
  | nil =>
    rw [hsize] at hpos
    exact absurd hpos (Nat.lt_irrefl 0)
  | cons m moved => exact ⟨moved, pending_advance hq⟩

variable (hm : Mapped processors nnodes)

include hm

theorem mapper_node (rank : ℕ) {pid : ℕ} (hpid : pid < processors) :
    (taskMapper processors nnodes rank).globalToNode pid = nodeOf processors nnodes pid :=
  globalToNode_eq hm rank hpid

theorem mapper_local (rank : ℕ) {pid : ℕ} (hpid : pid < processors) :
    (taskMapper processors nnodes rank).globalToLocal pid = localOf processors nnodes pid :=
  globalToLocal_eq hm rank hpid

theorem remotePut_logged (h : NodeLogged processors nnodes rank tagSize log node) {pid : ℕ}
    (hpid : pid < processors) (hrank : nodeOf processors nnodes pid ≠ rank) (lp dst src : ℕ)
    {nbytes : ℕ} (hsize : nbytes < 2 ^ 31) :
    NodeLogged processors nnodes rank tagSize
      (log ++ [(lp, .put pid dst (load node.proc.mem src nbytes))])
      (node.onBsp (remotePut node.proc (nodeOf processors nnodes pid) dst
        (load node.proc.mem src nbytes) nbytes)) := by
  let call : ContextCall := .put pid dst (load node.proc.mem src nbytes)
  have hcall : nodeCall processors nnodes rank call =
      some (.put (nodeOf processors nnodes pid) dst (load node.proc.mem src nbytes)) := if_neg hrank
  have hput : ∀ l, localPut processors nnodes rank l (lp, call) = none :=
    fun l => if_neg fun hc => hrank hc.1
  refine nodeLogged_remote h hcall (fun _ => rfl) hput (fun _ => rfl) ?_
  refine logged_pushPut h.proc (node_lt hm hpid) ?_ rfl
  rw [load_length]
  exact toUInt32_eq hsize

theorem remoteGet_logged (h : NodeLogged processors nnodes rank tagSize log node) {pid : ℕ}
    (hpid : pid < processors) (hrank : nodeOf processors nnodes pid ≠ rank) (lp src dst : ℕ)
    {offset : ℤ} {nbytes : ℕ} (hsize : nbytes < 2 ^ 31) (hlo : -2 ^ 31 ≤ offset)
      (hhi : offset < 2 ^ 31) :
    NodeLogged processors nnodes rank tagSize (log ++ [(lp, .get pid src offset dst nbytes)])
      (node.onBsp (remoteGet node.proc (nodeOf processors nnodes pid) src offset dst nbytes)) := by
  let call : ContextCall := .get pid src offset dst nbytes
  have hcall : nodeCall processors nnodes rank call =
      some (.get (nodeOf processors nnodes pid) src offset dst nbytes) := if_neg hrank
  have hget : ∀ l, localGet processors nnodes rank l (lp, call) = none :=
    fun l => if_neg fun hc => hrank hc.1
  refine nodeLogged_remote h hcall hget (fun _ => rfl) (fun _ => rfl) ?_
  rw [remoteGet, toUInt32_eq hsize, toInt32_eq hlo hhi]
  exact logged_pushGet h.proc (node_lt hm hpid) src offset dst nbytes

omit hm in
theorem remoteSend_logged {x : Context} {cs : List Call} {p : Proc} (h : Logged x cs p) {column : ℕ}
    (hc : column < x.n) (lp : ℕ) {m : Message}
    (htag : m.tag.length = p.bsp.messageQueue.sendTagSize)
    (hsize : m.payload.length + m.tag.length + 4 < 2 ^ 31) :
    ∃ bsp, remoteSend p column lp m.tag m.payload m.payload.length = some bsp ∧
      Logged x (cs ++ [.send column (prefixed lp m)]) { p with bsp := bsp } := by
  have hlt : column < p.bsp.deliveryTable.nprocs := by rw [h.deliv_nprocs]; exact hc
  have h1 : toUInt32 m.payload.length = m.payload.length := toUInt32_eq (by omega)
  have h2 : toUInt32 (m.payload.length + 4) = m.payload.length + 4 := toUInt32_eq (by omega)
  have h3 : toUInt32 (m.payload.length + m.tag.length + 4) = m.payload.length + m.tag.length + 4 :=
    toUInt32_eq hsize
  let element : DelivElement :=
    { size := m.payload.length + m.tag.length + 4
      next := p.stack
      info := .send (m.payload.length + 4) }
  let r := deliveryTablePush p.bsp.deliveryTable column element .send
  let d₁ := storeBytes r.1.data (8 * r.2 + m.tag.length) (intBytes lp)
  let d₂ := storeBytes d₁ (8 * r.2) m.tag
  let d₃ := storeBytes d₂ (8 * r.2 + 4 + m.tag.length) m.payload
  have hlen : element.size = (m.tag ++ (intBytes lp ++ m.payload)).length := by
    simp [element]
    omega
  have hslots : noSlots element.size 8 = (element.size + 7) / 8 := rfl
  have hout : ∀ i, i < r.2 ∨ r.2 + noSlots element.size 8 ≤ i → d₃ i = r.1.data i := by
    intro i hi
    have hel : element.size = m.payload.length + m.tag.length + 4 := rfl
    show storeBytes (storeBytes (storeBytes r.1.data (8 * r.2 + m.tag.length) (intBytes lp))
      (8 * r.2)
      m.tag) (8 * r.2 + 4 + m.tag.length) m.payload i = r.1.data i
    rw [storeBytes_outside _ _ (by omega), storeBytes_outside _ _ (by omega),
      storeBytes_outside _ _ (by rw [intBytes_length]; omega)]
  have hload : loadBytes d₃ (8 * r.2) (m.tag ++ (intBytes lp ++ m.payload)).length =
      m.tag ++ (intBytes lp ++ m.payload) := by
    have hbytes₁ : getByte d₁ = store (getByte r.1.data) (8 * r.2 + m.tag.length) (intBytes lp) :=
      funext fun i => getByte_storeBytes ..
    have hbytes₂ : getByte d₂ = store (getByte d₁) (8 * r.2) m.tag :=
      funext fun i => getByte_storeBytes ..
    have hbytes₃ : getByte d₃ = store (getByte d₂) (8 * r.2 + 4 + m.tag.length) m.payload :=
      funext fun i => getByte_storeBytes ..
    have hpay : 8 * r.2 + m.tag.length + (intBytes lp).length = 8 * r.2 + 4 + m.tag.length := by
      rw [intBytes_length]
      omega
    rw [loadBytes, List.length_append, List.length_append, load_add, load_add, hpay, hbytes₃,
      load_store_same, load_store_disjoint _ _ (by omega),
      load_store_disjoint _ _ (by rw [intBytes_length]; omega), hbytes₂, load_store_same,
      load_store_disjoint _ _ (by omega), hbytes₁, load_store_same]
  have hrep := push_rep h.deliv hlt hlen hout hload
  have hinfo : (⟨.send, element.info, m.tag ++ (intBytes lp ++ m.payload)⟩ : Item) =
      messageItem (prefixed lp m) := by
    simp [messageItem, prefixed, element, Nat.add_comm]
  rw [hinfo] at hrep
  refine ⟨{ p.bsp with deliveryTable := { r.1 with data := d₃ } }, ?_,
    logged_deliv h (fun _ => rfl) (fun _ => rfl) hrep
      ((delivPush_nprocs _ column element .send).trans h.deliv_nprocs)⟩
  simp only [remoteSend, if_pos hlt, ← htag, h1, h2, h3]
  rfl

section Local

omit hm

variable {pid lp : ℕ} (hrank : nodeOf processors nnodes pid = rank)

include hrank

theorem localPut_logged (h : NodeLogged processors nnodes rank tagSize log node) (dst : ℕ)
    (bytes : List UInt8) : NodeLogged processors nnodes rank tagSize
      (log ++ [(lp, .put pid dst bytes)]) (node.onQueue lp fun q => q.put bytes dst) := by
  let call : ContextCall := .put pid dst bytes
  have hcall : nodeCall processors nnodes rank call = none := if_pos hrank
  have hown : localPut processors nnodes rank lp (lp, call) = some (dst, bytes) :=
    if_pos ⟨hrank, rfl⟩
  refine nodeLogged_local h hcall (fun q gets puts sent moved hq => ?_) fun l hl =>
    ⟨rfl, if_neg fun hc => hl hc.2.symm, rfl⟩
  rw [hown]
  simpa [localGet, localSend, call] using pending_put hq bytes dst

theorem localGet_logged (h : NodeLogged processors nnodes rank tagSize log node) (src : ℕ)
    (offset : ℤ)
    (dst nbytes : ℕ) : NodeLogged processors nnodes rank tagSize
      (log ++ [(lp, .get pid src offset dst nbytes)])
      (node.onQueue lp fun q => q.hpput (addOffset src offset) dst nbytes) := by
  let call : ContextCall := .get pid src offset dst nbytes
  have hcall : nodeCall processors nnodes rank call = none := if_pos hrank
  have hown : localGet processors nnodes rank lp (lp, call) =
      some ⟨addOffset src offset, dst, nbytes⟩ := if_pos ⟨hrank, rfl⟩
  refine nodeLogged_local h hcall (fun q gets puts sent moved hq => ?_) fun l hl =>
    ⟨if_neg fun hc => hl hc.2.symm, rfl, rfl⟩
  rw [hown]
  simpa [localPut, localSend, call] using pending_hpput hq (addOffset src offset) dst nbytes

theorem localSend_logged (h : NodeLogged processors nnodes rank tagSize log node) (m : Message) :
    NodeLogged processors nnodes rank tagSize (log ++ [(lp, .send pid m)])
      (node.onQueue (localOf processors nnodes pid) fun q => q.send m.tag m.payload) := by
  let call : ContextCall := .send pid m
  have hcall : nodeCall processors nnodes rank call = none := if_pos hrank
  have hown : localSend processors nnodes rank (localOf processors nnodes pid) (lp, call) =
      some (.copied m) := if_pos ⟨hrank, rfl⟩
  refine nodeLogged_local h hcall (fun q gets puts sent moved hq => ?_) fun l hl =>
    ⟨rfl, rfl, if_neg fun hc => hl hc.2.symm⟩
  rw [hown]
  simpa [localGet, localPut, call] using pending_send hq m

theorem localHpsend_logged (h : NodeLogged processors nnodes rank tagSize log node)
    (tag payload nbytes : ℕ) (m : Message) : NodeLogged processors nnodes rank tagSize
      (log ++ [(lp, .hpsend pid tag payload nbytes m)])
      (node.onQueue (localOf processors nnodes pid) fun q =>
        q.hpsend (.memory tag) (.memory payload) nbytes) := by
  let call : ContextCall := .hpsend pid tag payload nbytes m
  have hcall : nodeCall processors nnodes rank call = none := if_pos hrank
  have hown : localSend processors nnodes rank (localOf processors nnodes pid) (lp, call) =
      some (.pointed (.memory tag) (.memory payload) nbytes) := if_pos ⟨hrank, rfl⟩
  refine nodeLogged_local h hcall (fun q gets puts sent moved hq => ?_) fun l hl =>
    ⟨rfl, rfl, if_neg fun hc => hl hc.2.symm⟩
  rw [hown]
  simpa [localGet, localPut, call] using pending_hpsend hq (.memory tag) (.memory payload) nbytes

end Local

section Op

variable (h : NodeLogged processors nnodes rank tagSize log node) {lp pid : ℕ}

include h

omit hm in
theorem logged_rank : node.proc.bsp.rank = rank := h.proc.rank

theorem exec_put {src dst nbytes : ℕ} {offset : ℤ}
    (hok : Admitted processors nnodes rank (lp, .put pid src dst offset nbytes) node) :
    ∃ node', exec processors nnodes rank (lp, .put pid src dst offset nbytes) node = some node' ∧
      NodeLogged processors nnodes rank tagSize
        (log ++ emit processors nnodes rank (lp, .put pid src dst offset nbytes) node) node' := by
  obtain ⟨-, hpid, hsize, hbase⟩ := hok
  obtain ⟨base, hfind⟩ := Option.ne_none_iff_exists'.mp hbase
  refine ⟨_, congrArg (Option.map _) hfind, ?_⟩
  simp only [emit, hfind, Option.toList_some, List.map_cons, List.map_nil]
  rw [logged_rank h, mapper_node hm rank hpid]
  by_cases hrank : nodeOf processors nnodes pid = rank
  · rw [if_pos hrank.symm]
    exact localPut_logged hrank h _ _
  · rw [if_neg (Ne.symm hrank)]
    exact remotePut_logged hm h hpid hrank lp _ src hsize

theorem exec_hpput {src dst nbytes : ℕ} {offset : ℤ}
    (hok : Admitted processors nnodes rank (lp, .hpput pid src dst offset nbytes) node) :
    ∃ node', exec processors nnodes rank (lp, .hpput pid src dst offset nbytes) node = some node' ∧
      NodeLogged processors nnodes rank tagSize
        (log ++ emit processors nnodes rank (lp, .hpput pid src dst offset nbytes) node) node' := by
  obtain ⟨-, hpid, hsize, hbase⟩ := hok
  obtain ⟨base, hfind⟩ := Option.ne_none_iff_exists'.mp hbase
  refine ⟨_, congrArg (Option.map _) hfind, ?_⟩
  simp only [emit, hfind, Option.toList_some, List.map_cons, List.map_nil]
  rw [logged_rank h, mapper_node hm rank hpid]
  by_cases hrank : nodeOf processors nnodes pid = rank
  · rw [if_pos hrank.symm, if_pos hrank, List.append_nil]
    exact nodeLogged_mem h _
  · rw [if_neg (Ne.symm hrank), if_neg hrank]
    exact remotePut_logged hm h hpid hrank lp _ src hsize

theorem exec_get {src dst nbytes : ℕ} {offset : ℤ}
    (hok : Admitted processors nnodes rank (lp, .get pid src offset dst nbytes) node) :
    ∃ node', exec processors nnodes rank (lp, .get pid src offset dst nbytes) node = some node' ∧
      NodeLogged processors nnodes rank tagSize
        (log ++ emit processors nnodes rank (lp, .get pid src offset dst nbytes) node) node' := by
  obtain ⟨-, hpid, hsize, hlo, hhi, hbase⟩ := hok
  obtain ⟨base, hfind⟩ := Option.ne_none_iff_exists'.mp hbase
  refine ⟨_, congrArg (Option.map _) hfind, ?_⟩
  simp only [emit, hfind, Option.toList_some, List.map_cons, List.map_nil]
  rw [logged_rank h, mapper_node hm rank hpid]
  by_cases hrank : nodeOf processors nnodes pid = rank
  · rw [if_pos hrank.symm]
    exact localGet_logged hrank h base offset dst nbytes
  · rw [if_neg (Ne.symm hrank)]
    exact remoteGet_logged hm h hpid hrank lp base dst hsize hlo hhi

theorem exec_hpget {src dst nbytes : ℕ} {offset : ℤ}
    (hok : Admitted processors nnodes rank (lp, .hpget pid src offset dst nbytes) node) :
    ∃ node', exec processors nnodes rank (lp, .hpget pid src offset dst nbytes) node = some node' ∧
      NodeLogged processors nnodes rank tagSize
        (log ++ emit processors nnodes rank (lp, .hpget pid src offset dst nbytes) node) node' := by
  obtain ⟨-, hpid, hsize, hlo, hhi, hbase⟩ := hok
  obtain ⟨base, hfind⟩ := Option.ne_none_iff_exists'.mp hbase
  refine ⟨_, congrArg (Option.map _) hfind, ?_⟩
  simp only [emit, hfind, Option.toList_some, List.map_cons, List.map_nil]
  rw [logged_rank h, mapper_node hm rank hpid]
  by_cases hrank : nodeOf processors nnodes pid = rank
  · rw [if_pos hrank.symm, if_pos hrank, List.append_nil]
    exact nodeLogged_mem h _
  · rw [if_neg (Ne.symm hrank), if_neg hrank]
    exact remoteGet_logged hm h hpid hrank lp base dst hsize hlo hhi

omit hm in
theorem sent_logged {column l tag payload nbytes : ℕ} {e : ℕ × ContextCall}
    (hcolumn : column < nnodes)
    (hsize : nbytes + node.proc.bsp.messageQueue.sendTagSize + 4 < 2 ^ 31)
    (hcall : nodeCall processors nnodes rank e.2 = some (.send column (prefixed l
      ⟨load node.proc.mem tag node.proc.bsp.messageQueue.sendTagSize,
        load node.proc.mem payload nbytes⟩)))
    (hget : ∀ l, localGet processors nnodes rank l e = none)
    (hput : ∀ l, localPut processors nnodes rank l e = none)
    (hsend : ∀ l, localSend processors nnodes rank l e = none) :
    ∃ node', (remoteSend node.proc column l
        (load node.proc.mem tag node.proc.bsp.messageQueue.sendTagSize)
        (load node.proc.mem payload nbytes) nbytes).map node.onBsp = some node' ∧
      NodeLogged processors nnodes rank tagSize (log ++ [e]) node' := by
  let m : Message := ⟨load node.proc.mem tag node.proc.bsp.messageQueue.sendTagSize,
    load node.proc.mem payload nbytes⟩
  obtain ⟨bsp, hbsp, hlog⟩ := remoteSend_logged h.proc hcolumn l (m := m) (load_length ..)
    (by simpa [m] using hsize)
  rw [load_length] at hbsp
  exact ⟨_, congrArg (Option.map _) hbsp, nodeLogged_remote h hcall hget hput hsend hlog⟩

theorem exec_send {tag payload nbytes : ℕ}
    (hok : Admitted processors nnodes rank (lp, .send pid tag payload nbytes) node) :
    ∃ node', exec processors nnodes rank (lp, .send pid tag payload nbytes) node = some node' ∧
      NodeLogged processors nnodes rank tagSize
        (log ++ emit processors nnodes rank (lp, .send pid tag payload nbytes) node) node' := by
  obtain ⟨-, hpid, hsize⟩ := hok
  simp only [exec, emit, mapper_node hm rank hpid, mapper_local hm rank hpid, logged_rank h]
  by_cases hrank : nodeOf processors nnodes pid = rank
  · rw [if_pos hrank.symm]
    exact ⟨_, rfl, localSend_logged hrank h _⟩
  · rw [if_neg (Ne.symm hrank)]
    exact sent_logged h (node_lt hm hpid) hsize (if_neg hrank) (fun _ => rfl) (fun _ => rfl)
      fun l => if_neg fun hc => hrank hc.1

theorem exec_hpsend {tag payload nbytes : ℕ}
    (hok : Admitted processors nnodes rank (lp, .hpsend pid tag payload nbytes) node) :
    ∃ node', exec processors nnodes rank (lp, .hpsend pid tag payload nbytes) node = some node' ∧
      NodeLogged processors nnodes rank tagSize
        (log ++ emit processors nnodes rank (lp, .hpsend pid tag payload nbytes) node) node' := by
  obtain ⟨-, hpid, hsize, hcolumn⟩ := hok
  simp only [exec, emit, mapper_node hm rank hpid, mapper_local hm rank hpid, logged_rank h]
  by_cases hrank : nodeOf processors nnodes pid = rank
  · rw [if_pos hrank.symm]
    exact ⟨_, rfl, localHpsend_logged hrank h tag payload nbytes _⟩
  · rw [if_neg (Ne.symm hrank)]
    exact sent_logged h (hcolumn.resolve_left hrank) hsize (if_neg hrank) (fun _ => rfl)
      (fun _ => rfl) fun l => if_neg fun hc => hrank hc.1

omit hm in
theorem exec_move {target nbytes : ℕ}
    (hok : Admitted processors nnodes rank (lp, .move target nbytes) node) :
    ∃ node', exec processors nnodes rank (lp, .move target nbytes) node = some node' ∧
      NodeLogged processors nnodes rank tagSize log node' := by
  simp only [exec, bspMove]
  split
  · rw [if_pos (hok.2 ‹_›)]
    exact ⟨_, rfl, nodeLogged_moved (nodeLogged_mem h _) fun _ _ _ _ hq => advance_pending ‹_› hq⟩
  · exact ⟨_, rfl, nodeLogged_moved (nodeLogged_mem h _) fun _ _ _ moved hq => ⟨moved, hq⟩⟩

theorem exec_logged (e : ℕ × ContextOp) (hok : Admitted processors nnodes rank e node) :
    ∃ node', exec processors nnodes rank e node = some node' ∧
      NodeLogged processors nnodes rank tagSize (log ++ emit processors nnodes rank e node)
        node' := by
  obtain ⟨lp, op⟩ := e
  cases op with
  | pushReg ident nbytes =>
    obtain ⟨reg, hreg⟩ := Option.ne_none_iff_exists'.mp hok.2
    exact ⟨_, congrArg (Option.map _) hreg, by simpa [emit] using nodeLogged_reg h lp reg⟩
  | popReg ident =>
    obtain ⟨reg, hreg⟩ := Option.ne_none_iff_exists'.mp hok.2
    exact ⟨_, congrArg (Option.map _) hreg, by simpa [emit] using nodeLogged_reg h lp reg⟩
  | put => exact exec_put hm h hok
  | hpput => exact exec_hpput hm h hok
  | get => exact exec_get hm h hok
  | hpget => exact exec_hpget hm h hok
  | send => exact exec_send hm h hok
  | hpsend => exact exec_hpsend hm h hok
  | setTagsize tagNbytes =>
    exact ⟨_, rfl, nodeLogged_remote h rfl (fun _ => rfl) (fun _ => rfl) (fun _ => rfl)
      (logged_own h.proc (fun _ => rfl) fun _ => rfl)⟩
  | getTag tag => exact ⟨_, rfl, by simpa [emit] using nodeLogged_mem h _⟩
  | move target nbytes => simpa [emit] using exec_move h hok
  | hpmove =>
    refine ⟨_, rfl, ?_⟩
    rw [emit, List.append_nil]
    apply nodeLogged_moved h
    intro gets puts sent moved hq
    rw [bspHpmove]
    split
    · exact advance_pending ‹_› hq
    · exact ⟨moved, hq⟩
  | compute f => exact ⟨_, rfl, by simpa [emit] using nodeLogged_mem h _⟩

omit h in
/-- A run of admitted operations is defined, and its log is what the tables and queues hold. -/
theorem run_exec {ops : List (ℕ × ContextOp)}
    (hok : Along (exec processors nnodes rank) (Admitted processors nnodes rank) ops node)
    (h : NodeLogged processors nnodes rank tagSize [] node) :
    ∃ node', run (exec processors nnodes rank) ops node = some node' ∧
      NodeLogged processors nnodes rank tagSize (logOf processors nnodes rank ops node) node' := by
  have hrun := run_logged (emit processors nnodes rank)
    (fun log node => NodeLogged processors nnodes rank tagSize log node)
    (fun e node log hl ha => exec_logged hm hl e ha) [] h hok
  simpa [logOf] using hrun

end Op

end Exec

end BspOnMpi.ContextLog
