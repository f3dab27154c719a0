import BspOnMpi.Calls
import BspOnMpi.TaskMapper

/-! Registration of the contexts. `bsp_contextimpl_memreg.cpp` and the two calls that queue
requests. Every context has a register with one column for every context, and a map of its live
addresses. The requests of all contexts are exchanged between the nodes and compared position by
position.

A context is undefined, `none`, after a failed assertion, an exception or `bsp_intern_abort`. -/

namespace BspOnMpi.ContextMemreg
open Lib Exptable Memreg Mapper
open Bspx (toInt32 intToUInt32)

structure MapEntry where
  pointers : ℕ → ℕ
  nbytes : ℕ
  serial : ℕ

structure RegReq where
  data : ℕ
  size : ℕ
  serial : ℕ
  push : Bool

structure ContextReg where
  globalPid : ℕ
  localPid : ℕ
  memoryRegister : MemoryRegister
  memoryRegisterMap : ℕ → Option MapEntry
  regRequests : List RegReq

def maxRegisterReqs : ℕ := 0xfffffff

def noValue : ℕ := 2 ^ 64 - 1

def contextInit (processors globalPid localPid : ℕ) (fresh : ℕ → ℕ → ℕ) : ContextReg :=
  { globalPid := globalPid
    localPid := localPid
    memoryRegister := memoryRegisterInitialize processors 1 globalPid fresh
    memoryRegisterMap := fun _ => none
    regRequests := [] }

def bspPushReg (c : ContextReg) (ident nbytes : ℕ) : Option ContextReg :=
  if (c.memoryRegisterMap ident).isNone ∧ c.regRequests.length < maxRegisterReqs then
    let r : RegReq :=
      { data := ident
        size := nbytes
        serial := c.memoryRegister.usedSlotCount c.globalPid + c.regRequests.length
        push := true }
    some { c with regRequests := c.regRequests ++ [r] }
  else none

def bspPopReg (c : ContextReg) (ident : ℕ) : Option ContextReg :=
  if c.regRequests.length < maxRegisterReqs then
    (c.memoryRegisterMap ident).map fun e =>
      let r : RegReq := { data := ident, size := e.nbytes, serial := e.serial, push := false }
      { c with regRequests := c.regRequests ++ [r] }
  else none

inductive RegOp
  | push (ident nbytes : ℕ)
  | pop (ident : ℕ)

def regExec (op : RegOp) (c : ContextReg) : Option ContextReg :=
  match op with
  | .push ident nbytes => bspPushReg c ident nbytes
  | .pop ident => bspPopReg c ident

/-- The assignments to the array `vs` of a node. -/
def requestWrites (nprocs regReqSize ppn procsThisNode : ℕ) (cs : ℕ → ContextReg) :
    List (ℕ × List RegReq) :=
  (List.range procsThisNode).flatMap fun lp =>
    (cs lp).regRequests.zipIdx.flatMap fun e =>
      (List.range nprocs).map fun p => (lp * regReqSize + e.2 + p * (regReqSize * ppn), [e.1])

/-- `_BSP_COMM0` at node `q`: block `q` of every node. -/
def comm0 {α : Type} (send : ℕ → ℕ → α) (block q : ℕ) : ℕ → α :=
  fun i => send (i / block) (q * block + i % block)

structure Check where
  serial : ℕ
  size : ℕ
  pushOrPop : Option Bool

def matchValue (value new : ℕ) : Option ℕ :=
  if value = noValue then some new else if value = new then some value else none

def matchKind (pushOrPop : Option Bool) (push : Bool) : Option Bool :=
  match pushOrPop with
  | none => some push
  | some b => if b = push then some b else none

def checkRequest (r : RegReq) (st : Check) : Option Check := do
  let serial ← matchValue st.serial r.serial
  let size ← matchValue st.size r.size
  let kind ← matchKind st.pushOrPop r.push
  return { serial := serial, size := size, pushOrPop := some kind }

def pushRegister (processors : ℕ) (c : ContextReg) (data : ℕ) (reg : MapEntry) :
    Option ContextReg :=
  if (c.memoryRegisterMap data).isSome then none
  else some { c with
    memoryRegisterMap := Function.update c.memoryRegisterMap data (some reg)
    memoryRegister := pushAll c.memoryRegister
      ((List.range processors).map fun gp => (gp, reg.pointers gp)) }

def popRegister (c : ContextReg) (data : ℕ) : Option ContextReg := do
  let t ← memoryRegisterPop c.memoryRegister c.globalPid data
  if (c.memoryRegisterMap data).isNone then none
  else return { c with
    memoryRegister := t
    memoryRegisterMap := Function.update c.memoryRegisterMap data none }

def applyRequest (processors : ℕ) (c : ContextReg) (st : Check) (requests : ℕ → RegReq)
    (data : ℕ) : Option ContextReg :=
  if st.pushOrPop = some true then
    pushRegister processors c data
      { pointers := below processors fun gp => (requests gp).data
        nbytes := st.size
        serial := st.serial }
  else popRegister c data

/-- The body of the loop over the contexts of a node; `requests` are the requests
of all contexts at this position, `myR` those of this node by local pid. -/
def processContext (processors : ℕ) (requests myR : ℕ → RegReq) (llp : ℕ)
    (st : Check × (ℕ → ContextReg)) : Option (Check × (ℕ → ContextReg)) := do
  let check ← run (fun gp => checkRequest (requests gp)) (List.range processors) st.1
  let c ← applyRequest processors (st.2 llp) check requests (myR (st.2 llp).localPid).data
  return (check, Function.update st.2 llp c)

def processRequest (processors n : ℕ) (requests myR : ℕ → RegReq) (cs : ℕ → ContextReg) :
    Option (ℕ → ContextReg) :=
  (run (processContext processors requests myR) (List.range n)
    ({ serial := noValue, size := noValue, pushOrPop := none }, cs)).map Prod.snd

/-- `(reg_req_size & MAX_REGISTER_REQS) << 4`, an `int`. -/
def packSize (regReqSize : ℕ) : ℤ := toInt32 ((regReqSize % (maxRegisterReqs + 1) * 16 : ℕ) : ℤ)

/-- The loop over the sizes that the nodes have sent; it starts with the own one. -/
def maxReqSize (regReqSize : ℕ) (received : ℕ → ℕ) (nprocs : ℕ) : ℤ :=
  (List.range nprocs).foldl (fun size p => toInt32 (max (intToUInt32 size) (received p) : ℕ))
    (packSize regReqSize / 16)

section Node

variable (processors nnodes : ℕ)

/-- What node `p` sends; `fresh` is what the allocation of `vs` contains. -/
def sendRequests (fresh : ℕ → ℕ → RegReq) (w : ℕ → ContextReg) (regReqSize p : ℕ) : ℕ → RegReq :=
  let mapper := taskMapper processors nnodes p
  writeAll (fresh p) (requestWrites nnodes regReqSize mapper.procsPerNode mapper.procsThisNode
    (mapper.getContext w p))

def takeRequests (c : ContextReg) : ContextReg := { c with regRequests := [] }

def recvRequests (fresh : ℕ → ℕ → RegReq) (w : ℕ → ContextReg) (regReqSize rank : ℕ) :
    ℕ → RegReq :=
  let ppn := (taskMapper processors nnodes rank).procsPerNode
  comm0 (sendRequests processors nnodes fresh w regReqSize) (regReqSize * ppn) rank

def requestOf (fresh : ℕ → ℕ → RegReq) (w : ℕ → ContextReg) (regReqSize rank req gp : ℕ) : RegReq :=
  let mapper := taskMapper processors nnodes rank
  recvRequests processors nnodes fresh w regReqSize rank
    (mapper.globalToNode gp * (regReqSize * mapper.procsPerNode) +
      mapper.globalToLocal gp * regReqSize + req)

def ownRequest (fresh : ℕ → ℕ → RegReq) (w : ℕ → ContextReg) (regReqSize rank req lp : ℕ) :
    RegReq :=
  recvRequests processors nnodes fresh w regReqSize rank
    (rank * (regReqSize * (taskMapper processors nnodes rank).procsPerNode) + lp * regReqSize + req)

def processMemoryregOps (fresh : ℕ → ℕ → RegReq) (w : ℕ → ContextReg) (regReqSize rank : ℕ) :
    Option (ℕ → ContextReg) :=
  let mapper := taskMapper processors nnodes rank
  (run (fun req => processRequest mapper.nprocs mapper.procsThisNode
      (requestOf processors nnodes fresh w regReqSize rank req)
      (ownRequest processors nnodes fresh w regReqSize rank req))
    (List.range regReqSize) fun lp => takeRequests (mapper.getContext w rank lp)).map fun cs lp =>
      { cs lp with memoryRegister := memoryRegisterPack (cs lp).memoryRegister }

/-- The comparison of the queue lengths; the size is `none` before the first context. -/
def commonSize (n : ℕ) (regReqSize : Option ℕ) : Option (Option ℕ) :=
  match regReqSize with
  | none => some (some n)
  | some size => if size = n then some (some size) else none

/-- `reg_req_size` of a node before it is packed, `none` when its queues differ in length. -/
def nodeReqSize (w : ℕ → ContextReg) (node : ℕ) : Option ℕ :=
  let mapper := taskMapper processors nnodes node
  (run (fun lp => commonSize (mapper.getContext w node lp).regRequests.length)
    (List.range mapper.procsThisNode) none).map fun size => size.getD 0

def nodeSize (w : ℕ → ContextReg) (node : ℕ) : ℕ := (nodeReqSize processors nnodes w node).getD 0

def memregSize (w : ℕ → ContextReg) (node : ℕ) : ℤ :=
  maxReqSize (nodeSize processors nnodes w node)
    (fun p => intToUInt32 (packSize (nodeSize processors nnodes w p)) / 16) nnodes

/-- The part of `bsp_sync` that is about registration on node `rank`, its contexts by local pid.
No node gets past the exchange of the indices when one throws before it, and the exchange of the
requests needs blocks of one size from all nodes. -/
def memregAt (fresh : ℕ → ℕ → RegReq) (w : ℕ → ContextReg) (rank : ℕ) : Option (ℕ → ContextReg) :=
  let regReqSize := memregSize processors nnodes w rank
  if (List.range nnodes).all fun p => (nodeReqSize processors nnodes w p).isSome then
    if 0 < regReqSize then
      if (List.range nnodes).all fun p => memregSize processors nnodes w p = regReqSize then
        processMemoryregOps processors nnodes fresh w regReqSize.toNat rank
      else none
    else some ((taskMapper processors nnodes rank).getContext w rank)
  else none

/-- The registrations of all nodes, undefined when one of them throws. -/
def syncMemoryreg (fresh : ℕ → ℕ → RegReq) (w : ℕ → ContextReg) : Option (ℕ → ContextReg) :=
  let res := memregAt processors nnodes fresh w
  if (List.range nnodes).all fun node => (res node).isSome then
    some fun gp =>
      let mapper := taskMapper processors nnodes 0
      if gp < processors then
        ((res (mapper.globalToNode gp)).map fun cs => cs (mapper.globalToLocal gp)).getD (w gp)
      else w gp
  else none

end Node

section Exchange

variable {processors nnodes : ℕ} {w : ℕ → ContextReg} {regReqSize : ℕ}

theorem block_index {b p y : ℕ} (hy : y < b) : (p * b + y) / b = p ∧ (p * b + y) % b = y := by
  constructor
  · rw [Nat.mul_comm, Nat.mul_add_div (by omega), Nat.div_eq_of_lt hy, Nat.add_zero]
  · rw [Nat.mul_comm, Nat.mul_add_mod, Nat.mod_eq_of_lt hy]

theorem position_lt {r n lp k : ℕ} (hlp : lp < n) (hk : k < r) : lp * r + k < r * n := by
  have hle := Nat.mul_le_mul_right r (Nat.succ_le_of_lt hlp)
  rw [Nat.succ_mul, Nat.mul_comm n r] at hle
  omega

theorem mem_requestWrites {contexts : ℕ → ContextReg} {procsPerNode procsThisNode : ℕ}
    {e : ℕ × List RegReq} :
    e ∈ requestWrites nnodes regReqSize procsPerNode procsThisNode contexts ↔
      ∃ lp < procsThisNode, ∃ j r, (contexts lp).regRequests[j]? = some r ∧
        ∃ q < nnodes, e = (lp * regReqSize + j + q * (regReqSize * procsPerNode), [r]) := by
  simp only [requestWrites, List.mem_flatMap, List.mem_range, List.mem_map, Prod.exists,
    List.mem_zipIdx_iff_getElem?]
  constructor
  · rintro ⟨lp, hlp, r, j, hj, q, hq, rfl⟩
    exact ⟨lp, hlp, j, r, hj, q, hq, rfl⟩
  · rintro ⟨lp, hlp, j, r, hj, q, hq, rfl⟩
    exact ⟨lp, hlp, r, j, hj, q, hq, rfl⟩

def placedRequest (w : ℕ → ContextReg) (regReqSize m p : ℕ) (r : RegReq) (x : ℕ) : RegReq :=
  ((w (p * m + x % (regReqSize * m) / regReqSize)).regRequests[
    x % (regReqSize * m) % regReqSize]?).getD r

theorem placedRequest_eq (w : ℕ → ContextReg) (p : ℕ) (r : RegReq) {m lp j q : ℕ} (hlp : lp < m)
    (hj : j < regReqSize) :
    placedRequest w regReqSize m p r (lp * regReqSize + j + q * (regReqSize * m)) =
      ((w (p * m + lp)).regRequests[j]?).getD r := by
  obtain ⟨-, h1⟩ := block_index (p := q) (position_lt hlp hj)
  obtain ⟨h2, h3⟩ := block_index (p := lp) hj
  rw [placedRequest, Nat.add_comm (lp * regReqSize + j), h1, h2, h3]

theorem recv_place (h : Mapped processors nnodes) (fresh : ℕ → ℕ → RegReq) {gp k : ℕ}
    (hk : k < regReqSize) (q : ℕ) :
    let m := icd processors nnodes
    comm0 (sendRequests processors nnodes fresh w regReqSize) (regReqSize * m) q
      (gp / m * (regReqSize * m) + gp % m * regReqSize + k) =
    sendRequests processors nnodes fresh w regReqSize (gp / m)
      (q * (regReqSize * m) + (gp % m * regReqSize + k)) := by
  intro m
  obtain ⟨hdiv, hmod⟩ := block_index (p := gp / m) (position_lt (Nat.mod_lt gp (icd_pos h)) hk)
  rw [comm0, Nat.add_assoc, hdiv, hmod]

theorem recv_request (h : Mapped processors nnodes) (fresh : ℕ → ℕ → RegReq)
    (hlen : ∀ gp < processors, (w gp).regRequests.length ≤ regReqSize) {gp k q : ℕ}
    (hgp : gp < processors) (hq : q < nnodes) {r : RegReq} (hr : (w gp).regRequests[k]? = some r) :
    let m := icd processors nnodes
    comm0 (sendRequests processors nnodes fresh w regReqSize) (regReqSize * m) q
      (gp / m * (regReqSize * m) + gp % m * regReqSize + k) = r := by
  intro m
  have hm : 0 < m := icd_pos h
  have hk : k < regReqSize := by
    have h1 := (List.getElem?_eq_some_iff.mp hr).1
    have h2 := hlen gp hgp
    omega
  have hdm := Nat.div_add_mod' gp m
  rw [recv_place h fresh hk, sendRequests, procsPerNode_eq h]
  show writeAll _ _ (q * (regReqSize * m) + (gp % m * regReqSize + k)) = r
  -- the writes of a node agree on what belongs to a place of the block
  have hval : placedRequest w regReqSize m (gp / m) r
      (q * (regReqSize * m) + (gp % m * regReqSize + k)) = r := by
    rw [Nat.add_comm, placedRequest_eq w _ r (Nat.mod_lt gp hm) hk, hdm, hr, Option.getD_some]
  have hthis := mod_lt_procs h hgp
  rw [writeAll_of_agree (f := placedRequest w regReqSize m (gp / m) r), hval]
  · intro e he h1 h2
    obtain ⟨lp, hlp, j, r', hget, p, -, rfl⟩ := mem_requestWrites.mp he
    rw [getContext_eq h _ hlp] at hget
    obtain ⟨hlt, -, -⟩ := local_global h hlp
    have hjlt : j < regReqSize := by
      have h3 := (List.getElem?_eq_some_iff.mp hget).1
      have h4 := hlen _ hlt
      omega
    have hlpm : lp < m := by
      rw [procsThisNode_eq h] at hlp
      omega
    have hx : q * (regReqSize * m) + (gp % m * regReqSize + k) =
        lp * regReqSize + j + p * (regReqSize * m) := by
      change lp * regReqSize + j + p * (regReqSize * m) ≤ _ at h1
      change _ - (lp * regReqSize + j + p * (regReqSize * m)) < 1 at h2
      omega
    have hf := placedRequest_eq w (gp / m) r (q := p) hlpm hjlt
    rw [← hx, hget, Option.getD_some] at hf
    rw [hf, List.getElem_singleton]
  · refine ⟨(gp % m * regReqSize + k + q * (regReqSize * m), [r]), ?_, ?_, ?_⟩
    · refine mem_requestWrites.mpr ⟨gp % m, hthis, k, r, ?_, q, hq, rfl⟩
      rw [getContext_eq h _ hthis]
      show (w (gp / m * m + gp % m)).regRequests[k]? = some r
      rw [hdm, hr]
    · show _ ≤ _
      omega
    · show _ < _
      simp only [List.length_singleton]
      omega

end Exchange

section Size

theorem commonSize_run {len : ℕ → ℕ} {n : ℕ} {size : Option ℕ}
    (h : run (fun lp => commonSize (len lp)) (List.range n) none = some size) :
    ∀ lp < n, size = some (len lp) := by
  induction n generalizing size with
  | zero => exact fun lp hlp => absurd hlp (Nat.not_lt_zero lp)
  | succ n ih =>
    rw [List.range_succ, run_append] at h
    obtain ⟨before, hbefore, hlast⟩ := Option.bind_eq_some_iff.mp h
    have hall := ih hbefore
    rw [run, Option.bind_eq_some_iff] at hlast
    obtain ⟨after, hafter, hend⟩ := hlast
    cases hend
    intro lp hlp
    cases before with
    | none =>
      cases hafter
      rcases Nat.lt_or_eq_of_le (Nat.le_of_lt_succ hlp) with hlt | rfl
      · cases hall lp hlt
      · rfl
    | some common =>
      rw [commonSize] at hafter
      split at hafter
      · cases hafter
        rcases Nat.lt_or_eq_of_le (Nat.le_of_lt_succ hlp) with hlt | rfl
        · exact hall lp hlt
        · exact congrArg some ‹_›
      · cases hafter

theorem intToUInt32_packSize (n : ℕ) : intToUInt32 (packSize n) = n % 2 ^ 28 * 16 := by
  have hmod : maxRegisterReqs + 1 = 2 ^ 28 := by decide
  have hcast : (2 ^ 32 : ℤ) = ((2 ^ 32 : ℕ) : ℤ) := by norm_num
  rw [packSize, hmod, intToUInt32, toInt32, hcast, Int.bmod_emod]
  omega

theorem packSize_eq {n : ℕ} (h : n < 2 ^ 27) : packSize n = 16 * n := by
  have hmod : maxRegisterReqs + 1 = 2 ^ 28 := by decide
  rw [packSize, hmod, Nat.mod_eq_of_lt (by omega), Calls.toInt32_eq (by omega) (by omega)]
  omega

theorem packSize_large {n : ℕ} (h : 2 ^ 27 ≤ n) (hmax : n ≤ maxRegisterReqs) :
    packSize n = 16 * n - 2 ^ 32 := by
  have hbound : n < 2 ^ 28 := Nat.lt_of_le_of_lt hmax (by decide)
  have hmod : maxRegisterReqs + 1 = 2 ^ 28 := by decide
  rw [packSize, hmod, Nat.mod_eq_of_lt hbound, toInt32, Int.bmod_def, if_neg (by omega)]
  omega

theorem larger_size {m n : ℕ} (hm : m < 2 ^ 27) (hn : n < 2 ^ 27) :
    toInt32 (max (intToUInt32 m) n : ℕ) = (max n m : ℕ) := by
  have hu : intToUInt32 m = m := by
    rw [intToUInt32]
    omega
  rw [hu, Nat.max_comm, Calls.toInt32_eq (by omega) (by omega)]

theorem maxReqSize_eq {sizes received : ℕ → ℕ} {n q : ℕ} (hq : q < n)
    (hsizes : ∀ p < n, sizes p < 2 ^ 27) (hreceived : ∀ p < n, received p = sizes p) :
    maxReqSize (sizes q) received n = largest sizes n := by
  have hrun : ∀ k ≤ n, (List.range k).foldl
      (fun size p => toInt32 (max (intToUInt32 size) (received p) : ℕ))
      (packSize (sizes q) / 16) = (max (sizes q) (largest sizes k) : ℕ) := by
    intro k
    induction k with
    | zero =>
      intro _
      rw [packSize_eq (hsizes q hq)]
      simp [largest]
    | succ k ih =>
      intro hk
      have hmax : max (sizes q) (largest sizes k) < 2 ^ 27 :=
        max_lt (hsizes q hq) (largest_lt (by decide) fun p hp => hsizes p (by omega))
      rw [List.range_succ, List.foldl_append, ih (by omega), List.foldl_cons, List.foldl_nil,
        hreceived k hk, larger_size hmax (hsizes k hk), largest_succ, max_left_comm]
  have hle : sizes q ≤ largest sizes n := le_largest sizes hq
  rw [maxReqSize, hrun n le_rfl, max_eq_right hle]

theorem maxReqSize_large {n nprocs : ℕ} {received : ℕ → ℕ} (h : 2 ^ 27 ≤ n)
    (hmax : n ≤ maxRegisterReqs) (hreceived : ∀ p < nprocs, received p < 2 ^ 28) :
    maxReqSize n received nprocs = n - 2 ^ 28 := by
  have hbound : n < 2 ^ 28 := Nat.lt_of_le_of_lt hmax (by decide)
  induction nprocs with
  | zero =>
    rw [maxReqSize, packSize_large h hmax]
    show (16 * (n : ℤ) - 2 ^ 32) / 16 = _
    omega
  | succ k ih =>
    have hprev := ih fun p hp => hreceived p (by omega)
    have hlast := hreceived k (Nat.lt_succ_self k)
    have hu : intToUInt32 (n - 2 ^ 28) = n + 15 * 2 ^ 28 := by
      rw [intToUInt32]
      omega
    rw [maxReqSize] at hprev ⊢
    rw [List.range_succ, List.foldl_append, hprev, List.foldl_cons, List.foldl_nil, hu,
      max_eq_left (by omega), toInt32, Int.bmod_def, if_neg (by omega)]
    omega

end Size

section Sync

variable {processors nnodes : ℕ} {w : ℕ → ContextReg} {fresh : ℕ → ℕ → RegReq}

theorem memregAt_cases {q : ℕ} {cs : ℕ → ContextReg}
    (h : memregAt processors nnodes fresh w q = some cs) :
    (∀ p < nnodes, (nodeReqSize processors nnodes w p).isSome) ∧
      (memregSize processors nnodes w q ≤ 0 ∧ cs = (taskMapper processors nnodes q).getContext w q ∨
        ∃ size : ℕ, 0 < size ∧ (∀ p < nnodes, memregSize processors nnodes w p = size) ∧
          memregSize processors nnodes w q = size ∧
          processMemoryregOps processors nnodes fresh w size q = some cs) := by
  rw [memregAt] at h
  obtain ⟨hall, h⟩ := Option.ite_none_right_eq_some.mp h
  refine ⟨fun p hp => List.all_eq_true.mp hall p (List.mem_range.mpr hp), ?_⟩
  by_cases hpos : 0 < memregSize processors nnodes w q
  · rw [if_pos hpos] at h
    obtain ⟨hsame, h⟩ := Option.ite_none_right_eq_some.mp h
    have hcast := Int.toNat_of_nonneg hpos.le
    refine .inr ⟨_, by omega, fun p hp => ?_, hcast.symm, h⟩
    rw [hcast]
    exact of_decide_eq_true (List.all_eq_true.mp hsame p (List.mem_range.mpr hp))
  · rw [if_neg hpos] at h
    cases h
    exact .inl ⟨not_lt.mp hpos, rfl⟩

theorem memregAt_skip (hall : ∀ p < nnodes, (nodeReqSize processors nnodes w p).isSome) {q : ℕ}
    (hsize : memregSize processors nnodes w q ≤ 0) : memregAt processors nnodes fresh w q =
      some ((taskMapper processors nnodes q).getContext w q) := by
  have hsome : ((List.range nnodes).all fun p => (nodeReqSize processors nnodes w p).isSome) =
      true :=
    List.all_eq_true.mpr fun p hp => hall p (List.mem_range.mp hp)
  rw [memregAt, if_pos hsome, if_neg hsize.not_gt]

theorem memregAt_process (hall : ∀ p < nnodes, (nodeReqSize processors nnodes w p).isSome)
    {q size : ℕ}
    (hpos : 0 < size) (hq : q < nnodes)
    (hsizes : ∀ p < nnodes, memregSize processors nnodes w p = size) :
    memregAt processors nnodes fresh w q =
      processMemoryregOps processors nnodes fresh w size q := by
  have hsome : ((List.range nnodes).all fun p => (nodeReqSize processors nnodes w p).isSome) =
      true :=
    List.all_eq_true.mpr fun p hp => hall p (List.mem_range.mp hp)
  have hsame : ((List.range nnodes).all fun p =>
      memregSize processors nnodes w p = memregSize processors nnodes w q) = true :=
    List.all_eq_true.mpr fun p hp => by
      rw [hsizes p (List.mem_range.mp hp), hsizes q hq]
      exact decide_eq_true rfl
  rw [memregAt, if_pos hsome, if_pos (by rw [hsizes q hq]; omega), if_pos hsame, hsizes q hq,
    Int.toNat_natCast]

structure Skips (processors nnodes : ℕ) (w : ℕ → ContextReg) : Prop where
  even : ∀ q < nnodes, (nodeReqSize processors nnodes w q).isSome
  size : ∀ q < nnodes, memregSize processors nnodes w q ≤ 0

theorem syncMemoryreg_defined
    (h : ∀ q < nnodes, ∃ cs, memregAt processors nnodes fresh w q = some cs) :
    ∃ w', syncMemoryreg processors nnodes fresh w = some w' := by
  have hall : ((List.range nnodes).all fun q => (memregAt processors nnodes fresh w q).isSome) =
      true := by
    rw [List.all_eq_true]
    intro q hq
    obtain ⟨cs, hcs⟩ := h q (List.mem_range.mp hq)
    rw [hcs]
    rfl
  exact ⟨_, if_pos hall⟩

theorem syncMemoryreg_at (hm : Mapped processors nnodes) {w' : ℕ → ContextReg}
    (h : syncMemoryreg processors nnodes fresh w = some w') {q : ℕ} (hq : q < nnodes) :
    ∃ cs, memregAt processors nnodes fresh w q = some cs ∧
      ∀ lp < (taskMapper processors nnodes q).procsThisNode,
        w' (q * icd processors nnodes + lp) = cs lp := by
  obtain ⟨hall, h⟩ := Option.ite_none_right_eq_some.mp h
  obtain ⟨cs, hcs⟩ :=
    Option.isSome_iff_exists.mp (List.all_eq_true.mp hall q (List.mem_range.mpr hq))
  refine ⟨cs, hcs, fun lp hlp => ?_⟩
  obtain ⟨hlt, hnode, hlocal⟩ := local_global hm hlp
  cases h
  simp only [if_pos hlt, globalToNode_eq hm 0 hlt, globalToLocal_eq hm 0 hlt, hnode, hlocal, hcs,
    Option.map_some, Option.getD_some]

theorem syncMemoryreg_outside {w' : ℕ → ContextReg}
    (h : syncMemoryreg processors nnodes fresh w = some w') {gp : ℕ} (hgp : processors ≤ gp) :
    w' gp = w gp := by
  obtain ⟨-, h⟩ := Option.ite_none_right_eq_some.mp h
  cases h
  exact if_neg hgp.not_gt

theorem syncMemoryreg_skips (hm : Mapped processors nnodes) (h : Skips processors nnodes w)
    (fresh : ℕ → ℕ → RegReq) : syncMemoryreg processors nnodes fresh w = some w := by
  have hskip : ∀ q < nnodes, memregAt processors nnodes fresh w q =
      some ((taskMapper processors nnodes q).getContext w q) :=
    fun q hq => memregAt_skip h.even (h.size q hq)
  obtain ⟨w', hw'⟩ := syncMemoryreg_defined fun q hq => ⟨_, hskip q hq⟩
  rw [hw', Option.some.injEq]
  funext gp
  by_cases hgp : gp < processors
  · have hlt := mod_lt_procs hm hgp
    obtain ⟨cs, hcs, hlocal⟩ := syncMemoryreg_at hm hw' (node_lt hm hgp)
    cases (hskip _ (node_lt hm hgp)).symm.trans hcs
    have hdm := Nat.div_add_mod' gp (icd processors nnodes)
    have hown := hlocal _ hlt
    rw [getContext_eq hm w hlt, hdm] at hown
    exact hown
  · exact syncMemoryreg_outside hw' (not_lt.mp hgp)

/-- Either no node processes the registrations, or all do, with the same size. -/
theorem syncMemoryreg_cases (hm : Mapped processors nnodes) {w' : ℕ → ContextReg}
    (h : syncMemoryreg processors nnodes fresh w = some w') :
    Skips processors nnodes w ∧ w' = w ∨ ∃ size : ℕ, 0 < size ∧
      (∀ q < nnodes, memregSize processors nnodes w q = size) ∧ ∀ q < nnodes, ∃ cs,
        processMemoryregOps processors nnodes fresh w size q = some cs ∧
        ∀ lp < (taskMapper processors nnodes q).procsThisNode,
          w' (q * icd processors nnodes + lp) = cs lp := by
  have hat := fun (q : ℕ) (hq : q < nnodes) => syncMemoryreg_at hm h hq
  obtain ⟨cs₀, hcs₀, -⟩ := hat 0 hm.nnodes_pos
  obtain ⟨heven, -⟩ := memregAt_cases hcs₀
  by_cases hsome : ∃ q < nnodes, 0 < memregSize processors nnodes w q
  · obtain ⟨q, hq, hpos⟩ := hsome
    obtain ⟨cs, hcs, -⟩ := hat q hq
    obtain ⟨-, ⟨hle, -⟩ | ⟨size, hsize, hsizes, -, -⟩⟩ := memregAt_cases hcs
    · omega
    · refine .inr ⟨size, hsize, hsizes, fun p hp => ?_⟩
      obtain ⟨cs, hcs, hlocal⟩ := hat p hp
      exact ⟨cs, (memregAt_process heven hsize hp hsizes).symm.trans hcs, hlocal⟩
  · have hskips : Skips processors nnodes w :=
      ⟨heven, fun q hq => not_lt.mp fun hpos => hsome ⟨q, hq, hpos⟩⟩
    exact .inl ⟨hskips, Option.some.inj (h.symm.trans (syncMemoryreg_skips hm hskips fresh))⟩

end Sync

section Check

variable {processors : ℕ} {requests : ℕ → RegReq}

/-- All contexts have the same kind of request with the same size and serial. -/
def Uniform (processors : ℕ) (requests : ℕ → RegReq) (push : Bool) (size serial : ℕ) : Prop :=
  ∀ gp < processors,
    (requests gp).push = push ∧ (requests gp).size = size ∧ (requests gp).serial = serial

def checkStart : Check := { serial := noValue, size := noValue, pushOrPop := none }

theorem matchValue_self (v : ℕ) : matchValue v v = some v := by simp [matchValue]

theorem matchValue_start (v : ℕ) : matchValue noValue v = some v := by simp [matchValue]

theorem check_uniform {push : Bool} {size serial : ℕ}
    (h : Uniform processors requests push size serial)
    (hp : 0 < processors) {st : Check} (hst : st = checkStart ∨ st = ⟨serial, size, some push⟩) :
    run (fun gp => checkRequest (requests gp)) (List.range processors) st =
      some ⟨serial, size, some push⟩ := by
  have hstep : ∀ gp < processors, ∀ st, st = checkStart ∨ st = ⟨serial, size, some push⟩ →
      checkRequest (requests gp) st = some ⟨serial, size, some push⟩ := by
    intro gp hgp st hst
    obtain ⟨h1, h2, h3⟩ := h gp hgp
    rcases hst with rfl | rfl
    · simp [checkRequest, checkStart, matchValue_start, matchKind, h1, h2, h3]
    · simp [checkRequest, matchValue_self, matchKind, h1, h2, h3]
  have hrun : ∀ k ≤ processors, ∃ st',
    run (fun gp => checkRequest (requests gp)) (List.range k) st =
      some st' ∧ (st' = ⟨serial, size, some push⟩ ∨ k = 0 ∧ st' = st) := by
    intro k
    induction k with
    | zero => exact fun _ => ⟨st, rfl, .inr ⟨rfl, rfl⟩⟩
    | succ k ih =>
      intro hk
      obtain ⟨st', hst', hor⟩ := ih (by omega)
      have hcheck := hstep k (by omega) st' (by
        rcases hor with rfl | ⟨-, rfl⟩
        · exact .inr rfl
        · exact hst)
      refine ⟨_, ?_, .inl rfl⟩
      rw [List.range_succ, run_append, hst', Option.bind_some, run, hcheck]
      rfl
  obtain ⟨st', hst', hor⟩ := hrun processors le_rfl
  rw [hst']
  rcases hor with rfl | ⟨h0, -⟩
  · rfl
  · omega

theorem matchValue_eq {value new r : ℕ} (h : matchValue value new = some r) :
    r = new ∧ (value = noValue ∨ value = new) := by
  unfold matchValue at h
  split at h
  · cases h
    exact ⟨rfl, .inl ‹_›⟩
  · split at h
    · cases h
      exact ⟨‹_›, .inr ‹_›⟩
    · cases h

theorem matchKind_eq {pushOrPop : Option Bool} {push kind : Bool}
    (h : matchKind pushOrPop push = some kind) :
    kind = push ∧ ∀ b, pushOrPop = some b → b = push := by
  cases pushOrPop with
  | none =>
    cases h
    exact ⟨rfl, fun b hb => by cases hb⟩
  | some b =>
    obtain ⟨hb, hk⟩ := Option.ite_none_right_eq_some.mp h
    cases hk
    refine ⟨hb, fun b' hb' => ?_⟩
    cases hb'
    exact hb

def Follows (first seen new : ℕ) : Prop := first ≠ noValue → seen = first ∧ new = first

theorem follows_next {first seen new r : ℕ} (h : first ≠ noValue → seen = first)
    (hm : matchValue seen new = some r) : Follows first r new := by
  intro hn
  obtain ⟨hr, hseen⟩ := matchValue_eq hm
  have hs := h hn
  rcases hseen with hnone | heq
  · exact absurd (hs.symm.trans hnone) hn
  · exact ⟨hr.trans (heq.symm.trans hs), heq.symm.trans hs⟩

theorem check_passed {k : ℕ} {st : Check}
    (h : run (fun gp => checkRequest (requests gp)) (List.range (k + 1)) checkStart = some st)
    {gp : ℕ} (hgp : gp ≤ k) : st.pushOrPop = some (requests gp).push ∧
      Follows (requests 0).size st.size (requests gp).size ∧
      Follows (requests 0).serial st.serial (requests gp).serial := by
  induction k generalizing st gp with
  | zero =>
    cases Nat.le_zero.mp hgp
    have hone : checkRequest (requests 0) checkStart = some st := by simpa [run] using h
    simp only [checkRequest, checkStart, matchValue_start, matchKind, Option.bind_eq_bind,
      Option.bind_some, Option.pure_def, Option.some.injEq] at hone
    subst hone
    exact ⟨rfl, fun _ => ⟨rfl, rfl⟩, fun _ => ⟨rfl, rfl⟩⟩
  | succ k ih =>
    rw [List.range_succ, run_append] at h
    obtain ⟨st', hst', hlast⟩ := Option.bind_eq_some_iff.mp h
    simp only [run, Option.bind_fun_some] at hlast
    obtain ⟨serial, hserial, hlast⟩ := Option.bind_eq_some_iff.mp hlast
    obtain ⟨size, hsize, hlast⟩ := Option.bind_eq_some_iff.mp hlast
    obtain ⟨kind, hkind, hlast⟩ := Option.bind_eq_some_iff.mp hlast
    cases hlast
    obtain ⟨hkind, hsame⟩ := matchKind_eq hkind
    have hfirst := ih hst' (Nat.zero_le k)
    have hsize' := follows_next (fun hn => (hfirst.2.1 hn).1) hsize
    have hserial' := follows_next (fun hn => (hfirst.2.2 hn).1) hserial
    rcases Nat.lt_or_eq_of_le hgp with hlt | rfl
    · obtain ⟨h1, h2, h3⟩ := ih hst' (Nat.le_of_lt_succ hlt)
      refine ⟨?_, fun hn => ⟨(hsize' hn).1, (h2 hn).2⟩, fun hn => ⟨(hserial' hn).1, (h3 hn).2⟩⟩
      rw [hsame _ h1, hkind]
    · exact ⟨congrArg some hkind, hsize', hserial'⟩

end Check

end BspOnMpi.ContextMemreg
