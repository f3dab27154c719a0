import BspOnMpi.ContextLive
import BspOnMpi.ContextSuperstep

/-! Programs of contexts. The start of the nodes, supersteps in which the contexts of a node take
their operations in any order, and the worlds that such supersteps reach. -/

namespace BspOnMpi.ContextProgram
open Lib Exptable Slots Delivtable DelivPush Memreg Reqtable Machine Calls Exchange Mapper
  ContextMemreg LocalDelivery Contexts ContextLog ContextSync ContextSuperstep
open Bspx hiding exec

structure Start where
  alloc : Alloc
  globalArrays : ℕ → GlobalArray
  mem : Mem
  stack : ℕ
  registers : ℕ → ℕ → ℕ → ℕ
  queues : ℕ → LocalAlloc

def constructed (n : ℕ) (bsp : BSPObject) : BSPObject :=
  (List.range n).foldl (fun bsp _ => { bsp with
    deliveryTable := deliveryTableReset bsp.deliveryTable
    deliveryReceivedTable := deliveryTableReset bsp.deliveryReceivedTable }) bsp

section Start

variable (processors nnodes : ℕ)

def initNode (x : Start) (q : ℕ) : Node :=
  let mapper := taskMapper processors nnodes q
  { proc :=
      { bsp := constructed mapper.procsThisNode (bspxInitBspobject x.alloc x.globalArrays nnodes q)
        mem := x.mem
        stack := x.stack }
    contexts := fun lp =>
      { reg := contextInit processors ((mapper.localToGlobalPid q lp).getD 0) lp (x.registers lp)
        localDeliveries := .create (x.queues lp) } }

def sampleStart : Start :=
  { alloc := ⟨fun _ _ => .words 0 0, fun _ _ => ⟨0, 0, 0, 0⟩, fun _ _ => 0⟩
    globalArrays := fun _ => ⟨0, 0, none⟩
    mem := fun a => UInt8.ofNat a
    stack := 0
    registers := fun _ _ _ => 0
    queues := fun _ => ⟨fun _ _ => ⟨0, 0, 0⟩, fun _ _ => ⟨0, 0, 0⟩, fun _ _ => .buffered 0 0 0,
      fun _ _ => 0⟩ }

theorem constructed_logged {x : Context} {p : Proc} (h : Logged x [] p)
    (hnone : p.bsp.messageQueue.nMesg = 0) (n : ℕ) :
    Logged x [] { p with bsp := constructed n p.bsp } ∧
      (constructed n p.bsp).messageQueue = p.bsp.messageQueue := by
  induction n with
  | zero => exact ⟨h, rfl⟩
  | succ n ih =>
    obtain ⟨hl, hmesgq⟩ := ih
    have hstep : constructed (n + 1) p.bsp = { constructed n p.bsp with
        deliveryTable := deliveryTableReset (constructed n p.bsp).deliveryTable
        deliveryReceivedTable :=
          deliveryTableReset (constructed n p.bsp).deliveryReceivedTable } := by
      rw [constructed, List.range_succ, List.foldl_append]
      rfl
    have hpos : 0 < (constructed n p.bsp).deliveryTable.nprocs :=
      lt_of_lt_of_eq (Nat.zero_lt_of_lt hl.rank_lt) hl.deliv_nprocs.symm
    rw [hstep]
    refine ⟨{ hl with
      deliv := reset_rep hl.deliv hpos
      recvDeliv := reset_delivShape hl.recvDeliv
      queue := ⟨[], ?_, fun hne => absurd rfl hne⟩ }, hmesgq⟩
    rw [hmesgq]
    exact hnone

theorem init_ready (hm : Mapped processors nnodes) (x : ℕ → Start) :
    NodesReady processors nnodes (fun _ => 0) (fun _ => [])
      fun q => initNode processors nnodes (x q) q := by
  refine ⟨hm, fun q hq => ⟨?_, fun lp _ => ⟨[], pending_create _⟩⟩⟩
  have hinit := (Superstep.init_clean (fun q => (x q).alloc) (fun q => (x q).globalArrays)
    (fun q => (x q).mem) (fun q => (x q).stack) nnodes).logged q hq
  exact (constructed_logged hinit rfl _).1

end Start

section Superstep

variable (processors nnodes : ℕ)

def localPhase (ops : ℕ → List (ℕ × ContextOp)) (w : ℕ → Node) : Option (ℕ → Node) :=
  allBelow nnodes (fun q => run (exec processors nnodes q) (ops q) (w q)) w

def superstep (fresh : ℕ → ℕ → RegReq) (ops : ℕ → List (ℕ × ContextOp)) (w : ℕ → Node) :
    Option (ℕ → Node) :=
  (localPhase processors nnodes ops w).bind fun v => bspSync processors nnodes v fresh

def logsAt (ops : ℕ → List (ℕ × ContextOp)) (w : ℕ → Node) (q : ℕ) : List (ℕ × ContextCall) :=
  logOf processors nnodes q (ops q) (w q)

def tagCalls (lp : ℕ) (ops : List (ℕ × ContextOp)) : List ℕ :=
  ops.filterMap fun e =>
    match e.2 with
    | .setTagsize tagNbytes => if e.1 = lp then some tagNbytes else none
    | _ => none

/-- Operations within the interface, with collective calls of `bsp_set_tagsize`. -/
structure Admissible (ops : ℕ → List (ℕ × ContextOp)) (w : ℕ → Node) : Prop where
  admitted : ∀ q < nnodes,
    Along (exec processors nnodes q) (Admitted processors nnodes q) (ops q) (w q)
  tags : ∃ sizes, ∀ q < nnodes, ∀ lp < contextsOn processors nnodes q, tagCalls lp (ops q) = sizes

def tagsAfter (ops : ℕ → List (ℕ × ContextOp)) (w : ℕ → Node) (tagSize : ℕ → ℕ) (q : ℕ) : ℕ :=
  tagAfter (tagSize q) (nodeCalls processors nnodes q (logsAt processors nnodes ops w q))

inductive Reachable : (ℕ → ℕ) → (ℕ → Node) → Prop
  | init (x : ℕ → Start) : Reachable (fun _ => 0) fun q => initNode processors nnodes (x q) q
  | step {tagSize : ℕ → ℕ} {w w' : ℕ → Node} {ops : ℕ → List (ℕ × ContextOp)}
    {fresh : ℕ → ℕ → RegReq} (hr : Reachable tagSize w) (ha : Admissible processors nnodes ops w)
    (hs : superstep processors nnodes fresh ops w = some w') :
    Reachable (tagsAfter processors nnodes ops w tagSize) w'

/-- A logged call comes from a context of the node and names an existing context; its tag
has the size in force and its payload the announced one. -/
def Sound (rank tagSize : ℕ) (e : ℕ × ContextCall) : Prop :=
  e.1 < contextsOn processors nnodes rank ∧
  match e.2 with
  | .put pid .. | .get pid .. => pid < processors
  | .send pid m => pid < processors ∧ m.tag.length = tagSize
  | .hpsend pid _ _ nbytes m =>
    pid < processors ∧ m.tag.length = tagSize ∧ m.payload.length = nbytes
  | .setTagsize _ => True

end Superstep

section Runs

variable {processors nnodes : ℕ}

theorem nodeOf_lt (hm : Mapped processors nnodes) {pid : ℕ} (hpid : pid < processors) :
    nodeOf processors nnodes pid < nnodes :=
  node_lt hm hpid

theorem localOf_lt (hm : Mapped processors nnodes) {pid : ℕ} (hpid : pid < processors) :
    localOf processors nnodes pid <
      contextsOn processors nnodes (nodeOf processors nnodes pid) := by
  have hlt := globalToLocal_lt hm (nodeOf processors nnodes pid) hpid rfl
  rwa [globalToLocal_eq hm _ hpid] at hlt

theorem emit_sound {rank tagSize : ℕ} {e : ℕ × ContextOp} {node : Node}
    {log : List (ℕ × ContextCall)}
    (h : NodeLogged processors nnodes rank tagSize log node)
    (ha : ContextLog.Admitted processors nnodes rank e node) :
    ∀ c ∈ emit processors nnodes rank e node, Sound processors nnodes rank tagSize c := by
  have htag := h.proc.tagSize
  obtain ⟨lp, op⟩ := e
  intro c hc
  cases op with
  | put | get =>
    obtain ⟨base, -, rfl⟩ := List.mem_map.mp hc
    exact ⟨ha.1, ha.2.1⟩
  | hpput pid | hpget pid =>
    by_cases hrank : nodeOf processors nnodes pid = rank
    · simp [emit, hrank] at hc
    · simp only [emit, if_neg hrank] at hc
      obtain ⟨base, -, rfl⟩ := List.mem_map.mp hc
      exact ⟨ha.1, ha.2.1⟩
  | send =>
    cases List.mem_singleton.mp hc
    exact ⟨ha.1, ha.2.1, by rw [load_length]; exact htag⟩
  | hpsend =>
    cases List.mem_singleton.mp hc
    exact ⟨ha.1, ha.2.1, by rw [load_length]; exact htag, load_length ..⟩
  | setTagsize =>
    cases List.mem_singleton.mp hc
    exact ⟨ha.1, trivial⟩
  | pushReg | popReg | getTag | move | hpmove | compute => cases hc

theorem run_sound (hm : Mapped processors nnodes) {rank tagSize : ℕ} {ops : List (ℕ × ContextOp)}
    {node : Node} (hok : Along (exec processors nnodes rank) (Admitted processors nnodes rank) ops
      node)
    (h : NodeLogged processors nnodes rank tagSize [] node) :
    ∃ node', run (exec processors nnodes rank) ops node = some node' ∧
      NodeLogged processors nnodes rank tagSize (logOf processors nnodes rank ops node) node' ∧
      ∀ c ∈ logOf processors nnodes rank ops node, Sound processors nnodes rank tagSize c := by
  have hrun := run_logged (emit processors nnodes rank)
    (fun log node => NodeLogged processors nnodes rank tagSize log node ∧
      ∀ c ∈ log, Sound processors nnodes rank tagSize c)
    (fun e node log hl ha => by
      obtain ⟨node', hs, hlog⟩ := exec_logged hm hl.1 e ha
      refine ⟨node', hs, hlog, fun c hc => ?_⟩
      rcases List.mem_append.mp hc with hold | hnew
      · exact hl.2 c hold
      · exact emit_sound hl.1 ha c hnew)
    [] ⟨h, by simp⟩ hok
  simpa [logOf] using hrun

def Registers : ContextOp → Prop
  | .pushReg .. | .popReg _ => True
  | _ => False

theorem onQueue_reg (node : Node) (l lp : ℕ) (f : LocalDeliveryQueue → LocalDeliveryQueue) :
    ((node.onQueue l f).contexts lp).reg = (node.contexts lp).reg := by
  by_cases hl : lp = l
  · subst hl
    simp [Node.onQueue]
  · simp [Node.onQueue, Function.update_of_ne hl]

theorem exec_regs {rank lp : ℕ} {e : ℕ × ContextOp} {node node' : Node} (he : ¬ Registers e.2)
    (h : exec processors nnodes rank e node = some node') :
    (node'.contexts lp).reg = (node.contexts lp).reg := by
  obtain ⟨l, op⟩ := e
  cases op with
  | pushReg | popReg => exact absurd trivial he
  | put | get =>
    obtain ⟨base, -, rfl⟩ := Option.map_eq_some_iff.mp h
    split
    · exact onQueue_reg ..
    · rfl
  | hpput | hpget =>
    obtain ⟨base, -, rfl⟩ := Option.map_eq_some_iff.mp h
    split <;> rfl
  | send | hpsend =>
    simp only [exec] at h
    split at h
    · cases h
      exact onQueue_reg ..
    · obtain ⟨bsp, -, rfl⟩ := Option.map_eq_some_iff.mp h
      rfl
  | setTagsize | getTag | compute =>
    cases h
    rfl
  | hpmove =>
    cases h
    exact onQueue_reg ..
  | move =>
    obtain ⟨r, -, rfl⟩ := Option.map_eq_some_iff.mp h
    exact onQueue_reg ..

theorem run_regs {rank lp : ℕ} {ops : List (ℕ × ContextOp)} {node node' : Node}
    (hops : ∀ e ∈ ops, ¬ Registers e.2)
    (h : run (exec processors nnodes rank) ops node = some node') :
    (node'.contexts lp).reg = (node.contexts lp).reg :=
  run_preserves (fun e he _ _ hnode hs => (exec_regs (hops e he) hs).trans hnode) h rfl

/-- Operations that are admitted whatever the memory and the queues contain, for contexts
with the registers `reg`. -/
def Static (processors nnodes rank tagSize : ℕ) (reg : ℕ → ContextReg) (e : ℕ × ContextOp) : Prop :=
  let find := fun pid base =>
    memoryRegisterFind (reg e.1).memoryRegister (reg e.1).globalPid pid base
  e.1 < contextsOn processors nnodes rank ∧
  match e.2 with
  | .put pid _ dst _ nbytes | .hpput pid _ dst _ nbytes =>
    pid < processors ∧ nbytes < 2 ^ 31 ∧ find pid dst ≠ none
  | .get pid src offset _ nbytes | .hpget pid src offset _ nbytes =>
    pid < processors ∧ nbytes < 2 ^ 31 ∧ -2 ^ 31 ≤ offset ∧ offset < 2 ^ 31 ∧ find pid src ≠ none
  | .send pid _ _ nbytes => pid < processors ∧ nbytes + tagSize + 4 < 2 ^ 31
  | .hpsend pid _ _ nbytes => pid < processors ∧ nbytes + tagSize + 4 < 2 ^ 31 ∧
      (nodeOf processors nnodes pid = rank ∨ pid < nnodes)
  | .setTagsize _ | .getTag _ | .hpmove | .compute _ => True
  | .pushReg .. | .popReg _ | .move .. => False

theorem along_static (hm : Mapped processors nnodes) {rank tagSize : ℕ} {reg : ℕ → ContextReg}
    {ops : List (ℕ × ContextOp)} {node : Node} {log : List (ℕ × ContextCall)}
    (h : NodeLogged processors nnodes rank tagSize log node)
    (hreg : ∀ lp, (node.contexts lp).reg = reg lp)
    (hops : ∀ e ∈ ops, Static processors nnodes rank tagSize reg e) :
    Along (exec processors nnodes rank) (ContextLog.Admitted processors nnodes rank) ops node := by
  induction ops generalizing node log with
  | nil => trivial
  | cons e ops ih =>
    have he := hops e (by simp)
    have htag : node.proc.bsp.messageQueue.sendTagSize = tagSize := h.proc.tagSize
    have hfind : ∀ pid base, findBase (node.contexts e.1) pid base =
        memoryRegisterFind (reg e.1).memoryRegister (reg e.1).globalPid pid base := by
      intro pid base
      rw [findBase, hreg]
    have hok : ContextLog.Admitted processors nnodes rank e node := by
      obtain ⟨lp, op⟩ := e
      refine ⟨he.1, ?_⟩
      have hcase := he.2
      cases op <;> first | exact hcase | exact hcase.elim | simpa only [hfind, htag] using hcase
    refine ⟨hok, fun next hnext => ?_⟩
    obtain ⟨node', hnode', hlog⟩ := exec_logged hm h e hok
    cases hnext.symm.trans hnode'
    have hno : ¬ Registers e.2 := by
      obtain ⟨lp, op⟩ := e
      have hcase := he.2
      cases op <;> first | exact hcase.elim | exact id
    exact ih hlog (fun lp => (exec_regs hno hnext).trans (hreg lp))
      fun x hx => hops x (List.mem_cons_of_mem _ hx)

theorem no_registrations (hm : Mapped processors nnodes) {ops : ℕ → List (ℕ × ContextOp)}
    {w v : ℕ → Node} (hops : ∀ q < nnodes, ∀ e ∈ ops q, ¬ Registers e.2)
    (hv : localPhase processors nnodes ops w = some v)
    (h : Skips processors nnodes (regsOf processors nnodes w)) (fresh : ℕ → ℕ → RegReq) :
    syncMemoryreg processors nnodes fresh (regsOf processors nnodes v) =
      some (regsOf processors nnodes v) := by
  refine syncMemoryreg_skips hm (ContextLive.skips_congr hm (fun g hg => ?_) h) fresh
  have hrun := (allBelow_eq_some hv).1 _ (nodeOf_lt hm hg)
  rw [regsOf, regsOf, mapper_node hm 0 hg, run_regs (hops _ (nodeOf_lt hm hg)) hrun]

def tagEvents (ops : List (ℕ × ContextOp)) : List (ℕ × ℕ) :=
  ops.filterMap fun e =>
    match e.2 with
    | .setTagsize tagNbytes => some (e.1, tagNbytes)
    | _ => none

theorem tagCalls_events (lp : ℕ) (ops : List (ℕ × ContextOp)) :
    tagCalls lp ops = (tagEvents ops).filterMap fun e => if e.1 = lp then some e.2 else none := by
  rw [tagCalls, tagEvents, List.filterMap_filterMap]
  congr 1
  funext e
  cases e.2 <;> rfl

theorem last_event {n : ℕ} (hn : 0 < n) {events : List (ℕ × ℕ)} (hlt : ∀ e ∈ events, e.1 < n)
    {sizes : List ℕ} (h : ∀ lp < n,
      (events.filterMap fun e => if e.1 = lp then some e.2 else none) = sizes) :
    (events.map Prod.snd).getLast? = sizes.getLast? := by
  rcases List.eq_nil_or_concat events with rfl | ⟨rest, e, rfl⟩
  · rw [← h 0 hn]
    rfl
  · have he : e.1 < n := hlt e (by simp)
    rw [← h e.1 he]
    simp

theorem tagAfter_last (size : ℕ) (cs : List Call) :
    tagAfter size cs = (tagSizes cs).getLast?.getD size := by
  rw [tagAfter]
  generalize tagSizes cs = sizes
  induction sizes using List.reverseRecOn with
  | nil => rfl
  | append_singleton sizes s ih => simp

theorem logged_tags {rank : ℕ} {ops : List (ℕ × ContextOp)} {node node' : Node}
    (h : run (exec processors nnodes rank) ops node = some node') :
    tagSizes (nodeCalls processors nnodes rank (logOf processors nnodes rank ops node)) =
      (tagEvents ops).map fun e => toUInt32 e.2 := by
  rw [tagSizes, nodeCalls, List.filterMap_filterMap, tagEvents, List.map_filterMap, logOf]
  refine trace_filterMap (fun e node => ?_) h
  obtain ⟨lp, op⟩ := e
  cases op with
  | setTagsize => rfl
  | pushReg | popReg | getTag | move | hpmove | compute => rfl
  | send pid | hpsend pid =>
    by_cases hrank : nodeOf processors nnodes pid = rank <;> simp [emit, nodeCall, hrank]
  | put pid _ dst | hpput pid _ dst =>
    cases hbase : findBase (node.contexts lp) pid dst <;>
      by_cases hrank : nodeOf processors nnodes pid = rank <;> simp [emit, nodeCall, hbase, hrank]
  | get pid src | hpget pid src =>
    cases hbase : findBase (node.contexts lp) pid src <;>
      by_cases hrank : nodeOf processors nnodes pid = rank <;> simp [emit, nodeCall, hbase, hrank]

def SameTags (processors nnodes : ℕ) (tagSize : ℕ → ℕ) : Prop :=
  ∃ t, ∀ q < nnodes, 0 < contextsOn processors nnodes q → tagSize q = t

variable {tagSize : ℕ → ℕ} {ops : ℕ → List (ℕ × ContextOp)} {w : ℕ → Node}

theorem localPhase_spec (h : NodesReady processors nnodes tagSize (fun _ => []) w)
    (ha : ∀ q < nnodes,
      Along (exec processors nnodes q) (Admitted processors nnodes q) (ops q) (w q)) :
    ∃ v, localPhase processors nnodes ops w = some v ∧
      NodesReady processors nnodes tagSize (logsAt processors nnodes ops w) v ∧
      ∀ q < nnodes, run (exec processors nnodes q) (ops q) (w q) = some (v q) ∧
        ∀ c ∈ logsAt processors nnodes ops w q, Sound processors nnodes q (tagSize q) c := by
  have hrun := fun (q : ℕ) (hq : q < nnodes) => run_sound h.mapped (ha q hq) (h.logged q hq)
  obtain ⟨v, hv⟩ := allBelow_defined w fun q hq => (hrun q hq).imp fun _ h => h.1
  have hvq := (allBelow_eq_some hv).1
  have hnode : ∀ q < nnodes,
      NodeLogged processors nnodes q (tagSize q) (logsAt processors nnodes ops w q) (v q) ∧
      ∀ c ∈ logsAt processors nnodes ops w q, Sound processors nnodes q (tagSize q) c := by
    intro q hq
    obtain ⟨node, hnode, hlog, hsound⟩ := hrun q hq
    cases hnode.symm.trans (hvq q hq)
    exact ⟨hlog, hsound⟩
  exact ⟨v, hv, ⟨h.mapped, fun q hq => (hnode q hq).1⟩, fun q hq => ⟨hvq q hq, (hnode q hq).2⟩⟩

theorem sameTags_after (h : NodesReady processors nnodes tagSize (fun _ => []) w)
    (ha : Admissible processors nnodes ops w) (hs : SameTags processors nnodes tagSize) :
    SameTags processors nnodes (tagsAfter processors nnodes ops w tagSize) := by
  obtain ⟨t, ht⟩ := hs
  obtain ⟨sizes, hsizes⟩ := ha.tags
  obtain ⟨v, -, -, hv⟩ := localPhase_spec h ha.admitted
  refine ⟨(sizes.map toUInt32).getLast?.getD t, fun q hq hpos => ?_⟩
  have hrun := (hv q hq).1
  have hlt : ∀ e ∈ tagEvents (ops q), e.1 < contextsOn processors nnodes q := by
    intro e he
    obtain ⟨op, hop, heq⟩ := List.mem_filterMap.mp he
    obtain ⟨node, hok⟩ := along_mem (ha.admitted q hq) hrun hop
    have hfst : e.1 = op.1 := by
      cases h2 : op.2 <;> simp [h2] at heq
      rw [← heq]
    rw [hfst]
    exact hok.1
  have hlast := last_event hpos hlt fun lp hlp => by rw [← tagCalls_events, hsizes q hq lp hlp]
  rw [tagsAfter, tagAfter_last, logsAt, logged_tags hrun, ht q hq hpos]
  have hmap : ((tagEvents (ops q)).map fun e => toUInt32 e.2) =
      ((tagEvents (ops q)).map Prod.snd).map toUInt32 := by simp
  rw [hmap, List.getLast?_map, hlast, List.getLast?_map]

theorem mem_arrivals {logs : ℕ → List (ℕ × ContextCall)} {q : ℕ} {e : ℕ × Message}
    (he : e ∈ arrivals processors nnodes logs q) : ∃ p < nnodes, ∃ c ∈ logs p,
      (∃ pid, c.2 = .send pid e.2 ∧ nodeOf processors nnodes pid = q ∧
        nodeOf processors nnodes pid ≠ p ∧ e.1 = localOf processors nnodes pid) ∨
      ∃ pid tag payload nbytes, c.2 = .hpsend pid tag payload nbytes e.2 ∧ pid = q ∧
        nodeOf processors nnodes pid ≠ p ∧ e.1 = localOf processors nnodes pid := by
  obtain ⟨p, hp, hep⟩ := List.mem_flatMap.mp he
  obtain ⟨c, hc, hcall⟩ := List.mem_filterMap.mp hep
  refine ⟨p, List.mem_range.mp hp, c, hc, ?_⟩
  obtain ⟨lp, call⟩ := c
  cases call with
  | send pid m =>
    simp only [arrival, Option.ite_none_left_eq_some, Option.ite_none_right_eq_some,
      Option.some.injEq] at hcall
    obtain ⟨hne, hq, rfl⟩ := hcall
    exact .inl ⟨pid, rfl, hq, hne, rfl⟩
  | hpsend pid tag payload nbytes m =>
    simp only [arrival, Option.ite_none_left_eq_some, Option.ite_none_right_eq_some,
      Option.some.injEq] at hcall
    obtain ⟨hne, hq, rfl⟩ := hcall
    exact .inr ⟨pid, tag, payload, nbytes, rfl, hq, hne, rfl⟩
  | put | get | setTagsize => cases hcall

theorem tagsFit (hs : SameTags processors nnodes tagSize) {logs : ℕ → List (ℕ × ContextCall)}
    (hsound : ∀ p < nnodes, ∀ c ∈ logs p, Sound processors nnodes p (tagSize p) c) {q : ℕ}
    (hq : q < nnodes) : TagsFit processors nnodes tagSize logs q := by
  obtain ⟨t, ht⟩ := hs
  intro e he hpos
  obtain ⟨p, hp, c, hc, hcall⟩ := mem_arrivals he
  obtain ⟨hlp, hok⟩ := hsound p hp c hc
  have htag : e.2.tag.length = tagSize p := by
    rcases hcall with ⟨pid, hcall, -⟩ | ⟨pid, tag, payload, nbytes, hcall, -⟩
    · rw [hcall] at hok
      exact hok.2
    · rw [hcall] at hok
      exact hok.2.1
  rw [htag, ht p hp (Nat.zero_lt_of_lt hlp), ht q hq hpos]

theorem synced_ready {logs : ℕ → List (ℕ × ContextCall)} {v w' : ℕ → Node}
    (hm : Mapped processors nnodes)
    (h : ∀ q < nnodes, NodeSynced processors nnodes tagSize logs v q (w' q)) :
    NodesReady processors nnodes
      (fun q => tagAfter (tagSize q) (nodeCalls processors nnodes q (logs q)))
        (fun _ => []) w' := by
  refine ⟨hm, fun q hq => ⟨(h q hq).logged, fun lp hlp => ?_⟩⟩
  obtain ⟨new, hpend, -⟩ := (h q hq).queues lp hlp
  exact ⟨_, hpend⟩

variable (hm : Mapped processors nnodes) (hp : processors ≤ 2 ^ 31)

include hp

theorem superstep_synced (h : NodesReady processors nnodes tagSize (fun _ => []) w)
    (ht : SameTags processors nnodes tagSize) (ha : Admissible processors nnodes ops w)
    {fresh : ℕ → ℕ → RegReq} {w' : ℕ → Node}
    (hs : superstep processors nnodes fresh ops w = some w') :
    ∃ v, localPhase processors nnodes ops w = some v ∧
      bspSync processors nnodes v fresh = some w' ∧
      (∀ q < nnodes, TargetsExist processors nnodes (logsAt processors nnodes ops w) q) ∧
      ∀ q < nnodes,
        NodeSynced processors nnodes tagSize (logsAt processors nnodes ops w) v q (w' q) := by
  obtain ⟨v, hv, hready, hrun⟩ := localPhase_spec h ha.admitted
  rw [superstep, hv, Option.bind_some] at hs
  have hfit := fun (q : ℕ) (hq : q < nnodes) =>
    tagsFit ht (fun p hp => (hrun p hp).2) (q := q) hq
  obtain ⟨⟨regs, hregs⟩, htargets⟩ := bspSync_targets hready hp hfit hs
  obtain ⟨w'', hw'', hsync⟩ := bspSync_spec hready hp hfit htargets hregs
  cases hw''.symm.trans hs
  exact ⟨v, hv, hs, htargets, fun q hq => (hsync q hq).1⟩

include hm

theorem reachable_ready (hr : Reachable processors nnodes tagSize w) :
    NodesReady processors nnodes tagSize (fun _ => []) w ∧ SameTags processors nnodes tagSize := by
  induction hr with
  | init x => exact ⟨init_ready processors nnodes hm x, 0, fun _ _ _ => rfl⟩
  | step hr ha hs ih =>
    obtain ⟨hready, htags⟩ := ih
    obtain ⟨v, -, -, -, hsync⟩ := superstep_synced hp hready htags ha hs
    exact ⟨synced_ready hm hsync, sameTags_after hready ha htags⟩

end Runs

end BspOnMpi.ContextProgram
