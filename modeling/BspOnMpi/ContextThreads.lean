import BspOnMpi.ContextProgram
import BspOnMpi.Lib.Footprints

/-! The contexts of a node in parallel. The runner makes a task of every context of a node. A call
of a context is here what the source has: statements outside of `TSLOCK`, then statements under
the lock. Local puts, local gets and local unbuffered copies take no lock at all. -/

namespace BspOnMpi.ContextThreads
open Lib Exptable Slots Delivtable DelivPush Memreg Reqtable Machine Calls Mapper ContextMemreg
  LocalDelivery Contexts
open Bspx hiding exec

/-- The node and, for every context, the variable `pointer` of its current call. -/
structure Shared where
  node : Node
  pointer : ℕ → ℕ

inductive Action
  | fail
  | localPut (src dst nbytes : ℕ)
  | localGet (src dst nbytes : ℕ)
  | memcpy (dst src nbytes : ℕ)
  | compute (f : Mem → Mem)
  | pushPut (column dst nbytes : ℕ)
  | pushSend (column payloadNbytes : ℕ)
  | pushRequest (column src : ℕ) (offset : ℤ) (dst nbytes : ℕ)
  | copyPut (src nbytes : ℕ)
  | writePid (target : ℕ)
  | copyTag (tag : ℕ)
  | copyPayload (payload nbytes : ℕ)
  | localSend (target tag payload nbytes : ℕ)
  | localHpsend (target tag payload nbytes : ℕ)
  | setTagsize (tagNbytes : ℕ)
  | getTag (tag : ℕ)
  | move (target nbytes : ℕ)
  | advance
  | pushReg (ident nbytes : ℕ)
  | popReg (ident : ℕ)

namespace Shared

def onNode (s : Shared) (node : Node) : Shared := { s with node := node }

def push (s : Shared) (lp : ℕ) (r : DeliveryTable × ℕ) : Shared :=
  { node := s.node.onBsp { s.node.proc.bsp with deliveryTable := r.1 }
    pointer := Function.update s.pointer lp r.2 }

def write (s : Shared) (lp offset : ℕ) (bytes : List UInt8) : Shared :=
  let t := s.node.proc.bsp.deliveryTable
  let d := storeBytes t.data (8 * s.pointer lp + offset) bytes
  s.onNode (s.node.onBsp { s.node.proc.bsp with deliveryTable := { t with data := d } })

end Shared

def onTop (q : LocalDeliveryQueue) (s : Shared) : Option Shared :=
  if 0 < q.bsmpQsize then some s else none

def apply (lp : ℕ) (a : Action) (s : Shared) : Option Shared :=
  let node := s.node
  let p := node.proc
  let c := node.contexts lp
  let q := c.localDeliveries
  let sendTagSize := p.bsp.messageQueue.sendTagSize
  match a with
  | .fail => none
  | .localPut src dst nbytes =>
    some (s.onNode (node.onQueue lp fun q => q.put (load p.mem src nbytes) dst))
  | .localGet src dst nbytes => some (s.onNode (node.onQueue lp fun q => q.hpput src dst nbytes))
  | .memcpy dst src nbytes => some (s.onNode (node.onMem (store p.mem dst (load p.mem src nbytes))))
  | .compute f => some (s.onNode (node.onMem (f p.mem)))
  | .pushPut column dst nbytes =>
    let element : DelivElement := { size := toUInt32 nbytes, next := p.stack, info := .put dst }
    some (s.push lp (deliveryTablePush p.bsp.deliveryTable column element .put))
  | .pushSend column payloadNbytes =>
    let element : DelivElement :=
      { size := toUInt32 (toUInt32 payloadNbytes + sendTagSize + 4)
        next := p.stack
        info := .send (toUInt32 (toUInt32 payloadNbytes + 4)) }
    if column < p.bsp.deliveryTable.nprocs then
      some (s.push lp (deliveryTablePush p.bsp.deliveryTable column element .send))
    else none
  | .pushRequest column src offset dst nbytes =>
    some (s.onNode (node.onBsp (remoteGet p column src offset dst nbytes)))
  | .copyPut src nbytes => some (s.write lp 0 (load p.mem src nbytes))
  | .writePid target => some (s.write lp sendTagSize (intBytes target))
  | .copyTag tag => some (s.write lp 0 (load p.mem tag sendTagSize))
  | .copyPayload payload nbytes => some (s.write lp (4 + sendTagSize) (load p.mem payload nbytes))
  | .localSend target tag payload nbytes =>
    some (s.onNode (node.onQueue target fun q =>
      q.send (load p.mem tag sendTagSize) (load p.mem payload nbytes)))
  | .localHpsend target tag payload nbytes =>
    some (s.onNode (node.onQueue target fun q => q.hpsend (.memory tag) (.memory payload) nbytes))
  | .setTagsize tagNbytes => some (s.onNode (node.onBsp (bspxSetTagsize p.bsp p.stack tagNbytes).1))
  | .getTag tag => onTop q (s.onNode (node.onMem (bspGetTag p q tag).2))
  | .move target nbytes =>
    if nbytes ≤ q.bsmpTopSize then
      onTop q (s.onNode (node.onMem
        (store p.mem target (readFrom p q.messageMoveBuffer q.bsmpTopMessage nbytes))))
    else none
  | .advance => some (s.onNode (node.onQueue lp LocalDeliveryQueue.bsmpAdvance))
  | .pushReg ident nbytes => (bspPushReg c.reg ident nbytes).map fun reg =>
    s.onNode (node.onReg lp reg)
  | .popReg ident => (bspPopReg c.reg ident).map fun reg => s.onNode (node.onReg lp reg)

def withBase (base : Option ℕ) (f : ℕ → List (Instr Action)) : List (Instr Action) :=
  match base with
  | none => [.free .fail]
  | some base => f base

section Code

variable (processors nnodes rank : ℕ)

/-- The statements of a call. Which they are is decided from what only the context itself
changes: its register, and whether its message queue is empty. -/
def code (lp : ℕ) (op : ContextOp) (s : Shared) : List (Instr Action) :=
  let c := s.node.contexts lp
  let mapper := taskMapper processors nnodes rank
  let here := fun pid => s.node.proc.bsp.rank = mapper.globalToNode pid
  match op with
  | .pushReg ident nbytes => critical [.pushReg ident nbytes]
  | .popReg ident => critical [.popReg ident]
  | .put pid src dst offset nbytes =>
    withBase (findBase c pid dst) fun base =>
      if here pid then [.free (.localPut src (addOffset base offset) nbytes)]
      else critical [.pushPut (mapper.globalToNode pid) (addOffset base offset) nbytes,
        .copyPut src nbytes]
  | .hpput pid src dst offset nbytes =>
    withBase (findBase c pid dst) fun base =>
      if here pid then [.free (.memcpy (addOffset base offset) src nbytes)]
      else critical [.pushPut (mapper.globalToNode pid) (addOffset base offset) nbytes,
        .copyPut src nbytes]
  | .get pid src offset dst nbytes =>
    withBase (findBase c pid src) fun base =>
      if here pid then [.free (.localGet (addOffset base offset) dst nbytes)]
      else critical [.pushRequest (mapper.globalToNode pid) base offset dst nbytes]
  | .hpget pid src offset dst nbytes =>
    withBase (findBase c pid src) fun base =>
      if here pid then [.free (.memcpy dst (addOffset base offset) nbytes)]
      else critical [.pushRequest (mapper.globalToNode pid) base offset dst nbytes]
  | .send pid tag payload payloadNbytes =>
    let target := mapper.globalToLocal pid
    if here pid then critical [.localSend target tag payload payloadNbytes]
    else critical [.pushSend (mapper.globalToNode pid) payloadNbytes, .writePid target,
      .copyTag tag, .copyPayload payload payloadNbytes]
  | .hpsend pid tag payload payloadNbytes =>
    let target := mapper.globalToLocal pid
    if here pid then critical [.localHpsend target tag payload payloadNbytes]
    else critical [.pushSend pid payloadNbytes, .writePid target, .copyTag tag,
      .copyPayload payload payloadNbytes]
  | .setTagsize tagNbytes => critical [.setTagsize tagNbytes]
  | .getTag tag => if 0 < c.localDeliveries.bsmpQsize then critical [.getTag tag] else []
  | .move target nbytes =>
    if 0 < c.localDeliveries.bsmpQsize then critical [.move target nbytes, .advance] else []
  | .hpmove => if 0 < c.localDeliveries.bsmpQsize then critical [.advance] else []
  | .compute f => [.free (.compute f)]

theorem code_guarded (lp : ℕ) (op : ContextOp) (s : Shared) :
    Guarded (code processors nnodes rank lp op s) := by
  cases op with
  | pushReg | popReg | setTagsize => exact guarded_critical _
  | compute => exact guarded_free _
  | put | hpput | get | hpget =>
    simp only [code]
    unfold withBase
    split
    · exact guarded_free _
    · split
      · exact guarded_free _
      · exact guarded_critical _
  | send | hpsend =>
    simp only [code]
    split <;> exact guarded_critical _
  | getTag | move | hpmove =>
    simp only [code]
    split
    · exact guarded_critical _
    · exact guarded_nil

end Code

section Atomic

variable {processors nnodes rank : ℕ}

theorem run_withBase (base : Option ℕ) (f : ℕ → List (Instr Action)) (lp : ℕ) (s : Shared) :
    run (Instr.effect (apply lp)) (withBase base f) s =
      base.bind fun b => run (Instr.effect (apply lp)) (f b) s := by
  cases base with
  | none => exact run_free _ _ _
  | some b => rfl

theorem put_statements (lp column dst src nbytes : ℕ) (s : Shared) :
    (run (apply lp) [.pushPut column dst nbytes, .copyPut src nbytes] s).map Shared.node =
      some (s.node.onBsp
        (remotePut s.node.proc column dst (load s.node.proc.mem src nbytes) nbytes)) := by
  simp [run, apply, remotePut, pushPayload, Shared.write, Shared.push, Shared.onNode, Node.onBsp]

theorem send_statements (lp column target tag payload nbytes : ℕ) (s : Shared) :
    (run (apply lp)
      [.pushSend column nbytes, .writePid target, .copyTag tag, .copyPayload payload nbytes]
        s).map Shared.node =
      (remoteSend s.node.proc column target
        (load s.node.proc.mem tag s.node.proc.bsp.messageQueue.sendTagSize)
        (load s.node.proc.mem payload nbytes) nbytes).map s.node.onBsp := by
  by_cases h : column < s.node.proc.bsp.deliveryTable.nprocs
  · simp [run, apply, remoteSend, Shared.write, Shared.push, Shared.onNode, Node.onBsp, h,
      Nat.add_assoc]
  · simp [run, apply, remoteSend, h]

/-- A call that is not interrupted is the operation of the context. -/
theorem atomically_exec (e : ℕ × ContextOp) (s : Shared) :
    (atomically apply (code processors nnodes rank) e s).map Shared.node =
      exec processors nnodes rank e s.node := by
  obtain ⟨lp, op⟩ := e
  rw [atomically]
  cases op with
  | pushReg ident nbytes =>
    rw [code, run_critical]
    simp only [run, apply, exec]
    cases bspPushReg (s.node.contexts lp).reg ident nbytes <;> rfl
  | popReg ident =>
    rw [code, run_critical]
    simp only [run, apply, exec]
    cases bspPopReg (s.node.contexts lp).reg ident <;> rfl
  | put pid src dst offset nbytes =>
    simp only [code, exec, run_withBase]
    cases findBase (s.node.contexts lp) pid dst with
    | none => rfl
    | some base =>
      simp only [Option.bind_some, Option.map_some]
      split
      · rw [run_free]
        rfl
      · rw [run_critical, put_statements]
  | hpput pid src dst offset nbytes =>
    simp only [code, exec, run_withBase]
    cases findBase (s.node.contexts lp) pid dst with
    | none => rfl
    | some base =>
      simp only [Option.bind_some, Option.map_some]
      split
      · rw [run_free]
        rfl
      · rw [run_critical, put_statements]
  | get pid src | hpget pid src =>
    simp only [code, exec, run_withBase]
    cases findBase (s.node.contexts lp) pid src with
    | none => rfl
    | some base =>
      simp only [Option.bind_some, Option.map_some]
      split
      · rw [run_free]
        rfl
      · rw [run_critical]
        rfl
  | send | hpsend =>
    simp only [code, exec]
    split
    · rw [run_critical]
      rfl
    · rw [run_critical, send_statements]
  | setTagsize | compute => rfl
  | getTag tag =>
    simp only [code, exec, bspGetTag]
    split
    · rename_i hq
      rw [run_critical]
      simp [run, apply, onTop, bspGetTag, hq, Shared.onNode]
    · rfl
  | move target nbytes =>
    simp only [code, exec, bspMove]
    split
    · rename_i hq
      rw [run_critical]
      by_cases hle : nbytes ≤ (s.node.contexts lp).localDeliveries.bsmpTopSize
      · simp only [run, apply, onTop, if_pos hq, if_pos hle]
        rfl
      · simp only [run, apply, if_neg hle]
        rfl
    · simp [run, Node.onMem, Node.onQueue]
  | hpmove =>
    simp only [code, exec, bspHpmove]
    split
    · rename_i hq
      rw [run_critical]
      simp [run, apply, Node.onQueue, Shared.onNode, hq]
    · rename_i hq
      simp [run, Node.onQueue, hq]

theorem exec_of_atomically {e : ℕ × ContextOp} {s s' : Shared}
    (h : atomically apply (code processors nnodes rank) e s = some s') :
    exec processors nnodes rank e s.node = some s'.node := by
  rw [← atomically_exec, h]
  rfl

end Atomic

inductive Loc
  | byte (address : ℕ)
  | tables
  | register (lp : ℕ)
  | puts (lp : ℕ)
  | sent (lp : ℕ)
  | received (lp : ℕ)
  | pointer (lp : ℕ)

inductive Value
  | byte (b : UInt8)
  | tables (bsp : BSPObject) (stack : ℕ)
  | register (reg : ContextReg)
  | puts (puts : HeaderQueue BufferedLocalMemoryDelivery) (putBuffer : MessageBuffer)
    (hpputs : HeaderQueue LocalMemoryDelivery)
  | messages (queue : HeaderQueue BSMessage) (buffer : MessageBuffer) (bytes : ℕ)
  | pointer (word : ℕ)

def view (l : Loc) (s : Shared) : Value :=
  let q := fun lp => (s.node.contexts lp).localDeliveries
  match l with
  | .byte a => .byte (s.node.proc.mem a)
  | .tables => .tables s.node.proc.bsp s.node.proc.stack
  | .register lp => .register (s.node.contexts lp).reg
  | .puts lp => .puts (q lp).puts (q lp).putBuffer (q lp).hpputs
  | .sent lp => .messages (q lp).messageSendQueue (q lp).messageSendBuffer (q lp).bytesSent
  | .received lp => .messages (q lp).messageMoveQueue (q lp).messageMoveBuffer (q lp).bytesToMove
  | .pointer lp => .pointer (s.pointer lp)

theorem view_ext (s t : Shared) (h : ∀ l, view l s = view l t) : s = t := by
  obtain ⟨⟨⟨bsp, mem, stack⟩, contexts⟩, pointer⟩ := s
  obtain ⟨⟨⟨bsp', mem', stack'⟩, contexts'⟩, pointer'⟩ := t
  obtain ⟨rfl, rfl⟩ := Value.tables.inj (h .tables)
  obtain rfl : mem = mem' := funext fun a => Value.byte.inj (h (.byte a))
  obtain rfl : pointer = pointer' := funext fun lp => Value.pointer.inj (h (.pointer lp))
  obtain rfl : contexts = contexts' := by
    funext lp
    have hreg := h (.register lp)
    have hputs := h (.puts lp)
    have hsent := h (.sent lp)
    have hreceived := h (.received lp)
    simp only [view] at hreg hputs hsent hreceived
    cases hc : contexts lp with
    | mk reg q =>
      cases hc' : contexts' lp with
      | mk reg' q' =>
        cases q
        cases q'
        simp_all
  rfl

structure Regions where
  reads : ℕ → ℕ → Prop
  writes : ℕ → ℕ → Prop
  apart : ∀ {p q a}, p ≠ q → writes p a → ¬(reads q a ∨ writes q a)

namespace Regions

variable (r : Regions) (lp : ℕ)

def MayRead (a nbytes : ℕ) : Prop := ∀ i < nbytes, r.reads lp (a + i) ∨ r.writes lp (a + i)

def MayWrite (a nbytes : ℕ) : Prop := ∀ i < nbytes, r.writes lp (a + i)

structure Within (f : Mem → Mem) : Prop where
  frame : ∀ m a, ¬r.writes lp a → f m a = m a
  determined : ∀ m m', (∀ a, r.reads lp a ∨ r.writes lp a → m' a = m a) →
    ∀ a, r.writes lp a → f m' a = f m a

end Regions

section Confined

variable (processors nnodes rank : ℕ) (r : Regions) (node : Node)

def Readable : Prop :=
  ∀ lp, let q := (node.contexts lp).localDeliveries.messageMoveQueue
    ∀ k, q.start ≤ k → k < q.tbl.usedSlotCount 0 →
      match q.tbl.data k with
      | .buffered .. => True
      | .unbuffered tag src nbytes =>
        (∀ a, tag = .memory a → r.MayRead lp a node.proc.bsp.messageQueue.recvTagSize) ∧
          ∀ a, src = .memory a → r.MayRead lp a nbytes

/-- An operation of context `lp` keeps to the regions; `node` is the node at the start of
the superstep. -/
def Confined (lp : ℕ) (op : ContextOp) : Prop :=
  let mapper := taskMapper processors nnodes rank
  let here := fun pid => node.proc.bsp.rank = mapper.globalToNode pid
  let sendTagSize := node.proc.bsp.messageQueue.sendTagSize
  match op with
  | .put _ src _ _ nbytes => r.MayRead lp src nbytes
  | .hpput pid src dst offset nbytes => r.MayRead lp src nbytes ∧
    (here pid → ∀ base, findBase (node.contexts lp) pid dst = some base →
      r.MayWrite lp (addOffset base offset) nbytes)
  | .hpget pid src offset dst nbytes =>
    here pid → r.MayWrite lp dst nbytes ∧ ∀ base, findBase (node.contexts lp) pid src = some base →
      r.MayRead lp (addOffset base offset) nbytes
  | .send _ tag payload nbytes => r.MayRead lp tag sendTagSize ∧ r.MayRead lp payload nbytes
  | .hpsend pid tag payload nbytes =>
    ¬here pid → r.MayRead lp tag sendTagSize ∧ r.MayRead lp payload nbytes
  | .getTag tag => r.MayWrite lp tag node.proc.bsp.messageQueue.recvTagSize
  | .move target nbytes => r.MayWrite lp target nbytes
  | .compute f => r.Within lp f
  | .get .. | .pushReg .. | .popReg .. | .setTagsize .. | .hpmove => True

def Keeps (lp : ℕ) : Instr Action → Prop
  | .free (.localPut src _ nbytes) | .held (.copyPut src nbytes) |
    .held (.copyPayload src nbytes) =>
    r.MayRead lp src nbytes
  | .free (.memcpy dst src nbytes) => r.MayWrite lp dst nbytes ∧ r.MayRead lp src nbytes
  | .free (.compute f) => r.Within lp f
  | .held (.copyTag tag) => r.MayRead lp tag node.proc.bsp.messageQueue.sendTagSize
  | .held (.localSend _ tag payload nbytes) =>
    r.MayRead lp tag node.proc.bsp.messageQueue.sendTagSize ∧ r.MayRead lp payload nbytes
  | .held (.getTag tag) => r.MayWrite lp tag node.proc.bsp.messageQueue.recvTagSize
  | .held (.move target nbytes) => r.MayWrite lp target nbytes
  | .free .fail | .free (.localGet ..) | .acquire | .release | .held (.pushPut ..) |
    .held (.pushSend ..) | .held (.pushRequest ..) | .held (.writePid ..) |
    .held (.localHpsend ..) | .held (.setTagsize ..) | .held .advance | .held (.pushReg ..) |
    .held (.popReg ..) => True
  | _ => False

/-- What no statement of a superstep changes. -/
structure Unchanged (s : Shared) : Prop where
  rank : s.node.proc.bsp.rank = node.proc.bsp.rank
  messageQueue : s.node.proc.bsp.messageQueue = node.proc.bsp.messageQueue
  register : ∀ lp, (s.node.contexts lp).reg.memoryRegister = (node.contexts lp).reg.memoryRegister
  pid : ∀ lp, (s.node.contexts lp).reg.globalPid = (node.contexts lp).reg.globalPid
  received : ∀ lp, (s.node.contexts lp).localDeliveries.messageMoveQueue.tbl =
    (node.contexts lp).localDeliveries.messageMoveQueue.tbl
  start : ∀ lp, (node.contexts lp).localDeliveries.messageMoveQueue.start ≤
    (s.node.contexts lp).localDeliveries.messageMoveQueue.start

end Confined

def reads (r : Regions) (lp : ℕ) : Loc → Prop
  | .byte a => r.reads lp a
  | _ => False

/-- Outside the lock: the own memory and the own puts. -/
def freeWrites (r : Regions) (lp : ℕ) : Loc → Prop
  | .byte a => r.writes lp a
  | .puts q => q = lp
  | _ => False

/-- Under the lock: the tables and the messages sent to anybody, but nobody's puts. -/
def heldWrites (r : Regions) (lp : ℕ) : Loc → Prop
  | .byte a => r.writes lp a
  | .tables | .sent _ => True
  | .register q | .received q | .pointer q => q = lp
  | .puts _ => False

section Footprints

variable {r : Regions} {node : Node} {lp : ℕ} {s t : Shared}

def SameMemory (r : Regions) (lp : ℕ) (s t : Shared) : Prop :=
  ∀ a, r.reads lp a ∨ r.writes lp a → t.node.proc.mem a = s.node.proc.mem a

theorem load_agree (h : SameMemory r lp s t) {a nbytes : ℕ} (hr : r.MayRead lp a nbytes) :
    load t.node.proc.mem a nbytes = load s.node.proc.mem a nbytes :=
  load_congr fun i hi => h _ (hr i hi)

theorem store_frame {a : ℕ} {bytes : List UInt8} (hw : r.MayWrite lp a bytes.length) (m : Mem)
    {x : ℕ}
    (hx : ¬r.writes lp x) : store m a bytes x = m x := by
  apply store_of_outside
  by_contra hin
  have hwx := hw (x - a) (by omega)
  rw [show a + (x - a) = x by omega] at hwx
  exact hx hwx

theorem sameMemory_free (h : Agree view (reads r lp) (freeWrites r lp) s t) : SameMemory r lp s t :=
  fun a ha => Value.byte.inj (h (.byte a) ha)

theorem sameMemory_held (h : Agree view (reads r lp) (heldWrites r lp) s t) : SameMemory r lp s t :=
  fun a ha => Value.byte.inj (h (.byte a) ha)

theorem onQueue_other (f : LocalDeliveryQueue → LocalDeliveryQueue) {p q : ℕ} (h : q ≠ p) :
    (s.onNode (s.node.onQueue p f)).node.contexts q = s.node.contexts q :=
  Function.update_of_ne h _ _

theorem onQueue_self (f : LocalDeliveryQueue → LocalDeliveryQueue) (p : ℕ) :
    (s.onNode (s.node.onQueue p f)).node.contexts p =
      { s.node.contexts p with localDeliveries := f (s.node.contexts p).localDeliveries } :=
  Function.update_self _ _ _

theorem puts_footprint (f : Shared → LocalDeliveryQueue → LocalDeliveryQueue)
    (hrest : ∀ s q, (f s q).messageSendQueue = q.messageSendQueue ∧
      (f s q).messageSendBuffer = q.messageSendBuffer ∧ (f s q).bytesSent = q.bytesSent ∧
      (f s q).messageMoveQueue = q.messageMoveQueue ∧ (f s q).messageMoveBuffer =
        q.messageMoveBuffer ∧
      (f s q).bytesToMove = q.bytesToMove)
    (hputs : ∀ s t q q', SameMemory r lp s t → q'.puts = q.puts → q'.putBuffer = q.putBuffer →
      q'.hpputs = q.hpputs → (f t q').puts = (f s q).puts ∧ (f t q').putBuffer = (f s q).putBuffer ∧
        (f t q').hpputs = (f s q).hpputs) :
    Footprint view (Unchanged node) (fun s => some (s.onNode (s.node.onQueue lp (f s))))
      (reads r lp) (freeWrites r lp) := by
  refine footprint_total (fun s _ l hl => ?_) fun s t _ _ h l hl => ?_
  · cases l with
    | byte | tables | pointer => rfl
    | puts q => simp only [view, onQueue_other _ hl]
    | register q | sent q | received q =>
      by_cases hq : q = lp
      · subst hq
        simp only [view, onQueue_self, hrest]
      · simp only [view, onQueue_other _ hq]
  · cases l with
    | byte a => exact h (.byte a) (.inr hl)
    | puts q =>
      cases hl
      have hq := h (.puts lp) (.inr rfl)
      simp only [view, Value.puts.injEq] at hq
      obtain ⟨h₁, h₂, h₃⟩ := hputs s t _ _ (sameMemory_free h) hq.1 hq.2.1 hq.2.2
      simp only [view, onQueue_self, h₁, h₂, h₃]
    | tables | register | sent | received | pointer => exact hl.elim

theorem mem_footprint {I : Shared → Prop} {w : Loc → Prop} (hw : ∀ a, w (.byte a) ↔ r.writes lp a)
    (f : Shared → Mem) (hframe : ∀ s, I s → ∀ a, ¬r.writes lp a → f s a = s.node.proc.mem a)
    (hdet : ∀ s t, I s → I t → Agree view (reads r lp) w s t → ∀ a, r.writes lp a → f t a = f s a) :
    Footprint view I (fun s => some (s.onNode (s.node.onMem (f s)))) (reads r lp) w := by
  refine footprint_total (fun s hs l hl => ?_) fun s t hs ht h l hl => ?_
  · cases l with
    | byte a => exact congrArg Value.byte (hframe s hs a fun ha => hl ((hw a).mpr ha))
    | tables | register | puts | sent | received | pointer => rfl
  · cases l with
    | byte a => exact congrArg Value.byte (hdet s t hs ht h a ((hw a).mp hl))
    | tables | register | puts | sent | received | pointer => exact h _ (.inr hl)

theorem free_footprint {a : Action} (ha : Keeps r node lp (.free a)) :
    Footprint view (Unchanged node) (apply lp a) (reads r lp) (freeWrites r lp) := by
  cases a with
  | fail => exact footprint_none
  | localPut src dst nbytes =>
    refine puts_footprint (fun s q => q.put (load s.node.proc.mem src nbytes) dst)
      (fun _ _ => ⟨rfl, rfl, rfl, rfl, rfl, rfl⟩) fun s t q q' h h₁ h₂ h₃ => ?_
    simp only [LocalDeliveryQueue.put, load_agree h ha, h₁, h₂, h₃, and_self]
  | localGet src dst nbytes =>
    refine puts_footprint (fun s q => q.hpput src dst nbytes)
      (fun _ _ => ⟨rfl, rfl, rfl, rfl, rfl, rfl⟩) fun s t q q' h h₁ h₂ h₃ => ?_
    simp only [LocalDeliveryQueue.hpput, h₁, h₂, h₃, and_self]
  | memcpy dst src nbytes =>
    refine mem_footprint (fun _ => Iff.rfl)
      (fun s => store s.node.proc.mem dst (load s.node.proc.mem src nbytes))
      (fun s _ x hx => store_frame (by rw [load_length]; exact ha.1) _ hx) fun s t _ _ h x hx => ?_
    have hmem := sameMemory_free h
    rw [load_agree hmem ha.2, store, store, hmem x (.inr hx)]
  | compute f =>
    exact mem_footprint (fun _ => Iff.rfl) (fun s => f s.node.proc.mem)
      (fun s _ x hx => ha.frame _ x hx)
      fun s t _ _ h x hx => ha.determined _ _ (sameMemory_free h) x hx
  | _ => exact ha.elim

section Held

variable (h : Agree view (reads r lp) (heldWrites r lp) s t)

include h

theorem tables_agree : t.node.proc.bsp = s.node.proc.bsp ∧ t.node.proc.stack = s.node.proc.stack :=
  Value.tables.inj (h .tables (.inr trivial))

theorem pointer_agree : t.pointer lp = s.pointer lp :=
  Value.pointer.inj (h (.pointer lp) (.inr rfl))

theorem register_agree : (t.node.contexts lp).reg = (s.node.contexts lp).reg :=
  Value.register.inj (h (.register lp) (.inr rfl))

theorem received_agree : (t.node.contexts lp).localDeliveries.messageMoveQueue =
      (s.node.contexts lp).localDeliveries.messageMoveQueue ∧
    (t.node.contexts lp).localDeliveries.messageMoveBuffer =
      (s.node.contexts lp).localDeliveries.messageMoveBuffer ∧
    (t.node.contexts lp).localDeliveries.bytesToMove =
      (s.node.contexts lp).localDeliveries.bytesToMove :=
  Value.messages.inj (h (.received lp) (.inr rfl))

end Held

structure SameHeld (r : Regions) (lp : ℕ) (s t : Shared) : Prop where
  memory : SameMemory r lp s t
  bsp : t.node.proc.bsp = s.node.proc.bsp
  stack : t.node.proc.stack = s.node.proc.stack
  pointer : t.pointer lp = s.pointer lp

theorem sameHeld (h : Agree view (reads r lp) (heldWrites r lp) s t) : SameHeld r lp s t :=
  ⟨sameMemory_held h, (tables_agree h).1, (tables_agree h).2, pointer_agree h⟩

theorem push_footprint {I : Shared → Prop} (f : Shared → DeliveryTable × ℕ)
    (hdet : ∀ s t, SameHeld r lp s t → f t = f s) :
    Footprint view I (fun s => some (s.push lp (f s))) (reads r lp) (heldWrites r lp) := by
  refine footprint_total (fun s _ l hl => ?_) fun s t _ _ h l hl => ?_
  · cases l with
    | tables => exact absurd trivial hl
    | pointer q => simp only [view, Shared.push, Function.update_of_ne hl]
    | byte | register | puts | sent | received => rfl
  · have hs := sameHeld h
    cases l with
    | tables => simp only [view, Shared.push, Node.onBsp, hdet s t hs, hs.bsp, hs.stack]
    | pointer q =>
      cases hl
      simp only [view, Shared.push, Function.update_self, hdet s t hs]
    | byte | register | puts | sent | received => exact h _ (.inr hl)

theorem bsp_footprint {I : Shared → Prop} (f : Shared → BSPObject)
    (hdet : ∀ s t, I s → SameHeld r lp s t → f t = f s) :
    Footprint view I (fun s => some (s.onNode (s.node.onBsp (f s)))) (reads r lp)
      (heldWrites r lp) := by
  refine footprint_total (fun s _ l hl => ?_) fun s t hIs _ h l hl => ?_
  · cases l with
    | tables => exact absurd trivial hl
    | byte | register | puts | sent | received | pointer => rfl
  · have hs := sameHeld h
    cases l with
    | tables => simp only [view, Shared.onNode, Node.onBsp, hdet s t hIs hs, hs.stack]
    | byte | register | puts | sent | received | pointer => exact h _ (.inr hl)

theorem write_footprint {I : Shared → Prop} (offset : Shared → ℕ) (bytes : Shared → List UInt8)
    (hdet : ∀ s t, I s → SameHeld r lp s t → offset t = offset s ∧ bytes t = bytes s) :
    Footprint view I (fun s => some (s.write lp (offset s) (bytes s))) (reads r lp)
      (heldWrites r lp) := by
  refine bsp_footprint (fun s => { s.node.proc.bsp with
    deliveryTable := { s.node.proc.bsp.deliveryTable with
      data := storeBytes s.node.proc.bsp.deliveryTable.data (8 * s.pointer lp + offset s)
        (bytes s) } })
    fun s t hs h => ?_
  obtain ⟨hoffset, hbytes⟩ := hdet s t hs h
  simp only [h.bsp, h.pointer, hoffset, hbytes]

theorem sent_footprint {I : Shared → Prop} (target : ℕ)
    (f : Shared → LocalDeliveryQueue → LocalDeliveryQueue)
    (hrest : ∀ s q, (f s q).puts = q.puts ∧ (f s q).putBuffer = q.putBuffer ∧
      (f s q).hpputs = q.hpputs ∧ (f s q).messageMoveQueue = q.messageMoveQueue ∧
      (f s q).messageMoveBuffer = q.messageMoveBuffer ∧ (f s q).bytesToMove = q.bytesToMove)
    (hsent : ∀ s t q q', I s → SameHeld r lp s t → q'.messageSendQueue = q.messageSendQueue →
      q'.messageSendBuffer = q.messageSendBuffer → q'.bytesSent = q.bytesSent →
      (f t q').messageSendQueue = (f s q).messageSendQueue ∧
        (f t q').messageSendBuffer = (f s q).messageSendBuffer ∧
        (f t q').bytesSent = (f s q).bytesSent) :
    Footprint view I (fun s => some (s.onNode (s.node.onQueue target (f s)))) (reads r lp)
      (heldWrites r lp) := by
  refine footprint_total (fun s _ l hl => ?_) fun s t hs _ h l hl => ?_
  · cases l with
    | byte | tables | pointer => rfl
    | sent q => exact absurd trivial hl
    | register q | puts q | received q =>
      by_cases hq : q = target
      · subst hq
        simp only [view, onQueue_self, hrest]
      · simp only [view, onQueue_other _ hq]
  · have hview := h l (.inr hl)
    cases l with
    | byte | tables | pointer => exact hview
    | puts => exact hl.elim
    | sent q =>
      by_cases hq : q = target
      · subst hq
        simp only [view, Value.messages.injEq] at hview
        obtain ⟨h₁, h₂, h₃⟩ := hsent s t _ _ hs (sameHeld h) hview.1 hview.2.1 hview.2.2
        simp only [view, onQueue_self, h₁, h₂, h₃]
      · simp only [view, onQueue_other _ hq] at hview ⊢
        exact hview
    | register q | received q =>
      by_cases hq : q = target
      · subst hq
        simp only [view, onQueue_self, hrest] at hview ⊢
        exact hview
      · simp only [view, onQueue_other _ hq] at hview ⊢
        exact hview

theorem advance_footprint {I : Shared → Prop} : Footprint view I
    (fun s => some (s.onNode (s.node.onQueue lp LocalDeliveryQueue.bsmpAdvance))) (reads r lp)
    (heldWrites r lp) := by
  have hrest : ∀ q : LocalDeliveryQueue, q.bsmpAdvance.puts = q.puts ∧
      q.bsmpAdvance.putBuffer = q.putBuffer ∧ q.bsmpAdvance.hpputs = q.hpputs ∧
      q.bsmpAdvance.messageSendQueue = q.messageSendQueue ∧
      q.bsmpAdvance.messageSendBuffer = q.messageSendBuffer ∧
      q.bsmpAdvance.bytesSent = q.bytesSent := by
    intro q
    unfold LocalDeliveryQueue.bsmpAdvance
    split <;> exact ⟨rfl, rfl, rfl, rfl, rfl, rfl⟩
  refine footprint_total (fun s _ l hl => ?_) fun s t _ _ h l hl => ?_
  · cases l with
    | byte | tables | pointer => rfl
    | sent q => exact absurd trivial hl
    | received q => simp only [view, onQueue_other _ hl]
    | register q | puts q =>
      by_cases hq : q = lp
      · subst hq
        simp only [view, onQueue_self, hrest]
      · simp only [view, onQueue_other _ hq]
  · have hview := h l (.inr hl)
    cases l with
    | byte | tables | pointer => exact hview
    | puts => exact hl.elim
    | received q =>
      cases hl
      obtain ⟨h₁, h₂, h₃⟩ := received_agree h
      have hadvance : ∀ q q' : LocalDeliveryQueue, q'.messageMoveQueue = q.messageMoveQueue →
          q'.messageMoveBuffer = q.messageMoveBuffer → q'.bytesToMove = q.bytesToMove →
          q'.bsmpAdvance.messageMoveQueue = q.bsmpAdvance.messageMoveQueue ∧
            q'.bsmpAdvance.messageMoveBuffer = q.bsmpAdvance.messageMoveBuffer ∧
            q'.bsmpAdvance.bytesToMove = q.bsmpAdvance.bytesToMove := by
        intro q q' h₁ h₂ h₃
        simp only [LocalDeliveryQueue.bsmpAdvance, h₁]
        split <;> simp [h₁, h₂, h₃]
      obtain ⟨e₁, e₂, e₃⟩ := hadvance _ _ h₁ h₂ h₃
      simp only [view, onQueue_self, e₁, e₂, e₃]
    | register q | sent q =>
      by_cases hq : q = lp
      · subst hq
        simp only [view, onQueue_self, hrest] at hview ⊢
        exact hview
      · simp only [view, onQueue_other _ hq] at hview ⊢
        exact hview

theorem register_footprint {I : Shared → Prop} (f : ContextReg → Option ContextReg) :
    Footprint view I
      (fun s => (f (s.node.contexts lp).reg).map fun reg => s.onNode (s.node.onReg lp reg))
      (reads r lp) (heldWrites r lp) := by
  have hother : ∀ (s : Shared) (reg : ContextReg) {q : ℕ}, q ≠ lp →
      (s.onNode (s.node.onReg lp reg)).node.contexts q = s.node.contexts q :=
    fun _ _ _ hq => Function.update_of_ne hq _ _
  have hself : ∀ (s : Shared) (reg : ContextReg),
      (s.onNode (s.node.onReg lp reg)).node.contexts lp = { s.node.contexts lp with reg := reg } :=
    fun _ _ => Function.update_self _ _ _
  constructor
  · intro s s' _ hs l hl
    obtain ⟨reg, -, rfl⟩ := Option.map_eq_some_iff.mp hs
    cases l with
    | byte | tables | pointer => rfl
    | register q => simp only [view, hother s reg hl]
    | puts q | sent q | received q =>
      by_cases hq : q = lp
      · subst hq
        simp only [view, hself]
      · simp only [view, hother s reg hq]
  · intro s t s' _ _ h hs
    obtain ⟨reg, hreg, rfl⟩ := Option.map_eq_some_iff.mp hs
    refine ⟨_, by rw [register_agree h, hreg]; rfl, fun l hl => ?_⟩
    have hview := h l (.inr hl)
    cases l with
    | byte | tables | pointer => exact hview
    | puts => exact hl.elim
    | register q =>
      cases hl
      simp only [view, hself]
    | sent q | received q =>
      by_cases hq : q = lp
      · subst hq
        simp only [view, hself] at hview ⊢
        exact hview
      · simp only [view, hother _ reg hq] at hview ⊢
        exact hview

theorem readFrom_length (p : Proc) (b : MessageBuffer) (place : ℕ ⊕ Pointer) (nbytes : ℕ) :
    (readFrom p b place nbytes).length = nbytes := by
  rcases place with offset | ⟨address⟩ | ⟨byte⟩ <;> exact load_length _ _ _

theorem readFrom_agree (h : SameHeld r lp s t) (b : MessageBuffer) {place : ℕ ⊕ Pointer}
    {nbytes : ℕ}
    (hr : ∀ a, place = .inr (.memory a) → r.MayRead lp a nbytes) :
    readFrom t.node.proc b place nbytes = readFrom s.node.proc b place nbytes := by
  rcases place with offset | ⟨address⟩ | ⟨byte⟩
  · rfl
  · exact load_agree h.memory (hr address rfl)
  · simp only [readFrom, readPointer, h.bsp]

theorem top_readable (hread : Readable r node) (hs : Unchanged node s)
    (hq : 0 < (s.node.contexts lp).localDeliveries.bsmpQsize) :
    (∀ a, (s.node.contexts lp).localDeliveries.bsmpTopTag = .inr (.memory a) →
      r.MayRead lp a s.node.proc.bsp.messageQueue.recvTagSize) ∧
    ∀ a, (s.node.contexts lp).localDeliveries.bsmpTopMessage = .inr (.memory a) →
      r.MayRead lp a (s.node.contexts lp).localDeliveries.bsmpTopSize := by
  have htbl := hs.received lp
  have hlt : (s.node.contexts lp).localDeliveries.messageMoveQueue.start <
      (node.contexts lp).localDeliveries.messageMoveQueue.tbl.usedSlotCount 0 := by
    rw [LocalDeliveryQueue.bsmpQsize, HeaderQueue.qsize, htbl] at hq
    omega
  have hmsg := hread lp _ (hs.start lp) hlt
  simp only [LocalDeliveryQueue.bsmpTopTag, LocalDeliveryQueue.bsmpTopMessage,
    LocalDeliveryQueue.bsmpTopSize, HeaderQueue.head, htbl, hs.messageQueue]
  split at hmsg
  · rename_i heq
    simp [heq]
  · rename_i heq
    rw [heq]
    exact ⟨fun a ha => hmsg.1 a (Sum.inr.inj ha), fun a ha => hmsg.2 a (Sum.inr.inj ha)⟩

theorem receive_footprint {I : Shared → Prop} (target : ℕ) (bytes : Shared → List UInt8)
    (hlen : ∀ s, I s → r.MayWrite lp target (bytes s).length)
    (hdet : ∀ s t, I s → I t → Agree view (reads r lp) (heldWrites r lp) s t → bytes t = bytes s) :
    Footprint view I
      (fun s => some (s.onNode (s.node.onMem (store s.node.proc.mem target (bytes s)))))
      (reads r lp) (heldWrites r lp) := by
  refine mem_footprint (fun _ => Iff.rfl) (fun s => store s.node.proc.mem target (bytes s))
    (fun s hs x hx => store_frame (hlen s hs) _ hx) fun s t hs ht h x hx => ?_
  rw [hdet s t hs ht h, store, store, sameMemory_held h x (.inr hx)]

theorem qsize_agree (h : Agree view (reads r lp) (heldWrites r lp) s t)
    (hq : 0 < (s.node.contexts lp).localDeliveries.bsmpQsize) :
    0 < (t.node.contexts lp).localDeliveries.bsmpQsize := by
  rw [LocalDeliveryQueue.bsmpQsize] at hq ⊢
  rw [(received_agree h).1]
  exact hq

theorem getTag_footprint (hread : Readable r node) {tag : ℕ}
    (ha : r.MayWrite lp tag node.proc.bsp.messageQueue.recvTagSize) :
    Footprint view (Unchanged node) (apply lp (.getTag tag)) (reads r lp) (heldWrites r lp) := by
  let bytes := fun s : Shared => readFrom s.node.proc
    (s.node.contexts lp).localDeliveries.messageMoveBuffer
    (s.node.contexts lp).localDeliveries.bsmpTopTag s.node.proc.bsp.messageQueue.recvTagSize
  have hbody : Footprint view
      (fun s => Unchanged node s ∧ 0 < (s.node.contexts lp).localDeliveries.bsmpQsize)
      (fun s => some (s.onNode (s.node.onMem (store s.node.proc.mem tag (bytes s)))))
      (reads r lp) (heldWrites r lp) := by
    refine receive_footprint tag bytes (fun s hs => ?_) fun s t hs ht h => ?_
    · rw [readFrom_length, hs.1.messageQueue]
      exact ha
    · obtain ⟨hqueue, hbuffer, -⟩ := received_agree h
      have htop := (top_readable hread hs.1 hs.2).1
      simp only [bytes, hbuffer, LocalDeliveryQueue.bsmpTopTag, hqueue,
        (tables_agree h).1] at htop ⊢
      exact readFrom_agree (sameHeld h) _ htop
  have hguarded := footprint_guard (fun s t _ _ h => qsize_agree h) hbody
  refine hguarded.congr fun s => ?_
  simp only [apply, onTop, bspGetTag]
  split <;> rfl

theorem move_footprint (hread : Readable r node) {target nbytes : ℕ}
    (ha : r.MayWrite lp target nbytes) :
    Footprint view (Unchanged node) (apply lp (.move target nbytes)) (reads r lp)
      (heldWrites r lp) := by
  let bytes := fun s : Shared => readFrom s.node.proc
    (s.node.contexts lp).localDeliveries.messageMoveBuffer
    (s.node.contexts lp).localDeliveries.bsmpTopMessage nbytes
  have hbody : Footprint view (fun s => (Unchanged node s ∧
        nbytes ≤ (s.node.contexts lp).localDeliveries.bsmpTopSize) ∧
        0 < (s.node.contexts lp).localDeliveries.bsmpQsize)
      (fun s => some (s.onNode (s.node.onMem (store s.node.proc.mem target (bytes s)))))
      (reads r lp) (heldWrites r lp) := by
    refine receive_footprint target bytes (fun s _ => ?_) fun s t hs ht h => ?_
    · rw [readFrom_length]
      exact ha
    · obtain ⟨hqueue, hbuffer, -⟩ := received_agree h
      have htop := (top_readable hread hs.1.1 hs.2).2
      have hle := hs.1.2
      simp only [bytes, hbuffer, LocalDeliveryQueue.bsmpTopMessage, LocalDeliveryQueue.bsmpTopSize,
        hqueue] at htop hle ⊢
      exact readFrom_agree (sameHeld h) _ fun a ha' i hi => htop a ha' i (by omega)
  have hguarded := footprint_guard (fun s t _ _ h => qsize_agree h) hbody
  refine footprint_guard (fun s t _ _ h hle => ?_) hguarded
  rw [LocalDeliveryQueue.bsmpTopSize] at hle ⊢
  rw [(received_agree h).1]
  exact hle

theorem held_footprint (hread : Readable r node) {a : Action} (ha : Keeps r node lp (.held a)) :
    Footprint view (Unchanged node) (apply lp a) (reads r lp) (heldWrites r lp) := by
  have htag : ∀ {s t tag}, Unchanged node s → SameHeld r lp s t →
      r.MayRead lp tag node.proc.bsp.messageQueue.sendTagSize →
      load t.node.proc.mem tag t.node.proc.bsp.messageQueue.sendTagSize =
        load s.node.proc.mem tag s.node.proc.bsp.messageQueue.sendTagSize := by
    intro s t tag hs h hr
    rw [h.bsp, hs.messageQueue]
    exact load_agree h.memory hr
  cases a with
  | pushPut column dst nbytes =>
    refine push_footprint (fun s => deliveryTablePush s.node.proc.bsp.deliveryTable column
      { size := toUInt32 nbytes, next := s.node.proc.stack, info := .put dst } .put) fun s t h => ?_
    rw [h.bsp, h.stack]
  | pushSend column nbytes =>
    refine footprint_guard (fun s t _ _ h hc => ?_) (push_footprint
      (fun s => deliveryTablePush s.node.proc.bsp.deliveryTable column
        { size := toUInt32 (toUInt32 nbytes + s.node.proc.bsp.messageQueue.sendTagSize + 4)
          next := s.node.proc.stack
          info := .send (toUInt32 (toUInt32 nbytes + 4)) } .send) fun s t h => ?_)
    · rw [(tables_agree h).1]
      exact hc
    · rw [h.bsp, h.stack]
  | pushRequest column src offset dst nbytes =>
    refine bsp_footprint (fun s => remoteGet s.node.proc column src offset dst nbytes)
      fun s t _ h => ?_
    simp only [remoteGet, h.bsp]
  | copyPut src nbytes =>
    exact write_footprint (fun _ => 0) (fun s => load s.node.proc.mem src nbytes)
      fun s t _ h => ⟨rfl, load_agree h.memory ha⟩
  | writePid target =>
    refine write_footprint (fun s => s.node.proc.bsp.messageQueue.sendTagSize)
      (fun _ => intBytes target) fun s t _ h => ⟨?_, rfl⟩
    rw [h.bsp]
  | copyTag tag =>
    exact write_footprint (fun _ => 0)
      (fun s => load s.node.proc.mem tag s.node.proc.bsp.messageQueue.sendTagSize)
      fun s t hs h => ⟨rfl, htag hs h ha⟩
  | copyPayload payload nbytes =>
    refine write_footprint (fun s => 4 + s.node.proc.bsp.messageQueue.sendTagSize)
      (fun s => load s.node.proc.mem payload nbytes) fun s t _ h => ⟨?_, load_agree h.memory ha⟩
    rw [h.bsp]
  | localSend target tag payload nbytes =>
    refine sent_footprint target (fun s q =>
      q.send (load s.node.proc.mem tag s.node.proc.bsp.messageQueue.sendTagSize)
        (load s.node.proc.mem payload nbytes))
      (fun _ _ => ⟨rfl, rfl, rfl, rfl, rfl, rfl⟩) fun s t q q' hs h h₁ h₂ h₃ => ?_
    simp only [LocalDeliveryQueue.send, htag hs h ha.1, load_agree h.memory ha.2, h₁, h₂, h₃,
      and_self]
  | localHpsend target tag payload nbytes =>
    refine sent_footprint target (fun _ q => q.hpsend (.memory tag) (.memory payload) nbytes)
      (fun _ _ => ⟨rfl, rfl, rfl, rfl, rfl, rfl⟩) fun s t q q' _ _ h₁ h₂ h₃ => ?_
    simp only [LocalDeliveryQueue.hpsend, h₁, h₂, h₃, and_self]
  | setTagsize tagNbytes =>
    refine bsp_footprint (fun s => (bspxSetTagsize s.node.proc.bsp s.node.proc.stack tagNbytes).1)
      fun s t _ h => ?_
    rw [h.bsp, h.stack]
  | getTag tag => exact getTag_footprint hread ha
  | move target nbytes => exact move_footprint hread ha
  | advance => exact advance_footprint
  | pushReg ident nbytes => exact register_footprint fun c => bspPushReg c ident nbytes
  | popReg ident => exact register_footprint fun c => bspPopReg c ident
  | fail | localPut | localGet | memcpy | compute => exact ha.elim

end Footprints

section Unchanged

variable {node : Node} {lp : ℕ} {s s' : Shared}

theorem unchanged_onQueue (h : Unchanged node s) (p : ℕ)
    {f : LocalDeliveryQueue → LocalDeliveryQueue}
    (hf : ∀ q, (f q).messageMoveQueue.tbl = q.messageMoveQueue.tbl ∧
      q.messageMoveQueue.start ≤ (f q).messageMoveQueue.start) :
    Unchanged node (s.onNode (s.node.onQueue p f)) := by
  refine ⟨h.rank, h.messageQueue, fun q => ?_, fun q => ?_, fun q => ?_, fun q => ?_⟩
  all_goals
    by_cases hq : q = p
    · subst hq
      rw [onQueue_self]
      first
        | exact h.register q
        | exact h.pid q
        | exact (hf _).1.trans (h.received q)
        | exact (h.start q).trans (hf _).2
    · rw [onQueue_other _ hq]
      first
        | exact h.register q
        | exact h.pid q
        | exact h.received q
        | exact h.start q

theorem unchanged_onReg (h : Unchanged node s) {reg : ContextReg}
    (hreg : reg.memoryRegister = (s.node.contexts lp).reg.memoryRegister)
    (hpid : reg.globalPid = (s.node.contexts lp).reg.globalPid) :
    Unchanged node (s.onNode (s.node.onReg lp reg)) := by
  have hother : ∀ {q : ℕ}, q ≠ lp →
      (s.onNode (s.node.onReg lp reg)).node.contexts q = s.node.contexts q :=
    fun hq => Function.update_of_ne hq _ _
  have hself : (s.onNode (s.node.onReg lp reg)).node.contexts lp =
      { s.node.contexts lp with reg := reg } :=
    Function.update_self _ _ _
  refine ⟨h.rank, h.messageQueue, fun q => ?_, fun q => ?_, fun q => ?_, fun q => ?_⟩
  all_goals
    by_cases hq : q = lp
    · subst hq
      rw [hself]
      first
        | exact hreg.trans (h.register q)
        | exact hpid.trans (h.pid q)
        | exact h.received q
        | exact h.start q
    · rw [hother hq]
      first
        | exact h.register q
        | exact h.pid q
        | exact h.received q
        | exact h.start q

theorem unchanged_tables (h : Unchanged node s)
    (hrank : s'.node.proc.bsp.rank = s.node.proc.bsp.rank)
    (hqueue : s'.node.proc.bsp.messageQueue = s.node.proc.bsp.messageQueue)
    (hcontexts : s'.node.contexts = s.node.contexts) : Unchanged node s' := by
  refine ⟨hrank.trans h.rank, hqueue.trans h.messageQueue, ?_, ?_, ?_, ?_⟩ <;> rw [hcontexts]
  · exact h.register
  · exact h.pid
  · exact h.received
  · exact h.start

theorem apply_unchanged {a : Action} (h : Unchanged node s) (hs : apply lp a s = some s') :
    Unchanged node s' := by
  cases a with
  | fail => cases hs
  | localPut | localGet | localSend | localHpsend =>
    cases hs
    exact unchanged_onQueue h _ fun _ => ⟨rfl, le_rfl⟩
  | memcpy | compute | pushPut | pushRequest | copyPut | writePid | copyTag | copyPayload
  | setTagsize =>
    cases hs
    exact unchanged_tables h rfl rfl rfl
  | pushSend =>
    simp only [apply] at hs
    split at hs
    · cases hs
      exact unchanged_tables h rfl rfl rfl
    · cases hs
  | getTag =>
    simp only [apply, onTop] at hs
    split at hs
    · cases hs
      exact unchanged_tables h rfl rfl rfl
    · cases hs
  | move =>
    simp only [apply, onTop] at hs
    split at hs
    · split at hs
      · cases hs
        exact unchanged_tables h rfl rfl rfl
      · cases hs
    · cases hs
  | advance =>
    cases hs
    refine unchanged_onQueue h _ fun q => ?_
    unfold LocalDeliveryQueue.bsmpAdvance
    split
    · exact ⟨rfl, le_rfl⟩
    · exact ⟨rfl, Nat.le_succ _⟩
  | pushReg ident nbytes =>
    obtain ⟨reg, hreg, rfl⟩ := Option.map_eq_some_iff.mp hs
    rw [bspPushReg] at hreg
    split at hreg
    · cases hreg
      exact unchanged_onReg h rfl rfl
    · cases hreg
  | popReg ident =>
    obtain ⟨reg, hreg, rfl⟩ := Option.map_eq_some_iff.mp hs
    rw [bspPopReg] at hreg
    split at hreg
    · obtain ⟨e, -, rfl⟩ := Option.map_eq_some_iff.mp hreg
      exact unchanged_onReg h rfl rfl
    · cases hreg

end Unchanged

section Threads

variable {processors nnodes rank : ℕ} {r : Regions} {node : Node} {s s' : Shared}

theorem keeps_critical {lp : ℕ} {as : List Action} (h : ∀ a ∈ as, Keeps r node lp (.held a)) :
    ∀ i ∈ critical as, Keeps r node lp i := by
  intro i hi
  simp only [critical, List.mem_cons, List.mem_append, List.mem_map, List.not_mem_nil,
    or_false] at hi
  rcases hi with rfl | ⟨a, ha, rfl⟩ | rfl
  · trivial
  · exact h a ha
  · trivial

theorem keeps_free {lp : ℕ} {a : Action} (h : Keeps r node lp (.free a)) :
    ∀ i ∈ [.free a], Keeps r node lp i := by
  intro i hi
  rw [List.mem_singleton.mp hi]
  exact h

theorem keeps_withBase {lp : ℕ} {base : Option ℕ} {f : ℕ → List (Instr Action)}
    (h : ∀ b, base = some b → ∀ i ∈ f b, Keeps r node lp i) :
    ∀ i ∈ withBase base f, Keeps r node lp i := by
  cases base with
  | none => exact keeps_free trivial
  | some b => exact h b rfl

theorem keeps_put {lp column dst src nbytes : ℕ} (h : r.MayRead lp src nbytes) :
    ∀ i ∈ critical [.pushPut column dst nbytes, .copyPut src nbytes], Keeps r node lp i := by
  refine keeps_critical fun a ha => ?_
  simp only [List.mem_cons, List.not_mem_nil, or_false] at ha
  rcases ha with rfl | rfl
  · trivial
  · exact h

theorem keeps_send {lp column target tag payload nbytes : ℕ}
    (htag : r.MayRead lp tag node.proc.bsp.messageQueue.sendTagSize)
    (hpayload : r.MayRead lp payload nbytes) :
    ∀ i ∈ critical [.pushSend column nbytes, .writePid target, .copyTag tag,
      .copyPayload payload nbytes], Keeps r node lp i := by
  refine keeps_critical fun a ha => ?_
  simp only [List.mem_cons, List.not_mem_nil, or_false] at ha
  rcases ha with rfl | rfl | rfl | rfl
  · trivial
  · trivial
  · exact htag
  · exact hpayload

theorem keeps_single {lp : ℕ} {a : Action} (h : Keeps r node lp (.held a)) :
    ∀ i ∈ critical [a], Keeps r node lp i :=
  keeps_critical fun b hb => by rw [List.mem_singleton.mp hb]; exact h

theorem code_keeps {lp : ℕ} {op : ContextOp} (hop : Confined processors nnodes rank r node lp op)
    (hs : Unchanged node s) :
    ∀ i ∈ code processors nnodes rank lp op s, Keeps r node lp i := by
  have hfind : ∀ pid base, findBase (s.node.contexts lp) pid base =
      findBase (node.contexts lp) pid base := by
    intro pid base
    simp only [findBase, hs.register, hs.pid]
  cases op with
  | pushReg | popReg | setTagsize => exact keeps_single trivial
  | compute f => exact keeps_free hop
  | put pid src dst offset nbytes =>
    refine keeps_withBase fun base _ => ?_
    split
    · exact keeps_free hop
    · exact keeps_put hop
  | hpput pid src dst offset nbytes =>
    refine keeps_withBase fun base hbase => ?_
    rw [hfind] at hbase
    split
    · rename_i hhere
      rw [hs.rank] at hhere
      exact keeps_free ⟨hop.2 hhere base hbase, hop.1⟩
    · exact keeps_put hop.1
  | get pid src offset dst nbytes =>
    refine keeps_withBase fun base _ => ?_
    split
    · exact keeps_free trivial
    · exact keeps_single trivial
  | hpget pid src offset dst nbytes =>
    refine keeps_withBase fun base hbase => ?_
    rw [hfind] at hbase
    split
    · rename_i hhere
      rw [hs.rank] at hhere
      exact keeps_free ⟨(hop hhere).1, (hop hhere).2 base hbase⟩
    · exact keeps_single trivial
  | send pid tag payload nbytes =>
    simp only [code]
    split
    · exact keeps_single hop
    · exact keeps_send hop.1 hop.2
  | hpsend pid tag payload nbytes =>
    simp only [code]
    split
    · exact keeps_single trivial
    · rename_i hhere
      rw [hs.rank] at hhere
      exact keeps_send (hop hhere).1 (hop hhere).2
  | getTag tag =>
    simp only [code]
    split
    · exact keeps_single hop
    · exact fun _ hi => absurd hi List.not_mem_nil
  | move target nbytes =>
    simp only [code]
    split
    · refine keeps_critical fun a ha => ?_
      simp only [List.mem_cons, List.not_mem_nil, or_false] at ha
      rcases ha with rfl | rfl
      · exact hop
      · trivial
    · exact fun _ hi => absurd hi List.not_mem_nil
  | hpmove =>
    simp only [code]
    split
    · exact keeps_single trivial
    · exact fun _ hi => absurd hi List.not_mem_nil

theorem code_congr {lp : ℕ} (hrank : s'.node.proc.bsp.rank = s.node.proc.bsp.rank)
    (hreg : (s'.node.contexts lp).reg = (s.node.contexts lp).reg)
    (hqueue : (s'.node.contexts lp).localDeliveries.messageMoveQueue =
      (s.node.contexts lp).localDeliveries.messageMoveQueue) (op : ContextOp) :
    code processors nnodes rank lp op s' = code processors nnodes rank lp op s := by
  have hsize : (s'.node.contexts lp).localDeliveries.bsmpQsize =
      (s.node.contexts lp).localDeliveries.bsmpQsize := congrArg HeaderQueue.qsize hqueue
  cases op <;> simp only [code, findBase, hrank, hreg, hsize]

theorem free_apart {p q : ℕ} (hne : p ≠ q) (l : Loc) :
    (freeWrites r p l → ¬(reads r q l ∨ freeWrites r q l) ∧ ¬(reads r q l ∨ heldWrites r q l)) ∧
      (heldWrites r p l → ¬(reads r q l ∨ freeWrites r q l)) := by
  cases l with
  | byte a => exact ⟨fun h => ⟨r.apart hne h, r.apart hne h⟩, fun h => r.apart hne h⟩
  | puts x =>
    refine ⟨fun h => ⟨?_, ?_⟩, fun h => h.elim⟩
    · rintro (h' | h')
      · exact h'
      · exact hne (h.symm.trans h')
    · rintro (h' | h') <;> exact h'
  | tables | register | sent | received | pointer =>
    refine ⟨fun h => h.elim, fun _ => ?_⟩
    rintro (h' | h') <;> exact h'

theorem instr_effect {p : ℕ} {i : Instr Action} (hs : Unchanged node s)
    (h : i.effect (apply p) s = some s') : Unchanged node s' := by
  cases i with
  | free | held => exact apply_unchanged hs h
  | acquire | release =>
    cases h
    exact hs

theorem instr_view (hread : Readable r node) {q : ℕ} {i : Instr Action} (hi : Keeps r node q i)
    (hs : Unchanged node s) (h : i.effect (apply q) s = some s') {l : Loc}
    (hfree : ¬freeWrites r q l)
    (hheld : ¬heldWrites r q l) : view l s' = view l s := by
  cases i with
  | free a => exact (free_footprint hi).frame hs h l hfree
  | held a => exact (held_footprint hread hi).frame hs h l hheld
  | acquire | release =>
    cases h
    rfl

theorem contexts_disciplined (hread : Readable r node) :
    Disciplined apply (code processors nnodes rank) (Unchanged node) (Keeps r node)
      (Confined processors nnodes rank r node) where
  guarded := code_guarded processors nnodes rank
  admitted := fun hop hs => code_keeps hop hs
  keeps := fun _ hs h => instr_effect hs h
  stable := by
    intro p q c i s s' hne _ hi hs h
    have hreg := instr_view hread hi hs h (l := .register p) id hne
    have hreceived := instr_view hread hi hs h (l := .received p) id hne
    refine code_congr ?_ (Value.register.inj hreg) (Value.messages.inj hreceived).1 c
    rw [(instr_effect hs h).rank, hs.rank]
  swaps := by
    intro p q a i hne ha hi
    have hfree := free_footprint ha
    cases i with
    | acquire | release => exact swaps_skip (fun _ => rfl) |>.symm
    | free b =>
      have hb := free_footprint hi
      constructor
      · exact hfree.swaps view_ext hb (fun _ _ => apply_unchanged) (fun _ _ => apply_unchanged)
          (fun l h => ((free_apart hne l).1 h).1) fun l h => ((free_apart hne.symm l).1 h).1
      · exact hb.swaps view_ext hfree (fun _ _ => apply_unchanged) (fun _ _ => apply_unchanged)
          (fun l h => ((free_apart hne.symm l).1 h).1) fun l h => ((free_apart hne l).1 h).1
    | held b =>
      have hb := held_footprint hread hi
      constructor
      · exact hfree.swaps view_ext hb (fun _ _ => apply_unchanged) (fun _ _ => apply_unchanged)
          (fun l h => ((free_apart hne l).1 h).2) fun l h => (free_apart hne.symm l).2 h
      · exact hb.swaps view_ext hfree (fun _ _ => apply_unchanged) (fun _ _ => apply_unchanged)
          (fun l h => (free_apart hne.symm l).2 h) fun l h => ((free_apart hne l).1 h).2

theorem start_unchanged (node : Node) (pointer : ℕ → ℕ) :
    Unchanged node { node := node, pointer := pointer } :=
  ⟨rfl, rfl, fun _ => rfl, fun _ => rfl, fun _ => rfl, fun _ => le_rfl⟩

theorem run_exec {order : List (ℕ × ContextOp)}
    (h : run (atomically apply (code processors nnodes rank)) order s = some s') :
    run (exec processors nnodes rank) order s.node = some s'.node := by
  induction order generalizing s with
  | nil =>
    cases h
    rfl
  | cons e order ih =>
    obtain ⟨s₁, hs₁, hrest⟩ := Option.bind_eq_some_iff.mp h
    rw [run, exec_of_atomically hs₁]
    exact ih hrest

def tasks (node : Node) (pointer : ℕ → ℕ) (ops : ℕ → List ContextOp) :
    Threads Shared Action ContextOp :=
  startThreads { node := node, pointer := pointer } ops

/-- Every interleaving of the statements of the contexts ends like operations that are not
interrupted, in an order that keeps the order of each context; and the lock stops the
contexts never all at once. -/
theorem contexts_serialize {processors nnodes rank : ℕ} (r : Regions) {node : Node}
    {ops : ℕ → List ContextOp} (hread : Readable r node)
    (hops : ∀ lp, ∀ op ∈ ops lp, Confined processors nnodes rank r node lp op) (pointer : ℕ → ℕ)
    {ps : List ℕ} {t : Threads Shared Action ContextOp}
    (hrun : run (fireThread apply (code processors nnodes rank)) ps (tasks node pointer ops) =
      some t) :
    (Finished t → ∃ order : List (ℕ × ContextOp), (∀ lp, ofThread lp order = ops lp) ∧
      run (exec processors nnodes rank) order node = some t.shared.node) ∧
    (¬Finished t → ∃ lp, (fireThread apply (code processors nnodes rank) lp t).isSome ∨
      ∃ i is, t.rest lp = i :: is ∧ i.effect (apply lp) t.shared = none) := by
  refine ⟨fun hfin => ?_, unblocked (code_guarded processors nnodes rank) hrun⟩
  obtain ⟨order, horder, hatomic⟩ := serializable (contexts_disciplined hread)
    (start_unchanged node pointer) hops hrun hfin
  exact ⟨order, horder, run_exec hatomic⟩

end Threads

section Example

open ContextProgram

def hundreds : Regions :=
  { reads := fun lp a => a / 100 = lp
    writes := fun lp a => a / 100 = lp
    apart := fun hne hp hq => hne (hp.symm.trans (or_self_iff.mp hq)) }

def twoTasks : ℕ → List ContextOp
  | 0 => [.send 1 0 4 8]
  | 1 => [.compute fun mem => Function.update mem 100 7, .setTagsize 3]
  | _ => []

def sampleNode : Node := initNode 2 1 sampleStart 0

theorem twoTasks_confined (lp : ℕ) :
    ∀ op ∈ twoTasks lp, Confined 2 1 0 hundreds sampleNode lp op := by
  intro op hop
  match lp with
  | 0 =>
    rw [List.mem_singleton.mp hop]
    refine ⟨fun i hi => absurd hi (Nat.not_lt_zero i), fun i hi => .inl ?_⟩
    show (4 + i) / 100 = 0
    omega
  | 1 =>
    simp only [twoTasks, List.mem_cons, List.not_mem_nil, or_false] at hop
    rcases hop with rfl | rfl
    · refine ⟨fun m a ha => Function.update_of_ne ?_ _ _, fun m m' h a ha => ?_⟩
      · rintro rfl
        exact ha rfl
      · by_cases ha100 : a = 100
        · rw [ha100, Function.update_self, Function.update_self]
        · rw [Function.update_of_ne ha100, Function.update_of_ne ha100]
          exact h a (.inl ha)
    · trivial
  | lp + 2 => cases hop

/-- The second context computes while the first is inside its critical section. -/
theorem contexts_serialize_twoTasks : ∃ t,
    run (fireThread apply (code 2 1 0)) [0, 1, 0, 1, 0, 1, 0, 1, 1, 1]
        (tasks sampleNode (fun _ => 0) twoTasks) = some t ∧
      ∃ order : List (ℕ × ContextOp), (∀ lp, ofThread lp order = twoTasks lp) ∧
        run (exec 2 1 0) order sampleNode = some t.shared.node := by
  have hsome : (run (fireThread apply (code 2 1 0)) [0, 1, 0, 1, 0, 1, 0, 1, 1, 1]
      (tasks sampleNode (fun _ => 0) twoTasks)).isSome := by decide +kernel
  have hread : Readable hundreds sampleNode := fun lp k _ hk => absurd hk (Nat.not_lt_zero k)
  refine ⟨_, Option.some_get hsome |>.symm, (contexts_serialize hundreds hread twoTasks_confined _
    (Option.some_get hsome).symm).1 fun lp => ?_⟩
  match lp with
  | 0 => exact ⟨rfl, rfl⟩
  | 1 => exact ⟨rfl, rfl⟩
  | lp + 2 => exact ⟨rfl, rfl⟩

end Example

end BspOnMpi.ContextThreads
