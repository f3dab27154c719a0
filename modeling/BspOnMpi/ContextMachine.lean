import BspOnMpi.AbstractMachine
import BspOnMpi.ContextDrma
import BspOnMpi.ContextHpsend
import BspOnMpi.ContextThreads
import BspOnMpi.Lib.Choices
import BspOnMpi.Lib.Threads

/-! The machine that the contexts make up. Every context is a processor of the machine of the C
library, with a memory of its own. Nothing is left of the nodes: what the machine does not fix is
the order in which the messages of different senders arrive. A program is asked to keep to the
memory of its contexts, to register collectively, and not to read or write twice in a superstep
what a transfer writes. -/

namespace BspOnMpi.ContextMachine
open Lib Slots Memreg Machine Calls Mapper ContextMemreg ContextLive ContextRuns LocalDelivery
  Contexts
  ContextLog ContextSync ContextSuperstep
open Bspx hiding exec
open AbstractMachine (Processor Answer callsAt barrier)
open ContextBsmp (TagRead)
open ContextHpsend (SameMoves Alike alike_findBase remoteSend_frame)

def libraryOp : ContextOp → Op
  | .pushReg ident _ => .pushReg ident
  | .popReg ident => .popReg ident
  | .put pid src dst offset nbytes => .put pid src dst offset nbytes
  | .hpput pid src dst offset nbytes => .hpput pid src dst offset nbytes
  | .get pid src offset dst nbytes => .get pid src offset dst nbytes
  | .hpget pid src offset dst nbytes => .hpget pid src offset dst nbytes
  | .send pid tag payload nbytes | .hpsend pid tag payload nbytes => .send pid tag payload nbytes
  | .setTagsize tagNbytes => .setTagsize tagNbytes
  | .getTag tag => .getTag tag
  | .move target nbytes => .move target nbytes
  | .hpmove => .hpmove
  | .compute f => .compute f

def registration : ContextOp → Option RegOp
  | .pushReg ident nbytes => some (.push ident nbytes)
  | .popReg ident => some (.pop ident)
  | _ => none

def recipient : ContextOp → Option ℕ
  | .send pid .. | .hpsend pid .. => some pid
  | _ => none

def requests (cs : List Call) : ℕ := (pushes cs).length + (pops cs).length

def Range (own : ℕ → Prop) (a n : ℕ) : Prop := ∀ i < n, own (a + i)

structure Within (own : ℕ → Prop) (f : Mem → Mem) : Prop where
  frame : ∀ m a, ¬own a → f m a = m a
  determined : ∀ m m', (∀ a, own a → m' a = m a) → ∀ a, own a → f m' a = f m a

/-- Context `g` keeps to its memory and to the interface; unbuffered operations are left out. -/
def Keeps (own : ℕ → Prop) (g : ℕ) (op : ContextOp) (a : Processor) : Prop :=
  match op with
  | .pushReg ident _ => (∀ r ∈ a.rows, r g ≠ ident) ∧ requests a.calls + 1 < 2 ^ 27
  | .popReg ident => (∃ r ∈ a.rows, r g = ident) ∧ requests a.calls + 1 < 2 ^ 27
  | .put _ src _ _ nbytes => Range own src nbytes
  | .send _ tag payload nbytes =>
    Range own tag a.sendTagSize ∧ Range own payload nbytes ∧ nbytes + a.sendTagSize + 4 < 2 ^ 31
  | .getTag tag => Range own tag a.recvTagSize
  | .move target nbytes => Range own target nbytes ∧ ∀ m ∈ a.inbox.head?, nbytes ≤ m.payload.length
  | .compute f => Within own f
  | .get .. | .setTagsize _ | .hpmove => True
  | .hpput .. | .hpget .. | .hpsend .. => False

def answers (op : ContextOp) (a : Processor) : List Answer :=
  match op with
  | .setTagsize _ => [.tagSize a.sendTagSize]
  | .getTag _ => [.status (a.inbox.head?.map fun m => m.payload.length)]
  | .hpmove => [.message a.inbox.head?]
  | _ => []

def contextAnswers (e : ℕ × ContextOp) (node : Node) : List (ℕ × Answer) :=
  let p := node.proc
  let q := (node.contexts e.1).localDeliveries
  let read := readFrom p q.messageMoveBuffer
  let returned : List Answer :=
    match e.2 with
    | .setTagsize tagNbytes => [.tagSize (bspxSetTagsize p.bsp p.stack tagNbytes).2]
    | .getTag tag => [.status (bspGetTag p q tag).1]
    | .hpmove => [.message ((bspHpmove q).2.map fun (size, tag, message) =>
        ⟨read tag p.bsp.messageQueue.recvTagSize, read message size⟩)]
    | _ => []
  returned.map fun x => (e.1, x)

/-- Messages that arrive at processor `q`, those of every sender in the order of its calls. -/
def Arrives (n : ℕ) (cs : ℕ → List Call) (q : ℕ) (ms : List Message) : Prop :=
  ∃ tagged : List (ℕ × Message), tagged.map Prod.snd = ms ∧ (∀ e ∈ tagged, e.1 < n) ∧
    ∀ s < n, ofThread s tagged = sendsTo q (cs s)

structure Ensemble where
  live : List Live
  procs : ℕ → Processor

def written (p : ℕ) : Call → Option (ℕ × ℕ × ℕ)
  | .put pid dst bytes => some (pid, dst, bytes.length)
  | .get _ _ _ dst size => some (p, dst, size)
  | _ => none

def accessed : Call → Option (ℕ × ℕ × ℕ)
  | .get pid src offset _ size => some (pid, addOffset src offset, size)
  | _ => none

def Clear (r s : ℕ × ℕ × ℕ) : Prop := r.1 = s.1 → Apart r.2 s.2

section Superstep

variable (processors : ℕ) (owns : ℕ → ℕ → Prop)

def runOp (g : ℕ) (op : ContextOp) : Processor → Option Processor :=
  AbstractMachine.exec processors g (libraryOp op)

/-- Transfers stay within the memory of the contexts that they are between, and nobody reads
or writes what another transfer writes. -/
structure Transfers (w : ℕ → Processor) : Prop where
  within : ∀ p < processors, ∀ c ∈ (w p).calls, ∀ r, r ∈ written p c ∨ r ∈ accessed c →
    Range (owns r.1) r.2.1 r.2.2
  same : ∀ p < processors,
    (w p).calls.Pairwise fun c d => ∀ r ∈ written p c, ∀ s ∈ written p d, Clear r s
  other : ∀ p < processors, ∀ p' < processors, p ≠ p' → ∀ c ∈ (w p).calls, ∀ d ∈ (w p').calls,
    ∀ r ∈ written p c, ∀ s ∈ written p' d, Clear r s
  undisturbed : ∀ p < processors, ∀ p' < processors, ∀ c ∈ (w p).calls, ∀ d ∈ (w p').calls,
    ∀ r ∈ accessed c, ∀ s ∈ written p' d, Clear r s

/-- The contexts reach `w` on their own; their registrations `calls` and their tag sizes are
collective and leave `live'` in force. -/
structure Asked (ops : ℕ → List ContextOp) (m : Ensemble) (w : ℕ → Processor)
    (calls : List RegCall) (live' : List Live) : Prop where
  run : ∀ g < processors, run (runOp processors g) (ops g) (m.procs g) = some (w g)
  keeps : ∀ g < processors, Along (runOp processors g) (Keeps (owns g) g) (ops g) (m.procs g)
  registrations : ∀ g < processors, (ops g).filterMap registration = calls.map (RegCall.op g)
  legal : Legal processors m.live.length 0 m.live calls live'
  tags : ∀ g < processors, tagSizes (w g).calls = tagSizes (w 0).calls
  transfers : Transfers processors owns w

def machine : Chooser (ℕ → List ContextOp) Ensemble (List Answer) where
  asks ops m := ∃ w calls live', Asked processors owns ops m w calls live'
  next ops m m' := ∃ w calls, Asked processors owns ops m w calls m'.live ∧
    ∀ q < processors, ∃ ms, Arrives processors (callsAt w) q ms ∧
      m'.procs q = { barrier processors w q with inbox := ms }
  emits ops m := (List.range processors).map fun g =>
    trace (runOp processors g) answers (ops g) (m.procs g)

end Superstep

theorem runOp_frame {processors g : ℕ} {op : ContextOp} {a a' : Processor}
    (h : runOp processors g op a = some a') :
    a'.rows = a.rows ∧ a'.sendTagSize = a.sendTagSize ∧ a'.recvTagSize = a.recvTagSize := by
  simp only [runOp, libraryOp, AbstractMachine.exec] at h
  cases op with
  | pushReg | popReg | setTagsize | hpmove | compute =>
    cases h
    exact ⟨rfl, rfl, rfl⟩
  | put | hpput | get | hpget =>
    obtain ⟨-, h⟩ := Option.ite_none_right_eq_some.mp h
    obtain ⟨base, -, rfl⟩ := Option.map_eq_some_iff.mp h
    exact ⟨rfl, rfl, rfl⟩
  | send | hpsend =>
    obtain ⟨-, h⟩ := Option.ite_none_right_eq_some.mp h
    cases h
    exact ⟨rfl, rfl, rfl⟩
  | getTag =>
    dsimp only at h
    split at h
    · cases h
      exact ⟨rfl, rfl, rfl⟩
    · cases h
      exact ⟨rfl, rfl, rfl⟩
  | move =>
    dsimp only at h
    split at h
    · cases h
    · obtain ⟨-, h⟩ := Option.ite_none_right_eq_some.mp h
      cases h
      exact ⟨rfl, rfl, rfl⟩

def contextCall : Call → Option ContextCall
  | .put pid dst bytes => some (.put pid dst bytes)
  | .get pid src offset dst size => some (.get pid src offset dst size)
  | .send pid m => some (.send pid m)
  | .setTagsize size => some (.setTagsize size)
  | .pushReg _ | .popReg _ => none

def Waits (p : Proc) (q : LocalDeliveryQueue) (ms : List Message) : Prop :=
  ∃ moved, Mailbox q.messageMoveQueue q.messageMoveBuffer q.bytesToMove moved ∧
    (∀ mem, moved.map (resolve { p with mem := mem }) = ms) ∧ ∀ m ∈ moved, TagRead p m

/-- Context `g`, the one with local pid `lp` of its node, as a processor. -/
structure Hosted (processors : ℕ) (own : ℕ → Prop) (L : List Live) (g lp : ℕ) (node : Node)
    (a : Processor) : Prop where
  mem : ∀ x, own x → node.proc.mem x = a.mem x
  sendTagSize : a.sendTagSize = node.proc.bsp.messageQueue.sendTagSize
  recvTagSize : a.recvTagSize = node.proc.bsp.messageQueue.recvTagSize
  rows : a.rows = L.map Live.row
  reg : ContextInv processors g lp L (takeRequests (node.contexts lp).reg)
  requests : (node.contexts lp).reg.regRequests.length = requests a.calls
  few : ContextMachine.requests a.calls < 2 ^ 27
  inbox : Waits node.proc (node.contexts lp).localDeliveries a.inbox

structure Spares (own : ℕ → Prop) (l : ℕ) (node node' : Node) : Prop where
  mem : ∀ x, ¬own x → node'.proc.mem x = node.proc.mem x
  mesgq : node'.proc.bsp.messageQueue = node.proc.bsp.messageQueue
  received : node'.proc.bsp.deliveryReceivedTable = node.proc.bsp.deliveryReceivedTable
  reg : ∀ lp, lp ≠ l → (node'.contexts lp).reg = (node.contexts lp).reg
  moves : ∀ lp, lp ≠ l →
    SameMoves (node.contexts lp).localDeliveries (node'.contexts lp).localDeliveries

section Hosted

variable {processors : ℕ} {own own' : ℕ → Prop} {L : List Live} {g l lp : ℕ} {node node' : Node}
  {a : Processor}

theorem waits_congr {p p' : Proc} {c d : LocalDeliveryQueue} {ms : List Message}
    (hmesgq : p'.bsp.messageQueue = p.bsp.messageQueue)
    (hreceived : p'.bsp.deliveryReceivedTable = p.bsp.deliveryReceivedTable)
    (hmoves : SameMoves c d)
    (h : Waits p c ms) : Waits p' d ms := by
  obtain ⟨moved, hbox, hms, htags⟩ := h
  refine ⟨moved, ?_, fun mem => ?_, fun m hm => ?_⟩
  · rw [hmoves.queue, hmoves.buffer, hmoves.bytes]
    exact hbox
  · rw [← hms mem]
    have hresolve : resolve { p' with mem := mem } = resolve { p with mem := mem } := by
      refine resolve_congr rfl ?_ ?_
      · simp only [hreceived]
      · simp only [hmesgq]
    rw [hresolve]
  · have htag := htags m hm
    cases m with
    | copied m => rwa [TagRead, hmesgq]
    | pointed => trivial

theorem load_owned (h : Hosted processors own L g lp node a) {x n : ℕ} (hr : Range own x n) :
    load node.proc.mem x n = load a.mem x n :=
  load_congr fun i hi => h.mem _ (hr i hi)

theorem hosted_spared (h : Hosted processors own L g lp node a) (hs : Spares own' l node node')
    (hl : lp ≠ l) (hapart : ∀ x, own x → ¬own' x) : Hosted processors own L g lp node' a := by
  refine ⟨fun x hx => ?_, ?_, ?_, h.rows, ?_, ?_, h.few, ?_⟩
  · rw [hs.mem x (hapart x hx)]
    exact h.mem x hx
  · rw [hs.mesgq]
    exact h.sendTagSize
  · rw [hs.mesgq]
    exact h.recvTagSize
  · rw [hs.reg lp hl]
    exact h.reg
  · rw [hs.reg lp hl]
    exact h.requests
  · exact waits_congr hs.mesgq hs.received (hs.moves lp hl) h.inbox

theorem alike_spares (h : Alike node node') : Spares own l node node' :=
  ⟨fun x _ => congrFun h.mem x, h.mesgq, h.received, fun lp _ => h.reg lp, fun lp _ => h.moves lp⟩

theorem requests_append (cs ds : List Call) : requests (cs ++ ds) = requests cs + requests ds := by
  simp only [requests, pushes, pops, List.filterMap_append, List.length_append]
  omega

theorem hosted_queue (h : Hosted processors own L g lp node a) (hs : Alike node node') {call : Call}
    (hcall : requests [call] = 0) : Hosted processors own L g lp node' (a.queue call) := by
  have hcalls : requests (a.queue call).calls = requests a.calls := by
    rw [Processor.queue, requests_append, hcall, Nat.add_zero]
  refine ⟨fun x hx => ?_, ?_, ?_, h.rows, ?_, ?_, ?_, ?_⟩
  · rw [hs.mem]
    exact h.mem x hx
  · rw [hs.mesgq]
    exact h.sendTagSize
  · rw [hs.mesgq]
    exact h.recvTagSize
  · rw [hs.reg]
    exact h.reg
  · rw [hs.reg, hcalls]
    exact h.requests
  · rw [hcalls]
    exact h.few
  · exact waits_congr hs.mesgq hs.received (hs.moves lp) h.inbox

theorem hosted_find (h : Hosted processors own L g lp node a) (hg : g < processors) {pid : ℕ}
    (hpid : pid < processors) (base : ℕ) :
    findBase (node.contexts lp) pid base = a.translate g pid base := by
  have hreg := h.reg
  have hn : (node.contexts lp).reg.memoryRegister.nprocs = processors := hreg.processing.nprocs
  have hp : (node.contexts lp).reg.globalPid = g := hreg.processing.pid
  have hmarked : Marked (node.contexts lp).reg.memoryRegister (L.map Live.row) :=
    hreg.registered.marked
  have hlive : liveRows (node.contexts lp).reg.memoryRegister (L.map Live.row) = L.map Live.row :=
    registered_live hreg.registered
  rw [findBase, hp, find_spec hmarked (by omega) (by omega), hlive, Processor.translate, h.rows]

end Hosted

def Posts : ContextOp → Prop
  | .put .. | .get .. | .send .. | .setTagsize _ => True
  | _ => False

structure Stepped (processors nnodes q : ℕ) (own : ℕ → Prop) (L : List Live) (g l : ℕ)
    (op : ContextOp)
    (node node' : Node) (a a' : Processor) : Prop where
  spares : Spares own l node node'
  hosted : Hosted processors own L g l node' a'
  logged : ∃ new, a'.calls = a.calls ++ new ∧
    emit processors nnodes q (l, op) node = (new.filterMap contextCall).map fun c => (l, c)
  answers : contextAnswers (l, op) node = (answers op a).map fun x => (l, x)

section Step

variable {processors nnodes q : ℕ} {own : ℕ → Prop} {L : List Live} {g l : ℕ} {node node' : Node}
  {a a' : Processor} {op : ContextOp}

theorem alike_queued (node : Node) (lp : ℕ) {f : LocalDeliveryQueue → LocalDeliveryQueue}
    (hf : ∀ c, SameMoves c (f c)) : Alike node (node.onQueue lp f) := by
  refine ⟨rfl, rfl, rfl, rfl, rfl, fun l => ContextProgram.onQueue_reg .., fun l => ?_⟩
  by_cases hl : l = lp
  · subst hl
    simp only [Node.onQueue, Function.update_self]
    exact hf _
  · simp only [Node.onQueue, Function.update_of_ne hl]
    exact ⟨rfl, rfl, rfl⟩

theorem posts_alike (hop : Posts op)
    (h : Contexts.exec processors nnodes q (l, op) node = some node') :
    Alike node node' := by
  cases op with
  | put =>
    obtain ⟨base, -, rfl⟩ := Option.map_eq_some_iff.mp h
    dsimp only
    split
    · exact alike_queued _ _ fun c => ⟨rfl, rfl, rfl⟩
    · exact ⟨rfl, rfl, rfl, rfl, DelivPush.pushPayload_nprocs .., fun _ => rfl,
        fun _ => ⟨rfl, rfl, rfl⟩⟩
  | get =>
    obtain ⟨base, -, rfl⟩ := Option.map_eq_some_iff.mp h
    dsimp only
    split
    · exact alike_queued _ _ fun c => ⟨rfl, rfl, rfl⟩
    · exact ⟨rfl, rfl, rfl, rfl, rfl, fun _ => rfl, fun _ => ⟨rfl, rfl, rfl⟩⟩
  | send =>
    simp only [Contexts.exec] at h
    split at h
    · cases h
      exact alike_queued _ _ fun c => ⟨rfl, rfl, rfl⟩
    · obtain ⟨bsp, hbsp, rfl⟩ := Option.map_eq_some_iff.mp h
      obtain ⟨-, hrank, hmesgq, hreceived, hcolumns⟩ := remoteSend_frame hbsp
      exact ⟨rfl, hrank, hmesgq, hreceived, hcolumns, fun _ => rfl, fun _ => ⟨rfl, rfl, rfl⟩⟩
  | setTagsize =>
    cases h
    refine ⟨rfl, rfl, rfl, rfl, ?_, fun _ => rfl, fun _ => ⟨rfl, rfl, rfl⟩⟩
    simp only [Node.onBsp, bspxSetTagsize, DelivPush.delivPush_nprocs]
  | _ => exact hop.elim

theorem posts_call (hop : Posts op) (h : Hosted processors own L g l node a) (hg : g < processors)
    (hl : l < contextsOn processors nnodes q) (hk : Keeps own g op a)
    (hs : runOp processors g op a = some a') :
    ContextLog.Admitted processors nnodes q (l, op) node ∧ ∃ call c, a' = a.queue call ∧
      requests [call] = 0 ∧ contextCall call = some c ∧
      emit processors nnodes q (l, op) node = [(l, c)] := by
  cases op with
  | put pid src dst offset nbytes =>
    simp only [runOp, libraryOp, AbstractMachine.exec] at hs
    split at hs
    · rename_i hok
      obtain ⟨base, hbase, rfl⟩ := Option.map_eq_some_iff.mp hs
      rw [← hosted_find h hg hok.1] at hbase
      refine ⟨⟨hl, hok.1, hok.2, by rw [hbase]; exact Option.some_ne_none _⟩, _, _, rfl, rfl, rfl,
        ?_⟩
      simp only [emit, hbase, Option.toList_some, List.map_cons, List.map_nil, load_owned h hk]
    · cases hs
  | get pid src offset dst nbytes =>
    simp only [runOp, libraryOp, AbstractMachine.exec] at hs
    split at hs
    · rename_i hok
      obtain ⟨base, hbase, rfl⟩ := Option.map_eq_some_iff.mp hs
      rw [← hosted_find h hg hok.1] at hbase
      refine ⟨⟨hl, hok.1, hok.2.1, hok.2.2.1,
        hok.2.2.2, by rw [hbase]; exact Option.some_ne_none _⟩, _, _, rfl, rfl, rfl, ?_⟩
      simp only [emit, hbase, Option.toList_some, List.map_cons, List.map_nil]
    · cases hs
  | send pid tag payload nbytes =>
    obtain ⟨htag, hpayload, hsize⟩ := hk
    simp only [runOp, libraryOp, AbstractMachine.exec] at hs
    split at hs
    · rename_i hok
      cases hs
      refine ⟨⟨hl, hok.1, by rw [← h.sendTagSize]; exact hsize⟩, _, _, rfl, rfl, rfl, ?_⟩
      simp only [emit, ← h.sendTagSize, load_owned h htag, load_owned h hpayload]
    · cases hs
  | setTagsize tagNbytes =>
    cases hs
    exact ⟨⟨hl, trivial⟩, _, _, rfl, rfl, rfl, rfl⟩
  | _ => exact hop.elim

theorem posts_stepped (hop : Posts op) (h : Hosted processors own L g l node a)
    (hg : g < processors)
    (hl : l < contextsOn processors nnodes q) (hk : Keeps own g op a)
    (hs : runOp processors g op a = some a')
    (hnode : Contexts.exec processors nnodes q (l, op) node = some node') :
    Stepped processors nnodes q own L g l op node node' a a' := by
  obtain ⟨-, call, c, rfl, hcall, hlog, hemit⟩ := posts_call hop h hg hl hk hs
  have halike := posts_alike hop hnode
  refine ⟨alike_spares halike, hosted_queue h halike hcall, ⟨[call], rfl, ?_⟩, ?_⟩
  · rw [hemit]
    simp [hlog]
  · cases op with
    | setTagsize => exact congrArg (fun s => [(l, Answer.tagSize s)]) h.sendTagSize.symm
    | put | get | send => rfl
    | _ => exact hop.elim

theorem hosted_register (h : Hosted processors own L g l node a) {reg : ContextReg} (call : Call)
    (htake : takeRequests reg = takeRequests (node.contexts l).reg)
    (hlen : reg.regRequests.length = (node.contexts l).reg.regRequests.length + 1)
    (hcall : requests [call] = 1) (hfew : requests a.calls + 1 < 2 ^ 27) :
    Spares own l node (node.onReg l reg) ∧
      Hosted processors own L g l (node.onReg l reg) (a.queue call) := by
  have hcalls : requests (a.queue call).calls = requests a.calls + 1 := by
    rw [Processor.queue, requests_append, hcall]
  have hreg : ((node.onReg l reg).contexts l).reg = reg := by simp [Node.onReg]
  have hqueue : ∀ lp, ((node.onReg l reg).contexts lp).localDeliveries =
      (node.contexts lp).localDeliveries := by
    intro lp
    by_cases hl : lp = l
    · subst hl
      simp [Node.onReg]
    · simp [Node.onReg, hl]
  refine ⟨⟨fun _ _ => rfl, rfl, rfl, fun lp hl => by simp [Node.onReg, hl], fun lp _ => ?_⟩,
    ⟨h.mem, h.sendTagSize, h.recvTagSize, h.rows, ?_, ?_, ?_, ?_⟩⟩
  · rw [hqueue]
    exact ⟨rfl, rfl, rfl⟩
  · rw [hreg, htake]
    exact h.reg
  · rw [hreg, hlen, hcalls, h.requests]
  · rw [hcalls]
    exact hfew
  · rw [hqueue]
    exact h.inbox

theorem register_stepped (hop : (registration op).isSome) (h : Hosted processors own L g l node a)
    (hl : l < contextsOn processors nnodes q) (hk : Keeps own g op a)
    (hs : runOp processors g op a = some a') :
    ContextLog.Admitted processors nnodes q (l, op) node ∧
      ∀ node', Contexts.exec processors nnodes q (l, op) node = some node' →
        Stepped processors nnodes q own L g l op node node' a a' := by
  have hlen := h.requests
  have hmap : ∀ x, (node.contexts l).reg.memoryRegisterMap x =
      (L.find? fun r => r.row g = x).map Live.entry := h.reg.processing.map
  have hmax : maxRegisterReqs = 268435455 := rfl
  cases op with
  | pushReg ident nbytes =>
    obtain ⟨hnew, hfew⟩ := hk
    cases hs
    have hnone : (L.find? fun r => r.row g = ident) = none := by
      apply List.find?_eq_none.mpr
      intro r hr
      rw [h.rows] at hnew
      simpa using hnew r.row (List.mem_map_of_mem hr)
    have hok : ((node.contexts l).reg.memoryRegisterMap ident).isNone ∧
        (node.contexts l).reg.regRequests.length < maxRegisterReqs := by
      rw [hmap, hnone]
      exact ⟨rfl, by omega⟩
    have hpush : bspPushReg (node.contexts l).reg ident nbytes = some _ := if_pos hok
    have hsome : bspPushReg (node.contexts l).reg ident nbytes ≠ none := by
      rw [hpush]
      exact Option.some_ne_none _
    refine ⟨⟨hl, hsome⟩, fun node' hnode => ?_⟩
    simp only [Contexts.exec, hpush, Option.map_some, Option.some.injEq] at hnode
    have hboth : Spares own l node node' ∧
        Hosted processors own L g l node' (a.queue (.pushReg ident)) := by
      rw [← hnode]
      exact hosted_register h (.pushReg ident) rfl (List.length_append ..) rfl hfew
    exact ⟨hboth.1, hboth.2, ⟨[.pushReg ident], rfl, rfl⟩, rfl⟩
  | popReg ident =>
    obtain ⟨⟨r, hr, hrow⟩, hfew⟩ := hk
    cases hs
    rw [h.rows] at hr
    obtain ⟨m, hm, rfl⟩ := List.mem_map.mp hr
    obtain ⟨found, hfound⟩ := Option.isSome_iff_exists.mp
      (List.find?_isSome.mpr ⟨m, hm, by simpa using hrow⟩ :
        (L.find? fun r => r.row g = ident).isSome)
    have hentry : (node.contexts l).reg.memoryRegisterMap ident = some found.entry := by
      rw [hmap, hfound]
      rfl
    have hpop : bspPopReg (node.contexts l).reg ident = some _ :=
      (if_pos (by omega)).trans (congrArg (Option.map _) hentry)
    have hsome : bspPopReg (node.contexts l).reg ident ≠ none := by
      rw [hpop]
      exact Option.some_ne_none _
    refine ⟨⟨hl, hsome⟩, fun node' hnode => ?_⟩
    simp only [Contexts.exec, hpop, Option.map_some, Option.some.injEq] at hnode
    have hboth : Spares own l node node' ∧
        Hosted processors own L g l node' (a.queue (.popReg ident)) := by
      rw [← hnode]
      exact hosted_register h (.popReg ident) rfl (List.length_append ..) rfl hfew
    exact ⟨hboth.1, hboth.2, ⟨[.popReg ident], rfl, rfl⟩, rfl⟩
  | _ => cases hop

theorem waits_qsize {p : Proc} {c : LocalDeliveryQueue} {ms : List Message} (h : Waits p c ms) :
    c.bsmpQsize = ms.length := by
  obtain ⟨moved, hbox, hms, -⟩ := h
  rw [← hms p.mem, List.length_map]
  exact mailbox_qsize hbox

theorem waits_cons {p : Proc} {c : LocalDeliveryQueue} {m : Message} {ms : List Message}
    (h : Waits p c (m :: ms)) {gets : List LocalMemoryDelivery} {puts : List (ℕ × List UInt8)}
    {sent moved : List LocalMessage} (hc : Pending c gets puts sent moved) :
    c.bsmpTopSize = m.payload.length ∧
      readFrom p c.messageMoveBuffer c.bsmpTopTag p.bsp.messageQueue.recvTagSize = m.tag ∧
      readFrom p c.messageMoveBuffer c.bsmpTopMessage m.payload.length = m.payload ∧
      Waits p c.bsmpAdvance ms := by
  have hsize := waits_qsize h
  obtain ⟨all, hbox, hms, htags⟩ := h
  cases all with
  | nil => cases hms p.mem
  | cons first rest =>
    have hpend : Pending c gets puts sent (first :: rest) := ⟨hc.gets, hc.puts, hc.sent, hbox⟩
    obtain ⟨tag, message, hmove, htag, hpayload⟩ :=
      ContextBsmp.hpmove_pending hpend (htags first List.mem_cons_self)
    have hfirst : resolve p first = m := (List.cons.inj (hms p.mem)).1
    have hbytes : first.nbytes = m.payload.length := by
      rw [← hfirst]
      exact (ContextBsmp.resolve_nbytes p first).symm
    rw [bspHpmove, if_pos (by rw [hsize]; exact Nat.succ_pos _)] at hmove
    simp only [Prod.mk.injEq, Option.some.injEq, true_and] at hmove
    obtain ⟨htop, rfl, rfl⟩ := hmove
    rw [hfirst] at htag hpayload
    rw [hbytes] at htop hpayload
    exact ⟨htop, htag, hpayload, rest, (pending_advance hpend).moved,
      fun mem => (List.cons.inj (hms mem)).2, fun x hx => htags x (List.mem_cons_of_mem _ hx)⟩

theorem readFrom_take (p : Proc) (b : MessageBuffer) (place : ℕ ⊕ Pointer) {n k : ℕ} (h : k ≤ n) :
    (readFrom p b place n).take k = readFrom p b place k := by
  rcases place with offset | pointer
  · exact load_take h
  · cases pointer <;> exact load_take h

theorem hosted_own (h : Hosted processors own L g l node a) {mem mem' : Mem}
    {f : LocalDeliveryQueue → LocalDeliveryQueue} {ms : List Message}
    (hframe : ∀ x, ¬own x → mem x = node.proc.mem x) (hmem : ∀ x, own x → mem x = mem' x)
    (hms : Waits node.proc (f (node.contexts l).localDeliveries) ms) :
    Spares own l node ((node.onMem mem).onQueue l f) ∧
      Hosted processors own L g l ((node.onMem mem).onQueue l f)
        { a with mem := mem', inbox := ms } := by
  have hreg : ∀ lp, (((node.onMem mem).onQueue l f).contexts lp).reg = (node.contexts lp).reg :=
    fun lp => ContextProgram.onQueue_reg ..
  refine ⟨⟨hframe, rfl, rfl, fun lp _ => hreg lp, fun lp hl => ?_⟩,
    ⟨hmem, h.sendTagSize, h.recvTagSize, h.rows, ?_, ?_, h.few, ?_⟩⟩
  · simp only [Node.onQueue, Node.onMem, Function.update_of_ne hl]
    exact ⟨rfl, rfl, rfl⟩
  · rw [hreg]
    exact h.reg
  · rw [hreg]
    exact h.requests
  · simp only [Node.onQueue, Node.onMem, Function.update_self]
    exact waits_congr rfl rfl ⟨rfl, rfl, rfl⟩ hms

theorem own_stepped (h : Hosted processors own L g l node a) {mem mem' : Mem}
    {f : LocalDeliveryQueue → LocalDeliveryQueue} {ms : List Message}
    (hframe : ∀ x, ¬own x → mem x = node.proc.mem x) (hmem : ∀ x, own x → mem x = mem' x)
    (hms : Waits node.proc (f (node.contexts l).localDeliveries) ms)
    (hemit : emit processors nnodes q (l, op) node = [])
    (hanswers : contextAnswers (l, op) node = (answers op a).map fun x => (l, x)) :
    Stepped processors nnodes q own L g l op node ((node.onMem mem).onQueue l f) a
      { a with mem := mem', inbox := ms } := by
  obtain ⟨hspares, hhosted⟩ := hosted_own h hframe hmem hms
  refine ⟨hspares, hhosted, ⟨[], ?_, ?_⟩, hanswers⟩
  · rw [List.append_nil]
  · rw [hemit]
    rfl

theorem onQueue_same (node : Node) (l : ℕ) : node.onQueue l id = node := by
  simp [Node.onQueue]

theorem store_frame {m : Mem} {x n : ℕ} {bytes : List UInt8} (hr : Range own x n)
    (hlen : bytes.length = n) : ∀ y, ¬own y → store m x bytes y = m y := by
  intro y hy
  apply store_of_outside
  by_contra hin
  have hown := hr (y - x) (by omega)
  rw [show x + (y - x) = y by omega] at hown
  exact hy hown

theorem store_owned {m m' : Mem} (h : ∀ x, own x → m x = m' x) (x : ℕ) (bytes : List UInt8) :
    ∀ y, own y → store m x bytes y = store m' x bytes y := by
  intro y hy
  simp only [store, h y hy]

variable {tagSize : ℕ} {log : List (ℕ × ContextCall)}

theorem getTag_stepped (h : Hosted processors own L g l node a)
    (hlog : NodeLogged processors nnodes q tagSize log node)
    (hl : l < contextsOn processors nnodes q)
    {tag : ℕ} (hk : Keeps own g (.getTag tag) a)
    (hs : runOp processors g (.getTag tag) a = some a') :
    Stepped processors nnodes q own L g l (.getTag tag) node
      (node.onMem (bspGetTag node.proc (node.contexts l).localDeliveries tag).2) a a' := by
  obtain ⟨moved, hpend⟩ := hlog.queues l hl
  have hsize := waits_qsize h.inbox
  have hinbox := h.inbox
  simp only [runOp, libraryOp, AbstractMachine.exec] at hs
  rw [← onQueue_same (node.onMem _) l]
  cases hin : a.inbox with
  | nil =>
    rw [hin] at hs hsize
    cases hs
    have hget : bspGetTag node.proc (node.contexts l).localDeliveries tag = (none, node.proc.mem) :=
      if_neg (by rw [hsize]; exact Nat.lt_irrefl 0)
    rw [hget]
    refine own_stepped h (fun _ _ => rfl) h.mem hinbox rfl ?_
    simp only [contextAnswers, answers, hget, hin, List.head?_nil, Option.map_none]
  | cons m ms =>
    rw [hin] at hs hsize hinbox
    cases hs
    obtain ⟨htop, htag, -, -⟩ := waits_cons hinbox hpend
    have hlen : m.tag.length = a.recvTagSize := by
      rw [← htag, ContextThreads.readFrom_length, h.recvTagSize]
    have hget : bspGetTag node.proc (node.contexts l).localDeliveries tag =
        (some m.payload.length, store node.proc.mem tag m.tag) := by
      rw [bspGetTag, if_pos (by rw [hsize]; exact Nat.succ_pos _), htop, htag]
    rw [hget]
    refine own_stepped h (store_frame hk hlen) (store_owned h.mem tag m.tag) hinbox rfl ?_
    simp only [contextAnswers, answers, hget, hin, List.head?_cons, Option.map_some]

theorem move_stepped (h : Hosted processors own L g l node a)
    (hlog : NodeLogged processors nnodes q tagSize log node)
    (hl : l < contextsOn processors nnodes q)
    {target nbytes : ℕ} (hk : Keeps own g (.move target nbytes) a)
    (hs : runOp processors g (.move target nbytes) a = some a') :
    ∃ node', Contexts.exec processors nnodes q (l, .move target nbytes) node = some node' ∧
      Stepped processors nnodes q own L g l (.move target nbytes) node node' a a' := by
  obtain ⟨moved, hpend⟩ := hlog.queues l hl
  have hsize := waits_qsize h.inbox
  have hinbox := h.inbox
  simp only [runOp, libraryOp, AbstractMachine.exec] at hs
  cases hin : a.inbox with
  | nil =>
    rw [hin] at hs
    cases hs
  | cons m ms =>
    obtain ⟨hrange, hfits⟩ := hk
    rw [hin] at hs hsize hinbox hfits
    have hle : nbytes ≤ m.payload.length := hfits m rfl
    simp only [Option.ite_none_right_eq_some, Option.some.injEq] at hs
    obtain ⟨-, rfl⟩ := hs
    obtain ⟨htop, -, hpayload, hrest⟩ := waits_cons hinbox hpend
    have hbytes := readFrom_take node.proc (node.contexts l).localDeliveries.messageMoveBuffer
      (node.contexts l).localDeliveries.bsmpTopMessage hle
    rw [hpayload] at hbytes
    have hmove : bspMove node.proc (node.contexts l).localDeliveries target nbytes =
        some ((node.contexts l).localDeliveries.bsmpAdvance,
          store node.proc.mem target (m.payload.take nbytes)) := by
      rw [bspMove, if_pos (by rw [hsize]; exact Nat.succ_pos _), if_pos (by rw [htop]; exact hle),
        ← hbytes]
    refine ⟨_, congrArg (Option.map _) hmove, ?_⟩
    exact own_stepped h (store_frame hrange (by simp [hle])) (store_owned h.mem target _) hrest rfl
      rfl

theorem hpmove_stepped (h : Hosted processors own L g l node a)
    (hlog : NodeLogged processors nnodes q tagSize log node)
    (hl : l < contextsOn processors nnodes q)
    (hs : runOp processors g .hpmove a = some a') :
    Stepped processors nnodes q own L g l .hpmove node
      (node.onQueue l fun q => (bspHpmove q).1) a a' := by
  obtain ⟨moved, hpend⟩ := hlog.queues l hl
  have hsize := waits_qsize h.inbox
  have hinbox := h.inbox
  cases hs
  cases hin : a.inbox with
  | nil =>
    rw [hin] at hsize hinbox
    have hmove : bspHpmove (node.contexts l).localDeliveries =
        ((node.contexts l).localDeliveries, none) :=
      if_neg (by rw [hsize]; exact Nat.lt_irrefl 0)
    refine own_stepped h (fun _ _ => rfl) h.mem ?_ rfl ?_
    · rw [hmove]
      exact hinbox
    · simp only [contextAnswers, answers, hmove, hin, List.head?_nil, Option.map_none]
  | cons m ms =>
    rw [hin] at hsize hinbox
    obtain ⟨htop, htag, hpayload, hrest⟩ := waits_cons hinbox hpend
    have hmove : bspHpmove (node.contexts l).localDeliveries =
        ((node.contexts l).localDeliveries.bsmpAdvance, some (m.payload.length,
          (node.contexts l).localDeliveries.bsmpTopTag,
          (node.contexts l).localDeliveries.bsmpTopMessage)) := by
      rw [bspHpmove, if_pos (by rw [hsize]; exact Nat.succ_pos _), htop]
    refine own_stepped h (fun _ _ => rfl) h.mem ?_ rfl ?_
    · rw [hmove]
      exact hrest
    · simp only [contextAnswers, answers, hmove, hin, List.head?_cons, Option.map_some, htag,
        hpayload]

/-- What the machine does, the node does, and it logs the call and answers the same. -/
theorem context_stepped (hm : Mapped processors nnodes) (h : Hosted processors own L g l node a)
    (hlog : NodeLogged processors nnodes q tagSize log node) (hg : g < processors)
    (hl : l < contextsOn processors nnodes q) (hk : Keeps own g op a)
    (hs : runOp processors g op a = some a') :
    ContextLog.Admitted processors nnodes q (l, op) node ∧
      ∃ node', Contexts.exec processors nnodes q (l, op) node = some node' ∧
        Stepped processors nnodes q own L g l op node node' a a' := by
  have hposts : Posts op → ContextLog.Admitted processors nnodes q (l, op) node ∧
      ∃ node', Contexts.exec processors nnodes q (l, op) node = some node' ∧
        Stepped processors nnodes q own L g l op node node' a a' := by
    intro hop
    obtain ⟨hok, -⟩ := posts_call hop h hg hl hk hs
    obtain ⟨node', hnode, -⟩ := exec_logged hm hlog (l, op) hok
    exact ⟨hok, node', hnode, posts_stepped hop h hg hl hk hs hnode⟩
  have hregister : (registration op).isSome → ContextLog.Admitted processors nnodes q (l, op) node ∧
      ∃ node', Contexts.exec processors nnodes q (l, op) node = some node' ∧
        Stepped processors nnodes q own L g l op node node' a a' := by
    intro hop
    obtain ⟨hok, hstep⟩ := register_stepped hop h hl hk hs
    obtain ⟨node', hnode, -⟩ := exec_logged hm hlog (l, op) hok
    exact ⟨hok, node', hnode, hstep node' hnode⟩
  cases op with
  | put | get | send | setTagsize => exact hposts trivial
  | pushReg | popReg => exact hregister rfl
  | hpput | hpget | hpsend => exact hk.elim
  | getTag tag => exact ⟨⟨hl, trivial⟩, _, rfl, getTag_stepped h hlog hl hk hs⟩
  | hpmove => exact ⟨⟨hl, trivial⟩, _, rfl, hpmove_stepped h hlog hl hs⟩
  | compute f =>
    cases hs
    refine ⟨⟨hl, trivial⟩, _, rfl, ?_⟩
    rw [← onQueue_same (node.onMem _) l]
    exact own_stepped h (hk.frame _) (hk.determined _ _ h.mem) h.inbox rfl rfl
  | move target nbytes =>
    refine ⟨⟨hl, fun hpos => ?_⟩, move_stepped h hlog hl hk hs⟩
    obtain ⟨moved, hpend⟩ := hlog.queues l hl
    have hsize := waits_qsize h.inbox
    have hinbox := h.inbox
    cases hin : a.inbox with
    | nil =>
      rw [hin] at hsize
      exact absurd hpos (by rw [hsize]; exact Nat.lt_irrefl 0)
    | cons m ms =>
      rw [hin] at hinbox
      rw [(waits_cons hinbox hpend).1]
      exact hk.2 m (by rw [hin]; rfl)

end Step

section Node

variable (processors nnodes : ℕ) (owns : ℕ → ℕ → Prop)

def Private : Prop :=
  ∀ g < processors, ∀ g' < processors, nodeOf processors nnodes g = nodeOf processors nnodes g' →
    g ≠ g' → ∀ x, owns g x → ¬owns g' x

def globalOf (q lp : ℕ) : ℕ := q * icd processors nnodes + lp

/-- Node `q` with its contexts as processors, and with the log of their calls. -/
structure Hosts (q tagSize : ℕ) (L : List Live) (log : List (ℕ × ContextCall)) (node : Node)
    (w : ℕ → Processor) : Prop where
  hosted : ∀ lp < contextsOn processors nnodes q,
    let g := globalOf processors nnodes q lp
    Hosted processors (owns g) L g lp node (w lp)
  logged : NodeLogged processors nnodes q tagSize log node
  sound : ∀ e ∈ log, ContextProgram.Sound processors nnodes q tagSize e
  calls : ∀ lp < contextsOn processors nnodes q,
    ofThread lp log = (w lp).calls.filterMap contextCall

end Node

section Run

variable {processors nnodes q tagSize : ℕ} {owns : ℕ → ℕ → Prop} {L : List Live}
  {log : List (ℕ × ContextCall)} {node node' : Node} {w : ℕ → Processor}

variable (hm : Mapped processors nnodes) (hown : Private processors nnodes owns)

include hm hown

theorem hosts_step (h : Hosts processors nnodes owns q tagSize L log node w) {lp : ℕ}
    (hlp : lp < contextsOn processors nnodes q) {op : ContextOp} {a : Processor}
    (hk : Keeps (owns (globalOf processors nnodes q lp)) (globalOf processors nnodes q lp) op
      (w lp))
    (hs : runOp processors (globalOf processors nnodes q lp) op (w lp) = some a) :
    ∃ node', Contexts.exec processors nnodes q (lp, op) node = some node' ∧
      Hosts processors nnodes owns q tagSize L (log ++ emit processors nnodes q (lp, op) node) node'
        (Function.update w lp a) ∧
      contextAnswers (lp, op) node = (answers op (w lp)).map fun x => (lp, x) := by
  obtain ⟨hg, hnode, hlocal⟩ := local_global hm hlp
  obtain ⟨hok, node', hexec, hstep⟩ := context_stepped hm (h.hosted lp hlp) h.logged hg hlp hk hs
  obtain ⟨node'', hexec', hlogged⟩ := exec_logged hm h.logged (lp, op) hok
  cases hexec'.symm.trans hexec
  obtain ⟨new, hnew, hemit⟩ := hstep.logged
  refine ⟨node', hexec, ⟨fun l hl => ?_, hlogged, fun e he => ?_, fun l hl => ?_⟩, hstep.answers⟩
  · by_cases hle : l = lp
    · subst hle
      rw [Function.update_self]
      exact hstep.hosted
    · rw [Function.update_of_ne hle]
      refine hosted_spared (h.hosted l hl) hstep.spares hle ?_
      obtain ⟨hg', hnode', -⟩ := local_global hm hl
      exact hown _ hg' _ hg (hnode'.trans hnode.symm) fun heq => hle (Nat.add_left_cancel heq)
  · rcases List.mem_append.mp he with he | he
    · exact h.sound e he
    · exact ContextProgram.emit_sound h.logged hok e he
  · rw [hemit]
    by_cases hle : l = lp
    · subst hle
      rw [Function.update_self, ofThread_append, ofThread_map, hnew, List.filterMap_append,
        h.calls l hl]
    · rw [Function.update_of_ne hle, ofThread_append, ofThread_map_other (Ne.symm hle),
        List.append_nil, h.calls l hl]

/-- The operations of a superstep in any order: the contexts run on their own. -/
theorem hosts_run (h : Hosts processors nnodes owns q tagSize L log node w)
    {order : List (ℕ × ContextOp)}
    (hok : ∀ lp, Along (runOp processors (globalOf processors nnodes q lp))
      (fun op a => lp < contextsOn processors nnodes q ∧
        Keeps (owns (globalOf processors nnodes q lp))
        (globalOf processors nnodes q lp) op a) (ofThread lp order) (w lp))
    {w' : ℕ → Processor} (hrun : ∀ lp,
      run (runOp processors (globalOf processors nnodes q lp)) (ofThread lp order) (w lp) =
        some (w' lp)) :
    ∃ node' log', run (Contexts.exec processors nnodes q) order node = some node' ∧
      Hosts processors nnodes owns q tagSize L log' node' w' ∧
      ∀ lp, ofThread lp (trace (Contexts.exec processors nnodes q) contextAnswers order node) =
        trace (runOp processors (globalOf processors nnodes q lp)) answers (ofThread lp order)
          (w lp) := by
  have hstep : ∀ lp op (w : ℕ → Processor) node a,
      (∃ log, Hosts processors nnodes owns q tagSize L log node w) →
      (lp < contextsOn processors nnodes q ∧ Keeps (owns (globalOf processors nnodes q lp))
        (globalOf processors nnodes q lp) op (w lp)) →
      runOp processors (globalOf processors nnodes q lp) op (w lp) = some a →
      ∃ node', Contexts.exec processors nnodes q (lp, op) node = some node' ∧
        (∃ log, Hosts processors nnodes owns q tagSize L log node' (Function.update w lp a)) ∧
        contextAnswers (lp, op) node = (answers op (w lp)).map fun x => (lp, x) := by
    rintro lp op w node a ⟨log, h⟩ ⟨hlp, hk⟩ hs
    obtain ⟨node', hexec, hhosts, hanswers⟩ := hosts_step hm hown h hlp hk hs
    exact ⟨node', hexec, ⟨_, hhosts⟩, hanswers⟩
  obtain ⟨node', hnode, ⟨log', hhosts⟩, htrace⟩ := run_parts hstep ⟨log, h⟩ hok hrun
  exact ⟨node', log', hnode, hhosts, htrace⟩

omit hm hown

theorem registers_none {op : ContextOp} (h : registration op = none) :
    ¬ContextProgram.Registers op := by
  cases op with
  | pushReg | popReg => cases h
  | _ => exact id

theorem step_registrations {e : ℕ × ContextOp}
    (h : Contexts.exec processors nnodes q e node = some node') (lp : ℕ) :
    run regExec ((ofThread lp [e]).filterMap registration) (node.contexts lp).reg =
      some (node'.contexts lp).reg := by
  obtain ⟨l, op⟩ := e
  cases hop : registration op with
  | none =>
    have hnil : (ofThread lp [(l, op)]).filterMap registration = [] := by
      by_cases hl : l = lp <;> simp [ofThread, hl, hop]
    rw [hnil, ContextProgram.exec_regs (registers_none hop) h]
    rfl
  | some r =>
    obtain ⟨reg, hreg, rfl⟩ : ∃ reg, regExec r (node.contexts l).reg = some reg ∧
        node.onReg l reg = node' := by
      cases op with
      | pushReg | popReg =>
        cases hop
        exact Option.map_eq_some_iff.mp h
      | _ => cases hop
    by_cases hl : l = lp
    · subst hl
      simp [ofThread, hop, run, hreg, Node.onReg]
    · rw [ofThread_other hl]
      simp [run, Node.onReg, Ne.symm hl]

theorem run_registrations {order : List (ℕ × ContextOp)}
    (h : run (Contexts.exec processors nnodes q) order node = some node') (lp : ℕ) :
    run regExec ((ofThread lp order).filterMap registration) (node.contexts lp).reg =
      some (node'.contexts lp).reg := by
  induction order generalizing node with
  | nil =>
    cases h
    rfl
  | cons e order ih =>
    obtain ⟨node₁, hnode, hrest⟩ := Option.bind_eq_some_iff.mp h
    rw [← List.singleton_append, ofThread_append, List.filterMap_append, run_append,
      step_registrations hnode lp]
    exact ih hrest

end Run

end BspOnMpi.ContextMachine
