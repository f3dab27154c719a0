import BspOnMpi.Calls
import BspOnMpi.ContextMemreg
import BspOnMpi.LocalDelivery

/-! Operations of the contexts. `bsp_contextimpl.h`. A node is one `g_bsp` with its memory, and
several contexts. What a context addresses to its own node goes to the local queues, the rest to
the tables of the node. The calls of the contexts of a node are taken one after the other, in any
order.

An operation is undefined, `none`, where the source adds an offset to a null pointer, fails an
assertion or pushes to a column that the table does not have. -/

namespace BspOnMpi.Contexts
open Lib Exptable Slots Delivtable DelivPush Memreg Reqtable Machine Bspx Calls Mapper ContextMemreg
  LocalDelivery

structure ContextImpl where
  reg : ContextReg
  localDeliveries : LocalDeliveryQueue

/-- The contexts are given by their local pids. -/
structure Node where
  proc : Proc
  contexts : ℕ → ContextImpl

def Node.onBsp (node : Node) (bsp : BSPObject) : Node :=
  { node with proc := { node.proc with bsp := bsp } }

def Node.onMem (node : Node) (mem : Mem) : Node :=
  { node with proc := { node.proc with mem := mem } }

def Node.onQueue (node : Node) (lp : ℕ) (f : LocalDeliveryQueue → LocalDeliveryQueue) : Node :=
  let c := { node.contexts lp with localDeliveries := f (node.contexts lp).localDeliveries }
  { node with contexts := Function.update node.contexts lp c }

def Node.onReg (node : Node) (lp : ℕ) (reg : ContextReg) : Node :=
  let c := { node.contexts lp with reg := reg }
  { node with contexts := Function.update node.contexts lp c }

def intBytes (v : ℕ) : List UInt8 :=
  [UInt8.ofNat v, UInt8.ofNat (v / 256), UInt8.ofNat (v / 65536), UInt8.ofNat (v / 16777216)]

def readInt : List UInt8 → ℤ
  | [a, b, c, d] =>
    Int.bmod ((a.toNat + 256 * b.toNat + 65536 * c.toNat + 16777216 * d.toNat : ℕ) : ℤ) (2 ^ 32)
  | _ => 0

theorem int_digits {v : ℕ} (hv : v < 2 ^ 31) : v % 256 + 256 * (v / 256 % 256) +
    65536 * (v / 65536 % 256) + 16777216 * (v / 16777216 % 256) = v := by
  have hlast : v / 16777216 % 256 = v / 16777216 := by omega
  omega

theorem readInt_intBytes {v : ℕ} (hv : v < 2 ^ 31) : readInt (intBytes v) = v := by
  have hsum : readInt (intBytes v) = Int.bmod ((v % 256 + 256 * (v / 256 % 256) +
      65536 * (v / 65536 % 256) + 16777216 * (v / 16777216 % 256) : ℕ) : ℤ) (2 ^ 32) := rfl
  rw [hsum, int_digits hv]
  apply Int.bmod_eq_of_le
  · omega
  · omega

@[simp] theorem intBytes_length (v : ℕ) : (intBytes v).length = 4 := rfl

inductive ContextOp
  | pushReg (ident nbytes : ℕ)
  | popReg (ident : ℕ)
  | put (pid src dst : ℕ) (offset : ℤ) (nbytes : ℕ)
  | hpput (pid src dst : ℕ) (offset : ℤ) (nbytes : ℕ)
  | get (pid src : ℕ) (offset : ℤ) (dst nbytes : ℕ)
  | hpget (pid src : ℕ) (offset : ℤ) (dst nbytes : ℕ)
  | send (pid tag payload payloadNbytes : ℕ)
  | hpsend (pid tag payload payloadNbytes : ℕ)
  | setTagsize (tagNbytes : ℕ)
  | getTag (tag : ℕ)
  | move (target nbytes : ℕ)
  | hpmove
  | compute (f : Mem → Mem)

def findBase (c : ContextImpl) (pid base : ℕ) : Option ℕ :=
  memoryRegisterFind c.reg.memoryRegister c.reg.globalPid pid base

def remotePut (p : Proc) (n dst : ℕ) (bytes : List UInt8) (nbytes : ℕ) : BSPObject :=
  let element : DelivElement := { size := toUInt32 nbytes, next := p.stack, info := .put dst }
  { p.bsp with deliveryTable := pushPayload p.bsp.deliveryTable n element .put bytes }

def remoteGet (p : Proc) (n src : ℕ) (offset : ℤ) (dst nbytes : ℕ) : BSPObject :=
  let elem : ReqElement :=
    { size := toUInt32 nbytes, src := src, dst := dst, offset := toInt32 offset }
  { p.bsp with requestTable := requestTablePush p.bsp.requestTable n elem }

/-- The delivery of `bsp_send` and `bsp_hpsend`: the local pid `lp` of the target
stands between the tag and the data. -/
def remoteSend (p : Proc) (column lp : ℕ) (tag payload : List UInt8) (payloadNbytes : ℕ) :
    Option BSPObject :=
  let sendTagSize := p.bsp.messageQueue.sendTagSize
  let element : DelivElement :=
    { size := toUInt32 (toUInt32 payloadNbytes + sendTagSize + 4)
      next := p.stack
      info := .send (toUInt32 (toUInt32 payloadNbytes + 4)) }
  if column < p.bsp.deliveryTable.nprocs then
    let r := deliveryTablePush p.bsp.deliveryTable column element .send
    let d := storeBytes r.1.data (8 * r.2 + sendTagSize) (intBytes lp)
    let d := storeBytes d (8 * r.2) tag
    let d := storeBytes d (8 * r.2 + 4 + sendTagSize) payload
    some { p.bsp with deliveryTable := { r.1 with data := d } }
  else none

def readPointer (p : Proc) (pointer : Pointer) (nbytes : ℕ) : List UInt8 :=
  match pointer with
  | .memory address => load p.mem address nbytes
  | .received byte => loadBytes p.bsp.deliveryReceivedTable.data byte nbytes

def readFrom (p : Proc) (b : MessageBuffer) (place : ℕ ⊕ Pointer) (nbytes : ℕ) : List UInt8 :=
  match place with
  | .inl offset => b.get offset nbytes
  | .inr pointer => readPointer p pointer nbytes

def bspQsize (q : LocalDeliveryQueue) : ℕ × ℕ := (q.bsmpQsize, q.bsmpMoveBytes)

def bspGetTag (p : Proc) (q : LocalDeliveryQueue) (tag : ℕ) : Option ℕ × Mem :=
  if 0 < q.bsmpQsize then
    (some q.bsmpTopSize, store p.mem tag
      (readFrom p q.messageMoveBuffer q.bsmpTopTag p.bsp.messageQueue.recvTagSize))
  else (none, p.mem)

def bspMove (p : Proc) (q : LocalDeliveryQueue) (target nbytes : ℕ) :
    Option (LocalDeliveryQueue × Mem) :=
  if 0 < q.bsmpQsize then
    if nbytes ≤ q.bsmpTopSize then
      some (q.bsmpAdvance,
        store p.mem target (readFrom p q.messageMoveBuffer q.bsmpTopMessage nbytes))
    else none
  else some (q, p.mem)

/-- Returns the size, `none` for -1, and the places of tag and message. -/
def bspHpmove (q : LocalDeliveryQueue) :
    LocalDeliveryQueue × Option (ℕ × (ℕ ⊕ Pointer) × (ℕ ⊕ Pointer)) :=
  if 0 < q.bsmpQsize then (q.bsmpAdvance, some (q.bsmpTopSize, q.bsmpTopTag, q.bsmpTopMessage))
  else (q, none)

section Exec

variable (processors nnodes rank : ℕ)

/-- The operation of the context with local pid `e.1`. -/
def exec (e : ℕ × ContextOp) (node : Node) : Option Node :=
  let lp := e.1
  let p := node.proc
  let c := node.contexts lp
  let mapper := taskMapper processors nnodes rank
  match e.2 with
  | .pushReg ident nbytes => (bspPushReg c.reg ident nbytes).map (node.onReg lp)
  | .popReg ident => (bspPopReg c.reg ident).map (node.onReg lp)
  | .put pid src dst offset nbytes =>
    let n := mapper.globalToNode pid
    (findBase c pid dst).map fun base =>
      if p.bsp.rank = n then
        node.onQueue lp fun q => q.put (load p.mem src nbytes) (addOffset base offset)
      else node.onBsp (remotePut p n (addOffset base offset) (load p.mem src nbytes) nbytes)
  | .hpput pid src dst offset nbytes =>
    let n := mapper.globalToNode pid
    (findBase c pid dst).map fun base =>
      if p.bsp.rank = n then
        node.onMem (store p.mem (addOffset base offset) (load p.mem src nbytes))
      else node.onBsp (remotePut p n (addOffset base offset) (load p.mem src nbytes) nbytes)
  | .get pid src offset dst nbytes =>
    let n := mapper.globalToNode pid
    (findBase c pid src).map fun base =>
      if p.bsp.rank = n then node.onQueue lp fun q => q.hpput (addOffset base offset) dst nbytes
      else node.onBsp (remoteGet p n base offset dst nbytes)
  | .hpget pid src offset dst nbytes =>
    let n := mapper.globalToNode pid
    (findBase c pid src).map fun base =>
      if p.bsp.rank = n then
        node.onMem (store p.mem dst (load p.mem (addOffset base offset) nbytes))
      else node.onBsp (remoteGet p n base offset dst nbytes)
  | .send pid tag payload payloadNbytes =>
    let n := mapper.globalToNode pid
    let tagBytes := load p.mem tag p.bsp.messageQueue.sendTagSize
    let bytes := load p.mem payload payloadNbytes
    if p.bsp.rank = n then
      some (node.onQueue (mapper.globalToLocal pid) fun q => q.send tagBytes bytes)
    else (remoteSend p n (mapper.globalToLocal pid) tagBytes bytes payloadNbytes).map node.onBsp
  | .hpsend pid tag payload payloadNbytes =>
    let n := mapper.globalToNode pid
    let tagBytes := load p.mem tag p.bsp.messageQueue.sendTagSize
    let bytes := load p.mem payload payloadNbytes
    if p.bsp.rank = n then
      some (node.onQueue (mapper.globalToLocal pid) fun q =>
        q.hpsend (.memory tag) (.memory payload) payloadNbytes)
    -- the column is the global pid, not the node
    else (remoteSend p pid (mapper.globalToLocal pid) tagBytes bytes payloadNbytes).map node.onBsp
  | .setTagsize tagNbytes => some (node.onBsp (bspxSetTagsize p.bsp p.stack tagNbytes).1)
  | .getTag tag => some (node.onMem (bspGetTag p c.localDeliveries tag).2)
  | .move target nbytes => (bspMove p c.localDeliveries target nbytes).map fun r =>
      (node.onMem r.2).onQueue lp fun _ => r.1
  | .hpmove => some (node.onQueue lp fun q => (bspHpmove q).1)
  | .compute f => some (node.onMem (f p.mem))

end Exec

/-- The results of `k` calls of `bsp_hpmove`, with the tag and the message that the
returned pointers refer to. -/
def hpmoveTimes (p : Proc) : ℕ → LocalDeliveryQueue → List (Option (ℕ × Message))
  | 0, _ => []
  | k + 1, q =>
    let read := readFrom p q.messageMoveBuffer
    (bspHpmove q).2.map (fun (size, tag, message) =>
      (size, ⟨read tag p.bsp.messageQueue.recvTagSize, read message size⟩)) ::
        hpmoveTimes p k (bspHpmove q).1

end BspOnMpi.Contexts
