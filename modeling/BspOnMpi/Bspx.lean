import BspOnMpi.DelivExecute
import BspOnMpi.Reqtable
import BspOnMpi.Machine
import BspOnMpi.Lib.Runs

/-! The BSP object. `bspx.c` up to the end of the superstep. A processor is its `BSPObject`, its
memory and what its stack leaves in automatic variables. A call is undefined, `none`, where the
source follows a null pointer or searches the register beyond its block. -/

namespace BspOnMpi.Bspx
open Lib Exptable Slots Delivtable DelivPush Memreg DelivExecute Reqtable Machine

/-- `bsp_global_array_t`; the null pointer is `none`. -/
structure GlobalArray where
  arraySize : ℕ
  localSize : ℕ
  localSlice : Option ℕ

structure BSPObject where
  nprocs : ℕ
  rank : ℕ
  deliveryTable : DeliveryTable
  deliveryReceivedTable : DeliveryTable
  requestTable : RequestTable
  requestReceivedTable : RequestTable
  memoryRegister : MemoryRegister
  messageQueue : MessageQueue
  globalArrayLast : ℕ
  globalOverflow : Bool
  globalArrays : ℕ → GlobalArray

structure Proc where
  bsp : BSPObject
  mem : Mem
  stack : ℕ

structure Alloc where
  deliv : ℕ → ℕ → Slot
  req : ℕ → ℕ → ReqElement
  memreg : ℕ → ℕ → ℕ

def delivtabMinSize : ℕ := 256 * 8
def reqtabMinSize : ℕ := 256
def memregMinSize : ℕ := 1

def bspxInitBspobject (alloc : Alloc) (globalArrays : ℕ → GlobalArray) (nprocs rank : ℕ) :
    BSPObject :=
  { nprocs := nprocs
    rank := rank
    memoryRegister := memoryRegisterInitialize nprocs memregMinSize rank alloc.memreg
    messageQueue := messageQueueInitialize
    deliveryTable := deliveryTableInitialize nprocs delivtabMinSize alloc.deliv
    requestTable := requestTableInitialize nprocs reqtabMinSize alloc.req
    deliveryReceivedTable := deliveryTableInitialize nprocs delivtabMinSize alloc.deliv
    requestReceivedTable := requestTableInitialize nprocs reqtabMinSize alloc.req
    globalArrayLast := 0
    globalOverflow := false
    globalArrays := globalArrays }

def toUInt32 (x : ℕ) : ℕ := x % 2 ^ 32

def toInt32 (x : ℤ) : ℤ := Int.bmod x (2 ^ 32)

def intToUInt32 (x : ℤ) : ℕ := (x % 2 ^ 32).toNat

def bspxPushReg (bsp : BSPObject) (next ident : ℕ) : BSPObject :=
  let element : DelivElement := { size := 0, next := next, info := .push ident }
  { bsp with
    deliveryTable := (List.range bsp.nprocs).foldl
      (fun t i => (deliveryTablePush t i element .pushreg).1) bsp.deliveryTable }

def bspxPopReg (bsp : BSPObject) (next ident : ℕ) : BSPObject :=
  let element : DelivElement := { size := 0, next := next, info := .pop ident }
  { bsp with deliveryTable := (deliveryTablePush bsp.deliveryTable bsp.rank element .popreg).1 }

def bspxPut (bsp : BSPObject) (mem : Mem) (next pid src dst : ℕ) (offset : ℤ) (nbytes : ℕ) :
    Option BSPObject := do
  let base ← memoryRegisterMemoizedFind bsp.memoryRegister pid dst
  let element : DelivElement :=
    { size := toUInt32 nbytes, next := next, info := .put (addOffset base offset) }
  return { bsp with
    deliveryTable := pushPayload bsp.deliveryTable pid element .put (load mem src nbytes) }

def bspxHpput (bsp : BSPObject) (mem : Mem) (next pid src dst : ℕ) (offset : ℤ) (nbytes : ℕ) :
    Option BSPObject :=
  bspxPut bsp mem next pid src dst offset nbytes

def bspxGet (bsp : BSPObject) (pid src : ℕ) (offset : ℤ) (dst nbytes : ℕ) : Option BSPObject := do
  let base ← memoryRegisterMemoizedFind bsp.memoryRegister pid src
  let elem : ReqElement :=
    { size := toUInt32 nbytes, src := base, dst := dst, offset := toInt32 offset }
  return { bsp with requestTable := requestTablePush bsp.requestTable pid elem }

def bspxHpget (bsp : BSPObject) (pid src : ℕ) (offset : ℤ) (dst nbytes : ℕ) : Option BSPObject :=
  bspxGet bsp pid src offset dst nbytes

def bspxSend (bsp : BSPObject) (mem : Mem) (next pid tag payload payloadNbytes : ℕ) : BSPObject :=
  let sendTagSize := bsp.messageQueue.sendTagSize
  let element : DelivElement :=
    { size := toUInt32 (toUInt32 payloadNbytes + sendTagSize)
      next := next
      info := .send (toUInt32 payloadNbytes) }
  let r := deliveryTablePush bsp.deliveryTable pid element .send
  let d := storeBytes r.1.data (8 * r.2) (load mem tag sendTagSize)
  let d := storeBytes d (8 * r.2 + sendTagSize) (load mem payload payloadNbytes)
  { bsp with deliveryTable := { r.1 with data := d } }

def bspxSetTagsize (bsp : BSPObject) (next tagNbytes : ℕ) : BSPObject × ℕ :=
  let element : DelivElement :=
    { size := 0, next := next, info := .settag (toUInt32 tagNbytes) }
  ({ bsp with deliveryTable := (deliveryTablePush bsp.deliveryTable bsp.rank element .settag).1 },
    bsp.messageQueue.sendTagSize)

def maxGlobalArrays : ℕ := 128

def allocSize (arraySize procs : ℕ) : ℕ := (arraySize + procs - 1) % 2 ^ 64 / procs

/-- The search of `bspx_global_alloc` for a null slice. It aborts after 130 used
handles, and is undefined beyond the end of `global_arrays`. -/
def freeHandle (globalArrays : ℕ → GlobalArray) : ℕ → ℕ → Option ℕ
  | 0, _ => none
  | count + 1, last =>
    if maxGlobalArrays ≤ last then none
    else if (globalArrays last).localSlice = none then some last
    else freeHandle globalArrays count (last + 1)

def nextHandle (bsp : BSPObject) : Option ℕ :=
  if bsp.globalOverflow then freeHandle bsp.globalArrays (maxGlobalArrays + 2) bsp.globalArrayLast
  else some bsp.globalArrayLast

/-- Returns the handle; `localSlice` is what `aligned_malloc` returns. -/
def bspxGlobalAlloc (bsp : BSPObject) (next arraySize localSlice : ℕ) : Option (BSPObject × ℕ) := do
  let handle ← nextHandle bsp
  let globalArray : GlobalArray :=
    { arraySize := arraySize
      localSize := allocSize arraySize bsp.nprocs
      localSlice := some localSlice }
  let last := (handle + 1) % maxGlobalArrays
  return (bspxPushReg { bsp with
    globalArrays := Function.update bsp.globalArrays handle globalArray
    globalArrayLast := last
    globalOverflow := bsp.globalOverflow || last == 0 } next localSlice, handle)

def sliceOf (bsp : BSPObject) (ptr : ℕ) : ℕ := (bsp.globalArrays ptr).localSlice.getD 0

def bspxGlobalFree (bsp : BSPObject) (next ptr : ℕ) : BSPObject :=
  let globalArray := { bsp.globalArrays ptr with localSlice := none }
  { bspxPopReg bsp next (sliceOf bsp ptr) with
    globalArrays := Function.update bsp.globalArrays ptr globalArray }

def bspxQsize (bsp : BSPObject) : ℕ × ℕ := (bsp.messageQueue.nMesg, bsp.messageQueue.accumSize)

/-- The status, `none` for -1, and the memory with the tag copied to `tag`. -/
def bspxGetTag (bsp : BSPObject) (mem : Mem) (tag : ℕ) : Option (Option ℕ × Mem) :=
  if bsp.messageQueue.nMesg = 0 then some (none, mem)
  else bsp.messageQueue.head.map fun message =>
    let t := bsp.deliveryReceivedTable
    (some (elementSize t message), store mem tag
      (loadBytes t.data (8 * (message + tagSize)) bsp.messageQueue.recvTagSize))

def dequeue (bsp : BSPObject) (message size : ℕ) : BSPObject :=
  { bsp with messageQueue := { bsp.messageQueue with
      head := some (message + elementNext bsp.deliveryReceivedTable message)
      nMesg := bsp.messageQueue.nMesg - 1
      accumSize := bsp.messageQueue.accumSize - size } }

def bspxMove (bsp : BSPObject) (mem : Mem) (payload receptionNbytes : ℕ) :
    Option (BSPObject × Mem) :=
  bsp.messageQueue.head.map fun message =>
    let t := bsp.deliveryReceivedTable
    let copyBytes := min (toUInt32 receptionNbytes) (elementSize t message)
    let currentPayload := 8 * (message + tagSize) + bsp.messageQueue.recvTagSize
    (dequeue bsp message (elementSize t message),
      store mem payload (loadBytes t.data currentPayload copyBytes))

/-- The returned size, `none` for -1, with the byte positions of tag and payload
in the received table. -/
def bspxHpmove (bsp : BSPObject) : Option (BSPObject × Option (ℕ × ℕ × ℕ)) :=
  if bsp.messageQueue.nMesg = 0 then some (bsp, none)
  else bsp.messageQueue.head.map fun message =>
    let currentTag := 8 * (message + tagSize)
    let size := (elementInfo bsp.deliveryReceivedTable message).payloadSize
    (dequeue bsp message size, some (size, currentTag, currentTag + bsp.messageQueue.recvTagSize))

section Head

variable {bsp : BSPObject} {message : ℕ} (h : bsp.messageQueue.head = some message)

include h

theorem getTag_head (hn : bsp.messageQueue.nMesg ≠ 0) (mem : Mem) (tag : ℕ) :
    bspxGetTag bsp mem tag = some (some (elementSize bsp.deliveryReceivedTable message),
      store mem tag (loadBytes bsp.deliveryReceivedTable.data (8 * (message + tagSize))
        bsp.messageQueue.recvTagSize)) := by
  rw [bspxGetTag, if_neg hn, h]
  rfl

theorem move_head (mem : Mem) (payload receptionNbytes : ℕ) :
    bspxMove bsp mem payload receptionNbytes = some
      (dequeue bsp message (elementSize bsp.deliveryReceivedTable message),
        store mem payload (loadBytes bsp.deliveryReceivedTable.data
          (8 * (message + tagSize) + bsp.messageQueue.recvTagSize)
          (min (toUInt32 receptionNbytes) (elementSize bsp.deliveryReceivedTable message)))) := by
  rw [bspxMove, h]
  rfl

theorem hpmove_head (hn : bsp.messageQueue.nMesg ≠ 0) :
    bspxHpmove bsp = some
      (dequeue bsp message (elementInfo bsp.deliveryReceivedTable message).payloadSize,
        some ((elementInfo bsp.deliveryReceivedTable message).payloadSize,
          8 * (message + tagSize), 8 * (message + tagSize) + bsp.messageQueue.recvTagSize)) := by
  rw [bspxHpmove, if_neg hn, h]
  rfl

end Head

inductive Op
  | pushReg (ident : ℕ)
  | popReg (ident : ℕ)
  | put (pid src dst : ℕ) (offset : ℤ) (nbytes : ℕ)
  | hpput (pid src dst : ℕ) (offset : ℤ) (nbytes : ℕ)
  | get (pid src : ℕ) (offset : ℤ) (dst nbytes : ℕ)
  | hpget (pid src : ℕ) (offset : ℤ) (dst nbytes : ℕ)
  | send (pid tag payload payloadNbytes : ℕ)
  | setTagsize (tagNbytes : ℕ)
  | getTag (tag : ℕ)
  | move (payload receptionNbytes : ℕ)
  | hpmove
  | globalAlloc (arraySize localSlice : ℕ)
  | globalFree (ptr : ℕ)
  | compute (f : Mem → Mem)

def exec (op : Op) (p : Proc) : Option Proc :=
  let onBsp := fun bsp => { p with bsp := bsp }
  match op with
  | .pushReg ident => some (onBsp (bspxPushReg p.bsp p.stack ident))
  | .popReg ident => some (onBsp (bspxPopReg p.bsp p.stack ident))
  | .put pid src dst offset nbytes =>
    (bspxPut p.bsp p.mem p.stack pid src dst offset nbytes).map onBsp
  | .hpput pid src dst offset nbytes =>
    (bspxHpput p.bsp p.mem p.stack pid src dst offset nbytes).map onBsp
  | .get pid src offset dst nbytes => (bspxGet p.bsp pid src offset dst nbytes).map onBsp
  | .hpget pid src offset dst nbytes => (bspxHpget p.bsp pid src offset dst nbytes).map onBsp
  | .send pid tag payload payloadNbytes =>
    some (onBsp (bspxSend p.bsp p.mem p.stack pid tag payload payloadNbytes))
  | .setTagsize tagNbytes => some (onBsp (bspxSetTagsize p.bsp p.stack tagNbytes).1)
  | .getTag tag => (bspxGetTag p.bsp p.mem tag).map fun r => { p with mem := r.2 }
  | .move payload receptionNbytes =>
    (bspxMove p.bsp p.mem payload receptionNbytes).map fun r => { p with bsp := r.1, mem := r.2 }
  | .hpmove => (bspxHpmove p.bsp).map fun r => onBsp r.1
  | .globalAlloc arraySize localSlice =>
    (bspxGlobalAlloc p.bsp p.stack arraySize localSlice).map fun r => onBsp r.1
  | .globalFree ptr => some (onBsp (bspxGlobalFree p.bsp p.stack ptr))
  | .compute f => some { p with mem := f p.mem }

end BspOnMpi.Bspx
