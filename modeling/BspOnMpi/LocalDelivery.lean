import BspOnMpi.Bspx

/-! Local deliveries. `bsp_localdelivery.h` with the queue and the buffer it is made of: what a
context delivers to contexts of its own node. Puts and gets wait for the end of the superstep,
messages are kept in two queues that change places there. -/

namespace BspOnMpi.LocalDelivery
open Lib Exptable Slots Machine Bspx

structure HeaderQueue (H : Type) where
  tbl : ExpandableTable Unit H
  start : ℕ

namespace HeaderQueue

variable {H : Type}

def create (fresh : ℕ → ℕ → H) : HeaderQueue H :=
  { tbl := expandableTableInitialize 1 reqtabMinSize 1 () fresh, start := 0 }

def clear (q : HeaderQueue H) : HeaderQueue H :=
  { tbl := expandableTableReset q.tbl, start := 0 }

def reset (q : HeaderQueue H) : HeaderQueue H :=
  { q.clear with tbl := expandableTableResetrowcount q.clear.tbl reqtabMinSize }

def enqueue (q : HeaderQueue H) (h : H) : HeaderQueue H :=
  let r := fixedElSizeTablePush2 q.tbl 0
  { q with tbl := { r.1 with data := store r.1.data r.2 [h] } }

def qsize (q : HeaderQueue H) : ℕ := q.tbl.usedSlotCount 0 - q.start
def head (q : HeaderQueue H) : H := q.tbl.data q.start
def empty (q : HeaderQueue H) : Bool := q.tbl.usedSlotCount 0 ≤ q.start
def next (q : HeaderQueue H) : HeaderQueue H := { q with start := q.start + 1 }

end HeaderQueue

structure Waiting {H : Type} (q : HeaderQueue H) (hs : List H) : Prop where
  holds : ∃ done, Holds q.tbl (fun _ => done ++ hs) ∧ q.start = done.length
  nprocs : q.tbl.nprocs = 1
  rows_pos : 0 < q.tbl.rows

section Waiting

variable {H : Type} {q : HeaderQueue H} {hs : List H} {x : H}

theorem waiting_create (fresh : ℕ → ℕ → H) : Waiting (HeaderQueue.create fresh) [] := by
  refine ⟨⟨[], ⟨fun _ _ => rfl, fun _ _ => Nat.zero_le _, fun _ _ => rfl⟩, rfl⟩, rfl, ?_⟩
  show 0 < reqtabMinSize
  decide

theorem waiting_reset (h : Waiting q hs) : Waiting q.reset [] := by
  refine ⟨⟨[], ⟨fun _ _ => rfl, fun _ _ => Nat.zero_le _, fun _ _ => rfl⟩, rfl⟩, h.nprocs, ?_⟩
  show 0 < reqtabMinSize
  decide

theorem waiting_qsize (h : Waiting q hs) : q.qsize = hs.length := by
  obtain ⟨done, hholds, hstart⟩ := h.holds
  have hused := hholds.used 0 (by rw [h.nprocs]; decide)
  rw [List.length_append] at hused
  rw [HeaderQueue.qsize]
  omega

theorem waiting_empty (h : Waiting q hs) : q.empty = true ↔ hs = [] := by
  have hsize := waiting_qsize h
  rw [HeaderQueue.qsize] at hsize
  rw [HeaderQueue.empty, decide_eq_true_eq, ← List.length_eq_zero_iff]
  omega

theorem waiting_enqueue (h : Waiting q hs) (x : H) : Waiting (q.enqueue x) (hs ++ [x]) := by
  obtain ⟨done, hholds, hstart⟩ := h.holds
  have hpush := push2_holds hholds h.rows_pos (show 0 < q.tbl.nprocs by rw [h.nprocs]; decide) x
  have hn : (q.enqueue x).tbl.nprocs = 1 := (push_nprocs q.tbl 0 (fun i _ _ => i) x).trans h.nprocs
  refine ⟨⟨done, hpush.congr fun c hc => ?_, hstart⟩, hn,
    lt_of_lt_of_le h.rows_pos (push_rows_le q.tbl 0 (fun i _ _ => i) x)⟩
  have hc0 : c = 0 := by
    have hlt : c < (q.enqueue x).tbl.nprocs := hc
    omega
  rw [hc0, Function.update_self, List.append_assoc]

theorem waiting_head (h : Waiting q (x :: hs)) : q.head = x := by
  obtain ⟨done, hholds, hstart⟩ := h.holds
  have hpos : 0 < q.tbl.nprocs := by rw [h.nprocs]; decide
  have hlt : q.start < q.tbl.usedSlotCount 0 := by
    rw [hholds.used 0 hpos, List.length_append, List.length_cons]
    omega
  have hcell := congrArg (fun l => l[q.start]?) (hholds.content 0 hpos)
  rw [load_getElem? _ hlt, hstart, List.getElem?_append_right (Nat.le_refl _), Nat.sub_self,
    List.getElem?_cons_zero, Option.some.injEq] at hcell
  rw [← hcell, HeaderQueue.head, hstart, col, column, Nat.zero_mul, Nat.zero_add, Nat.zero_add]

theorem waiting_next (h : Waiting q (x :: hs)) : Waiting q.next hs := by
  obtain ⟨done, hholds, hstart⟩ := h.holds
  refine ⟨⟨done ++ [x], hholds.congr fun c _ => by simp, ?_⟩, h.nprocs, h.rows_pos⟩
  rw [List.length_append, List.length_singleton, HeaderQueue.next, hstart]

end Waiting

/-- The storage in units of eight bytes; the end is within what is allocated. -/
structure MessageBuffer where
  storageEnd : ℕ
  size : ℕ
  storage : ℕ → UInt8
  fresh : ℕ → ℕ → UInt8
  fits : storageEnd ≤ size

namespace MessageBuffer

def create (fresh : ℕ → ℕ → UInt8) : MessageBuffer :=
  { storageEnd := 0, size := 0, storage := fresh 0, fresh := fresh, fits := le_rfl }

def resized (b : MessageBuffer) (size : ℕ) : ℕ → UInt8 :=
  if b.size = size then b.storage
  else fun i => if i < 8 * min b.size size then b.storage i else b.fresh size i

def buffer (b : MessageBuffer) (src : List UInt8) : MessageBuffer × ℕ :=
  let storageEnd := b.storageEnd + (src.length + 7) / 8
  let size := if b.size ≤ storageEnd then storageEnd + delivtabMinSize + 1 else b.size
  ({ b with
      storageEnd := storageEnd
      size := size
      storage := store (b.resized size) (8 * b.storageEnd) src
      fits := by simp only [size]; split <;> omega },
    b.storageEnd)

def get (b : MessageBuffer) (offset nbytes : ℕ) : List UInt8 := load b.storage (8 * offset) nbytes

def clear (b : MessageBuffer) : MessageBuffer :=
  { b with
    storageEnd := 0
    size := delivtabMinSize
    storage := b.resized delivtabMinSize
    fits := Nat.zero_le _ }

end MessageBuffer

def Kept (b : MessageBuffer) (offset : ℕ) (bs : List UInt8) : Prop :=
  b.get offset bs.length = bs ∧ 8 * offset + bs.length ≤ 8 * b.storageEnd

section Buffer

variable {b : MessageBuffer}

theorem resized_of_lt {size i : ℕ} (hle : b.size ≤ size) (hi : i < 8 * b.storageEnd) :
    b.resized size i = b.storage i := by
  have hfits := b.fits
  unfold MessageBuffer.resized
  split
  · rfl
  · exact if_pos (by omega)

theorem buffer_kept (src : List UInt8) : Kept (b.buffer src).1 (b.buffer src).2 src := by
  refine ⟨load_store_same _ _ _, ?_⟩
  show 8 * b.storageEnd + src.length ≤ 8 * (b.storageEnd + (src.length + 7) / 8)
  omega

theorem buffer_keeps {offset : ℕ} {bs : List UInt8} (h : Kept b offset bs) (src : List UInt8) :
    Kept (b.buffer src).1 offset bs := by
  obtain ⟨hget, hend⟩ := h
  refine ⟨?_, ?_⟩
  · refine Eq.trans ?_ hget
    apply load_congr
    intro i hi
    simp only [MessageBuffer.buffer]
    rw [store_of_lt _ _ (by omega)]
    apply resized_of_lt
    · split <;> omega
    · omega
  · show 8 * offset + bs.length ≤ 8 * (b.storageEnd + (src.length + 7) / 8)
    omega

end Buffer

structure LocalMemoryDelivery where
  src : ℕ
  dst : ℕ
  nbytes : ℕ

structure BufferedLocalMemoryDelivery where
  offset : ℕ
  dst : ℕ
  nbytes : ℕ

/-- What a message refers to: memory of the program, or bytes of the received table. -/
inductive Pointer
  | memory (address : ℕ)
  | received (byte : ℕ)

/-- `BSMessage`; the flag `buffered` tells which members of its unions are in use. -/
inductive BSMessage
  | buffered (tag src nbytes : ℕ)
  | unbuffered (tag src : Pointer) (nbytes : ℕ)

def BSMessage.nbytes : BSMessage → ℕ
  | .buffered _ _ nbytes => nbytes
  | .unbuffered _ _ nbytes => nbytes

structure LocalDeliveryQueue where
  puts : HeaderQueue BufferedLocalMemoryDelivery
  putBuffer : MessageBuffer
  hpputs : HeaderQueue LocalMemoryDelivery
  messageSendBuffer : MessageBuffer
  messageSendQueue : HeaderQueue BSMessage
  messageMoveBuffer : MessageBuffer
  messageMoveQueue : HeaderQueue BSMessage
  bytesSent : ℕ
  bytesToMove : ℕ

structure LocalAlloc where
  puts : ℕ → ℕ → BufferedLocalMemoryDelivery
  hpputs : ℕ → ℕ → LocalMemoryDelivery
  messages : ℕ → ℕ → BSMessage
  bytes : ℕ → ℕ → UInt8

namespace LocalDeliveryQueue

def create (alloc : LocalAlloc) : LocalDeliveryQueue :=
  { puts := .create alloc.puts
    putBuffer := .create alloc.bytes
    hpputs := .create alloc.hpputs
    messageSendBuffer := .create alloc.bytes
    messageSendQueue := .create alloc.messages
    messageMoveBuffer := .create alloc.bytes
    messageMoveQueue := .create alloc.messages
    bytesSent := 0
    bytesToMove := 0 }

def executeHpputs : ℕ → HeaderQueue LocalMemoryDelivery → Mem →
    HeaderQueue LocalMemoryDelivery × Mem
  | 0, q, mem => (q, mem)
  | k + 1, q, mem =>
    if q.empty then (q, mem)
    else executeHpputs k q.next (store mem q.head.dst (load mem q.head.src q.head.nbytes))

def executePuts (b : MessageBuffer) : ℕ → HeaderQueue BufferedLocalMemoryDelivery → Mem →
    HeaderQueue BufferedLocalMemoryDelivery × Mem
  | 0, q, mem => (q, mem)
  | k + 1, q, mem =>
    if q.empty then (q, mem)
    else executePuts b k q.next (store mem q.head.dst (b.get q.head.offset q.head.nbytes))

def execute (c : LocalDeliveryQueue) (mem : Mem) : LocalDeliveryQueue × Mem :=
  let hp := executeHpputs c.hpputs.qsize c.hpputs mem
  let ps := executePuts c.putBuffer c.puts.qsize c.puts hp.2
  ({ c with hpputs := hp.1, puts := ps.1, putBuffer := c.putBuffer.clear }, ps.2)

def put (c : LocalDeliveryQueue) (src : List UInt8) (dst : ℕ) : LocalDeliveryQueue :=
  let b := c.putBuffer.buffer src
  { c with
    putBuffer := b.1
    puts := c.puts.enqueue { offset := b.2, dst := dst, nbytes := src.length } }

def hpput (c : LocalDeliveryQueue) (src dst nbytes : ℕ) : LocalDeliveryQueue :=
  { c with hpputs := c.hpputs.enqueue { src := src, dst := dst, nbytes := nbytes } }

def send (c : LocalDeliveryQueue) (tag data : List UInt8) : LocalDeliveryQueue :=
  let b₁ := c.messageSendBuffer.buffer data
  let b₂ := b₁.1.buffer tag
  { c with
    messageSendBuffer := b₂.1
    messageSendQueue := c.messageSendQueue.enqueue (.buffered b₂.2 b₁.2 data.length)
    bytesSent := c.bytesSent + data.length }

def hpsend (c : LocalDeliveryQueue) (tag data : Pointer) (nbytes : ℕ) : LocalDeliveryQueue :=
  { c with
    messageSendQueue := c.messageSendQueue.enqueue (.unbuffered tag data nbytes)
    bytesSent := c.bytesSent + nbytes }

def bsmpQsize (c : LocalDeliveryQueue) : ℕ := c.messageMoveQueue.qsize
def bsmpMoveBytes (c : LocalDeliveryQueue) : ℕ := c.bytesToMove
def bsmpTopSize (c : LocalDeliveryQueue) : ℕ := c.messageMoveQueue.head.nbytes

/-- Where the top message and its tag are: in the move buffer or elsewhere. -/
def bsmpTopMessage (c : LocalDeliveryQueue) : ℕ ⊕ Pointer :=
  match c.messageMoveQueue.head with
  | .buffered _ src _ => .inl src
  | .unbuffered _ src _ => .inr src

def bsmpTopTag (c : LocalDeliveryQueue) : ℕ ⊕ Pointer :=
  match c.messageMoveQueue.head with
  | .buffered tag _ _ => .inl tag
  | .unbuffered tag _ _ => .inr tag

def bsmpAdvance (c : LocalDeliveryQueue) : LocalDeliveryQueue :=
  if c.messageMoveQueue.empty then c
  else { c with
    bytesToMove := c.bytesToMove - c.messageMoveQueue.head.nbytes
    messageMoveQueue := c.messageMoveQueue.next }

def bsmpMessagequeueSync (c : LocalDeliveryQueue) : LocalDeliveryQueue :=
  { c with
    puts := c.puts.reset
    hpputs := c.hpputs.reset
    messageSendBuffer := c.messageMoveBuffer.clear
    messageSendQueue := c.messageMoveQueue.reset
    messageMoveBuffer := c.messageSendBuffer
    messageMoveQueue := c.messageSendQueue
    bytesSent := 0
    bytesToMove := c.bytesSent }

def resetBuffers (c : LocalDeliveryQueue) : LocalDeliveryQueue :=
  { c with
    putBuffer := c.putBuffer.clear
    puts := c.puts.reset
    hpputs := c.hpputs.reset
    messageSendQueue := c.messageSendQueue.reset
    messageMoveQueue := c.messageMoveQueue.reset
    messageSendBuffer := c.messageSendBuffer.clear
    messageMoveBuffer := c.messageMoveBuffer.clear
    bytesSent := 0
    bytesToMove := 0 }

end LocalDeliveryQueue

/-- A message that was copied when it was sent, or one that is read when it is moved. -/
inductive LocalMessage
  | copied (m : Message)
  | pointed (tag payload : Pointer) (nbytes : ℕ)

def LocalMessage.nbytes : LocalMessage → ℕ
  | .copied m => m.payload.length
  | .pointed _ _ nbytes => nbytes

def Carries (b : MessageBuffer) : BSMessage → LocalMessage → Prop
  | .buffered tag src nbytes, .copied m =>
    nbytes = m.payload.length ∧ Kept b tag m.tag ∧ Kept b src m.payload
  | .unbuffered tag src nbytes, .pointed t p k => tag = t ∧ src = p ∧ nbytes = k
  | _, _ => False

structure Mailbox (q : HeaderQueue BSMessage) (b : MessageBuffer) (bytes : ℕ)
    (ms : List LocalMessage) : Prop where
  waiting : ∃ hs, Waiting q hs ∧ List.Forall₂ (Carries b) hs ms
  bytes : bytes = (ms.map LocalMessage.nbytes).sum

def PutFrom (b : MessageBuffer) (d : BufferedLocalMemoryDelivery) (w : ℕ × List UInt8) : Prop :=
  d.dst = w.1 ∧ d.nbytes = w.2.length ∧ Kept b d.offset w.2

/-- The gets, the puts and the messages that wait for the end of the superstep, and
the messages that can be moved. -/
structure Pending (c : LocalDeliveryQueue) (gets : List LocalMemoryDelivery)
    (puts : List (ℕ × List UInt8)) (sent moved : List LocalMessage) : Prop where
  gets : Waiting c.hpputs gets
  puts : ∃ ds, Waiting c.puts ds ∧ List.Forall₂ (PutFrom c.putBuffer) ds puts
  sent : Mailbox c.messageSendQueue c.messageSendBuffer c.bytesSent sent
  moved : Mailbox c.messageMoveQueue c.messageMoveBuffer c.bytesToMove moved

section Mailbox

variable {q : HeaderQueue BSMessage} {b : MessageBuffer} {bytes : ℕ} {m : LocalMessage}
  {ms : List LocalMessage}

theorem carries_buffer {h : BSMessage} (hc : Carries b h m) (src : List UInt8) :
    Carries (b.buffer src).1 h m := by
  cases h with
  | buffered tag src' nbytes =>
    cases m with
    | copied m => exact ⟨hc.1, buffer_keeps hc.2.1 src, buffer_keeps hc.2.2 src⟩
    | pointed => exact hc.elim
  | unbuffered tag src' nbytes =>
    cases m with
    | copied m => exact hc.elim
    | pointed => exact hc

theorem carries_nbytes {h : BSMessage} (hc : Carries b h m) : h.nbytes = m.nbytes := by
  cases h with
  | buffered tag src nbytes =>
    cases m with
    | copied m => exact hc.1
    | pointed => exact hc.elim
  | unbuffered tag src nbytes =>
    cases m with
    | copied m => exact hc.elim
    | pointed => exact hc.2.2

theorem mailbox_append {b' : MessageBuffer} {h : BSMessage} (hq : Mailbox q b bytes ms)
    (hb : ∀ h m, Carries b h m → Carries b' h m) (hc : Carries b' h m) :
    Mailbox (q.enqueue h) b' (bytes + h.nbytes) (ms ++ [m]) := by
  obtain ⟨hs, hw, hcs⟩ := hq.waiting
  refine ⟨⟨hs ++ [h], waiting_enqueue hw h, ?_⟩, ?_⟩
  · exact List.rel_append (hcs.imp hb) (.cons hc .nil)
  · rw [List.map_append, List.sum_append, hq.bytes, carries_nbytes hc]
    simp

theorem mailbox_next (hq : Mailbox q b bytes (m :: ms)) :
    Carries b q.head m ∧ Mailbox q.next b (bytes - q.head.nbytes) ms := by
  obtain ⟨hs, hw, hcs⟩ := hq.waiting
  cases hcs with
  | cons hc hcs =>
    rw [waiting_head hw]
    refine ⟨hc, ⟨_, waiting_next hw, hcs⟩, ?_⟩
    rw [carries_nbytes hc, hq.bytes, List.map_cons, List.sum_cons]
    omega

theorem mailbox_qsize (hq : Mailbox q b bytes ms) : q.qsize = ms.length := by
  obtain ⟨hs, hw, hcs⟩ := hq.waiting
  rw [waiting_qsize hw, hcs.length_eq]

theorem mailbox_reset (hq : Mailbox q b bytes ms) (b' : MessageBuffer) :
    Mailbox q.reset b' 0 [] := by
  obtain ⟨hs, hw, -⟩ := hq.waiting
  exact ⟨⟨[], waiting_reset hw, .nil⟩, rfl⟩

end Mailbox

section Pending

variable {c : LocalDeliveryQueue} {gets : List LocalMemoryDelivery} {puts : List (ℕ × List UInt8)}
  {sent moved : List LocalMessage}

theorem pending_create (alloc : LocalAlloc) : Pending (.create alloc) [] [] [] [] :=
  ⟨waiting_create _, ⟨[], waiting_create _, .nil⟩, ⟨⟨[], waiting_create _, .nil⟩, rfl⟩,
    ⟨⟨[], waiting_create _, .nil⟩, rfl⟩⟩

theorem pending_put (h : Pending c gets puts sent moved) (src : List UInt8) (dst : ℕ) :
    Pending (c.put src dst) gets (puts ++ [(dst, src)]) sent moved := by
  obtain ⟨ds, hw, hds⟩ := h.puts
  refine ⟨h.gets, ⟨_, waiting_enqueue hw _, ?_⟩, h.sent, h.moved⟩
  refine List.rel_append (hds.imp fun d w hd => ⟨hd.1, hd.2.1, buffer_keeps hd.2.2 src⟩)
    (.cons ?_ .nil)
  exact ⟨rfl, rfl, buffer_kept src⟩

theorem pending_hpput (h : Pending c gets puts sent moved) (src dst nbytes : ℕ) :
    Pending (c.hpput src dst nbytes) (gets ++ [⟨src, dst, nbytes⟩]) puts sent moved :=
  ⟨waiting_enqueue h.gets _, h.puts, h.sent, h.moved⟩

theorem pending_send (h : Pending c gets puts sent moved) (m : Message) :
    Pending (c.send m.tag m.payload) gets puts (sent ++ [.copied m]) moved := by
  refine ⟨h.gets, h.puts, mailbox_append h.sent
    (fun _ _ hc => carries_buffer (carries_buffer hc _) _) ?_, h.moved⟩
  exact ⟨rfl, buffer_kept _, buffer_keeps (buffer_kept _) _⟩

theorem pending_hpsend (h : Pending c gets puts sent moved) (tag payload : Pointer) (nbytes : ℕ) :
    Pending (c.hpsend tag payload nbytes) gets puts (sent ++ [.pointed tag payload nbytes]) moved :=
  ⟨h.gets, h.puts, mailbox_append h.sent (fun _ _ hc => hc) ⟨rfl, rfl, rfl⟩, h.moved⟩

theorem pending_advance {m : LocalMessage} (h : Pending c gets puts sent (m :: moved)) :
    Pending c.bsmpAdvance gets puts sent moved := by
  have hne : c.messageMoveQueue.empty = false := by
    obtain ⟨hs, hw, hcs⟩ := h.moved.waiting
    have hnil : hs ≠ [] := by
      rintro rfl
      cases hcs
    rw [← Bool.not_eq_true, waiting_empty hw]
    exact hnil
  rw [LocalDeliveryQueue.bsmpAdvance, hne]
  exact ⟨h.gets, h.puts, h.sent, (mailbox_next h.moved).2⟩

theorem pending_advance_nil (h : Pending c gets puts sent []) : c.bsmpAdvance = c := by
  have hempty : c.messageMoveQueue.empty = true := by
    obtain ⟨hs, hw, hcs⟩ := h.moved.waiting
    cases hcs
    exact (waiting_empty hw).mpr rfl
  rw [LocalDeliveryQueue.bsmpAdvance, if_pos hempty]

def copyAll (mem : Mem) (gets : List LocalMemoryDelivery) : Mem :=
  gets.foldl (fun mem d => store mem d.dst (load mem d.src d.nbytes)) mem

theorem executeHpputs_spec {q : HeaderQueue LocalMemoryDelivery} (h : Waiting q gets) {k : ℕ}
    (hk : gets.length ≤ k) (mem : Mem) :
    (LocalDeliveryQueue.executeHpputs k q mem).2 = copyAll mem gets ∧
      Waiting (LocalDeliveryQueue.executeHpputs k q mem).1 [] := by
  induction k generalizing q gets mem with
  | zero =>
    cases List.length_eq_zero_iff.mp (Nat.le_zero.mp hk)
    exact ⟨rfl, h⟩
  | succ k ih =>
    rw [LocalDeliveryQueue.executeHpputs]
    cases gets with
    | nil =>
      rw [if_pos ((waiting_empty h).mpr rfl)]
      exact ⟨rfl, h⟩
    | cons d gets =>
      rw [if_neg (by rw [waiting_empty h]; simp), waiting_head h]
      exact ih (waiting_next h) (by simpa using hk) _

theorem executePuts_spec {b : MessageBuffer} {q : HeaderQueue BufferedLocalMemoryDelivery}
    {ds : List BufferedLocalMemoryDelivery} (h : Waiting q ds)
    (hds : List.Forall₂ (PutFrom b) ds puts)
    {k : ℕ} (hk : ds.length ≤ k) (mem : Mem) :
    (LocalDeliveryQueue.executePuts b k q mem).2 = writeAll mem puts ∧
      Waiting (LocalDeliveryQueue.executePuts b k q mem).1 [] := by
  induction k generalizing q ds puts mem with
  | zero =>
    cases List.length_eq_zero_iff.mp (Nat.le_zero.mp hk)
    cases hds
    exact ⟨rfl, h⟩
  | succ k ih =>
    rw [LocalDeliveryQueue.executePuts]
    cases hds with
    | nil =>
      rw [if_pos ((waiting_empty h).mpr rfl)]
      exact ⟨rfl, h⟩
    | @cons d w ds puts hd hds =>
      obtain ⟨hdst, hsize, hget, -⟩ := hd
      rw [if_neg (by rw [waiting_empty h]; simp), waiting_head h, hdst, hsize, hget, writeAll_cons]
      exact ih (waiting_next h) hds (by simpa using hk) _

theorem execute_pending (h : Pending c gets puts sent moved) (mem : Mem) :
    (c.execute mem).2 = writeAll (copyAll mem gets) puts ∧
      Pending (c.execute mem).1 [] [] sent moved := by
  obtain ⟨ds, hw, hds⟩ := h.puts
  obtain ⟨hmem, hgets⟩ := executeHpputs_spec h.gets (waiting_qsize h.gets).ge mem
  obtain ⟨hmem', hputs⟩ := executePuts_spec hw hds (waiting_qsize hw).ge (copyAll mem gets)
  rw [LocalDeliveryQueue.execute, hmem]
  exact ⟨hmem', hgets, ⟨[], hputs, .nil⟩, h.sent, h.moved⟩

theorem messagequeueSync_pending (h : Pending c gets puts sent moved) :
    Pending c.bsmpMessagequeueSync [] [] [] sent := by
  obtain ⟨ds, hw, -⟩ := h.puts
  exact ⟨waiting_reset h.gets, ⟨[], waiting_reset hw, .nil⟩, mailbox_reset h.moved _, h.sent⟩

theorem resetBuffers_pending (h : Pending c gets puts sent moved) :
    Pending c.resetBuffers [] [] [] [] := by
  obtain ⟨ds, hw, -⟩ := h.puts
  exact ⟨waiting_reset h.gets, ⟨[], waiting_reset hw, .nil⟩, mailbox_reset h.sent _,
    mailbox_reset h.moved _⟩

end Pending

end BspOnMpi.LocalDelivery
