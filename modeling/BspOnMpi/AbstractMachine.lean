import BspOnMpi.Messages

/-! The machine as a program sees it. A processor without tables: its memory, its registrations,
its inbox and the calls of the superstep so far. A call is undefined outside the interface. Every
run that the machine has, the library has, with the same answers to the program. -/

namespace BspOnMpi.AbstractMachine
open Lib Exptable Slots Delivtable Memreg DelivExecute Machine Calls BspxSync Superstep Messages
open Bspx hiding exec

structure Processor where
  mem : Mem
  rows : List Row
  sendTagSize : ℕ
  recvTagSize : ℕ
  inbox : List Message
  calls : List Call
  globalArrayLast : ℕ
  globalOverflow : Bool
  globalArrays : ℕ → GlobalArray

inductive Answer
  | tagSize (size : ℕ)
  | status (size : Option ℕ)
  | message (m : Option Message)
  | handle (ptr : ℕ)

def Processor.queue (a : Processor) (call : Call) : Processor :=
  { a with calls := a.calls ++ [call] }

def Processor.nextHandle (a : Processor) : Option ℕ :=
  if a.globalOverflow then freeHandle a.globalArrays (maxGlobalArrays + 2) a.globalArrayLast
  else some a.globalArrayLast

section Step

variable (n rank : ℕ)

def Processor.translate (a : Processor) (pid base : ℕ) : Option ℕ :=
  (lastRow a.rows rank base).map fun r => r pid

def exec (op : Op) (a : Processor) : Option Processor :=
  match op with
  | .pushReg ident => some (a.queue (.pushReg ident))
  | .popReg ident => some (a.queue (.popReg ident))
  | .put pid src dst offset nbytes | .hpput pid src dst offset nbytes =>
    if pid < n ∧ nbytes < 2 ^ 31 then
      (a.translate rank pid dst).map fun base =>
        a.queue (.put pid (addOffset base offset) (load a.mem src nbytes))
    else none
  | .get pid src offset dst nbytes | .hpget pid src offset dst nbytes =>
    if pid < n ∧ nbytes < 2 ^ 31 ∧ -2 ^ 31 ≤ offset ∧ offset < 2 ^ 31 then
      (a.translate rank pid src).map fun base => a.queue (.get pid base offset dst nbytes)
    else none
  | .send pid tag payload nbytes =>
    if pid < n ∧ nbytes + a.sendTagSize < 2 ^ 31 then
      some (a.queue (.send pid ⟨load a.mem tag a.sendTagSize, load a.mem payload nbytes⟩))
    else none
  | .setTagsize tagNbytes => some (a.queue (.setTagsize (toUInt32 tagNbytes)))
  | .getTag tag =>
    match a.inbox with
    | [] => some a
    | m :: _ => some { a with mem := store a.mem tag m.tag }
  | .move payload nbytes =>
    match a.inbox with
    | [] => none
    | m :: ms =>
      -- the library cuts at the end of tag and payload together
      if nbytes < 2 ^ 32 ∧ (nbytes ≤ m.payload.length ∨ m.tag = []) then
        some { a with mem := store a.mem payload (m.payload.take nbytes), inbox := ms }
      else none
  | .hpmove => some { a with inbox := a.inbox.tail }
  | .globalAlloc arraySize localSlice =>
    a.nextHandle.map fun handle =>
      let globalArray : GlobalArray :=
        { arraySize := arraySize, localSize := allocSize arraySize n,
          localSlice := some localSlice }
      let last := (handle + 1) % maxGlobalArrays
      { a.queue (.pushReg localSlice) with
        globalArrays := Function.update a.globalArrays handle globalArray
        globalArrayLast := last
        globalOverflow := a.globalOverflow || last == 0 }
  | .globalFree ptr =>
    let slice := (a.globalArrays ptr).localSlice.getD 0
    let globalArray := { a.globalArrays ptr with localSlice := none }
    some { a.queue (.popReg slice) with
      globalArrays := Function.update a.globalArrays ptr globalArray }
  | .compute f => some { a with mem := f a.mem }

def answers (op : Op) (a : Processor) : List Answer :=
  match op with
  | .setTagsize _ => [.tagSize a.sendTagSize]
  | .getTag _ => [.status (a.inbox.head?.map fun m => m.tag.length + m.payload.length)]
  | .hpmove => [.message a.inbox.head?]
  | .globalAlloc .. => a.nextHandle.toList.map .handle
  | _ => []

end Step

/-- What the calls of the library return; the pointers of `bspx_hpmove` are followed. -/
def libraryAnswers (op : Op) (p : Proc) : List Answer :=
  match op with
  | .setTagsize tagNbytes => [.tagSize (bspxSetTagsize p.bsp p.stack tagNbytes).2]
  | .getTag tag => (bspxGetTag p.bsp p.mem tag).toList.map fun r => .status r.1
  | .hpmove => (bspxHpmove p.bsp).toList.map fun r =>
    let bytes := loadBytes p.bsp.deliveryReceivedTable.data
    .message (r.2.map fun (size, tag, payload) =>
      ⟨bytes tag p.bsp.messageQueue.recvTagSize, bytes payload size⟩)
  | .globalAlloc arraySize localSlice =>
    (bspxGlobalAlloc p.bsp p.stack arraySize localSlice).toList.map fun r => .handle r.2
  | _ => []

def decidePoppable (q : ℕ) : (rs : List Row) → (as : List ℕ) → Decidable (Poppable q rs as)
  | _, [] => .isTrue trivial
  | rs, a :: as =>
    have := decidePoppable q (eraseLast (fun r => r q = a) rs) as
    inferInstanceAs (Decidable (_ ∧ _))

instance (q : ℕ) (rs : List Row) (as : List ℕ) : Decidable (Poppable q rs as) :=
  decidePoppable q rs as

section Sync

variable (n : ℕ) (w : ℕ → Processor)

def callsAt (p : ℕ) : List Call := (w p).calls

/-- Registrations are collective, every pop finds its address, the tag sizes agree. -/
def Legal : Prop :=
  (∀ p < n, (pushes (callsAt w p)).length = (pushes (callsAt w 0)).length) ∧
    (∀ q < n, Poppable q ((w q).rows ++ newRows n (callsAt w)) (pops (callsAt w q))) ∧
    ∀ p < n, (w p).sendTagSize = (w 0).sendTagSize

instance : Decidable (Legal n w) := inferInstanceAs (Decidable (_ ∧ _ ∧ _))

def barrier (q : ℕ) : Processor :=
  { w q with
    mem := memAfter n (callsAt w) (fun p => (w p).mem) q
    rows := rowsAfter n (callsAt w) (w q).rows q
    sendTagSize := tagAfter (w q).sendTagSize (w q).calls
    recvTagSize := (w q).sendTagSize
    inbox := inboxAfter n (callsAt w) q
    calls := [] }

def sync : Option (ℕ → Processor) :=
  if Legal n w then some fun q => if q < n then barrier n w q else w q else none

end Sync

def superstep (n : ℕ) (ops : ℕ → List Op) (w : ℕ → Processor) : Option (ℕ → Processor) :=
  (allBelow n (fun p => run (exec n p) (ops p) (w p)) w).bind (sync n)

def transcript (n : ℕ) (ops : ℕ → List Op) (w : ℕ → Processor) : List (List Answer) :=
  (List.range n).map fun p => trace (exec n p) answers (ops p) (w p)

def libraryTranscript (n : ℕ) (ops : ℕ → List Op) (w : World) : List (List Answer) :=
  (List.range n).map fun p => trace Bspx.exec libraryAnswers (ops p) (w p)

/-- Processor `q` of the library with everything that its tables hold. -/
structure Represents (n q : ℕ) (p : Proc) (a : Processor) : Prop where
  logged : Logged ⟨n, q, a.rows, a.sendTagSize⟩ a.calls p
  mem : p.mem = a.mem
  recvTagSize : p.bsp.messageQueue.recvTagSize = a.recvTagSize
  holding : Holding p.bsp a.inbox
  sent : ∀ pid m, Call.send pid m ∈ a.calls → m.tag.length = a.sendTagSize
  last : p.bsp.globalArrayLast = a.globalArrayLast
  overflow : p.bsp.globalOverflow = a.globalOverflow
  arrays : p.bsp.globalArrays = a.globalArrays

section Exec

variable {n q : ℕ} {p : Proc} {a a' : Processor} {op : Op}

theorem represents_nextHandle (h : Represents n q p a) : nextHandle p.bsp = a.nextHandle := by
  rw [nextHandle, Processor.nextHandle, h.last, h.overflow, h.arrays]

def Queues : Op → Prop
  | .pushReg _ | .popReg _ | .put .. | .hpput .. | .get .. | .hpget .. | .send ..
  | .setTagsize _ => True
  | _ => False

structure SameRest (p p' : Proc) : Prop where
  mem : p'.mem = p.mem
  queue : p'.bsp.messageQueue = p.bsp.messageQueue
  received : p'.bsp.deliveryReceivedTable = p.bsp.deliveryReceivedTable
  last : p'.bsp.globalArrayLast = p.bsp.globalArrayLast
  overflow : p'.bsp.globalOverflow = p.bsp.globalOverflow
  arrays : p'.bsp.globalArrays = p.bsp.globalArrays

theorem queues_rest (hop : Queues op) {p' : Proc} (h : Bspx.exec op p = some p') :
    SameRest p p' := by
  cases op with
  | pushReg | popReg | send | setTagsize =>
    cases h
    exact ⟨rfl, rfl, rfl, rfl, rfl, rfl⟩
  | put | hpput | get | hpget =>
    obtain ⟨bsp, hbsp, rfl⟩ := Option.map_eq_some_iff.mp h
    obtain ⟨base, -, hret⟩ := Option.bind_eq_some_iff.mp hbsp
    cases hret
    exact ⟨rfl, rfl, rfl, rfl, rfl, rfl⟩
  | getTag | move | hpmove | globalAlloc | globalFree | compute => exact hop.elim

theorem represents_queue (h : Represents n q p a) {call : Call} {p' : Proc}
    (hl : Logged ⟨n, q, a.rows, a.sendTagSize⟩ (a.calls ++ [call]) p')
    (hsend : ∀ pid m, call = .send pid m → m.tag.length = a.sendTagSize) (hr : SameRest p p') :
    Represents n q p' (a.queue call) := by
  refine ⟨hl, hr.mem.trans h.mem, ?_, ⟨?_, ?_⟩, fun pid m hm => ?_, hr.last.trans h.last,
    hr.overflow.trans h.overflow, hr.arrays.trans h.arrays⟩
  · rw [hr.queue]
    exact h.recvTagSize
  · rw [hr.queue, hr.received]
    exact h.holding.queued
  · rw [hr.queue]
    exact h.holding.tags
  · rcases List.mem_append.mp hm with hm | hm
    · exact h.sent pid m hm
    · exact hsend pid m (List.mem_singleton.mp hm).symm

theorem translate_some {pid base b : ℕ} (h : a.translate q pid base = some b) :
    ∃ r, lastRow a.rows q base = some r ∧ r pid = b :=
  Option.map_eq_some_iff.mp h

theorem queues_call (h : Represents n q p a) (hop : Queues op) (hs : exec n q op a = some a') :
    ∃ call, a' = a.queue call ∧ Admitted ⟨n, q, a.rows, a.sendTagSize⟩ op p ∧
      callOf ⟨n, q, a.rows, a.sendTagSize⟩ op p = [call] ∧
      ∀ pid m, call = .send pid m → m.tag.length = a.sendTagSize := by
  have hmem := h.mem
  cases op with
  | pushReg | popReg | setTagsize =>
    cases hs
    exact ⟨_, rfl, trivial, rfl, by simp⟩
  | put pid src dst offset nbytes | hpput pid src dst offset nbytes =>
    simp only [exec] at hs
    split at hs
    · rename_i hok
      obtain ⟨base, hbase, rfl⟩ := Option.map_eq_some_iff.mp hs
      obtain ⟨r, hr, rfl⟩ := translate_some hbase
      refine ⟨_, rfl, ⟨hok.1, hok.2, by rw [hr]; simp⟩, ?_, by simp⟩
      simp only [callOf, hr, hmem]
      rfl
    · cases hs
  | get pid src offset dst nbytes | hpget pid src offset dst nbytes =>
    simp only [exec] at hs
    split at hs
    · rename_i hok
      obtain ⟨base, hbase, rfl⟩ := Option.map_eq_some_iff.mp hs
      obtain ⟨r, hr, rfl⟩ := translate_some hbase
      refine ⟨_, rfl, ⟨hok.1, hok.2.1, hok.2.2.1, hok.2.2.2, by rw [hr]; simp⟩, ?_, by simp⟩
      simp only [callOf, hr]
      rfl
    · cases hs
  | send pid tag payload nbytes =>
    simp only [exec] at hs
    split at hs
    · rename_i hok
      cases hs
      refine ⟨_, rfl, hok, by simp only [callOf, hmem], fun pid' m hm => ?_⟩
      cases hm
      exact load_length ..
    · cases hs
  | getTag | move | hpmove | globalAlloc | globalFree | compute => exact hop.elim

theorem queues_refines (h : Represents n q p a) (hs : exec n q op a = some a') (hop : Queues op) :
    ∃ p', Bspx.exec op p = some p' ∧ Represents n q p' a' := by
  obtain ⟨call, rfl, hok, hcall, hsend⟩ := queues_call h hop hs
  obtain ⟨p', hp', hl⟩ := exec_logged h.logged op hok
  rw [hcall] at hl
  exact ⟨p', hp', represents_queue h hl hsend (queues_rest hop hp')⟩

theorem getTag_refines (h : Represents n q p a) (tag : ℕ)
    (hs : exec n q (.getTag tag) a = some a') :
    ∃ p', Bspx.exec (.getTag tag) p = some p' ∧ Represents n q p' a' ∧
      libraryAnswers (.getTag tag) p = answers (.getTag tag) a := by
  have hhold := h.holding
  simp only [exec] at hs
  cases hin : a.inbox with
  | nil =>
    rw [hin] at hs hhold
    cases hs
    have h0 : p.bsp.messageQueue.nMesg = 0 := hhold.queued.nMesg
    have hget : bspxGetTag p.bsp p.mem tag = some (none, p.mem) := by rw [bspxGetTag, if_pos h0]
    refine ⟨p, by simp only [Bspx.exec, hget]; rfl, h, ?_⟩
    simp only [libraryAnswers, hget, answers, hin]
    rfl
  | cons m ms =>
    rw [hin] at hs hhold
    cases hs
    obtain ⟨head, hhead, hn, hsize, -, htag, -, -⟩ := holding_cons hhold
    have hget := getTag_head hhead (by omega) p.mem tag
    rw [hsize, htag] at hget
    refine ⟨_, by simp only [Bspx.exec, hget]; rfl, ?_, ?_⟩
    · exact ⟨logged_queue h.logged _ h.logged.queue rfl, congrArg (store · tag m.tag) h.mem,
        h.recvTagSize, ⟨hhold.queued, hhold.tags⟩, h.sent, h.last, h.overflow, h.arrays⟩
    · simp only [libraryAnswers, hget, answers, hin]
      rfl

theorem represents_dequeue (h : Represents n q p a) {m : Message} {ms : List Message}
    (hin : a.inbox = m :: ms) {head : ℕ} (hhead : p.bsp.messageQueue.head = some head) (size : ℕ)
    {mem mem' : Mem} (hmem : mem = mem') :
    Represents n q { p with bsp := dequeue p.bsp head size, mem := mem }
      { a with mem := mem', inbox := ms } := by
  have hhold := h.holding
  rw [hin] at hhold
  obtain ⟨head', hhead', -, -, -, -, -, htail⟩ := holding_cons hhold
  cases hhead.symm.trans hhead'
  exact ⟨logged_queue h.logged mem ⟨_, (htail size).queued⟩ rfl, hmem, h.recvTagSize, htail size,
    h.sent, h.last, h.overflow, h.arrays⟩

theorem move_refines (h : Represents n q p a) (payload nbytes : ℕ)
    (hs : exec n q (.move payload nbytes) a = some a') :
    ∃ p', Bspx.exec (.move payload nbytes) p = some p' ∧ Represents n q p' a' := by
  have hhold := h.holding
  simp only [exec] at hs
  cases hin : a.inbox with
  | nil =>
    rw [hin] at hs
    cases hs
  | cons m ms =>
    rw [hin] at hs hhold
    simp only at hs
    split at hs
    · rename_i hok
      cases hs
      obtain ⟨hlt, hcut⟩ := hok
      obtain ⟨head, hhead, -, hsize, -, -, hpay, -⟩ := holding_cons hhold
      have hmove := move_head hhead p.mem payload nbytes
      -- no byte behind the payload is copied
      have hbytes : loadBytes p.bsp.deliveryReceivedTable.data
          (8 * (head + tagSize) + p.bsp.messageQueue.recvTagSize)
          (min (toUInt32 nbytes) (m.tag.length + m.payload.length)) = m.payload.take nbytes := by
        have hk : toUInt32 nbytes = nbytes := Nat.mod_eq_of_lt hlt
        have hmin : min nbytes (m.tag.length + m.payload.length) = min nbytes m.payload.length := by
          rcases hcut with hle | hnil
          · omega
          · simp [hnil]
        have htake := load_take (d := getByte p.bsp.deliveryReceivedTable.data)
          (a := 8 * (head + tagSize) + p.bsp.messageQueue.recvTagSize)
          (min_le_right nbytes m.payload.length)
        rw [loadBytes] at hpay
        rw [hpay] at htake
        rw [hk, hmin, loadBytes, ← htake, ← List.take_eq_take_min]
      rw [hsize, hbytes] at hmove
      refine ⟨_, by simp only [Bspx.exec, hmove]; rfl, ?_⟩
      exact represents_dequeue h hin hhead _
        (congrArg (store · payload (m.payload.take nbytes)) h.mem)
    · cases hs

theorem hpmove_refines (h : Represents n q p a) (hs : exec n q .hpmove a = some a') :
    ∃ p', Bspx.exec .hpmove p = some p' ∧ Represents n q p' a' ∧
      libraryAnswers .hpmove p = answers .hpmove a := by
  have hhold := h.holding
  cases hs
  cases hin : a.inbox with
  | nil =>
    rw [hin] at hhold
    have h0 : p.bsp.messageQueue.nMesg = 0 := hhold.queued.nMesg
    have hmove : bspxHpmove p.bsp = some (p.bsp, none) := by rw [bspxHpmove, if_pos h0]
    have hsame : { a with inbox := [] } = a := by rw [← hin]
    refine ⟨p, by simp only [Bspx.exec, hmove]; rfl, ?_, ?_⟩
    · rw [List.tail_nil, hsame]
      exact h
    · simp only [libraryAnswers, hmove, answers, hin]
      rfl
  | cons m ms =>
    rw [hin] at hhold
    obtain ⟨head, hhead, hn, -, hinfo, htag, hpay, -⟩ := holding_cons hhold
    have hmove := hpmove_head hhead (by omega)
    rw [hinfo] at hmove
    refine ⟨_, by simp only [Bspx.exec, hmove]; rfl, ?_, ?_⟩
    · exact represents_dequeue h hin hhead _ h.mem
    · simp only [libraryAnswers, hmove, answers, hin, Option.toList_some, List.map_cons,
        List.map_nil, Option.map_some, htag, hpay, List.head?_cons]

theorem globalAlloc_refines (h : Represents n q p a) (arraySize localSlice : ℕ)
    (hs : exec n q (.globalAlloc arraySize localSlice) a = some a') :
    ∃ p', Bspx.exec (.globalAlloc arraySize localSlice) p = some p' ∧ Represents n q p' a' ∧
      libraryAnswers (.globalAlloc arraySize localSlice) p =
        answers (.globalAlloc arraySize localSlice) a := by
  have hnext := represents_nextHandle h
  have hn : p.bsp.nprocs = n := h.logged.nprocs
  obtain ⟨handle, hhandle, rfl⟩ := Option.map_eq_some_iff.mp hs
  rw [hhandle] at hnext
  have halloc : bspxGlobalAlloc p.bsp p.stack arraySize localSlice =
      some (bspxPushReg { p.bsp with
        globalArrays := Function.update p.bsp.globalArrays handle
          { arraySize := arraySize, localSize := allocSize arraySize p.bsp.nprocs,
            localSlice := some localSlice }
        globalArrayLast := (handle + 1) % maxGlobalArrays
        globalOverflow := p.bsp.globalOverflow || (handle + 1) % maxGlobalArrays == 0 } p.stack
          localSlice, handle) := by
    rw [bspxGlobalAlloc, hnext]
    rfl
  refine ⟨_, by simp only [Bspx.exec, halloc]; rfl, ?_, ?_⟩
  · refine ⟨logged_pushReg (logged_globalArrays h.logged _ _ _) localSlice, h.mem, h.recvTagSize,
      ⟨h.holding.queued, h.holding.tags⟩, fun pid m hm => ?_, rfl, ?_, ?_⟩
    · rcases List.mem_append.mp hm with hm | hm
      · exact h.sent pid m hm
      · simp at hm
    · exact congrArg (· || (handle + 1) % maxGlobalArrays == 0) h.overflow
    · simp only [bspxPushReg, h.arrays, hn]
  · simp only [libraryAnswers, halloc, answers, hhandle]
    rfl

theorem globalFree_refines (h : Represents n q p a) (ptr : ℕ)
    (hs : exec n q (.globalFree ptr) a = some a') :
    ∃ p', Bspx.exec (.globalFree ptr) p = some p' ∧ Represents n q p' a' := by
  cases hs
  obtain ⟨p', hp', hl⟩ := exec_logged h.logged (.globalFree ptr) trivial
  cases hp'
  have hslice : sliceOf p.bsp ptr = (a.globalArrays ptr).localSlice.getD 0 := by
    rw [sliceOf, h.arrays]
  rw [callOf, hslice] at hl
  refine ⟨_, rfl, hl, h.mem, h.recvTagSize, ⟨h.holding.queued, h.holding.tags⟩, fun pid m hm => ?_,
    h.last, h.overflow, ?_⟩
  · rcases List.mem_append.mp hm with hm | hm
    · exact h.sent pid m hm
    · simp at hm
  · simp only [bspxGlobalFree, h.arrays]

/-- Every call that the machine takes, the library takes, with the same answer. -/
theorem exec_refines (h : Represents n q p a) (hs : exec n q op a = some a') :
    ∃ p', Bspx.exec op p = some p' ∧ Represents n q p' a' ∧ libraryAnswers op p = answers op a := by
  cases op with
  | pushReg | popReg | put | hpput | get | hpget | send =>
    obtain ⟨p', hp', hrep⟩ := queues_refines h hs trivial
    exact ⟨p', hp', hrep, rfl⟩
  | setTagsize size =>
    obtain ⟨p', hp', hrep⟩ := queues_refines h hs trivial
    exact ⟨p', hp', hrep, congrArg (fun s => [Answer.tagSize s]) h.logged.tagSize⟩
  | getTag tag => exact getTag_refines h tag hs
  | move payload nbytes =>
    obtain ⟨p', hp', hrep⟩ := move_refines h payload nbytes hs
    exact ⟨p', hp', hrep, rfl⟩
  | hpmove => exact hpmove_refines h hs
  | globalAlloc arraySize localSlice => exact globalAlloc_refines h arraySize localSlice hs
  | globalFree ptr =>
    obtain ⟨p', hp', hrep⟩ := globalFree_refines h ptr hs
    exact ⟨p', hp', hrep, rfl⟩
  | compute f =>
    cases hs
    exact ⟨_, rfl, ⟨logged_queue h.logged _ h.logged.queue rfl, congrArg f h.mem, h.recvTagSize,
      ⟨h.holding.queued, h.holding.tags⟩, h.sent, h.last, h.overflow, h.arrays⟩, rfl⟩

end Exec

def Represented (n : ℕ) (w : World) (a : ℕ → Processor) : Prop :=
  ∀ q < n, Represents n q (w q) (a q)

section Refinement

variable {n : ℕ} {w : World} {a a' : ℕ → Processor}

theorem syncProc_handles {q : ℕ} {p : Proc} (h : syncProc w q = some p) :
    p.bsp.globalArrayLast = (w q).bsp.globalArrayLast ∧
      p.bsp.globalOverflow = (w q).bsp.globalOverflow := by
  obtain ⟨r, hdeliver, rfl⟩ := Option.map_eq_some_iff.mp h
  obtain ⟨st, -, rfl⟩ := Option.map_eq_some_iff.mp hdeliver
  obtain ⟨req, deliv, hframe, -⟩ := requests_frame (n := 0) w q
  constructor
  · show (afterRequests w q).globalArrayLast = _
    rw [hframe]
    rfl
  · show (afterRequests w q).globalOverflow = _
    rw [hframe]
    rfl

theorem memAfter_congr {cs : ℕ → List Call} {mem mem' : ℕ → Mem} (h : ∀ p < n, mem p = mem' p)
    {q : ℕ} (hq : q < n) : memAfter n cs mem q = memAfter n cs mem' q := by
  have hwrites : writesTo n cs mem q = writesTo n cs mem' q := by
    apply List.flatMap_congr
    intro p hp
    rw [h p (List.mem_range.mp hp)]
  rw [memAfter, memAfter, hwrites, h q hq]

theorem inbox_tags (hsent : ∀ p < n, ∀ pid m, Call.send pid m ∈ (a p).calls →
      m.tag.length = (a p).sendTagSize)
    (htags : ∀ p < n, (a p).sendTagSize = (a 0).sendTagSize) {q : ℕ} (hq : q < n) {m : Message}
    (hm : m ∈ inboxAfter n (callsAt a) q) : m.tag.length = (a q).sendTagSize := by
  obtain ⟨p, hp, hmp⟩ := List.mem_flatMap.mp hm
  have hpn := List.mem_range.mp hp
  obtain ⟨c, hc, hcm⟩ := List.mem_filterMap.mp hmp
  cases c with
  | send pid m' =>
    by_cases hpid : pid = q
    · have hmm : m' = m := by simpa [hpid] using hcm
      rw [← hmm, hsent p hpn pid m' hc, htags p hpn, htags q hq]
    · simp [hpid] at hcm
  | put | get | pushReg | popReg | setTagsize => simp at hcm

theorem barrier_refines (h : Represented n w a) (hl : Legal n a) {q : ℕ} (hq : q < n) :
    ∃ p, syncProc w q = some p ∧ Represents n q p (barrier n a q) := by
  have hready : Ready n (fun p => (a p).rows) (fun p => (a p).sendTagSize) (callsAt a) w :=
    ⟨fun p hp => (h p hp).logged⟩
  obtain ⟨p, hp, hs⟩ := syncProc_spec hready ⟨hl.1, hl.2.1⟩ hq
  obtain ⟨hlast, hover⟩ := syncProc_handles hp
  have hq' := h q hq
  refine ⟨p, hp, hs.logged, ?_, hs.recvTagSize, ⟨hs.queue, fun m hm => ?_⟩, by simp [barrier],
    hlast.trans hq'.last, hover.trans hq'.overflow, hs.globalArrays.trans hq'.arrays⟩
  · rw [hs.mem]
    exact memAfter_congr (fun p hp => (h p hp).mem) hq
  · rw [hs.recvTagSize]
    exact inbox_tags (fun p hp => (h p hp).sent) hl.2.2 hq hm

theorem sync_refines (h : Represented n w a) (hs : sync n a = some a') :
    ∃ w', bspxSync n w = some w' ∧ Represented n w' a' := by
  rw [sync] at hs
  split at hs
  · rename_i hl
    cases hs
    have hbar := fun q hq => barrier_refines h hl (q := q) hq
    obtain ⟨w', hw'⟩ := allBelow_defined w fun q hq => (hbar q hq).imp fun _ h => h.1
    refine ⟨w', hw', fun q hq => ?_⟩
    obtain ⟨p, hp, hrep⟩ := hbar q hq
    cases hp.symm.trans ((allBelow_eq_some hw').1 q hq)
    simp only [if_pos hq]
    exact hrep
  · cases hs

theorem superstep_refines (h : Represented n w a) {ops : ℕ → List Op}
    (hs : superstep n ops a = some a') : ∃ w', BspxSync.superstep n ops w = some w' ∧
      Represented n w' a' ∧ libraryTranscript n ops w = transcript n ops a := by
  obtain ⟨b, hb, hsync⟩ := Option.bind_eq_some_iff.mp hs
  have hstep : ∀ q op (s : Processor) (t : Proc) s', Represents n q t s → exec n q op s = some s' →
      ∃ t', Bspx.exec op t = some t' ∧ Represents n q t' s' ∧ libraryAnswers op t = answers op s :=
    fun q op s t s' hR hs => exec_refines hR hs
  have hrun := fun q hq =>
    run_refined (fun op _ => hstep q op) (h q hq) ((allBelow_eq_some hb).1 q hq)
  obtain ⟨v, hv⟩ := allBelow_defined w fun q hq => (hrun q hq).imp fun _ h => h.1
  have hrep : Represented n v b := by
    intro q hq
    obtain ⟨p, hp, hR, -⟩ := hrun q hq
    cases hp.symm.trans ((allBelow_eq_some hv).1 q hq)
    exact hR
  obtain ⟨w', hw', hrep'⟩ := sync_refines hrep hsync
  refine ⟨w', by rw [BspxSync.superstep, localPhase, hv]; exact hw', hrep', ?_⟩
  apply List.map_congr_left
  intro q hq
  obtain ⟨p, -, -, htrace⟩ := hrun q (List.mem_range.mp hq)
  exact htrace

/-- Every run of the machine is a run of the library, with the same memories and the
same answers to every call. -/
theorem run_refines (h : Represented n w a) {program : List (ℕ → List Op)}
    (hr : run (superstep n) program a = some a') :
    ∃ w', run (BspxSync.superstep n) program w = some w' ∧ Represented n w' a' ∧
      trace (BspxSync.superstep n) (libraryTranscript n) program w =
        trace (superstep n) (transcript n) program a := by
  have hstep : ∀ ops (s : ℕ → Processor) (t : World) s', Represented n t s →
      superstep n ops s = some s' → ∃ t', BspxSync.superstep n ops t = some t' ∧
        Represented n t' s' ∧ libraryTranscript n ops t = transcript n ops s :=
    fun ops s t s' hR hs => superstep_refines hR hs
  exact run_refined (fun ops _ => hstep ops) h hr

end Refinement

section Rule

variable {n : ℕ} {a b : ℕ → Processor} {ops : ℕ → List Op}

theorem newRows_congr {cs cs' : ℕ → List Call} (hn : 0 < n) (h : ∀ p < n, cs p = cs' p) :
    newRows n cs = newRows n cs' := by
  rw [newRows, newRows, h 0 hn]
  apply List.map_congr_left
  intro k _
  funext p
  simp only [below]
  split
  · rw [h p ‹_›]
  · rfl

theorem barrier_congr (h : ∀ p < n, a p = b p) {q : ℕ} (hq : q < n) :
    barrier n a q = barrier n b q := by
  have hcs : ∀ p < n, callsAt a p = callsAt b p := fun p hp => by rw [callsAt, callsAt, h p hp]
  have hmem : memAfter n (callsAt a) (fun p => (a p).mem) q =
      memAfter n (callsAt b) (fun p => (b p).mem) q := by
    rw [memAfter, memAfter, h q hq]
    congr 1
    apply List.flatMap_congr
    intro p hp
    have hpn := List.mem_range.mp hp
    simp only [hcs p hpn, hcs q hq, h p hpn]
  have hrows : rowsAfter n (callsAt a) (a q).rows q = rowsAfter n (callsAt b) (b q).rows q := by
    rw [rowsAfter, rowsAfter, newRows_congr (Nat.zero_lt_of_lt hq) hcs, h q hq, hcs q hq]
  have hinbox : inboxAfter n (callsAt a) q = inboxAfter n (callsAt b) q := by
    apply List.flatMap_congr
    intro p hp
    rw [hcs p (List.mem_range.mp hp)]
  rw [barrier, barrier, hmem, hrows, hinbox, h q hq]

theorem legal_congr (h : ∀ p < n, a p = b p) (hl : Legal n b) : Legal n a := by
  have hcs : ∀ p < n, callsAt a p = callsAt b p := fun p hp => by rw [callsAt, callsAt, h p hp]
  obtain ⟨hpush, hpop, htag⟩ := hl
  refine ⟨fun p hp => ?_, fun q hq => ?_, fun p hp => ?_⟩
  · rw [hcs p hp, hcs 0 (Nat.zero_lt_of_lt hp)]
    exact hpush p hp
  · rw [newRows_congr (Nat.zero_lt_of_lt hq) hcs, h q hq, hcs q hq]
    exact hpop q hq
  · rw [h p hp, h 0 (Nat.zero_lt_of_lt hp)]
    exact htag p hp

theorem superstep_rule (hb : ∀ p < n, run (exec n p) (ops p) (a p) = some (b p)) (hl : Legal n b) :
    ∃ a', superstep n ops a = some a' ∧ ∀ q < n, a' q = barrier n b q := by
  obtain ⟨v, hv⟩ := allBelow_defined a fun p hp => ⟨b p, hb p hp⟩
  have hvb : ∀ p < n, v p = b p := by
    intro p hp
    have heq := ((allBelow_eq_some hv).1 p hp).symm.trans (hb p hp)
    exact Option.some.inj heq
  refine ⟨_, by rw [superstep, hv, Option.bind_some, sync, if_pos (legal_congr hvb hl)],
    fun q hq => ?_⟩
  rw [if_pos hq]
  exact barrier_congr hvb hq

end Rule

def initial (mem : ℕ → Mem) (globalArrays : ℕ → ℕ → GlobalArray) (p : ℕ) : Processor :=
  { mem := mem p
    rows := []
    sendTagSize := 0
    recvTagSize := 0
    inbox := []
    calls := []
    globalArrayLast := 0
    globalOverflow := false
    globalArrays := globalArrays p }

theorem init_represented (alloc : ℕ → Alloc) (globalArrays : ℕ → ℕ → GlobalArray) (mem : ℕ → Mem)
    (stack : ℕ → ℕ) (n : ℕ) :
    Represented n (initWorld alloc globalArrays mem stack n) (initial mem globalArrays) := by
  intro q hq
  refine ⟨(init_clean alloc globalArrays mem stack n).logged q hq, rfl, rfl, ⟨?_, ?_⟩, ?_,
    rfl, rfl, rfl⟩
  · exact ⟨rfl, fun h => absurd rfl h⟩
  · simp [initial]
  · simp [initial]

/-- Whatever the allocator, the stack and the automatic variables leave in the tables,
a run that the machine has from the start ends with its memories and answers. -/
theorem program_refines {n : ℕ} {mem : ℕ → Mem} {globalArrays : ℕ → ℕ → GlobalArray}
    {program : List (ℕ → List Op)} {a : ℕ → Processor}
    (hr : run (superstep n) program (initial mem globalArrays) = some a) (alloc : ℕ → Alloc)
    (stack : ℕ → ℕ) : ∃ w,
      run (BspxSync.superstep n) program (initWorld alloc globalArrays mem stack n) = some w ∧
      (∀ q < n, (w q).mem = (a q).mem) ∧
      trace (BspxSync.superstep n) (libraryTranscript n) program
          (initWorld alloc globalArrays mem stack n) =
        trace (superstep n) (transcript n) program (initial mem globalArrays) := by
  obtain ⟨w, hw, hrep, htrace⟩ := run_refines (init_represented alloc globalArrays mem stack n) hr
  exact ⟨w, hw, fun q hq => (hrep q hq).mem, htrace⟩

def pingPong : List (ℕ → List Op) :=
  [fun p => [.pushReg (8 + p), .setTagsize 1],
   fun p => [.put (1 - p) 0 (8 + p) 1 2, .send (1 - p) 0 1 2],
   fun p => [.getTag 20, .hpmove, .popReg (8 + p)],
   fun _ => [.hpmove]]

def pingPongMem (p : ℕ) : Mem := fun a => UInt8.ofNat (p + a)

theorem program_refines_pingPong : ∃ a,
    run (superstep 2) pingPong (initial pingPongMem fun _ _ => ⟨0, 0, none⟩) = some a ∧
    ∀ (alloc : ℕ → Alloc) (stack : ℕ → ℕ), ∃ w,
      run (BspxSync.superstep 2) pingPong
        (initWorld alloc (fun _ _ => ⟨0, 0, none⟩) pingPongMem stack 2) = some w ∧
      (∀ q < 2, (w q).mem = (a q).mem) ∧
      trace (BspxSync.superstep 2) (libraryTranscript 2) pingPong
          (initWorld alloc (fun _ _ => ⟨0, 0, none⟩) pingPongMem stack 2) =
        trace (superstep 2) (transcript 2) pingPong
          (initial pingPongMem fun _ _ => ⟨0, 0, none⟩) := by
  have hr : (run (superstep 2) pingPong (initial pingPongMem fun _ _ => ⟨0, 0, none⟩)).isSome := by
    decide +kernel
  obtain ⟨a, ha⟩ := Option.isSome_iff_exists.mp hr
  exact ⟨a, ha, program_refines ha⟩

end BspOnMpi.AbstractMachine
