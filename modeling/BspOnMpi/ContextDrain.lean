import BspOnMpi.ContextHpsend

/-! Draining the queue of a context. `bsp_context.cpp`, the calls of the class `Context` that take
messages, over those of `ContextImpl`. What the implementation returns from `bsp_hpmove` is
dropped by the class, which returns zero. -/

namespace BspOnMpi.ContextDrain
open Lib Slots Machine Bspx Mapper LocalDelivery Contexts ContextLog ContextSuperstep ContextProgram
  ContextBsmp ContextHpsend

abbrev Places := (ℕ ⊕ Pointer) × (ℕ ⊕ Pointer)

def status : Option ℕ → ℤ
  | some size => toInt32 size
  | none => -1

/-- `ContextImpl::bsp_hpmove`: the queue, the value returned and the two pointers,
`none` where they are left as they were. -/
def implHpmove (q : LocalDeliveryQueue) : LocalDeliveryQueue × ℤ × Option Places :=
  ((bspHpmove q).1, status ((bspHpmove q).2.map Prod.fst), (bspHpmove q).2.map Prod.snd)

def contextHpmove (q : LocalDeliveryQueue) : LocalDeliveryQueue × ℤ × Option Places :=
  ((implHpmove q).1, 0, (implHpmove q).2.2)

inductive QueueCall
  | getTag (tag : ℕ)
  | move (payload receptionNbytes : ℕ)
  | hpmove

inductive Answer
  | status (status : ℤ)
  | moved
  | size (size : ℤ) (places : Option Places)

def call (p : Proc) (q : LocalDeliveryQueue) :
    QueueCall → Option (Answer × Mem × LocalDeliveryQueue)
  | .getTag tag => some (.status (status (bspGetTag p q tag).1), (bspGetTag p q tag).2, q)
  | .move payload receptionNbytes =>
    (bspMove p q payload receptionNbytes).map fun r => (.moved, r.2, r.1)
  | .hpmove => some (.size (contextHpmove q).2.1 (contextHpmove q).2.2, p.mem, (contextHpmove q).1)

/-- `while (bsp_hpmove (&tag, &payload) >= 0)` with the pointers of every round;
`none` if the loop has not ended after that many calls. -/
def drain (hpmove : LocalDeliveryQueue → LocalDeliveryQueue × ℤ × Option Places) :
    ℕ → LocalDeliveryQueue → Option (List (Option Places))
  | 0, _ => none
  | k + 1, q =>
    if 0 ≤ (hpmove q).2.1 then (drain hpmove k (hpmove q).1).map ((hpmove q).2.2 :: ·) else some []

structure Queued (p : Proc) (q : LocalDeliveryQueue) (ms : List LocalMessage) : Prop where
  pending : ∃ gets puts sent, Pending q gets puts sent ms
  tags : ∀ m ∈ ms, TagRead p m

def Refers (p : Proc) (b : MessageBuffer) (places : Places) (m : LocalMessage) : Prop :=
  readFrom p b places.1 p.bsp.messageQueue.recvTagSize = (resolve p m).tag ∧
    readFrom p b places.2 m.nbytes = (resolve p m).payload

/-- The answer to a call, and the memory after it, when the messages `ms` are queued. -/
def Promised (p : Proc) (b : MessageBuffer) :
    List LocalMessage → QueueCall → Answer → Mem → Prop
  | [], .getTag _, r, mem => r = .status (-1) ∧ mem = p.mem
  | m :: _, .getTag tag, r, mem => r = .status m.nbytes ∧ mem = store p.mem tag (resolve p m).tag
  | [], .move _ _, _, mem => mem = p.mem
  | m :: _, .move payload receptionNbytes, _, mem =>
    mem = store p.mem payload ((resolve p m).payload.take (min receptionNbytes m.nbytes))
  | [], .hpmove, r, mem => r = .size (-1) none ∧ mem = p.mem
  | m :: _, .hpmove, r, mem =>
    (∃ places, r = .size m.nbytes (some places) ∧ Refers p b places m) ∧ mem = p.mem

def remaining (ms : List LocalMessage) : QueueCall → List LocalMessage
  | .getTag _ => ms
  | .move _ _ => ms.tail
  | .hpmove => ms.tail

def Served : List QueueCall → Proc → LocalDeliveryQueue → List LocalMessage → Prop
  | [], _, _, _ => True
  | c :: cs, p, q, ms => ∃ r mem q', call p q c = some (r, mem, q') ∧
      Promised p q.messageMoveBuffer ms c r mem ∧ Queued { p with mem := mem } q' (remaining ms c) ∧
      Served cs { p with mem := mem } q' (remaining ms c)

def Fits : List LocalMessage → QueueCall → Prop
  | [], .getTag _ => True
  | m :: _, .getTag _ => m.nbytes < 2 ^ 31
  | [], .move _ _ => True
  | m :: _, .move _ receptionNbytes => receptionNbytes ≤ m.nbytes
  | [], .hpmove => False
  | m :: _, .hpmove => m.nbytes = 0

def AllFit : List QueueCall → List LocalMessage → Prop
  | [], _ => True
  | c :: cs, ms => Fits ms c ∧ AllFit cs (remaining ms c)

section Top

variable {p : Proc} {q : LocalDeliveryQueue} {m : LocalMessage} {ms : List LocalMessage}

theorem toInt32_natCast (n : ℕ) : toInt32 n = n ↔ n < 2 ^ 31 := by
  rw [Calls.toInt32_eq_iff]
  omega

theorem queued_qsize (h : Queued p q ms) : q.bsmpQsize = ms.length := by
  obtain ⟨gets, puts, sent, hpend⟩ := h.pending
  exact mailbox_qsize hpend.moved

theorem queued_mem (h : Queued p q ms) (mem : Mem) : Queued { p with mem := mem } q ms := by
  refine ⟨h.pending, fun m hm => ?_⟩
  have htag := h.tags m hm
  cases m with
  | copied m => exact htag
  | pointed => trivial

theorem queued_advance (h : Queued p q (m :: ms)) : Queued p q.bsmpAdvance ms := by
  obtain ⟨gets, puts, sent, hpend⟩ := h.pending
  exact ⟨⟨gets, puts, sent, pending_advance hpend⟩,
    fun x hx => h.tags x (List.mem_cons_of_mem _ hx)⟩

theorem queued_top (h : Queued p q (m :: ms)) : 0 < q.bsmpQsize ∧ q.bsmpTopSize = m.nbytes ∧
    Refers p q.messageMoveBuffer (q.bsmpTopTag, q.bsmpTopMessage) m := by
  obtain ⟨gets, puts, sent, hpend⟩ := h.pending
  have hsize := queued_qsize h
  have hpos : 0 < q.bsmpQsize := by
    rw [hsize]
    exact Nat.succ_pos _
  obtain ⟨tag, message, hmove, hrefers⟩ := hpmove_pending hpend (h.tags m (List.mem_cons_self ..))
  rw [bspHpmove, if_pos hpos, Prod.mk.injEq, Option.some.injEq, Prod.mk.injEq,
    Prod.mk.injEq] at hmove
  obtain ⟨-, hbytes, rfl, rfl⟩ := hmove
  exact ⟨hpos, hbytes, hrefers⟩

theorem synced_queued {processors nnodes g : ℕ} {tagSize : ℕ → ℕ}
    {logs : ℕ → List (ℕ × ContextCall)}
    {v w : ℕ → Node} (hm : Mapped processors nnodes)
    (hsound : ∀ n < nnodes, ∀ c ∈ logs n, Sound processors nnodes n (tagSize n) c)
    (hs : SameTags processors nnodes tagSize) (hg : g < processors)
    (h : NodeSynced processors nnodes tagSize logs v (nodeOf processors nnodes g)
      (w (nodeOf processors nnodes g))) :
    ∃ moved, ∀ mem, Queued { (w (nodeOf processors nnodes g)).proc with mem := mem }
      (contextAt processors nnodes w g).localDeliveries moved := by
  obtain ⟨moved, hpend, hread⟩ := synced_queue hm hsound hs hg h
  exact ⟨moved, fun mem => ⟨⟨[], [], [], hpend⟩, (hread mem).1⟩⟩

theorem readFrom_take {b : MessageBuffer} {place : ℕ ⊕ Pointer} {k n : ℕ} (h : k ≤ n) :
    (readFrom p b place n).take k = readFrom p b place k := by
  cases place with
  | inl offset => exact load_take h
  | inr pointer => cases pointer <;> exact load_take h

theorem getTag_queued (h : Queued p q (m :: ms)) (tag : ℕ) :
    bspGetTag p q tag = (some m.nbytes, store p.mem tag (resolve p m).tag) := by
  obtain ⟨hpos, hsize, htag, -⟩ := queued_top h
  rw [bspGetTag, if_pos hpos, hsize, htag]

theorem getTag_empty (h : Queued p q []) (tag : ℕ) : bspGetTag p q tag = (none, p.mem) := by
  have hsize : q.bsmpQsize = 0 := queued_qsize h
  rw [bspGetTag, if_neg (by omega)]

theorem move_queued (h : Queued p q (m :: ms)) (payload k : ℕ) :
    bspMove p q payload k = if k ≤ m.nbytes then
      some (q.bsmpAdvance, store p.mem payload ((resolve p m).payload.take k)) else none := by
  obtain ⟨hpos, hsize, -, hread⟩ := queued_top h
  rw [bspMove, if_pos hpos, hsize]
  split
  · rename_i hk
    rw [← hread, readFrom_take hk]
  · rfl

theorem move_empty (h : Queued p q []) (payload k : ℕ) :
    bspMove p q payload k = some (q, p.mem) := by
  have hsize : q.bsmpQsize = 0 := queued_qsize h
  rw [bspMove, if_neg (by omega)]

theorem implHpmove_queued (h : Queued p q (m :: ms)) :
    implHpmove q = (q.bsmpAdvance, toInt32 m.nbytes, some (q.bsmpTopTag, q.bsmpTopMessage)) := by
  obtain ⟨hpos, hsize, -⟩ := queued_top h
  rw [implHpmove, bspHpmove, if_pos hpos, hsize]
  rfl

theorem implHpmove_empty (h : Queued p q []) : implHpmove q = (q, -1, none) := by
  have hsize : q.bsmpQsize = 0 := queued_qsize h
  rw [implHpmove, bspHpmove, if_neg (by omega)]
  rfl

theorem contextHpmove_queued (h : Queued p q (m :: ms)) :
    contextHpmove q = (q.bsmpAdvance, 0, some (q.bsmpTopTag, q.bsmpTopMessage)) := by
  rw [contextHpmove, implHpmove_queued h]

theorem contextHpmove_empty (h : Queued p q []) : contextHpmove q = (q, 0, none) := by
  rw [contextHpmove, implHpmove_empty h]

end Top

section Calls

variable {p : Proc} {q : LocalDeliveryQueue} {m : LocalMessage} {ms : List LocalMessage}

theorem call_getTag_empty (h : Queued p q []) (tag : ℕ) :
    call p q (.getTag tag) = some (.status (-1), p.mem, q) := by
  rw [call, getTag_empty h]
  rfl

theorem call_getTag (h : Queued p q (m :: ms)) (tag : ℕ) : call p q (.getTag tag) =
    some (.status (toInt32 m.nbytes), store p.mem tag (resolve p m).tag, q) := by
  rw [call, getTag_queued h]
  rfl

theorem call_move_empty (h : Queued p q []) (payload k : ℕ) :
    call p q (.move payload k) = some (.moved, p.mem, q) := by
  rw [call, move_empty h, Option.map_some]

theorem call_move (h : Queued p q (m :: ms)) (payload : ℕ) {k : ℕ} (hk : k ≤ m.nbytes) :
    call p q (.move payload k) =
      some (.moved, store p.mem payload ((resolve p m).payload.take k), q.bsmpAdvance) := by
  rw [call, move_queued h, if_pos hk, Option.map_some]

theorem call_move_longer (h : Queued p q (m :: ms)) (payload : ℕ) {k : ℕ} (hk : ¬ k ≤ m.nbytes) :
    call p q (.move payload k) = none := by
  rw [call, move_queued h, if_neg hk, Option.map_none]

theorem call_hpmove_empty (h : Queued p q []) :
    call p q .hpmove = some (.size 0 none, p.mem, q) := by
  rw [call, contextHpmove_empty h]

theorem call_hpmove (h : Queued p q (m :: ms)) : call p q .hpmove =
    some (.size 0 (some (q.bsmpTopTag, q.bsmpTopMessage)), p.mem, q.bsmpAdvance) := by
  rw [call, contextHpmove_queued h]

theorem promised_iff {c : QueueCall} {r : Answer} {mem : Mem} {q' : LocalDeliveryQueue}
    (hcall : call p q c = some (r, mem, q')) :
    (∃ r mem q', call p q c = some (r, mem, q') ∧ Promised p q.messageMoveBuffer ms c r mem) ↔
      Promised p q.messageMoveBuffer ms c r mem := by
  constructor
  · rintro ⟨r', mem', q'', hcall', hr⟩
    cases hcall.symm.trans hcall'
    exact hr
  · intro hr
    exact ⟨r, mem, q', hcall, hr⟩

theorem call_iff (h : Queued p q ms) (c : QueueCall) : Fits ms c ↔
    ∃ r mem q', call p q c = some (r, mem, q') ∧ Promised p q.messageMoveBuffer ms c r mem := by
  cases c with
  | getTag tag =>
    cases ms with
    | nil =>
      rw [promised_iff (call_getTag_empty h tag)]
      exact ⟨fun _ => ⟨rfl, rfl⟩, fun _ => trivial⟩
    | cons m ms =>
      rw [promised_iff (call_getTag h tag), Fits, Promised, Answer.status.injEq, toInt32_natCast]
      exact ⟨fun hsize => ⟨hsize, rfl⟩, And.left⟩
  | move payload k =>
    cases ms with
    | nil =>
      rw [promised_iff (call_move_empty h payload k)]
      exact ⟨fun _ => rfl, fun _ => trivial⟩
    | cons m ms =>
      rw [Fits]
      by_cases hk : k ≤ m.nbytes
      · rw [promised_iff (call_move h payload hk), Promised, Nat.min_eq_left hk]
        exact iff_of_true hk rfl
      · apply iff_of_false hk
        rintro ⟨r, mem, q', hcall, -⟩
        rw [call_move_longer h payload hk] at hcall
        cases hcall
  | hpmove =>
    cases ms with
    | nil =>
      rw [promised_iff (call_hpmove_empty h), Fits, Promised, Answer.size.injEq, false_iff]
      rintro ⟨⟨hsize, -⟩, -⟩
      exact absurd hsize (by decide)
    | cons m ms =>
      rw [promised_iff (call_hpmove h), Fits, Promised]
      constructor
      · intro hzero
        refine ⟨⟨_, ?_, (queued_top h).2.2⟩, rfl⟩
        rw [hzero]
        rfl
      · rintro ⟨⟨places, hr, -⟩, -⟩
        rw [Answer.size.injEq] at hr
        exact_mod_cast hr.1.symm

theorem call_queued (h : Queued p q ms) {c : QueueCall} {r : Answer} {mem : Mem}
    {q' : LocalDeliveryQueue} (hcall : call p q c = some (r, mem, q')) :
    Queued { p with mem := mem } q' (remaining ms c) := by
  apply queued_mem
  cases c with
  | getTag tag =>
    cases hcall
    exact h
  | move payload k =>
    cases ms with
    | nil =>
      rw [call_move_empty h] at hcall
      cases hcall
      exact h
    | cons m ms =>
      by_cases hk : k ≤ m.nbytes
      · rw [call_move h payload hk] at hcall
        cases hcall
        exact queued_advance h
      · rw [call_move_longer h payload hk] at hcall
        cases hcall
  | hpmove =>
    cases ms with
    | nil =>
      rw [call_hpmove_empty h] at hcall
      cases hcall
      exact h
    | cons m ms =>
      rw [call_hpmove h] at hcall
      cases hcall
      exact queued_advance h

theorem served_of_queued (h : Queued p q ms) (cs : List QueueCall) :
    Served cs p q ms ↔ AllFit cs ms := by
  induction cs generalizing p q ms with
  | nil => exact Iff.rfl
  | cons c cs ih =>
    rw [Served, AllFit, call_iff h c]
    constructor
    · rintro ⟨r, mem, q', hcall, hr, hq', hrest⟩
      exact ⟨⟨r, mem, q', hcall, hr⟩, (ih hq').mp hrest⟩
    · rintro ⟨⟨r, mem, q', hcall, hr⟩, hrest⟩
      have hq' := call_queued h hcall
      exact ⟨r, mem, q', hcall, hr, hq', (ih hq').mpr hrest⟩

end Calls

section Loop

variable {p : Proc} {q : LocalDeliveryQueue} {ms : List LocalMessage}

/-- Over what the implementation returns the loop ends after the last message and
has met every message once. -/
theorem implHpmove_drains (h : Queued p q ms) (hsize : ∀ m ∈ ms, m.nbytes < 2 ^ 31) :
    ∃ places : List Places, drain implHpmove (ms.length + 1) q = some (places.map some) ∧
      List.Forall₂ (Refers p q.messageMoveBuffer) places ms := by
  induction ms generalizing q with
  | nil =>
    refine ⟨[], ?_, .nil⟩
    rw [List.length_nil, drain, implHpmove_empty h]
    rfl
  | cons m ms ih =>
    obtain ⟨places, hdrain, hplaces⟩ := ih (queued_advance h) fun x hx =>
      hsize x (List.mem_cons_of_mem _ hx)
    have hint := (toInt32_natCast m.nbytes).mpr (hsize m (List.mem_cons_self ..))
    have hbuffer : q.bsmpAdvance.messageMoveBuffer = q.messageMoveBuffer := by
      rw [LocalDeliveryQueue.bsmpAdvance]
      split <;> rfl
    rw [hbuffer] at hplaces
    refine ⟨(q.bsmpTopTag, q.bsmpTopMessage) :: places, ?_, .cons (queued_top h).2.2 hplaces⟩
    rw [List.length_cons, drain, implHpmove_queued h, hint, if_pos (Int.natCast_nonneg _), hdrain]
    rfl

theorem contextHpmove_loops (q : LocalDeliveryQueue) (k : ℕ) : drain contextHpmove k q = none := by
  induction k generalizing q with
  | zero => rfl
  | succ k ih =>
    rw [drain, ih]
    rfl

end Loop

/-- The calls of a context do what they should exactly if no tag belongs to a payload
of 2 ^ 31 bytes or more, nothing longer than the payload is moved, and an unbuffered
move only meets messages without payload; the loop over it never ends. -/
theorem context_drains_iff {p : Proc} {q : LocalDeliveryQueue} {ms : List LocalMessage}
    (h : Queued p q ms) (cs : List QueueCall) :
    (Served cs p q ms ↔ AllFit cs ms) ∧ ∀ k, drain contextHpmove k q = none :=
  ⟨served_of_queued h cs, contextHpmove_loops q⟩

def node : Proc :=
  { bsp := bspxInitBspobject ⟨fun _ _ => .words 0 0, fun _ _ => ⟨0, 0, 0, 0⟩, fun _ _ => 0⟩
      (fun _ => ⟨0, 0, none⟩) 1 0
    mem := fun _ => 0
    stack := 0 }

def alloc : LocalAlloc :=
  { puts := fun _ _ => ⟨0, 0, 0⟩
    hpputs := fun _ _ => ⟨0, 0, 0⟩
    messages := fun _ _ => .buffered 0 0 0
    bytes := fun _ _ => 0 }

def found : LocalDeliveryQueue :=
  (((LocalDeliveryQueue.create alloc).send [] [7, 8]).send [] []).bsmpMessagequeueSync

theorem found_queued : Queued node found [.copied ⟨[], [7, 8]⟩, .copied ⟨[], []⟩] := by
  have hpend := pending_send (pending_send (pending_create alloc) ⟨[], [7, 8]⟩) ⟨[], []⟩
  refine ⟨⟨_, _, _, messagequeueSync_pending hpend⟩, fun m hm => ?_⟩
  rw [List.mem_pair] at hm
  obtain rfl | rfl := hm <;> rfl

theorem context_drains_three :
    Served [.getTag 0, .move 0 1, .hpmove] node found [.copied ⟨[], [7, 8]⟩, .copied ⟨[], []⟩] :=
  (context_drains_iff found_queued _).1.mpr
    ⟨show 2 < 2 ^ 31 by decide, show 1 ≤ 2 by decide, rfl, trivial⟩

/-- A message of two bytes is dequeued with the answer zero. -/
theorem context_answers_zero : ¬ ∀ (p : Proc) (q : LocalDeliveryQueue) (ms : List LocalMessage)
    (cs : List QueueCall), Queued p q ms → Served cs p q ms := by
  intro h
  have hserved := h _ _ _ [.hpmove] found_queued
  have hfit : (2 : ℕ) = 0 := ((served_of_queued found_queued _).mp hserved).1
  exact absurd hfit (by decide)

end BspOnMpi.ContextDrain
