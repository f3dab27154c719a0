import BspOnMpi.LocalDelivery
import BspOnMpi.Lib.History

/-! The history of a local queue. What a `LocalDeliveryQueue` shows after any sequence of calls,
by the calls since the last one that emptied or exchanged its parts. -/

namespace BspOnMpi.LocalHistory
open Lib Slots Machine LocalDelivery

inductive QueueOp
  | put (src dst nbytes : ℕ)
  | hpput (src dst nbytes : ℕ)
  | send (tag tagsize data nbytes : ℕ)
  | hpsend (tag data : Pointer) (nbytes : ℕ)
  | execute
  | bsmpAdvance
  | bsmpMessagequeueSync
  | resetBuffers
  | compute (f : Mem → Mem)

def step (op : QueueOp) (s : LocalDeliveryQueue × Mem) : LocalDeliveryQueue × Mem :=
  match op with
  | .put src dst nbytes => (s.1.put (load s.2 src nbytes) dst, s.2)
  | .hpput src dst nbytes => (s.1.hpput src dst nbytes, s.2)
  | .send tag tagsize data nbytes => (s.1.send (load s.2 tag tagsize) (load s.2 data nbytes), s.2)
  | .hpsend tag data nbytes => (s.1.hpsend tag data nbytes, s.2)
  | .execute => s.1.execute s.2
  | .bsmpAdvance => (s.1.bsmpAdvance, s.2)
  | .bsmpMessagequeueSync => (s.1.bsmpMessagequeueSync, s.2)
  | .resetBuffers => (s.1.resetBuffers, s.2)
  | .compute f => (s.1, f s.2)

inductive Event
  | put (dst : ℕ) (bytes : List UInt8)
  | hpput (d : LocalMemoryDelivery)
  | sent (m : LocalMessage)
  | execute
  | advance
  | sync
  | reset

def eventOf (op : QueueOp) (s : LocalDeliveryQueue × Mem) : List Event :=
  match op with
  | .put src dst nbytes => [.put dst (load s.2 src nbytes)]
  | .hpput src dst nbytes => [.hpput ⟨src, dst, nbytes⟩]
  | .send tag tagsize data nbytes =>
    [.sent (.copied ⟨load s.2 tag tagsize, load s.2 data nbytes⟩)]
  | .hpsend tag data nbytes => [.sent (.pointed tag data nbytes)]
  | .execute => [.execute]
  | .bsmpAdvance => [.advance]
  | .bsmpMessagequeueSync => [.sync]
  | .resetBuffers => [.reset]
  | .compute _ => []

def Event.switches : Event → Bool
  | .sync | .reset => true
  | _ => false

def Event.flushes : Event → Bool
  | .execute | .sync | .reset => true
  | _ => false

def Event.isAdvance : Event → Bool
  | .advance => true
  | _ => false

def messagesOf (h : List Event) : List LocalMessage :=
  h.filterMap fun
    | .sent m => some m
    | _ => none

def putsOf (h : List Event) : List (ℕ × List UInt8) :=
  h.filterMap fun
    | .put dst bytes => some (dst, bytes)
    | _ => none

def hpputsOf (h : List Event) : List LocalMemoryDelivery :=
  h.filterMap fun
    | .hpput d => some d
    | _ => none

def sentNow (h : List Event) : List LocalMessage := messagesOf (since Event.switches h)

/-- Messages that were sent before the last exchange and after the one before it, and have
not been advanced over; none if the queue has been reset instead. -/
def visible (h : List Event) : List LocalMessage :=
  match lastStop Event.switches h with
  | some (before, .sync) =>
    (sentNow before).drop ((since Event.switches h).countP Event.isAdvance)
  | _ => []

def queuedPuts (h : List Event) : List (ℕ × List UInt8) := putsOf (since Event.flushes h)

def queuedHpputs (h : List Event) : List LocalMemoryDelivery := hpputsOf (since Event.flushes h)

def TopIs (c : LocalDeliveryQueue) : LocalMessage → Prop
  | .copied m => c.bsmpTopSize = m.payload.length ∧
    (∃ offset, c.bsmpTopTag = .inl offset ∧ c.messageMoveBuffer.get offset m.tag.length = m.tag) ∧
    ∃ offset, c.bsmpTopMessage = .inl offset ∧
      c.messageMoveBuffer.get offset m.payload.length = m.payload
  | .pointed tag payload nbytes => c.bsmpTopSize = nbytes ∧ c.bsmpTopTag = .inr tag ∧
    c.bsmpTopMessage = .inr payload

structure Shows (h : List Event) (c : LocalDeliveryQueue) (mem : Mem) : Prop where
  qsize : c.bsmpQsize = (visible h).length
  moveBytes : c.bsmpMoveBytes = ((visible h).map LocalMessage.nbytes).sum
  top : ∀ m ms, visible h = m :: ms → TopIs c m
  execute : (c.execute mem).2 = writeAll (copyAll mem (queuedHpputs h)) (queuedPuts h)

section Extend

variable (h : List Event) {e : Event}

theorem visible_sync : visible (h ++ [.sync]) = sentNow h := by
  rw [visible, lastStop_stop h rfl, since_stop h rfl]
  rfl

theorem visible_reset : visible (h ++ [.reset]) = [] := by
  rw [visible, lastStop_stop h rfl]

theorem visible_go (hs : e.switches = false) : visible (h ++ [e]) =
    (visible h).drop (if e.isAdvance then 1 else 0) := by
  rw [visible, visible, lastStop_go h hs, since_go h hs, List.countP_append, List.countP_singleton]
  split
  · rw [List.drop_drop]
  · rw [List.drop_nil]

theorem sentNow_switch (hs : e.switches = true) : sentNow (h ++ [e]) = [] := by
  rw [sentNow, since_stop h hs]
  rfl

theorem sentNow_go (hs : e.switches = false) :
    sentNow (h ++ [e]) = sentNow h ++ messagesOf [e] := by
  rw [sentNow, since_go h hs, messagesOf, List.filterMap_append]
  rfl

theorem queued_flush (hs : e.flushes = true) :
    queuedPuts (h ++ [e]) = [] ∧ queuedHpputs (h ++ [e]) = [] := by
  rw [queuedPuts, queuedHpputs, since_stop h hs]
  exact ⟨rfl, rfl⟩

theorem queued_go (hs : e.flushes = false) :
    queuedPuts (h ++ [e]) = queuedPuts h ++ putsOf [e] ∧
      queuedHpputs (h ++ [e]) = queuedHpputs h ++ hpputsOf [e] := by
  rw [queuedPuts, queuedHpputs, since_go h hs, putsOf, hpputsOf, List.filterMap_append,
    List.filterMap_append]
  exact ⟨rfl, rfl⟩

end Extend

/-- The parts of the queue hold what the history says. -/
def Faithful (h : List Event) (s : LocalDeliveryQueue × Mem) : Prop :=
  Pending s.1 (queuedHpputs h) (queuedPuts h) (sentNow h) (visible h)

section Steps

variable {h : List Event} {c : LocalDeliveryQueue} {mem : Mem}

theorem top_is {m : LocalMessage} {b : BSMessage} (hc : Carries c.messageMoveBuffer b m)
    (hhead : c.messageMoveQueue.head = b) : TopIs c m := by
  cases b with
  | buffered tag src nbytes =>
    cases m with
    | copied m =>
      obtain ⟨hsize, htag, hsrc⟩ := hc
      refine ⟨?_, ⟨tag, ?_, htag.1⟩, ⟨src, ?_, hsrc.1⟩⟩
      · rw [LocalDeliveryQueue.bsmpTopSize, hhead]
        exact hsize
      · rw [LocalDeliveryQueue.bsmpTopTag, hhead]
      · rw [LocalDeliveryQueue.bsmpTopMessage, hhead]
    | pointed => exact hc.elim
  | unbuffered tag src nbytes =>
    cases m with
    | copied => exact hc.elim
    | pointed =>
      obtain ⟨rfl, rfl, rfl⟩ := hc
      refine ⟨?_, ?_, ?_⟩
      · rw [LocalDeliveryQueue.bsmpTopSize, hhead]
        rfl
      · rw [LocalDeliveryQueue.bsmpTopTag, hhead]
      · rw [LocalDeliveryQueue.bsmpTopMessage, hhead]

theorem faithful_shows (hf : Faithful h (c, mem)) : Shows h c mem := by
  refine ⟨mailbox_qsize hf.moved, hf.moved.bytes, fun m ms hm => ?_, (execute_pending hf mem).1⟩
  have hmoved := hf.moved
  rw [hm] at hmoved
  exact top_is (mailbox_next hmoved).1 rfl

theorem faithful_add {e : Event} {c' : LocalDeliveryQueue} {mem' : Mem}
    (hs : e.switches = false) (hf : e.flushes = false) (ha : e.isAdvance = false)
    (hp : Pending c' (queuedHpputs h ++ hpputsOf [e]) (queuedPuts h ++ putsOf [e])
      (sentNow h ++ messagesOf [e]) (visible h)) : Faithful (h ++ [e]) (c', mem') := by
  have hvisible := visible_go h hs
  rw [ha, if_neg Bool.false_ne_true, List.drop_zero] at hvisible
  rw [Faithful, (queued_go h hf).1, (queued_go h hf).2, sentNow_go h hs, hvisible]
  exact hp

theorem faithful_advance (hf : Faithful h (c, mem)) :
    Faithful (h ++ [.advance]) (c.bsmpAdvance, mem) := by
  have hvisible := visible_go h (e := .advance) rfl
  have hqueued := queued_go h (e := .advance) rfl
  rw [show queuedPuts h ++ putsOf [.advance] = queuedPuts h from List.append_nil _,
    show queuedHpputs h ++ hpputsOf [.advance] = queuedHpputs h from List.append_nil _] at hqueued
  have hsent : sentNow (h ++ [.advance]) = sentNow h :=
    (sentNow_go h rfl).trans (List.append_nil _)
  have hdrop : visible (h ++ [.advance]) = (visible h).drop 1 := hvisible
  rw [Faithful, hqueued.1, hqueued.2, hsent, hdrop]
  cases hmoved : visible h with
  | nil =>
    rw [Faithful, hmoved] at hf
    rw [pending_advance_nil hf]
    exact hf
  | cons m ms =>
    rw [Faithful, hmoved] at hf
    exact pending_advance hf

theorem faithful_step (op : QueueOp) (hf : Faithful h (c, mem)) :
    Faithful (h ++ eventOf op (c, mem)) (step op (c, mem)) := by
  have hputs : queuedPuts h ++ [] = queuedPuts h := List.append_nil _
  have hhpputs : queuedHpputs h ++ [] = queuedHpputs h := List.append_nil _
  have hsent : sentNow h ++ [] = sentNow h := List.append_nil _
  cases op with
  | put src dst nbytes =>
    apply faithful_add rfl rfl rfl
    have hp := pending_put hf (load mem src nbytes) dst
    rw [← hhpputs, ← hsent] at hp
    exact hp
  | hpput src dst nbytes =>
    apply faithful_add rfl rfl rfl
    have hp := pending_hpput hf src dst nbytes
    rw [← hputs, ← hsent] at hp
    exact hp
  | send tag tagsize data nbytes =>
    apply faithful_add rfl rfl rfl
    have hp := pending_send hf ⟨load mem tag tagsize, load mem data nbytes⟩
    rw [← hputs, ← hhpputs] at hp
    exact hp
  | hpsend tag data nbytes =>
    apply faithful_add rfl rfl rfl
    have hp := pending_hpsend hf tag data nbytes
    rw [← hputs, ← hhpputs] at hp
    exact hp
  | execute =>
    have hp := (execute_pending hf mem).2
    have hvisible := visible_go h (e := .execute) rfl
    have hdrop : visible (h ++ [.execute]) = visible h := hvisible
    have hnow : sentNow (h ++ [.execute]) = sentNow h := (sentNow_go h rfl).trans hsent
    obtain ⟨hq, hhq⟩ := queued_flush h (e := .execute) rfl
    show Pending _ _ _ _ _
    simp only [eventOf]
    rw [hq, hhq, hnow, hdrop]
    exact hp
  | bsmpAdvance => exact faithful_advance hf
  | bsmpMessagequeueSync =>
    obtain ⟨hq, hhq⟩ := queued_flush h (e := .sync) rfl
    show Pending _ _ _ _ _
    simp only [eventOf]
    rw [hq, hhq, sentNow_switch h rfl, visible_sync]
    exact messagequeueSync_pending hf
  | resetBuffers =>
    obtain ⟨hq, hhq⟩ := queued_flush h (e := .reset) rfl
    show Pending _ _ _ _ _
    simp only [eventOf]
    rw [hq, hhq, sentNow_switch h rfl, visible_reset]
    exact resetBuffers_pending hf
  | compute f =>
    show Pending _ _ _ _ _
    simp only [eventOf, List.append_nil]
    exact hf

end Steps

def runQueue (alloc : LocalAlloc) (mem : Mem) (ops : List QueueOp) : LocalDeliveryQueue × Mem :=
  ops.foldl (fun s op => step op s) (.create alloc, mem)

def history (s : LocalDeliveryQueue × Mem) : List QueueOp → List Event
  | [] => []
  | op :: ops => eventOf op s ++ history (step op s) ops

theorem run_faithful {h : List Event} {s : LocalDeliveryQueue × Mem} (hf : Faithful h s)
    (ops : List QueueOp) :
    Faithful (h ++ history s ops) (ops.foldl (fun s op => step op s) s) := by
  induction ops generalizing h s with
  | nil =>
    rw [history, List.append_nil]
    exact hf
  | cons op ops ih =>
    rw [history, ← List.append_assoc, List.foldl_cons]
    exact ih (faithful_step op hf)

end BspOnMpi.LocalHistory
