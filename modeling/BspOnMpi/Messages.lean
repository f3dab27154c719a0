import BspOnMpi.Superstep

/-! Bulk synchronous message passing. What the calls that dequeue messages return after a
synchronisation. -/

namespace BspOnMpi.Messages
open Lib Exptable Slots Delivtable Memreg DelivExecute Machine Bspx Calls BspxSync Superstep

def SameTags (n : ℕ) (cs : ℕ → List Call) : Prop := ∀ p < n, tagSizes (cs p) = tagSizes (cs 0)

theorem sameTags_tagSize {n : ℕ} {rows : ℕ → List Row} {tagSize : ℕ → ℕ} {w : World}
    (h : Reachable n (SameTags n) rows tagSize w) : ∀ p < n, tagSize p = tagSize 0 := by
  induction h with
  | init => exact fun _ _ => rfl
  | step hr ha hP hs ih =>
    intro p hp
    simp only [tagAfter, hP p hp, ih p hp]

theorem send_tag {x : Context} {ops : List Op} {p : Proc} {pid : ℕ} {m : Message}
    (h : Call.send pid m ∈ callsOf x ops p) : m.tag.length = x.tagSize := by
  obtain ⟨op, -, p', hop⟩ := mem_trace h
  cases op with
  | send pid' tag payload nbytes =>
    simp only [callOf, List.mem_singleton, Call.send.injEq] at hop
    simp [hop.2]
  | put | hpput | get | hpget => simp [callOf] at hop
  | pushReg | popReg | setTagsize | getTag | move | hpmove => simp [callOf] at hop
  | globalAlloc | globalFree | compute => simp [callOf] at hop

theorem inbox_tag {n : ℕ} {rows : ℕ → List Row} {tagSize : ℕ → ℕ} {ops : ℕ → List Op} {w : World}
    (htag : ∀ p < n, tagSize p = tagSize 0) {q : ℕ} {m : Message}
    (hm : m ∈ inboxAfter n (callsAt n rows tagSize ops w) q) : m.tag.length = tagSize 0 := by
  obtain ⟨p, hp, hmp⟩ := List.mem_flatMap.mp hm
  obtain ⟨c, hc, hcm⟩ := List.mem_filterMap.mp hmp
  cases c with
  | send pid m' =>
    have hs := send_tag hc
    by_cases hpid : pid = q
    · have hmm : m' = m := by simpa [hpid] using hcm
      rw [← hmm, hs]
      exact htag p (List.mem_range.mp hp)
    · simp [hpid] at hcm
  | put | get | pushReg | popReg | setTagsize => simp at hcm

/-- The queue of a processor holds the messages `ms`, whose tags are as long as
the tag size for reception. -/
structure Holding (bsp : BSPObject) (ms : List Message) : Prop where
  queued : Queued bsp.deliveryReceivedTable bsp.messageQueue (ms.map messageItem)
  tags : ∀ m ∈ ms, m.tag.length = bsp.messageQueue.recvTagSize

theorem synced_holding {n : ℕ} {rows : ℕ → List Row} {tagSize : ℕ → ℕ} {ops : ℕ → List Op}
    {w v : World} {q : ℕ} {p : Proc} (hq : q < n) (htag : ∀ p < n, tagSize p = tagSize 0)
    (h : Synced n rows tagSize (callsAt n rows tagSize ops w) v q p) :
    Holding p.bsp (inboxAfter n (callsAt n rows tagSize ops w) q) := by
  refine ⟨h.queue, fun m hm => ?_⟩
  rw [h.recvTagSize, htag q hq]
  exact inbox_tag htag hm

theorem holding_cons {bsp : BSPObject} {m : Message} {ms : List Message}
    (h : Holding bsp (m :: ms)) : ∃ p, bsp.messageQueue.head = some p ∧
      bsp.messageQueue.nMesg = ms.length + 1 ∧
      elementSize bsp.deliveryReceivedTable p = m.tag.length + m.payload.length ∧
      (elementInfo bsp.deliveryReceivedTable p).payloadSize = m.payload.length ∧
      loadBytes bsp.deliveryReceivedTable.data (8 * (p + tagSize))
        bsp.messageQueue.recvTagSize = m.tag ∧
      loadBytes bsp.deliveryReceivedTable.data (8 * (p + tagSize) + bsp.messageQueue.recvTagSize)
        m.payload.length = m.payload ∧
      ∀ size, Holding (dequeue bsp p size) ms := by
  obtain ⟨p, hp, hel, hn, htail⟩ := queued_cons h.queued
  have hsize := hel.size
  have hpay := hel.payload
  rw [elementPayload, hsize] at hpay
  simp only [messageItem, List.length_append] at hsize hpay
  rw [loadBytes, load_add] at hpay
  obtain ⟨htag, hpayload⟩ := List.append_inj hpay (by simp)
  rw [h.tags m (by simp)] at htag hpayload
  refine ⟨p, hp, by simpa using hn, hsize, by rw [hel.info]; rfl, htag, hpayload, fun size => ?_⟩
  exact ⟨htail _, fun x hx => h.tags x (List.mem_cons_of_mem _ hx)⟩

/-- The results of `k` calls of `bspx_hpmove`, with the tag and the payload that
the returned pointers refer to. -/
def hpmoveTimes : ℕ → BSPObject → Option (List (Option (ℕ × Message)))
  | 0, _ => some []
  | k + 1, bsp => do
    let (bsp', r) ← bspxHpmove bsp
    let rest ← hpmoveTimes k bsp'
    let bytes := loadBytes bsp.deliveryReceivedTable.data
    return (r.map fun (size, tag, payload) =>
      (size, ⟨bytes tag bsp.messageQueue.recvTagSize, bytes payload size⟩)) :: rest

theorem hpmoveTimes_empty {bsp : BSPObject} (h : bsp.messageQueue.nMesg = 0) (k : ℕ) :
    hpmoveTimes k bsp = some (List.replicate k none) := by
  induction k with
  | zero => rfl
  | succ k ih =>
    simp only [hpmoveTimes, bspxHpmove, if_pos h, Option.bind_eq_bind, Option.bind_some, ih]
    rfl

theorem hpmoveTimes_holding {bsp : BSPObject} {ms : List Message} (h : Holding bsp ms) (k : ℕ) :
    hpmoveTimes (ms.length + k) bsp =
      some (ms.map (fun m => some (m.payload.length, m)) ++ List.replicate k none) := by
  induction ms generalizing bsp with
  | nil =>
    have h0 : bsp.messageQueue.nMesg = 0 := h.queued.nMesg
    simpa using hpmoveTimes_empty h0 k
  | cons m ms ih =>
    obtain ⟨p, hp, hn, -, hinfo, htag, hpay, htail⟩ := holding_cons h
    have hne : bsp.messageQueue.nMesg ≠ 0 := by omega
    have hlen : (m :: ms).length + k = ms.length + k + 1 := by simp; omega
    rw [hlen]
    simp only [hpmoveTimes, hpmove_head hp hne, Option.bind_eq_bind, Option.bind_some,
      ih (htail _), Option.map_some, hinfo, htag, hpay]
    rfl

/-- After a synchronisation the messages of the superstep just ended are dequeued,
by sender and in the order of the sends, each once and unchanged. -/
theorem superstep_messages {n : ℕ} {rows : ℕ → List Row} {tagSize : ℕ → ℕ} {ops : ℕ → List Op}
    {w : World} (hr : Reachable n (SameTags n) rows tagSize w)
    (ha : Admissible n rows tagSize ops w) :
    ∃ w', superstep n ops w = some w' ∧ ∀ q < n, ∀ k,
      let ms := (List.range n).flatMap fun p => sendsTo q (callsAt n rows tagSize ops w p)
      hpmoveTimes (ms.length + k) (w' q).bsp =
        some (ms.map (fun m => some (m.payload.length, m)) ++ List.replicate k none) := by
  obtain ⟨v, w', hs, hspec⟩ := superstep_defined (reachable_clean hr) ha
  refine ⟨w', hs, fun q hq k => ?_⟩
  exact hpmoveTimes_holding (synced_holding hq (sameTags_tagSize hr) (hspec q hq)) k

inductive QueueCall
  | getTag (tag : ℕ)
  | move (payload receptionNbytes : ℕ)
  | hpmove

def QsizeExact (ms : List Message) (bsp : BSPObject) : Prop :=
  bspxQsize bsp = (ms.length, (ms.map fun m => m.payload.length).sum)

/-- Every call of the sequence, as long as it meets a message, reports and copies by
payload size, whatever the memory is, and the sizes are exact before and after it. -/
def Accounted : List QueueCall → List Message → BSPObject → Prop
  | [], ms, bsp => QsizeExact ms bsp
  | _ :: _, [], bsp => QsizeExact [] bsp
  | .getTag tag :: cs, m :: ms, bsp => QsizeExact (m :: ms) bsp ∧
      (∀ mem, ∃ mem', bspxGetTag bsp mem tag = some (some m.payload.length, mem')) ∧
      Accounted cs (m :: ms) bsp
  | .move payload k :: cs, m :: ms, bsp => QsizeExact (m :: ms) bsp ∧ ∃ bsp',
      (∀ mem, bspxMove bsp mem payload k = some (bsp', store mem payload (m.payload.take k))) ∧
      Accounted cs ms bsp'
  | .hpmove :: cs, m :: ms, bsp => QsizeExact (m :: ms) bsp ∧ ∃ bsp' r,
      bspxHpmove bsp = some (bsp', r) ∧ Accounted cs ms bsp'

/-- Every `reception_nbytes` cuts the payload where its value as an `unsigned int` does. -/
def CutExact : List QueueCall → List Message → Prop
  | .getTag _ :: cs, m :: ms => CutExact cs (m :: ms)
  | .move _ k :: cs, m :: ms =>
    min (toUInt32 k) m.payload.length = min k m.payload.length ∧ CutExact cs ms
  | .hpmove :: cs, _ :: ms => CutExact cs ms
  | _, _ => True

theorem accounted_qsize {cs : List QueueCall} {ms : List Message} {bsp : BSPObject}
    (h : Accounted cs ms bsp) : QsizeExact ms bsp := by
  cases cs with
  | nil => exact h
  | cons c cs =>
    cases ms with
    | nil => exact h
    | cons m ms => cases c <;> exact h.1

theorem moved_iff {bsp b b' : BSPObject} {payload k : ℕ} {xs : List UInt8}
    (hmove : ∀ mem, bspxMove bsp mem payload k =
      some (b, store mem payload (xs.take (toUInt32 k)))) :
    (∀ mem, bspxMove bsp mem payload k = some (b', store mem payload (xs.take k))) ↔
      b = b' ∧ min (toUInt32 k) xs.length = min k xs.length := by
  have hnontrivial : Nontrivial UInt8 := ⟨0, 1, by decide⟩
  simp only [hmove, Option.some.injEq, Prod.mk.injEq, forall_and, forall_const, store_take_iff]

theorem qsize_exact {bsp : BSPObject} {ms : List Message} (h : Holding bsp ms)
    (haccum : bsp.messageQueue.accumSize = (ms.map fun m => m.payload.length).sum) :
    QsizeExact ms bsp := by
  rw [QsizeExact, bspxQsize, h.queued.nMesg, haccum, List.length_map]

theorem accounted_iff_of_no_tag {bsp : BSPObject} {ms : List Message} (h : Holding bsp ms)
    (htag : bsp.messageQueue.recvTagSize = 0)
    (haccum : bsp.messageQueue.accumSize = (ms.map fun m => m.payload.length).sum)
    (cs : List QueueCall) : Accounted cs ms bsp ↔ CutExact cs ms := by
  have hqsize := qsize_exact h haccum
  induction cs generalizing bsp ms with
  | nil => exact ⟨fun _ => trivial, fun _ => hqsize⟩
  | cons c cs ih =>
    cases ms with
    | nil => cases c <;> exact ⟨fun _ => trivial, fun _ => hqsize⟩
    | cons m ms =>
      obtain ⟨p, hp, hn, hsize, hinfo, -, hpay, htail⟩ := holding_cons h
      have hne : bsp.messageQueue.nMesg ≠ 0 := by omega
      have hm := h.tags m (by simp)
      rw [hm, htag, Nat.zero_add] at hsize
      rw [htag, Nat.add_zero] at hpay
      have hrest : bsp.messageQueue.accumSize - m.payload.length =
          (ms.map fun m => m.payload.length).sum := by
        rw [haccum, List.map_cons, List.sum_cons]
        omega
      have htail' := htail m.payload.length
      have hdeq := ih htail' htag hrest (qsize_exact htail' hrest)
      cases c with
      | getTag tag =>
        have hget := fun mem => getTag_head hp hne mem tag
        rw [hsize] at hget
        exact ⟨fun ha => (ih h htag haccum hqsize).mp ha.2.2, fun hc =>
          ⟨hqsize, fun mem => ⟨_, hget mem⟩, (ih h htag haccum hqsize).mpr hc⟩⟩
      | move payload k =>
        have hmove : ∀ mem, bspxMove bsp mem payload k = some (dequeue bsp p m.payload.length,
            store mem payload (m.payload.take (toUInt32 k))) := by
          intro mem
          have hload := load_take (d := getByte bsp.deliveryReceivedTable.data)
            (a := 8 * (p + tagSize)) (min_le_right (toUInt32 k) m.payload.length)
          rw [loadBytes] at hpay
          rw [hpay] at hload
          rw [move_head hp, hsize, htag, Nat.add_zero, loadBytes, ← hload, ← List.take_eq_take_min]
        constructor
        · rintro ⟨-, bsp', hstep, hrest'⟩
          obtain ⟨rfl, hcut⟩ := (moved_iff hmove).mp hstep
          exact ⟨hcut, hdeq.mp hrest'⟩
        · rintro ⟨hcut, hc⟩
          exact ⟨hqsize, _, (moved_iff hmove).mpr ⟨rfl, hcut⟩, hdeq.mpr hc⟩
      | hpmove =>
        have hmove := hpmove_head hp hne
        rw [hinfo] at hmove
        constructor
        · rintro ⟨-, bsp', r, hstep, hrest'⟩
          have heq := hmove.symm.trans hstep
          simp only [Option.some.injEq, Prod.mk.injEq] at heq
          rw [← heq.1] at hrest'
          exact hdeq.mp hrest'
        · exact fun hc => ⟨hqsize, _, _, hmove, hdeq.mpr hc⟩

theorem no_tag_of_qsize {bsp : BSPObject} {ms : List Message} (h : Holding bsp ms) (hne : ms ≠ [])
    (haccum : bsp.messageQueue.accumSize = (ms.map fun m => (m.tag ++ m.payload).length).sum)
    (hq : QsizeExact ms bsp) : bsp.messageQueue.recvTagSize = 0 := by
  have hsum : (ms.map fun m => (m.tag ++ m.payload).length).sum =
      ms.length * bsp.messageQueue.recvTagSize + (ms.map fun m => m.payload.length).sum := by
    have htags := h.tags
    clear h hne haccum hq
    induction ms with
    | nil => simp
    | cons m ms ih =>
      have hm := htags m (by simp)
      have hrest := ih fun x hx => htags x (List.mem_cons_of_mem _ hx)
      simp only [List.map_cons, List.sum_cons, List.length_append, List.length_cons, Nat.succ_mul,
        hm] at hrest ⊢
      omega
  have hsize : bsp.messageQueue.accumSize = (ms.map fun m => m.payload.length).sum :=
    congrArg Prod.snd hq
  have hpos := List.length_pos_of_ne_nil hne
  have hzero : ms.length * bsp.messageQueue.recvTagSize = 0 := by omega
  exact (Nat.mul_eq_zero.mp hzero).resolve_left (by omega)

theorem synced_accounted {n : ℕ} {rows : ℕ → List Row} {tagSize : ℕ → ℕ} {ops : ℕ → List Op}
    {w v : World} {q : ℕ} {p : Proc} (hq : q < n) (htags : ∀ p < n, tagSize p = tagSize 0)
    (h : Synced n rows tagSize (callsAt n rows tagSize ops w) v q p) (cs : List QueueCall) :
    Accounted cs (inboxAfter n (callsAt n rows tagSize ops w) q) p.bsp ↔
      (inboxAfter n (callsAt n rows tagSize ops w) q = [] ∨ tagSize q = 0) ∧
        CutExact cs (inboxAfter n (callsAt n rows tagSize ops w) q) := by
  have hhold := synced_holding hq htags h
  have htag := h.recvTagSize
  have haccum := h.accumSize
  generalize inboxAfter n (callsAt n rows tagSize ops w) q = ms at hhold haccum ⊢
  by_cases hne : ms = []
  · subst hne
    have hempty : QsizeExact [] p.bsp := qsize_exact hhold haccum
    cases cs with
    | nil => exact ⟨fun _ => ⟨.inl rfl, trivial⟩, fun _ => hempty⟩
    | cons c cs => cases c <;> exact ⟨fun _ => ⟨.inl rfl, trivial⟩, fun _ => hempty⟩
  have hnotag : tagSize q = 0 →
      p.bsp.messageQueue.accumSize = (ms.map fun m => m.payload.length).sum := by
    intro h0
    rw [haccum]
    congr 1
    apply List.map_congr_left
    intro m hm
    have hlen := hhold.tags m hm
    rw [htag, h0] at hlen
    rw [List.length_append, hlen, Nat.zero_add]
  constructor
  · intro hacc
    have h0 := no_tag_of_qsize hhold hne haccum (accounted_qsize hacc)
    have h0' : tagSize q = 0 := htag.symm.trans h0
    exact ⟨.inr h0', (accounted_iff_of_no_tag hhold h0 (hnotag h0') cs).mp hacc⟩
  · rintro ⟨hor, hcut⟩
    have h0 := hor.resolve_left hne
    exact (accounted_iff_of_no_tag hhold (htag.trans h0) (hnotag h0) cs).mpr hcut

/-- The size accounting is exact for a sequence of calls if and only if there are no
messages with tags and every `reception_nbytes` survives the cast. -/
theorem accounted_iff {n : ℕ} {rows : ℕ → List Row} {tagSize : ℕ → ℕ} {ops : ℕ → List Op}
    {w w' : World} (hr : Reachable n (SameTags n) rows tagSize w)
    (ha : Admissible n rows tagSize ops w) (hs : superstep n ops w = some w') {q : ℕ} (hq : q < n)
    (cs : List QueueCall) :
    Accounted cs (inboxAfter n (callsAt n rows tagSize ops w) q) (w' q).bsp ↔
      (inboxAfter n (callsAt n rows tagSize ops w) q = [] ∨ tagSize q = 0) ∧
        CutExact cs (inboxAfter n (callsAt n rows tagSize ops w) q) := by
  obtain ⟨v, -, hspec⟩ := superstep_synced (reachable_clean hr) ha hs
  exact synced_accounted hq (sameTags_tagSize hr) (hspec q hq) cs

section Example

def tagOps : ℕ → List Op := fun _ => [.setTagsize 4]

def sendOps : ℕ → List Op := fun p => [.send (1 - p) 100 200 3]

theorem tag_reachable : ∃ w, superstep 2 tagOps (startWorld 2) = some w ∧
    Reachable 2 (SameTags 2) (fun _ => []) (fun _ => 4) w :=
  reachable_step (startWorld_reachable 2 (SameTags 2))
    ⟨fun _ _ => ⟨trivial, fun _ _ => trivial⟩, fun _ _ => rfl, fun _ _ => trivial⟩ fun _ _ => rfl

theorem send_calls (tagSize : ℕ → ℕ) (w : World) (p : ℕ) :
    callsAt 2 (fun _ => []) tagSize sendOps w p =
      [.send (1 - p) ⟨load (w p).mem 100 (tagSize p), load (w p).mem 200 3⟩] :=
  trace_singleton exec _ _ _

theorem send_admissible {t : ℕ} (ht : t < 2 ^ 20) (w : World) :
    Admissible 2 (fun _ => []) (fun _ => t) sendOps w := by
  refine ⟨fun p hp => ⟨⟨?_, ?_⟩, fun _ _ => trivial⟩, fun p _ => ?_, fun p _ => ?_⟩
  · show 1 - p < 2
    omega
  · show 3 + t < 2 ^ 31
    omega
  · rw [send_calls, send_calls]
    rfl
  · rw [send_calls]
    trivial

theorem send_inbox (tagSize : ℕ → ℕ) (w : World) :
    inboxAfter 2 (callsAt 2 (fun _ => []) tagSize sendOps w) 0 =
      [⟨load (w 1).mem 100 (tagSize 1), load (w 1).mem 200 3⟩] := by
  simp [inboxAfter, List.range_succ, send_calls, sendsTo]

theorem superstep_messages_tagged : ∃ w, superstep 2 tagOps (startWorld 2) = some w ∧
    ∃ w', superstep 2 sendOps w = some w' ∧ ∀ q < 2, ∀ k,
      let ms := (List.range 2).flatMap fun p =>
        sendsTo q (callsAt 2 (fun _ => []) (fun _ => 4) sendOps w p)
      hpmoveTimes (ms.length + k) (w' q).bsp =
        some (ms.map (fun m => some (m.payload.length, m)) ++ List.replicate k none) := by
  obtain ⟨w, hs, hr⟩ := tag_reachable
  exact ⟨w, hs, superstep_messages hr (send_admissible (by decide) w)⟩

theorem accounted_iff_untagged : ∃ w, superstep 2 sendOps (startWorld 2) = some w ∧
    (Accounted [.getTag 0, .move 8 2]
      (inboxAfter 2 (callsAt 2 (fun _ => []) (fun _ => 0) sendOps (startWorld 2)) 0) (w 0).bsp ↔
      (inboxAfter 2 (callsAt 2 (fun _ => []) (fun _ => 0) sendOps (startWorld 2)) 0 = [] ∨
        (0 : ℕ) = 0) ∧ CutExact [.getTag 0, .move 8 2]
        (inboxAfter 2 (callsAt 2 (fun _ => []) (fun _ => 0) sendOps (startWorld 2)) 0)) := by
  have hr := startWorld_reachable 2 (SameTags 2)
  have ha := send_admissible (t := 0) (by decide) (startWorld 2)
  obtain ⟨v, w, hs, -⟩ := superstep_defined (reachable_clean hr) ha
  exact ⟨w, hs, accounted_iff hr ha hs (by decide) _⟩

/-- With a tag of four bytes the status of a message of three bytes is not exact. -/
theorem not_accounted_tagged : ∃ w w', superstep 2 tagOps (startWorld 2) = some w ∧
    superstep 2 sendOps w = some w' ∧ ∃ m : Message,
      inboxAfter 2 (callsAt 2 (fun _ => []) (fun _ => 4) sendOps w) 0 = [m] ∧
      m.payload.length = 3 ∧ (bspxGetTag (w' 0).bsp (w' 0).mem 0).map Prod.fst = some (some 7) ∧
      ¬ Accounted [.getTag 0] [m] (w' 0).bsp := by
  obtain ⟨w, hs, hr⟩ := tag_reachable
  have ha := send_admissible (t := 4) (by decide) w
  obtain ⟨v, w', hs', hspec⟩ := superstep_defined (reachable_clean hr) ha
  have hsync := hspec 0 (by decide)
  have hinbox := send_inbox (fun _ => 4) w
  have hhold := synced_holding (by decide) (sameTags_tagSize hr) hsync
  have hacc := synced_accounted (by decide) (sameTags_tagSize hr) hsync [.getTag 0]
  rw [hinbox] at hhold hacc
  obtain ⟨p, hp, hn, hsize, -⟩ := holding_cons hhold
  refine ⟨w, w', hs, hs', _, hinbox, by simp, ?_, fun h => ?_⟩
  · rw [getTag_head hp (by omega), Option.map_some, hsize]
    simp
  · have hor := (hacc.mp h).1
    simp at hor

end Example

end BspOnMpi.Messages
