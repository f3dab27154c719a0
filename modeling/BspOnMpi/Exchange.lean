import BspOnMpi.Calls

/-! The exchange of a superstep. What the two total exchanges do to tables that are logs of calls.
The requests are answered from the memory of their target, the answers travel behind the
deliveries of the same column. -/

namespace BspOnMpi.Exchange
open Lib Exptable Slots Delivtable DelivPush Memreg DelivExecute Reqtable Machine Bspx Calls

def sentItems (cs : ℕ → List Call) (mem : ℕ → Mem) (p q : ℕ) : List Item :=
  columnItems p (cs p) q ++ (columnRequests (cs q) p).map (answer (mem p))

theorem three_div (p : ℕ) {r : ℕ} (hr : r < 3) : (3 * p + r) / 3 = p := by omega

theorem three_mod (p : ℕ) {r : ℕ} (hr : r < 3) : (3 * p + r) % 3 = r := by omega

section Tables

variable {n q : ℕ}

theorem reset_delivShape {t : DeliveryTable} (h : DelivShape t n) :
    DelivShape (deliveryTableReset t) n :=
  ⟨h.nprocs, h.rows, h.slot, h.aimed⟩

theorem expanded_delivShape {t : DeliveryTable} (h : DelivShape t n) (f : ℕ → ℕ) :
    let m := (List.range n).foldl (fun m p => max (f p) m) 0
    let v := if t.rows < m then deliveryTableExpand t (max t.rows m) else t
    DelivShape v n ∧ ∀ p < n, f p ≤ v.rows := by
  intro m v
  have hr := h.rows
  have hv : DelivShape v n ∧ m ≤ v.rows := by
    simp only [v]
    split
    · refine ⟨⟨h.nprocs, ?_, h.slot, rfl⟩, ?_⟩
      · simp only [deliveryTableExpand, expand_rows]
        omega
      · simp only [deliveryTableExpand, expand_rows]
        omega
    · exact ⟨h, by omega⟩
  exact ⟨hv.1, fun p hp => (le_largest f hp).trans hv.2⟩

theorem expanded_reqShape {t : RequestTable} (h : ReqShape t n) (recvIndex : ℕ → ℕ) (c : Prop)
    [Decidable c] (grow : ℕ)
    (hgrow : arrayMax recvIndex (3 * n) 3 ≤ if c then grow + t.rows else t.rows) :
    let v := if c then requestTableExpand t grow else t
    let u := { v with
      usedSlotCount := fun p => if p < n then recvIndex (3 * p) else v.usedSlotCount p }
    ReqShape u n ∧ Fits u := by
  intro v u
  have hr := h.rows
  have hv : ReqShape v n ∧ arrayMax recvIndex (3 * n) 3 ≤ v.rows := by
    simp only [v]
    split at hgrow
    · rw [if_pos ‹_›]
      refine ⟨⟨h.nprocs, ?_, h.slot⟩, hgrow⟩
      simp only [requestTableExpand, expand_rows]
      omega
    · rw [if_neg ‹_›]
      exact ⟨h, hgrow⟩
  refine ⟨⟨hv.1.nprocs, hv.1.rows, hv.1.slot⟩, fun p hp => ?_⟩
  have hpn : p < n := lt_of_lt_of_eq hp hv.1.nprocs
  simp only [u, if_pos hpn]
  exact (le_arrayMax _ (by omega) (by omega)).trans hv.2

theorem answers_rep {send : ℕ → RequestTable} {rs : ℕ → ℕ → List ReqElement} {recv : RequestTable}
    {deliv : DeliveryTable} {its : ℕ → List Item}
    (hsend : ∀ p < n, Requests (send p) (rs p) ∧ (send p).nprocs = n) (hrecv : ReqShape recv n)
    (hfits : Fits recv) (hcount : ∀ p < n, recv.usedSlotCount p = (rs p q).length)
    (hdeliv : Rep deliv its) (hn : deliv.nprocs = n) (hq : q < n) (mem : Mem) (next : ℕ) :
    Rep (requestTableExecute (expandableTableComm send recv q) deliv mem next)
      (fun c => its c ++ (rs c q).map (answer mem)) ∧
      (requestTableExecute (expandableTableComm send recv q) deliv mem next).nprocs = n := by
  have hcomm := comm_holds send recv q rs (by rw [hrecv.slot]; decide)
    (fun p hp => by rw [hrecv.slot]; exact (hsend p (by rw [← hrecv.nprocs]; exact hp)).1.slot)
      hfits
    (fun p hp => by rw [(hsend p (by rw [← hrecv.nprocs]; exact hp)).2]; exact hq)
    (fun p hp => (hsend p (by rw [← hrecv.nprocs]; exact hp)).1.holds)
    (fun p hp => hcount p (by rw [← hrecv.nprocs]; exact hp))
  obtain ⟨h1, h2⟩ := requestExecute_rep hcomm hdeliv (hrecv.nprocs.trans hn.symm) mem next
  refine ⟨h1.congr fun c hc => ?_, h2.trans hn⟩
  have hcn : c < n := lt_of_lt_of_eq hc (h2.trans hn)
  rw [comm_nprocs, if_pos (lt_of_lt_of_eq hcn hrecv.nprocs.symm)]

theorem columns_received {send : ℕ → DeliveryTable} {its : ℕ → ℕ → List Item} {recv : DeliveryTable}
    (hsend : ∀ p < n, Rep (send p) (its p) ∧ (send p).nprocs = n) (hrecv : DelivShape recv n)
    (hcount : ∀ p < n, colSize (its p q) ≤ recv.usedSlotCount p ∧ recv.usedSlotCount p ≤ recv.rows)
    (hq : q < n) : Received (expandableTableComm send recv q) (fun p => its p q) ∧
      DelivShape (expandableTableComm send recv q) n := by
  have hn := hrecv.nprocs
  have hslot := hrecv.slot
  have hslots : ∀ p < recv.nprocs, (send p).slotSize = recv.slotSize :=
    fun p hp => (hsend p (by omega)).1.slot.trans hslot.symm
  have hfits : Fits recv := fun p hp => (hcount p (by omega)).2
  refine ⟨⟨fun p hp => ?_, fun p hp => ?_, hrecv.aimed⟩, ⟨hn, hrecv.rows, hslot, hrecv.aimed⟩⟩
  · obtain ⟨h1, h2⟩ := hcount p (lt_of_lt_of_eq hp hn)
    exact h1.trans h2
  · have hpn : p < n := lt_of_lt_of_eq hp hn
    obtain ⟨hrep, hpnn⟩ := hsend p hpn
    apply (hrep.encodes q (by omega)).congr
    intro s hs
    have hu := hrep.used q (by omega)
    exact comm_col (by omega) hslots hfits (lt_of_lt_of_eq hpn hn.symm) (by omega)
      (lt_of_lt_of_le hs (hcount p hpn).1)

theorem slots_le_announced (mem : Mem) (rs : List ReqElement) (its : List Item) :
    colSize (its ++ rs.map (answer mem)) ≤ colSize its + announced rs := by
  have hslots : ((rs.map (answer mem)).map Item.slots).sum ≤ announced rs := by
    induction rs with
    | nil => exact le_rfl
    | cons r rs ih =>
      have hlen := load_length_size mem r
      simp only [announced, List.map_cons, List.sum_cons, Item.slots_eq, hlen] at ih ⊢
      omega
  simp only [colSize, extent_eq, List.map_append, List.sum_append] at hslots ⊢
  omega

end Tables

section Items

variable (cs : ℕ → List Call) (mem : ℕ → Mem) (p q : ℕ)

theorem putWrites_sent : putWrites (sentItems cs mem p q) =
    putsTo q (cs p) ++ answersOf p (mem p) (cs q) := by
  rw [← putWrites_columnItems p q, ← putWrites_answers p]
  simp [sentItems, putWrites]

theorem pushRequests_sent :
    pushRequests p (sentItems cs mem p q) = (pushes (cs p)).map fun a => (p, a) := by
  rw [← pushRequests_columnItems p q]
  simp [sentItems, pushRequests, answer, List.filter_map, Function.comp_def]

theorem sendItems_sent : sendItems (sentItems cs mem p q) = (sendsTo q (cs p)).map messageItem := by
  rw [← sendItems_columnItems p q]
  simp [sentItems, sendItems, answer, List.filter_map, Function.comp_def]

theorem popRequests_sent : popRequests (sentItems cs mem q q) = pops (cs q) := by
  rw [← popRequests_columnItems q]
  simp [sentItems, popRequests, answer, List.filter_map, Function.comp_def]

theorem tagRequests_sent : tagRequests (sentItems cs mem q q) = tagSizes (cs q) := by
  rw [← tagRequests_columnItems q]
  simp [sentItems, tagRequests, answer, List.filter_map, Function.comp_def]

end Items

theorem execute_sent {table : DeliveryTable} {cs : ℕ → List Call} {mem : ℕ → Mem} {n q : ℕ}
    (h : Received table fun p => sentItems cs mem p q) (hn : table.nprocs = n) (hq : q < n)
    {memreg memreg' : MemoryRegister} (mesgq : MessageQueue)
    (hempty : mesgq.nMesg = 0 ∧ mesgq.accumSize = 0)
    (hpop : popAll q (some (pushAll memreg ((List.range n).flatMap fun p =>
      (pushes (cs p)).map fun a => (p, a)))) (pops (cs q)) = some memreg') :
    ∃ st, deliveryTableExecute table memreg mesgq (mem q) q = some st ∧
      (∃ d, st.table = { table with data := d }) ∧ st.memreg = memreg' ∧
      st.mem = memAfter n cs mem q ∧
      Queued st.table st.mesgq ((inboxAfter n cs q).map messageItem) ∧
      st.mesgq.accumSize =
        (((inboxAfter n cs q).map messageItem).map fun it => it.payload.length).sum ∧
      st.mesgq.recvTagSize = mesgq.recvTagSize ∧
      st.mesgq.sendTagSize = tagAfter mesgq.sendTagSize (cs q) := by
  subst hn
  have hput : (List.range table.nprocs).flatMap (fun p => putWrites (sentItems cs mem p q)) =
      writesTo table.nprocs cs mem q := by
    simp only [putWrites_sent, writesTo]
  have hmsg : messages (fun p => sentItems cs mem p q) table.nprocs =
      (inboxAfter table.nprocs cs q).map messageItem := by
    simp only [messages, sendItems_sent, inboxAfter, List.map_flatMap]
  have hspec := execute_spec h memreg mesgq (mem q) hq hempty
    (by simp only [pushRequests_sent, popRequests_sent]; exact hpop)
  rwa [hput, hmsg, tagRequests_sent] at hspec

theorem logged_synced {x : Context} {cs : List Call} {p : Proc} (h : Logged x cs p)
    {rows : List Row} {tagSize : ℕ} {deliv recvDeliv : DeliveryTable} {its : ℕ → List Item}
    {recvReq : RequestTable} {memreg : MemoryRegister} {mesgq : MessageQueue}
    (hdeliv : Rep deliv its) (hdn : deliv.nprocs = x.n) (hreq : ReqShape recvReq x.n)
    (hshape : DelivShape recvDeliv x.n) (hreg : Registered memreg rows x.rank)
    (hregn : memreg.nprocs = x.n) (htag : mesgq.sendTagSize = tagSize)
    (hqueue : ∃ ms, Queued recvDeliv mesgq ms) (mem : Mem) (stack : ℕ) :
    Logged ⟨x.n, x.rank, rows, tagSize⟩ []
      { bsp := { p.bsp with
          deliveryTable := deliveryTableReset deliv
          deliveryReceivedTable := recvDeliv
          requestTable := requestTableReset p.bsp.requestTable
          requestReceivedTable := recvReq
          memoryRegister := memreg
          messageQueue := mesgq }
        mem := mem
        stack := stack } :=
  ⟨h.rank_lt, h.nprocs, h.rank, reset_rep hdeliv (by have := h.rank_lt; omega), hdn,
    reset_requests h.req.rows_pos h.req.slot, h.req_nprocs, hreg, hregn, hshape, hreq, htag, hqueue⟩

end BspOnMpi.Exchange
