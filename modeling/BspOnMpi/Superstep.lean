import BspOnMpi.BspxSync

/-! The superstep. The tables of all processors at `bspx_sync` are logs of their calls; what the
receivers execute is then exactly what `Machine` says a superstep is for. -/

namespace BspOnMpi.Superstep
open Lib Exptable Slots Delivtable DelivPush Memreg DelivExecute Reqtable Machine Bspx Calls
  Exchange
  BspxSync

structure Ready (n : ℕ) (rows : ℕ → List Row) (tagSize : ℕ → ℕ) (cs : ℕ → List Call) (w : World) :
    Prop where
  logged : ∀ p < n, Logged ⟨n, p, rows p, tagSize p⟩ (cs p) (w p)

section Exchange

variable {n : ℕ} {rows : ℕ → List Row} {tagSize : ℕ → ℕ} {cs : ℕ → List Call} {w : World}
  {p q : ℕ}

/-- The slots that processor `q` expects from processor `p`. -/
def expectedSlots (w : World) (q p : ℕ) : ℕ :=
  recvIndex (afterReset w) q (1 + 3 * p) + (afterReset w q).requestTable.info.dataSizes p

theorem expectedSlots_eq (h : Ready n rows tagSize cs w) (hp : p < n) (hq : q < n) :
    expectedSlots w q p =
      colSize (columnItems p (cs p) q) + announced (columnRequests (cs q) p) := by
  have hlp := h.logged p hp
  have hu := hlp.deliv.used q (by rw [hlp.deliv_nprocs]; exact hq)
  rw [expectedSlots, recvIndex_delivery]
  exact congrArg₂ (· + ·) hu ((h.logged q hq).req.sizes p)

theorem expand_delivery (h : Ready n rows tagSize cs w) (hq : q < n) :
    let t := (afterExpand w q).deliveryReceivedTable
    DelivShape t n ∧ ∀ p < n, t.usedSlotCount p =
      colSize (columnItems p (cs p) q) + announced (columnRequests (cs q) p) ∧
      t.usedSlotCount p ≤ t.rows := by
  have hlq := h.logged q hq
  have hn : (afterReset w q).nprocs = n := hlq.nprocs
  have hshape : DelivShape (afterReset w q).deliveryReceivedTable n :=
    reset_delivShape hlq.recvDeliv
  obtain ⟨hv, hroom⟩ := expanded_delivShape hshape (expectedSlots w q)
  let u := (afterReset w q).deliveryReceivedTable
  let m := (List.range n).foldl (fun m p => max (expectedSlots w q p) m) 0
  let v := if u.rows < m then deliveryTableExpand u (max u.rows m) else u
  have ht : (afterExpand w q).deliveryReceivedTable = { v with
      usedSlotCount := fun p => if p < n then expectedSlots w q p else v.usedSlotCount p } := by
    simp only [afterExpand, syncExpand, hn]
    rfl
  simp only [ht]
  refine ⟨⟨hv.nprocs, hv.rows, hv.slot, hv.aimed⟩, fun p hp => ?_⟩
  rw [if_pos hp]
  exact ⟨expectedSlots_eq h hp hq, hroom p hp⟩

theorem expand_request (h : Ready n rows tagSize cs w) (hq : q < n) :
    let t := (afterExpand w q).requestReceivedTable
    ReqShape t n ∧ Fits t ∧ ∀ p < n, t.usedSlotCount p = (columnRequests (cs p) q).length := by
  have hlq := h.logged q hq
  have hn : (afterReset w q).nprocs = n := hlq.nprocs
  have hcount : ∀ p < n, recvIndex (afterReset w) q (3 * p) = (columnRequests (cs p) q).length := by
    intro p hp
    have hlp := h.logged p hp
    rw [recvIndex_request]
    exact hlp.req.holds.used q (by rw [hlp.req_nprocs]; exact hq)
  let m := arrayMax (recvIndex (afterReset w) q) (3 * n) 3
  let u := (afterReset w q).requestReceivedTable
  have hu : ReqShape u n := ⟨hlq.recvReq.nprocs, hlq.recvReq.rows, hlq.recvReq.slot⟩
  obtain ⟨hshape, hfits⟩ := expanded_reqShape hu (recvIndex (afterReset w) q) (u.rows < m)
    (max u.rows m) (by split <;> omega)
  let v := if u.rows < m then requestTableExpand u (max u.rows m) else u
  have ht : (afterExpand w q).requestReceivedTable = { v with
      usedSlotCount := fun p =>
        if p < n then recvIndex (afterReset w) q (3 * p) else v.usedSlotCount p } := by
    simp only [afterExpand, syncExpand, hn]
    rfl
  simp only [ht]
  refine ⟨hshape, hfits, fun p hp => ?_⟩
  rw [if_pos hp]
  exact hcount p hp

theorem no_requests (h : Ready n rows tagSize cs w)
    (hany : anyOf (fun p => recvIndex (afterReset w) q (3 * p + 2)) n = 0) (hp : p < n) (c : ℕ)
    (hc : c < n) : columnRequests (cs p) c = [] := by
  have hlp := h.logged p hp
  have h0 := anyOf_eq_zero.mp hany p hp
  rw [recvIndex_anyGets] at h0
  have hnp : (afterReset w p).nprocs = n := hlp.nprocs
  rw [hnp] at h0
  have hu := anyOf_eq_zero.mp h0 c hc
  have hlen := hlp.req.holds.used c (by rw [hlp.req_nprocs]; exact hc)
  rw [← List.length_eq_zero_iff, ← hlen]
  exact hu

theorem requests_answered (h : Ready n rows tagSize cs w) (hp : p < n) :
    Rep (afterRequests w p).deliveryTable (sentItems cs (fun p => (w p).mem) p) ∧
      (afterRequests w p).deliveryTable.nprocs = n := by
  have hlp := h.logged p hp
  have hn : (afterExpand w p).nprocs = n := hlp.nprocs
  have hrep : Rep (afterExpand w p).deliveryTable (columnItems p (cs p)) := hlp.deliv
  have hdn : (afterExpand w p).deliveryTable.nprocs = n := hlp.deliv_nprocs
  obtain ⟨hshape, hfits, hcount⟩ := expand_request h hp
  simp only [afterRequests, syncRequests, hn]
  by_cases hany : anyOf (fun c => recvIndex (afterReset w) p (3 * c + 2)) n = 0
  · rw [if_neg (by simpa using hany)]
    refine ⟨hrep.congr fun c hc => ?_, hdn⟩
    have hcn : c < n := lt_of_lt_of_eq hc hdn
    rw [sentItems, no_requests h hany hcn p hp, List.map_nil, List.append_nil]
  · rw [if_pos hany]
    exact answers_rep (fun c hc => ⟨(h.logged c hc).req, (h.logged c hc).req_nprocs⟩) hshape hfits
      hcount hrep hdn hp (w p).mem (w p).stack

theorem requests_frame (w : World) (q : ℕ) : ∃ req deliv, afterRequests w q =
    { afterExpand w q with requestReceivedTable := req, deliveryTable := deliv } ∧
      (ReqShape (afterExpand w q).requestReceivedTable n → ReqShape req n) := by
  simp only [afterRequests, syncRequests]
  split
  · exact ⟨_, _, rfl, fun h => ⟨h.nprocs, h.rows, h.slot⟩⟩
  · exact ⟨_, _, rfl, id⟩

def receivedTable (w : World) (q : ℕ) : DeliveryTable :=
  expandableTableComm (fun p => (afterRequests w p).deliveryTable)
    (afterRequests w q).deliveryReceivedTable q

theorem received_columns (h : Ready n rows tagSize cs w) (hq : q < n) :
    Received (receivedTable w q) (fun p => sentItems cs (fun p => (w p).mem) p q) ∧
      DelivShape (receivedTable w q) n := by
  obtain ⟨hshape, hcount⟩ := expand_delivery h hq
  obtain ⟨req, deliv, hframe, -⟩ := requests_frame (n := n) w q
  have htable : (afterRequests w q).deliveryReceivedTable =
    (afterExpand w q).deliveryReceivedTable := by
    rw [hframe]
  rw [← htable] at hshape hcount
  refine columns_received (fun p hp => requests_answered h hp) hshape
    (fun p hp => ⟨?_, (hcount p hp).2⟩) hq
  rw [(hcount p hp).1]
  exact slots_le_announced _ _ _

end Exchange

section Register

variable {n q : ℕ} {cs : ℕ → List Call} {rs : List Row} {t : MemoryRegister}

theorem flatMap_own (f : ℕ → List ℕ) (n c : ℕ) :
    ((((List.range n).flatMap fun p => (f p).map fun a => (p, a)).filter fun e => e.1 = c).map
      Prod.snd) = if c < n then f c else [] := by
  induction n with
  | zero => simp
  | succ n ih =>
    rw [List.range_succ, List.flatMap_append, List.filter_append, List.map_append, ih]
    by_cases hc : n = c
    · subst hc
      simp [List.filter_map, Function.comp_def]
    · simp only [List.flatMap_cons, List.flatMap_nil, List.append_nil, List.filter_map,
        Function.comp_def, hc, decide_false, List.filter_false, List.map_nil,
        show c < n + 1 ↔ c < n by omega]

theorem newRows_column (hcol : ∀ p < n, (pushes (cs p)).length = (pushes (cs 0)).length) {c : ℕ}
    (hc : c < n) : columns (newRows n cs) c = pushes (cs c) := by
  rw [columns, newRows, List.map_map, ← hcol c hc]
  apply List.ext_getElem (by simp)
  intro i h1 h2
  simp [below, hc, h2]

theorem register_push (h : Registered t rs q) (hn : t.nprocs = n) (hpos : 0 < n)
    (hcol : ∀ p < n, (pushes (cs p)).length = (pushes (cs 0)).length) :
    let u := pushAll t ((List.range n).flatMap fun p => (pushes (cs p)).map fun a => (p, a))
    Marked u (rs ++ newRows n cs) ∧ liveRows u (rs ++ newRows n cs) = rs ++ newRows n cs ∧
      u.nprocs = n ∧ u.info.memoizedSrcProc = q := by
  have hps : ∀ e ∈ (List.range n).flatMap fun p => (pushes (cs p)).map fun a => (p, a),
      e.1 < t.nprocs := by
    intro e he
    obtain ⟨p, hp, hep⟩ := List.mem_flatMap.mp he
    obtain ⟨a, -, rfl⟩ := List.mem_map.mp hep
    rw [hn]
    exact List.mem_range.mp hp
  obtain ⟨hmarked, hlive, hun, -, hsrc⟩ := pushRows_marked h.marked (by omega) hps fun c hc => by
    have hcn : c < n := lt_of_lt_of_eq hc hn
    rw [flatMap_own, if_pos hcn, newRows_column hcol hcn]
  rw [registered_live h] at hlive
  exact ⟨hmarked, hlive, hun.trans hn, hsrc.trans h.srcProc⟩

theorem popAll_spec (h : Marked t rs) (hq : q < t.nprocs) (as : List ℕ)
    (hp : Poppable q (liveRows t rs) as) : ∃ u, popAll q (some t) as = some u ∧ Marked u rs ∧
      liveRows u rs = popRows q (liveRows t rs) as ∧ u.nprocs = t.nprocs ∧
      u.info.memoizedSrcProc = t.info.memoizedSrcProc := by
  induction as generalizing t with
  | nil => exact ⟨t, rfl, h, rfl, rfl, rfl⟩
  | cons a as ih =>
    obtain ⟨t', ht', hm, hl, hn, -, -, hs⟩ := pop_spec h hq hp.1
    have hp' : Poppable q (liveRows t' rs) as := by rw [hl]; exact hp.2
    obtain ⟨u, hu, hmu, hlu, hnu, hsu⟩ := ih hm (by omega) hp'
    have hcons : popAll q (some t) (a :: as) = popAll q (some t') as := by
      simp only [popAll, List.foldl_cons, Option.bind_some, ht']
    exact ⟨u, hcons.trans hu, hmu, by rw [hlu, hl]; rfl, hnu.trans hn, hsu.trans hs⟩

end Register

structure Collective (n : ℕ) (rows : ℕ → List Row) (cs : ℕ → List Call) : Prop where
  pushes : ∀ p < n, (pushes (cs p)).length = (pushes (cs 0)).length
  pops : ∀ q < n, Poppable q (rows q ++ newRows n cs) (Machine.pops (cs q))

/-- A processor after the synchronisation: its tables are empty again, and memory,
register, tag sizes and queue are those of the machine. -/
structure Synced (n : ℕ) (rows : ℕ → List Row) (tagSize : ℕ → ℕ) (cs : ℕ → List Call) (w : World)
    (q : ℕ) (p : Proc) : Prop where
  logged : Logged ⟨n, q, rowsAfter n cs (rows q) q, tagAfter (tagSize q) (cs q)⟩ [] p
  mem : p.mem = memAfter n cs (fun p => (w p).mem) q
  globalArrays : p.bsp.globalArrays = (w q).bsp.globalArrays
  recvTagSize : p.bsp.messageQueue.recvTagSize = tagSize q
  queue : Queued p.bsp.deliveryReceivedTable p.bsp.messageQueue
    ((inboxAfter n cs q).map messageItem)
  accumSize : p.bsp.messageQueue.accumSize =
    ((inboxAfter n cs q).map fun m => (m.tag ++ m.payload).length).sum

theorem syncProc_spec {n : ℕ} {rows : ℕ → List Row} {tagSize : ℕ → ℕ} {cs : ℕ → List Call}
    {w : World} (h : Ready n rows tagSize cs w) (hc : Collective n rows cs) {q : ℕ} (hq : q < n) :
    ∃ p, syncProc w q = some p ∧ Synced n rows tagSize cs w q p := by
  have hl := h.logged q hq
  obtain ⟨req, deliv, hframe, hreq⟩ := requests_frame (n := n) w q
  obtain ⟨hrecv, hshape⟩ := received_columns h hq
  obtain ⟨hanswered, hdn⟩ := requests_answered h hq
  rw [hframe] at hanswered hdn
  obtain ⟨hmarked, hlive, hun, husrc⟩ :=
    register_push hl.reg hl.reg_nprocs (Nat.zero_lt_of_lt hq) hc.pushes
  obtain ⟨u, hu, hmu, hlu, hnu, hsu⟩ := popAll_spec hmarked (lt_of_lt_of_eq hq hun.symm)
    (pops (cs q)) (by rw [hlive]; exact hc.pops q hq)
  have hpack := pack_registered hmu (hsu.trans husrc) (lt_of_lt_of_eq hq (hnu.trans hun).symm)
  rw [hlu, hlive] at hpack
  obtain ⟨st, hst, ⟨d, hd⟩, rfl, hmem, hqueue, haccum, hrecvTag, hsendTag⟩ :=
    execute_sent hrecv hshape.nprocs hq (messageQueueSync (w q).bsp.messageQueue) ⟨rfl, rfl⟩ hu
  have hexec : deliveryTableExecute (receivedTable w q) (afterRequests w q).memoryRegister
      (afterRequests w q).messageQueue (w q).mem (afterRequests w q).rank = some st := by
    have hrank : (w q).bsp.rank = q := hl.rank
    rw [← hst, hframe]
    exact congrArg (deliveryTableExecute (receivedTable w q) (w q).bsp.memoryRegister
      (messageQueueSync (w q).bsp.messageQueue) (w q).mem) hrank
  refine ⟨_, congrArg (Option.map _) (congrArg (Option.map _) hexec),
    ⟨?_, hmem, ?_, ?_, hqueue, ?_⟩⟩
  · have hreceived : DelivShape st.table n := by
      rw [hd]
      exact ⟨hshape.nprocs, hshape.rows, hshape.slot, hshape.aimed⟩
    have htag : st.mesgq.sendTagSize = tagAfter (tagSize q) (cs q) := by
      rw [hsendTag]
      exact congrArg (fun s => tagAfter s (cs q)) hl.tagSize
    have hlog := logged_synced hl hanswered hdn (hreq (expand_request h hq).1) hreceived hpack
      (hnu.trans hun) htag ⟨_, hqueue⟩ st.mem (w q).stack
    rw [hframe]
    exact hlog
  · show (afterRequests w q).globalArrays = _
    rw [hframe]
    rfl
  · show st.mesgq.recvTagSize = _
    rw [hrecvTag]
    exact hl.tagSize
  · show st.mesgq.accumSize = _
    rw [haccum, List.map_map]
    rfl

def callsAt (n : ℕ) (rows : ℕ → List Row) (tagSize : ℕ → ℕ) (ops : ℕ → List Op) (w : World) :
    ℕ → List Call :=
  fun p => callsOf ⟨n, p, rows p, tagSize p⟩ (ops p) (w p)

structure Admissible (n : ℕ) (rows : ℕ → List Row) (tagSize : ℕ → ℕ) (ops : ℕ → List Op)
    (w : World) : Prop where
  admitted : ∀ p < n, Along exec (Admitted ⟨n, p, rows p, tagSize p⟩) (ops p) (w p)
  collective : Collective n rows (callsAt n rows tagSize ops w)

def Clean (n : ℕ) (rows : ℕ → List Row) (tagSize : ℕ → ℕ) (w : World) : Prop :=
  Ready n rows tagSize (fun _ => []) w

def initWorld (alloc : ℕ → Alloc) (globalArrays : ℕ → ℕ → GlobalArray) (mem : ℕ → Mem)
    (stack : ℕ → ℕ) (n : ℕ) : World := fun p =>
  { bsp := bspxInitBspobject (alloc p) (globalArrays p) n p, mem := mem p, stack := stack p }

theorem init_clean (alloc : ℕ → Alloc) (globalArrays : ℕ → ℕ → GlobalArray) (mem : ℕ → Mem)
    (stack : ℕ → ℕ) (n : ℕ) :
    Clean n (fun _ => []) (fun _ => 0) (initWorld alloc globalArrays mem stack n) := by
  refine ⟨fun p hp => ?_⟩
  have hreq := initialize_requests n reqtabMinSize (alloc p).req (by decide)
  have hreg := initialize_registered n memregMinSize p (alloc p).memreg (by decide)
  have hrows : 9 ≤ delivtabMinSize + 9 := Nat.le_add_left 9 _
  have hreqRows : 0 < reqtabMinSize := by decide
  exact ⟨hp, rfl, rfl, initialize_rep n delivtabMinSize (alloc p).deliv, rfl, hreq, rfl, hreg, rfl,
    ⟨rfl, hrows, rfl, rfl⟩, ⟨rfl, hreqRows, rfl⟩, rfl, ⟨[], rfl, fun h => absurd rfl h⟩⟩

theorem localPhase_ready {n : ℕ} {rows : ℕ → List Row} {tagSize : ℕ → ℕ} {ops : ℕ → List Op}
    {w : World} (h : Clean n rows tagSize w)
    (ha : ∀ p < n, Along exec (Admitted ⟨n, p, rows p, tagSize p⟩) (ops p) (w p)) :
    ∃ v, localPhase n ops w = some v ∧ Ready n rows tagSize (callsAt n rows tagSize ops w) v ∧
      ∀ q < n, run exec (ops q) (w q) = some (v q) := by
  have hrun := fun p hp => run_exec (h.logged p hp) (ha p hp)
  obtain ⟨v, hv⟩ := allBelow_defined w fun p hp => (hrun p hp).imp fun _ h => h.1
  have hvq := (allBelow_eq_some hv).1
  refine ⟨v, hv, ⟨fun p hp => ?_⟩, hvq⟩
  obtain ⟨p', hp', hl⟩ := hrun p hp
  cases hp'.symm.trans (hvq p hp)
  exact hl

/-- Every admissible superstep is defined and does what the machine does. -/
theorem superstep_spec {n : ℕ} {rows : ℕ → List Row} {tagSize : ℕ → ℕ} {ops : ℕ → List Op}
    {w : World} (h : Clean n rows tagSize w) (ha : Admissible n rows tagSize ops w) :
    ∃ v w', localPhase n ops w = some v ∧ bspxSync n v = some w' ∧ ∀ q < n,
      run exec (ops q) (w q) = some (v q) ∧
      Synced n rows tagSize (callsAt n rows tagSize ops w) v q (w' q) := by
  obtain ⟨v, hv, hready, hvq⟩ := localPhase_ready h ha.admitted
  have hsync := fun q hq => syncProc_spec hready ha.collective (q := q) hq
  obtain ⟨w', hw'⟩ := allBelow_defined v fun q hq => (hsync q hq).imp fun _ h => h.1
  have hwq := (allBelow_eq_some hw').1
  refine ⟨v, w', hv, hw', fun q hq => ⟨hvq q hq, ?_⟩⟩
  obtain ⟨p, hp, hs⟩ := hsync q hq
  cases hp.symm.trans (hwq q hq)
  exact hs

theorem superstep_defined {n : ℕ} {rows : ℕ → List Row} {tagSize : ℕ → ℕ} {ops : ℕ → List Op}
    {w : World} (h : Clean n rows tagSize w) (ha : Admissible n rows tagSize ops w) :
    ∃ v w', superstep n ops w = some w' ∧
      ∀ q < n, Synced n rows tagSize (callsAt n rows tagSize ops w) v q (w' q) := by
  obtain ⟨v, w', hv, hw', hspec⟩ := superstep_spec h ha
  exact ⟨v, w', by rw [superstep, hv]; exact hw', fun q hq => (hspec q hq).2⟩

/-- Worlds reached from the start by admissible supersteps whose calls satisfy `P`,
with the register and the tag size of every processor. -/
inductive Reachable (n : ℕ) (P : (ℕ → List Call) → Prop) :
    (ℕ → List Row) → (ℕ → ℕ) → World → Prop
  | init (alloc : ℕ → Alloc) (globalArrays : ℕ → ℕ → GlobalArray) (mem : ℕ → Mem) (stack : ℕ → ℕ) :
    Reachable n P (fun _ => []) (fun _ => 0) (initWorld alloc globalArrays mem stack n)
  | step {rows : ℕ → List Row} {tagSize : ℕ → ℕ} {w w' : World} {ops : ℕ → List Op}
    (hr : Reachable n P rows tagSize w) (ha : Admissible n rows tagSize ops w)
    (hP : P (callsAt n rows tagSize ops w)) (hs : superstep n ops w = some w') :
    Reachable n P (fun q => rowsAfter n (callsAt n rows tagSize ops w) (rows q) q)
      (fun q => tagAfter (tagSize q) (callsAt n rows tagSize ops w q)) w'

theorem superstep_synced {n : ℕ} {rows : ℕ → List Row} {tagSize : ℕ → ℕ} {ops : ℕ → List Op}
    {w w' : World} (h : Clean n rows tagSize w) (ha : Admissible n rows tagSize ops w)
    (hs : superstep n ops w = some w') : ∃ v, localPhase n ops w = some v ∧ ∀ q < n,
      Synced n rows tagSize (callsAt n rows tagSize ops w) v q (w' q) := by
  obtain ⟨v, u, hv, hu, hspec⟩ := superstep_spec h ha
  rw [superstep, hv, Option.bind_some, hu] at hs
  cases hs
  exact ⟨v, hv, fun q hq => (hspec q hq).2⟩

theorem reachable_clean {n : ℕ} {P : (ℕ → List Call) → Prop} {rows : ℕ → List Row}
    {tagSize : ℕ → ℕ} {w : World} (h : Reachable n P rows tagSize w) : Clean n rows tagSize w := by
  induction h with
  | init alloc globalArrays mem stack => exact init_clean alloc globalArrays mem stack n
  | step hr ha hP hs ih =>
    obtain ⟨v, -, hsync⟩ := superstep_synced ih ha hs
    exact ⟨fun q hq => (hsync q hq).logged⟩

theorem reachable_step {n : ℕ} {P : (ℕ → List Call) → Prop} {rows : ℕ → List Row} {tagSize : ℕ → ℕ}
    {ops : ℕ → List Op} {w : World} (hr : Reachable n P rows tagSize w)
    (ha : Admissible n rows tagSize ops w) (hP : P (callsAt n rows tagSize ops w)) :
    ∃ w', superstep n ops w = some w' ∧
      Reachable n P (fun q => rowsAfter n (callsAt n rows tagSize ops w) (rows q) q)
        (fun q => tagAfter (tagSize q) (callsAt n rows tagSize ops w q)) w' := by
  obtain ⟨v, w', hs, -⟩ := superstep_defined (reachable_clean hr) ha
  exact ⟨w', hs, Reachable.step hr ha hP hs⟩

section Rows

variable {n R : ℕ} {w : World} {q : ℕ}

theorem exec_received {op : Op} {p p' : Proc} (h : exec op p = some p') :
    p'.bsp.requestReceivedTable = p.bsp.requestReceivedTable := by
  cases op with
  | pushReg | popReg | send | setTagsize | globalFree | compute =>
    cases h
    rfl
  | put | hpput | get | hpget =>
    obtain ⟨bsp, hbsp, rfl⟩ := Option.map_eq_some_iff.mp h
    obtain ⟨base, -, hret⟩ := Option.bind_eq_some_iff.mp hbsp
    cases hret
    rfl
  | getTag =>
    obtain ⟨r, -, rfl⟩ := Option.map_eq_some_iff.mp h
    rfl
  | move =>
    obtain ⟨r, hr, rfl⟩ := Option.map_eq_some_iff.mp h
    obtain ⟨message, -, rfl⟩ := Option.map_eq_some_iff.mp hr
    rfl
  | hpmove =>
    obtain ⟨r, hr, rfl⟩ := Option.map_eq_some_iff.mp h
    rw [bspxHpmove] at hr
    split at hr
    · cases hr
      rfl
    · obtain ⟨message, -, rfl⟩ := Option.map_eq_some_iff.mp hr
      rfl
  | globalAlloc =>
    obtain ⟨r, hr, rfl⟩ := Option.map_eq_some_iff.mp h
    obtain ⟨handle, -, hret⟩ := Option.bind_eq_some_iff.mp hr
    cases hret
    rfl

theorem run_received {ops : List Op} {p p' : Proc} (h : run exec ops p = some p') :
    p'.bsp.requestReceivedTable = p.bsp.requestReceivedTable :=
  run_preserves (fun _ _ _ _ hp hs => (exec_received hs).trans hp) h rfl

theorem syncProc_rows {rows : ℕ → List Row} {tagSize : ℕ → ℕ} {cs : ℕ → List Call}
    (h : Ready n rows tagSize cs w) (hR : ∀ p < n, (columnRequests (cs p) q).length ≤ R)
    (hq : q < n)
    {p : Proc} (hs : syncProc w q = some p) :
    p.bsp.requestReceivedTable.rows ≤ max (w q).bsp.requestReceivedTable.rows (2 * R) := by
  obtain ⟨r, hdeliver, rfl⟩ := Option.map_eq_some_iff.mp hs
  obtain ⟨st, -, rfl⟩ := Option.map_eq_some_iff.mp hdeliver
  have hn : (afterReset w q).nprocs = n := (h.logged q hq).nprocs
  let m := arrayMax (recvIndex (afterReset w) q) (3 * n) 3
  have hm : m ≤ R := by
    apply arrayMax_le
    intro i hi hthree
    obtain ⟨p, rfl⟩ := Nat.dvd_of_mod_eq_zero hthree
    have hp : p < n := by omega
    have hlp := h.logged p hp
    rw [recvIndex_request]
    exact (hlp.req.holds.used q (by rw [hlp.req_nprocs]; exact hq)).trans_le (hR p hp)
  have hrows : (afterRequests w q).requestReceivedTable.rows =
      (afterExpand w q).requestReceivedTable.rows := by
    simp only [afterRequests, syncRequests]
    split <;> rfl
  have hexpand : (afterExpand w q).requestReceivedTable.rows =
      (if (w q).bsp.requestReceivedTable.rows < m then
        requestTableExpand (afterReset w q).requestReceivedTable
          (max (w q).bsp.requestReceivedTable.rows m)
        else (afterReset w q).requestReceivedTable).rows := by
    simp only [afterExpand, syncExpand, hn]
    rfl
  show (afterRequests w q).requestReceivedTable.rows ≤ _
  rw [hrows, hexpand]
  split
  · rw [requestTableExpand, expand_rows]
    have hown : (afterReset w q).requestReceivedTable.rows = (w q).bsp.requestReceivedTable.rows :=
      rfl
    omega
  · exact le_max_left _ _

theorem reachable_rows {rows : ℕ → List Row} {tagSize : ℕ → ℕ}
    (h : Reachable n (fun cs => ∀ p < n, ∀ q < n, (columnRequests (cs p) q).length ≤ R) rows tagSize
      w)
    (hq : q < n) : (w q).bsp.requestReceivedTable.rows ≤ max reqtabMinSize (2 * R) := by
  induction h with
  | init alloc globalArrays mem stack => exact le_max_left _ _
  | step hr ha hP hs ih =>
    obtain ⟨v, hv, hready, hrun⟩ := localPhase_ready (reachable_clean hr) ha.admitted
    rw [superstep, hv, Option.bind_some] at hs
    have hrows := syncProc_rows hready (fun p hp => hP p hp q hq) hq ((allBelow_eq_some hs).1 q hq)
    rw [run_received (hrun q hq)] at hrows
    exact hrows.trans (max_le ih (le_max_right _ _))

end Rows

def startWorld (n : ℕ) : World := initWorld
  (fun _ => ⟨fun _ _ => .words 0 0, fun _ _ => ⟨0, 0, 0, 0⟩, fun _ _ => 0⟩)
  (fun _ _ => ⟨0, 0, none⟩) (fun _ a => UInt8.ofNat a) (fun _ => 0) n

theorem startWorld_reachable (n : ℕ) (P : (ℕ → List Call) → Prop) :
    Reachable n P (fun _ => []) (fun _ => 0) (startWorld n) :=
  Reachable.init _ _ _ _

end BspOnMpi.Superstep
