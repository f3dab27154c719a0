import BspOnMpi.ContextRegister
import BspOnMpi.Drma

/-! Counts of the exchanges. A total exchange is given a byte count for every pair of processors
twice, by the one that sends and by the one that receives. The receiver adds to the slots that the
sender has announced what it expects for its own requests, `data_sizes`. -/

namespace BspOnMpi.ExchangeCounts
open Lib Exptable Slots Delivtable DelivPush Memreg Reqtable Machine Calls Exchange

/-- What `p` passes as its count for `q` is what `q` passes as its count for `p`. -/
def Matching {I S : Type} (send recv : ℕ → ExpandableTable I S) (p q : ℕ) : Prop :=
  commBytes (send p) q = commBytes (recv q) p

theorem answers_shorter (mem : Mem) (its : List Item) {rs : List ReqElement} (h : rs ≠ []) :
    colSize (its ++ rs.map (answer mem)) < colSize its + announced rs := by
  obtain ⟨r, rest, rfl⟩ := List.exists_cons_of_ne_nil h
  have hrest := slots_le_announced mem rest []
  have hlen := load_length_size mem r
  simp only [colSize, extent_eq, List.map_append, List.sum_append, List.map_cons, List.sum_cons,
    List.nil_append, List.map_nil, List.sum_nil, announced, Item.slots_eq, hlen] at hrest ⊢
  omega

theorem answers_fit_iff (mem : Mem) (its : List Item) (rs : List ReqElement) :
    8 * colSize (its ++ rs.map (answer mem)) = 8 * (colSize its + announced rs) ↔ rs = [] := by
  constructor
  · intro heq
    by_contra hne
    have hlt := answers_shorter mem its hne
    omega
  · rintro rfl
    simp [announced]

section Bspx
open BspxSync Superstep

structure BspxMatching (w : World) (p q : ℕ) : Prop where
  requests : Matching (fun p => (afterExpand w p).requestTable)
    (fun q => (afterExpand w q).requestReceivedTable) p q
  deliveries : Matching (fun p => (afterRequests w p).deliveryTable)
    (fun q => (afterRequests w q).deliveryReceivedTable) p q

variable {n : ℕ} {rows : ℕ → List Row} {tagSize : ℕ → ℕ} {cs : ℕ → List Call} {w : World} {p q : ℕ}
  (h : Ready n rows tagSize cs w) (hp : p < n) (hq : q < n)

include h hp hq

theorem bspx_requests : Matching (fun p => (afterExpand w p).requestTable)
    (fun q => (afterExpand w q).requestReceivedTable) p q := by
  have hlp := h.logged p hp
  obtain ⟨hshape, -, hcount⟩ := expand_request h hq
  have hused : (w p).bsp.requestTable.usedSlotCount q = (columnRequests (cs p) q).length :=
    hlp.req.holds.used q (by rw [hlp.req_nprocs]; exact hq)
  show (w p).bsp.requestTable.usedSlotCount q * (w p).bsp.requestTable.slotSize = _
  rw [commBytes, hcount p hp, hshape.slot, hused, hlp.req.slot]

theorem bspx_sent : commBytes (afterRequests w p).deliveryTable q =
    8 * colSize (sentItems cs (fun p => (w p).mem) p q) := by
  obtain ⟨hrep, hn⟩ := requests_answered h hp
  rw [commBytes, hrep.used q (by rw [hn]; exact hq), hrep.slot, Nat.mul_comm]

theorem bspx_received : commBytes (afterRequests w q).deliveryReceivedTable p =
    8 * (colSize (columnItems p (cs p) q) + announced (columnRequests (cs q) p)) := by
  obtain ⟨hshape, hcount⟩ := expand_delivery h hq
  obtain ⟨req, deliv, hframe, -⟩ := requests_frame (n := n) w q
  rw [hframe, commBytes, (hcount p hp).1, hshape.slot, Nat.mul_comm]

theorem requests_nil_iff : columnRequests (cs q) p = [] ↔
    (w q).bsp.requestTable.usedSlotCount p = 0 := by
  have hlq := h.logged q hq
  rw [hlq.req.holds.used p (by rw [hlq.req_nprocs]; exact hp), List.length_eq_zero_iff]

theorem bspx_matching_iff : BspxMatching w p q ↔ (w q).bsp.requestTable.usedSlotCount p = 0 := by
  rw [← requests_nil_iff h hp hq, ← answers_fit_iff (w p).mem (columnItems p (cs p) q)]
  have hcounts : Matching (fun p => (afterRequests w p).deliveryTable)
      (fun q => (afterRequests w q).deliveryReceivedTable) p q ↔
      8 * colSize (columnItems p (cs p) q ++ (columnRequests (cs q) p).map (answer (w p).mem)) =
        8 * (colSize (columnItems p (cs p) q) + announced (columnRequests (cs q) p)) := by
    rw [Matching, bspx_sent h hp hq, bspx_received h hp hq]
    rfl
  exact ⟨fun hm => hcounts.mp hm.deliveries, fun he => ⟨bspx_requests h hp hq, hcounts.mpr he⟩⟩

end Bspx

section Contexts
open Mapper ContextMemreg Contexts ContextLog ContextSync ContextSuperstep

structure NodeMatching (processors nnodes : ℕ) (w : ℕ → Node) (p q : ℕ) : Prop where
  requests : anyGetsAt processors nnodes w p = true →
    Matching (fun p => (afterExpand processors nnodes w p).requestTable)
      (fun q => (afterExpand processors nnodes w q).requestReceivedTable) p q
  deliveries : exchangesAt processors nnodes w p = true →
    Matching (fun p => (afterRequests processors nnodes w p).deliveryTable)
      (fun q => (afterRequests processors nnodes w q).deliveryReceivedTable) p q

variable {processors nnodes : ℕ} {tagSize : ℕ → ℕ} {logs : ℕ → List (ℕ × ContextCall)}
  {w : ℕ → Node}
  {p q : ℕ} (h : NodesReady processors nnodes tagSize logs w) (hp : p < nnodes) (hq : q < nnodes)

include h hp hq

theorem node_requests (hany : anyGetsAt processors nnodes w p = true) :
    Matching (fun p => (afterExpand processors nnodes w p).requestTable)
      (fun q => (afterExpand processors nnodes w q).requestReceivedTable) p q := by
  have hlp := afterLocal_logged h hp
  have hanyq : anyGetsAt processors nnodes w q = true := by
    rw [anyGets_eq h hq, ← anyGets_eq h hp]
    exact hany
  have hex : exchangesAt processors nnodes w q = true := by rw [exchangesAt, hanyq, Bool.or_true]
  obtain ⟨hshape, -, hcount⟩ := expand_request h hq hex hanyq
  obtain ⟨req, recv, hframe⟩ := expand_frame processors nnodes w p
  rw [Matching, hframe]
  show (afterLocal processors nnodes w p).proc.bsp.requestTable.usedSlotCount q *
    (afterLocal processors nnodes w p).proc.bsp.requestTable.slotSize = _
  rw [commBytes, hcount p hp, hshape.slot, hlp.req.slot,
    hlp.req.holds.used q (by rw [hlp.req_nprocs]; exact hq)]

theorem node_sent (hex : exchangesAt processors nnodes w p = true) :
    commBytes (afterRequests processors nnodes w p).deliveryTable q =
      8 * colSize (sentItems (fun p => nodeCalls processors nnodes p (logs p))
        (memLocal processors nnodes logs w) p q) := by
  obtain ⟨hrep, hn⟩ := requests_answered h hp hex
  rw [commBytes, hrep.used q (by rw [hn]; exact hq), hrep.slot, Nat.mul_comm]

theorem node_received (hex : exchangesAt processors nnodes w q = true) :
    commBytes (afterRequests processors nnodes w q).deliveryReceivedTable p =
      8 * (colSize (columnItems p (nodeCalls processors nnodes p (logs p)) q) +
        announced (columnRequests (nodeCalls processors nnodes q (logs q)) p)) := by
  obtain ⟨hshape, hcount⟩ := requests_delivery h hq hex
  rw [commBytes, (hcount p hp).1, hshape.slot, Nat.mul_comm]

theorem node_requests_nil_iff : columnRequests (nodeCalls processors nnodes q (logs q)) p = [] ↔
    (w q).proc.bsp.requestTable.usedSlotCount p = 0 := by
  have hlq := (h.logged q hq).proc
  rw [hlq.req.holds.used p (by rw [hlq.req_nprocs]; exact hp), List.length_eq_zero_iff]

theorem node_matching_iff : NodeMatching processors nnodes w p q ↔
    (w q).proc.bsp.requestTable.usedSlotCount p = 0 := by
  have hcounts : exchangesAt processors nnodes w p = true →
      (Matching (fun p => (afterRequests processors nnodes w p).deliveryTable)
        (fun q => (afterRequests processors nnodes w q).deliveryReceivedTable) p q ↔
        columnRequests (nodeCalls processors nnodes q (logs q)) p = []) := by
    intro hex
    rw [Matching, node_sent h hp hq hex,
      node_received h hp hq ((exchanges_agree h hq hp).trans hex)]
    exact answers_fit_iff (memLocal processors nnodes logs w p) _ _
  rw [← node_requests_nil_iff h hp hq]
  constructor
  · intro hm
    by_contra hne
    have hany : anyGetsAt processors nnodes w p = true := by
      by_contra hno
      exact hne (no_gets h hp (by simpa using hno) hq hp)
    have hex : exchangesAt processors nnodes w p = true := by rw [exchangesAt, hany, Bool.or_true]
    exact hne ((hcounts hex).mp (hm.deliveries hex))
  · exact fun hnil => ⟨node_requests h hp hq, fun hex => (hcounts hex).mpr hnil⟩

end Contexts

/-- The registration part of `bsp_sync` does not throw on node `q`, so that it comes to the
exchange of the tables. -/
def Passes (processors nnodes : ℕ) (fresh : ℕ → ℕ → ContextMemreg.RegReq) (w : ℕ → Contexts.Node)
    (q : ℕ) : Prop :=
  (ContextMemreg.memregAt processors nnodes fresh (ContextSync.regsOf processors nnodes w) q).isSome

/-- The counts of two processors match when the receiver has queued no get from the sender, and
only then; so do those of two nodes whose registration part passes. -/
theorem counts_match_iff (n : ℕ) {processors nnodes : ℕ} (hmap : Mapper.Mapped processors nnodes)
    (hle : processors ≤ 2 ^ 31) :
    (∀ {rows : ℕ → List Row} {tagSize : ℕ → ℕ} {ops : ℕ → List Bspx.Op} {w : BspxSync.World},
      Superstep.Reachable n (fun _ => True) rows tagSize w →
      (∀ p < n, Along Bspx.exec (Calls.Admitted ⟨n, p, rows p, tagSize p⟩) (ops p) (w p)) →
      ∃ v, BspxSync.localPhase n ops w = some v ∧ ∀ p < n, ∀ q < n,
        (BspxMatching v p q ↔ (v q).bsp.requestTable.usedSlotCount p = 0)) ∧
    (∀ {tagSize : ℕ → ℕ} {ops : ℕ → List (ℕ × Contexts.ContextOp)} {w : ℕ → Contexts.Node},
      ContextProgram.Reachable processors nnodes tagSize w →
      (∀ q < nnodes, Along (Contexts.exec processors nnodes q)
        (ContextLog.Admitted processors nnodes q) (ops q) (w q)) →
      ∃ v, ContextProgram.localPhase processors nnodes ops w = some v ∧
        ∀ fresh, ∀ p < nnodes, ∀ q < nnodes, Passes processors nnodes fresh v p →
          Passes processors nnodes fresh v q →
            (NodeMatching processors nnodes v p q ↔
              (v q).proc.bsp.requestTable.usedSlotCount p = 0)) := by
  constructor
  · intro rows tagSize ops w hr ha
    obtain ⟨v, hv, hready, -⟩ := Superstep.localPhase_ready (Superstep.reachable_clean hr) ha
    exact ⟨v, hv, fun p hp q hq => bspx_matching_iff hready hp hq⟩
  · intro tagSize ops w hr ha
    obtain ⟨v, hv, hready, -⟩ :=
      ContextProgram.localPhase_spec (ContextProgram.reachable_ready hmap hle hr).1 ha
    exact ⟨v, hv, fun fresh p hp q hq _ _ => node_matching_iff hready hp hq⟩

section Sample
open Mapper ContextMemreg Contexts ContextLog ContextSync ContextProgram ContextRegister

def zeroRequests : ℕ → ℕ → RegReq := fun _ _ => ⟨0, 0, 0, false⟩

def startNodes : ℕ → Node := fun q => initNode 3 3 sampleStart q

def sharingByte : ℕ → Node :=
  (superstep 3 3 zeroRequests (registerOps 3 3 (fun _ => 100) 1) startNodes).getD startNodes

def unevenOps (q : ℕ) : List (ℕ × ContextOp) :=
  if q = 0 then [(0, .pushReg 110 8), (0, .pushReg 110 8)]
  else if q = 1 then [(0, .pushReg 110 8), (0, .pushReg 120 8), (0, .get 2 100 0 50 1)]
  else [(0, .pushReg 110 8), (0, .pushReg 120 8)]

theorem counts_match_iff_sample :
    (∃ w, BspxSync.superstep 2 Drma.registerOps (Superstep.startWorld 2) = some w ∧
      ∃ v, BspxSync.localPhase 2 Drma.putGetOps w = some v ∧ ∀ p < 2, ∀ q < 2,
        (BspxMatching v p q ↔ (v q).bsp.requestTable.usedSlotCount p = 0)) ∧
    ∃ v, localPhase 3 3 unevenOps sharingByte = some v ∧ ¬ Passes 3 3 zeroRequests v 0 ∧
      NodeMatching 3 3 v 1 2 ∧ ¬ NodeMatching 3 3 v 2 1 := by
  obtain ⟨w, hs, hr⟩ := Drma.register_reachable (fun _ => True) trivial
  have hm : Mapped 3 3 := ⟨by decide, by decide⟩
  refine ⟨⟨w, hs, (counts_match_iff 2 hm (by decide)).1 hr (Drma.putGet_admissible w).admitted⟩, ?_⟩
  obtain ⟨w', hs', ha, -⟩ := byte_superstep hm (by decide) (fun _ => sampleStart) zeroRequests
  have heq : sharingByte = w' :=
    (congrArg (Option.getD · startNodes) hs').trans (Option.getD_some ..)
  rw [← heq] at hs'
  obtain ⟨v, hv, hmatch⟩ := (counts_match_iff 2 hm (by decide)).2 (.step (.init _) ha hs')
    (show ∀ q < 3, Along _ _ (unevenOps q) (sharingByte q) by decide +kernel)
  have hcases : ∃ u, localPhase 3 3 unevenOps sharingByte = some u ∧
      ¬ Passes 3 3 zeroRequests u 0 ∧ Passes 3 3 zeroRequests u 1 ∧ Passes 3 3 zeroRequests u 2 ∧
      (u 2).proc.bsp.requestTable.usedSlotCount 1 = 0 ∧
      (u 1).proc.bsp.requestTable.usedSlotCount 2 ≠ 0 := by
    refine ⟨(localPhase 3 3 unevenOps sharingByte).getD sharingByte, rfl, ?_⟩
    unfold Passes
    decide +kernel
  obtain ⟨u, hu, h0, h1, h2, hno, hget⟩ := hcases
  cases hv.symm.trans hu
  exact ⟨v, hv, h0, (hmatch _ 1 (by decide) 2 (by decide) h1 h2).mpr hno,
    fun h => hget ((hmatch _ 2 (by decide) 1 (by decide) h2 h1).mp h)⟩

end Sample

/-- Processor 1 expects 29 slots from processor 0, which sends the 12 of its put and
three of the answer. -/
theorem get_counts_differ : ∃ w, BspxSync.superstep 2 Drma.registerOps
    (Superstep.startWorld 2) = some w ∧ ∃ v, BspxSync.localPhase 2 Drma.putGetOps w = some v ∧
      commBytes (BspxSync.afterRequests v 0).deliveryTable 1 = 120 ∧
      commBytes (BspxSync.afterRequests v 1).deliveryReceivedTable 0 = 232 := by
  obtain ⟨w, hs, hr⟩ := Drma.register_reachable (fun _ => True) trivial
  obtain ⟨v, hv, hready, -⟩ := Superstep.localPhase_ready (Superstep.reachable_clean hr)
    (Drma.putGet_admissible w).admitted
  obtain ⟨h0, h1⟩ := Drma.putGet_calls w
  refine ⟨w, hs, v, hv, ?_, ?_⟩
  · rw [bspx_sent hready (by decide) (by decide), sentItems, h0, h1]
    simp [columnItems, itemsFor, columnRequests, requestsFor, colSize, extent, Item.slots_eq,
      answer]
  · rw [bspx_received hready (by decide) (by decide), h0, h1]
    simp [columnItems, itemsFor, columnRequests, requestsFor, colSize, extent, Item.slots_eq,
      announced]

end BspOnMpi.ExchangeCounts
