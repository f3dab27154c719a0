import BspOnMpi.ContextAccept
import BspOnMpi.ContextRegister

/-! Agreement about the collective exchanges. Which exchanges a synchronisation makes is decided
on every node by itself, from the indices it has received and from what it has queued. A node that
does not accept the registrations throws before the tables are exchanged. The tables and the
queues are arbitrary here: they need not be logs of anything. -/

namespace BspOnMpi.ContextAgreement
open Lib Exptable Delivtable Mapper ContextMemreg ContextLive ContextAccept Contexts ContextLog
  ContextSync ContextSuperstep Exchange ContextProgram
open Bspx hiding exec

/-- A collective call of the communicator. Every node sends blocks of one size of
the registrations. -/
inductive Comm
  | indices
  | registrations (blockBytes : ℤ)
  | requests
  | deliveries
  deriving DecidableEq

def sizeofReg : ℕ := 32

section Nodes

variable (processors nnodes : ℕ) (w : ℕ → Node) (fresh : ℕ → ℕ → RegReq)

/-- The collective calls of node `q`, which leaves `bsp_sync` when `process_memoryreg_ops`
throws. -/
def commsAt (q : ℕ) : List Comm :=
  let ppn := (taskMapper processors nnodes q).procsPerNode
  let regReqSize := reqSizeAt processors nnodes w q
  let registrations :=
    if 0 < regReqSize then [.registrations (regReqSize * ppn * sizeofReg)] else []
  let requests := if anyGetsAt processors nnodes w q then [.requests] else []
  let tables := if exchangesAt processors nnodes w q then requests ++ [.deliveries] else []
  let passes := (memregAt processors nnodes fresh (regsOf processors nnodes w) q).isSome
  .indices :: (registrations ++ if passes then tables else [])

def queued (q lp : ℕ) : ℕ := ((w q).contexts lp).reg.regRequests.length

/-- The nodes enter `bsp_sync` with equally many registrations for all contexts of a node. -/
structure Entering : Prop where
  nprocs : ∀ q < nnodes, (w q).proc.bsp.nprocs = nnodes
  even : ∀ q < nnodes, ∀ lp < contextsOn processors nnodes q,
    queued w q lp = queued w q 0 ∧ queued w q lp < 2 ^ 27

def HasDeliveries (p : ℕ) : Prop :=
  ∃ c < (w p).proc.bsp.deliveryTable.nprocs,
    indexSize < (w p).proc.bsp.deliveryTable.usedSlotCount c

def HasRequests (p : ℕ) : Prop := ∃ c < nnodes, 0 < (w p).proc.bsp.requestTable.usedSlotCount c

def Pending : Prop := ∃ p < nnodes, HasDeliveries w p ∨ HasRequests nnodes w p

structure SameSteps (p q : ℕ) : Prop where
  same : commsAt processors nnodes w fresh p = commsAt processors nnodes w fresh q
  deliveries : HasDeliveries w p → .deliveries ∈ commsAt processors nnodes w fresh q
  requests : HasRequests nnodes w p → .requests ∈ commsAt processors nnodes w fresh q ∧
    .deliveries ∈ commsAt processors nnodes w fresh q
  registrations : ∀ lp < contextsOn processors nnodes p, 0 < queued w p lp →
    ∃ regReqSize : ℕ, queued w p lp ≤ regReqSize ∧
      .registrations (regReqSize * (taskMapper processors nnodes q).procsPerNode * sizeofReg) ∈
        commsAt processors nnodes w fresh q

end Nodes

section Agree

variable {processors nnodes : ℕ} {w : ℕ → Node} {fresh : ℕ → ℕ → RegReq} {p q : ℕ}

theorem executeLocal_bsp (n : ℕ) (node : Node) :
    (executeLocal n node).proc.bsp = node.proc.bsp := by
  induction n with
  | zero => rfl
  | succ n ih =>
    rw [executeLocal, List.range_succ, List.foldl_append]
    exact ih

theorem afterLocal_bsp (q : ℕ) : (afterLocal processors nnodes w q).proc.bsp = (w q).proc.bsp :=
  executeLocal_bsp _ _

theorem flagsWord_size (anyGets anyMessages : Bool) {n : ℕ} (h : n < 2 ^ 27) :
    flagsWord anyGets anyMessages n / 16 = n := by
  rw [flagsWord_eq, Nat.mod_eq_of_lt (by omega)]
  cases anyGets <;> cases anyMessages <;> simp <;> omega

theorem ownReqSize_eq (hm : Mapped processors nnodes) (h : Entering processors nnodes w)
    (hq : q < nnodes) : nodeReqSize processors nnodes (regsOf processors nnodes w) q =
      some (if 0 < contextsOn processors nnodes q then queued w q 0 else 0) := by
  refine nodeReqSize_common fun lp hlp => ?_
  rw [getContext_eq hm _ hlp, ContextRegister.regs_local hm hlp]
  exact (h.even q hq lp hlp).1

theorem entering_even (hm : Mapped processors nnodes) (h : Entering processors nnodes w) :
    EvenQueues processors nnodes (regsOf processors nnodes w) := by
  refine ⟨fun q hq => by rw [ownReqSize_eq hm h hq]; rfl, fun gp hgp => ?_⟩
  rw [regsOf, mapper_node hm 0 hgp, mapper_local hm 0 hgp]
  exact (h.even _ (nodeOf_lt hm hgp) _ (localOf_lt hm hgp)).2

theorem ownReqSize_lt (hm : Mapped processors nnodes) (h : Entering processors nnodes w)
    (hq : q < nnodes) : ownReqSize processors nnodes w q < 2 ^ 27 :=
  nodeSize_lt hm (entering_even hm h) hq

theorem reqSizeAt_eq (hm : Mapped processors nnodes) (h : Entering processors nnodes w)
    (hq : q < nnodes) :
    reqSizeAt processors nnodes w q = largest (ownReqSize processors nnodes w) nnodes := by
  rw [reqSizeAt, afterLocal_bsp, h.nprocs q hq]
  apply maxReqSize_eq hq (fun p hp => ownReqSize_lt hm h hp)
  intro p hp
  rw [recvAt, recvIndex_flags, flagsWord_size _ _ (ownReqSize_lt hm h hp)]

theorem reqSizeAt_memreg (hm : Mapped processors nnodes) (h : Entering processors nnodes w)
    (hq : q < nnodes) : reqSizeAt processors nnodes w q =
      memregSize processors nnodes (regsOf processors nnodes w) q :=
  (reqSizeAt_eq hm h hq).trans (even_memregSize hm (entering_even hm h) hq).symm

theorem gets_eq (h : Entering processors nnodes w) (hq : q < nnodes) :
    anyGetsAt processors nnodes w q = (List.range nnodes).any fun p => ownGets (w p).proc.bsp := by
  rw [anyGets_nodes (by rw [afterLocal_bsp, h.nprocs q hq]) hq]
  simp only [afterLocal_bsp]

theorem messages_eq (h : Entering processors nnodes w) (hq : q < nnodes) :
    anyMessagesAt processors nnodes w q =
      (List.range nnodes).any fun p => !deliveryTableEmpty (w p).proc.bsp.deliveryTable := by
  rw [anyMessages_nodes (by rw [afterLocal_bsp, h.nprocs q hq])]
  simp only [afterLocal_bsp]

theorem comms_agree (hm : Mapped processors nnodes) (h : Entering processors nnodes w)
    (hp : p < nnodes) (hq : q < nnodes)
    (hpass : (memregAt processors nnodes fresh (regsOf processors nnodes w) p).isSome =
      (memregAt processors nnodes fresh (regsOf processors nnodes w) q).isSome) :
    commsAt processors nnodes w fresh p = commsAt processors nnodes w fresh q := by
  simp only [commsAt, exchangesAt, reqSizeAt_eq hm h hp, reqSizeAt_eq hm h hq, gets_eq h hp,
    gets_eq h hq, messages_eq h hp, messages_eq h hq, procsPerNode_eq hm, hpass]

theorem deliveries_any (h : Entering processors nnodes w) (hp : p < nnodes) (hq : q < nnodes)
    (hc : HasDeliveries w p) : anyMessagesAt processors nnodes w q = true := by
  obtain ⟨c, hc, hused⟩ := hc
  have hempty : deliveryTableEmpty (w p).proc.bsp.deliveryTable = false := by
    rw [deliveryTableEmpty, List.all_eq_false]
    refine ⟨c, List.mem_range.mpr hc, ?_⟩
    rw [decide_eq_true_eq]
    exact Nat.not_le.mpr hused
  rw [messages_eq h hq, List.any_eq_true]
  exact ⟨p, List.mem_range.mpr hp, by rw [hempty]; rfl⟩

theorem requests_any (h : Entering processors nnodes w) (hp : p < nnodes) (hq : q < nnodes)
    (hc : HasRequests nnodes w p) : anyGetsAt processors nnodes w q = true := by
  obtain ⟨c, hc, hused⟩ := hc
  have hown : ownGets (w p).proc.bsp = true := by
    rw [ownGets, List.any_eq_true, h.nprocs p hp]
    exact ⟨c, List.mem_range.mpr hc, by simpa using hused⟩
  rw [gets_eq h hq, List.any_eq_true]
  exact ⟨p, List.mem_range.mpr hp, hown⟩

theorem exchanges_iff (h : Entering processors nnodes w) (hq : q < nnodes) :
    exchangesAt processors nnodes w q = true ↔ Pending nnodes w := by
  rw [exchangesAt, Bool.or_eq_true]
  constructor
  · rintro (hmessages | hgets)
    · rw [messages_eq h hq, List.any_eq_true] at hmessages
      obtain ⟨p, hp, hempty⟩ := hmessages
      simp only [deliveryTableEmpty, Bool.not_eq_true', List.all_eq_false, List.mem_range,
        decide_eq_true_eq, not_le] at hempty
      exact ⟨p, List.mem_range.mp hp, .inl hempty⟩
    · rw [gets_eq h hq, List.any_eq_true] at hgets
      obtain ⟨p, hp, hown⟩ := hgets
      have hp := List.mem_range.mp hp
      simp only [ownGets, h.nprocs p hp, List.any_eq_true, List.mem_range,
        decide_eq_true_eq] at hown
      exact ⟨p, hp, .inr hown⟩
  · rintro ⟨p, hp, hdeliveries | hrequests⟩
    · exact .inl (deliveries_any h hp hq hdeliveries)
    · exact .inr (requests_any h hp hq hrequests)

theorem mem_deliveries : .deliveries ∈ commsAt processors nnodes w fresh q ↔
    (memregAt processors nnodes fresh (regsOf processors nnodes w) q).isSome = true ∧
      exchangesAt processors nnodes w q = true := by
  cases hpass : (memregAt processors nnodes fresh (regsOf processors nnodes w) q).isSome <;>
    cases hex : exchangesAt processors nnodes w q <;> simp only [commsAt, hpass, hex] <;>
    split <;> simp

theorem comms_idle (hm : Mapped processors nnodes) (h : Entering processors nnodes w)
    (hnone : ¬ Pending nnodes w) (hp : p < nnodes) (hq : q < nnodes) :
    commsAt processors nnodes w fresh p = commsAt processors nnodes w fresh q := by
  have hidle : ∀ q < nnodes, exchangesAt processors nnodes w q = false :=
    fun q hq => Bool.not_eq_true _ ▸ fun hex => hnone ((exchanges_iff h hq).mp hex)
  simp only [commsAt, hidle p hp, hidle q hq, reqSizeAt_eq hm h hp, reqSizeAt_eq hm h hq,
    procsPerNode_eq hm, Bool.false_eq_true, if_false, ite_self]

theorem registrations_comm (hm : Mapped processors nnodes) (h : Entering processors nnodes w)
    (hp : p < nnodes) (hq : q < nnodes) {lp : ℕ} (hlp : lp < contextsOn processors nnodes p)
    (hqueued : 0 < queued w p lp) : ∃ regReqSize : ℕ, queued w p lp ≤ regReqSize ∧
      .registrations (regReqSize * (taskMapper processors nnodes q).procsPerNode * sizeofReg) ∈
        commsAt processors nnodes w fresh q := by
  have hown : ownReqSize processors nnodes w p = queued w p lp := by
    rw [ownReqSize, ownReqSize_eq hm h hp, if_pos (Nat.zero_lt_of_lt hlp), (h.even p hp lp hlp).1,
      Option.getD_some]
  have hle : queued w p lp ≤ largest (ownReqSize processors nnodes w) nnodes := by
    rw [← hown]
    exact le_largest _ hp
  have hsize := reqSizeAt_eq hm h hq
  have hpos : 0 < reqSizeAt processors nnodes w q := by
    rw [hsize]
    omega
  refine ⟨_, hle, ?_⟩
  rw [← hsize]
  simp [commsAt, hpos]

theorem same_steps (hm : Mapped processors nnodes) (h : Entering processors nnodes w)
    (hpass : ∀ q < nnodes,
      (memregAt processors nnodes fresh (regsOf processors nnodes w) q).isSome = true)
    (hp : p < nnodes) (hq : q < nnodes) : SameSteps processors nnodes w fresh p q := by
  have hmem : exchangesAt processors nnodes w q = true →
      .deliveries ∈ commsAt processors nnodes w fresh q :=
    fun hex => mem_deliveries.mpr ⟨hpass q hq, hex⟩
  refine ⟨comms_agree hm h hp hq ((hpass p hp).trans (hpass q hq).symm),
    fun hc => hmem ((exchanges_iff h hq).mpr ⟨p, hp, .inl hc⟩), fun hc => ?_,
    fun lp hlp hqueued => registrations_comm hm h hp hq hlp hqueued⟩
  have hgets := requests_any h hp hq hc
  have hex := (exchanges_iff h hq).mpr ⟨p, hp, .inr hc⟩
  refine ⟨?_, hmem hex⟩
  simp [commsAt, hpass q hq, hgets, hex]

theorem steps_iff (hm : Mapped processors nnodes) (h : Entering processors nnodes w)
    (hheld : AllHeld processors nnodes (regsOf processors nnodes w)) :
    (∀ fresh, ∀ p < nnodes, ∀ q < nnodes, SameSteps processors nnodes w fresh p q) ↔
      (Pending nnodes w →
        ∃ regReqSize, Accepted processors nnodes (regsOf processors nnodes w) regReqSize) := by
  have haccepted := memregAt_iff hm hheld (entering_even hm h)
  constructor
  · rintro hall ⟨p, hp, hpending⟩
    refine haccepted.mp fun fresh q hq => ?_
    have hsteps := hall fresh p hp q hq
    have hmem := hpending.elim hsteps.deliveries fun hc => (hsteps.requests hc).2
    exact Option.isSome_iff_exists.mp (mem_deliveries.mp hmem).1
  · intro hcond fresh p hp q hq
    by_cases hpending : Pending nnodes w
    · exact same_steps hm h
        (fun q hq => Option.isSome_iff_exists.mpr (haccepted.mpr (hcond hpending) fresh q hq)) hp hq
    · exact ⟨comms_idle hm h hpending hp hq, fun hc => absurd ⟨p, hp, .inl hc⟩ hpending,
        fun hc => absurd ⟨p, hp, .inr hc⟩ hpending,
        fun lp hlp hqueued => registrations_comm hm h hp hq hlp hqueued⟩

end Agree

def exchangesRequests (w : BspxSync.World) (q : ℕ) : Bool :=
  let bsp := BspxSync.afterReset w q
  BspxSync.anyOf (fun p => BspxSync.recvIndex (BspxSync.afterReset w) q (3 * p + 2)) bsp.nprocs ≠ 0

theorem exchangesRequests_iff {n : ℕ} {w : BspxSync.World} (hn : ∀ q < n, (w q).bsp.nprocs = n)
    {q : ℕ}
    (hq : q < n) : exchangesRequests w q = true ↔
      ∃ p < n, ∃ c < n, (w p).bsp.requestTable.usedSlotCount c ≠ 0 := by
  have hown : ∀ p < n, (BspxSync.afterReset w p).nprocs = n := hn
  simp only [exchangesRequests, BspxSync.recvIndex_anyGets, decide_eq_true_eq, ne_eq,
    BspxSync.anyOf_eq_zero, hown q hq, not_forall, exists_prop]
  refine exists_congr fun p => and_congr_right fun hp => ?_
  rw [hown p hp]
  rfl

section Reached

variable {processors nnodes : ℕ} {tagSize : ℕ → ℕ} {w v : ℕ → Node}

theorem exec_taken {rank lp : ℕ} {e : ℕ × ContextOp} {node node' : Node}
    (h : exec processors nnodes rank e node = some node') :
    takeRequests (node'.contexts lp).reg = takeRequests (node.contexts lp).reg := by
  have hone : ∀ (l : ℕ) (op : RegOp) (reg : ContextReg),
    regExec op (node.contexts l).reg = some reg →
      takeRequests ((node.onReg l reg).contexts lp).reg = takeRequests (node.contexts lp).reg := by
    intro l op reg hreg
    by_cases hl : lp = l
    · subst hl
      simpa [Node.onReg] using regExec_take hreg
    · simp [Node.onReg, hl]
  obtain ⟨l, op⟩ := e
  cases op with
  | pushReg ident nbytes =>
    obtain ⟨reg, hreg, rfl⟩ := Option.map_eq_some_iff.mp h
    exact hone l (.push ident nbytes) reg hreg
  | popReg ident =>
    obtain ⟨reg, hreg, rfl⟩ := Option.map_eq_some_iff.mp h
    exact hone l (.pop ident) reg hreg
  | put | hpput | get | hpget | send | hpsend | setTagsize | getTag | move | hpmove | compute =>
    rw [exec_regs id h]

theorem local_held (hm : Mapped processors nnodes) {ops : ℕ → List (ℕ × ContextOp)}
    (hv : localPhase processors nnodes ops w = some v)
    (hw : AllHeld processors nnodes (regsOf processors nnodes w)) :
    AllHeld processors nnodes (regsOf processors nnodes v) := by
  intro g hg
  have htaken : takeRequests (regsOf processors nnodes v g) =
      takeRequests (regsOf processors nnodes w g) := by
    rw [regsOf, regsOf, mapper_node hm 0 hg, mapper_local hm 0 hg]
    exact run_preserves
      (I := fun node => takeRequests (node.contexts (localOf processors nnodes g)).reg =
        takeRequests ((w (nodeOf processors nnodes g)).contexts (localOf processors nnodes g)).reg)
      (fun _ _ _ _ hnode hs => (exec_taken hs).trans hnode)
      ((allBelow_eq_some hv).1 _ (nodeOf_lt hm hg)) rfl
  rw [htaken]
  exact hw g hg

theorem reachable_held (hm : Mapped processors nnodes)
    (hr : Reachable processors nnodes tagSize w) :
    AllHeld processors nnodes (regsOf processors nnodes w) := by
  induction hr with
  | init x => exact fun g hg => held_taken ⟨_, (ContextRegister.init_inv hm x hg).processing⟩
  | @step tagSize w w' ops fresh hr ha hs ih =>
    obtain ⟨v, hv, hsync⟩ := Option.bind_eq_some_iff.mp hs
    obtain ⟨regs, hregs, hw'⟩ := ContextRegister.bspSync_regs hm hsync
    have hheld := syncMemoryreg_held hm (local_held hm hv ih) hregs
    intro g hg
    rw [hw' g hg]
    exact hheld g hg

end Reached

def agreeingOps (q : ℕ) : List (ℕ × ContextOp) :=
  if q = 0 then [(0, .pushReg 100 8), (1, .pushReg 101 8), (0, .pushReg 200 4), (1, .pushReg 201 4)]
  else [(0, .pushReg 102 8), (0, .send 0 0 40 2), (0, .pushReg 202 4)]

def agreeing : ℕ → Node :=
  (localPhase 3 2 agreeingOps fun q => initNode 3 2 sampleStart q).getD fun q =>
    initNode 3 2 sampleStart q

theorem agreeing_accepted : Accepted 3 2 (regsOf 3 2 agreeing) 2 := by
  have hfirst : Uniform 3 (requestAt (regsOf 3 2 agreeing) 0) true 8 0 := by
    intro g hg
    obtain rfl | rfl | rfl : g = 0 ∨ g = 1 ∨ g = 2 := by omega
    all_goals exact ⟨rfl, rfl, rfl⟩
  have hsecond : Uniform 3 (requestAt (regsOf 3 2 agreeing) 1) true 4 1 := by
    intro g hg
    obtain rfl | rfl | rfl : g = 0 ∨ g = 1 ∨ g = 2 := by omega
    all_goals exact ⟨rfl, rfl, rfl⟩
  refine ⟨show ∀ g < 3, _ = 2 by decide, fun q _ _ k hk => ?_, fun g hg => ?_⟩
  · obtain rfl | rfl : k = 0 ∨ k = 1 := by omega
    · exact uniform_matches hfirst
    · exact uniform_matches hsecond
  · obtain rfl | rfl | rfl : g = 0 ∨ g = 1 ∨ g = 2 := by omega
    all_goals exact ⟨_, rfl⟩

def requesting (q : ℕ) : Proc :=
  let p := Superstep.startWorld 2 q
  { p with bsp := { p.bsp with requestTable := { p.bsp.requestTable with
      usedSlotCount := fun c => if q = 0 ∧ c = 1 then 1 else 0 } } }

def clashOps (q : ℕ) : List (ℕ × ContextOp) :=
  if q = 0 then [(0, .pushReg 100 8), (0, .pushReg 100 8)]
  else [(0, .pushReg 100 8), (0, .pushReg 200 8), (0, .send 0 0 40 2)]

def clash : ℕ → Node :=
  (localPhase 2 2 clashOps fun q => initNode 2 2 sampleStart q).getD fun q =>
    initNode 2 2 sampleStart q

end BspOnMpi.ContextAgreement
