import BspOnMpi.Messages
import BspOnMpi.Lib.Collectives

/-! Interleavings of the processors. The processors run without a common clock. Each makes the
calls of its program on its own, and in `bspx_sync` meets the others in two or three collectives
of the communicator; it leaves one as soon as the processors that it receives bytes from have
entered it, or waits for others too, as the communicator likes. Every interleaving ends as the
supersteps in lock step do. -/

namespace BspOnMpi.Interleaving
open Lib Exptable Slots Delivtable DelivPush Memreg DelivExecute Reqtable Machine Bspx BspxSync

inductive Contribution
  | indices (words : ℕ → ℕ)
  | requests (table : RequestTable)
  | deliveries (table : DeliveryTable)

inductive Kind
  | indices
  | requests
  | deliveries

namespace Contribution

def kind : Contribution → Kind
  | .indices _ => .indices
  | .requests _ => .requests
  | .deliveries _ => .deliveries

def toIndices : Contribution → Option (ℕ → ℕ)
  | .indices words => some words
  | _ => none

def toRequests : Contribution → Option RequestTable
  | .requests table => some table
  | _ => none

def toDeliveries : Contribution → Option DeliveryTable
  | .deliveries table => some table
  | _ => none

end Contribution

inductive Stage
  | calls (ops : List Op)
  | indices
  | requests
  | deliveries
  | finished

structure Activity where
  proc : Proc
  stage : Stage
  rest : List (List Op)

def proceed (proc : Proc) : List (List Op) → Activity
  | [] => { proc := proc, stage := .finished, rest := [] }
  | ops :: rest => { proc := proc, stage := .calls ops, rest := rest }

/-- A column of which no byte is received waits for nobody. -/
def awaits {I S : Type} (recv : ExpandableTable I S) (p : ℕ) : Bool := commBytes recv p ≠ 0

def requestsFrom (send : ℕ → RequestTable) (bsp : BSPObject) (mem : Mem) (next q : ℕ) : BSPObject :=
  let req := expandableTableComm send bsp.requestReceivedTable q
  { bsp with
    requestReceivedTable := req
    deliveryTable := requestTableExecute req bsp.deliveryTable mem next }

def deliverFrom (send : ℕ → DeliveryTable) (bsp : BSPObject) (mem : Mem) (q : ℕ) :
    Option (BSPObject × Mem) :=
  let recv := expandableTableComm send bsp.deliveryReceivedTable q
  (deliveryTableExecute recv bsp.memoryRegister bsp.messageQueue mem bsp.rank).map fun st =>
    ({ bsp with
        deliveryReceivedTable := st.table
        messageQueue := st.mesgq
        requestTable := requestTableReset bsp.requestTable
        deliveryTable := deliveryTableReset bsp.deliveryTable
        memoryRegister := memoryRegisterPack st.memreg }, st.mem)

/-- What processor `q` does next: a call, the start of `bspx_sync`, or a collective.
It waits for the processors `also q` even when they send nothing. -/
def next (also : ℕ → ℕ → Bool) (q : ℕ) (a : Activity) : Move Activity Contribution :=
  let bsp := a.proc.bsp
  let onBsp := fun bsp stage => { a with proc := { a.proc with bsp := bsp }, stage := stage }
  match a.stage with
  | .calls [] => .silent (onBsp (syncReset bsp) .indices)
  | .calls (op :: ops) =>
    match exec op a.proc with
    | some proc => .silent { a with proc := proc, stage := .calls ops }
    | none => .halt
  | .indices =>
    .collective (.indices (sendIndex bsp)) (fun _ => true) fun received => do
      let send ← gather bsp.nprocs (fun _ => true) Contribution.toIndices (sendIndex bsp) received
      let recv := fun i => send (i / 3) (3 * q + i % 3)
      let anyGets := anyOf (fun p => recv (3 * p + 2)) bsp.nprocs
      return onBsp (syncExpand bsp recv) (if anyGets ≠ 0 then .requests else .deliveries)
  | .requests =>
    let needs := fun p => awaits bsp.requestReceivedTable p || also q p
    .collective (.requests bsp.requestTable) needs fun received => do
      let send ← gather bsp.nprocs needs Contribution.toRequests bsp.requestTable received
      return onBsp (requestsFrom send bsp a.proc.mem a.proc.stack q) .deliveries
  | .deliveries =>
    let needs := fun p => awaits bsp.deliveryReceivedTable p || also q p
    .collective (.deliveries bsp.deliveryTable) needs fun received => do
      let send ← gather bsp.nprocs needs Contribution.toDeliveries bsp.deliveryTable received
      let r ← deliverFrom send bsp a.proc.mem q
      return proceed { a.proc with bsp := r.1, mem := r.2 } a.rest
  | .finished => .halt

abbrev Configuration := ℕ → Party Activity Contribution

def start (program : List (ℕ → List Op)) (w : World) : Configuration :=
  startParties fun p => proceed (w p) (program.map fun ops => ops p)

theorem comm_congr {I S : Type} {send send' : ℕ → ExpandableTable I S} {recv : ExpandableTable I S}
    (h : ∀ p < recv.nprocs, commBytes recv p ≠ 0 → send p = send' p) (q : ℕ) :
    expandableTableComm send recv q = expandableTableComm send' recv q := by
  have hcols : ∀ (d : ℕ → S), ∀ p ∈ List.range recv.nprocs,
      store d (commOffset recv p / recv.slotSize) (load (send p).data
        (commOffset (send p) q / (send p).slotSize)
        (min (commBytes (send p) q) (commBytes recv p) / recv.slotSize)) =
      store d (commOffset recv p / recv.slotSize) (load (send' p).data
        (commOffset (send' p) q / (send' p).slotSize)
        (min (commBytes (send' p) q) (commBytes recv p) / recv.slotSize)) := by
    intro d p hp
    by_cases h0 : commBytes recv p = 0
    · simp [h0]
    · rw [h p (List.mem_range.mp hp) h0]
  rw [expandableTableComm, expandableTableComm]
  congr 1
  exact List.foldl_ext _ _ _ hcols

section Words

variable {n : ℕ} {recv recv' : ℕ → ℕ} (h : ∀ i < 3 * n, recv i = recv' i)

include h

theorem arrayMax_congr : arrayMax recv (3 * n) 3 = arrayMax recv' (3 * n) 3 := by
  apply List.foldl_ext
  intro m i hi
  rw [h i (List.mem_range.mp hi)]

theorem deliveryRows_congr (sizes : ℕ → ℕ) :
    (List.range n).foldl (fun maxdelrows p => max (recv (1 + 3 * p) + sizes p) maxdelrows) 0 =
      (List.range n).foldl (fun maxdelrows p => max (recv' (1 + 3 * p) + sizes p) maxdelrows)
        0 := by
  apply List.foldl_ext
  intro m p hp
  have hpn := List.mem_range.mp hp
  rw [h (1 + 3 * p) (by omega)]

theorem requestCounts_congr (f : ℕ → ℕ) :
    (fun p => if p < n then recv (3 * p) else f p) =
      fun p => if p < n then recv' (3 * p) else f p := by
  funext p
  split
  · exact h _ (by omega)
  · rfl

theorem deliveryCounts_congr (sizes f : ℕ → ℕ) :
    (fun p => if p < n then recv (1 + 3 * p) + sizes p else f p) =
      fun p => if p < n then recv' (1 + 3 * p) + sizes p else f p := by
  funext p
  split
  · rw [h _ (by omega)]
  · rfl

end Words

theorem syncExpand_congr {bsp : BSPObject} {n : ℕ} (hn : bsp.nprocs = n) {recv recv' : ℕ → ℕ}
    (h : ∀ i < 3 * n, recv i = recv' i) : syncExpand bsp recv = syncExpand bsp recv' := by
  subst hn
  simp only [syncExpand, arrayMax_congr h, deliveryRows_congr h, requestCounts_congr h,
    deliveryCounts_congr h]

structure Sized (n : ℕ) (bsp : BSPObject) : Prop where
  nprocs : bsp.nprocs = n
  requests : bsp.requestReceivedTable.nprocs = n
  deliveries : bsp.deliveryReceivedTable.nprocs = n

theorem exec_sized {n : ℕ} {op : Op} {p p' : Proc} (h : exec op p = some p') (hs : Sized n p.bsp) :
    Sized n p'.bsp := by
  cases op with
  | pushReg | popReg | send | setTagsize | globalFree | compute =>
    cases h
    exact ⟨hs.nprocs, hs.requests, hs.deliveries⟩
  | put | hpput | get | hpget =>
    obtain ⟨bsp, hbsp, rfl⟩ := Option.map_eq_some_iff.mp h
    obtain ⟨base, -, hret⟩ := Option.bind_eq_some_iff.mp hbsp
    cases hret
    exact ⟨hs.nprocs, hs.requests, hs.deliveries⟩
  | getTag =>
    obtain ⟨r, -, rfl⟩ := Option.map_eq_some_iff.mp h
    exact hs
  | move =>
    obtain ⟨r, hr, rfl⟩ := Option.map_eq_some_iff.mp h
    obtain ⟨message, -, rfl⟩ := Option.map_eq_some_iff.mp hr
    exact ⟨hs.nprocs, hs.requests, hs.deliveries⟩
  | hpmove =>
    obtain ⟨r, hr, rfl⟩ := Option.map_eq_some_iff.mp h
    rw [bspxHpmove] at hr
    split at hr
    · cases hr
      exact hs
    · obtain ⟨message, -, rfl⟩ := Option.map_eq_some_iff.mp hr
      exact ⟨hs.nprocs, hs.requests, hs.deliveries⟩
  | globalAlloc =>
    obtain ⟨r, hr, rfl⟩ := Option.map_eq_some_iff.mp h
    obtain ⟨handle, -, hret⟩ := Option.bind_eq_some_iff.mp hr
    cases hret
    exact ⟨hs.nprocs, hs.requests, hs.deliveries⟩

theorem executeColumn_nprocs (st : ExecState) (p : ℕ) :
    (executeColumn st p).table.nprocs = st.table.nprocs := by
  rw [executeColumn]
  cases st.message <;> rfl

theorem execute_nprocs {table : DeliveryTable} {memreg : MemoryRegister} {mesgq : MessageQueue}
    {mem : Mem} {rank : ℕ} {st : ExecState}
    (h : deliveryTableExecute table memreg mesgq mem rank = some st) :
    st.table.nprocs = table.nprocs := by
  have hfold : ∀ (ps : List ℕ) (st₀ : ExecState),
      (ps.foldl executeColumn st₀).table.nprocs = st₀.table.nprocs := by
    intro ps
    induction ps with
    | nil => exact fun _ => rfl
    | cons p ps ih => exact fun st₀ => (ih _).trans (executeColumn_nprocs st₀ p)
  obtain ⟨memreg', -, hret⟩ := Option.bind_eq_some_iff.mp h
  cases hret
  exact hfold _ _

section Sized

variable {n : ℕ} {w : World} {q : ℕ}

theorem afterExpand_sized (h : Sized n (w q).bsp) : Sized n (afterExpand w q) := by
  refine ⟨h.nprocs, ?_, ?_⟩
  · simp only [afterExpand, syncExpand]
    split <;> exact h.requests
  · simp only [afterExpand, syncExpand]
    split <;> exact h.deliveries

theorem afterRequests_sized (h : Sized n (w q).bsp) : Sized n (afterRequests w q) := by
  have hs := afterExpand_sized h
  simp only [afterRequests, syncRequests]
  split
  · exact ⟨hs.nprocs, hs.requests, hs.deliveries⟩
  · exact hs

theorem syncProc_sized (h : Sized n (w q).bsp) {p : Proc} (hp : syncProc w q = some p) :
    Sized n p.bsp := by
  have hs := afterRequests_sized h
  obtain ⟨r, hdeliver, rfl⟩ := Option.map_eq_some_iff.mp hp
  obtain ⟨st, hst, rfl⟩ := Option.map_eq_some_iff.mp hdeliver
  exact ⟨hs.nprocs, hs.requests, (execute_nprocs hst).trans hs.deliveries⟩

end Sized

section Phases

variable {n : ℕ} (also : ℕ → ℕ → Bool) {ks : List Kind} {s : ℕ → Activity} {c : Configuration}

theorem calls_silent {q : ℕ} {ops : List Op} {p p' : Proc} (h : run exec ops p = some p')
    (rest : List (List Op)) :
    Silent (next also) q (ops.length + 1) { proc := p, stage := .calls ops, rest := rest }
      { proc := { p' with bsp := syncReset p'.bsp }, stage := .indices, rest := rest } := by
  induction ops generalizing p with
  | nil =>
    cases h
    exact .step rfl (.refl _)
  | cons op ops ih =>
    obtain ⟨p₁, hp₁, hrest⟩ := Option.bind_eq_some_iff.mp h
    refine .step ?_ (ih hrest)
    simp only [next, hp₁]

variable {w v : World} {ops : ℕ → List Op} {rest : ℕ → List (List Op)}

theorem calls_at
    (h : At Contribution.kind n ks
      (fun p => { proc := w p, stage := .calls (ops p), rest := rest p }) c)
    (hv : ∀ p < n, run exec (ops p) (w p) = some (v p)) :
    ∃ c', Leads n (next also) c c' ∧ At Contribution.kind n ks (fun p =>
      { proc := { v p with bsp := afterReset v p }, stage := .indices, rest := rest p }) c' := by
  exact silent_at h fun p hp => calls_silent also (hv p hp) (rest p)

/-- Somebody has a request; everybody learns it from the exchange of the indices. -/
def anyGets (n : ℕ) (v : World) : Prop :=
  anyOf (fun p => anyOf (v p).bsp.requestTable.usedSlotCount (v p).bsp.nprocs) n ≠ 0

instance : Decidable (anyGets n v) := inferInstanceAs (Decidable (_ ≠ _))

theorem anyGets_iff (q : ℕ) :
    anyOf (fun p => recvIndex (afterReset v) q (3 * p + 2)) n ≠ 0 ↔ anyGets n v := by
  simp only [recvIndex_anyGets]
  exact Iff.rfl

theorem anyOf_congr {array array' : ℕ → ℕ} (h : ∀ p < n, array p = array' p) :
    anyOf array n = anyOf array' n := by
  apply List.foldl_ext
  intro m p hp
  rw [h p (List.mem_range.mp hp)]

theorem indices_received {q : ℕ} {send : ℕ → ℕ → ℕ} (hn : (afterReset v q).nprocs = n)
    (hsend : ∀ p < n, send p = sendIndex (afterReset v p)) :
    let recv := fun i => send (i / 3) (3 * q + i % 3)
    syncExpand (afterReset v q) recv = afterExpand v q ∧
      (anyOf (fun p => recv (3 * p + 2)) (afterReset v q).nprocs ≠ 0 ↔ anyGets n v) := by
  intro recv
  have hrecv : ∀ i < 3 * n, recv i = recvIndex (afterReset v) q i := by
    intro i hi
    have hdiv : i / 3 < n := by omega
    simp only [recv, hsend _ hdiv]
    rfl
  refine ⟨syncExpand_congr hn hrecv, ?_⟩
  rw [hn, anyOf_congr fun p hp => hrecv (3 * p + 2) (by omega)]
  exact anyGets_iff q

theorem indices_at
    (h : At Contribution.kind n ks (fun p =>
      { proc := { v p with bsp := afterReset v p }, stage := .indices, rest := rest p }) c)
    (hs : ∀ p < n, Sized n (v p).bsp) :
    ∃ c', Leads n (next also) c c' ∧ At Contribution.kind n (ks ++ [.indices]) (fun p =>
      { proc := { v p with bsp := afterExpand v p }
        stage := if anyGets n v then .requests else .deliveries
        rest := rest p }) c' := by
  refine exchange_at h (fun p _ => rfl) (fun _ _ => rfl) fun q hq => ?_
  have hn : (afterReset v q).nprocs = n := (hs q hq).nprocs
  obtain ⟨send, hgather, hsend⟩ := gather_needed hn (fun _ => true) (sendIndex (afterReset v q))
    fun p _ => (rfl : Contribution.toIndices (.indices (sendIndex (afterReset v p))) = _)
  refine Option.bind_eq_some_iff.mpr ⟨send, hgather, ?_⟩
  obtain ⟨hexpand, hany⟩ := indices_received hn fun p hp => hsend p hp rfl
  simp only [hexpand, hany]
  rfl

theorem requests_at
    (h : At Contribution.kind n ks (fun p =>
      { proc := { v p with bsp := afterExpand v p }, stage := .requests, rest := rest p }) c)
    (hany : anyGets n v) (hs : ∀ p < n, Sized n (v p).bsp) :
    ∃ c', Leads n (next also) c c' ∧ At Contribution.kind n (ks ++ [.requests]) (fun p =>
      { proc := { v p with bsp := afterRequests v p }, stage := .deliveries,
        rest := rest p }) c' := by
  refine exchange_at h (fun p _ => rfl) (fun _ _ => rfl) fun q hq => ?_
  have hsized := afterExpand_sized (hs q hq)
  obtain ⟨send, hgather, hsend⟩ := gather_needed hsized.nprocs
    (fun p => awaits (afterExpand v q).requestReceivedTable p || also q p)
    (afterExpand v q).requestTable
    fun p _ => (rfl : Contribution.toRequests (.requests (afterExpand v p).requestTable) = _)
  refine Option.bind_eq_some_iff.mpr ⟨send, hgather, ?_⟩
  have hcomm := comm_congr (fun p hp h0 =>
    hsend p (hsized.requests ▸ hp) (by simp [awaits, h0])) q
  have hreset := (anyGets_iff q).mpr hany
  simp only [requestsFrom, hcomm, afterRequests, syncRequests, hsized.nprocs, if_pos hreset]
  rfl

theorem deliveries_at
    (h : At Contribution.kind n ks (fun p =>
      { proc := { v p with bsp := afterRequests v p }, stage := .deliveries, rest := rest p }) c)
    (hs : ∀ p < n, Sized n (v p).bsp) {w' : World} (hw' : ∀ p < n, syncProc v p = some (w' p)) :
    ∃ c', Leads n (next also) c c' ∧
      At Contribution.kind n (ks ++ [.deliveries]) (fun p => proceed (w' p) (rest p)) c' := by
  refine exchange_at h (fun p _ => rfl) (fun _ _ => rfl) fun q hq => ?_
  have hsized := afterRequests_sized (hs q hq)
  obtain ⟨send, hgather, hsend⟩ := gather_needed hsized.nprocs
    (fun p => awaits (afterRequests v q).deliveryReceivedTable p || also q p)
    (afterRequests v q).deliveryTable
    fun p _ => (rfl : Contribution.toDeliveries (.deliveries (afterRequests v p).deliveryTable) = _)
  refine Option.bind_eq_some_iff.mpr ⟨send, hgather, ?_⟩
  have hcomm := comm_congr (fun p hp h0 =>
    hsend p (hsized.deliveries ▸ hp) (by simp [awaits, h0])) q
  obtain ⟨r, hr, hw⟩ := Option.map_eq_some_iff.mp (hw' q hq)
  have hdeliver : deliverFrom send (afterRequests v q) (v q).mem q = some r := by
    rw [← hr]
    simp only [deliverFrom, hcomm, syncDeliver]
  refine Option.bind_eq_some_iff.mpr ⟨r, hdeliver, ?_⟩
  rw [← hw]
  rfl

theorem superstep_at
    (h : At Contribution.kind n ks
      (fun p => { proc := w p, stage := .calls (ops p), rest := rest p }) c)
    (hs : ∀ p < n, Sized n (w p).bsp) {w' : World} (hw' : superstep n ops w = some w') :
    (∃ ks' c', Leads n (next also) c c' ∧
      At Contribution.kind n ks' (fun p => proceed (w' p) (rest p)) c') ∧
      ∀ p < n, Sized n (w' p).bsp := by
  obtain ⟨v, hv, hsync⟩ := Option.bind_eq_some_iff.mp hw'
  have hrun := (allBelow_eq_some hv).1
  have hproc := (allBelow_eq_some hsync).1
  have hsv : ∀ p < n, Sized n (v p).bsp := fun p hp =>
    run_preserves (I := fun p => Sized n p.bsp) (fun _ _ _ _ hi he => exec_sized he hi) (hrun p hp)
      (hs p hp)
  refine ⟨?_, fun p hp => syncProc_sized (hsv p hp) (hproc p hp)⟩
  obtain ⟨c₁, hc₁, h₁⟩ := calls_at also h hrun
  obtain ⟨c₂, hc₂, h₂⟩ := indices_at also h₁ hsv
  by_cases hany : anyGets n v
  · simp only [if_pos hany] at h₂
    obtain ⟨c₃, hc₃, h₃⟩ := requests_at also h₂ hany hsv
    obtain ⟨c₄, hc₄, h₄⟩ := deliveries_at also h₃ hsv hproc
    exact ⟨_, c₄, ((hc₁.trans hc₂).trans hc₃).trans hc₄, h₄⟩
  · simp only [if_neg hany] at h₂
    have hskip : At Contribution.kind n (ks ++ [.indices]) (fun p =>
        { proc := { v p with bsp := afterRequests v p }
          stage := .deliveries
          rest := rest p }) c₂ := by
      refine ⟨h₂.between, fun p hp => ?_, h₂.kinds⟩
      have hn := (afterExpand_sized (hsv p hp)).nprocs
      have hreset := (anyGets_iff p).not.mpr hany
      rw [h₂.state p hp]
      simp only [afterRequests, syncRequests, hn, if_neg hreset]
    obtain ⟨c₃, hc₃, h₃⟩ := deliveries_at also hskip hsv hproc
    exact ⟨_, c₃, (hc₁.trans hc₂).trans hc₃, h₃⟩

theorem program_at {program : List (ℕ → List Op)} {w' : World}
    (h : At Contribution.kind n ks (fun p => proceed (w p) (program.map fun ops => ops p)) c)
    (hs : ∀ p < n, Sized n (w p).bsp) (hw' : run (superstep n) program w = some w') :
    ∃ ks' c', Leads n (next also) c c' ∧
      At Contribution.kind n ks' (fun p => proceed (w' p) []) c' := by
  induction program generalizing ks w c with
  | nil =>
    cases hw'
    exact ⟨ks, c, ⟨[], rfl⟩, h⟩
  | cons ops program ih =>
    obtain ⟨w₁, hw₁, hrest⟩ := Option.bind_eq_some_iff.mp hw'
    obtain ⟨⟨ks₁, c₁, hc₁, h₁⟩, hs₁⟩ := superstep_at also h hs hw₁
    obtain ⟨ks', c', hc', h'⟩ := ih h₁ hs₁ hrest
    exact ⟨ks', c', hc₁.trans hc', h'⟩

end Phases

/-- No interleaving deadlocks or runs on, all of them take the same number of steps and end
with the processors of the lock-step run, and two processors never are in collectives of
different kinds. -/
theorem interleavings_agree {n : ℕ} {program : List (ℕ → List Op)} {w w' : World}
    (hs : ∀ p < n, Sized n (w p).bsp) (h : run (superstep n) program w = some w')
    (also : ℕ → ℕ → Bool) : ∃ steps, ∀ ps c,
      run (fire n (next also)) ps (start program w) = some c →
      (∃ qs c', (ps ++ qs).length = steps ∧ run (fire n (next also)) qs c = some c' ∧
        ∀ p < n, (c' p).state = proceed (w' p) []) ∧
      ∀ p < n, ∀ q < n, Matching Contribution.kind (c p).posted (c q).posted := by
  obtain ⟨ks, final, hlead, hfinal⟩ := program_at also (start_at _) hs h
  exact schedules_agree hlead hfinal fun _ _ => rfl

section Example

open Superstep Messages

theorem interleavings_agree_tagged :
    ∃ w', run (superstep 2) [tagOps, sendOps] (startWorld 2) = some w' ∧ ∃ steps, ∀ ps c,
      run (fire 2 (next fun _ _ => false)) ps (start [tagOps, sendOps] (startWorld 2)) = some c →
      (∃ qs c', (ps ++ qs).length = steps ∧ run (fire 2 (next fun _ _ => false)) qs c = some c' ∧
        ∀ p < 2, (c' p).state = proceed (w' p) []) ∧
      ∀ p < 2, ∀ q < 2, Matching Contribution.kind (c p).posted (c q).posted := by
  obtain ⟨w, hw, hr⟩ := tag_reachable
  obtain ⟨v, w', hw', -⟩ := superstep_defined (reachable_clean hr) (send_admissible (by decide) w)
  have hrun : run (superstep 2) [tagOps, sendOps] (startWorld 2) = some w' := by
    rw [run, hw, Option.bind_some, run, hw']
    rfl
  have hs : ∀ p < 2, Sized 2 (startWorld 2 p).bsp := fun _ _ => ⟨rfl, rfl, rfl⟩
  exact ⟨w', hrun, interleavings_agree hs hrun _⟩

end Example

end BspOnMpi.Interleaving
