import BspOnMpi.ContextProgram
import BspOnMpi.ContextMismatch

/-! Registers over supersteps. What supersteps of contexts do to the registers: those without
registrations leave them as they are, and a collective registration adds its row to all of them.
-/

namespace BspOnMpi.ContextRegister
open Lib Memreg Machine Calls Mapper ContextMemreg ContextLive ContextRuns ContextMismatch
  LocalDelivery Contexts ContextLog ContextSync ContextSuperstep ContextProgram
open Bspx hiding exec

variable {processors nnodes : ℕ} {tagSize : ℕ → ℕ} {w : ℕ → Node} {q : ℕ}

theorem regs_local (hm : Mapped processors nnodes) {lp : ℕ}
    (hlp : lp < contextsOn processors nnodes q) :
    regsOf processors nnodes w (q * icd processors nnodes + lp) = ((w q).contexts lp).reg := by
  obtain ⟨hlt, hnode, hlocal⟩ := local_global hm hlp
  rw [regsOf, globalToNode_eq hm 0 hlt, globalToLocal_eq hm 0 hlt, hnode, hlocal]

theorem bspSync_regs (hm : Mapped processors nnodes) {fresh : ℕ → ℕ → RegReq} {w' : ℕ → Node}
    (hs : bspSync processors nnodes w fresh = some w') :
    ∃ regs, syncMemoryreg processors nnodes fresh (regsOf processors nnodes w) = some regs ∧
      ∀ g < processors, regsOf processors nnodes w' g = regs g := by
  obtain ⟨regs, hregs, hall⟩ := Option.bind_eq_some_iff.mp hs
  refine ⟨regs, hregs, fun g hg => ?_⟩
  have hlt := localOf_lt hm hg
  have hdm := Nat.div_add_mod' g (icd processors nnodes)
  obtain ⟨node, -, hnode⟩ := Option.map_eq_some_iff.mp
    ((allBelow_eq_some hall).1 _ (nodeOf_lt hm hg))
  have hreg : (withRegs processors nnodes regs (nodeOf processors nnodes g) node).contexts
      (localOf processors nnodes g) = { node.contexts (localOf processors nnodes g) with
        reg := (taskMapper processors nnodes (nodeOf processors nnodes g)).getContext regs
          (nodeOf processors nnodes g) (localOf processors nnodes g) } := if_pos hlt
  rw [regsOf, mapper_node hm 0 hg, mapper_local hm 0 hg, ← hnode, hreg, getContext_eq hm regs hlt]
  exact congrArg regs hdm

theorem init_inv (hm : Mapped processors nnodes) (x : ℕ → Start) {g : ℕ} (hg : g < processors) :
    ContextInv processors g (g % icd processors nnodes) []
      (regsOf processors nnodes (fun q => initNode processors nnodes (x q) q) g) := by
  have hdm : nodeOf processors nnodes g * icd processors nnodes + localOf processors nnodes g =
      g := by
    rw [Nat.mul_comm]
    exact Nat.div_add_mod g (icd processors nnodes)
  have hpid : (taskMapper processors nnodes (nodeOf processors nnodes g)).localToGlobalPid
      (nodeOf processors nnodes g) (localOf processors nnodes g) = some _ :=
    localToGlobalPid_eq hm (hdm.trans_lt hg)
  have hstart := start_inv hm
    (fun g => (x (nodeOf processors nnodes g)).registers (localOf processors nnodes g)) hg
  rw [startContexts, globalToLocal_eq hm 0 hg] at hstart
  rw [regsOf, mapper_node hm 0 hg, mapper_local hm 0 hg]
  simp only [initNode, hpid, Option.getD_some]
  rw [hdm]
  exact hstart

theorem superstep_regs (hm : Mapped processors nnodes) {ops : ℕ → List (ℕ × ContextOp)}
    {fresh : ℕ → ℕ → RegReq} {w' : ℕ → Node} (hops : ∀ q < nnodes, ∀ e ∈ ops q, ¬ Registers e.2)
    (hnone : Skips processors nnodes (regsOf processors nnodes w))
    (hs : superstep processors nnodes fresh ops w = some w') {g : ℕ} (hg : g < processors) :
    regsOf processors nnodes w' g = regsOf processors nnodes w g := by
  obtain ⟨v, hv, hsync⟩ := Option.bind_eq_some_iff.mp hs
  obtain ⟨regs, hregs, hw'⟩ := bspSync_regs hm hsync
  rw [no_registrations hm hops hv hnone fresh] at hregs
  cases hregs
  rw [hw' g hg, regsOf, regsOf, mapper_node hm 0 hg, mapper_local hm 0 hg]
  exact run_regs (hops _ (nodeOf_lt hm hg)) ((allBelow_eq_some hv).1 _ (nodeOf_lt hm hg))

def registerOps (processors nnodes : ℕ) (row : Row) (nbytes q : ℕ) : List (ℕ × ContextOp) :=
  (List.range (contextsOn processors nnodes q)).map fun lp =>
    (lp, .pushReg (row (q * icd processors nnodes + lp)) nbytes)

theorem run_pushes {ident : ℕ → ℕ} {nbytes : ℕ} {reg : ℕ → ContextReg} {lps : List ℕ}
    (hlps : lps.Nodup) (hlt : ∀ lp ∈ lps, lp < contextsOn processors nnodes q) {node : Node}
    (hpush : ∀ lp ∈ lps, bspPushReg (node.contexts lp).reg (ident lp) nbytes = some (reg lp)) :
    let ops := lps.map fun lp => (lp, ContextOp.pushReg (ident lp) nbytes)
    Along (exec processors nnodes q) (ContextLog.Admitted processors nnodes q) ops node ∧
      ∀ node', run (exec processors nnodes q) ops node = some node' → ∀ lp,
        (node'.contexts lp).reg = if lp ∈ lps then reg lp else (node.contexts lp).reg := by
  induction lps generalizing node with
  | nil =>
    refine ⟨trivial, fun node' h lp => ?_⟩
    cases h
    rfl
  | cons l lps ih =>
    obtain ⟨hnot, hrest⟩ := List.nodup_cons.mp hlps
    have hl := hpush l List.mem_cons_self
    have hnext : exec processors nnodes q (l, .pushReg (ident l) nbytes) node =
        some (node.onReg l (reg l)) := congrArg (Option.map _) hl
    have hother : ∀ lp, lp ≠ l → ((node.onReg l (reg l)).contexts lp).reg =
        (node.contexts lp).reg := by
      intro lp hne
      simp [Node.onReg, hne]
    have hpush' : ∀ lp ∈ lps,
        bspPushReg ((node.onReg l (reg l)).contexts lp).reg (ident lp) nbytes = some (reg lp) := by
      intro lp hlp
      have hne : lp ≠ l := by
        rintro rfl
        exact hnot hlp
      rw [hother lp hne]
      exact hpush lp (List.mem_cons_of_mem _ hlp)
    obtain ⟨halong, hregs⟩ := ih hrest (fun lp hlp => hlt lp (List.mem_cons_of_mem _ hlp)) hpush'
    have hsome : bspPushReg (node.contexts l).reg (ident l) nbytes ≠ none := by
      rw [hl]
      exact Option.some_ne_none _
    refine ⟨⟨⟨hlt l List.mem_cons_self, hsome⟩, fun next h => ?_⟩, fun node' h lp => ?_⟩
    · rw [hnext] at h
      cases h
      exact halong
    · rw [List.map_cons, run, hnext, Option.bind_some] at h
      rw [hregs node' h lp]
      by_cases hlp : lp ∈ lps
      · rw [if_pos hlp, if_pos (List.mem_cons_of_mem _ hlp)]
      · by_cases hle : lp = l
        · subst hle
          simp [hlp, Node.onReg]
        · rw [if_neg hlp, if_neg (by simp [hle, hlp]), hother lp hle]

theorem registerOps_log (row : Row) (nbytes : ℕ) (node : Node) :
    logOf processors nnodes q (registerOps processors nnodes row nbytes q) node = [] := by
  rw [List.eq_nil_iff_forall_not_mem]
  intro c hc
  obtain ⟨e, he, node', hemit⟩ := mem_trace hc
  obtain ⟨lp, -, rfl⟩ := List.mem_map.mp he
  cases hemit

theorem register_phase (hm : Mapped processors nnodes) {row : Row} {nbytes : ℕ}
    {queued : ℕ → ContextReg} (hqueue : ∀ g < processors,
      run regExec [.push (row g) nbytes] (regsOf processors nnodes w g) = some (queued g)) :
    Admissible processors nnodes (registerOps processors nnodes row nbytes) w ∧
      ∀ v, localPhase processors nnodes (registerOps processors nnodes row nbytes) w = some v →
        ∀ g < processors, regsOf processors nnodes v g = queued g := by
  have hpush : ∀ q, ∀ lp ∈ List.range (contextsOn processors nnodes q),
      bspPushReg ((w q).contexts lp).reg (row (q * icd processors nnodes + lp)) nbytes =
        some (queued (q * icd processors nnodes + lp)) := by
    intro q lp hlp
    have hlt := List.mem_range.mp hlp
    rw [← regs_local hm hlt]
    obtain ⟨c, hc, hrest⟩ := Option.bind_eq_some_iff.mp (hqueue _ (local_global hm hlt).1)
    cases hrest
    exact hc
  have hpushes := fun (q : ℕ) => run_pushes (List.nodup_range (n := contextsOn processors nnodes q))
    (fun lp hlp => List.mem_range.mp hlp) (hpush q)
  refine ⟨⟨fun q _ => (hpushes q).1, [], fun q _ lp _ => ?_⟩, fun v hv g hg => ?_⟩
  · simp [tagCalls, registerOps]
  · have hlt := localOf_lt hm hg
    have hdm := Nat.div_add_mod' g (icd processors nnodes)
    have hreg := (hpushes (nodeOf processors nnodes g)).2 _
      ((allBelow_eq_some hv).1 _ (nodeOf_lt hm hg)) (localOf processors nnodes g)
    rw [if_pos (List.mem_range.mpr hlt)] at hreg
    rw [regsOf, mapper_node hm 0 hg, mapper_local hm 0 hg, hreg]
    exact congrArg queued hdm

theorem register_superstep (hm : Mapped processors nnodes) (hp : processors ≤ 2 ^ 31)
    (hr : Reachable processors nnodes tagSize w) {L : List Live}
    (hinv : ∀ g < processors, ContextInv processors g (g % icd processors nnodes) L
      (regsOf processors nnodes w g)) (row : Row) (nbytes : ℕ)
    (hnew : ∀ g < processors, ∀ l ∈ L, l.row g ≠ row g) (fresh : ℕ → ℕ → RegReq) :
    ∃ w', superstep processors nnodes fresh (registerOps processors nnodes row nbytes) w = some w' ∧
      Admissible processors nnodes (registerOps processors nnodes row nbytes) w ∧
      ∀ g < processors, ContextInv processors g (g % icd processors nnodes)
        (L ++ [⟨below processors row, nbytes, L.length⟩]) (regsOf processors nnodes w' g) := by
  have hqueue : ∀ g < processors,
      run regExec [.push (row g) nbytes] (regsOf processors nnodes w g) =
        some (queueing (regsOf processors nnodes w g) (pushRequest row nbytes L.length g)) :=
    fun g hg => queue_push (hinv g hg) hg nbytes (hnew g hg)
  obtain ⟨hadmissible, hregs⟩ := register_phase hm hqueue
  obtain ⟨v, hv, hready, -⟩ := localPhase_spec (reachable_ready hm hp hr).1 hadmissible.admitted
  have hlegal : Legal processors L.length 0 L [.push row nbytes]
      (L ++ [⟨below processors row, nbytes, L.length⟩]) := .push hnew (.nil _ _)
  have hqueued : ∀ g < processors,
    run regExec [.push (row g) nbytes] (regsOf processors nnodes w g) =
      some (regsOf processors nnodes v g) := by
    intro g hg
    rw [hregs v hv g hg]
    exact hqueue g hg
  obtain ⟨regs, hsync, hinv'⟩ := step_inv hm hinv hlegal (by simp) hqueued fresh
  have hnothing : ∀ q e, e ∉ arrivals processors nnodes
      (logsAt processors nnodes (registerOps processors nnodes row nbytes) w) q := by
    intro q e he
    obtain ⟨p, -, c, hc, -⟩ := mem_arrivals he
    rw [logsAt, registerOps_log] at hc
    cases hc
  obtain ⟨w', hw', -⟩ := bspSync_spec hready hp (fun q _ e he => absurd he (hnothing q e))
    (fun q _ e he => absurd he (hnothing q e)) hsync
  refine ⟨w', by rw [superstep, hv]; exact hw', hadmissible, fun g hg => ?_⟩
  obtain ⟨regs', hsync', hall⟩ := bspSync_regs hm hw'
  rw [hsync] at hsync'
  cases hsync'
  rw [hall g hg]
  exact hinv' g hg

def liveByte (processors : ℕ) : Live := ⟨below processors fun _ => 100, 1, 0⟩

def AllHold (processors nnodes : ℕ) (w : ℕ → Node) : Prop :=
  ∀ g < processors, ContextInv processors g (g % icd processors nnodes) [liveByte processors]
    (regsOf processors nnodes w g)

theorem find_byte (hm : Mapped processors nnodes) (hw : AllHold processors nnodes w) {lp pid : ℕ}
    (hlp : lp < contextsOn processors nnodes q) (hpid : pid < processors) :
    findBase ((w q).contexts lp) pid 100 = some 100 := by
  have hg := (local_global hm hlp).1
  have hinv := hw _ hg
  rw [regs_local hm hlp] at hinv
  have hfind := (inv_translates hg hinv).find _ List.mem_cons_self pid hpid
  rw [findBase]
  simpa only [liveByte, below, if_pos hg, if_pos hpid] using hfind

theorem byte_superstep (hm : Mapped processors nnodes) (hp : processors ≤ 2 ^ 31) (x : ℕ → Start)
    (fresh : ℕ → ℕ → RegReq) :
    let ops := registerOps processors nnodes (fun _ => 100) 1
    let w := fun q => initNode processors nnodes (x q) q
    ∃ w', superstep processors nnodes fresh ops w = some w' ∧ Admissible processors nnodes ops w ∧
      AllHold processors nnodes w' :=
  register_superstep hm hp (.init x) (fun _ hg => init_inv hm x hg) (fun _ => 100) 1
    (fun _ _ _ hl => absurd hl List.not_mem_nil) fresh

theorem processRequest_queued {n : ℕ} {requests myR : ℕ → RegReq} {cs cs' : ℕ → ContextReg}
    (h : processRequest processors n requests myR cs = some cs')
    (hcs : ∀ lp, (cs lp).regRequests = []) (lp : ℕ) : (cs' lp).regRequests = [] := by
  obtain ⟨st, hst, rfl⟩ := Option.map_eq_some_iff.mp h
  refine run_preserves (I := fun st => ∀ lp, (st.2 lp).regRequests = [])
    (fun llp _ st st' hinv hs lp => ?_) hst hcs lp
  obtain ⟨check, -, hrest⟩ := Option.bind_eq_some_iff.mp hs
  obtain ⟨c, hc, hret⟩ := Option.bind_eq_some_iff.mp hrest
  cases hret
  have happlied : c.regRequests = (st.2 llp).regRequests := by
    rw [applyRequest] at hc
    split at hc
    · rw [pushRegister] at hc
      split at hc
      · cases hc
      · cases hc
        rfl
    · obtain ⟨t, -, hrest⟩ := Option.bind_eq_some_iff.mp hc
      split at hrest
      · cases hrest
      · cases hrest
        rfl
  by_cases hl : lp = llp
  · subst hl
    simpa using happlied.trans (hinv lp)
  · simpa [hl] using hinv lp

theorem processMemoryregOps_queued {fresh : ℕ → ℕ → RegReq} {regs : ℕ → ContextReg} {size : ℕ}
    {cs : ℕ → ContextReg} (h : processMemoryregOps processors nnodes fresh regs size q = some cs)
    (lp : ℕ) : (cs lp).regRequests = [] := by
  obtain ⟨last, hlast, rfl⟩ := Option.map_eq_some_iff.mp h
  exact run_preserves (I := fun cs => ∀ lp, (cs lp).regRequests = [])
    (fun req _ cs cs' hinv hs => processRequest_queued hs hinv) hlast (fun _ => rfl) lp

theorem syncMemoryreg_leaves (hm : Mapped processors nnodes) {fresh : ℕ → ℕ → RegReq}
    {regs regs' : ℕ → ContextReg} (h : syncMemoryreg processors nnodes fresh regs = some regs') :
    Skips processors nnodes regs' := by
  rcases syncMemoryreg_cases hm h with ⟨hskips, rfl⟩ | ⟨size, -, -, hprocessed⟩
  · exact hskips
  · refine skips_empty hm fun g hg => ?_
    obtain ⟨cs, hcs, hlocal⟩ := hprocessed _ (nodeOf_lt hm hg)
    have hdm : nodeOf processors nnodes g * icd processors nnodes + localOf processors nnodes g =
        g := by
      rw [Nat.mul_comm]
      exact Nat.div_add_mod g (icd processors nnodes)
    rw [← hdm, hlocal _ (localOf_lt hm hg)]
    exact processMemoryregOps_queued hcs _

/-- Between supersteps no registrations are due. -/
theorem reachable_skips (hm : Mapped processors nnodes)
    (hr : Reachable processors nnodes tagSize w) :
    Skips processors nnodes (regsOf processors nnodes w) := by
  induction hr with
  | init x => exact skips_empty hm fun g hg => rfl
  | @step tagSize w w' ops fresh hr ha hs ih =>
    obtain ⟨v, hv, hsync⟩ := Option.bind_eq_some_iff.mp hs
    obtain ⟨regs, hregs, hw'⟩ := bspSync_regs hm hsync
    exact skips_congr hm (fun g hg => by rw [hw' g hg]) (syncMemoryreg_leaves hm hregs)

def Access : ContextOp → Prop
  | .put .. | .get .. | .compute _ => True
  | _ => False

theorem access_registers {op : ContextOp} (h : Access op) : ¬ Registers op := by
  cases op <;> first | exact h.elim | exact id

theorem access_log {ops : List (ℕ × ContextOp)} (hops : ∀ e ∈ ops, Access e.2) {node : Node}
    {c : ℕ × ContextCall} (hc : c ∈ logOf processors nnodes q ops node) :
    match c.2 with
    | .put .. | .get .. => True
    | _ => False := by
  obtain ⟨⟨lp, op⟩, he, node', hemit⟩ := mem_trace hc
  have hop := hops _ he
  cases op with
  | put | get =>
    obtain ⟨base, -, rfl⟩ := List.mem_map.mp hemit
    trivial
  | compute => cases hemit
  | _ => exact hop.elim

theorem access_superstep (hm : Mapped processors nnodes) (hp : processors ≤ 2 ^ 31)
    (hr : Reachable processors nnodes tagSize w) {ops : ℕ → List (ℕ × ContextOp)}
    (hops : ∀ q < nnodes, ∀ e ∈ ops q, Access e.2) (ha : Admissible processors nnodes ops w)
    (fresh : ℕ → ℕ → RegReq) :
    ∃ v w', localPhase processors nnodes ops w = some v ∧
      bspSync processors nnodes v fresh = some w' ∧
      ∀ q < nnodes,
        NodeSynced processors nnodes tagSize (logsAt processors nnodes ops w) v q (w' q) := by
  obtain ⟨v, hv, hready, -⟩ := localPhase_spec (reachable_ready hm hp hr).1 ha.admitted
  have hnothing : ∀ q e, e ∉ arrivals processors nnodes (logsAt processors nnodes ops w) q := by
    intro q e he
    obtain ⟨p, hpn, c, hc, hcall⟩ := mem_arrivals he
    have haccess := access_log (hops p hpn) hc
    rcases hcall with ⟨pid, hcall, -⟩ | ⟨pid, tag, payload, nbytes, hcall, -⟩ <;>
      (rw [hcall] at haccess; exact haccess)
  have hregs := no_registrations hm (fun q hq e he => access_registers (hops q hq e he)) hv
    (reachable_skips hm hr) fresh
  obtain ⟨w', hw', hsynced⟩ := bspSync_spec hready hp (fun q _ e he => absurd he (hnothing q e))
    (fun q _ e he => absurd he (hnothing q e)) hregs
  exact ⟨v, w', hv, hw', fun q hq => (hsynced q hq).1⟩

end BspOnMpi.ContextRegister
