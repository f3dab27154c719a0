import BspOnMpi.ContextRefinement

/-! One program on both libraries. The processors of the C library refine the machine of the
contexts as well, with one of the orders in which messages may arrive. Where no context gets
messages of two others in a superstep there is one order only, and the two libraries agree. -/

namespace BspOnMpi.ContextPortability
open Lib Slots Memreg Machine Calls Mapper ContextMemreg ContextLive ContextRuns Contexts
  ContextMachine
  ContextLog ContextProgram ContextRefinement
open Bspx (GlobalArray Alloc)
open Superstep (initWorld)
open AbstractMachine (Answer Processor callsAt barrier barrier_congr)
open Registration (CollectiveRegs NoRepush)

section Registrations

variable {processors : ℕ} {owns : ℕ → ℕ → Prop} {ops : ℕ → List ContextOp} {m : Ensemble}
  {w : ℕ → Processor} {calls : List RegCall} {L L' live' : List Live} {g : ℕ}

theorem legal_nodup {n₀ k : ℕ} (h : ContextRuns.Legal processors n₀ k L calls L')
    (hnodup : ∀ g < processors, (L.map fun l => l.row g).Nodup) :
    ∀ g < processors, (L'.map fun l => l.row g).Nodup := by
  induction h with
  | nil => exact hnodup
  | @push k L L' row nbytes calls hnew h ih =>
    refine ih fun g hg => ?_
    rw [List.map_append, List.map_singleton]
    refine (hnodup g hg).append (List.nodup_singleton _) fun x hx hlast => ?_
    obtain ⟨l, hl, rfl⟩ := List.mem_map.mp hx
    have hrow := List.mem_singleton.mp hlast
    simp only [below, if_pos hg] at hrow
    exact hnew g hg l hl hrow
  | @pop k xs ys L' l calls h ih =>
    refine ih fun g hg => ?_
    have hall := hnodup g hg
    rw [List.map_append, List.map_cons, List.nodup_middle, List.nodup_cons] at hall
    rw [List.map_append]
    exact hall.2

structure Settled (processors : ℕ) (m : Ensemble) : Prop where
  rows : ∀ g < processors, (m.procs g).rows = m.live.map Live.row
  tagSize : ∀ g < processors, (m.procs g).sendTagSize = (m.procs 0).sendTagSize
  idle : ∀ g < processors, (m.procs g).calls = []
  nodup : ∀ g < processors, (m.live.map fun l => l.row g).Nodup

theorem run_frame {ops : List ContextOp} {a a' : Processor}
    (h : run (runOp processors g) ops a = some a') :
    a'.rows = a.rows ∧ a'.sendTagSize = a.sendTagSize := by
  refine run_preserves (I := fun b => b.rows = a.rows ∧ b.sendTagSize = a.sendTagSize)
    (fun op _ b b' hI hs => ?_) h ⟨rfl, rfl⟩
  obtain ⟨hrows, hsend, -⟩ := runOp_frame hs
  exact ⟨hrows.trans hI.1, hsend.trans hI.2⟩

variable (hs : Settled processors m) (ha : Asked processors owns ops m w calls live')

include ha

theorem asked_kept (hg : g < processors) {op : ContextOp} (hop : op ∈ ops g) :
    ∃ a, Keeps (owns g) g op a ∧ a.rows = (m.procs g).rows := by
  have halong := along_invariant (I := fun _ a => a.rows = (m.procs g).rows) (fun _ _ h => h)
    (fun op a a' h hstep => (runOp_frame hstep).1.trans h) (ha.keeps g hg) rfl
  exact along_mem halong (ha.run g hg) hop

theorem asked_op (hg : g < processors) {call : RegCall} (hcall : call ∈ calls) :
    ∃ op ∈ ops g, registration op = some (call.op g) := by
  have hmem := List.mem_map_of_mem (f := RegCall.op g) hcall
  rw [← ha.registrations g hg] at hmem
  exact List.mem_filterMap.mp hmem

theorem asked_push (hg : g < processors) {row : Row} {nbytes : ℕ}
    (hrow : .push row nbytes ∈ calls) :
    ∀ r ∈ (m.procs g).rows, r g ≠ row g := by
  obtain ⟨op, hop, hreg⟩ := asked_op ha hg hrow
  obtain ⟨a, hk, hrows⟩ := asked_kept ha hg hop
  cases op with
  | pushReg ident nbytes =>
    cases hreg
    rw [← hrows]
    exact hk.1
  | _ => cases hreg

theorem asked_pop (hg : g < processors) {l : Live} (hl : .pop l ∈ calls) :
    ∃ r ∈ (m.procs g).rows, r g = l.row g := by
  obtain ⟨op, hop, hreg⟩ := asked_op ha hg hl
  obtain ⟨a, hk, hrows⟩ := asked_kept ha hg hop
  cases op with
  | popReg ident =>
    cases hreg
    rw [← hrows]
    exact hk.1
  | _ => cases hreg

theorem asked_noRepush : NoRepush processors (calls.map libraryReg) := by
  refine calls_noRepush fun g hg row nbytes l hrow hl heq => ?_
  obtain ⟨r, hr, hident⟩ := asked_pop ha hg hl
  exact asked_push ha hg hrow r hr (hident.trans heq.symm)

include hs

theorem asked_collective : CollectiveRegs processors (m.live.map Live.row) (callsAt w)
    (calls.map libraryReg) (live'.map Live.row) := by
  refine ⟨fun g hg => ?_, legal_live ha.legal hs.nodup⟩
  rw [callsAt, run_regCalls (ha.run g hg), hs.idle g hg, ha.registrations g hg]
  show (calls.map (RegCall.op g)).map libraryCall = _
  rw [List.map_map, List.map_map]
  apply List.map_congr_left
  intro call _
  cases call <;> rfl

theorem asked_legal : AbstractMachine.Legal processors w := by
  obtain ⟨hpushes, hpops⟩ :=
    Registration.collective_poppable (asked_collective hs ha) (asked_noRepush ha)
  refine ⟨hpushes, fun g hg => ?_, fun g hg => ?_⟩
  · rw [(run_frame (ha.run g hg)).1, hs.rows g hg]
    exact hpops g hg
  · rw [(run_frame (ha.run g hg)).2, (run_frame (ha.run 0 (by omega))).2, hs.tagSize g hg]

theorem asked_settled {procs : ℕ → Processor} {ms : ℕ → List Message}
    (hprocs : ∀ g < processors, procs g = { barrier processors w g with inbox := ms g }) :
    Settled processors ⟨live', procs⟩ := by
  refine ⟨fun g hg => ?_, fun g hg => ?_, fun g hg => ?_, legal_nodup ha.legal hs.nodup⟩
  · show (procs g).rows = live'.map Live.row
    rw [hprocs g hg]
    show rowsAfter processors (callsAt w) (w g).rows g = live'.map Live.row
    rw [(run_frame (ha.run g hg)).1, hs.rows g hg]
    exact Registration.collective_rowsAfter (asked_collective hs ha) (asked_noRepush ha) hg
  · have hpos : 0 < processors := by omega
    show (procs g).sendTagSize = (procs 0).sendTagSize
    rw [hprocs g hg, hprocs 0 hpos]
    show tagAfter (w g).sendTagSize (w g).calls = tagAfter (w 0).sendTagSize (w 0).calls
    rw [tagAfter, tagAfter, ha.tags g hg, (run_frame (ha.run g hg)).2,
      (run_frame (ha.run 0 hpos)).2, hs.tagSize g hg]
  · show (procs g).calls = []
    rw [hprocs g hg]
    rfl

end Registrations

section Library

variable {processors : ℕ} {owns : ℕ → ℕ → Prop} {ops : ℕ → List ContextOp} {m : Ensemble}
  {a : ℕ → Processor}

def libraryOps (ops : ℕ → List ContextOp) (g : ℕ) : List Bspx.Op := (ops g).map libraryOp

theorem inbox_arrives (n : ℕ) (cs : ℕ → List Call) (q : ℕ) :
    Arrives n cs q (inboxAfter n cs q) := by
  refine ⟨(List.range n).flatMap fun s => (sendsTo q (cs s)).map fun m => (s, m), ?_, ?_, ?_⟩
  · rw [List.map_flatMap, inboxAfter]
    congr 1
    funext s
    rw [List.map_map]
    exact List.map_id _
  · intro e he
    obtain ⟨s, hs, he⟩ := List.mem_flatMap.mp he
    obtain ⟨m, -, rfl⟩ := List.mem_map.mp he
    exact List.mem_range.mp hs
  · intro s hs
    rw [ofThread, List.filterMap_flatMap]
    exact (flatMap_only hs fun t _ ht => ofThread_map_other ht _).trans (ofThread_map s _)

structure Mirrors (processors : ℕ) (m : Ensemble) (a : ℕ → Processor) : Prop where
  procs : ∀ g < processors, a g = m.procs g
  settled : Settled processors m

def contextAnswersOf (processors : ℕ) (ops : ℕ → List ContextOp) (a : ℕ → Processor) :
    List (List Answer) :=
  (List.range processors).map fun g => trace (runOp processors g) answers (ops g) (a g)

theorem superstep_mirrors (h : Mirrors processors m a)
    (hasks : (machine processors owns).asks ops m) :
    ∃ a', AbstractMachine.superstep processors (libraryOps ops) a = some a' ∧
      (∃ m', (machine processors owns).next ops m m' ∧ Mirrors processors m' a') ∧
      contextAnswersOf processors ops a = (machine processors owns).emits ops m := by
  obtain ⟨w, calls, live', ha⟩ := hasks
  have hrun : ∀ g < processors,
      run (AbstractMachine.exec processors g) (libraryOps ops g) (a g) = some (w g) := by
    intro g hg
    have hsteps := run_map (fun _ _ => rfl : ∀ op b,
      AbstractMachine.exec processors g (libraryOp op) b = runOp processors g op b) (ops g) (a g)
    rw [libraryOps, hsteps, h.procs g hg]
    exact ha.run g hg
  obtain ⟨a', ha', hbarrier⟩ := AbstractMachine.superstep_rule hrun (asked_legal h.settled ha)
  have hmachine : ∀ g < processors, barrier processors w g =
      { barrier processors w g with inbox := inboxAfter processors (callsAt w) g } := fun g _ => rfl
  refine ⟨a', ha', ⟨⟨live', barrier processors w⟩, ⟨w, calls, ha, fun g hg => ?_⟩,
    hbarrier, asked_settled h.settled ha hmachine⟩, ?_⟩
  · exact ⟨_, inbox_arrives processors (callsAt w) g, rfl⟩
  · apply List.map_congr_left
    intro g hg
    rw [h.procs g (List.mem_range.mp hg)]

/-- The status of `bspx_get_tag` counts the bytes of the tag, that of a context does not. -/
def unsized : Answer → Answer
  | .status size => .status (size.map fun _ => 0)
  | x => x

theorem answers_unsized (op : ContextOp) (p : Processor) :
    (AbstractMachine.answers (libraryOp op) p).map unsized = (answers op p).map unsized := by
  cases op with
  | getTag tag =>
    simp only [libraryOp, AbstractMachine.answers, answers, List.map_cons, List.map_nil, unsized,
      Option.map_map]
    rfl
  | _ => rfl

theorem transcript_unsized (ops : ℕ → List ContextOp) (a : ℕ → Processor) :
    (AbstractMachine.transcript processors (libraryOps ops) a).map (List.map unsized) =
      (contextAnswersOf processors ops a).map (List.map unsized) := by
  rw [AbstractMachine.transcript, contextAnswersOf, List.map_map, List.map_map]
  apply List.map_congr_left
  intro g _
  exact trace_map (fun _ _ => rfl) answers_unsized (ops g) (a g)

theorem start_mirrors (mem : ℕ → Mem) (globalArrays : ℕ → ℕ → GlobalArray) :
    Mirrors processors (startEnsemble mem globalArrays)
      (AbstractMachine.initial mem globalArrays) :=
  ⟨fun _ _ => rfl, fun _ _ => rfl, fun _ _ => rfl, fun _ _ => rfl, fun _ _ => List.nodup_nil⟩

theorem program_mirrored {program : List (ℕ → List ContextOp)} {mem : ℕ → Mem}
    {globalArrays : ℕ → ℕ → GlobalArray}
    (hsafe : (machine processors owns).Safe program (startEnsemble mem globalArrays))
    (alloc : ℕ → Alloc) (stack : ℕ → ℕ) : ∃ w a,
      run (BspxSync.superstep processors) (program.map libraryOps)
        (initWorld alloc globalArrays mem stack processors) = some w ∧
      AbstractMachine.Represented processors w a ∧
      ∃ es m, (machine processors owns).Outcome program (startEnsemble mem globalArrays) es m ∧
        (trace (BspxSync.superstep processors) (AbstractMachine.libraryTranscript processors)
          (program.map libraryOps) (initWorld alloc globalArrays mem stack processors)).map
            (List.map unsized) = es.map (List.map unsized) ∧
        Mirrors processors m a := by
  have hsame : List.Forall₂ Eq program program := List.forall₂_same.mpr fun _ _ => rfl
  have hstep : ∀ ops ops' m (a : ℕ → Processor), ops = ops' → Mirrors processors m a →
      (machine processors owns).asks ops m →
      ∃ a', AbstractMachine.superstep processors (libraryOps ops') a = some a' ∧
        (∃ m', (machine processors owns).next ops m m' ∧ Mirrors processors m' a') ∧
        contextAnswersOf processors ops' a = (machine processors owns).emits ops m := by
    rintro ops _ m a rfl hmirrors hasks
    exact superstep_mirrors hmirrors hasks
  obtain ⟨a, ha, m, hout, hmirrors⟩ :=
    Chooser.safe_refined hstep hsame (start_mirrors mem globalArrays) hsafe
  rw [← run_map (fun _ _ => rfl)] at ha
  have hstart := AbstractMachine.init_represented alloc globalArrays mem stack processors
  obtain ⟨w, hw, hrep, htrace⟩ := AbstractMachine.run_refines hstart ha
  refine ⟨w, a, hw, hrep, _, m, hout, ?_, hmirrors⟩
  rw [htrace]
  exact trace_map (fun _ _ => rfl) transcript_unsized program _

/-- A program that is safe on the machine of the contexts runs on the C library as well, and does
there what the machine may do; only the sizes that `bspx_get_tag` returns are others. -/
theorem library_refines {program : List (ℕ → List ContextOp)} {mem : ℕ → Mem}
    {globalArrays : ℕ → ℕ → GlobalArray}
    (hsafe : (machine processors owns).Safe program (startEnsemble mem globalArrays))
    (alloc : ℕ → Alloc) (stack : ℕ → ℕ) : ∃ w,
      run (BspxSync.superstep processors) (program.map libraryOps)
        (initWorld alloc globalArrays mem stack processors) = some w ∧
      ∃ es m, (machine processors owns).Outcome program (startEnsemble mem globalArrays) es m ∧
        (trace (BspxSync.superstep processors) (AbstractMachine.libraryTranscript processors)
          (program.map libraryOps) (initWorld alloc globalArrays mem stack processors)).map
            (List.map unsized) = es.map (List.map unsized) ∧
        ∀ g < processors, (w g).mem = (m.procs g).mem := by
  obtain ⟨w, a, hw, hrep, es, m, hout, htrace, hmirrors⟩ := program_mirrored hsafe alloc stack
  refine ⟨w, hw, es, m, hout, htrace, fun g hg => ?_⟩
  rw [(hrep g hg).mem, hmirrors.procs g hg]

theorem library_refines_ring : (machine 3 thousands).Safe ring ringStart ∧
    ∀ (alloc : ℕ → Alloc) (stack : ℕ → ℕ), ∃ w,
      run (BspxSync.superstep 3) (ring.map libraryOps)
        (initWorld alloc (fun _ _ => ⟨0, 0, none⟩) (fun _ a => UInt8.ofNat a) stack 3) = some w ∧
      ∃ es m, (machine 3 thousands).Outcome ring ringStart es m ∧
        (trace (BspxSync.superstep 3) (AbstractMachine.libraryTranscript 3) (ring.map libraryOps)
          (initWorld alloc (fun _ _ => ⟨0, 0, none⟩) (fun _ a => UInt8.ofNat a) stack 3)).map
            (List.map unsized) = es.map (List.map unsized) ∧
        ∀ g < 3, (w g).mem = (m.procs g).mem :=
  ⟨ring_safe, library_refines ring_safe⟩

end Library

section Agreement

variable {processors : ℕ} {owns : ℕ → ℕ → Prop} {ops : ℕ → List ContextOp} {m m' : Ensemble}

def SingleSender (processors : ℕ) (ops : ℕ → List ContextOp) : Prop :=
  ∀ q, ∀ s < processors, ∀ s' < processors, (∃ op ∈ ops s, recipient op = some q) →
    (∃ op ∈ ops s', recipient op = some q) → s = s'

theorem run_sendsTo {g q : ℕ} {ops : List ContextOp} {a a' : Processor}
    (h : run (runOp processors g) ops a = some a') (hidle : a.calls = [])
    (hsent : sendsTo q a'.calls ≠ []) : ∃ op ∈ ops, recipient op = some q := by
  by_contra hnone
  have hother : ∀ op ∈ ops, recipient op ≠ some q := fun op hop heq => hnone ⟨op, hop, heq⟩
  refine hsent (run_preserves (I := fun b => sendsTo q b.calls = [])
    (fun op hop b b' hI hs => ?_) h ?_)
  · obtain ⟨cs, hcalls, -, hsends⟩ := step_calls hs
    rw [hcalls, sendsTo, List.filterMap_append]
    exact List.append_eq_nil_iff.mpr ⟨hI, hsends q (hother op hop)⟩
  · rw [hidle]
    rfl

theorem arrives_single {n q : ℕ} {cs : ℕ → List Call} {ms : List Message} (h : Arrives n cs q ms)
    (hsingle : ∀ s < n, ∀ s' < n, sendsTo q (cs s) ≠ [] → sendsTo q (cs s') ≠ [] → s = s') :
    ms = inboxAfter n cs q := by
  obtain ⟨tagged, rfl, hsenders, horder⟩ := h
  have hsent : ∀ e ∈ tagged, sendsTo q (cs e.1) ≠ [] := by
    intro e he hnil
    rw [← horder e.1 (hsenders e he), ofThread, List.filterMap_eq_nil_iff] at hnil
    have hnone := hnil e he
    rw [if_pos rfl] at hnone
    cases hnone
  -- the last arrival, if there is one, names the only sender
  rcases tagged.eq_nil_or_concat with rfl | ⟨rest, e, rfl⟩
  · have hnone : ∀ s < n, sendsTo q (cs s) = [] := fun s hs => (horder s hs).symm
    exact (List.flatMap_eq_nil_iff.mpr fun s hs => hnone s (List.mem_range.mp hs)).symm
  · have hlast : e ∈ rest.concat e := by simp
    have hall : ∀ e' ∈ rest.concat e, e'.1 = e.1 := fun e' he' =>
      hsingle _ (hsenders e' he') _ (hsenders e hlast) (hsent e' he') (hsent e hlast)
    rw [inboxAfter, flatMap_only (hsenders e hlast) fun s hs hne => ?_,
      ← horder e.1 (hsenders e hlast),
      ofThread_filter, List.filter_eq_self.mpr fun e' he' => decide_eq_true (hall e' he')]
    by_contra hs'
    exact hne (hsingle s hs _ (hsenders e hlast) hs' (hsent e hlast))

theorem next_single (hs : Settled processors m) (hsingle : SingleSender processors ops)
    (hnext : (machine processors owns).next ops m m') : Settled processors m' ∧
      ∃ w, (∀ g < processors, run (runOp processors g) (ops g) (m.procs g) = some (w g)) ∧
        ∀ g < processors, m'.procs g = barrier processors w g := by
  obtain ⟨w, calls, ha, hprocs⟩ := hnext
  have hsame : ∀ g < processors, m'.procs g = barrier processors w g := by
    intro g hg
    obtain ⟨ms, harrives, hproc⟩ := hprocs g hg
    have hms := arrives_single harrives fun s hs₁ s' hs₂ hsent hsent' =>
      hsingle g s hs₁ s' hs₂ (run_sendsTo (ha.run s hs₁) (hs.idle s hs₁) hsent)
        (run_sendsTo (ha.run s' hs₂) (hs.idle s' hs₂) hsent')
    rw [hproc, hms]
    rfl
  exact ⟨asked_settled hs ha hsame, w, ha.run, hsame⟩

def Agree (processors : ℕ) (m m' : Ensemble) : Prop :=
  Settled processors m ∧ Settled processors m' ∧ ∀ g < processors, m.procs g = m'.procs g

theorem outcome_unique {program : List (ℕ → List ContextOp)} {start : Ensemble}
    (hstart : Settled processors start) (hsingle : ∀ ops ∈ program, SingleSender processors ops)
    {es es' : List (List Answer)} (h : (machine processors owns).Outcome program start es m)
    (h' : (machine processors owns).Outcome program start es' m') :
    es = es' ∧ ∀ g < processors, m.procs g = m'.procs g := by
  have hstep : ∀ ops s t s' t', SingleSender processors ops → Agree processors s t →
      (machine processors owns).next ops s s' → (machine processors owns).next ops t t' →
      (machine processors owns).emits ops s = (machine processors owns).emits ops t ∧
        Agree processors s' t' := by
    rintro ops s t s' t' hone ⟨hs, ht, hsame⟩ hnext hnext'
    obtain ⟨hs', w, hw, hprocs⟩ := next_single hs hone hnext
    obtain ⟨ht', v, hv, hprocs'⟩ := next_single ht hone hnext'
    have hwv : ∀ g < processors, w g = v g := by
      intro g hg
      have hrun := hw g hg
      rw [hsame g hg] at hrun
      exact Option.some.inj (hrun.symm.trans (hv g hg))
    refine ⟨?_, hs', ht', fun g hg => ?_⟩
    · apply List.map_congr_left
      intro g hg
      rw [hsame g (List.mem_range.mp hg)]
    · rw [hprocs g hg, hprocs' g hg, AbstractMachine.barrier_congr hwv hg]
  obtain ⟨hes, -, -, hprocs⟩ :=
    Chooser.outcomes_agree hstep hsingle (R := Agree processors) ⟨hstart, hstart,
      fun _ _ => rfl⟩ h h'
  exact ⟨hes, hprocs⟩

end Agreement

section Example

def relay : List (ℕ → List ContextOp) :=
  [fun _ => [.setTagsize 1],
   fun g => [.send ((g + 1) % 3) (1000 * g + 200) (1000 * g + 201) 2],
   fun g => [.getTag (1000 * g + 300), .hpmove]]

def relayCalls (g : ℕ) (mem : Mem) : List Call :=
  [.send ((g + 1) % 3) ⟨load mem (1000 * g + 200) 1, load mem (1000 * g + 201) 2⟩]

theorem relay_sizes : Asked 3 thousands (fun _ => [.setTagsize 1]) ringStart
    (fun g => { ringStart.procs g with calls := [.setTagsize 1] }) [] [] := by
  refine ⟨fun _ _ => rfl, fun _ _ => ⟨trivial, fun _ _ => trivial⟩, fun _ _ => rfl, .nil _ _,
    fun _ _ => rfl, silent_transfers fun g _ c hc => ?_⟩
  rw [List.mem_singleton.mp hc]
  exact ⟨rfl, rfl⟩

theorem relay_sends {m : Ensemble} (htag : ∀ g < 3, (m.procs g).sendTagSize = 1)
    (hidle : ∀ g < 3, (m.procs g).calls = []) :
    Asked 3 thousands (fun g => [.send ((g + 1) % 3) (1000 * g + 200) (1000 * g + 201) 2]) m
      (fun g => { m.procs g with calls := relayCalls g (m.procs g).mem }) [] m.live := by
  refine ⟨fun g hg => ?_, fun g hg => ⟨?_, fun _ _ => trivial⟩, fun _ _ => rfl, .nil _ _,
    fun _ _ => rfl, silent_transfers fun g _ c hc => ?_⟩
  · have hpid : (g + 1) % 3 < 3 := Nat.mod_lt _ (by decide)
    simp [run, runOp, libraryOp, AbstractMachine.exec, AbstractMachine.Processor.queue, htag g hg,
      hidle g hg, hpid, relayCalls]
  · rw [Keeps, htag g hg]
    exact ⟨thousands_range (by omega) (by omega), thousands_range (by omega) (by omega), by decide⟩
  · rw [List.mem_singleton.mp hc]
    exact ⟨rfl, rfl⟩

theorem relay_reads {m : Ensemble} (htag : ∀ g < 3, (m.procs g).recvTagSize = 1)
    (hidle : ∀ g < 3, (m.procs g).calls = []) :
    (machine 3 thousands).asks (fun g => [.getTag (1000 * g + 300), .hpmove]) m := by
  have hrun : ∀ g, ∃ a, run (runOp 3 g) [.getTag (1000 * g + 300), .hpmove] (m.procs g) = some a ∧
      a.calls = (m.procs g).calls := by
    intro g
    obtain ⟨mem, rows, sendTagSize, recvTagSize, inbox, calls, last, overflow, arrays⟩ := m.procs g
    cases inbox with
    | nil => exact ⟨_, rfl, rfl⟩
    | cons => exact ⟨_, rfl, rfl⟩
  choose a ha hsame using hrun
  have hcalls : ∀ g < 3, (a g).calls = [] := fun g hg => (hsame g).trans (hidle g hg)
  refine ⟨a, [], m.live, fun g _ => ha g,
    fun g hg => ⟨?_, fun _ _ => ⟨trivial, fun _ _ => trivial⟩⟩,
    fun _ _ => rfl, .nil _ _, fun g hg => ?_, silent_transfers fun g hg c hc => ?_⟩
  · rw [Keeps, htag g hg]
    exact thousands_range (by omega) (by omega)
  · rw [hcalls g hg, hcalls 0 (by decide)]
  · rw [hcalls g hg] at hc
    exact absurd hc List.not_mem_nil

theorem relay_safe : (machine 3 thousands).Safe relay ringStart := by
  refine ⟨⟨_, _, _, relay_sizes⟩, fun m hm => ?_⟩
  have hsized : ∀ g < 3, (m.procs g).sendTagSize = 1 ∧ (m.procs g).calls = [] := by
    intro g hg
    obtain ⟨ms, -, hproc⟩ := next_procs hm relay_sizes.run hg
    rw [hproc]
    exact ⟨rfl, rfl⟩
  have hasked := relay_sends (fun g hg => (hsized g hg).1) fun g hg => (hsized g hg).2
  refine ⟨⟨_, _, _, hasked⟩, fun m' hm' => ⟨?_, fun _ _ => trivial⟩⟩
  have hnext := fun (g : ℕ) (hg : g < 3) => next_procs hm' hasked.run hg
  refine relay_reads (fun g hg => ?_) fun g hg => ?_
  · obtain ⟨ms, -, hproc⟩ := hnext g hg
    rw [hproc]
    exact (hsized g hg).1
  · obtain ⟨ms, -, hproc⟩ := hnext g hg
    rw [hproc]
    rfl

theorem relay_single : ∀ ops ∈ relay, SingleSender 3 ops := by
  intro ops hops q s hs s' hs' h h'
  simp only [relay, List.mem_cons, List.not_mem_nil, or_false] at hops
  rcases hops with rfl | rfl | rfl
  · simp [recipient] at h
  · simp only [List.mem_singleton, exists_eq_left, recipient, Option.some.injEq] at h h'
    omega
  · simp [recipient] at h

end Example

end BspOnMpi.ContextPortability
