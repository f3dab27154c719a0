import BspOnMpi.ContextInterleaving
import BspOnMpi.ContextRefinement
import BspOnMpi.Lib.Progress

/-! Safe programs under every schedule. A program that is safe on the machine of the contexts is
safe whatever the threads of a node do: its contexts keep to disjoint regions of the memory, so
that the statements of different calls may be mixed, and no schedule of a node can fail or get
stuck. -/

namespace BspOnMpi.ContextSchedules
open Lib Slots Memreg Machine Calls Mapper ContextMemreg ContextLive ContextRuns LocalDelivery
  Contexts
  ContextSync ContextThreads ContextInterleaving ContextRefinement
open Bspx hiding exec
open ContextMachine (runOp Range globalOf Private Waits Hosted Hosts Ensemble Asked machine)
open AbstractMachine (Processor)
open ContextProgram (Start initNode)
open ContextLog (nodeOf)

section Calls

variable {processors nnodes q : ℕ}

theorem code_plain (lp : ℕ) (op : ContextOp) (s : Shared) :
    Plain (code processors nnodes q lp op s) := by
  cases op with
  | pushReg | popReg | setTagsize => exact .critical _
  | compute => exact .free _
  | put | hpput | get | hpget =>
    simp only [code]
    unfold withBase
    split
    · exact .free _
    · split
      · exact .free _
      · exact .critical _
  | send | hpsend =>
    simp only [code]
    split <;> exact .critical _
  | getTag | move | hpmove =>
    simp only [code]
    split
    · exact .critical _
    · exact .nil

theorem run_atomically {order : List (ℕ × ContextOp)} {s : Shared}
    (h : (run (exec processors nnodes q) order s.node).isSome) :
    (run (atomically apply (code processors nnodes q)) order s).isSome := by
  induction order generalizing s with
  | nil => rfl
  | cons e order ih =>
    rw [run, ← atomically_exec e s] at h
    rw [run]
    cases hs : atomically apply (code processors nnodes q) e s with
    | none =>
      rw [hs] at h
      cases h
    | some s' =>
      rw [hs] at h
      exact ih h

end Calls

section Regions

variable {processors nnodes q : ℕ} {owns : ℕ → ℕ → Prop}

def regions (hm : Mapped processors nnodes) (hown : Private processors nnodes owns) (q : ℕ) :
    Regions where
  reads := fun _ _ => False
  writes := fun lp a =>
    lp < contextsOn processors nnodes q ∧ owns (globalOf processors nnodes q lp) a
  apart := by
    rintro l k a hne ⟨hl, ha⟩ (hread | ⟨hk, ha'⟩)
    · exact hread
    · obtain ⟨hg, hnode, -⟩ := place_global hm hl
      obtain ⟨hg', hnode', -⟩ := place_global hm hk
      exact hown _ hg _ hg' (hnode.trans hnode'.symm) (fun h => hne (Nat.add_left_cancel h)) a ha
        ha'

variable (hm : Mapped processors nnodes) (hown : Private processors nnodes owns)

theorem range_writes {lp a n : ℕ} (hlp : lp < contextsOn processors nnodes q)
    (h : Range (owns (globalOf processors nnodes q lp)) a n) :
    (regions hm hown q).MayWrite lp a n :=
  fun i hi => ⟨hlp, h i hi⟩

theorem range_reads {lp a n : ℕ} (hlp : lp < contextsOn processors nnodes q)
    (h : Range (owns (globalOf processors nnodes q lp)) a n) :
    (regions hm hown q).MayRead lp a n :=
  fun i hi => .inr ⟨hlp, h i hi⟩

theorem keeps_confined {lp : ℕ} (hlp : lp < contextsOn processors nnodes q) {node : Node}
    {op : ContextOp} {a : Processor}
    (hk : ContextMachine.Keeps (owns (globalOf processors nnodes q lp))
      (globalOf processors nnodes q lp) op a)
    (hsend : a.sendTagSize = node.proc.bsp.messageQueue.sendTagSize)
    (hrecv : a.recvTagSize = node.proc.bsp.messageQueue.recvTagSize) :
    Confined processors nnodes q (regions hm hown q) node lp op := by
  cases op with
  | put => exact range_reads hm hown hlp hk
  | send =>
    rw [Confined, ← hsend]
    exact ⟨range_reads hm hown hlp hk.1, range_reads hm hown hlp hk.2.1⟩
  | getTag =>
    rw [Confined, ← hrecv]
    exact range_writes hm hown hlp hk
  | move => exact range_writes hm hown hlp hk.1
  | compute f =>
    refine ⟨fun m x hx => hk.frame m x fun ho => hx ⟨hlp, ho⟩, fun m m' h x hx => ?_⟩
    exact hk.determined m m' (fun y hy => h y (.inr ⟨hlp, hy⟩)) x hx.2
  | hpput | hpget | hpsend => exact hk.elim
  | get | pushReg | popReg | setTagsize | hpmove => trivial

end Regions

section Readable

variable {p : Proc} {c : LocalDeliveryQueue} {ms : List Message}

theorem waiting_mem {H : Type} {q : HeaderQueue H} {hs : List H} (h : Waiting q hs) {k : ℕ}
    (hk : q.start ≤ k) (hlt : k < q.tbl.usedSlotCount 0) : q.tbl.data k ∈ hs := by
  obtain ⟨done, hholds, hstart⟩ := h.holds
  have hpos : 0 < q.tbl.nprocs := by rw [h.nprocs]; decide
  have hcell := congrArg (fun l => l[k]?) (hholds.content 0 hpos)
  rw [load_getElem? _ hlt, List.getElem?_append_right (by omega), Exptable.col, column,
    Nat.zero_mul, Nat.zero_add, Nat.zero_add] at hcell
  exact List.mem_of_getElem? hcell.symm

theorem carried_mem {b : MessageBuffer} {hs : List BSMessage} {moved : List LocalMessage}
    (h : List.Forall₂ (Carries b) hs moved) {x : BSMessage} (hx : x ∈ hs) :
    ∃ m ∈ moved, Carries b x m := by
  induction h with
  | nil => cases hx
  | cons hcarry _ ih =>
    rcases List.mem_cons.mp hx with rfl | hx
    · exact ⟨_, List.mem_cons_self, hcarry⟩
    · obtain ⟨m, hm, hcarry⟩ := ih hx
      exact ⟨m, List.mem_cons_of_mem _ hm, hcarry⟩

theorem load_empty {a n : ℕ} (h : load (fun _ => (0 : UInt8)) a n = load (fun _ => 1) a n) :
    n = 0 := by
  cases n with
  | zero => rfl
  | succ n =>
    have hhead := congrArg List.head? h
    simp [load, List.range_succ_eq_map] at hhead

theorem waits_pointed (h : Waits p c ms) {k : ℕ} (hk : c.messageMoveQueue.start ≤ k)
    (hlt : k < c.messageMoveQueue.tbl.usedSlotCount 0) {tag src : Pointer} {nbytes : ℕ}
    (hdata : c.messageMoveQueue.tbl.data k = .unbuffered tag src nbytes) :
    (∀ a, tag = .memory a → p.bsp.messageQueue.recvTagSize = 0) ∧
      ∀ a, src = .memory a → nbytes = 0 := by
  obtain ⟨moved, hbox, hms, -⟩ := h
  obtain ⟨hs, hwaiting, hcarries⟩ := hbox.waiting
  have hmem := waiting_mem hwaiting hk hlt
  rw [hdata] at hmem
  obtain ⟨m, hm, hcarry⟩ := carried_mem hcarries hmem
  cases m with
  | copied m => exact hcarry.elim
  | pointed t s n =>
    obtain ⟨rfl, rfl, rfl⟩ := hcarry
    have hsame := List.map_inj_left.mp ((hms fun _ => 0).trans (hms fun _ => 1).symm) _ hm
    obtain ⟨htag, hpayload⟩ := Message.mk.inj hsame
    constructor
    · rintro a rfl
      exact load_empty (a := a) htag
    · rintro a rfl
      exact load_empty (a := a) hpayload

end Readable

section Idle

variable {processors nnodes q n k lp : ℕ} {node node' : Node}

def Idle (n : ℕ) (node : Node) : Prop :=
  ∀ lp, n ≤ lp → (node.contexts lp).localDeliveries.messageMoveQueue.tbl.usedSlotCount 0 = 0

theorem onQueue_away {l : ℕ} (hl : l < n) (hlp : n ≤ lp)
    (f : LocalDeliveryQueue → LocalDeliveryQueue) :
    (node.onQueue l f).contexts lp = node.contexts lp :=
  Function.update_of_ne (by omega) _ _

theorem executeLocal_away (hk : k ≤ n) (hlp : n ≤ lp) :
    (executeLocal k node).contexts lp = node.contexts lp := by
  induction k with
  | zero => rfl
  | succ k ih =>
    let before := executeLocal k node
    let r := (before.contexts k).localDeliveries.execute before.proc.mem
    have hstep : ((before.onMem r.2).onQueue k fun _ => r.1).contexts lp = before.contexts lp :=
      Function.update_of_ne (by omega) _ _
    rw [executeLocal, List.range_succ, List.foldl_append]
    exact hstep.trans (ih (by omega))

theorem finish_away (hlp : n ≤ lp) : (finish n node).contexts lp = node.contexts lp := by
  have hqueues : ∀ k ≤ n, ((List.range k).foldl
      (fun node lp => node.onQueue lp LocalDeliveryQueue.bsmpMessagequeueSync) node).contexts lp =
        node.contexts lp := by
    intro k hk
    induction k with
    | zero => rfl
    | succ k ih =>
      rw [List.range_succ, List.foldl_append]
      exact (onQueue_away hk hlp _).trans (ih (by omega))
  exact hqueues n (le_refl n)

theorem splitQueue_away (hs : splitQueue n k node = some node') (hlp : n ≤ lp) :
    node'.contexts lp = node.contexts lp := by
  induction k generalizing node with
  | zero => cases hs
  | succ k ih =>
    obtain ⟨⟨bsp, r⟩, -, hrest⟩ := Option.bind_eq_some_iff.mp hs
    cases r with
    | none =>
      cases hrest
      rfl
    | some message =>
      obtain ⟨bytes, tag, address⟩ := message
      simp only at hrest
      split at hrest
      · rename_i hvalid
        exact (ih hrest).trans (onQueue_away (by omega) hlp _)
      · cases hrest

theorem sync_away {v w' : ℕ → Node} {fresh : ℕ → ℕ → RegReq}
    (hs : bspSync processors nnodes v fresh = some w') (hq : q < nnodes)
    (hlp : contextsOn processors nnodes q ≤ lp) : (w' q).contexts lp = (v q).contexts lp := by
  obtain ⟨regs, -, hall⟩ := Option.bind_eq_some_iff.mp hs
  obtain ⟨node, hnode, hw'⟩ := Option.map_eq_some_iff.mp ((allBelow_eq_some hall).1 q hq)
  obtain ⟨received, hreceive, rfl⟩ := Option.map_eq_some_iff.mp hnode
  have hsame : (w' q).contexts lp = received.contexts lp := by
    rw [← hw']
    exact (if_neg (Nat.not_lt.mpr hlp)).trans (finish_away hlp)
  have hlocal : (afterLocal processors nnodes v q).contexts lp = (v q).contexts lp :=
    executeLocal_away (le_refl _) hlp
  rw [hsame, ← hlocal]
  simp only [receiveAt] at hreceive
  split at hreceive
  · obtain ⟨r, -, hsplit⟩ := Option.bind_eq_some_iff.mp hreceive
    have haway := splitQueue_away hsplit hlp
    exact haway
  · cases hreceive
    rfl

theorem unchanged_idle {s : Shared} (h : Unchanged node s) (hidle : Idle n node) :
    Idle n s.node := by
  intro lp hlp
  rw [h.received lp]
  exact hidle lp hlp

end Idle

section Superstep

variable {processors nnodes : ℕ} {owns : ℕ → ℕ → Prop} {m : Ensemble} {ops : ℕ → List ContextOp}
  {w : ℕ → Node} {steps : ℕ → NodeStep} {u : ℕ → Processor} {calls : List RegCall}
    {live' : List Live}
  {q : ℕ}

variable (processors nnodes) in
def Takes (ops : ℕ → List ContextOp) (steps : ℕ → NodeStep) : Prop :=
  ∀ q < nnodes, ∀ lp < contextsOn processors nnodes q,
    (steps q).ops lp = ops (globalOf processors nnodes q lp)

variable (processors nnodes owns) in
/-- Nodes that represent the machine, with nothing outside of their contexts. -/
structure Stands (m : Ensemble) (w : ℕ → Node) : Prop where
  represents : Represents processors nnodes owns m w
  idle : ∀ q < nnodes, Idle (contextsOn processors nnodes q) (w q)

theorem takes_spawn (ht : Takes processors nnodes ops steps) (hq : q < nnodes) (lp : ℕ) :
    spawn (contextsOn processors nnodes q) (steps q).ops lp =
      if lp < contextsOn processors nnodes q then ops (globalOf processors nnodes q lp)
      else [] := by
  rw [spawn]
  split
  · rename_i hlp
    exact ht q hq lp hlp
  · rfl

variable (hm : Mapped processors nnodes) (hown : Private processors nnodes owns)
  (h : Stands processors nnodes owns m w) (ha : Asked processors owns ops m u calls live')
  (ht : Takes processors nnodes ops steps) (hq : q < nnodes)

include h hq

theorem stands_readable : Readable (regions hm hown q) (w q) := by
  obtain ⟨⟨tagSize, -, hrunning⟩, -⟩ := h.represents
  intro lp
  dsimp only
  intro k hk hlt
  by_cases hlp : lp < contextsOn processors nnodes q
  · have hinbox := ((running_hosts hrunning hq).hosted lp hlp).inbox
    split
    · trivial
    · rename_i hdata
      obtain ⟨htag, hsrc⟩ := waits_pointed hinbox hk hlt hdata
      constructor
      · intro a ha
        rw [htag a ha]
        exact fun i hi => absurd hi (Nat.not_lt_zero i)
      · intro a ha
        rw [hsrc a ha]
        exact fun i hi => absurd hi (Nat.not_lt_zero i)
  · rw [h.idle q hq lp (Nat.not_lt.mp hlp)] at hlt
    exact absurd hlt (Nat.not_lt_zero k)

include ha ht

theorem stands_confined (lp : ℕ) : ∀ op ∈ spawn (contextsOn processors nnodes q) (steps q).ops lp,
    Confined processors nnodes q (regions hm hown q) (w q) lp op := by
  intro op hop
  rw [takes_spawn ht hq lp] at hop
  split at hop
  · rename_i hlp
    obtain ⟨⟨tagSize, -, hrunning⟩, -⟩ := h.represents
    have hosted := (running_hosts hrunning hq).hosted lp hlp
    obtain ⟨hg, -, -⟩ := place_global hm hlp
    have halong := along_invariant (I := fun _ a =>
        a.sendTagSize = (w q).proc.bsp.messageQueue.sendTagSize ∧
          a.recvTagSize = (w q).proc.bsp.messageQueue.recvTagSize)
      (fun _ _ hsizes => hsizes) (fun op a a' hsizes hs => ?_) (ha.keeps _ hg)
      ⟨hosted.sendTagSize, hosted.recvTagSize⟩
    · obtain ⟨a, hk, hsend, hrecv⟩ := along_mem halong (ha.run _ hg) hop
      exact keeps_confined hm hown hlp hk hsend hrecv
    · obtain ⟨-, hsend, hrecv⟩ := ContextMachine.runOp_frame hs
      exact ⟨hsend.trans hsizes.1, hrecv.trans hsizes.2⟩
  · cases hop

include hm hown

theorem stands_run {order : List (ℕ × ContextOp)} (horder : ∀ lp,
      ofThread lp order <+: spawn (contextsOn processors nnodes q) (steps q).ops lp) :
    ∃ tagSize log node a, run (exec processors nnodes q) order (w q) = some node ∧
      Hosts processors nnodes owns q tagSize m.live log node a := by
  obtain ⟨⟨tagSize, -, hrunning⟩, -⟩ := h.represents
  have hparts : ∀ lp, Along (runOp processors (globalOf processors nnodes q lp))
      (fun op s => lp < contextsOn processors nnodes q ∧
        ContextMachine.Keeps (owns (globalOf processors nnodes q lp))
          (globalOf processors nnodes q lp) op s)
      (ofThread lp order) (m.procs (globalOf processors nnodes q lp)) ∧
        ∃ a, run (runOp processors (globalOf processors nnodes q lp)) (ofThread lp order)
          (m.procs (globalOf processors nnodes q lp)) = some a := by
    intro lp
    obtain ⟨rest, hrest⟩ := horder lp
    rw [takes_spawn ht hq lp] at hrest
    by_cases hlp : lp < contextsOn processors nnodes q
    · obtain ⟨hg, -, -⟩ := place_global hm hlp
      rw [if_pos hlp] at hrest
      have hkeeps := ha.keeps _ hg
      have hrun := ha.run _ hg
      rw [← hrest] at hkeeps hrun
      rw [run_append] at hrun
      obtain ⟨a, hpart, -⟩ := Option.bind_eq_some_iff.mp hrun
      exact ⟨along_mono (fun _ _ _ hk => ⟨hlp, hk⟩) (along_append.mp hkeeps).1, a, hpart⟩
    · rw [if_neg hlp, List.append_eq_nil_iff] at hrest
      rw [hrest.1]
      exact ⟨trivial, _, rfl⟩
  choose a hrun using fun lp => (hparts lp).2
  obtain ⟨node, log, hnode, hhosts, -⟩ :=
    ContextMachine.hosts_run hm hown (running_hosts hrunning hq)
    (fun lp => (hparts lp).1) hrun
  exact ⟨tagSize q, log, node, a, hnode, hhosts⟩

theorem stands_defined (pointer : ℕ → ℕ) (order : List (ℕ × ContextOp)) (horder : ∀ lp,
      ofThread lp order <+: spawn (contextsOn processors nnodes q) (steps q).ops lp) :
    (run (atomically apply (code processors nnodes q)) order ⟨w q, pointer⟩).isSome := by
  obtain ⟨-, -, node, -, hnode, -⟩ := stands_run hm hown h ha ht hq horder
  exact run_atomically (by rw [hnode]; rfl)

theorem stands_serial {node : Node}
    (hrun : runTasks processors nnodes q (steps q) (w q) = some node) :
    ∃ order : List (ℕ × ContextOp),
      (∀ lp, ofThread lp order = spawn (contextsOn processors nnodes q) (steps q).ops lp) ∧
        run (exec processors nnodes q) order (w q) = some node :=
  runTasks_serial (stands_readable hm hown h hq) (stands_confined hm hown h ha ht hq) hrun

theorem stands_few {node : Node} (hrun : runTasks processors nnodes q (steps q) (w q) = some node)
    {lp : ℕ} (hlp : lp < contextsOn processors nnodes q) :
    (node.contexts lp).reg.regRequests.length < 2 ^ 27 := by
  obtain ⟨order, horder, hexec⟩ := stands_serial hm hown h ha ht hq hrun
  have hprefix : ∀ lp, ofThread lp order <+:
      spawn (contextsOn processors nnodes q) (steps q).ops lp := by
    intro lp
    rw [horder lp]
  obtain ⟨tagSize, log, node', a, hnode', hhosts⟩ := stands_run hm hown h ha ht hq hprefix
  cases hexec.symm.trans hnode'
  have hosted := hhosts.hosted lp hlp
  rw [hosted.requests]
  exact hosted.few

theorem stands_unchanged {node : Node}
    (hrun : runTasks processors nnodes q (steps q) (w q) = some node) :
    Idle (contextsOn processors nnodes q) node := by
  obtain ⟨t, hthreads, hjoined⟩ := Option.bind_eq_some_iff.mp hrun
  obtain ⟨-, heq⟩ := Option.ite_none_right_eq_some.mp hjoined
  cases heq
  have hdisciplined : Disciplined apply (code processors nnodes q) (Unchanged (w q))
      (Keeps (regions hm hown q) (w q)) (Confined processors nnodes q (regions hm hown q) (w q)) :=
    contexts_disciplined (stands_readable hm hown h hq)
  have hops := stands_confined hm hown h ha ht hq
  have hstart := start_unchanged (w q) (steps q).pointer
  obtain ⟨_, _, _, hlinear⟩ := linear_run hdisciplined code_plain hops hstart hthreads
  exact unchanged_idle (linear_shared hdisciplined hops hstart hlinear) (h.idle q hq)

omit hq

theorem stands_orderly : Orderly processors nnodes steps w :=
  fun q hq => ⟨⟨regions hm hown q, stands_readable hm hown h hq,
    stands_confined hm hown h ha ht hq⟩, fun _ hrun _ hlp => stands_few hm hown h ha ht hq hrun hlp⟩

theorem stands_superstep (hp : processors ≤ 2 ^ 31)
    (hall : ∀ q < nnodes, (runTasks processors nnodes q (steps q) (w q)).isSome) :
    ∃ w', superstep processors nnodes steps w = some w' ∧
      ∃ m', (machine processors owns).next ops m m' ∧ Represents processors nnodes owns m' w' := by
  have hnode : ∀ q : ℕ, ∃ order : List (ℕ × ContextOp), q < nnodes →
      (∀ lp, ofThread lp order = spawn (contextsOn processors nnodes q) (steps q).ops lp) ∧
        run (exec processors nnodes q) order (w q) =
          runTasks processors nnodes q (steps q) (w q) := by
    intro q
    by_cases hq : q < nnodes
    · obtain ⟨node, hrun⟩ := Option.isSome_iff_exists.mp (hall q hq)
      obtain ⟨order, horder, hexec⟩ := stands_serial hm hown h ha ht hq hrun
      exact ⟨order, fun _ => ⟨horder, hexec.trans hrun.symm⟩⟩
    · exact ⟨[], fun hlt => absurd hlt hq⟩
  choose order horder using hnode
  have hordered : Ordered processors nnodes ops order := fun q hq lp => by
    rw [(horder q hq).1 lp, takes_spawn ht hq lp]
  rw [superstep, ← allBelow_congr fun q hq => (horder q hq).2]
  exact (superstep_refines hp hown h.represents ⟨u, calls, live', ha⟩ hordered).imp
    fun w' hw' => ⟨hw'.1, hw'.2.1⟩

theorem stands_next (hp : processors ≤ 2 ^ 31) {w' : ℕ → Node}
    (hs : superstep processors nnodes steps w = some w') :
    ∃ m', (machine processors owns).next ops m m' ∧ Stands processors nnodes owns m' w' := by
  obtain ⟨v, hv, hsync⟩ := Option.bind_eq_some_iff.mp hs
  have hrun := (allBelow_eq_some hv).1
  obtain ⟨w'', hw'', m', hnext, hrep⟩ := stands_superstep hm hown h ha ht hp
    fun q hq => by rw [hrun q hq]; rfl
  cases hs.symm.trans hw''
  refine ⟨m', hnext, hrep, fun q hq lp hlp => ?_⟩
  rw [sync_away hsync hq hlp]
  exact stands_unchanged hm hown h ha ht hq (hrun q hq) lp hlp

end Superstep

section Programs

variable {processors nnodes : ℕ} {owns : ℕ → ℕ → Prop}

theorem start_stands (hm : Mapped processors nnodes) (x : ℕ → Start) {mem : ℕ → Mem}
    (hmem : ∀ g < processors, ∀ a, owns g a → (x (nodeOf processors nnodes g)).mem a = mem g a)
    (globalArrays : ℕ → ℕ → GlobalArray) :
    Stands processors nnodes owns (startEnsemble mem globalArrays)
      fun q => initNode processors nnodes (x q) q :=
  ⟨start_represents hm x hmem globalArrays, fun _ _ _ _ => rfl⟩

theorem stands_run_along (hm : Mapped processors nnodes) (hp : processors ≤ 2 ^ 31)
    (hown : Private processors nnodes owns) {program rest : List (ℕ → List ContextOp)}
    {steps : List (ℕ → NodeStep)} (hsteps : List.Forall₂ (Takes processors nnodes) program steps)
    {m : Ensemble} {w : ℕ → Node} (h : Stands processors nnodes owns m w)
    (hsafe : (machine processors owns).Safe (program ++ rest) m) :
    Along (superstep processors nnodes) (Orderly processors nnodes) steps w ∧
      ∀ w', run (superstep processors nnodes) steps w = some w' →
        ∃ es m', (machine processors owns).Outcome program m es m' ∧
          Stands processors nnodes owns m' w' ∧ (machine processors owns).Safe rest m' := by
  refine Chooser.safe_along (fun ops steps m w ht h hasks => ?_) hsteps h hsafe
  obtain ⟨u, calls, live', ha⟩ := hasks
  exact ⟨stands_orderly hm hown h ha ht, fun w' hs => stands_next hm hown h ha ht hp hs⟩

end Programs

section Example

def threaded (ops : ℕ → List ContextOp) (schedule : ℕ → List ℕ) (q : ℕ) : NodeStep :=
  { ops := fun lp => ops (globalOf 3 2 q lp)
    schedule := schedule q
    pointer := fun _ => 0
    fresh := fun _ => ⟨0, 0, 0, false⟩ }

def ringSchedules : List (ℕ → List ℕ) :=
  [fun q => if q = 0 then [0, 1, 0, 0, 0, 1, 1, 1, 1, 0, 0, 0, 0, 1, 1, 1] else List.replicate 8 0,
   fun q =>
    if q = 0 then [1, 1, 0, 1, 0, 1, 0, 1, 1, 0, 0, 0, 1, 1, 1] else List.replicate 12 0,
   fun q => if q = 0 then List.replicate 16 0 else []]

def ringSteps : List (ℕ → NodeStep) := (ring.zip ringSchedules).map fun e => threaded e.1 e.2

theorem ringSteps_takes : List.Forall₂ (Takes 3 2) ring ringSteps :=
  .cons (fun _ _ _ _ => rfl) (.cons (fun _ _ _ _ => rfl) (.cons (fun _ _ _ _ => rfl) .nil))

def ringNodes (q : ℕ) : Node := initNode 3 2 ContextProgram.sampleStart q

def firstStep : ℕ → NodeStep :=
  threaded (fun g => [.pushReg (1000 * g) 8, .setTagsize 1]) fun q => if q = 0 then
    [0, 1, 0, 0, 0, 1, 1, 1, 1, 0, 0, 0, 0, 1, 1, 1] else List.replicate 8 0

def secondStep : ℕ → NodeStep :=
  threaded (fun g => [.put ((g + 1) % 3) (1000 * g + 100) (1000 * g) 0 4,
    .send 0 (1000 * g + 200) (1000 * g + 201) 2]) fun _ => []

end Example

end BspOnMpi.ContextSchedules
