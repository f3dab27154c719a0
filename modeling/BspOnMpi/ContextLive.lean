import BspOnMpi.ContextMemreg
import Mathlib.Data.List.Nodup

/-! Live registrations. What a context holds between two positions of the request queues: the rows
of its register that are not marked, and the entries of its map, are the live registrations. A
position at which all contexts agree takes all of them from one list of live registrations to the
next. -/

namespace BspOnMpi.ContextLive
open Lib Exptable Memreg Mapper ContextMemreg
open Bspx (intToUInt32)

/-- A collective registration: the address of every context, size and serial. -/
structure Live where
  row : Row
  nbytes : ℕ
  serial : ℕ

def Live.entry (l : Live) : MapEntry :=
  { pointers := l.row, nbytes := l.nbytes, serial := l.serial }

/-- Context `g` holds the live registrations `L`, some rows may be marked. -/
structure Processing (processors g lp : ℕ) (L : List Live) (c : ContextReg) : Prop where
  pid : c.globalPid = g
  localPid : c.localPid = lp
  table : ∃ rs, Marked c.memoryRegister rs ∧ liveRows c.memoryRegister rs = L.map Live.row
  nprocs : c.memoryRegister.nprocs = processors
  srcProc : c.memoryRegister.info.memoizedSrcProc = g
  nodup : (L.map fun l => l.row g).Nodup
  map : ∀ x, c.memoryRegisterMap x = (L.find? fun l => l.row g = x).map Live.entry
  requests : c.regRequests = []

section Context

variable {processors g lp : ℕ} {L : List Live} {c : ContextReg}

theorem map_isSome (h : Processing processors g lp L c) (x : ℕ) :
    (c.memoryRegisterMap x).isSome ↔ ∃ l ∈ L, l.row g = x := by
  rw [h.map]
  simp

theorem map_live (h : Processing processors g lp L c) {l : Live} (hl : l ∈ L) :
    c.memoryRegisterMap (l.row g) = some l.entry := by
  obtain ⟨xs, ys, rfl⟩ := List.append_of_mem hl
  have hnodup := h.nodup
  rw [List.map_append, List.map_cons, List.nodup_middle, List.nodup_cons] at hnodup
  rw [h.map, List.find?_append]
  have hnone : xs.find? (fun m => m.row g = l.row g) = none := by
    apply List.find?_eq_none.mpr
    intro m hm
    have hne : m.row g ≠ l.row g := by
      intro heq
      exact hnodup.1 (List.mem_append_left _ (List.mem_map.mpr ⟨m, hm, heq⟩))
    simpa using hne
  simp [hnone]

theorem live_injective (h : Processing processors g lp L c) {l m : Live} (hl : l ∈ L) (hm : m ∈ L)
    (heq : l.row g = m.row g) : l = m :=
  List.inj_on_of_nodup_map h.nodup hl hm heq

theorem rowPushes_filter {r : Row} {col : ℕ} (hcol : col < processors) :
    (((List.range processors).map fun gp => (gp, r gp)).filter fun e => e.1 = col).map Prod.snd =
      [r col] := by
  rw [List.filter_map, List.map_map]
  have hfilter : (List.range processors).filter
      ((fun e : ℕ × ℕ => decide (e.1 = col)) ∘ fun gp => (gp, r gp)) = [col] := by
    have hcomp : ((fun e : ℕ × ℕ => decide (e.1 = col)) ∘ fun gp => (gp, r gp)) =
        fun gp => gp == col := rfl
    rw [hcomp, List.filter_beq, List.count_eq_one_of_mem List.nodup_range (List.mem_range.mpr hcol)]
    rfl
  rw [hfilter]
  rfl

theorem pushRow_marked {t : MemoryRegister} {rs : List Row} (h : Marked t rs)
    (hn : t.nprocs = processors) (hpos : 0 < processors) (r : Row) :
    let u := pushAll t ((List.range processors).map fun gp => (gp, r gp))
    Marked u (rs ++ [r]) ∧ liveRows u (rs ++ [r]) = liveRows t rs ++ [r] ∧
      u.nprocs = processors ∧ u.info.memoizedSrcProc = t.info.memoizedSrcProc := by
  have hps : ∀ e ∈ (List.range processors).map fun gp => (gp, r gp), e.1 < t.nprocs := by
    intro e he
    obtain ⟨gp, hgp, rfl⟩ := List.mem_map.mp he
    rw [hn]
    exact List.mem_range.mp hgp
  obtain ⟨hmarked, hlive, hun, -, hsrc⟩ := pushRows_marked h (by omega) hps fun col hcol =>
    show _ = columns [r] col from rowPushes_filter (lt_of_lt_of_eq hcol hn)
  exact ⟨hmarked, hlive, hun.trans hn, hsrc⟩

def pushed (processors : ℕ) (requests : ℕ → RegReq) (size serial : ℕ) : Live :=
  { row := below processors fun gp => (requests gp).data, nbytes := size, serial := serial }

theorem pushRegister_spec (h : Processing processors g lp L c) (hpos : 0 < processors) {l : Live}
    (hfresh : ∀ m ∈ L, m.row g ≠ l.row g) :
    ∃ c', pushRegister processors c (l.row g) l.entry = some c' ∧
      Processing processors g lp (L ++ [l]) c' := by
  have hnone : c.memoryRegisterMap (l.row g) = none := by
    rw [← Option.not_isSome_iff_eq_none, map_isSome h]
    rintro ⟨m, hm, heq⟩
    exact hfresh m hm heq
  obtain ⟨rs, hmarked, hlive⟩ := h.table
  obtain ⟨h1, h2, h3, h4⟩ := pushRow_marked hmarked h.nprocs hpos l.row
  refine ⟨{ c with
      memoryRegisterMap := Function.update c.memoryRegisterMap (l.row g) (some l.entry)
      memoryRegister := pushAll c.memoryRegister
        ((List.range processors).map fun gp => (gp, l.row gp)) },
    by simp [pushRegister, hnone, Live.entry], h.pid, h.localPid, ⟨rs ++ [l.row], h1, ?_⟩, h3,
    h4.trans h.srcProc, ?_, fun x => ?_, h.requests⟩
  · rw [h2, hlive, List.map_append, List.map_singleton]
  · rw [List.map_append, List.map_singleton]
    apply List.Nodup.append h.nodup (List.nodup_singleton _)
    intro a ha hb
    obtain ⟨m, hm, rfl⟩ := List.mem_map.mp ha
    exact hfresh m hm (List.mem_singleton.mp hb)
  · show Function.update c.memoryRegisterMap (l.row g) (some l.entry) x = _
    rw [List.find?_append]
    by_cases hx : x = l.row g
    · subst hx
      have hfind : L.find? (fun m => m.row g = l.row g) = none :=
        List.find?_eq_none.mpr fun m hm => by simpa using hfresh m hm
      rw [Function.update_self, hfind]
      simp
    · rw [Function.update_of_ne hx, h.map]
      have hl : ¬ l.row g = x := fun heq => hx heq.symm
      simp [hl]

theorem popRegister_spec {xs ys : List Live} {l : Live}
    (h : Processing processors g lp (xs ++ l :: ys) c) (hg : g < processors) :
    ∃ c', popRegister c (l.row g) = some c' ∧ Processing processors g lp (xs ++ ys) c' := by
  have hsome : c.memoryRegisterMap (l.row g) = some l.entry := map_live h (by simp)
  have hnodup := h.nodup
  rw [List.map_append, List.map_cons, List.nodup_middle, List.nodup_cons,
    ← List.map_append] at hnodup
  have hother : ∀ m ∈ xs ++ ys, m.row g ≠ l.row g := by
    intro m hm heq
    exact hnodup.1 (List.mem_map.mpr ⟨m, hm, heq⟩)
  obtain ⟨rs, hmarked, hlive⟩ := h.table
  obtain ⟨t, ht, h1, h2, h3, -, -, h4⟩ := pop_spec hmarked (show g < _ by rw [h.nprocs]; exact hg)
    (show ∃ r ∈ liveRows c.memoryRegister rs, r g = l.row g by
      rw [hlive]; exact ⟨l.row, by simp, rfl⟩)
  refine ⟨{ c with
      memoryRegister := t
      memoryRegisterMap := Function.update c.memoryRegisterMap (l.row g) none }, ?_,
    h.pid, h.localPid, ⟨rs, h1, ?_⟩, h3.trans h.nprocs, h4.trans h.srcProc, hnodup.2, fun x => ?_,
    h.requests⟩
  · simp [popRegister, h.pid, ht, hsome]
  · rw [h2, hlive, List.map_append, List.map_cons, List.map_append]
    apply eraseLast_split (by simp)
    intro r hr
    obtain ⟨m, hm, rfl⟩ := List.mem_map.mp hr
    simpa using hother m (List.mem_append_right _ hm)
  · show Function.update c.memoryRegisterMap (l.row g) none x = _
    by_cases hx : x = l.row g
    · subst hx
      have hfind : (xs ++ ys).find? (fun m => m.row g = l.row g) = none :=
        List.find?_eq_none.mpr fun m hm => by simpa using hother m hm
      rw [Function.update_self, hfind, Option.map_none]
    · have hl : ¬ l.row g = x := fun heq => hx heq.symm
      rw [Function.update_of_ne hx, h.map, List.find?_append, List.find?_append]
      simp [hl]

theorem pushRegister_fresh (h : Processing processors g lp L c) {x : ℕ} {e : MapEntry}
    {c' : ContextReg} (hpush : pushRegister processors c x e = some c') :
    ∀ l ∈ L, l.row g ≠ x := by
  intro l hl heq
  have hsome := (map_isSome h x).mpr ⟨l, hl, heq⟩
  rw [pushRegister, if_pos hsome] at hpush
  cases hpush

theorem popRegister_live (h : Processing processors g lp L c) {x : ℕ} {c' : ContextReg}
    (hpop : popRegister c x = some c') : ∃ l ∈ L, l.row g = x := by
  rw [← map_isSome h]
  obtain ⟨t, -, hrest⟩ := Option.bind_eq_some_iff.mp hpop
  by_contra hnone
  rw [Option.not_isSome_iff_eq_none] at hnone
  rw [hnone] at hrest
  cases hrest

end Context

/-- A position at which all contexts agree turns the live registrations `L` into `L'`. -/
inductive StepTo (processors : ℕ) (requests : ℕ → RegReq) : List Live → List Live → Prop
  | push {L : List Live} {size serial : ℕ} (h : Uniform processors requests true size serial)
    (hfresh : ∀ gp < processors, ∀ l ∈ L, l.row gp ≠ (requests gp).data) :
    StepTo processors requests L (L ++ [pushed processors requests size serial])
  | pop {xs ys : List Live} {l : Live} {size serial : ℕ}
    (h : Uniform processors requests false size serial)
    (hdata : ∀ gp < processors, l.row gp = (requests gp).data) :
    StepTo processors requests (xs ++ l :: ys) (xs ++ ys)

section Position

variable {processors : ℕ} {requests : ℕ → RegReq} {L L' : List Live}

theorem stepTo_uniform (h : StepTo processors requests L L') :
    ∃ push size serial, Uniform processors requests push size serial := by
  cases h with
  | push h hfresh => exact ⟨_, _, _, h⟩
  | pop h hdata => exact ⟨_, _, _, h⟩

theorem applyRequest_spec (h : StepTo processors requests L L') {push : Bool} {size serial : ℕ}
    (hu : Uniform processors requests push size serial) {g lp : ℕ} (hg : g < processors)
    {c : ContextReg} (hc : Processing processors g lp L c) :
    ∃ c', applyRequest processors c ⟨serial, size, some push⟩ requests (requests g).data = some c' ∧
      Processing processors g lp L' c' := by
  obtain ⟨hu1, hu2, hu3⟩ := hu g hg
  cases h with
  | push h hfresh =>
    obtain ⟨h1, h2, h3⟩ := h g hg
    have hpush : push = true := hu1.symm.trans h1
    subst hpush
    have hrow : (pushed processors requests size serial).row g = (requests g).data := if_pos hg
    have hsame : ∀ s t, s = size → t = serial →
        pushed processors requests s t = pushed processors requests size serial := by
      rintro s t rfl rfl
      rfl
    rw [hsame _ _ (h2.symm.trans hu2) (h3.symm.trans hu3)]
    have hspec := pushRegister_spec hc (by omega) (l := pushed processors requests size serial)
      fun m hm => by rw [hrow]; exact hfresh g hg m hm
    rw [hrow] at hspec
    simpa [applyRequest, Live.entry, pushed] using hspec
  | pop h hdata =>
    have hpop : push = false := hu1.symm.trans (h g hg).1
    subst hpop
    rw [← hdata g hg]
    simpa [applyRequest] using popRegister_spec hc hg

structure NodeHolds (processors n : ℕ) (pidOf : ℕ → ℕ) (L : List Live) (cs : ℕ → ContextReg) :
    Prop where
  pid_lt : ∀ lp < n, pidOf lp < processors
  holds : ∀ lp < n, Processing processors (pidOf lp) lp L (cs lp)

theorem processRequest_spec {n : ℕ} {pidOf : ℕ → ℕ} {cs : ℕ → ContextReg} {myR : ℕ → RegReq}
    (h : StepTo processors requests L L') (hcs : NodeHolds processors n pidOf L cs)
    (hmy : ∀ lp < n, myR lp = requests (pidOf lp)) :
    ∃ cs', processRequest processors n requests myR cs = some cs' ∧
      NodeHolds processors n pidOf L' cs' := by
  obtain ⟨push, size, serial, hu⟩ := stepTo_uniform h
  have hrun : ∀ k ≤ n, ∃ st, run (processContext processors requests myR) (List.range k)
      (checkStart, cs) = some st ∧ (st.1 = checkStart ∨ st.1 = ⟨serial, size, some push⟩) ∧
      (∀ lp < k, Processing processors (pidOf lp) lp L' (st.2 lp)) ∧
      ∀ lp, k ≤ lp → st.2 lp = cs lp := by
    intro k
    induction k with
    | zero => exact fun _ => ⟨_, rfl, .inl rfl, fun lp hlp => by omega, fun _ _ => rfl⟩
    | succ k ih =>
      intro hk
      obtain ⟨st, hst, hcheck, hdone, hrest⟩ := ih (by omega)
      have hpid := hcs.pid_lt k (by omega)
      have hc := hcs.holds k (by omega)
      rw [← hrest k le_rfl] at hc
      obtain ⟨c', hc', hnew⟩ := applyRequest_spec h hu hpid hc
      have hdata : (myR (st.2 k).localPid).data = (requests (pidOf k)).data := by
        rw [hc.localPid, hmy k (by omega)]
      refine ⟨(⟨serial, size, some push⟩, Function.update st.2 k c'), ?_, .inr rfl,
        fun lp hlp => ?_, fun lp hlp => ?_⟩
      · rw [List.range_succ, run_append, hst, Option.bind_some]
        simp [run, processContext, check_uniform hu (by omega) hcheck, hdata, hc']
      · by_cases heq : lp = k
        · subst heq
          simpa using hnew
        · simpa [Function.update_of_ne heq] using hdone lp (by omega)
      · simpa [Function.update_of_ne (show lp ≠ k by omega)] using hrest lp (by omega)
  obtain ⟨st, hst, -, hdone, -⟩ := hrun n le_rfl
  exact ⟨st.2, congrArg (Option.map Prod.snd) hst, hcs.pid_lt, hdone⟩

end Position

inductive StepsTo (processors : ℕ) (request : ℕ → ℕ → RegReq) : ℕ → List Live → List Live → Prop
  | zero (L : List Live) : StepsTo processors request 0 L L
  | succ {k : ℕ} {L M L' : List Live} (h : StepsTo processors request k L M)
    (hstep : StepTo processors (request k) M L') : StepsTo processors request (k + 1) L L'

def requestAt (w : ℕ → ContextReg) (k gp : ℕ) : RegReq :=
  ((w gp).regRequests[k]?).getD { data := 0, size := 0, serial := 0, push := false }

/-- Context `g` between two synchronisations. -/
structure ContextInv (processors g lp : ℕ) (L : List Live) (c : ContextReg) : Prop where
  processing : Processing processors g lp L c
  registered : Registered c.memoryRegister (L.map Live.row) g

section Sync

variable {processors nnodes : ℕ} {L L' : List Live} {w : ℕ → ContextReg} {regReqSize : ℕ}

theorem uniform_congr {requests requests' : ℕ → RegReq}
    (heq : ∀ gp < processors, requests' gp = requests gp) {push : Bool} {size serial : ℕ}
    (h : Uniform processors requests push size serial) :
    Uniform processors requests' push size serial := by
  intro gp hgp
  rw [heq gp hgp]
  exact h gp hgp

theorem stepTo_congr {requests requests' : ℕ → RegReq}
    (heq : ∀ gp < processors, requests' gp = requests gp) (h : StepTo processors requests L L') :
    StepTo processors requests' L L' := by
  cases h with
  | push h hfresh =>
    have hrow : (below processors fun gp => (requests gp).data) =
        below processors fun gp => (requests' gp).data := by
      funext gp
      by_cases hgp : gp < processors
      · simp [below, hgp, heq gp hgp]
      · simp [below, hgp]
    rw [pushed, hrow]
    refine .push (uniform_congr heq h) fun gp hgp l hl => ?_
    rw [heq gp hgp]
    exact hfresh gp hgp l hl
  | pop h hdata =>
    refine .pop (uniform_congr heq h) fun gp hgp => ?_
    rw [heq gp hgp]
    exact hdata gp hgp

def SameCount (processors : ℕ) (w : ℕ → ContextReg) (regReqSize : ℕ) : Prop :=
  ∀ gp < processors, (w gp).regRequests.length = regReqSize

theorem requestOf_eq (h : Mapped processors nnodes) (fresh : ℕ → ℕ → RegReq)
    (hcount : SameCount processors w regReqSize) {gp k rank : ℕ} (hgp : gp < processors)
    (hrank : rank < nnodes) (hk : k < regReqSize) :
    requestOf processors nnodes fresh w regReqSize rank k gp = requestAt w k gp := by
  have hr : (w gp).regRequests[k]? = some (requestAt w k gp) := by
    have hlt : k < (w gp).regRequests.length := by rw [hcount gp hgp]; exact hk
    simp [requestAt, List.getElem?_eq_getElem hlt]
  simp only [requestOf, recvRequests, globalToNode_eq h _ hgp, globalToLocal_eq h _ hgp,
    procsPerNode_eq h]
  exact recv_request h fresh (fun gp hgp => (hcount gp hgp).le) hgp hrank hr

theorem ownRequest_eq (h : Mapped processors nnodes) (fresh : ℕ → ℕ → RegReq) (rank k lp : ℕ)
    (hlp : lp < (taskMapper processors nnodes rank).procsThisNode) :
    ownRequest processors nnodes fresh w regReqSize rank k lp =
      requestOf processors nnodes fresh w regReqSize rank k
        (rank * icd processors nnodes + lp) := by
  obtain ⟨h1, h2, h3⟩ := local_global h hlp
  simp only [ownRequest, requestOf, globalToNode_eq h _ h1, globalToLocal_eq h _ h1, h2, h3]

theorem nodeHolds_start (h : Mapped processors nnodes)
    (hw : ∀ gp < processors, Processing processors gp (gp % icd processors nnodes) L
      (takeRequests (w gp))) (rank : ℕ) :
    NodeHolds processors (taskMapper processors nnodes rank).procsThisNode
      (fun lp => rank * icd processors nnodes + lp) L
      fun lp => takeRequests ((taskMapper processors nnodes rank).getContext w rank lp) := by
  refine ⟨fun lp hlp => (local_global h hlp).1, fun lp hlp => ?_⟩
  obtain ⟨h1, -, h3⟩ := local_global h hlp
  have hp := hw _ h1
  rw [h3] at hp
  rw [getContext_eq h w hlp]
  exact hp

theorem processRequests_run {n : ℕ} {pidOf : ℕ → ℕ} {request request' myR : ℕ → ℕ → RegReq}
    {cs : ℕ → ContextReg} {k : ℕ} (hsteps : StepsTo processors request k L L')
    (hrequest : ∀ i < k, ∀ gp < processors, request' i gp = request i gp)
    (hmy : ∀ i lp, lp < n → myR i lp = request' i (pidOf lp))
    (hcs : NodeHolds processors n pidOf L cs) :
    ∃ cs', run (fun req => processRequest processors n (request' req) (myR req)) (List.range k) cs =
      some cs' ∧ NodeHolds processors n pidOf L' cs' := by
  induction hsteps with
  | zero L => exact ⟨cs, rfl, hcs⟩
  | @succ k L M M' hM hstep ih =>
    obtain ⟨cs', hcs', hholds⟩ := ih (fun i hi => hrequest i (by omega)) hcs
    obtain ⟨cs'', hcs'', hholds'⟩ := processRequest_spec
      (stepTo_congr (hrequest k (by omega)) hstep) hholds (hmy k)
    refine ⟨cs'', ?_, hholds'⟩
    rw [List.range_succ, run_append, hcs', Option.bind_some, run, hcs'']
    rfl

theorem pack_inv {g lp : ℕ} {c : ContextReg} (h : Processing processors g lp L c)
    (hg : g < processors) :
    ContextInv processors g lp L
      { c with memoryRegister := memoryRegisterPack c.memoryRegister } := by
  obtain ⟨rs, hmarked, hlive⟩ := h.table
  have hpack := pack_registered hmarked h.srcProc (by rw [h.nprocs]; exact hg)
  rw [hlive] at hpack
  exact ⟨⟨h.pid, h.localPid, ⟨_, hpack.marked, registered_live hpack⟩, h.nprocs, h.srcProc, h.nodup,
    h.map, h.requests⟩, hpack⟩

theorem processMemoryregOps_spec (h : Mapped processors nnodes) (fresh : ℕ → ℕ → RegReq)
    (hcount : SameCount processors w regReqSize)
    (hw : ∀ gp < processors, Processing processors gp (gp % icd processors nnodes) L
      (takeRequests (w gp)))
    (hsteps : StepsTo processors (requestAt w) regReqSize L L') {rank : ℕ} (hrank : rank < nnodes) :
    ∃ cs, processMemoryregOps processors nnodes fresh w regReqSize rank = some cs ∧
      ∀ lp < (taskMapper processors nnodes rank).procsThisNode,
        ContextInv processors (rank * icd processors nnodes + lp) lp L' (cs lp) := by
  obtain ⟨cs', hcs', hholds⟩ := processRequests_run hsteps
    (fun k hk gp hgp => requestOf_eq h fresh hcount hgp hrank hk)
    (fun k lp hlp => ownRequest_eq h fresh rank k lp hlp) (nodeHolds_start h hw rank)
  refine ⟨fun lp => { cs' lp with memoryRegister := memoryRegisterPack (cs' lp).memoryRegister },
    ?_, fun lp hlp => pack_inv (hholds.holds lp hlp) (hholds.pid_lt lp hlp)⟩
  have hn := taskMapper_nprocs h rank
  simp only [processMemoryregOps, hn]
  exact congrArg (Option.map _) hcs'

theorem nodeReqSize_common {node : ℕ}
    (hlen : ∀ lp < (taskMapper processors nnodes node).procsThisNode,
      ((taskMapper processors nnodes node).getContext w node lp).regRequests.length = regReqSize) :
    nodeReqSize processors nnodes w node = some
      (if 0 < (taskMapper processors nnodes node).procsThisNode then regReqSize else 0) := by
  let n := (taskMapper processors nnodes node).procsThisNode
  have hrun : ∀ k ≤ n, run (fun lp => commonSize
      ((taskMapper processors nnodes node).getContext w node lp).regRequests.length)
      (List.range k) none = some (if 0 < k then some regReqSize else none) := by
    intro k
    induction k with
    | zero => exact fun _ => rfl
    | succ k ih =>
      intro hk
      rw [List.range_succ, run_append, ih (by omega), Option.bind_some, if_pos (Nat.succ_pos k),
        run, hlen k (by omega)]
      by_cases hk0 : 0 < k
      · simp [commonSize, run, hk0]
      · simp [commonSize, run, hk0]
  rw [nodeReqSize, hrun n le_rfl, Option.map_some]
  by_cases hn : 0 < n
  · rw [if_pos hn, if_pos hn, Option.getD_some]
  · rw [if_neg hn, if_neg hn]
    rfl

theorem nodeReqSize_spec (h : Mapped processors nnodes) (hcount : SameCount processors w regReqSize)
    (node : ℕ) : nodeReqSize processors nnodes w node = some
      (if 0 < (taskMapper processors nnodes node).procsThisNode then regReqSize else 0) := by
  refine nodeReqSize_common fun lp hlp => ?_
  rw [getContext_eq h w hlp]
  exact hcount _ (local_global h hlp).1

theorem even_of_count (h : Mapped processors nnodes) (hcount : SameCount processors w regReqSize) :
    ∀ q < nnodes, (nodeReqSize processors nnodes w q).isSome :=
  fun q _ => by rw [nodeReqSize_spec h hcount]; rfl

theorem first_contexts (h : Mapped processors nnodes) :
    0 < (taskMapper processors nnodes 0).procsThisNode :=
  Nat.zero_lt_of_lt (globalToLocal_lt h 0 h.processors_pos (Nat.zero_div _))

theorem memregSize_largest (hfew : ∀ p < nnodes, nodeSize processors nnodes w p < 2 ^ 27)
    {node : ℕ} (hnode : node < nnodes) :
    memregSize processors nnodes w node = largest (nodeSize processors nnodes w) nnodes := by
  have hsent : ∀ p < nnodes, intToUInt32 (packSize (nodeSize processors nnodes w p)) / 16 =
      nodeSize processors nnodes w p := by
    intro p hp
    have hp := hfew p hp
    rw [intToUInt32_packSize, Nat.mod_eq_of_lt (by omega), Nat.mul_div_cancel _ (by decide)]
  rw [memregSize, maxReqSize_eq hnode hfew hsent]

theorem nodeSize_spec (h : Mapped processors nnodes) (hcount : SameCount processors w regReqSize)
    (node : ℕ) : nodeSize processors nnodes w node =
      if 0 < (taskMapper processors nnodes node).procsThisNode then regReqSize else 0 := by
  rw [nodeSize, nodeReqSize_spec h hcount, Option.getD_some]

theorem memregSize_spec (h : Mapped processors nnodes) (hcount : SameCount processors w regReqSize)
    (hfew : regReqSize < 2 ^ 27) {node : ℕ} (hnode : node < nnodes) :
    memregSize processors nnodes w node = regReqSize := by
  have hle : ∀ p, nodeSize processors nnodes w p ≤ regReqSize := by
    intro p
    rw [nodeSize_spec h hcount]
    split
    · exact le_rfl
    · exact Nat.zero_le _
  have hfirst : nodeSize processors nnodes w 0 = regReqSize := by
    rw [nodeSize_spec h hcount, if_pos (first_contexts h)]
  have hlow := le_largest (nodeSize processors nnodes w) h.nnodes_pos
  have hhigh : largest (nodeSize processors nnodes w) nnodes < regReqSize + 1 :=
    largest_lt (Nat.succ_pos regReqSize) fun p _ => Nat.lt_succ_of_le (hle p)
  rw [memregSize_largest (fun p _ => Nat.lt_of_le_of_lt (hle p) hfew) hnode]
  omega

theorem memregSize_large (h : Mapped processors nnodes) (hcount : SameCount processors w regReqSize)
    (hmany : 2 ^ 27 ≤ regReqSize) (hmax : regReqSize ≤ maxRegisterReqs) {node : ℕ}
    (hthis : 0 < (taskMapper processors nnodes node).procsThisNode) :
    memregSize processors nnodes w node = regReqSize - 2 ^ 28 := by
  rw [memregSize, nodeSize_spec h hcount, if_pos hthis]
  refine maxReqSize_large hmany hmax fun p _ => ?_
  rw [intToUInt32_packSize, Nat.mul_div_cancel _ (by decide)]
  exact Nat.mod_lt _ (by decide)

theorem large_unprocessed (h : Mapped processors nnodes)
    (hcount : SameCount processors w regReqSize)
    (hmany : 2 ^ 27 ≤ regReqSize) (hmax : regReqSize ≤ maxRegisterReqs) {fresh : ℕ → ℕ → RegReq}
    {w' : ℕ → ContextReg} (hs : syncMemoryreg processors nnodes fresh w = some w') : w' = w := by
  rcases syncMemoryreg_cases h hs with ⟨-, hsame⟩ | ⟨size, hsize, hsizes, -⟩
  · exact hsame
  · have hbound : regReqSize < 2 ^ 28 := Nat.lt_of_le_of_lt hmax (by decide)
    have hnegative := memregSize_large h hcount hmany hmax (first_contexts h)
    have hpositive := hsizes 0 h.nnodes_pos
    omega

theorem large_skips (h : Mapped processors nnodes) (hcount : SameCount processors w regReqSize)
    (hmany : 2 ^ 27 ≤ regReqSize) (hmax : regReqSize ≤ maxRegisterReqs)
    (hnodes : ∀ q < nnodes, 0 < (taskMapper processors nnodes q).procsThisNode) :
    Skips processors nnodes w := by
  have hbound : regReqSize < 2 ^ 28 := Nat.lt_of_le_of_lt hmax (by decide)
  refine ⟨even_of_count h hcount, fun q hq => ?_⟩
  rw [memregSize_large h hcount hmany hmax (hnodes q hq)]
  omega

theorem skips_empty (h : Mapped processors nnodes)
    (hnone : ∀ gp < processors, (w gp).regRequests = []) :
    Skips processors nnodes w := by
  have hcount : SameCount processors w 0 := fun gp hgp => by rw [hnone gp hgp]; rfl
  exact ⟨even_of_count h hcount, fun q hq => (memregSize_spec h hcount (by decide) hq).le⟩

theorem skips_congr (h : Mapped processors nnodes) {w' : ℕ → ContextReg}
    (heq : ∀ gp < processors, (w' gp).regRequests.length = (w gp).regRequests.length)
    (hw : Skips processors nnodes w) : Skips processors nnodes w' := by
  have hsize : nodeReqSize processors nnodes w' = nodeReqSize processors nnodes w := by
    funext node
    rw [nodeReqSize, nodeReqSize]
    refine congrArg (Option.map _) (run_congr (fun lp hlp size => ?_) _)
    rw [getContext_eq h w' (List.mem_range.mp hlp), getContext_eq h w (List.mem_range.mp hlp),
      heq _ (local_global h (List.mem_range.mp hlp)).1]
  refine ⟨fun q hq => ?_, fun q hq => ?_⟩
  · rw [hsize]
    exact hw.even q hq
  · simp only [memregSize, nodeSize, hsize]
    exact hw.size q hq

/-- The registration part of a synchronisation, when all contexts agree on every position. -/
theorem syncMemoryreg_spec (h : Mapped processors nnodes) (fresh : ℕ → ℕ → RegReq)
    (hcount : SameCount processors w regReqSize) (hfew : regReqSize < 2 ^ 27)
    (hw : ∀ gp < processors, Processing processors gp (gp % icd processors nnodes) L
      (takeRequests (w gp)))
    (hreg : ∀ gp < processors, Registered (w gp).memoryRegister (L.map Live.row) gp)
    (hsteps : StepsTo processors (requestAt w) regReqSize L L') :
    ∃ w', syncMemoryreg processors nnodes fresh w = some w' ∧
      ∀ gp < processors, ContextInv processors gp (gp % icd processors nnodes) L' (w' gp) := by
  have heven := even_of_count h hcount
  have hsizes := fun (q : ℕ) (hq : q < nnodes) => memregSize_spec h hcount hfew hq
  by_cases hpos : 0 < regReqSize
  · have hspec := fun (rank : ℕ) (hrank : rank < nnodes) =>
      processMemoryregOps_spec h fresh hcount hw hsteps hrank
    obtain ⟨w', hw'⟩ := syncMemoryreg_defined fun q hq => by
      obtain ⟨cs, hcs, -⟩ := hspec q hq
      exact ⟨cs, (memregAt_process heven hpos hq hsizes).trans hcs⟩
    refine ⟨w', hw', fun gp hgp => ?_⟩
    have hq := node_lt h hgp
    obtain ⟨cs, hcs, hinv⟩ := hspec _ hq
    obtain ⟨cs', hcs', hlocal⟩ := syncMemoryreg_at h hw' hq
    cases hcs'.symm.trans ((memregAt_process heven hpos hq hsizes).trans hcs)
    have hlt := mod_lt_procs h hgp
    have hdm := Nat.div_add_mod' gp (icd processors nnodes)
    have hi := hinv _ hlt
    rw [← hlocal _ hlt, hdm] at hi
    exact hi
  · have h0 : regReqSize = 0 := by omega
    subst h0
    cases hsteps
    refine ⟨w, syncMemoryreg_skips h ⟨heven, fun q hq => (hsizes q hq).le⟩ fresh, fun gp hgp => ?_⟩
    have hempty : takeRequests (w gp) = w gp := by
      have hnil : (w gp).regRequests = [] := List.length_eq_zero_iff.mp (hcount gp hgp)
      rw [takeRequests, ← hnil]
    have hp := hw gp hgp
    rw [hempty] at hp
    exact ⟨hp, hreg gp hgp⟩

end Sync

end BspOnMpi.ContextLive
