import BspOnMpi.Drma

/-! Registration. Registrations are pushed and popped by all processors in the same order. In
program order the register is a list from which a pop takes the last row with the given address.
`bspx_sync` executes all pushes of a superstep before the pops; both orders leave the same rows as
long as no address is popped and then pushed again for good. -/

namespace BspOnMpi.Registration
open Lib Exptable Memreg Slots Machine Bspx Calls BspxSync Superstep

inductive RegOp
  | push (r : Row)
  | pop (a : Row)

def RegOp.call (p : ℕ) : RegOp → Call
  | .push r => .pushReg (r p)
  | .pop a => .popReg (a p)

def regCalls (cs : List Call) : List Call :=
  cs.filter fun
    | .pushReg _ | .popReg _ => true
    | _ => false

/-- In program order the calls `ro` turn the live rows `L` into `L'`, every pop
naming on all processors the same last row. -/
inductive Live (n : ℕ) : List Row → List RegOp → List Row → Prop
  | nil (L : List Row) : Live n L [] L
  | push {L L' : List Row} {r : Row} {ro : List RegOp} (h : Live n (L ++ [below n r]) ro L') :
    Live n L (.push r :: ro) L'
  | pop {xs ys L' : List Row} {r a : Row} {ro : List RegOp} (hr : ∀ p < n, r p = a p)
    (hys : ∀ p < n, ∀ y ∈ ys, y p ≠ a p) (h : Live n (xs ++ ys) ro L') :
    Live n (xs ++ r :: ys) (.pop a :: ro) L'

/-- A call as processor `p` sees it: the register of one processor is a stack for
every address. -/
def stackStep (n p : ℕ) (L : List Row) : RegOp → List Row
  | .push r => L ++ [below n r]
  | .pop a => eraseLast (fun r => r p = a p) L

def survivors (n p : ℕ) (ro : List RegOp) : List Row := ro.foldl (stackStep n p) []

/-- No processor pops an address and then pushes it in a registration that survives. -/
def NoRepush (n : ℕ) : List RegOp → Prop
  | [] => True
  | .push _ :: ro => NoRepush n ro
  | .pop a :: ro => (∀ p < n, ∀ r ∈ survivors n p ro, r p ≠ a p) ∧ NoRepush n ro

def pushedRows (n : ℕ) (ro : List RegOp) : List Row :=
  ro.filterMap fun
    | .push r => some (below n r)
    | .pop _ => none

def poppedAddresses (p : ℕ) (ro : List RegOp) : List ℕ :=
  ro.filterMap fun
    | .push _ => none
    | .pop a => some (a p)

section Orders

variable {n p : ℕ}

theorem popRows_comm (rs : List Row) (as : List ℕ) (a : ℕ) :
    popRows p (eraseLast (fun r => r p = a) rs) as =
      eraseLast (fun r => r p = a) (popRows p rs as) := by
  induction as generalizing rs with
  | nil => rfl
  | cons b as ih =>
    simp only [popRows, List.foldl_cons] at ih ⊢
    rw [← ih]
    by_cases hab : a = b
    · rw [hab]
    · rw [eraseLast_comm]
      intro r _
      simp only [decide_eq_true_eq]
      omega

def unmatched (n p : ℕ) : List Row → List RegOp → List ℕ
  | _, [] => []
  | N, .push r :: ro => unmatched n p (N ++ [below n r]) ro
  | N, .pop a :: ro =>
    if ∃ r ∈ N, r p = a p then unmatched n p (eraseLast (fun r => r p = a p) N) ro
    else a p :: unmatched n p N ro

theorem stack_append (M N : List Row) (ro : List RegOp) :
    ro.foldl (stackStep n p) (M ++ N) =
      popRows p M (unmatched n p N ro) ++ ro.foldl (stackStep n p) N := by
  induction ro generalizing M N with
  | nil => rfl
  | cons op ro ih =>
    cases op with
    | push r =>
      simp only [List.foldl_cons, stackStep, unmatched, List.append_assoc]
      exact ih M _
    | pop a =>
      simp only [List.foldl_cons, stackStep, unmatched]
      by_cases hN : ∃ r ∈ N, r p = a p
      · rw [if_pos hN, eraseLast_append_of_mem M (by simpa using hN)]
        exact ih M _
      · have hnone : ∀ r ∈ N, decide (r p = a p) = false := by
          intro r hr
          simp only [decide_eq_false_iff_not]
          exact fun h => hN ⟨r, hr, h⟩
        rw [if_neg hN, eraseLast_append_of_not M hnone, eraseLast_none hnone]
        exact ih _ N

theorem stack_pop_last (M : List Row) {ro : List RegOp} {a : ℕ}
    (h : ∀ r ∈ survivors n p ro, r p ≠ a) :
    ro.foldl (stackStep n p) (eraseLast (fun r => r p = a) M) =
      eraseLast (fun r => r p = a) (ro.foldl (stackStep n p) M) := by
  have h1 := stack_append (n := n) (p := p) (eraseLast (fun r => r p = a) M) [] ro
  have h2 := stack_append (n := n) (p := p) M [] ro
  rw [List.append_nil] at h1 h2
  rw [h1, h2, popRows_comm, eraseLast_append_of_not]
  intro r hr
  simpa using h r hr

theorem pushes_first (hp : p < n) {ro : List RegOp} (h : NoRepush n ro) (L : List Row) :
    popRows p (L ++ pushedRows n ro) (poppedAddresses p ro) = ro.foldl (stackStep n p) L := by
  induction ro generalizing L with
  | nil => simp [pushedRows, poppedAddresses, popRows]
  | cons op ro ih =>
    cases op with
    | push r =>
      have hi := ih h (L ++ [below n r])
      rw [List.append_assoc] at hi
      exact hi
    | pop a =>
      have hi := ih h.2 L
      have hpop : popRows p (L ++ pushedRows n ro) (a p :: poppedAddresses p ro) =
          popRows p (eraseLast (fun r => r p = a p) (L ++ pushedRows n ro))
            (poppedAddresses p ro) := rfl
      show popRows p (L ++ pushedRows n ro) (a p :: poppedAddresses p ro) = _
      rw [hpop, popRows_comm, hi, ← stack_pop_last L (h.1 p hp)]
      rfl

theorem live_stack {L L' : List Row} {ro : List RegOp} (h : Live n L ro L') (hp : p < n) :
    ro.foldl (stackStep n p) L = L' ∧
      L'.length + (poppedAddresses p ro).length = L.length + (pushedRows n ro).length := by
  induction h with
  | nil L => exact ⟨rfl, rfl⟩
  | push h ih =>
    refine ⟨ih.1, ?_⟩
    have hlen := ih.2
    simp only [poppedAddresses, pushedRows, List.filterMap_cons, List.length_append,
      List.length_cons, List.length_nil] at hlen ⊢
    omega
  | pop hr hys h ih =>
    constructor
    · rw [List.foldl_cons, stackStep, eraseLast_split (by simpa using hr p hp)
        (by simpa using hys p hp)]
      exact ih.1
    · have hlen := ih.2
      simp only [poppedAddresses, pushedRows, List.filterMap_cons, List.length_append,
        List.length_cons] at hlen ⊢
      omega

theorem popRows_length_le (rs : List Row) (as : List ℕ) :
    rs.length ≤ (popRows p rs as).length + as.length := by
  induction as generalizing rs with
  | nil => exact le_rfl
  | cons a as ih =>
    have h1 := ih (eraseLast (fun r => r p = a) rs)
    have h2 := eraseLast_length_le (fun r : Row => decide (r p = a)) rs
    simp only [popRows, List.foldl_cons, List.length_cons] at h1 ⊢
    omega

theorem poppable_of_length {rs : List Row} {as : List ℕ}
    (h : (popRows p rs as).length + as.length = rs.length) : Poppable p rs as := by
  induction as generalizing rs with
  | nil => trivial
  | cons a as ih =>
    have h1 := popRows_length_le (p := p) (eraseLast (fun r => r p = a) rs) as
    have h2 := eraseLast_length_le (fun r : Row => decide (r p = a)) rs
    simp only [popRows, List.foldl_cons, List.length_cons] at h h1
    by_cases hex : ∃ r ∈ rs, r p = a
    · have h3 := eraseLast_length_of_mem (p := fun r : Row => decide (r p = a)) (by simpa using hex)
      exact ⟨hex, ih (by simp only [popRows]; omega)⟩
    · rw [eraseLast_eq_of_not_mem (by simpa using hex)] at h h1
      omega

end Orders

structure CollectiveRegs (n : ℕ) (L : List Row) (cs : ℕ → List Call) (ro : List RegOp)
    (L' : List Row) : Prop where
  calls : ∀ p < n, regCalls (cs p) = ro.map (RegOp.call p)
  live : Live n L ro L'

section Calls

variable {n : ℕ} {L L' : List Row} {cs : ℕ → List Call} {ro : List RegOp}

theorem pushes_regCalls (cs : List Call) : pushes (regCalls cs) = pushes cs := by
  induction cs with
  | nil => rfl
  | cons c cs ih => cases c <;> simpa [regCalls, pushes] using ih

theorem pops_regCalls (cs : List Call) : pops (regCalls cs) = pops cs := by
  induction cs with
  | nil => rfl
  | cons c cs ih => cases c <;> simpa [regCalls, pops] using ih

theorem pops_ops (p : ℕ) (ro : List RegOp) :
    pops (ro.map (RegOp.call p)) = poppedAddresses p ro := by
  induction ro with
  | nil => rfl
  | cons op ro ih => cases op <;> simpa [RegOp.call, pops, poppedAddresses] using ih

theorem pushes_ops {p : ℕ} (hp : p < n) (ro : List RegOp) :
    pushes (ro.map (RegOp.call p)) = (pushedRows n ro).map fun r => r p := by
  induction ro with
  | nil => rfl
  | cons op ro ih => cases op <;> simpa [RegOp.call, pushes, pushedRows, below, hp] using ih

theorem pushedRows_below (ro : List RegOp) : ∀ r ∈ pushedRows n ro, below n r = r := by
  intro r hr
  obtain ⟨op, -, hop⟩ := List.mem_filterMap.mp hr
  cases op with
  | push s =>
    cases hop
    funext p
    simp only [below]
    split <;> rfl
  | pop a => cases hop

theorem collective_pushes (h : CollectiveRegs n L cs ro L') {p : ℕ} (hp : p < n) :
    pushes (cs p) = (pushedRows n ro).map fun r => r p := by
  rw [← pushes_regCalls, h.calls p hp, pushes_ops hp]

theorem collective_pops (h : CollectiveRegs n L cs ro L') {p : ℕ} (hp : p < n) :
    pops (cs p) = poppedAddresses p ro := by
  rw [← pops_regCalls, h.calls p hp, pops_ops]

theorem collective_newRows (h : CollectiveRegs n L cs ro L') (hn : 0 < n) :
    newRows n cs = pushedRows n ro := by
  have hlen : (pushes (cs 0)).length = (pushedRows n ro).length := by
    rw [collective_pushes h hn, List.length_map]
  rw [newRows, hlen]
  apply List.ext_getElem (by simp)
  intro i h1 h2
  rw [List.getElem_map, List.getElem_range, ← pushedRows_below ro _ (List.getElem_mem h2)]
  funext p
  by_cases hp : p < n
  · simp [below, hp, collective_pushes h hp, h2]
  · simp [below, hp]

theorem collective_rowsAfter (h : CollectiveRegs n L cs ro L') (hno : NoRepush n ro) {p : ℕ}
    (hp : p < n) : rowsAfter n cs L p = L' := by
  rw [rowsAfter, collective_newRows h (by omega), collective_pops h hp, pushes_first hp hno]
  exact (live_stack h.live hp).1

theorem collective_poppable (h : CollectiveRegs n L cs ro L') (hno : NoRepush n ro) :
    Collective n (fun _ => L) cs := by
  refine ⟨fun p hp => ?_, fun p hp => poppable_of_length ?_⟩
  · rw [collective_pushes h hp, collective_pushes h (by omega), List.length_map, List.length_map]
  · have hafter := collective_rowsAfter h hno hp
    have hlen := (live_stack h.live hp).2
    rw [rowsAfter] at hafter
    rw [hafter, collective_pops h hp, collective_newRows h (by omega), List.length_append, hlen]

end Calls

structure Lawful (n : ℕ) (L : List Row) (tagSize : ℕ → ℕ) (ops : ℕ → List Op) (w : World)
    (ro : List RegOp) (L' : List Row) : Prop where
  admitted : ∀ p < n, Along exec (Admitted ⟨n, p, L, tagSize p⟩) (ops p) (w p)
  regs : CollectiveRegs n L (callsAt n (fun _ => L) tagSize ops w) ro L'

theorem lawful_admissible {n : ℕ} {L L' : List Row} {tagSize : ℕ → ℕ} {ops : ℕ → List Op}
    {w : World}
    {ro : List RegOp} (h : Lawful n L tagSize ops w ro L') (hno : NoRepush n ro) :
    Admissible n (fun _ => L) tagSize ops w :=
  ⟨h.admitted, collective_poppable h.regs hno⟩

/-- Runs of lawful supersteps without repushing, with the rows that are live in program order. -/
inductive RegRun (n : ℕ) : List Row → (ℕ → ℕ) → World → Prop
  | init (alloc : ℕ → Alloc) (globalArrays : ℕ → ℕ → GlobalArray) (mem : ℕ → Mem) (stack : ℕ → ℕ) :
    RegRun n [] (fun _ => 0) (initWorld alloc globalArrays mem stack n)
  | step {L L' : List Row} {tagSize : ℕ → ℕ} {w w' : World} {ops : ℕ → List Op} {ro : List RegOp}
    (hr : RegRun n L tagSize w) (hl : Lawful n L tagSize ops w ro L') (hno : NoRepush n ro)
    (hs : superstep n ops w = some w') :
    RegRun n L' (fun q => tagAfter (tagSize q) (callsAt n (fun _ => L) tagSize ops w q)) w'

/-- All registers hold the rows `L`, and an address is translated by the last row
in which the processor registered it. -/
structure Agree (n : ℕ) (L : List Row) (w : World) : Prop where
  table : ∀ q < n, Holds (w q).bsp.memoryRegister (columns L)
  translate : ∀ s < n, ∀ d < n, ∀ x r, lastRow L s x = some r →
    memoryRegisterMemoizedFind (w s).bsp.memoryRegister d x = some (r d)

theorem clean_translate {n : ℕ} {rows : ℕ → List Row} {tagSize : ℕ → ℕ} {w : World}
    (h : Clean n rows tagSize w) {s d x : ℕ} {r : Row} (hs : s < n) (hd : d < n)
    (hr : lastRow (rows s) s x = some r) :
    memoryRegisterMemoizedFind (w s).bsp.memoryRegister d x = some (r d) := by
  have hl := h.logged s hs
  have hn : (w s).bsp.memoryRegister.nprocs = n := hl.reg_nprocs
  exact memoizedFind_spec hl.reg (lt_of_lt_of_eq hs hn.symm) (lt_of_lt_of_eq hd hn.symm) hr

theorem clean_agree {n : ℕ} {L : List Row} {tagSize : ℕ → ℕ} {w : World}
    (h : Clean n (fun _ => L) tagSize w) : Agree n L w :=
  ⟨fun q hq => (h.logged q hq).reg.marked.holds, fun _ hs _ hd _ _ hr => clean_translate h hs hd hr⟩

theorem regRun_clean {n : ℕ} {L : List Row} {tagSize : ℕ → ℕ} {w : World}
    (h : RegRun n L tagSize w) : Clean n (fun _ => L) tagSize w := by
  induction h with
  | init alloc globalArrays mem stack => exact init_clean alloc globalArrays mem stack n
  | step hr hl hno hs ih =>
    obtain ⟨v, -, hsync⟩ := superstep_synced ih (lawful_admissible hl hno) hs
    refine ⟨fun q hq => ?_⟩
    have hlogged := (hsync q hq).logged
    rwa [collective_rowsAfter hl.regs hno hq] at hlogged

/-- In every run without repushing the registers of all processors agree with the
program order, and the run goes on with every further such superstep. -/
theorem registers_agree {n : ℕ} {L : List Row} {tagSize : ℕ → ℕ} {w : World}
    (h : RegRun n L tagSize w) : Agree n L w ∧
      ∀ ops ro L', Lawful n L tagSize ops w ro L' → NoRepush n ro →
        ∃ w', superstep n ops w = some w' := by
  have hclean := regRun_clean h
  refine ⟨clean_agree hclean, fun ops ro L' hl hno => ?_⟩
  obtain ⟨v, w', hs, -⟩ := superstep_defined hclean (lawful_admissible hl hno)
  exact ⟨w', hs⟩

section Example

def pushOp : RegOp := .push fun p => 100 * (p + 1)

def repushOps : ℕ → List Op :=
  fun p => [.popReg (100 * (p + 1)), .pushReg (if p = 0 then 100 else 300)]

def repushRegOps : List RegOp :=
  [.pop fun p => 100 * (p + 1), .push fun p => if p = 0 then 100 else 300]

def repushedRow : Row := below 2 fun p => if p = 0 then 100 else 300

theorem register_lawful :
    Lawful 2 [] (fun _ => 0) Drma.registerOps (startWorld 2) [pushOp] [Drma.registeredRow] :=
  ⟨Drma.register_admissible.admitted, fun _ _ => rfl, .push (.nil _)⟩

theorem register_step : ∃ w, superstep 2 Drma.registerOps (startWorld 2) = some w ∧
    RegRun 2 [Drma.registeredRow] (fun _ => 0) w := by
  obtain ⟨v, w, hs, -⟩ := superstep_defined (init_clean _ _ _ _ 2)
    (lawful_admissible register_lawful trivial)
  exact ⟨w, hs, .step (.init _ _ _ _) register_lawful trivial hs⟩

def exchangeOps : ℕ → List Op := fun p => [.popReg (100 * (p + 1)), .pushReg (500 + p)]

def exchangeRegOps : List RegOp := [.pop fun p => 100 * (p + 1), .push fun p => 500 + p]

def exchangedRow : Row := below 2 fun p => 500 + p

theorem exchange_lawful (w : World) :
    Lawful 2 [Drma.registeredRow] (fun _ => 0) exchangeOps w exchangeRegOps [exchangedRow] := by
  refine ⟨fun p _ => ⟨trivial, fun _ _ => ⟨trivial, fun _ _ => trivial⟩⟩, fun _ _ => rfl, ?_⟩
  have hpop : Live 2 ([] ++ Drma.registeredRow :: []) exchangeRegOps [exchangedRow] :=
    .pop (fun p hp => by simp [Drma.registeredRow, below, hp]) (by simp) (.push (.nil _))
  exact hpop

theorem exchange_noRepush : NoRepush 2 exchangeRegOps := by
  refine ⟨fun p hp r hr => ?_, trivial⟩
  cases List.mem_singleton.mp (show r ∈ [exchangedRow] from hr)
  have hrow : exchangedRow p = 500 + p := if_pos hp
  show exchangedRow p ≠ 100 * (p + 1)
  omega

theorem registers_agree_exchange : ∃ w w', superstep 2 Drma.registerOps (startWorld 2) = some w ∧
    superstep 2 exchangeOps w = some w' ∧ Agree 2 [exchangedRow] w' ∧ ∀ ops ro L',
      Lawful 2 [exchangedRow] (fun _ => 0) ops w' ro L' → NoRepush 2 ro →
        ∃ w'', superstep 2 ops w' = some w'' := by
  obtain ⟨w, hs, hr⟩ := register_step
  obtain ⟨v, w', hs', -⟩ := superstep_defined (regRun_clean hr)
    (lawful_admissible (exchange_lawful w) exchange_noRepush)
  exact ⟨w, w', hs, hs', registers_agree (.step hr (exchange_lawful w) exchange_noRepush hs')⟩

theorem repush_lawful (w : World) :
    Lawful 2 [Drma.registeredRow] (fun _ => 0) repushOps w repushRegOps [repushedRow] := by
  refine ⟨fun p _ => ⟨trivial, fun _ _ => ⟨trivial, fun _ _ => trivial⟩⟩, fun _ _ => rfl, ?_⟩
  have hpop : Live 2 ([] ++ Drma.registeredRow :: []) repushRegOps [repushedRow] :=
    .pop (fun p hp => by simp [Drma.registeredRow, below, hp]) (by simp) (.push (.nil _))
  exact hpop

/-- Processor 0 keeps the row it popped and drops the one it pushed. -/
theorem repush_disagrees : ∃ w w', superstep 2 Drma.registerOps (startWorld 2) = some w ∧
    RegRun 2 [Drma.registeredRow] (fun _ => 0) w ∧
    Lawful 2 [Drma.registeredRow] (fun _ => 0) repushOps w repushRegOps [repushedRow] ∧
    superstep 2 repushOps w = some w' ∧
    memoryRegisterMemoizedFind (w' 0).bsp.memoryRegister 1 100 = some 200 ∧
    lastRow [repushedRow] 0 100 = some repushedRow ∧ repushedRow 1 = 300 ∧
    ¬ Agree 2 [repushedRow] w' := by
  obtain ⟨w, hs, hr⟩ := register_step
  have hcollective : Collective 2 (fun _ => [Drma.registeredRow])
      (callsAt 2 (fun _ => [Drma.registeredRow]) (fun _ => 0) repushOps w) := by
    refine ⟨fun _ _ => rfl, fun q hq => ⟨⟨Drma.registeredRow, ?_, ?_⟩, trivial⟩⟩
    · exact List.mem_append_left _ (List.mem_singleton_self _)
    · simp [Drma.registeredRow, below, hq]
  obtain ⟨v, w', hs', hspec⟩ := superstep_defined (regRun_clean hr)
    ⟨(repush_lawful w).admitted, hcollective⟩
  have hclean : Clean 2 (fun q => rowsAfter 2
      (callsAt 2 (fun _ => [Drma.registeredRow]) (fun _ => 0) repushOps w) [Drma.registeredRow] q)
      _ w' := ⟨fun q hq => (hspec q hq).logged⟩
  have hfind : memoryRegisterMemoizedFind (w' 0).bsp.memoryRegister 1 100 = some 200 :=
    clean_translate hclean (by decide) (by decide) (r := Drma.registeredRow) rfl
  have hlast : lastRow [repushedRow] 0 100 = some repushedRow := rfl
  refine ⟨w, w', hs, hr, repush_lawful w, hs', hfind, hlast, rfl, fun hagree => ?_⟩
  have h300 := hagree.translate 0 (by decide) 1 (by decide) 100 _ hlast
  rw [hfind] at h300
  exact absurd h300 (by decide)

end Example

end BspOnMpi.Registration
