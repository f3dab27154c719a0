import BspOnMpi.Memreg

/-! Packing a memory register. `memoryRegister_pack` after any history of registrations, pops and
packs: the rows that are left, what `memoryRegister_find` returns before and after, and the
counts. The pushes of some rows may come in any order; `bsp_sync` makes those of a column one
after the other. -/

namespace BspOnMpi.RegisterPack
open Lib Exptable Memreg

def WholeRows (n m : ℕ) (ps : List (ℕ × ℕ)) : Prop :=
  (∀ e ∈ ps, e.1 < n) ∧ ∀ c < n, (ps.filter fun e => e.1 = c).length = m

inductive Reached (n : ℕ) : ℕ → MemoryRegister → Prop
  | create {rows : ℕ} (hrows : 0 < rows) (srcProc : ℕ) (fresh : ℕ → ℕ → ℕ) :
    Reached n 0 (memoryRegisterInitialize n rows srcProc fresh)
  | register {popped m : ℕ} {t : MemoryRegister} {ps : List (ℕ × ℕ)} (h : Reached n popped t)
    (hps : WholeRows n m ps) : Reached n popped (pushAll t ps)
  | pop {popped proc pointer : ℕ} {t t' : MemoryRegister} (h : Reached n popped t) (hp : proc < n)
    (hpop : memoryRegisterPop t proc pointer = some t') : Reached n (popped + 1) t'
  | pack {popped : ℕ} {t : MemoryRegister} (h : Reached n popped t) :
    Reached n 0 (memoryRegisterPack t)

def contents (t : MemoryRegister) (c : ℕ) : List ℕ := load (col t c) 0 (t.usedSlotCount c)

/-- Column `sp` has the address `x` in a row that has not been removed. -/
def LiveIn (t : MemoryRegister) (sp x : ℕ) : Prop :=
  ∃ k < t.usedSlotCount sp, t.data (t.rows * sp + k) = x ∧ t.info.removed k = false

structure Packs (n popped : ℕ) (t : MemoryRegister) : Prop where
  kept : ∀ c < n,
    contents (memoryRegisterPack t) c = keepFrom t.info.removed 0 (contents t c)
  same : ∀ sp < n, ∀ dp < n, ∀ x,
    memoryRegisterFind (memoryRegisterPack t) sp dp x = memoryRegisterFind t sp dp x
  found : ∀ sp < n, ∀ dp < n, ∀ x, LiveIn t sp x → memoryRegisterFind t sp dp x ≠ none
  dropped : ∀ c < n, (memoryRegisterPack t).usedSlotCount c + popped = t.usedSlotCount c
  cleared : ∀ k, (memoryRegisterPack t).info.removed k = false
  again : memoryRegisterPack (memoryRegisterPack t) = memoryRegisterPack t

section Rows

variable {n m : ℕ} {t : MemoryRegister} {rs : List Row} {ps : List (ℕ × ℕ)}

def rowsOf (m : ℕ) (ps : List (ℕ × ℕ)) : List Row :=
  (List.range m).map fun k c => ((ps.filter fun e => e.1 = c).map Prod.snd).getD k 0

theorem rowsOf_column (hps : WholeRows n m ps) {c : ℕ} (hc : c < n) :
    columns (rowsOf m ps) c = (ps.filter fun e => e.1 = c).map Prod.snd := by
  have hlen : ((ps.filter fun e => e.1 = c).map Prod.snd).length = m := by
    rw [List.length_map]
    exact hps.2 c hc
  rw [columns, rowsOf, List.map_map]
  apply List.ext_getElem
  · rw [List.length_map, List.length_range, hlen]
  · intro k h1 h2
    rw [List.getElem_map, List.getElem_range]
    exact (List.getElem_eq_getD 0).symm

theorem register_marked (h : Marked t rs) (hn : 0 < t.nprocs) (hps : WholeRows t.nprocs m ps) :
    Marked (pushAll t ps) (rs ++ rowsOf m ps) ∧ (pushAll t ps).nprocs = t.nprocs ∧
      (pushAll t ps).info.numremov = t.info.numremov := by
  obtain ⟨hmarked, -, hnprocs, hnumremov, -⟩ :=
    pushRows_marked h hn hps.1 fun c hc => (rowsOf_column hps hc).symm
  exact ⟨hmarked, hnprocs, hnumremov⟩

end Rows

section Reached

variable {n popped proc pointer : ℕ} {t t' : MemoryRegister} {rs : List Row}

theorem live_row (h : Marked t rs) {sp x : ℕ} (hsp : sp < t.nprocs) (hx : LiveIn t sp x) :
    ∃ r ∈ liveRows t rs, r sp = x := by
  obtain ⟨k, hk, hdata, hlive⟩ := hx
  rw [marked_used h hsp] at hk
  have hrow := List.getElem?_eq_getElem hk
  rw [marked_cell h hsp hrow] at hdata
  refine ⟨rs[k], mem_keepFrom.mpr ⟨k, ?_, hrow⟩, hdata⟩
  rw [Nat.zero_add]
  exact hlive

theorem pop_found (h : Marked t rs) (hp : proc < t.nprocs)
    (hpop : memoryRegisterPop t proc pointer = some t') :
    (∃ r ∈ liveRows t rs, r proc = pointer) ∧ t'.info.numremov = t.info.numremov + 1 := by
  obtain ⟨k, hscan, rfl⟩ := Option.map_eq_some_iff.mp hpop
  obtain ⟨hk, hfound, -⟩ := scanDown_eq_some.mp hscan
  rw [Bool.and_eq_true, decide_eq_true_iff, Bool.not_eq_true'] at hfound
  exact ⟨live_row h hp ⟨k, hk, hfound⟩, rfl⟩

theorem reached_marked (hn : 0 < n) (h : Reached n popped t) :
    t.nprocs = n ∧ t.info.numremov = popped ∧ ∃ rs, Marked t rs := by
  induction h with
  | create hrows srcProc fresh =>
    exact ⟨rfl, rfl, [], (initialize_registered n _ srcProc fresh hrows).marked⟩
  | register h hps ih =>
    obtain ⟨hnprocs, hnum, rs, hm⟩ := ih
    rw [← hnprocs] at hn hps
    obtain ⟨hmarked, hn', hnum'⟩ := register_marked hm hn hps
    exact ⟨hn'.trans hnprocs, hnum'.trans hnum, _, hmarked⟩
  | pop h hp hpop ih =>
    obtain ⟨hnprocs, hnum, rs, hm⟩ := ih
    rw [← hnprocs] at hp
    obtain ⟨hfound, hcount⟩ := pop_found hm hp hpop
    obtain ⟨t'', hpop', hmarked, -, hn', -⟩ := pop_spec hm hp hfound
    cases hpop.symm.trans hpop'
    exact ⟨hn'.trans hnprocs, by rw [hcount, hnum], rs, hmarked⟩
  | pack h ih =>
    obtain ⟨hnprocs, -, rs, hm⟩ := ih
    rw [← hnprocs] at hn
    exact ⟨hnprocs, rfl, _, (pack_spec hm hn).1⟩

end Reached

section Pack

variable {n popped : ℕ} {t : MemoryRegister} {rs : List Row}

theorem marked_contents (h : Marked t rs) {c : ℕ} (hc : c < t.nprocs) :
    contents t c = columns rs c := h.holds.content c hc

theorem pack_live (h : Marked t rs) (hn : 0 < t.nprocs) :
    liveRows (memoryRegisterPack t) (liveRows t rs) = liveRows t rs :=
  keepFrom_none fun j _ _ => (pack_spec h hn).2.1 j

theorem pack_unmarked (hclear : ∀ k, t.info.removed k = false) (hnum : t.info.numremov = 0)
    (hused : ∀ c < t.nprocs, t.usedSlotCount c = t.usedSlotCount 0)
    (hcol : t.info.memoizedSrccol = t.rows * t.info.memoizedSrcProc)
    (hiter : t.info.memoizedDataIter = some (((t.rows * t.info.memoizedSrcProc : ℕ) : ℤ) +
      t.usedSlotCount t.info.memoizedSrcProc - 1)) : memoryRegisterPack t = t := by
  have hdata : (memoryRegisterPack t).data = t.data := by
    apply List.foldl_fixed'
    intro i
    exact compact_none fun j _ => hclear j
  have hcounts : (memoryRegisterPack t).usedSlotCount = t.usedSlotCount := by
    funext i
    show (if i < t.nprocs then t.usedSlotCount 0 - t.info.numremov else t.usedSlotCount i) = _
    rw [hnum, Nat.sub_zero]
    split
    · exact (hused i ‹_›).symm
    · rfl
  have hremoved : (memoryRegisterPack t).info.removed = t.info.removed := by
    funext i
    show (if i < t.rows then false else t.info.removed i) = t.info.removed i
    rw [hclear i, ite_self]
  have hmemo : (memoryRegisterPack t).info.memoizedDataIter = t.info.memoizedDataIter := by
    rw [hiter, ← hcounts]
    rfl
  calc memoryRegisterPack t = { t with
          data := (memoryRegisterPack t).data
          usedSlotCount := (memoryRegisterPack t).usedSlotCount
          info := { t.info with
            removed := (memoryRegisterPack t).info.removed
            numremov := 0
            memoizedSrccol := t.rows * t.info.memoizedSrcProc
            memoizedDataIter := (memoryRegisterPack t).info.memoizedDataIter } } := rfl
    _ = t := by rw [hdata, hcounts, hremoved, hmemo, ← hnum, ← hcol]

/-- Packing after any history. -/
theorem pack_preserves (hn : 0 < n) (h : Reached n popped t) : Packs n popped t := by
  obtain ⟨rfl, rfl, rs, hm⟩ := reached_marked hn h
  obtain ⟨hpacked, hclear, hnum⟩ := pack_spec hm hn
  constructor
  case kept =>
    intro c hc
    rw [marked_contents hpacked hc, marked_contents hm hc, columns, columns, keepFrom_map]
    rfl
  case same =>
    intro sp hsp dp hdp x
    rw [find_spec hpacked hsp hdp, find_spec hm hsp hdp, pack_live hm hn]
  case found =>
    intro sp hsp dp hdp x hx hnone
    obtain ⟨r, hr, hrx⟩ := live_row hm hsp hx
    rw [find_spec hm hsp hdp, Option.map_eq_none_iff] at hnone
    exact lastRow_eq_none.mp hnone r hr hrx
  case dropped =>
    intro c hc
    have hcount := hm.numremov
    rw [marked_used hpacked hc, marked_used hm hc, liveRows]
    omega
  case cleared => exact hclear
  case again =>
    have hused : ∀ c < t.nprocs, (memoryRegisterPack t).usedSlotCount c =
        (memoryRegisterPack t).usedSlotCount 0 := by
      intro c hc
      rw [marked_used hpacked hc, marked_used hpacked hn]
    exact pack_unmarked hclear hnum hused rfl rfl

/-- Two registrations, of which the second makes the register grow, and a pop of the first. -/
theorem pack_preserves_two : ∃ t, memoryRegisterPop
    (pushAll (memoryRegisterInitialize 2 1 0 fun _ _ => 0) [(0, 10), (1, 20), (0, 11), (1, 21)]) 1
      20 = some t ∧ Packs 2 1 t := by
  have hrows : WholeRows 2 2 [(0, 10), (1, 20), (0, 11), (1, 21)] := ⟨by decide, by decide⟩
  have hregistered : Reached 2 0
      (pushAll (memoryRegisterInitialize 2 1 0 fun _ _ => 0) [(0, 10), (1, 20), (0, 11),
        (1, 21)]) :=
    (Reached.create (by decide) 0 _).register hrows
  obtain ⟨t, hpop⟩ : ∃ t, memoryRegisterPop
      (pushAll (memoryRegisterInitialize 2 1 0 fun _ _ => 0) [(0, 10), (1, 20), (0, 11), (1, 21)])
        1 20 = some t := ⟨_, rfl⟩
  exact ⟨t, hpop, pack_preserves (by decide) (hregistered.pop (by decide) hpop)⟩

end Pack

end BspOnMpi.RegisterPack
