import BspOnMpi.DrmaOffsets

/-! Looking up addresses. `memoryRegister_memoized_find` starts at the pointer that
`memoryRegister_pack` left and searches downwards without a bound. After every `bspx_sync` it
stops in the own column, at the row that `memoryRegister_find` uses. -/

namespace BspOnMpi.RegisterLookup
open Lib Memreg Machine Bspx Calls BspxSync Superstep DrmaOffsets

/-- Where the loop of `memoryRegister_memoized_find` stops. -/
def memoizedIndex (t : MemoryRegister) (pointer : ℕ) : Option ℕ := do
  let dataIter ← t.info.memoizedDataIter
  scanDown (fun i => t.data i = pointer) (dataIter + 1).toNat

def RegisteredAt (t : MemoryRegister) (rank k pointer : ℕ) : Prop :=
  k < t.usedSlotCount rank ∧ t.data (t.rows * rank + k) = pointer ∧ t.info.removed k = false

/-- Both searches for an address of the own column find it there, and the same row. -/
structure SameLookup (t : MemoryRegister) (n rank pointer : ℕ) : Prop where
  stops : ∃ k, RegisteredAt t rank k pointer ∧ memoizedIndex t pointer = some (t.rows * rank + k)
  same : ∀ dp < n, memoryRegisterMemoizedFind t dp pointer = memoryRegisterFind t rank dp pointer
  found : ∀ dp < n, ∃ address, memoryRegisterMemoizedFind t dp pointer = some address

section Lookup

variable {t : MemoryRegister} {rs : List Row} {rank pointer k : ℕ}

theorem lastRow_of_registeredAt (h : Registered t rs rank) (hn : rank < t.nprocs)
    (hk : RegisteredAt t rank k pointer) : ∃ r, lastRow rs rank pointer = some r := by
  obtain ⟨hlt, hdata, -⟩ := hk
  rw [marked_used h.marked hn] at hlt
  have hcell := marked_cell h.marked hn (List.getElem?_eq_getElem hlt)
  apply Option.ne_none_iff_exists'.mp
  intro hnone
  exact lastRow_eq_none.mp hnone rs[k] (List.getElem_mem hlt) (hcell.symm.trans hdata)

theorem memoizedIndex_spec (h : Registered t rs rank) (hn : rank < t.nprocs) {r : Row}
    (hr : lastRow rs rank pointer = some r) :
    ∃ k, RegisteredAt t rank k pointer ∧ memoizedIndex t pointer = some (t.rows * rank + k) := by
  obtain ⟨xs, ys, rfl, hrp, hys⟩ := lastRow_eq_some.mp hr
  have hrow : (xs ++ r :: ys)[xs.length]? = some r := by simp
  have hused := marked_used h.marked hn
  refine ⟨xs.length, ⟨?_, ?_, h.clear _⟩, ?_⟩
  · rw [hused, List.length_append, List.length_cons]
    omega
  · rw [marked_cell h.marked hn hrow, hrp]
  · obtain ⟨dataIter, hiter, hscan⟩ := memoized_scan h hn hrp hys
    rw [memoizedIndex, hiter]
    exact hscan

theorem registered_lookup (h : Registered t rs rank) (hn : rank < t.nprocs)
    (hk : RegisteredAt t rank k pointer) : SameLookup t t.nprocs rank pointer := by
  obtain ⟨r, hr⟩ := lastRow_of_registeredAt h hn hk
  refine ⟨memoizedIndex_spec h hn hr, fun dp hd => ?_, fun dp hd => ?_⟩
  · rw [memoizedFind_spec h hn hd hr, find_spec h.marked hn hd, registered_live h, hr]
    rfl
  · exact ⟨r dp, memoizedFind_spec h hn hd hr⟩

end Lookup

/-- After every synchronisation of every run. -/
theorem memoized_eq_find {n : ℕ} {rows : ℕ → List Row} {tagSize : ℕ → ℕ} {w : World}
    (h : AnyOffset n rows tagSize w) {rank k pointer : ℕ} (hrank : rank < n)
    (hk : RegisteredAt (w rank).bsp.memoryRegister rank k pointer) :
    SameLookup (w rank).bsp.memoryRegister n rank pointer := by
  have hl := (reachable_clean (anyOffset_reachable h)).logged rank hrank
  have hn : (w rank).bsp.memoryRegister.nprocs = n := hl.reg_nprocs
  have hlookup := registered_lookup hl.reg (lt_of_lt_of_eq hrank hn.symm) hk
  rw [hn] at hlookup
  exact hlookup

/-- Both processors register their address once more, and another one that they remove again. -/
def twiceOps : ℕ → List Op := fun p => [.pushReg (100 * (p + 1)), .pushReg 600, .popReg 600]

theorem twice_admissible (w : World) : Admissible 2 (fun _ => [Drma.registeredRow]) (fun _ => 0)
    (fun p => (twiceOps p).map stored) w := by
  refine ⟨fun p _ => ⟨trivial, fun _ _ => ⟨trivial, fun _ _ => ⟨trivial, fun _ _ => trivial⟩⟩⟩,
    fun _ _ => rfl, fun q hq => ⟨⟨below 2 fun _ => 600, ?_, if_pos hq⟩, trivial⟩⟩
  exact List.mem_append_right _ (List.mem_cons_of_mem _ (List.mem_singleton_self _))

theorem memoized_eq_find_twice : ∃ w w', superstep 2 Drma.registerOps (startWorld 2) = some w ∧
    superstep 2 twiceOps w = some w' ∧ (w' 1).bsp.memoryRegister.usedSlotCount 1 = 2 ∧
      SameLookup (w' 1).bsp.memoryRegister 2 1 200 := by
  obtain ⟨w, hs, hr⟩ := register_anyOffset
  obtain ⟨v, w', hs', -⟩ := superstep_defined (reachable_clean (anyOffset_reachable hr))
    (twice_admissible w)
  have hr' : AnyOffset 2 _ _ w' := .step hr (twice_admissible w) hs'
  have hl := (reachable_clean (anyOffset_reachable hr')).logged 1 (by decide)
  have hn : 1 < (w' 1).bsp.memoryRegister.nprocs := lt_of_lt_of_eq Nat.one_lt_two hl.reg_nprocs.symm
  have hused : (w' 1).bsp.memoryRegister.usedSlotCount 1 = 2 := marked_used hl.reg.marked hn
  have hcell := marked_cell hl.reg.marked hn (k := 1) rfl
  exact ⟨w, w', hs, hs', hused, memoized_eq_find hr' (by decide) (k := 1)
    ⟨hused.symm ▸ Nat.one_lt_two, hcell, hl.reg.clear 1⟩⟩

end BspOnMpi.RegisterLookup
