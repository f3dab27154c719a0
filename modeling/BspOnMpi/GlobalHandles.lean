import BspOnMpi.Bspx
import Mathlib.Data.List.Perm.Subperm

/-! Handles of global arrays. `bspx_global_alloc` and `bspx_global_free` over a whole history of
calls. After the cursor has wrapped around once, the search for a null slice starts at the cursor
and goes up. -/

namespace BspOnMpi.GlobalHandles
open Machine Bspx

inductive Search
  | found (handle : ℕ)
  | outside (index : ℕ)
  | abort

def search (globalArrays : ℕ → GlobalArray) : ℕ → ℕ → Search
  | 0, _ => .abort
  | count + 1, last =>
    if maxGlobalArrays ≤ last then .outside last
    else if (globalArrays last).localSlice = none then .found last
    else search globalArrays count (last + 1)

def searchHandle (bsp : BSPObject) : Search :=
  if bsp.globalOverflow then search bsp.globalArrays (maxGlobalArrays + 2) bsp.globalArrayLast
  else .found bsp.globalArrayLast

def Search.handle : Search → Option ℕ
  | found h => some h
  | _ => none

theorem freeHandle_eq (globalArrays : ℕ → GlobalArray) (count last : ℕ) :
    freeHandle globalArrays count last = (search globalArrays count last).handle := by
  induction count generalizing last with
  | zero => rfl
  | succ count ih =>
    rw [freeHandle, search]
    split
    · rfl
    · split
      · rfl
      · exact ih (last + 1)

theorem nextHandle_eq (bsp : BSPObject) : nextHandle bsp = (searchHandle bsp).handle := by
  rw [nextHandle, searchHandle]
  split
  · exact freeHandle_eq _ _ _
  · rfl

theorem search_spec (globalArrays : ℕ → GlobalArray) {count last : ℕ}
    (hcount : maxGlobalArrays < last + count) (hlast : last ≤ maxGlobalArrays) :
    (∃ h, search globalArrays count last = .found h ∧ last ≤ h ∧ h < maxGlobalArrays ∧
        (globalArrays h).localSlice = none) ∨
      search globalArrays count last = .outside maxGlobalArrays ∧
        ∀ h, last ≤ h → h < maxGlobalArrays → (globalArrays h).localSlice ≠ none := by
  induction count generalizing last with
  | zero => omega
  | succ count ih =>
    rw [search]
    by_cases hend : maxGlobalArrays ≤ last
    · rw [if_pos hend]
      refine .inr ⟨congrArg _ (Nat.le_antisymm hlast hend), ?_⟩
      intro h h1 h2
      omega
    · rw [if_neg hend]
      by_cases hnull : (globalArrays last).localSlice = none
      · rw [if_pos hnull]
        exact .inl ⟨last, rfl, le_rfl, by omega, hnull⟩
      · rw [if_neg hnull]
        have hcount' : maxGlobalArrays < last + 1 + count := by omega
        rcases ih hcount' (Nat.succ_le_of_lt (Nat.lt_of_not_le hend)) with
          ⟨h, hfound, hge, hfree⟩ | ⟨hout, hused⟩
        · exact .inl ⟨h, hfound, by omega, hfree⟩
        · refine .inr ⟨hout, fun h h1 h2 => ?_⟩
          rcases Nat.lt_or_eq_of_le h1 with hlt | rfl
          · exact hused h hlt h2
          · exact hnull

theorem globalAlloc_found {bsp : BSPObject} {h : ℕ} (hfound : searchHandle bsp = .found h)
    (next arraySize localSlice : ℕ) :
    ∃ bsp', bspxGlobalAlloc bsp next arraySize localSlice = some (bsp', h) ∧
      bsp'.globalArrays = Function.update bsp.globalArrays h
        ⟨arraySize, allocSize arraySize bsp.nprocs, some localSlice⟩ ∧
      bsp'.globalArrayLast = (h + 1) % maxGlobalArrays ∧
      bsp'.globalOverflow = (bsp.globalOverflow || (h + 1) % maxGlobalArrays == 0) := by
  rw [bspxGlobalAlloc, nextHandle_eq, hfound]
  exact ⟨_, rfl, rfl, rfl, rfl⟩

theorem found_of_globalAlloc {bsp bsp' : BSPObject} {next arraySize localSlice h : ℕ}
    (halloc : bspxGlobalAlloc bsp next arraySize localSlice = some (bsp', h)) :
    searchHandle bsp = .found h := by
  rw [bspxGlobalAlloc, nextHandle_eq] at halloc
  cases hsearch : searchHandle bsp with
  | found h' =>
    rw [hsearch] at halloc
    cases halloc
    rfl
  | outside index =>
    rw [hsearch] at halloc
    cases halloc
  | abort =>
    rw [hsearch] at halloc
    cases halloc

/-- The states after calls on live handles, with the handles that are live. -/
inductive Handles : List ℕ → BSPObject → Prop
  | init (alloc : Alloc) (globalArrays : ℕ → GlobalArray) (nprocs rank : ℕ)
      (hzero : ∀ h < maxGlobalArrays, (globalArrays h).localSlice = none) :
      Handles [] (bspxInitBspobject alloc globalArrays nprocs rank)
  | alloc {live : List ℕ} {bsp bsp' : BSPObject} {h : ℕ} (hlive : Handles live bsp)
      (next arraySize localSlice : ℕ)
      (halloc : bspxGlobalAlloc bsp next arraySize localSlice = some (bsp', h)) :
      Handles (h :: live) bsp'
  | free {live : List ℕ} {bsp : BSPObject} (hlive : Handles live bsp) (next ptr : ℕ)
      (hptr : ptr ∈ live) : Handles (live.erase ptr) (bspxGlobalFree bsp next ptr)

/-- Exactly the live handles have a slice, and before the first wrap-around they are all
below the cursor. -/
structure Tracked (live : List ℕ) (bsp : BSPObject) : Prop where
  nodup : live.Nodup
  bound : ∀ h ∈ live, h < maxGlobalArrays
  slices : ∀ h < maxGlobalArrays, (bsp.globalArrays h).localSlice = none ↔ h ∉ live
  cursor : bsp.globalArrayLast < maxGlobalArrays
  fresh : bsp.globalOverflow = false → ∀ h ∈ live, h < bsp.globalArrayLast

section Tracked

variable {live : List ℕ} {bsp bsp' : BSPObject}

theorem searchHandle_spec (ht : Tracked live bsp) :
    (∃ h, searchHandle bsp = .found h ∧ bsp.globalArrayLast ≤ h ∧ h < maxGlobalArrays ∧
        h ∉ live) ∨
      searchHandle bsp = .outside maxGlobalArrays ∧
        ∀ h, bsp.globalArrayLast ≤ h → h < maxGlobalArrays → h ∈ live := by
  rw [searchHandle]
  have hcursor := ht.cursor
  cases hover : bsp.globalOverflow with
  | false =>
    refine .inl ⟨_, if_neg Bool.false_ne_true, le_rfl, hcursor, fun hmem => ?_⟩
    exact Nat.lt_irrefl _ (ht.fresh hover _ hmem)
  | true =>
    rw [if_pos rfl]
    have hcount : maxGlobalArrays < bsp.globalArrayLast + (maxGlobalArrays + 2) := by omega
    rcases search_spec bsp.globalArrays hcount hcursor.le with
      ⟨h, hsearch, hge, hlt, hnull⟩ | ⟨hsearch, hused⟩
    · exact .inl ⟨h, hsearch, hge, hlt, (ht.slices h hlt).mp hnull⟩
    · refine .inr ⟨hsearch, fun h h1 h2 => ?_⟩
      by_contra hnot
      exact hused h h1 h2 ((ht.slices h h2).mpr hnot)

theorem tracked_alloc (ht : Tracked live bsp) {next arraySize localSlice h : ℕ}
    (halloc : bspxGlobalAlloc bsp next arraySize localSlice = some (bsp', h)) :
    Tracked (h :: live) bsp' := by
  have hfound := found_of_globalAlloc halloc
  obtain ⟨bsp'', halloc', harrays, hlast, hover⟩ :=
    globalAlloc_found hfound next arraySize localSlice
  obtain rfl : bsp'' = bsp' := by
    rw [halloc] at halloc'
    cases halloc'
    rfl
  have hspec : h < maxGlobalArrays ∧ h ∉ live := by
    rcases searchHandle_spec ht with ⟨h', hsearch, -, hlt, hnot⟩ | ⟨hsearch, -⟩
    · rw [hfound] at hsearch
      cases hsearch
      exact ⟨hlt, hnot⟩
    · rw [hfound] at hsearch
      cases hsearch
  obtain ⟨hlt, hnot⟩ := hspec
  constructor
  · exact List.nodup_cons.mpr ⟨hnot, ht.nodup⟩
  · intro l hl
    rcases List.mem_cons.mp hl with rfl | hl
    · exact hlt
    · exact ht.bound l hl
  · intro l hl
    rw [harrays]
    by_cases hlh : l = h
    · subst hlh
      simp
    · rw [Function.update_of_ne hlh, ht.slices l hl]
      simp [hlh]
  · rw [hlast]
    exact Nat.mod_lt _ (by decide)
  · intro hfalse
    rw [hover, Bool.or_eq_false_iff] at hfalse
    obtain ⟨hbefore, hwrap⟩ := hfalse
    have hcursor : h = bsp.globalArrayLast := by
      rw [searchHandle, hbefore] at hfound
      cases hfound
      rfl
    have hnext : (h + 1) % maxGlobalArrays = h + 1 := by
      rcases Nat.lt_or_eq_of_le (Nat.succ_le_of_lt hlt) with hlt' | heq
      · exact Nat.mod_eq_of_lt hlt'
      · rw [Nat.succ_eq_add_one] at heq
        rw [heq, Nat.mod_self] at hwrap
        cases hwrap
    intro l hl
    rw [hlast, hnext]
    rcases List.mem_cons.mp hl with rfl | hl
    · exact Nat.lt_succ_self _
    · have hl' := ht.fresh hbefore l hl
      omega

theorem tracked_free (ht : Tracked live bsp) (next : ℕ) {ptr : ℕ} (hptr : ptr ∈ live) :
    Tracked (live.erase ptr) (bspxGlobalFree bsp next ptr) where
  nodup := ht.nodup.erase ptr
  bound l hl := ht.bound l (List.mem_of_mem_erase hl)
  slices l hl := by
    rw [ht.nodup.mem_erase_iff]
    by_cases hlp : l = ptr
    · subst hlp
      simp [bspxGlobalFree]
    · have hslice := ht.slices l hl
      simp [bspxGlobalFree, hlp, hslice]
  cursor := ht.cursor
  fresh hover l hl := ht.fresh hover l (List.mem_of_mem_erase hl)

theorem handles_tracked (h : Handles live bsp) : Tracked live bsp := by
  induction h with
  | init alloc globalArrays nprocs rank hzero =>
    exact ⟨List.nodup_nil, fun h hh => absurd hh List.not_mem_nil,
      fun h hh => iff_of_true (hzero h hh) List.not_mem_nil, (by decide : 0 < maxGlobalArrays),
      fun _ h hh => absurd hh List.not_mem_nil⟩
  | alloc hlive next arraySize localSlice halloc ih => exact tracked_alloc ih halloc
  | free hlive next ptr hptr ih => exact tracked_free ih next hptr

end Tracked

/-- The next `bspx_global_alloc` stays inside the array and gives out a handle that is not
live, or aborts when all are live. -/
def AllocSafe (live : List ℕ) (bsp : BSPObject) : Prop :=
  if live.length < maxGlobalArrays then
    ∃ h < maxGlobalArrays, h ∉ live ∧ searchHandle bsp = .found h ∧
      ∀ next arraySize localSlice, ∃ bsp',
        bspxGlobalAlloc bsp next arraySize localSlice = some (bsp', h) ∧
          ∀ l ∈ live, bsp'.globalArrays l = bsp.globalArrays l
  else searchHandle bsp = .abort

theorem live_length {live : List ℕ} {bsp : BSPObject} (ht : Tracked live bsp) {h : ℕ}
    (hh : h < maxGlobalArrays) (hnot : h ∉ live) : live.length < maxGlobalArrays := by
  have hnodup : (h :: live).Nodup := List.nodup_cons.mpr ⟨hnot, ht.nodup⟩
  have hsub : h :: live ⊆ List.range maxGlobalArrays := by
    intro l hl
    rcases List.mem_cons.mp hl with rfl | hl
    · exact List.mem_range.mpr hh
    · exact List.mem_range.mpr (ht.bound l hl)
  have hlen := (hnodup.subperm hsub).length_le
  rw [List.length_cons, List.length_range] at hlen
  exact hlen

/-- The search does not start again at zero: it only stays inside the array when a handle
from the cursor on is not live. -/
theorem allocSafe_iff {live : List ℕ} {bsp : BSPObject} (h : Handles live bsp) :
    AllocSafe live bsp ↔ ∃ h, bsp.globalArrayLast ≤ h ∧ h < maxGlobalArrays ∧ h ∉ live := by
  have ht := handles_tracked h
  rcases searchHandle_spec ht with ⟨h, hfound, hge, hlt, hnot⟩ | ⟨hout, hused⟩
  · refine iff_of_true ?_ ⟨h, hge, hlt, hnot⟩
    rw [AllocSafe, if_pos (live_length ht hlt hnot)]
    refine ⟨h, hlt, hnot, hfound, fun next arraySize localSlice => ?_⟩
    obtain ⟨bsp', halloc, harrays, -⟩ := globalAlloc_found hfound next arraySize localSlice
    refine ⟨bsp', halloc, fun l hl => ?_⟩
    have hne : l ≠ h := by
      rintro rfl
      exact hnot hl
    rw [harrays, Function.update_of_ne hne]
  · refine iff_of_false ?_ ?_
    · rw [AllocSafe, hout]
      split
      · rintro ⟨h, -, -, hfound, -⟩
        cases hfound
      · intro habort
        cases habort
    · rintro ⟨h, hge, hlt, hnot⟩
      exact hnot (hused h hge hlt)

def zeroObject : BSPObject :=
  bspxInitBspobject ⟨fun _ _ => .words 0 0, fun _ _ => ⟨0, 0, 0, 0⟩, fun _ _ => 0⟩
    (fun _ => ⟨0, 0, none⟩) 1 0

theorem zeroObject_handles : Handles [] zeroObject := Handles.init _ _ _ _ fun _ _ => rfl

theorem handles_upTo {k : ℕ} (hk : k ≤ maxGlobalArrays) :
    ∃ bsp, Handles (List.range k).reverse bsp ∧ bsp.globalArrayLast = k % maxGlobalArrays ∧
      bsp.globalOverflow = (k == maxGlobalArrays) := by
  induction k with
  | zero => exact ⟨zeroObject, zeroObject_handles, rfl, rfl⟩
  | succ k ih =>
    obtain ⟨bsp, hlive, hlast, hover⟩ := ih (by omega)
    have hk' : k % maxGlobalArrays = k := Nat.mod_eq_of_lt hk
    have hne : (k == maxGlobalArrays) = false := by
      rw [beq_eq_false_iff_ne]
      omega
    have hfound : searchHandle bsp = .found k := by
      rw [searchHandle, hover, hne, hlast, hk']
      rfl
    obtain ⟨bsp', halloc, -, hlast', hover'⟩ := globalAlloc_found hfound 0 0 0
    refine ⟨bsp', ?_, hlast', ?_⟩
    · rw [List.range_succ, List.reverse_append]
      exact hlive.alloc 0 0 0 halloc
    · rw [hover', hover, hne, Bool.false_or]
      rcases Nat.lt_or_eq_of_le hk with hlt | heq
      · rw [Nat.mod_eq_of_lt hlt]
        simp only [beq_eq_beq]
        omega
      · rw [heq]
        rfl

theorem handles_wrapped {k : ℕ} (hk : k < maxGlobalArrays) : ∃ live bsp, Handles (k :: live) bsp ∧
    bsp.globalArrayLast = (k + 1) % maxGlobalArrays ∧ bsp.globalOverflow = true ∧
      live.length = 127 ∧ ∀ h < maxGlobalArrays, h ∉ live → h = k := by
  obtain ⟨full, hfull, hlast, hover⟩ := handles_upTo le_rfl
  have hmem : k ∈ (List.range maxGlobalArrays).reverse :=
    List.mem_reverse.mpr (List.mem_range.mpr hk)
  have hlen : ((List.range maxGlobalArrays).reverse.erase k).length = 127 := by
    rw [List.length_erase_of_mem hmem, List.length_reverse, List.length_range]
    rfl
  have hothers : ∀ h < maxGlobalArrays,
      h ∉ (List.range maxGlobalArrays).reverse.erase k → h = k := by
    intro h hh hnot
    by_contra hne
    exact hnot ((List.mem_erase_of_ne hne).mpr (List.mem_reverse.mpr (List.mem_range.mpr hh)))
  have hnot := (handles_tracked hfull).nodup.not_mem_erase (a := k)
  have hfreed := hfull.free 0 k hmem
  generalize (List.range maxGlobalArrays).reverse.erase k = live at hfreed hlen hothers hnot
  have hfound : searchHandle (bspxGlobalFree full 0 k) = .found k := by
    rcases searchHandle_spec (handles_tracked hfreed) with ⟨h, hfound, -, hlt, hnot⟩ | ⟨-, hused⟩
    · obtain rfl := hothers h hlt hnot
      exact hfound
    · have hcursor : (bspxGlobalFree full 0 k).globalArrayLast ≤ k :=
        (Nat.le_of_eq hlast).trans (Nat.zero_le k)
      exact absurd (hused k hcursor hk) hnot
  obtain ⟨again, halloc, -, hlast', hover'⟩ := globalAlloc_found hfound 0 0 0
  have hwrapped : (bspxGlobalFree full 0 k).globalOverflow = true := hover
  rw [hwrapped, Bool.true_or] at hover'
  exact ⟨live, again, hfreed.alloc 0 0 0 halloc, hlast', hover', hlen, hothers⟩

/-- All handles are taken, handle 5 is freed and taken again, and handle 100 is freed. -/
theorem allocSafe_wrapped : ∃ live bsp, Handles live bsp ∧ bsp.globalOverflow = true ∧
    bsp.globalArrayLast = 6 ∧ live.length = 127 ∧ AllocSafe live bsp := by
  obtain ⟨live, bsp, hlive, hlast, hover, hlen, hothers⟩ := handles_wrapped (k := 5) (by decide)
  have hmem : 100 ∈ live := by
    by_contra hnot
    exact absurd (hothers 100 (by decide) hnot) (by decide)
  have hfreed := hlive.free 0 100 (List.mem_cons_of_mem 5 hmem)
  refine ⟨_, _, hfreed, hover, hlast, ?_, (allocSafe_iff hfreed).mpr ⟨100, ?_, by decide, ?_⟩⟩
  · rw [List.length_erase_of_mem (List.mem_cons_of_mem 5 hmem), List.length_cons, hlen]
  · have hcursor : (bspxGlobalFree bsp 0 100).globalArrayLast = 6 := hlast
    omega
  · exact (handles_tracked hlive).nodup.not_mem_erase

/-- All handles are taken, and handle 0 is freed, taken and freed again. The cursor is
behind it then. -/
theorem alloc_leaves_arrays : ∃ live bsp, Handles live bsp ∧ live.length = 127 ∧
    searchHandle bsp = .outside 128 := by
  obtain ⟨live, bsp, hlive, hlast, -, hlen, hothers⟩ := handles_wrapped (k := 0) (by decide)
  have hfreed := hlive.free 0 0 List.mem_cons_self
  rw [List.erase_cons_head] at hfreed
  refine ⟨live, _, hfreed, hlen, ?_⟩
  rcases searchHandle_spec (handles_tracked hfreed) with ⟨h, -, hge, hlt, hnot⟩ | ⟨hout, -⟩
  · obtain rfl := hothers h hlt hnot
    have hcursor : (bspxGlobalFree bsp 0 0).globalArrayLast = 1 := hlast
    omega
  · exact hout

end BspOnMpi.GlobalHandles
