import BspOnMpi.Lib.Block
import Mathlib.Logic.Function.Basic

/-! Expandable tables. The table of `bsp_exptable.h`: one block of `nprocs` columns with `rows`
slots each. The union `SpecInfo` is the type parameter `I`, the contents of a slot the parameter
`S`. A slot is read and written as a whole or not at all, so addresses count slots; only the
communicator is given byte counts and byte offsets.

Row and slot counts are natural numbers: the arithmetic of the source on them is exact for tables
of fewer than 2^31 bytes. What `bsp_malloc` leaves in a block of so many rows is the arbitrary
`fresh rows`. -/

namespace BspOnMpi.Exptable
open Lib

def noSlots (bytes slotSize : ℕ) : ℕ := (bytes + slotSize - 1) / slotSize

/-- `array_max` with its stride: the maximum of `array 0`, `array stride`, ... below `n`. -/
def arrayMax (array : ℕ → ℕ) (n stride : ℕ) : ℕ :=
  (List.range n).foldl (fun result i => if i % stride = 0 then max (array i) result else result) 0

theorem le_arrayMax (array : ℕ → ℕ) {n stride i : ℕ} (hi : i < n) (hs : i % stride = 0) :
    array i ≤ arrayMax array n stride := by
  induction n with
  | zero => omega
  | succ n ih =>
    rw [arrayMax, List.range_succ, List.foldl_append, List.foldl_cons, List.foldl_nil]
    rcases Nat.lt_or_eq_of_le (Nat.le_of_lt_succ hi) with hlt | rfl
    · have hle := ih hlt
      rw [arrayMax] at hle
      split
      · exact hle.trans (le_max_right _ _)
      · exact hle
    · rw [if_pos hs]
      exact le_max_left _ _

theorem arrayMax_le {array : ℕ → ℕ} {n stride b : ℕ}
    (h : ∀ i < n, i % stride = 0 → array i ≤ b) : arrayMax array n stride ≤ b := by
  induction n with
  | zero => exact Nat.zero_le b
  | succ n ih =>
    have hle := ih fun i hi => h i (by omega)
    rw [arrayMax] at hle
    rw [arrayMax, List.range_succ, List.foldl_append, List.foldl_cons, List.foldl_nil]
    split
    · exact max_le (h n (Nat.lt_succ_self n) ‹_›) hle
    · exact hle

structure ExpandableTable (I S : Type) where
  nprocs : ℕ
  rows : ℕ
  usedSlotCount : ℕ → ℕ
  slotSize : ℕ
  info : I
  data : ℕ → S
  fresh : ℕ → ℕ → S

variable {I S : Type}

def expandableTableInitialize (nprocs rows elsize : ℕ) (info : I) (fresh : ℕ → ℕ → S) :
    ExpandableTable I S :=
  { nprocs := nprocs
    rows := rows
    usedSlotCount := fun _ => 0
    slotSize := elsize
    info := info
    data := fresh rows
    fresh := fresh }

def expandableTableReset (t : ExpandableTable I S) : ExpandableTable I S :=
  { t with usedSlotCount := fun _ => 0 }

def expandableTableExpand (t : ExpandableTable I S) (rows : ℕ) (newinfo : I) :
    ExpandableTable I S :=
  let newrows := rows + t.rows
  let newdata := (List.range t.nprocs).foldl
    (fun d i => store d (i * newrows) (load t.data (i * t.rows) (t.usedSlotCount i)))
    (t.fresh newrows)
  { t with data := newdata, rows := newrows, info := newinfo }

def expandableTableResetrowcount (t : ExpandableTable I S) (rows : ℕ) : ExpandableTable I S :=
  { t with data := t.fresh rows, rows := rows }

def fixedElSizeTablePush (t : ExpandableTable I S) (proc : ℕ) (changeinfo : I → ℕ → ℕ → I)
    (element : S) : ExpandableTable I S :=
  let t := if t.usedSlotCount proc = t.rows then
      expandableTableExpand t t.rows (changeinfo t.info t.rows (2 * t.rows))
    else t
  let j := t.usedSlotCount proc + proc * t.rows
  { t with
    data := store t.data j [element]
    usedSlotCount := Function.update t.usedSlotCount proc (t.usedSlotCount proc + 1) }

def fixedElSizeTablePush2 (t : ExpandableTable I S) (proc : ℕ) : ExpandableTable I S × ℕ :=
  let t := if t.usedSlotCount proc = t.rows then expandableTableExpand t t.rows t.info else t
  let j := t.usedSlotCount proc + proc * t.rows
  ({ t with usedSlotCount := Function.update t.usedSlotCount proc (t.usedSlotCount proc + 1) }, j)

def commBytes (t : ExpandableTable I S) (i : ℕ) : ℕ := t.usedSlotCount i * t.slotSize

def commOffset (t : ExpandableTable I S) (i : ℕ) : ℕ := i * t.rows * t.slotSize

/-- The communicator at processor `q`: `min (sendcount, recvcount)` bytes from
every processor `p`, between the offsets both sides give for each other. -/
def expandableTableComm (send : ℕ → ExpandableTable I S) (recv : ExpandableTable I S) (q : ℕ) :
    ExpandableTable I S :=
  { recv with data := (List.range recv.nprocs).foldl (fun d p =>
      store d (commOffset recv p / recv.slotSize)
        (load (send p).data (commOffset (send p) q / (send p).slotSize)
          (min (commBytes (send p) q) (commBytes recv p) / recv.slotSize))) recv.data }

def col (t : ExpandableTable I S) (c : ℕ) : ℕ → S := column t.data t.rows c

def Fits (t : ExpandableTable I S) : Prop := ∀ c < t.nprocs, t.usedSlotCount c ≤ t.rows

/-- The used slots of column `c` are the list `els c`. -/
structure Holds (t : ExpandableTable I S) (els : ℕ → List S) : Prop where
  used : ∀ c < t.nprocs, t.usedSlotCount c = (els c).length
  fits : Fits t
  content : ∀ c < t.nprocs, load (col t c) 0 (t.usedSlotCount c) = els c

theorem Holds.congr {t : ExpandableTable I S} {els els' : ℕ → List S} (h : Holds t els)
    (he : ∀ c < t.nprocs, els' c = els c) : Holds t els' := by
  refine ⟨fun c hc => ?_, h.fits, fun c hc => ?_⟩
  · rw [he c hc]
    exact h.used c hc
  · rw [he c hc]
    exact h.content c hc

section Expand

variable (t : ExpandableTable I S) (rows : ℕ) (newinfo : I)

@[simp] theorem expand_nprocs : (expandableTableExpand t rows newinfo).nprocs = t.nprocs := rfl
@[simp] theorem expand_rows : (expandableTableExpand t rows newinfo).rows = rows + t.rows := rfl
@[simp] theorem expand_info : (expandableTableExpand t rows newinfo).info = newinfo := rfl
@[simp] theorem expand_fresh : (expandableTableExpand t rows newinfo).fresh = t.fresh := rfl
@[simp] theorem expand_slotSize :
    (expandableTableExpand t rows newinfo).slotSize = t.slotSize := rfl
@[simp] theorem expand_usedSlotCount :
    (expandableTableExpand t rows newinfo).usedSlotCount = t.usedSlotCount := rfl

variable {t}

theorem expand_col (h : Fits t) {c k : ℕ} (hc : c < t.nprocs) (hk : k < t.usedSlotCount c) :
    col (expandableTableExpand t rows newinfo) c k = col t c k := by
  have hle : ∀ i < t.nprocs,
      (load t.data (i * t.rows) (t.usedSlotCount i)).length ≤ rows + t.rows := by
    intro i hi
    have := h i hi
    simp only [load_length]
    omega
  have hkr : k < rows + t.rows := by have := h c hc; omega
  have hw := writeColumns_column (t.fresh (rows + t.rows)) hle hc hkr
  show column (writeColumns (rows + t.rows) _ t.nprocs (t.fresh (rows + t.rows)))
    (rows + t.rows) c k = _
  rw [hw, store_of_mem _ (Nat.zero_le _) (by simpa using hk), load_getElem]
  simp [col, column]

theorem expand_fits (h : Fits t) : Fits (expandableTableExpand t rows newinfo) := by
  intro c hc
  have := h c hc
  simp only [expand_usedSlotCount, expand_rows]
  omega

theorem expand_holds {els : ℕ → List S} (h : Holds t els) :
    Holds (expandableTableExpand t rows newinfo) els := by
  refine ⟨h.used, expand_fits rows newinfo h.fits, fun c hc => ?_⟩
  rw [← h.content c hc]
  apply load_congr
  intro i hi
  simpa using expand_col rows newinfo h.fits hc (by simpa using hi)

end Expand

theorem holds_reset (t : ExpandableTable I S) : Holds (expandableTableReset t) fun _ => [] :=
  ⟨fun _ _ => rfl, fun _ _ => Nat.zero_le _, fun _ _ => rfl⟩

section Push

variable {t : ExpandableTable I S} {proc : ℕ}

theorem append_holds {els : ℕ → List S} (h : Holds t els) (hp : proc < t.nprocs)
    (hroom : t.usedSlotCount proc < t.rows) (element : S) :
    Holds { t with
      data := store t.data (t.usedSlotCount proc + proc * t.rows) [element]
      usedSlotCount := Function.update t.usedSlotCount proc (t.usedSlotCount proc + 1) }
      (Function.update els proc (els proc ++ [element])) := by
  refine ⟨fun c hc => ?_, fun c hc => ?_, fun c hc => ?_⟩
  · by_cases he : c = proc
    · subst he; simp [h.used c hc]
    · simp [he, h.used c hc]
  · by_cases he : c = proc
    · subst he; simp; omega
    · simpa [he] using h.fits c hc
  · show load (column (store t.data (t.usedSlotCount proc + proc * t.rows) [element]) t.rows c) 0
      (Function.update t.usedSlotCount proc (t.usedSlotCount proc + 1) c) = _
    rw [Nat.add_comm (t.usedSlotCount proc) (proc * t.rows)]
    by_cases he : c = proc
    · subst he
      have hnew := load_store_same (column t.data t.rows c) (t.usedSlotCount c) [element]
      have hold := load_store_disjoint (column t.data t.rows c) (a := 0) (n := t.usedSlotCount c)
        (b := t.usedSlotCount c) [element] (Or.inl (by omega))
      rw [column_store_same, Function.update_self, Function.update_self, load_add, hold,
        Nat.zero_add, ← h.content c hp]
      exact congrArg (_ ++ ·) hnew
    · rw [Function.update_of_ne he, Function.update_of_ne he, ← h.content c hc]
      apply load_congr
      intro i hi
      have hf := h.fits c hc
      exact column_store_other _ _ (Ne.symm he) (by simp only [List.length_singleton]; omega)
        (by omega)

theorem push_holds {els : ℕ → List S} (h : Holds t els) (hrows : 0 < t.rows) (hp : proc < t.nprocs)
    (changeinfo : I → ℕ → ℕ → I) (element : S) :
    Holds (fixedElSizeTablePush t proc changeinfo element)
      (Function.update els proc (els proc ++ [element])) := by
  have hf := h.fits proc hp
  unfold fixedElSizeTablePush
  by_cases hfull : t.usedSlotCount proc = t.rows
  · rw [if_pos hfull]
    exact append_holds (expand_holds _ _ h) hp
      (by simp only [expand_usedSlotCount, expand_rows]; omega) element
  · rw [if_neg hfull]
    exact append_holds h hp (by omega) element

theorem push2_holds {els : ℕ → List S} (h : Holds t els) (hrows : 0 < t.rows) (hp : proc < t.nprocs)
    (element : S) :
    Holds { (fixedElSizeTablePush2 t proc).1 with
        data := store (fixedElSizeTablePush2 t proc).1.data (fixedElSizeTablePush2 t proc).2
          [element] }
      (Function.update els proc (els proc ++ [element])) :=
  push_holds h hrows hp (fun i _ _ => i) element

variable (t proc) (changeinfo : I → ℕ → ℕ → I) (element : S)

@[simp] theorem push_nprocs :
    (fixedElSizeTablePush t proc changeinfo element).nprocs = t.nprocs := by
  simp only [fixedElSizeTablePush]; split <;> rfl

@[simp] theorem push_slotSize :
    (fixedElSizeTablePush t proc changeinfo element).slotSize = t.slotSize := by
  simp only [fixedElSizeTablePush]; split <;> rfl

theorem push_rows_le : t.rows ≤ (fixedElSizeTablePush t proc changeinfo element).rows := by
  simp only [fixedElSizeTablePush]; split <;> simp

theorem push_info : (fixedElSizeTablePush t proc changeinfo element).info =
    if t.usedSlotCount proc = t.rows then changeinfo t.info t.rows (2 * t.rows) else t.info := by
  simp only [fixedElSizeTablePush]; split <;> rfl

end Push

section Comm

variable {send : ℕ → ExpandableTable I S} {recv : ExpandableTable I S} {q : ℕ}

theorem comm_col (hslot : 0 < recv.slotSize)
    (hsend : ∀ p < recv.nprocs, (send p).slotSize = recv.slotSize)
    (hfits : Fits recv) {p k : ℕ} (hp : p < recv.nprocs)
    (hks : k < (send p).usedSlotCount q) (hkr : k < recv.usedSlotCount p) :
    col (expandableTableComm send recv q) p k = col (send p) q k := by
  let xs := fun p => load (send p).data (commOffset (send p) q / (send p).slotSize)
    (min (commBytes (send p) q) (commBytes recv p) / recv.slotSize)
  have hmin : ∀ i < recv.nprocs, min (commBytes (send i) q) (commBytes recv i) / recv.slotSize =
      min ((send i).usedSlotCount q) (recv.usedSlotCount i) := by
    intro i hi
    rw [commBytes, commBytes, hsend i hi, Nat.mul_min_mul_right]
    exact Nat.mul_div_cancel _ hslot
  have hle : ∀ i < recv.nprocs, (xs i).length ≤ recv.rows := by
    intro i hi
    have := hfits i hi
    simp only [xs, load_length, hmin i hi]
    omega
  have hkr' : k < recv.rows := lt_of_lt_of_le hkr (hfits p hp)
  have hoff : ∀ i, commOffset recv i / recv.slotSize = i * recv.rows := fun i =>
    Nat.mul_div_cancel _ hslot
  have hw := writeColumns_column recv.data hle hp hkr'
  have hdata : (expandableTableComm send recv q).data =
      writeColumns recv.rows xs recv.nprocs recv.data := by
    simp only [expandableTableComm, writeColumns, hoff, xs]
  have hlen : k < (xs p).length := by
    simp only [xs, load_length, hmin p hp]
    omega
  show column (expandableTableComm send recv q).data recv.rows p k = _
  rw [hdata, hw, store_of_mem _ (Nat.zero_le _) (by simpa using hlen)]
  simp only [xs, load_getElem, commOffset, hsend p hp, Nat.mul_div_cancel _ hslot, col, column,
    Nat.sub_zero]

@[simp] theorem comm_nprocs : (expandableTableComm send recv q).nprocs = recv.nprocs := rfl
@[simp] theorem comm_rows : (expandableTableComm send recv q).rows = recv.rows := rfl
@[simp] theorem comm_info : (expandableTableComm send recv q).info = recv.info := rfl
@[simp] theorem comm_usedSlotCount :
    (expandableTableComm send recv q).usedSlotCount = recv.usedSlotCount := rfl
@[simp] theorem comm_slotSize : (expandableTableComm send recv q).slotSize = recv.slotSize := rfl

/-- When every receive count is the send count, the received table holds the
columns that the processors addressed to `q`. -/
theorem comm_holds (send : ℕ → ExpandableTable I S) (recv : ExpandableTable I S) (q : ℕ)
    (els : ℕ → ℕ → List S) (hslot : 0 < recv.slotSize)
    (hsend : ∀ p < recv.nprocs, (send p).slotSize = recv.slotSize)
    (hfits : Fits recv) (hq : ∀ p < recv.nprocs, q < (send p).nprocs)
    (hels : ∀ p < recv.nprocs, Holds (send p) (els p))
    (hcount : ∀ p < recv.nprocs, recv.usedSlotCount p = (els p q).length) :
    Holds (expandableTableComm send recv q) fun p => els p q := by
  refine ⟨hcount, hfits, fun p hp => ?_⟩
  have hu := (hels p hp).used q (hq p hp)
  rw [← (hels p hp).content q (hq p hp)]
  simp only [comm_usedSlotCount, hcount p hp, hu]
  apply load_congr
  intro i hi
  exact comm_col hslot hsend hfits hp (by omega) (by have := hcount p hp; omega)

end Comm

end BspOnMpi.Exptable
