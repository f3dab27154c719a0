import BspOnMpi.Exptable
import BspOnMpi.Lib.ArrayLoops

/-! Memory registers. `bsp_memreg.h` and `bsp_memreg.c`: a table with one row for every
registration and in column `p` the address that processor `p` registered. A pop only marks its
row; `memoryRegister_pack` drops the marked rows. The memoized pointers are indices of the block,
and a search that leaves the block has no result.

`numremov` never exceeds the rows of column 0 as long as all columns are equally long, so that the
difference in `memoryRegister_pack` is exact there. -/

namespace BspOnMpi.Memreg
open Lib Exptable

structure MemRegInfo where
  removed : ℕ → Bool
  numremov : ℕ
  memoizedDataIter : Option ℤ
  memoizedSrccol : ℕ
  memoizedSrcProc : ℕ

abbrev MemoryRegister := ExpandableTable MemRegInfo ℕ

def memoryRegisterInitialize (nprocs rows srcProc : ℕ) (fresh : ℕ → ℕ → ℕ) : MemoryRegister :=
  expandableTableInitialize nprocs rows 8
    { removed := fun _ => false
      numremov := 0
      memoizedDataIter := none
      memoizedSrccol := 0
      memoizedSrcProc := srcProc } fresh

def newMemRegInfoAtPush (info : MemRegInfo) (rows _newrows : ℕ) : MemRegInfo :=
  { info with
    removed := fun i => if i < rows then info.removed i else false
    memoizedDataIter := none
    memoizedSrccol := 0 }

def unmemoize (t : MemoryRegister) : MemoryRegister :=
  { t with info := { t.info with memoizedDataIter := none } }

def memoryRegisterPush (t : MemoryRegister) (proc pointer : ℕ) : MemoryRegister :=
  fixedElSizeTablePush (unmemoize t) proc newMemRegInfoAtPush pointer

def markRemoved (t : MemoryRegister) (count : ℕ) : MemoryRegister :=
  { t with info := { t.info with
      removed := Function.update t.info.removed count true
      numremov := t.info.numremov + 1 } }

/-- `none` is `bsp_intern_abort`. -/
def memoryRegisterPop (t : MemoryRegister) (proc pointer : ℕ) : Option MemoryRegister :=
  let array := fun count => t.data (t.rows * proc + count)
  (scanDown (fun count => array count = pointer && !t.info.removed count)
    (t.usedSlotCount proc)).map (markRemoved (unmemoize t))

def memoryRegisterPack (t : MemoryRegister) : MemoryRegister :=
  let count := t.usedSlotCount 0 - t.info.numremov
  let srccol := t.rows * t.info.memoizedSrcProc
  let used := fun i => if i < t.nprocs then count else t.usedSlotCount i
  { t with
    data := (List.range t.nprocs).foldl
      (fun d i => compact t.info.removed (i * t.rows) (t.usedSlotCount i) d) t.data
    usedSlotCount := used
    info := { t.info with
      removed := fun i => if i < t.rows then false else t.info.removed i
      numremov := 0
      memoizedSrccol := srccol
      memoizedDataIter := some ((srccol : ℤ) + used t.info.memoizedSrcProc - 1) } }

def memoryRegisterFind (t : MemoryRegister) (sp dp pointer : ℕ) : Option ℕ :=
  let srccol := t.rows * sp
  let dstcol := t.rows * dp
  (scanDown (fun count => t.data (srccol + count) = pointer && !t.info.removed count)
    (t.usedSlotCount sp)).map fun count => t.data (dstcol + count)

def memoryRegisterMemoizedFind (t : MemoryRegister) (dp pointer : ℕ) : Option ℕ := do
  let dataIter ← t.info.memoizedDataIter
  let i ← scanDown (fun i => t.data i = pointer) (dataIter + 1).toNat
  return t.data (i - t.info.memoizedSrccol + t.rows * dp)

/-- A collective registration: the address that each processor registered. -/
abbrev Row := ℕ → ℕ

def below (n : ℕ) (r : Row) : Row := fun p => if p < n then r p else 0

def columns (rs : List Row) : ℕ → List ℕ := fun c => rs.map fun r => r c

structure Marked (t : MemoryRegister) (rs : List Row) : Prop where
  holds : Holds t (columns rs)
  unmarked : ∀ k, rs.length ≤ k → t.info.removed k = false
  numremov : t.info.numremov + (keepFrom t.info.removed 0 rs).length = rs.length
  rows_pos : 0 < t.rows

def liveRows (t : MemoryRegister) (rs : List Row) : List Row := keepFrom t.info.removed 0 rs

def lastRow (rs : List Row) (sp pointer : ℕ) : Option Row :=
  rs.reverse.find? fun r => r sp = pointer

theorem load_column_base {t : MemoryRegister} {c : ℕ} (n : ℕ) :
    load t.data (c * t.rows) n = load (col t c) 0 n := by
  rw [col, column_load, Nat.add_zero]

section Cell

variable {t : MemoryRegister} {els : ℕ → List ℕ}

theorem holds_cell (h : Holds t els) {c k : ℕ} (hc : c < t.nprocs) (hk : k < (els c).length) :
    (els c)[k]? = some (t.data (t.rows * c + k)) := by
  have hu := h.used c hc
  have hl := load_getElem? (col t c) (a := 0) (n := t.usedSlotCount c) (i := k) (by omega)
  rw [h.content c hc] at hl
  rw [hl, col, column, Nat.zero_add, Nat.mul_comm]

theorem marked_cell {rs : List Row} (h : Marked t rs) {c k : ℕ} (hc : c < t.nprocs) {r : Row}
    (hr : rs[k]? = some r) : t.data (t.rows * c + k) = r c := by
  have hk := (List.getElem?_eq_some_iff.mp hr).1
  have hcell := holds_cell h.holds hc (k := k) (by simpa [columns] using hk)
  simpa [columns, hr] using hcell.symm

theorem marked_used {rs : List Row} (h : Marked t rs) {c : ℕ} (hc : c < t.nprocs) :
    t.usedSlotCount c = rs.length := by
  simpa [columns] using h.holds.used c hc

end Cell

theorem memreg_push_holds {t : MemoryRegister} {els : ℕ → List ℕ} (h : Holds t els)
    (hrows : 0 < t.rows) {proc : ℕ} (hp : proc < t.nprocs) (pointer : ℕ) :
    Holds (memoryRegisterPush t proc pointer)
      (Function.update els proc (els proc ++ [pointer])) :=
  push_holds (t := unmemoize t) ⟨h.used, h.fits, h.content⟩ hrows hp newMemRegInfoAtPush pointer

@[simp] theorem memreg_push_nprocs (t : MemoryRegister) (proc pointer : ℕ) :
    (memoryRegisterPush t proc pointer).nprocs = t.nprocs := push_nprocs ..

@[simp] theorem memreg_push_slotSize (t : MemoryRegister) (proc pointer : ℕ) :
    (memoryRegisterPush t proc pointer).slotSize = t.slotSize := push_slotSize ..

theorem memreg_push_rows (t : MemoryRegister) (proc pointer : ℕ) :
    t.rows ≤ (memoryRegisterPush t proc pointer).rows :=
  push_rows_le (unmemoize t) proc newMemRegInfoAtPush pointer

theorem memreg_push_info (t : MemoryRegister) (proc pointer : ℕ)
    (hm : ∀ k, t.rows ≤ k → t.info.removed k = false) :
    (memoryRegisterPush t proc pointer).info.removed = t.info.removed ∧
      (memoryRegisterPush t proc pointer).info.numremov = t.info.numremov ∧
      (memoryRegisterPush t proc pointer).info.memoizedSrcProc = t.info.memoizedSrcProc := by
  have hi := push_info (unmemoize t) proc newMemRegInfoAtPush pointer
  simp only [memoryRegisterPush, hi]
  split
  · refine ⟨funext fun i => ?_, rfl, rfl⟩
    show (if i < t.rows then t.info.removed i else false) = t.info.removed i
    by_cases hlt : i < t.rows
    · rw [if_pos hlt]
    · rw [if_neg hlt, hm i (by omega)]
  · exact ⟨rfl, rfl, rfl⟩

def pushAll (t : MemoryRegister) (ps : List (ℕ × ℕ)) : MemoryRegister :=
  ps.foldl (fun t e => memoryRegisterPush t e.1 e.2) t

def extendColumns (els : ℕ → List ℕ) (ps : List (ℕ × ℕ)) : ℕ → List ℕ := fun c =>
  els c ++ (ps.filter fun e => e.1 = c).map Prod.snd

theorem pushAll_spec {t : MemoryRegister} {els : ℕ → List ℕ} (h : Holds t els) (hrows : 0 < t.rows)
    (hm : ∀ k, t.rows ≤ k → t.info.removed k = false) (ps : List (ℕ × ℕ))
    (hps : ∀ e ∈ ps, e.1 < t.nprocs) :
    Holds (pushAll t ps) (extendColumns els ps) ∧ t.rows ≤ (pushAll t ps).rows ∧
      (pushAll t ps).nprocs = t.nprocs ∧ (pushAll t ps).slotSize = t.slotSize ∧
      (pushAll t ps).info.removed = t.info.removed ∧
      (pushAll t ps).info.numremov = t.info.numremov ∧
      (pushAll t ps).info.memoizedSrcProc = t.info.memoizedSrcProc := by
  induction ps generalizing t els with
  | nil =>
    have hcols : extendColumns els [] = els := by
      funext c
      simp [extendColumns]
    rw [hcols]
    exact ⟨h, le_rfl, rfl, rfl, rfl, rfl, rfl⟩
  | cons e ps ih =>
    have hr := memreg_push_rows t e.1 e.2
    obtain ⟨hi1, hi2, hi3⟩ := memreg_push_info t e.1 e.2 hm
    obtain ⟨h1, h2, h3, h4, h5, h6, h7⟩ := ih
      (memreg_push_holds h hrows (hps e (by simp)) e.2) (by omega)
      (fun k hk => by rw [hi1]; exact hm k (by omega))
      (fun x hx => by rw [memreg_push_nprocs]; exact hps x (by simp [hx]))
    refine ⟨?_, hr.trans h2, h3.trans (memreg_push_nprocs ..), h4.trans (memreg_push_slotSize ..),
      h5.trans hi1, h6.trans hi2, h7.trans hi3⟩
    have hcols : extendColumns (Function.update els e.1 (els e.1 ++ [e.2])) ps =
        extendColumns els (e :: ps) := by
      funext c
      by_cases hc : e.1 = c
      · subst hc; simp [extendColumns]
      · simp [extendColumns, hc, Function.update_of_ne (Ne.symm hc)]
    rw [← hcols]
    exact h1

theorem pushRows_marked {t : MemoryRegister} {rs rows : List Row} (h : Marked t rs)
    (hn : 0 < t.nprocs) {ps : List (ℕ × ℕ)} (hps : ∀ e ∈ ps, e.1 < t.nprocs)
    (hrows : ∀ c < t.nprocs, (ps.filter fun e => e.1 = c).map Prod.snd = columns rows c) :
    Marked (pushAll t ps) (rs ++ rows) ∧
      liveRows (pushAll t ps) (rs ++ rows) = liveRows t rs ++ rows ∧
      (pushAll t ps).nprocs = t.nprocs ∧
      (pushAll t ps).info.numremov = t.info.numremov ∧
      (pushAll t ps).info.memoizedSrcProc = t.info.memoizedSrcProc := by
  have hfits : rs.length ≤ t.rows := by
    rw [← marked_used h hn]
    exact h.holds.fits 0 hn
  obtain ⟨hholds, hle, hnprocs, -, hremoved, hnumremov, hsrc⟩ :=
    pushAll_spec h.holds h.rows_pos (fun k hk => h.unmarked k (hfits.trans hk)) ps hps
  have hlive : keepFrom t.info.removed 0 (rs ++ rows) = keepFrom t.info.removed 0 rs ++ rows := by
    rw [keepFrom_append]
    congr 1
    exact keepFrom_none fun j hj _ => h.unmarked j (by omega)
  refine ⟨⟨hholds.congr fun c hc => ?_, fun k hk => ?_, ?_, lt_of_lt_of_le h.rows_pos hle⟩, ?_,
    hnprocs, hnumremov, hsrc⟩
  · rw [extendColumns, hrows c (lt_of_lt_of_eq hc hnprocs)]
    exact List.map_append
  · rw [hremoved]
    rw [List.length_append] at hk
    exact h.unmarked k (by omega)
  · have hnum := h.numremov
    rw [hremoved, hnumremov, hlive, List.length_append, List.length_append]
    omega
  · rw [liveRows, hremoved]
    exact hlive

/-- A pop removes the last live row that holds the address at `proc`. -/
theorem pop_spec {t : MemoryRegister} {rs : List Row} (h : Marked t rs) {proc : ℕ}
    (hp : proc < t.nprocs) {pointer : ℕ} (hex : ∃ r ∈ liveRows t rs, r proc = pointer) :
    ∃ t', memoryRegisterPop t proc pointer = some t' ∧ Marked t' rs ∧
      liveRows t' rs = eraseLast (fun r => r proc = pointer) (liveRows t rs) ∧
      t'.nprocs = t.nprocs ∧ t'.slotSize = t.slotSize ∧ t'.rows = t.rows ∧
      t'.info.memoizedSrcProc = t.info.memoizedSrcProc := by
  have hused := marked_used h hp
  let p := fun count => decide (t.data (t.rows * proc + count) = pointer) && !t.info.removed count
  obtain ⟨r, hr, hrp⟩ := hex
  obtain ⟨j, hj, hjr⟩ := mem_keepFrom.mp hr
  rw [Nat.zero_add] at hj
  have hjlt := (List.getElem?_eq_some_iff.mp hjr).1
  have hpj : p j = true := by simp [p, marked_cell h hp hjr, hrp, hj]
  cases hs : scanDown p (t.usedSlotCount proc) with
  | none =>
    rw [scanDown_eq_none.mp hs j (by omega)] at hpj
    exact absurd hpj (by simp)
  | some k =>
    obtain ⟨hk, hpk, hlast⟩ := scanDown_eq_some.mp hs
    obtain ⟨a, ha⟩ : ∃ a, rs[k]? = some a := ⟨rs[k], List.getElem?_eq_getElem (by omega)⟩
    have hpk' : a proc = pointer ∧ t.info.removed k = false := by
      simpa [p, marked_cell h hp ha] using hpk
    obtain ⟨hkeep, hcount⟩ := keepFrom_mark (r := t.info.removed)
      (p := fun r : Row => decide (r proc = pointer)) ha hpk'.2 (by simpa using hpk'.1) (by
        intro i b hi hb hri
        have := hlast i hi (by have := (List.getElem?_eq_some_iff.mp hb).1; omega)
        simpa [p, marked_cell h hp hb, hri] using this)
    refine ⟨markRemoved (unmemoize t) k, congrArg (Option.map _) hs,
      ⟨⟨h.holds.used, h.holds.fits, h.holds.content⟩, fun i hi => ?_, ?_, h.rows_pos⟩,
      hkeep, rfl, rfl, rfl, rfl⟩
    · exact (Function.update_of_ne (by omega) _ _).trans (h.unmarked i hi)
    · have hnum := h.numremov
      rw [← hcount] at hnum
      show t.info.numremov + 1 + (keepFrom (Function.update t.info.removed k true) 0 rs).length = _
      omega

theorem compactColumns_spec {t : MemoryRegister} {els : ℕ → List ℕ} (h : Holds t els) {n c : ℕ}
    (hn : n ≤ t.nprocs) (hc : c < t.nprocs) :
    let d := (List.range n).foldl
      (fun d i => compact t.info.removed (i * t.rows) (t.usedSlotCount i) d) t.data
    let kept := keepFrom t.info.removed 0 (els c)
    (c < n → load d (c * t.rows) kept.length = kept) ∧
      (n ≤ c → ∀ k < t.rows, d (c * t.rows + k) = t.data (c * t.rows + k)) := by
  induction n with
  | zero => exact ⟨fun h => absurd h (Nat.not_lt_zero c), fun _ _ _ => rfl⟩
  | succ n ih =>
    simp only [List.range_succ, List.foldl_append, List.foldl_cons, List.foldl_nil]
    have hi := ih (by omega)
    generalize (List.range n).foldl
      (fun d i => compact t.info.removed (i * t.rows) (t.usedSlotCount i) d) t.data = d at hi ⊢
    have hfn := h.fits n (by omega)
    have hfc := h.fits c hc
    have hkept := keepFrom_length_le t.info.removed 0 (els c)
    rw [← h.used c hc] at hkept
    have hother : ∀ k < t.rows, c ≠ n →
        compact t.info.removed (n * t.rows) (t.usedSlotCount n) d (c * t.rows + k) =
          d (c * t.rows + k) := by
      intro k hk hne
      apply compact_outside
      by_contra hin
      have hx : n * t.rows + (c * t.rows + k - n * t.rows) = c * t.rows + k := by omega
      exact column_index_ne (Ne.symm hne) (k := c * t.rows + k - n * t.rows) (by omega) hk hx
    refine ⟨fun hlt => ?_, fun hge k hk => ?_⟩
    · by_cases he : c = n
      · subst he
        have hload : load d (c * t.rows) (t.usedSlotCount c) = els c := by
          rw [← h.content c hc, ← load_column_base]
          exact load_congr fun i hi' => hi.2 le_rfl i (by omega)
        have hcomp := compact_load t.info.removed (c * t.rows) (t.usedSlotCount c) d
        rwa [hload] at hcomp
      · rw [load_congr fun i hi' => hother i (by omega) he]
        exact hi.1 (by omega)
    · rw [hother k hk (by omega)]
      exact hi.2 (by omega) k hk

/-- Packing leaves the live rows, unmarked. -/
theorem pack_spec {t : MemoryRegister} {rs : List Row} (h : Marked t rs) (hn : 0 < t.nprocs) :
    Marked (memoryRegisterPack t) (liveRows t rs) ∧
      (∀ k, (memoryRegisterPack t).info.removed k = false) ∧
      (memoryRegisterPack t).info.numremov = 0 := by
  have hnum := h.numremov
  have hlen := keepFrom_length_le t.info.removed 0 rs
  have hcount : t.usedSlotCount 0 - t.info.numremov = (liveRows t rs).length := by
    rw [marked_used h hn, liveRows]
    omega
  have hrem : ∀ k, (memoryRegisterPack t).info.removed k = false := by
    intro k
    show (if k < t.rows then false else t.info.removed k) = false
    by_cases hk : k < t.rows
    · rw [if_pos hk]
    · have hf := h.holds.fits 0 hn
      rw [marked_used h hn] at hf
      rw [if_neg hk, h.unmarked k (by omega)]
  have hused : ∀ c < t.nprocs,
      (memoryRegisterPack t).usedSlotCount c = (liveRows t rs).length := by
    intro c hc
    rw [← hcount]
    exact if_pos hc
  refine ⟨⟨⟨fun c hc => ?_, fun c hc => ?_, fun c hc => ?_⟩, fun k _ => hrem k, ?_, h.rows_pos⟩,
    hrem, rfl⟩
  · rw [hused c hc]
    simp [columns]
  · have hf := h.holds.fits c hc
    rw [marked_used h hc] at hf
    rw [hused c hc]
    exact hlen.trans hf
  · have hspec := (compactColumns_spec h.holds le_rfl hc).1 hc
    rw [columns, keepFrom_map, List.length_map] at hspec
    rw [hused c hc, ← load_column_base]
    exact hspec
  · have hkeep : keepFrom (memoryRegisterPack t).info.removed 0 (liveRows t rs) = liveRows t rs :=
      keepFrom_none fun j _ _ => hrem j
    rw [hkeep]
    exact Nat.zero_add _

theorem lastRow_eq_some {rs : List Row} {sp pointer : ℕ} {r : Row} :
    lastRow rs sp pointer = some r ↔
      ∃ xs ys, rs = xs ++ r :: ys ∧ r sp = pointer ∧ ∀ y ∈ ys, y sp ≠ pointer := by
  unfold lastRow
  rw [List.find?_eq_some_iff_append]
  constructor
  · rintro ⟨hr, as, bs, hsplit, has⟩
    refine ⟨bs.reverse, as.reverse, ?_, by simpa using hr, fun y hy => ?_⟩
    · rw [← List.reverse_reverse rs, hsplit]
      simp
    · simpa using has y (by simpa using hy)
  · rintro ⟨xs, ys, rfl, hr, hys⟩
    refine ⟨by simpa using hr, ys.reverse, xs.reverse, by simp, fun a ha => ?_⟩
    simpa using hys a (by simpa using ha)

theorem lastRow_eq_none {rs : List Row} {sp pointer : ℕ} :
    lastRow rs sp pointer = none ↔ ∀ r ∈ rs, r sp ≠ pointer := by
  simp [lastRow]

/-- A search finds the address in the last live row. -/
theorem find_spec {t : MemoryRegister} {rs : List Row} (h : Marked t rs) {sp dp : ℕ}
    (hs : sp < t.nprocs) (hd : dp < t.nprocs) (pointer : ℕ) :
    memoryRegisterFind t sp dp pointer = (lastRow (liveRows t rs) sp pointer).map fun r =>
      r dp := by
  have hused := marked_used h hs
  let p := fun count => decide (t.data (t.rows * sp + count) = pointer) && !t.info.removed count
  show (scanDown p (t.usedSlotCount sp)).map _ = _
  cases hscan : scanDown p (t.usedSlotCount sp) with
  | none =>
    have hnone := scanDown_eq_none.mp hscan
    rw [lastRow_eq_none.mpr]
    · rfl
    · intro r hr
      obtain ⟨j, hj, hjr⟩ := mem_keepFrom.mp hr
      rw [Nat.zero_add] at hj
      have hjlt := (List.getElem?_eq_some_iff.mp hjr).1
      simpa [p, marked_cell h hs hjr, hj] using hnone j (by omega)
  | some k =>
    obtain ⟨hk, hpk, hlast⟩ := scanDown_eq_some.mp hscan
    obtain ⟨a, ha⟩ : ∃ a, rs[k]? = some a := ⟨rs[k], List.getElem?_eq_getElem (by omega)⟩
    have hpk' : a sp = pointer ∧ t.info.removed k = false := by
      simpa [p, marked_cell h hs ha] using hpk
    obtain ⟨hlt, hget⟩ := List.getElem?_eq_some_iff.mp ha
    have hsplit : rs = rs.take k ++ a :: rs.drop (k + 1) := by
      rw [← hget, List.getElem_cons_drop, List.take_append_drop]
    have hlen : 0 + (rs.take k).length = k := by simp; omega
    have hrow : lastRow (liveRows t rs) sp pointer = some a := by
      refine lastRow_eq_some.mpr ⟨keepFrom t.info.removed 0 (rs.take k),
        keepFrom t.info.removed (k + 1) (rs.drop (k + 1)), ?_, hpk'.1, fun y hy => ?_⟩
      · unfold liveRows
        conv_lhs => rw [hsplit]
        rw [keepFrom_append, hlen]
        simp [keepFrom, hpk'.2]
      · obtain ⟨j, hj, hjy⟩ := mem_keepFrom.mp hy
        rw [List.getElem?_drop] at hjy
        have hjlt := (List.getElem?_eq_some_iff.mp hjy).1
        simpa [p, marked_cell h hs hjy, hj] using hlast (k + 1 + j) (by omega) (by omega)
    rw [hrow, Option.map_some, Option.map_some, marked_cell h hd ha]

structure Registered (t : MemoryRegister) (rs : List Row) (proc : ℕ) : Prop where
  marked : Marked t rs
  clear : ∀ k, t.info.removed k = false
  srcProc : t.info.memoizedSrcProc = proc
  memo : rs ≠ [] → t.info.memoizedSrccol = t.rows * proc ∧
    t.info.memoizedDataIter = some ((t.rows * proc : ℕ) + (rs.length : ℤ) - 1)

theorem registered_live {t : MemoryRegister} {rs : List Row} {proc : ℕ} (h : Registered t rs proc) :
    liveRows t rs = rs :=
  keepFrom_none fun j _ _ => h.clear j

theorem initialize_registered (nprocs rows srcProc : ℕ) (fresh : ℕ → ℕ → ℕ) (hr : 0 < rows) :
    Registered (memoryRegisterInitialize nprocs rows srcProc fresh) [] srcProc :=
  ⟨⟨⟨fun _ _ => rfl, fun _ _ => Nat.zero_le _, fun _ _ => rfl⟩, fun _ _ => rfl, rfl, hr⟩,
    fun _ => rfl, rfl, fun h => absurd rfl h⟩

theorem pack_registered {t : MemoryRegister} {rs : List Row} (h : Marked t rs) {proc : ℕ}
    (hproc : t.info.memoizedSrcProc = proc) (hp : proc < t.nprocs) :
    Registered (memoryRegisterPack t) (liveRows t rs) proc := by
  obtain ⟨hmarked, hclear, -⟩ := pack_spec h (by omega)
  refine ⟨hmarked, hclear, hproc, fun _ => ⟨?_, ?_⟩⟩
  · show t.rows * t.info.memoizedSrcProc = _
    rw [hproc]
    rfl
  · have hu := marked_used hmarked hp
    rw [← hu, ← hproc]
    rfl

theorem memoized_scan {t : MemoryRegister} {xs ys : List Row} {r : Row} {proc pointer : ℕ}
    (h : Registered t (xs ++ r :: ys) proc) (hp : proc < t.nprocs) (hrp : r proc = pointer)
    (hys : ∀ y ∈ ys, y proc ≠ pointer) : ∃ dataIter, t.info.memoizedDataIter = some dataIter ∧
      scanDown (fun i => t.data i = pointer) (dataIter + 1).toNat =
        some (t.rows * proc + xs.length) := by
  have hcell : ∀ k a, (xs ++ r :: ys)[k]? = some a → t.data (t.rows * proc + k) = a proc :=
    fun k a ha => marked_cell h.marked hp ha
  have hrow : (xs ++ r :: ys)[xs.length]? = some r := by simp
  have hn : (((t.rows * proc : ℕ) : ℤ) + ((xs ++ r :: ys).length : ℤ) - 1 + 1).toNat =
      t.rows * proc + (xs.length + ys.length + 1) := by
    simp only [List.length_append, List.length_cons]
    omega
  refine ⟨_, (h.memo (by simp)).2, ?_⟩
  rw [hn]
  refine scanDown_eq_some.mpr ⟨by omega, by simp [hcell _ _ hrow, hrp], fun j h1 h2 => ?_⟩
  obtain ⟨i, rfl⟩ : ∃ i, j = t.rows * proc + xs.length + 1 + i :=
    ⟨j - (t.rows * proc + xs.length + 1), by omega⟩
  have hi : i < ys.length := by omega
  have hy : (xs ++ r :: ys)[xs.length + 1 + i]? = some ys[i] := by
    rw [List.getElem?_append_right (by omega)]
    simp [show xs.length + 1 + i - xs.length = i + 1 by omega, hi]
  have hc := hcell _ _ hy
  rw [← Nat.add_assoc, ← Nat.add_assoc] at hc
  simpa [hc] using hys _ (List.getElem_mem hi)

theorem memoizedFind_spec {t : MemoryRegister} {rs : List Row} {proc dp pointer : ℕ}
    (h : Registered t rs proc) (hp : proc < t.nprocs) (hd : dp < t.nprocs) {r : Row}
    (hr : lastRow rs proc pointer = some r) :
    memoryRegisterMemoizedFind t dp pointer = some (r dp) := by
  obtain ⟨xs, ys, rfl, hrp, hys⟩ := lastRow_eq_some.mp hr
  obtain ⟨hcol, -⟩ := h.memo (by simp)
  obtain ⟨dataIter, hiter, hscan⟩ := memoized_scan h hp hrp hys
  have hrow : (xs ++ r :: ys)[xs.length]? = some r := by simp
  have hidx : t.rows * proc + xs.length - t.rows * proc + t.rows * dp =
      t.rows * dp + xs.length := by
    omega
  simp only [memoryRegisterMemoizedFind, hiter, Option.bind_eq_bind, Option.bind_some, hscan,
    hcol, hidx, marked_cell h.marked hd hrow]
  rfl

end BspOnMpi.Memreg
