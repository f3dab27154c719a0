import BspOnMpi.Superstep

/-! Global arrays. `bsp_global_drma.c`. Byte `o` of an array lives in block `o / localSize`. An
access starts at block `offset * procs / arraySize`, which is not always the same, and then goes
from block to block. -/

namespace BspOnMpi.GlobalArrays
open Lib Memreg Slots Machine Bspx Calls BspxSync Superstep

def sub64 (x y : ℕ) : ℕ := (x + (2 ^ 64 - y % 2 ^ 64)) % 2 ^ 64

def toInt64 (x : ℕ) : ℤ := Int.bmod x (2 ^ 64)

structure Transfer where
  offsetProc : ℕ
  offsetIdx : ℕ
  moved : ℕ
  sizeTodo : ℕ
  deriving DecidableEq

def transferLoop (localSize : ℕ) : ℕ → ℕ → ℕ → ℕ → ℕ → Option (List Transfer)
  | 0, _, _, _, size => if size = 0 then some [] else none
  | fuel + 1, offsetProc, offsetIdx, moved, size =>
    if size = 0 then some []
    else
      let sizeTodo := if size > sub64 localSize offsetIdx then sub64 localSize offsetIdx else size
      (transferLoop localSize fuel ((offsetProc + 1) % 2 ^ 64) 0 (moved + sizeTodo)
        (size - sizeTodo)).map (⟨offsetProc, offsetIdx, moved, sizeTodo⟩ :: ·)

def transfers (arraySize localSize procs offset size : ℕ) : Option (List Transfer) :=
  let offsetProc := offset * procs % 2 ^ 64 / arraySize
  let offsetIdx := sub64 offset (offsetProc * localSize)
  transferLoop localSize (size + 1) offsetProc offsetIdx 0 size

def transfersOf (bsp : BSPObject) (handle offset size : ℕ) : Option (List Transfer) :=
  let a := bsp.globalArrays handle
  transfers a.arraySize a.localSize bsp.nprocs offset size

def bspxGlobalGet (bsp : BSPObject) (src offset dest size : ℕ) : Option (List Op) :=
  (transfersOf bsp src offset size).map <| List.map fun t =>
    .get (toUInt32 t.offsetProc) (sliceOf bsp src) (toInt64 t.offsetIdx) (dest + t.moved) t.sizeTodo

def bspxGlobalPut (bsp : BSPObject) (src dest offset size : ℕ) : Option (List Op) :=
  (transfersOf bsp dest offset size).map <| List.map fun t =>
    .put (toUInt32 t.offsetProc) (src + t.moved) (sliceOf bsp dest) (toInt64 t.offsetIdx) t.sizeTodo

def bspxGlobalHpget (bsp : BSPObject) (src offset dest size : ℕ) : Option (List Op) :=
  (transfersOf bsp src offset size).map <| List.map fun t =>
    .hpget (toUInt32 t.offsetProc) (sliceOf bsp src) (toInt64 t.offsetIdx)
      (dest + t.moved) t.sizeTodo

def bspxGlobalHpput (bsp : BSPObject) (src dest offset size : ℕ) : Option (List Op) :=
  (transfersOf bsp dest offset size).map <| List.map fun t =>
    .hpput (toUInt32 t.offsetProc) (src + t.moved) (sliceOf bsp dest)
      (toInt64 t.offsetIdx) t.sizeTodo

/-- The bytes of a transfer: the position in the local buffer, the processor and
the position in its slice. -/
def Transfer.bytes (t : Transfer) : List (ℕ × ℕ × ℕ) :=
  (List.range t.sizeTodo).map fun i => (t.moved + i, t.offsetProc, t.offsetIdx + i)

structure Transfer.InSlice (procs localSize : ℕ) (t : Transfer) : Prop where
  proc : t.offsetProc < procs
  idx : t.offsetIdx < localSize
  fits : t.offsetIdx + t.sizeTodo ≤ localSize

def layout (localSize offset size : ℕ) : List (ℕ × ℕ × ℕ) :=
  (List.range size).map fun i => (i, (offset + i) / localSize, (offset + i) % localSize)

/-- On an array of `gsize` bytes the loop ends, keeps its assertions and meets every
byte of the range once and in order. -/
def Addressing (gsize procs offset size : ℕ) : Prop :=
  ∃ ts, transfers gsize (allocSize gsize procs) procs offset size = some ts ∧
    (∀ t ∈ ts, t.InSlice procs (allocSize gsize procs)) ∧
    ts.flatMap Transfer.bytes = layout (allocSize gsize procs) offset size

def SameStart (gsize procs offset size : ℕ) : Prop :=
  size = 0 ∨ offset * procs / gsize = offset / allocSize gsize procs

section Addressing

variable {localSize procs : ℕ}

theorem sub64_eq {x y : ℕ} (hx : x < 2 ^ 64) (h : y ≤ x) : sub64 x y = x - y := by
  have hy : y % 2 ^ 64 = y := Nat.mod_eq_of_lt (by omega)
  have hxy : x + (2 ^ 64 - y) = x - y + 2 ^ 64 := by omega
  rw [sub64, hy, hxy, Nat.add_mod_right, Nat.mod_eq_of_lt (by omega)]

theorem transferLoop_zero (fuel proc idx moved : ℕ) :
    transferLoop localSize fuel proc idx moved 0 = some [] := by
  cases fuel <;> rw [transferLoop, if_pos rfl]

theorem transferLoop_succ (fuel proc idx moved : ℕ) {size : ℕ} (h : size ≠ 0) :
    transferLoop localSize (fuel + 1) proc idx moved size =
      let sizeTodo := if size > sub64 localSize idx then sub64 localSize idx else size
      (transferLoop localSize fuel ((proc + 1) % 2 ^ 64) 0 (moved + sizeTodo)
        (size - sizeTodo)).map (⟨proc, idx, moved, sizeTodo⟩ :: ·) := by
  rw [transferLoop, if_neg h]

theorem layout_add (localSize offset m n : ℕ) : layout localSize offset (m + n) =
    layout localSize offset m ++
      (layout localSize (offset + m) n).map fun e => (m + e.1, e.2) := by
  simp [layout, List.range_add, Nat.add_assoc]

theorem layout_block {proc idx size : ℕ} (h : idx + size ≤ localSize) :
    layout localSize (proc * localSize + idx) size =
      (List.range size).map fun i => (i, proc, idx + i) := by
  apply List.map_congr_left
  intro i hi
  have hlt : idx + i < localSize := by
    have := List.mem_range.mp hi
    omega
  have hdiv : (proc * localSize + (idx + i)) / localSize = proc := by
    rw [Nat.mul_comm, Nat.mul_add_div (by omega), Nat.div_eq_of_lt hlt, Nat.add_zero]
  have hmod : (proc * localSize + (idx + i)) % localSize = idx + i := by
    rw [Nat.mul_comm, Nat.mul_add_mod, Nat.mod_eq_of_lt hlt]
  rw [Nat.add_assoc, hdiv, hmod]

theorem transferLoop_addressing (hL : localSize < 2 ^ 64) (hprocs : procs < 2 ^ 64) {fuel : ℕ} :
    ∀ {proc idx size : ℕ} (moved : ℕ), idx < localSize → size ≤ fuel →
      proc * localSize + idx + size ≤ procs * localSize →
      ∃ ts, transferLoop localSize fuel proc idx moved size = some ts ∧
        (∀ t ∈ ts, t.InSlice procs localSize) ∧ ts.flatMap Transfer.bytes =
          (layout localSize (proc * localSize + idx) size).map fun e => (moved + e.1, e.2) := by
  induction fuel with
  | zero =>
    intro proc idx size moved _ hsize _
    have h0 : size = 0 := by omega
    subst h0
    exact ⟨[], transferLoop_zero .., by simp, rfl⟩
  | succ fuel ih =>
    intro proc idx size moved hidx hsize hend
    by_cases h0 : size = 0
    · subst h0
      exact ⟨[], transferLoop_zero .., by simp, rfl⟩
    have hproc : proc < procs := by
      by_contra hge
      have := Nat.mul_le_mul_right localSize (Nat.le_of_not_lt hge)
      omega
    let todo := if size > sub64 localSize idx then sub64 localSize idx else size
    have hsub : sub64 localSize idx = localSize - idx := sub64_eq hL (by omega)
    have htodo : 0 < todo ∧ todo ≤ size ∧ idx + todo ≤ localSize ∧
        (todo < size → idx + todo = localSize) := by
      simp only [todo, hsub]
      split <;> omega
    obtain ⟨hpos, hle, hfit, hfull⟩ := htodo
    have hwrap : (proc + 1) % 2 ^ 64 = proc + 1 := Nat.mod_eq_of_lt (by omega)
    -- what is left starts at the next block, and nothing is left of a block that is not full
    have hnext : layout localSize (proc * localSize + idx + todo) (size - todo) =
        layout localSize ((proc + 1) * localSize + 0) (size - todo) := by
      rcases Nat.lt_or_eq_of_le hle with hlt | heq
      · have hf := hfull hlt
        rw [Nat.succ_mul, Nat.add_assoc, hf, Nat.add_zero]
      · rw [heq, Nat.sub_self]
        rfl
    have hrest : ∃ ts, transferLoop localSize fuel (proc + 1) 0 (moved + todo) (size - todo) =
        some ts ∧ (∀ t ∈ ts, t.InSlice procs localSize) ∧ ts.flatMap Transfer.bytes =
          (layout localSize ((proc + 1) * localSize + 0) (size - todo)).map fun e =>
            (moved + todo + e.1, e.2) := by
      rcases Nat.lt_or_eq_of_le hle with hlt | heq
      · have hf := hfull hlt
        exact ih _ (by omega) (by omega) (by rw [Nat.succ_mul]; omega)
      · rw [heq, Nat.sub_self]
        exact ⟨[], transferLoop_zero .., by simp, rfl⟩
    obtain ⟨ts, hts, hin, hbytes⟩ := hrest
    refine ⟨⟨proc, idx, moved, todo⟩ :: ts, ?_, ?_, ?_⟩
    · rw [transferLoop_succ _ _ _ _ h0, hwrap]
      exact congrArg (Option.map _) hts
    · exact List.forall_mem_cons.mpr ⟨⟨hproc, hidx, hfit⟩, hin⟩
    · have hsplit : size = todo + (size - todo) := by omega
      rw [hsplit, layout_add, hnext, layout_block hfit, List.flatMap_cons, hbytes, Transfer.bytes,
        List.map_append, List.map_map, List.map_map]
      simp [Function.comp_def, Nat.add_assoc]

theorem transferLoop_start {fuel proc idx moved size offset : ℕ} (h0 : size ≠ 0)
    {ts : List Transfer} (h : transferLoop localSize fuel proc idx moved size = some ts)
    (hin : ∀ t ∈ ts, t.InSlice procs localSize)
    (hL : localSize < 2 ^ 64)
    (hbytes : ts.flatMap Transfer.bytes = layout localSize offset size) :
    proc = offset / localSize := by
  cases fuel with
  | zero =>
    rw [transferLoop, if_neg h0] at h
    cases h
  | succ fuel =>
    rw [transferLoop_succ _ _ _ _ h0] at h
    obtain ⟨rest, -, rfl⟩ := Option.map_eq_some_iff.mp h
    have hfirst := hin _ (List.mem_cons_self ..)
    have hidx : idx < localSize := hfirst.idx
    have hsub : sub64 localSize idx = localSize - idx := sub64_eq hL (by omega)
    have hhead := congrArg List.head? hbytes
    generalize htodo : (if size > sub64 localSize idx then sub64 localSize idx else size) = todo
      at hhead
    have hpos : todo ≠ 0 := by
      rw [← htodo, hsub]
      split <;> omega
    obtain ⟨k, rfl⟩ := Nat.exists_eq_succ_of_ne_zero hpos
    obtain ⟨l, rfl⟩ := Nat.exists_eq_succ_of_ne_zero h0
    simp only [List.flatMap_cons, Transfer.bytes, layout, List.range_succ_eq_map, List.map_cons,
      List.cons_append, List.head?_cons, Option.some.injEq, Prod.mk.injEq, Nat.add_zero] at hhead
    exact hhead.2.1

end Addressing

section Allocated

variable {gsize procs : ℕ}

theorem allocSize_bounds (hg : 0 < gsize) (hp : 0 < procs) (h64 : gsize + procs ≤ 2 ^ 64) :
    0 < allocSize gsize procs ∧ allocSize gsize procs < 2 ^ 64 ∧
      gsize ≤ procs * allocSize gsize procs := by
  have hmod : allocSize gsize procs = (gsize + procs - 1) / procs := by
    rw [allocSize, Nat.mod_eq_of_lt (by omega)]
  have hdm := Nat.div_add_mod (gsize + procs - 1) procs
  have hlt := Nat.mod_lt (gsize + procs - 1) hp
  have hpos : 0 < (gsize + procs - 1) / procs := Nat.div_pos (by omega) hp
  have hle := Nat.div_le_self (gsize + procs - 1) procs
  rw [hmod]
  omega

theorem addressing_sameStart (hg : 0 < gsize) (hp : 0 < procs) (h64 : gsize + procs ≤ 2 ^ 64)
    {offset size : ℕ} (hrange : offset + size ≤ gsize) (hover : offset * procs < 2 ^ 64) :
    Addressing gsize procs offset size ↔ SameStart gsize procs offset size := by
  obtain ⟨hL, hL64, hblocks⟩ := allocSize_bounds hg hp h64
  simp only [Addressing, SameStart, transfers, Nat.mod_eq_of_lt hover]
  constructor
  · rintro ⟨ts, hts, hin, hbytes⟩
    by_cases h0 : size = 0
    · exact .inl h0
    · exact .inr (transferLoop_start h0 hts hin hL64 hbytes)
  · intro hstart
    by_cases h0 : size = 0
    · subst h0
      exact ⟨[], transferLoop_zero .., by simp, rfl⟩
    · have hproc := hstart.resolve_left h0
      have hdm := Nat.div_add_mod' offset (allocSize gsize procs)
      have hidx : sub64 offset (offset / allocSize gsize procs * allocSize gsize procs) =
          offset % allocSize gsize procs := by
        rw [sub64_eq (by omega) (by omega)]
        omega
      obtain ⟨ts, hts, hin, hbytes⟩ := transferLoop_addressing hL64 (show procs < 2 ^ 64 by omega)
        0 (Nat.mod_lt offset hL) (Nat.le_succ size)
        (show offset / allocSize gsize procs * allocSize gsize procs +
          offset % allocSize gsize procs + size ≤ _ by omega)
      rw [hdm] at hbytes
      rw [hproc, hidx]
      exact ⟨ts, hts, hin, by simpa using hbytes⟩

end Allocated

structure Allocated (n : ℕ) (rows : ℕ → List Row) (w : World) (handle gsize : ℕ)
    (slice : ℕ → ℕ) : Prop where
  array : ∀ p < n, (w p).bsp.globalArrays handle = ⟨gsize, allocSize gsize n, some (slice p)⟩
  registered : ∀ p < n, ∃ r, lastRow (rows p) p (slice p) = some r ∧ ∀ q < n, r q = slice q

def only (s : ℕ) (ops : List Op) : ℕ → List Op := fun q => if q = s then ops else []

section Only

variable {n : ℕ} {rows : ℕ → List Row} {tagSize : ℕ → ℕ} {w : World} {s : ℕ} {ops : List Op}

theorem access_calls {x : Context} {p : Proc}
    (hops : ∀ op ∈ ops, Op.IsAccess op ∧ Admitted x op p) :
    pushes (ops.flatMap (callOf x · p)) = [] ∧ pops (ops.flatMap (callOf x · p)) = [] ∧
      tagSizes (ops.flatMap (callOf x · p)) = [] := by
  have hcall : ∀ c ∈ ops.flatMap (callOf x · p),
      (∃ pid dst bytes, c = .put pid dst bytes) ∨
        ∃ pid src off dst size, c = .get pid src off dst size := by
    intro c hc
    obtain ⟨op, hop, hcop⟩ := List.mem_flatMap.mp hc
    have hacc := (hops op hop).1
    cases op with
    | put | hpput =>
      obtain ⟨r, -, rfl⟩ := List.mem_map.mp hcop
      exact .inl ⟨_, _, _, rfl⟩
    | get | hpget =>
      obtain ⟨r, -, rfl⟩ := List.mem_map.mp hcop
      exact .inr ⟨_, _, _, _, _, rfl⟩
    | pushReg | popReg | send | setTagsize => exact hacc.elim
    | getTag | move | hpmove | globalAlloc | globalFree | compute => exact hacc.elim
  refine ⟨?_, ?_, ?_⟩ <;> refine List.filterMap_eq_nil_iff.mpr fun c hc => ?_
  all_goals
    rcases hcall c hc with ⟨_, _, _, rfl⟩ | ⟨_, _, _, _, _, rfl⟩ <;> rfl

theorem only_superstep (h : Clean n rows tagSize w)
    (hops : ∀ op ∈ ops, Op.IsAccess op ∧ Admitted ⟨n, s, rows s, tagSize s⟩ op (w s)) :
    ∃ w', superstep n (only s ops) w = some w' ∧ Clean n rows tagSize w' ∧
      (∀ q < n, (w' q).bsp.globalArrays = (w q).bsp.globalArrays) ∧
      ∀ q < n, (w' q).mem = writeAll (w q).mem (writesTo n
        (fun p => if p = s then ops.flatMap (callOf ⟨n, s, rows s, tagSize s⟩ · (w s)) else [])
        (fun p => (w p).mem) q) := by
  have hlocal : ∀ p < n, ∀ op ∈ only s ops p,
      Op.IsAccess op ∧ Admitted ⟨n, p, rows p, tagSize p⟩ op (w p) := by
    intro p _ op hop
    by_cases hp : p = s
    · subst hp
      simp only [only, if_true] at hop
      exact hops op hop
    · simp [only, hp] at hop
  have hrun := fun p hp => run_access (h.logged p hp) (hlocal p hp)
  have hcalls : ∀ p < n, callsAt n rows tagSize (only s ops) w p =
      if p = s then ops.flatMap (callOf ⟨n, s, rows s, tagSize s⟩ · (w s)) else [] := by
    intro p hp
    rw [callsAt, (hrun p hp).1]
    by_cases hps : p = s
    · subst hps
      simp [only]
    · simp [only, hps]
  generalize hcs : callsAt n rows tagSize (only s ops) w = cs at hcalls
  have hnone : ∀ p < n, pushes (cs p) = [] ∧ pops (cs p) = [] ∧ tagSizes (cs p) = [] := by
    intro p hp
    rw [hcalls p hp]
    split
    · exact access_calls hops
    · exact ⟨rfl, rfl, rfl⟩
  have hnew : ∀ q < n, newRows n cs = [] := by
    intro q hq
    rw [newRows, (hnone 0 (by omega)).1]
    rfl
  have ha : Admissible n rows tagSize (only s ops) w := by
    refine ⟨fun p hp => (hrun p hp).2.1, ?_⟩
    rw [hcs]
    refine ⟨fun p hp => ?_, fun q hq => ?_⟩
    · rw [(hnone p hp).1, (hnone 0 (by omega)).1]
    · rw [(hnone q hq).2.1]
      trivial
  obtain ⟨v, w', hv, hw', hspec⟩ := superstep_spec h ha
  have hframe := fun q hq => (hrun q hq).2.2 (v q) (hspec q hq).1
  rw [hcs] at hspec
  refine ⟨w', by rw [superstep, hv]; exact hw', ⟨fun q hq => ?_⟩, fun q hq => ?_, fun q hq => ?_⟩
  · have hl := (hspec q hq).2.logged
    rwa [rowsAfter, hnew q hq, (hnone q hq).2.1, tagAfter, (hnone q hq).2.2, List.append_nil] at hl
  · rw [(hspec q hq).2.globalArrays, (hframe q hq).2]
  · rw [(hspec q hq).2.mem, memAfter, (hframe q hq).1]
    congr 1
    simp only [writesTo]
    apply List.flatMap_congr
    intro p hp
    have hpn := List.mem_range.mp hp
    rw [hcalls p hpn, hcalls q hq, (hframe p hpn).1]

end Only

section Layout

variable {localSize offset size : ℕ} {ts : List Transfer}

theorem layout_of_transfer (h : ts.flatMap Transfer.bytes = layout localSize offset size)
    {t : Transfer} (ht : t ∈ ts) {i : ℕ} (hi : i < t.sizeTodo) : t.moved + i < size ∧
      t.offsetProc = (offset + (t.moved + i)) / localSize ∧
      t.offsetIdx + i = (offset + (t.moved + i)) % localSize := by
  have hmem : (t.moved + i, t.offsetProc, t.offsetIdx + i) ∈ ts.flatMap Transfer.bytes :=
    List.mem_flatMap.mpr ⟨t, ht, List.mem_map.mpr ⟨i, List.mem_range.mpr hi, rfl⟩⟩
  rw [h] at hmem
  obtain ⟨j, hj, heq⟩ := List.mem_map.mp hmem
  simp only [Prod.mk.injEq] at heq
  obtain ⟨rfl, h1, h2⟩ := heq
  exact ⟨List.mem_range.mp hj, h1.symm, h2.symm⟩

theorem transfer_of_layout (h : ts.flatMap Transfer.bytes = layout localSize offset size)
    {j : ℕ} (hj : j < size) : ∃ t ∈ ts, ∃ i < t.sizeTodo, t.moved + i = j := by
  have hmem : (j, (offset + j) / localSize, (offset + j) % localSize) ∈
      ts.flatMap Transfer.bytes := by
    rw [h]
    exact List.mem_map.mpr ⟨j, List.mem_range.mpr hj, rfl⟩
  obtain ⟨t, ht, hb⟩ := List.mem_flatMap.mp hmem
  obtain ⟨i, hi, heq⟩ := List.mem_map.mp hb
  exact ⟨t, ht, i, List.mem_range.mp hi, congrArg Prod.fst heq⟩

end Layout

def Small (gsize procs offset size : ℕ) : Prop :=
  ∀ ts, transfers gsize (allocSize gsize procs) procs offset size = some ts →
    ∀ t ∈ ts, t.offsetIdx < 2 ^ 31 ∧ t.sizeTodo < 2 ^ 31

/-- What a put of one range leaves for a get of another range one superstep later. -/
def ReadBack (n : ℕ) (w : World) (handle offA sizeA offB sizeB : ℕ) : Prop :=
  ∀ put ∈ [bspxGlobalPut, bspxGlobalHpput], ∀ get ∈ [bspxGlobalGet, bspxGlobalHpget],
    ∀ s < n, ∀ d < n, ∀ src dst, ∃ puts gets w₁ w₂,
      put (w s).bsp src handle offA sizeA = some puts ∧
      superstep n (only s puts) w = some w₁ ∧
      get (w₁ d).bsp handle offB dst sizeB = some gets ∧
      superstep n (only d gets) w₁ = some w₂ ∧
      ∀ o, offA ≤ o → o < offA + sizeA → offB ≤ o → o < offB + sizeB →
        (w₂ d).mem (dst + (o - offB)) = (w s).mem (src + (o - offA))

section ReadBack

variable {n : ℕ} {rows : ℕ → List Row} {tagSize : ℕ → ℕ} {w : World} {handle gsize : ℕ}
  {slice : ℕ → ℕ}

def flat (slice : ℕ → ℕ) (localSize : ℕ) (w : World) (o : ℕ) : UInt8 :=
  (w (o / localSize)).mem (slice (o / localSize) + o % localSize)

theorem addOffset_idx (base : ℕ) {idx : ℕ} (h : idx < 2 ^ 31) :
    addOffset base (toInt64 idx) = base + idx := by
  have hidx : toInt64 idx = idx := Int.bmod_eq_of_le (by omega) (by omega)
  rw [hidx, addOffset]
  omega

theorem globalPut_calls (hall : Allocated n rows w handle gsize slice) (hn : n ≤ 2 ^ 32)
    (hw : ∀ p < n, (w p).bsp.nprocs = n) {s : ℕ} (hs : s < n) (tag : ℕ) {offset size : ℕ}
    {ts : List Transfer} (hts : transfers gsize (allocSize gsize n) n offset size = some ts)
    (hin : ∀ t ∈ ts, t.offsetProc < n ∧ t.offsetIdx < 2 ^ 31 ∧ t.sizeTodo < 2 ^ 31) (src : ℕ)
    {put : BSPObject → ℕ → ℕ → ℕ → ℕ → Option (List Op)}
    (hput : put ∈ [bspxGlobalPut, bspxGlobalHpput]) :
    ∃ ops, put (w s).bsp src handle offset size = some ops ∧
      (∀ op ∈ ops, Op.IsAccess op ∧ Admitted ⟨n, s, rows s, tag⟩ op (w s)) ∧
      ops.flatMap (callOf ⟨n, s, rows s, tag⟩ · (w s)) = ts.map fun t =>
        .put t.offsetProc (slice t.offsetProc + t.offsetIdx)
          (load (w s).mem (src + t.moved) t.sizeTodo) := by
  obtain ⟨r, hr, hrow⟩ := hall.registered s hs
  have harr := hall.array s hs
  have hslice : sliceOf (w s).bsp handle = slice s := by rw [sliceOf, harr]; rfl
  have hpid : ∀ t ∈ ts, toUInt32 t.offsetProc = t.offsetProc := by
    intro t ht
    have := (hin t ht).1
    exact Nat.mod_eq_of_lt (by omega)
  rcases List.mem_pair.mp hput with rfl | rfl
  all_goals
    refine ⟨_, by
      simp only [bspxGlobalPut, bspxGlobalHpput, transfersOf, harr, hw s hs, hts]
      rfl, ?_, ?_⟩
    · intro op hop
      obtain ⟨t, ht, rfl⟩ := List.mem_map.mp hop
      refine ⟨trivial, ?_, (hin t ht).2.2, ?_⟩
      · rw [hpid t ht]
        exact (hin t ht).1
      · rw [hslice, hr]
        simp
    · rw [List.flatMap_map, List.map_eq_flatMap]
      apply List.flatMap_congr
      intro t ht
      simp only [callOf, hslice, hr, hpid t ht, Option.toList_some, List.map_cons, List.map_nil,
        hrow _ (hin t ht).1, addOffset_idx _ (hin t ht).2.1]

theorem globalGet_calls (hall : Allocated n rows w handle gsize slice) (hn : n ≤ 2 ^ 32)
    (hw : ∀ p < n, (w p).bsp.nprocs = n) {d : ℕ} (hd : d < n) (tag : ℕ) {offset size : ℕ}
    {ts : List Transfer} (hts : transfers gsize (allocSize gsize n) n offset size = some ts)
    (hin : ∀ t ∈ ts, t.offsetProc < n ∧ t.offsetIdx < 2 ^ 31 ∧ t.sizeTodo < 2 ^ 31) (dst : ℕ)
    {get : BSPObject → ℕ → ℕ → ℕ → ℕ → Option (List Op)}
    (hget : get ∈ [bspxGlobalGet, bspxGlobalHpget]) :
    ∃ ops, get (w d).bsp handle offset dst size = some ops ∧
      (∀ op ∈ ops, Op.IsAccess op ∧ Admitted ⟨n, d, rows d, tag⟩ op (w d)) ∧
      ops.flatMap (callOf ⟨n, d, rows d, tag⟩ · (w d)) = ts.map fun t =>
        .get t.offsetProc (slice t.offsetProc) t.offsetIdx (dst + t.moved) t.sizeTodo := by
  obtain ⟨r, hr, hrow⟩ := hall.registered d hd
  have harr := hall.array d hd
  have hslice : sliceOf (w d).bsp handle = slice d := by rw [sliceOf, harr]; rfl
  have hpid : ∀ t ∈ ts, toUInt32 t.offsetProc = t.offsetProc := by
    intro t ht
    have := (hin t ht).1
    exact Nat.mod_eq_of_lt (by omega)
  have hidx : ∀ t ∈ ts, toInt64 t.offsetIdx = t.offsetIdx := by
    intro t ht
    have := (hin t ht).2.1
    exact Int.bmod_eq_of_le (by omega) (by omega)
  rcases List.mem_pair.mp hget with rfl | rfl
  all_goals
    refine ⟨_, by
      simp only [bspxGlobalGet, bspxGlobalHpget, transfersOf, harr, hw d hd, hts]
      rfl, ?_, ?_⟩
    · intro op hop
      obtain ⟨t, ht, rfl⟩ := List.mem_map.mp hop
      have hlt := (hin t ht).2.1
      refine ⟨trivial, ?_, (hin t ht).2.2, ?_, ?_, ?_⟩
      · rw [hpid t ht]
        exact (hin t ht).1
      · rw [hidx t ht]
        omega
      · rw [hidx t ht]
        omega
      · rw [hslice, hr]
        simp
    · rw [List.flatMap_map, List.map_eq_flatMap]
      apply List.flatMap_congr
      intro t ht
      simp only [callOf, hslice, hr, hpid t ht, Option.toList_some, List.map_cons, List.map_nil,
        hrow _ (hin t ht).1, hidx t ht]

theorem put_flat {localSize offset size s src : ℕ} {mem : ℕ → Mem} {ts : List Transfer}
    (hbytes : ts.flatMap Transfer.bytes = layout localSize offset size)
    (hproc : ∀ t ∈ ts, t.offsetProc < n) (hs : s < n) {w' : World}
    (hmem : ∀ q < n, (w' q).mem = writeAll (mem q) (writesTo n (fun p => if p = s then
      ts.map fun t => .put t.offsetProc (slice t.offsetProc + t.offsetIdx)
        (load (mem s) (src + t.moved) t.sizeTodo) else []) mem q)) {j : ℕ} (hj : j < size) :
    flat slice localSize w' (offset + j) = mem s (src + j) := by
  obtain ⟨t, ht, i, hi, rfl⟩ := transfer_of_layout hbytes hj
  obtain ⟨-, hq, hidx⟩ := layout_of_transfer hbytes ht hi
  rw [flat, ← hq, ← hidx, hmem _ (hproc t ht)]
  generalize hcs : (fun p => if p = s then _ else _ : ℕ → List Call) = cs
  have hwrites : ∀ e, e ∈ writesTo n cs mem t.offsetProc ↔ ∃ u ∈ ts, u.offsetProc = t.offsetProc ∧
      e = (slice u.offsetProc + u.offsetIdx, load (mem s) (src + u.moved) u.sizeTodo) := by
    intro e
    rw [← hcs]
    simp only [writesTo, List.mem_flatMap, List.mem_range, List.mem_append]
    constructor
    · rintro ⟨p, hp, he | he⟩
      · by_cases hps : p = s
        · simp only [hps, if_true, putsTo, List.filterMap_map, List.mem_filterMap] at he
          obtain ⟨u, hu, he⟩ := he
          simp only [Function.comp_apply, Option.ite_none_right_eq_some, Option.some.injEq] at he
          exact ⟨u, hu, he.1, he.2.symm⟩
        · simp [hps, putsTo] at he
      · by_cases hps : t.offsetProc = s <;> simp [hps, answersOf] at he
    · rintro ⟨u, hu, hup, rfl⟩
      refine ⟨s, hs, .inl ?_⟩
      simp only [if_true, putsTo, List.filterMap_map, List.mem_filterMap]
      exact ⟨u, hu, by simp [hup]⟩
  -- every write agrees with the layout, so it does not matter which one comes last
  let f := fun x => mem s (src + (t.offsetProc * localSize + (x - slice t.offsetProc) - offset))
  have hval : f (slice t.offsetProc + (t.offsetIdx + i)) = mem s (src + (t.moved + i)) := by
    have hdm := Nat.div_add_mod (offset + (t.moved + i)) localSize
    rw [← hq, ← hidx, Nat.mul_comm] at hdm
    simp only [f, Nat.add_sub_cancel_left]
    congr 2
    omega
  rw [writeAll_of_agree (f := f), hval]
  · intro e he h1 h2
    obtain ⟨u, hu, hup, rfl⟩ := (hwrites e).mp he
    rw [load_length] at h2
    obtain ⟨-, hq', hidx'⟩ := layout_of_transfer hbytes hu h2
    have hdm := Nat.div_add_mod (offset + (u.moved +
      (slice t.offsetProc + (t.offsetIdx + i) - (slice u.offsetProc + u.offsetIdx)))) localSize
    rw [← hq', ← hidx', Nat.mul_comm, hup] at hdm
    rw [load_getElem]
    simp only [f]
    rw [hup] at h1 ⊢
    congr 1
    omega
  · exact ⟨_, (hwrites _).mpr ⟨t, ht, rfl, rfl⟩, by simp only; omega, by
      simp only [load_length]; omega⟩

theorem get_flat {localSize offset size d dst : ℕ} {w w' : World} {ts : List Transfer}
    (hbytes : ts.flatMap Transfer.bytes = layout localSize offset size)
    (hproc : ∀ t ∈ ts, t.offsetProc < n)
    (hmem : (w' d).mem = writeAll (w d).mem (writesTo n (fun p => if p = d then
      ts.map fun t => .get t.offsetProc (slice t.offsetProc) t.offsetIdx (dst + t.moved) t.sizeTodo
        else []) (fun p => (w p).mem) d)) {j : ℕ} (hj : j < size) :
    (w' d).mem (dst + j) = flat slice localSize w (offset + j) := by
  obtain ⟨t, ht, i, hi, rfl⟩ := transfer_of_layout hbytes hj
  rw [hmem]
  generalize hcs : (fun p => if p = d then _ else _ : ℕ → List Call) = cs
  have hwrites : ∀ e, e ∈ writesTo n cs (fun p => (w p).mem) d ↔ ∃ u ∈ ts, e = (dst + u.moved,
      load (w u.offsetProc).mem (slice u.offsetProc + u.offsetIdx) u.sizeTodo) := by
    intro e
    rw [← hcs]
    have hadd : ∀ u : Transfer, addOffset (slice u.offsetProc) u.offsetIdx =
        slice u.offsetProc + u.offsetIdx := fun u => by simp only [addOffset]; omega
    simp only [writesTo, List.mem_flatMap, List.mem_range, List.mem_append, if_true, answersOf,
      List.filterMap_map, List.mem_filterMap, Function.comp_apply, hadd,
      Option.ite_none_right_eq_some, Option.some.injEq]
    constructor
    · rintro ⟨p, hp, he | ⟨u, hu, rfl, rfl⟩⟩
      · by_cases hps : p = d <;> simp [hps, putsTo] at he
      · exact ⟨u, hu, rfl⟩
    · rintro ⟨u, hu, rfl⟩
      exact ⟨u.offsetProc, hproc u hu, .inr ⟨u, hu, rfl, rfl⟩⟩
  rw [writeAll_of_agree (f := fun x => flat slice localSize w (offset + (x - dst))),
    Nat.add_sub_cancel_left]
  · intro e he h1 h2
    obtain ⟨u, hu, rfl⟩ := (hwrites e).mp he
    rw [load_length] at h2
    obtain ⟨-, hq', hidx'⟩ := layout_of_transfer hbytes hu h2
    have hpos : u.moved + (dst + (t.moved + i) - (dst + u.moved)) = t.moved + i := by
      simp only at h1
      omega
    rw [hpos] at hq' hidx'
    rw [load_getElem, flat, Nat.add_sub_cancel_left, ← hq', ← hidx', Nat.add_assoc]
  · exact ⟨_, (hwrites _).mpr ⟨t, ht, rfl⟩, by simp only; omega, by
      simp only [load_length]; omega⟩

theorem small_transfers {procs offset size : ℕ} (haddr : Addressing gsize procs offset size)
    (hsmall : Small gsize procs offset size) :
    ∃ ts, transfers gsize (allocSize gsize procs) procs offset size = some ts ∧
      ts.flatMap Transfer.bytes = layout (allocSize gsize procs) offset size ∧
      (∀ t ∈ ts, t.offsetProc < procs ∧ t.offsetIdx < 2 ^ 31 ∧ t.sizeTodo < 2 ^ 31) := by
  obtain ⟨ts, hts, hin, hbytes⟩ := haddr
  exact ⟨ts, hts, hbytes, fun t ht => ⟨(hin t ht).proc, hsmall ts hts t ht⟩⟩

theorem readBack (h : Clean n rows tagSize w) (hall : Allocated n rows w handle gsize slice)
    (hn : n ≤ 2 ^ 32) {offA sizeA offB sizeB : ℕ}
    (hA : Addressing gsize n offA sizeA) (hB : Addressing gsize n offB sizeB)
    (hsA : Small gsize n offA sizeA) (hsB : Small gsize n offB sizeB) :
    ReadBack n w handle offA sizeA offB sizeB := by
  intro put hput get hget s hs d hd src dst
  obtain ⟨tsA, htsA, hbytesA, hinA⟩ := small_transfers hA hsA
  obtain ⟨puts, hputs, hopsA, hcallsA⟩ := globalPut_calls hall hn
    (fun p hp => (h.logged p hp).nprocs) hs (tagSize s) htsA hinA src hput
  obtain ⟨w₁, hw₁, hclean, harr, hmem₁⟩ := only_superstep h hopsA
  rw [hcallsA] at hmem₁
  have hall₁ : Allocated n rows w₁ handle gsize slice :=
    ⟨fun p hp => by rw [harr p hp]; exact hall.array p hp, hall.registered⟩
  obtain ⟨tsB, htsB, hbytesB, hinB⟩ := small_transfers hB hsB
  obtain ⟨gets, hgets, hopsB, hcallsB⟩ := globalGet_calls hall₁ hn
    (fun p hp => (hclean.logged p hp).nprocs) hd (tagSize d) htsB hinB dst hget
  obtain ⟨w₂, hw₂, -, -, hmem₂⟩ := only_superstep hclean hopsB
  rw [hcallsB] at hmem₂
  refine ⟨puts, gets, w₁, w₂, hputs, hw₁, hgets, hw₂, fun o h1 h2 h3 h4 => ?_⟩
  have hput := put_flat hbytesA (fun t ht => (hinA t ht).1) hs hmem₁
    (show o - offA < sizeA by omega)
  have hget := get_flat hbytesB (fun t ht => (hinB t ht).1) (hmem₂ d hd)
    (show o - offB < sizeB by omega)
  rw [show offA + (o - offA) = o by omega] at hput
  rw [show offB + (o - offB) = o by omega] at hget
  exact hget.trans hput

end ReadBack

/-- Both ranges are addressed block by block, and what is put to the one is read
from the other. -/
structure FlatArray (n : ℕ) (w : World) (handle gsize offA sizeA offB sizeB : ℕ) : Prop where
  put : Addressing gsize n offA sizeA
  get : Addressing gsize n offB sizeB
  readBack : Small gsize n offA sizeA → Small gsize n offB sizeB →
    ReadBack n w handle offA sizeA offB sizeB

/-- An allocated array is one flat array for accesses to two ranges if and only if
both start in the block of their first byte. -/
theorem flatArray_iff {n : ℕ} {rows : ℕ → List Row} {tagSize : ℕ → ℕ} {w : World}
    {handle gsize : ℕ} {slice : ℕ → ℕ} (hr : Reachable n (fun _ => True) rows tagSize w)
    (hall : Allocated n rows w handle gsize slice) (hn : 0 < n) (hn31 : n < 2 ^ 31)
    (hg : 0 < gsize) (h64 : gsize + n ≤ 2 ^ 64) {offA sizeA offB sizeB : ℕ}
    (hA : offA + sizeA ≤ gsize) (hoverA : offA * n < 2 ^ 64)
    (hB : offB + sizeB ≤ gsize) (hoverB : offB * n < 2 ^ 64) :
    FlatArray n w handle gsize offA sizeA offB sizeB ↔
      SameStart gsize n offA sizeA ∧ SameStart gsize n offB sizeB := by
  have hiffA := addressing_sameStart hg hn h64 hA hoverA
  have hiffB := addressing_sameStart hg hn h64 hB hoverB
  constructor
  · exact fun h => ⟨hiffA.mp h.put, hiffB.mp h.get⟩
  · rintro ⟨hstartA, hstartB⟩
    have haddrA := hiffA.mpr hstartA
    have haddrB := hiffB.mpr hstartB
    exact ⟨haddrA, haddrB, readBack (reachable_clean hr) hall (by omega) haddrA haddrB⟩

def allocOps (gsize : ℕ) (slice : ℕ → ℕ) : ℕ → List Op := fun p => [.globalAlloc gsize (slice p)]

section Alloc

variable {n : ℕ} {rows : ℕ → List Row} {tagSize : ℕ → ℕ} {w : World} {handle gsize : ℕ}
  {slice : ℕ → ℕ}

theorem exec_globalAlloc {p q : Proc} (hnext : nextHandle p.bsp = some handle) {localSlice : ℕ}
    (h : exec (.globalAlloc gsize localSlice) p = some q) :
    q.bsp.globalArrays handle = ⟨gsize, allocSize gsize p.bsp.nprocs, some localSlice⟩ := by
  simp only [exec, bspxGlobalAlloc, hnext, Option.bind_eq_bind, Option.bind_some, Option.map_some,
    Option.some.injEq, Option.pure_def] at h
  subst h
  exact Function.update_self ..

theorem alloc_calls (p : ℕ) :
    callsAt n rows tagSize (allocOps gsize slice) w p = [.pushReg (slice p)] :=
  trace_singleton exec _ _ _

theorem alloc_newRows :
    newRows n (callsAt n rows tagSize (allocOps gsize slice) w) = [below n slice] := by
  simp only [newRows, alloc_calls]
  rfl

theorem alloc_admissible (hnext : ∀ p < n, nextHandle (w p).bsp = some handle) :
    Admissible n rows tagSize (allocOps gsize slice) w := by
  refine ⟨fun p hp => ⟨?_, fun _ _ => trivial⟩, fun p _ => ?_, fun p _ => ?_⟩
  · show nextHandle (w p).bsp ≠ none
    rw [hnext p hp]
    simp
  · rw [alloc_calls, alloc_calls]
    rfl
  · rw [alloc_calls]
    trivial

theorem alloc_allocated (h : Clean n rows tagSize w)
    (hnext : ∀ p < n, nextHandle (w p).bsp = some handle) {w' : World}
    (hs : superstep n (allocOps gsize slice) w = some w') :
    Allocated n (fun q => rowsAfter n (callsAt n rows tagSize (allocOps gsize slice) w) (rows q) q)
      w' handle gsize slice := by
  obtain ⟨v, w'', hv, hw'', hspec⟩ := superstep_spec h (alloc_admissible hnext)
  rw [superstep, hv, Option.bind_some, hw''] at hs
  cases hs
  refine ⟨fun p hp => ?_, fun p hp => ⟨below n slice, ?_, fun q hq => if_pos hq⟩⟩
  · have hrun := (hspec p hp).1
    have hv : exec (.globalAlloc gsize (slice p)) (w p) = some (v p) := by
      simpa [allocOps, run] using hrun
    rw [(hspec p hp).2.globalArrays, exec_globalAlloc (hnext p hp) hv]
    have hn : (w p).bsp.nprocs = n := (h.logged p hp).nprocs
    rw [hn]
  · simp only [rowsAfter, alloc_newRows, alloc_calls]
    have hpops : popRows p (rows p ++ [below n slice]) (pops [.pushReg (slice p)]) =
        rows p ++ [below n slice] := rfl
    rw [hpops, lastRow, List.reverse_append, List.reverse_singleton, List.singleton_append,
      List.find?_cons_of_pos]
    simp [below, hp]

end Alloc

section Example

theorem flatArray_iff_eight : ∃ w,
    superstep 4 (allocOps 8 fun p => 1000 * (p + 1)) (startWorld 4) = some w ∧
    (FlatArray 4 w 0 8 3 4 5 3 ↔ SameStart 8 4 3 4 ∧ SameStart 8 4 5 3) := by
  have hr := startWorld_reachable 4 fun _ => True
  have hnext : ∀ p < 4, nextHandle (startWorld 4 p).bsp = some 0 := fun _ _ => rfl
  obtain ⟨w, hs, hr'⟩ := reachable_step hr (alloc_admissible hnext) trivial
  have hall := alloc_allocated (reachable_clean hr) hnext hs
  exact ⟨w, hs, flatArray_iff hr' hall (by decide) (by decide) (by decide) (by decide) (by decide)
    (by decide) (by decide) (by decide)⟩

/-- Byte 3 of five bytes on four processors lives on processor 1, and the access
starts one byte before the slice of processor 2. -/
theorem not_flatArray_five : ∃ w,
    superstep 4 (allocOps 5 fun p => 1000 * (p + 1)) (startWorld 4) = some w ∧
    transfers 5 (allocSize 5 4) 4 3 2 = some [⟨2, 2 ^ 64 - 1, 0, 2⟩] ∧
    3 / allocSize 5 4 = 1 ∧ ¬ FlatArray 4 w 0 5 3 2 3 2 := by
  have hr := startWorld_reachable 4 fun _ => True
  have hnext : ∀ p < 4, nextHandle (startWorld 4 p).bsp = some 0 := fun _ _ => rfl
  obtain ⟨w, hs, -⟩ := reachable_step hr (alloc_admissible hnext) trivial
  have hts : transfers 5 (allocSize 5 4) 4 3 2 = some [⟨2, 2 ^ 64 - 1, 0, 2⟩] := by decide
  refine ⟨w, hs, hts, by decide, fun h => ?_⟩
  obtain ⟨ts, hts', hin, -⟩ := h.put
  cases hts.symm.trans hts'
  have hidx := (hin _ (List.mem_singleton_self _)).idx
  exact absurd hidx (by decide)

end Example

end BspOnMpi.GlobalArrays
