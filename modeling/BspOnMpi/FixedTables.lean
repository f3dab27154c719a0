import BspOnMpi.ColumnOffsets

/-! Tables of elements of one size. `fixedElSizeTable_push`, and `fixedElSizeTable_push2` with the
write of its caller, on a table that is one block of bytes. As long as a table has fewer than 2^31
bytes it is the table of `Exptable`, cell by cell; so the columns are lists that grow
independently. -/

namespace BspOnMpi.FixedTables
open Lib Bspx ColumnOffsets

def fixedElSizeTablePush2 (t : ByteTable) (proc : ℕ) : ByteTable × ℕ :=
  let t := if t.used proc = t.rows then expandableTableExpand t t.rows else t
  ({ t with used := Function.update t.used proc (toUInt32 (t.used proc + 1)) }, fixedOffset t proc)

inductive PushOp
  | push (proc : ℕ) (element : List UInt8)
  | write (proc : ℕ) (element : List UInt8)

namespace PushOp

def proc : PushOp → ℕ
  | .push proc _ => proc
  | .write proc _ => proc

def element : PushOp → List UInt8
  | .push _ element => element
  | .write _ element => element

def apply : PushOp → ByteTable → ByteTable
  | .push proc element, t => fixedElSizeTablePush t proc element
  | .write proc element, t =>
    let (t, pointer) := fixedElSizeTablePush2 t proc
    { t with data := store t.data pointer element }

theorem apply_eq (op : PushOp) (t : ByteTable) :
    op.apply t = fixedElSizeTablePush t op.proc op.element := by
  cases op <;> rfl

end PushOp

/-- The bytes of the block. A slot of no bytes counts as one, so that its rows are bounded too. -/
def totalBytes (t : ByteTable) : ℕ := t.nprocs * t.rows * max t.slotSize 1

/-- A table with fewer than 2 ^ 31 bytes receives elements of its slot size, and every
table that comes of it has fewer than 2 ^ 31 bytes. -/
inductive Pushes : ByteTable → List PushOp → ByteTable → Prop
  | nil {t : ByteTable} (hbytes : totalBytes t < 2 ^ 31) : Pushes t [] t
  | snoc {t t' : ByteTable} {ops : List PushOp} (h : Pushes t ops t') (op : PushOp)
    (hproc : op.proc < t'.nprocs) (hlen : op.element.length = t'.slotSize)
    (hbytes : totalBytes (op.apply t') < 2 ^ 31) : Pushes t (ops ++ [op]) (op.apply t')

def slot (t : ByteTable) (c k : ℕ) : List UInt8 :=
  load t.data ((c * t.rows + k) * t.slotSize) t.slotSize

def contents (t : ByteTable) (c : ℕ) : List (List UInt8) := (List.range (t.used c)).map (slot t c)

def pushedTo (ops : List PushOp) (c : ℕ) : List (List UInt8) :=
  (ops.filter fun op => op.proc = c).map PushOp.element

theorem pushedTo_append (ops later : List PushOp) (c : ℕ) :
    pushedTo (ops ++ later) c = pushedTo ops c ++ pushedTo later c := by
  rw [pushedTo, List.filter_append, List.map_append]
  rfl

theorem pushedTo_other {ops : List PushOp} {c : ℕ} (h : ∀ op ∈ ops, op.proc ≠ c) :
    pushedTo ops c = [] := by
  rw [pushedTo, List.map_eq_nil_iff, List.filter_eq_nil_iff]
  intro op hop
  rw [decide_eq_true_iff]
  exact h op hop

theorem pushedTo_step (ops : List PushOp) (op : PushOp) :
    pushedTo (ops ++ [op]) =
      Function.update (pushedTo ops) op.proc (pushedTo ops op.proc ++ [op.element]) := by
  funext c
  rw [pushedTo_append]
  by_cases hc : c = op.proc
  · rw [hc, Function.update_self]
    simp [pushedTo]
  · have hother : pushedTo [op] c = [] :=
      pushedTo_other (List.forall_mem_singleton.mpr (Ne.symm hc))
    rw [Function.update_of_ne hc, hother, List.append_nil]

section Exact

variable {t : ByteTable} {c k : ℕ}

theorem column_end (h : totalBytes t < 2 ^ 31) (hc : c < t.nprocs) :
    c * t.rows + t.rows < 2 ^ 31 ∧ (c * t.rows + t.rows) * t.slotSize < 2 ^ 31 := by
  have hend : (c * t.rows + t.rows) * max t.slotSize 1 < 2 ^ 31 := by
    rw [← Nat.succ_mul]
    exact lt_of_le_of_lt (Nat.mul_le_mul_right _ (Nat.mul_le_mul_right _ hc)) h
  refine ⟨lt_of_le_of_lt (Nat.le_mul_of_pos_right _ (by omega)) hend, lt_of_le_of_lt ?_ hend⟩
  exact Nat.mul_le_mul_left _ (le_max_left _ _)

theorem column_start (h : totalBytes t < 2 ^ 31) (hc : c < t.nprocs) :
    slotBytes t.rows t.slotSize c = c * (t.rows * t.slotSize) := by
  obtain ⟨hslots, hbytes⟩ := column_end h hc
  rw [Nat.add_mul] at hbytes
  rw [slotBytes_of_lt (by omega) (by omega), Nat.mul_assoc]

theorem column_bytes (h : totalBytes t < 2 ^ 31) (hfits : t.used c ≤ t.rows) (hc : c < t.nprocs) :
    toUInt32 (t.used c * t.slotSize) = t.used c * t.slotSize := by
  obtain ⟨-, hbytes⟩ := column_end h hc
  have hle := Nat.mul_le_mul_right t.slotSize hfits
  rw [Nat.add_mul] at hbytes
  exact Nat.mod_eq_of_lt (by omega)

theorem next_slot (h : totalBytes t < 2 ^ 31) (hfits : t.used c ≤ t.rows) (hc : c < t.nprocs) :
    fixedOffset t c = c * (t.rows * t.slotSize) + t.used c * t.slotSize := by
  obtain ⟨hslots, hbytes⟩ := column_end h hc
  have hle : t.used c + c * t.rows ≤ c * t.rows + t.rows := by omega
  have hend := Nat.mul_le_mul_right t.slotSize hle
  rw [fixedOffset_of_lt (by omega) (by omega)]
  ring

theorem slot_column (t : ByteTable) (c k : ℕ) : slot t c k =
    load (column t.data (t.rows * t.slotSize) c) (k * t.slotSize) t.slotSize := by
  rw [slot, column_load, Nat.add_mul, Nat.mul_assoc]

theorem slot_byte {used i : ℕ} (hk : k < used) (hi : i < t.slotSize) :
    k * t.slotSize + i < used * t.slotSize := by
  have hle := Nat.mul_le_mul_right t.slotSize (Nat.succ_le_of_lt hk)
  rw [Nat.succ_mul] at hle
  omega

end Exact

def placeSlot (t : ByteTable) (proc : ℕ) (element : List UInt8) : ByteTable :=
  { t with
    data := store t.data (fixedOffset t proc) element
    used := Function.update t.used proc (toUInt32 (t.used proc + 1)) }

section Slots

variable {t : ByteTable} {proc c k : ℕ} {element : List UInt8}

theorem expand_slot {rows : ℕ} (h : totalBytes t < 2 ^ 31)
    (h' : totalBytes (expandableTableExpand t rows) < 2 ^ 31)
    (hrows : toUInt32 (rows + t.rows) = rows + t.rows) (hfits : ∀ d < t.nprocs, t.used d ≤ t.rows)
    (hc : c < t.nprocs) (hk : k < t.used c) :
    slot (expandableTableExpand t rows) c k = slot t c k := by
  have hwidth : ∀ d < t.nprocs, t.used d * t.slotSize ≤ toUInt32 (rows + t.rows) * t.slotSize := by
    intro d hd
    rw [hrows]
    exact Nat.mul_le_mul_right _ ((hfits d hd).trans (Nat.le_add_left _ _))
  rw [slot_column, slot_column]
  apply load_congr
  intro i hi
  exact expand_moves (fun d hd => column_start h hd) (fun d hd => column_start h' hd)
    (fun d hd => column_bytes h (hfits d hd) hd) hwidth hc (slot_byte hk hi)

theorem place_slot_new (h : totalBytes t < 2 ^ 31) (hroom : t.used proc < t.rows)
    (hp : proc < t.nprocs) (hlen : element.length = t.slotSize) :
    slot (placeSlot t proc element) proc (t.used proc) = element := by
  rw [slot_column, column_load]
  show load (store t.data (fixedOffset t proc) element)
    (proc * (t.rows * t.slotSize) + t.used proc * t.slotSize) t.slotSize = element
  rw [next_slot h hroom.le hp, ← hlen]
  exact load_store_same _ _ _

theorem place_slot_old (h : totalBytes t < 2 ^ 31) (hroom : t.used proc < t.rows)
    (hp : proc < t.nprocs) (hlen : element.length = t.slotSize) (hfits : t.used c ≤ t.rows)
    (hk : k < t.used c) : slot (placeSlot t proc element) c k = slot t c k := by
  have hend : t.used proc * t.slotSize + element.length ≤ t.rows * t.slotSize := by
    rw [hlen, ← Nat.succ_mul]
    exact Nat.mul_le_mul_right _ hroom
  rw [slot_column, slot_column]
  apply load_congr
  intro i hi
  show store t.data (fixedOffset t proc) element _ = _
  rw [next_slot h hroom.le hp]
  exact store_behind (fun d => t.used d * t.slotSize) le_rfl hend (Nat.mul_le_mul_right _ hfits)
    (slot_byte hk hi)

end Slots

/-- The counts are equal and a used slot is the encoding of its cell. -/
structure Encodes {I S : Type} (encode : S → List UInt8) (u : Exptable.ExpandableTable I S)
    (t : ByteTable) : Prop where
  nprocs : t.nprocs = u.nprocs
  rows : t.rows = u.rows
  slotSize : t.slotSize = u.slotSize
  used : ∀ c < t.nprocs, t.used c = u.usedSlotCount c
  slots : ∀ c < t.nprocs, ∀ k < t.used c, slot t c k = encode (Exptable.col u c k)

section Encodes

variable {I S : Type} {encode : S → List UInt8} {u : Exptable.ExpandableTable I S} {t : ByteTable}

theorem encodes_fits (h : Encodes encode u t) (hfits : Exptable.Fits u) :
    ∀ c < t.nprocs, t.used c ≤ t.rows := by
  intro c hc
  rw [h.used c hc, h.rows]
  exact hfits c (h.nprocs ▸ hc)

theorem encodes_contents (h : Encodes encode u t) {els : ℕ → List S} (hu : Exptable.Holds u els)
    {c : ℕ} (hc : c < t.nprocs) : contents t c = (els c).map encode := by
  have hload := hu.content c (h.nprocs ▸ hc)
  rw [← h.used c hc] at hload
  rw [contents, ← hload, load, List.map_map]
  apply List.map_congr_left
  intro k hk
  rw [h.slots c hc k (List.mem_range.mp hk), Function.comp_apply, Nat.zero_add]

theorem encodes_expand (h : Encodes encode u t) (hfits : Exptable.Fits u) {rows : ℕ}
    (hrows : toUInt32 (rows + t.rows) = rows + t.rows) (hb : totalBytes t < 2 ^ 31)
    (hb' : totalBytes (expandableTableExpand t rows) < 2 ^ 31) (newinfo : I) :
    Encodes encode (Exptable.expandableTableExpand u rows newinfo)
      (expandableTableExpand t rows) := by
  refine ⟨h.nprocs, ?_, h.slotSize, h.used, fun c hc k hk => ?_⟩
  · rw [Exptable.expand_rows, ← h.rows]
    exact hrows
  · have hk' : k < u.usedSlotCount c := lt_of_lt_of_eq hk (h.used c hc)
    rw [expand_slot hb hb' hrows (encodes_fits h hfits) hc hk,
      Exptable.expand_col rows newinfo hfits (lt_of_lt_of_eq hc h.nprocs) hk']
    exact h.slots c hc k hk

def placeCell (u : Exptable.ExpandableTable I S) (proc : ℕ) (x : S) :
    Exptable.ExpandableTable I S :=
  { u with
    data := store u.data (u.usedSlotCount proc + proc * u.rows) [x]
    usedSlotCount := Function.update u.usedSlotCount proc (u.usedSlotCount proc + 1) }

theorem place_cell_used (u : Exptable.ExpandableTable I S) (proc : ℕ) (x : S) :
    (placeCell u proc x).usedSlotCount =
      Function.update u.usedSlotCount proc (u.usedSlotCount proc + 1) := rfl

theorem place_cell_new (u : Exptable.ExpandableTable I S) (proc : ℕ) (x : S) :
    Exptable.col (placeCell u proc x) proc (u.usedSlotCount proc) = x := by
  have hsingle : 0 < [x].length := Nat.zero_lt_one
  show store u.data (u.usedSlotCount proc + proc * u.rows) [x]
    (proc * u.rows + u.usedSlotCount proc) = x
  rw [Nat.add_comm (proc * u.rows)]
  exact store_add u.data (u.usedSlotCount proc + proc * u.rows) hsingle

theorem place_cell_old {proc c k : ℕ} (x : S) (hroom : u.usedSlotCount proc < u.rows)
    (hfits : u.usedSlotCount c ≤ u.rows) (hk : k < u.usedSlotCount c) :
    Exptable.col (placeCell u proc x) c k = Exptable.col u c k := by
  show store u.data (u.usedSlotCount proc + proc * u.rows) [x] (c * u.rows + k) =
    u.data (c * u.rows + k)
  rw [Nat.add_comm (u.usedSlotCount proc)]
  exact store_behind u.usedSlotCount le_rfl hroom hfits hk

theorem encodes_append (h : Encodes encode u t) (hfits : Exptable.Fits u)
    (hb : totalBytes t < 2 ^ 31) {proc : ℕ} (hp : proc < t.nprocs) (hroom : t.used proc < t.rows)
    {x : S} (hlen : (encode x).length = t.slotSize) :
    Encodes encode (placeCell u proc x) (placeSlot t proc (encode x)) := by
  have hcount : toUInt32 (t.used proc + 1) = t.used proc + 1 := by
    have hend := (column_end hb hp).1
    exact Nat.mod_eq_of_lt (by omega)
  have hcounts : (placeSlot t proc (encode x)).used =
      Function.update t.used proc (t.used proc + 1) := congrArg (Function.update t.used proc) hcount
  have hold : ∀ c < t.nprocs, ∀ k < t.used c, slot (placeSlot t proc (encode x)) c k =
      encode (Exptable.col (placeCell u proc x) c k) := by
    intro c hc k hk
    rw [place_slot_old hb hroom hp hlen (encodes_fits h hfits c hc) hk, h.slots c hc k hk]
    rw [h.used proc hp, h.rows] at hroom
    rw [place_cell_old x hroom (hfits c (lt_of_lt_of_eq hc h.nprocs)) (h.used c hc ▸ hk)]
  refine ⟨h.nprocs, h.rows, h.slotSize, fun c hc => ?_, fun c hc k hk => ?_⟩
  · rw [hcounts, place_cell_used, h.used proc hp]
    by_cases he : c = proc
    · rw [he, Function.update_self, Function.update_self]
    · rw [Function.update_of_ne he, Function.update_of_ne he]
      exact h.used c hc
  · rw [hcounts] at hk
    by_cases he : c = proc
    · rw [he, Function.update_self] at hk
      rw [he]
      rcases Nat.lt_or_eq_of_le (Nat.le_of_lt_succ hk) with hlt | rfl
      · exact hold proc hp k hlt
      · rw [place_slot_new hb hroom hp hlen, h.used proc hp, place_cell_new]
    · rw [Function.update_of_ne he] at hk
      exact hold c hc k hk

theorem encodes_push (h : Encodes encode u t) (hfits : Exptable.Fits u) (hrows : 0 < t.rows)
    (hb : totalBytes t < 2 ^ 31) {proc : ℕ} (hp : proc < t.nprocs) {x : S}
    (hlen : (encode x).length = t.slotSize)
    (hb' : totalBytes (fixedElSizeTablePush t proc (encode x)) < 2 ^ 31)
    (changeinfo : I → ℕ → ℕ → I) :
    Encodes encode (Exptable.fixedElSizeTablePush u proc changeinfo x)
      (fixedElSizeTablePush t proc (encode x)) := by
  have hfit := encodes_fits h hfits proc hp
  have hused := h.used proc hp
  rw [fixedElSizeTablePush] at hb' ⊢
  rw [Exptable.fixedElSizeTablePush, ← hused, ← h.rows]
  by_cases hfull : t.used proc = t.rows
  · rw [if_pos hfull] at hb' ⊢
    rw [if_pos hfull]
    have hdouble : toUInt32 (t.rows + t.rows) = t.rows + t.rows := by
      have hend := (column_end hb hp).1
      exact Nat.mod_eq_of_lt (by omega)
    have hroom : t.used proc < (expandableTableExpand t t.rows).rows := by
      show t.used proc < toUInt32 (t.rows + t.rows)
      omega
    exact encodes_append (encodes_expand h hfits hdouble hb hb' _) (Exptable.expand_fits _ _ hfits)
      hb' hp hroom hlen
  · rw [if_neg hfull, if_neg hfull]
    exact encodes_append h hfits hb hp (lt_of_le_of_ne hfit hfull) hlen

end Encodes

structure IsLists (t : ByteTable) (els : ℕ → List (List UInt8)) : Prop where
  bytes : totalBytes t < 2 ^ 31
  rows_pos : 0 < t.rows
  encodes : ∃ u : Exptable.ExpandableTable Unit (List UInt8), Encodes id u t ∧ Exptable.Holds u els

section Lists

variable {t t' : ByteTable} {els : ℕ → List (List UInt8)} {op : PushOp} {ops : List PushOp}

theorem lists_fits (h : IsLists t els) : ∀ c < t.nprocs, t.used c ≤ t.rows := by
  obtain ⟨u, hu, hholds⟩ := h.encodes
  exact encodes_fits hu hholds.fits

theorem lists_contents (h : IsLists t els) : ∀ c < t.nprocs, contents t c = els c := by
  obtain ⟨u, hu, hholds⟩ := h.encodes
  intro c hc
  rw [encodes_contents hu hholds hc, List.map_id]

theorem lists_create {nprocs rows slotSize : ℕ} {fresh : ℕ → ℕ → UInt8} (hrows : 0 < rows)
    (hb : totalBytes (create nprocs rows slotSize 0 fresh) < 2 ^ 31) :
    IsLists (create nprocs rows slotSize 0 fresh) (pushedTo []) := by
  refine ⟨hb, hrows, Exptable.expandableTableInitialize nprocs rows slotSize () fun _ _ => [], ?_,
    ?_⟩
  · exact ⟨rfl, rfl, rfl, fun _ _ => rfl, fun _ _ k hk => absurd hk (Nat.not_lt_zero k)⟩
  · exact ⟨fun _ _ => rfl, fun _ _ => Nat.zero_le _, fun _ _ => rfl⟩

theorem lists_push (h : IsLists t els) (hproc : op.proc < t.nprocs)
    (hlen : op.element.length = t.slotSize) (hb : totalBytes (op.apply t) < 2 ^ 31) :
    IsLists (op.apply t) (Function.update els op.proc (els op.proc ++ [op.element])) := by
  obtain ⟨u, hu, hholds⟩ := h.encodes
  have hrows : 0 < u.rows := lt_of_lt_of_eq h.rows_pos hu.rows
  have hproc' : op.proc < u.nprocs := lt_of_lt_of_eq hproc hu.nprocs
  rw [PushOp.apply_eq] at hb ⊢
  have hnext := encodes_push (x := op.element) hu hholds.fits h.rows_pos h.bytes hproc hlen hb
    fun info _ _ => info
  refine ⟨hb, ?_, _, hnext, Exptable.push_holds hholds hrows hproc' _ op.element⟩
  exact lt_of_lt_of_eq (hrows.trans_le (Exptable.push_rows_le _ _ _ _)) hnext.rows.symm

theorem pushes_nprocs (h : Pushes t ops t') : t'.nprocs = t.nprocs := by
  induction h with
  | nil hb => rfl
  | snoc h op hproc hlen hb ih =>
    rw [PushOp.apply_eq]
    exact (room_nprocs _ _ _).trans ih

theorem pushes_bytes (h : Pushes t ops t') : totalBytes t < 2 ^ 31 := by
  induction h with
  | nil hb => exact hb
  | snoc h op hproc hlen hb ih => exact ih

theorem pushes_lists {before : List PushOp} (h : Pushes t ops t')
    (hl : IsLists t (pushedTo before)) :
    IsLists t' (pushedTo (before ++ ops)) := by
  induction h with
  | nil hb =>
    rw [List.append_nil]
    exact hl
  | snoc h op hproc hlen hb ih =>
    rw [← List.append_assoc, pushedTo_step]
    exact lists_push ih hproc hlen hb

end Lists

/-- Every column of a table is the list of what was pushed to it, and pushes to other
columns leave it as it is. -/
theorem tables_independent {nprocs rows slotSize : ℕ} {fresh : ℕ → ℕ → UInt8} {ops : List PushOp}
    {t : ByteTable} (hrows : 0 < rows) (h : Pushes (create nprocs rows slotSize 0 fresh) ops t) :
    (∀ c < nprocs, t.used c ≤ t.rows ∧ contents t c = pushedTo ops c) ∧
      ∀ later t', Pushes t later t' → ∀ c < nprocs, (∀ op ∈ later, op.proc ≠ c) →
        contents t' c = contents t c := by
  have hn := pushes_nprocs h
  have hl : IsLists t (pushedTo ops) := pushes_lists h (lists_create hrows (pushes_bytes h))
  refine ⟨fun c hc => ?_, fun later t' hlater c hc hother => ?_⟩
  · rw [← show t.nprocs = nprocs from hn] at hc
    exact ⟨lists_fits hl c hc, lists_contents hl c hc⟩
  · have hl' := pushes_lists hlater hl
    have hc' : c < t.nprocs := lt_of_lt_of_eq hc hn.symm
    rw [lists_contents hl c hc',
      lists_contents hl' c (lt_of_lt_of_eq hc' (pushes_nprocs hlater).symm),
      pushedTo_append, pushedTo_other hother, List.append_nil]

/-- The third push makes the table grow. -/
theorem tables_independent_three : ∃ t, Pushes (create 2 1 1 0 fun _ _ => 0)
    [.push 0 [97], .push 1 [97], .write 1 [98]] t ∧ contents t 0 = [[97]] ∧
      contents t 1 = [[97], [98]] := by
  have hnone : Pushes (create 2 1 1 0 fun _ _ => 0) [] (create 2 1 1 0 fun _ _ => 0) :=
    .nil (by decide)
  have hone := hnone.snoc (.push 0 [97]) (by decide) rfl (by decide)
  have htwo := hone.snoc (.push 1 [97]) (by decide) rfl (by decide)
  have hthree := htwo.snoc (.write 1 [98]) (by decide) rfl (by decide)
  obtain ⟨hlists, -⟩ := tables_independent (by decide) hthree
  exact ⟨_, hthree, (hlists 0 (by decide)).2, (hlists 1 (by decide)).2⟩

end BspOnMpi.FixedTables
