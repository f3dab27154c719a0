import BspOnMpi.DelivReserve

/-! Where the columns of a table are. The byte offsets of a column, as each function that moves,
writes, reads or sends the columns of a table forms them from `int`, `unsigned int` and pointer
operands. The table is one block of bytes. Of what `deliveryTable_push` writes there are the
element and the payload that its caller copies; the index of the column and the links between its
elements are addressed in the same way and are left out. -/

namespace BspOnMpi.ColumnOffsets
open Lib Exptable Slots Delivtable DelivPush Bspx DelivReserve

structure ByteTable where
  nprocs : ℕ
  rows : ℕ
  slotSize : ℕ
  used : ℕ → ℕ
  data : ℕ → UInt8
  fresh : ℕ → ℕ → UInt8

def slotBytes (rows slotSize i : ℕ) : ℕ := toUInt32 (toUInt32 (i * rows) * slotSize)

/-- Where `fixedElSizeTable_push` copies the element to: `j` is an `int`, and unsigned
again in the product. -/
def fixedOffset (t : ByteTable) (proc : ℕ) : ℕ :=
  let j := toInt32 (toUInt32 (t.used proc + toUInt32 (proc * t.rows)))
  toUInt32 (intToUInt32 j * t.slotSize)

def delivOffset (t : ByteTable) (proc : ℕ) : ℕ := 8 * (t.used proc + toUInt32 (proc * t.rows))

def executeOffset (t : ByteTable) (p start : ℕ) : ℕ := 8 * (toUInt32 (p * t.rows) + start)

def commOffset (t : ByteTable) (i : ℕ) : ℤ := toInt32 (slotBytes t.rows t.slotSize i)

def commBytes (t : ByteTable) (i : ℕ) : ℤ := toInt32 (toUInt32 (t.used i * t.slotSize))

def expandableTableExpand (t : ByteTable) (rows : ℕ) : ByteTable :=
  let newrows := toUInt32 (rows + t.rows)
  { t with
    data := (List.range t.nprocs).foldl (fun d i => store d (slotBytes newrows t.slotSize i)
        (load t.data (slotBytes t.rows t.slotSize i) (toUInt32 (t.used i * t.slotSize))))
      (t.fresh newrows)
    rows := newrows }

def fixedElSizeTablePush (t : ByteTable) (proc : ℕ) (element : List UInt8) : ByteTable :=
  let t := if t.used proc = t.rows then expandableTableExpand t t.rows else t
  { t with
    data := store t.data (fixedOffset t proc) element
    used := Function.update t.used proc (toUInt32 (t.used proc + 1)) }

def placeElement (t : ByteTable) (proc object : ℕ) (element payload : List UInt8) : ByteTable :=
  let pointer := delivOffset t proc
  { t with
    data := store (store t.data pointer element) (pointer + 8 * tagSize) payload
    used := Function.update t.used proc (toUInt32 (t.used proc + object)) }

section Place

variable (t : ByteTable) (proc object : ℕ) (element payload : List UInt8)

theorem place_nprocs : (placeElement t proc object element payload).nprocs = t.nprocs := rfl

theorem place_slotSize : (placeElement t proc object element payload).slotSize = t.slotSize := rfl

theorem place_rows : (placeElement t proc object element payload).rows = t.rows := rfl

theorem place_data : (placeElement t proc object element payload).data =
    store (store t.data (delivOffset t proc) element) (delivOffset t proc + 8 * tagSize) payload :=
      rfl

theorem place_used : (placeElement t proc object element payload).used =
    Function.update t.used proc (toUInt32 (t.used proc + object)) := rfl

end Place

def deliveryTablePush (t : ByteTable) (proc : ℕ) (element payload : List UInt8) :
    Option ByteTable :=
  (objectSize (toUInt32 payload.length)).map fun (object : ℕ) =>
    placeElement
      (if freeSpace t.rows (t.used proc) < toInt32 object then
        expandableTableExpand t (intToUInt32 (spaceNeeded t.rows (t.used proc) object))
      else t) proc object element payload

inductive TableOp
  | push (proc : ℕ) (element : List UInt8)
  | deliver (proc : ℕ) (element payload : List UInt8)
  | expand (rows : ℕ)

def step : TableOp → ByteTable → Option ByteTable
  | .push proc element, t => some (fixedElSizeTablePush t proc element)
  | .deliver proc element payload, t => deliveryTablePush t proc element payload
  | .expand rows, t => some (expandableTableExpand t rows)

/-- An element is one slot, one of a delivery table is `sizeof (DelivElement)` bytes long
and is pushed to slots of eight bytes. -/
def Legal (nprocs slotSize : ℕ) : TableOp → Prop
  | .push proc element => proc < nprocs ∧ element.length = slotSize
  | .deliver proc element _ => proc < nprocs ∧ slotSize = 8 ∧ element.length = 16
  | .expand _ => True

structure Filled where
  rows : ℕ
  used : ℕ → ℕ
  pushed : ℕ → List (ℕ × List UInt8)

/-- The rows are those that were added up, every function finds column `c` at byte
`c * rows * slotSize`, and the columns that are sent are disjoint and contain what was
pushed. The pushed bytes are given by their place in the column. -/
structure Agrees (t : ByteTable) (e : Filled) : Prop where
  rows : 1 < t.nprocs → t.rows = e.rows
  moved : ∀ c < t.nprocs, slotBytes t.rows t.slotSize c = c * t.rows * t.slotSize
  written : ∀ c < t.nprocs, fixedOffset t c = c * t.rows * t.slotSize + t.used c * t.slotSize
  delivered : t.slotSize = 8 → ∀ c < t.nprocs,
    delivOffset t c = c * t.rows * t.slotSize + t.used c * t.slotSize
  executed : t.slotSize = 8 → ∀ c < t.nprocs, ∀ start,
    executeOffset t c start = c * t.rows * t.slotSize + start * t.slotSize
  sent : ∀ c < t.nprocs, commOffset t c = (c * t.rows * t.slotSize : ℕ) ∧
    commBytes t c = (t.used c * t.slotSize : ℕ)
  disjoint : ∀ c < t.nprocs, ∀ d < c, commOffset t d + commBytes t d ≤ commOffset t c
  contains : ∀ c < t.nprocs, ∀ x ∈ e.pushed c, ((x.1 + x.2.length : ℕ) : ℤ) ≤ commBytes t c ∧
    load t.data (c * t.rows * t.slotSize + x.1) x.2.length = x.2

def Filled.append (e : Filled) (proc slots place : ℕ) (bytes : List UInt8) : Filled :=
  { rows := exactRows e.rows (e.used proc) slots
    used := Function.update e.used proc (e.used proc + slots)
    pushed := Function.update e.pushed proc (e.pushed proc ++ [(place, bytes)]) }

@[simp] theorem append_rows (e : Filled) (proc slots place : ℕ) (bytes : List UInt8) :
    (e.append proc slots place bytes).rows = exactRows e.rows (e.used proc) slots := rfl

@[simp] theorem append_used (e : Filled) (proc slots place : ℕ) (bytes : List UInt8) :
    (e.append proc slots place bytes).used =
      Function.update e.used proc (e.used proc + slots) := rfl

@[simp] theorem append_pushed (e : Filled) (proc slots place : ℕ) (bytes : List UInt8) :
    (e.append proc slots place bytes).pushed =
      Function.update e.pushed proc (e.pushed proc ++ [(place, bytes)]) := rfl

def fill (slotSize : ℕ) : TableOp → Filled → Filled
  | .push proc element, e => e.append proc 1 (e.used proc * slotSize) element
  | .deliver proc _ payload, e =>
    e.append proc (tagSize + (payload.length + 7) / 8) (8 * (e.used proc + tagSize)) payload
  | .expand rows, e => { e with rows := rows + e.rows }

/-- Every column starts before byte 2 ^ 31 and has fewer bytes in use. -/
def Small (nprocs slotSize : ℕ) (e : Filled) : Prop :=
  ∀ c < nprocs, c * e.rows * slotSize < 2 ^ 31 ∧ e.used c * slotSize < 2 ^ 31

instance (nprocs slotSize : ℕ) (e : Filled) : Decidable (Small nprocs slotSize e) :=
  inferInstanceAs (Decidable (∀ c < nprocs, c * e.rows * slotSize < 2 ^ 31 ∧
    e.used c * slotSize < 2 ^ 31))

def AgreesAlong : List TableOp → ByteTable → Filled → Prop
  | [], t, e => Agrees t e
  | op :: ops, t, e => Agrees t e ∧
      ∃ t', step op t = some t' ∧ AgreesAlong ops t' (fill t.slotSize op e)

def SmallAlong (nprocs slotSize : ℕ) : List TableOp → Filled → Prop
  | [], e => Small nprocs slotSize e
  | op :: ops, e => Small nprocs slotSize e ∧ SmallAlong nprocs slotSize ops (fill slotSize op e)

section Model

variable {I S : Type}

def counted (t : ExpandableTable I S) (pushed : ℕ → List (ℕ × List UInt8)) : Filled :=
  { rows := t.rows, used := t.usedSlotCount, pushed := pushed }

theorem small_counted (t : ExpandableTable I S) (pushed : ℕ → List (ℕ × List UInt8)) :
    Small t.nprocs t.slotSize (counted t pushed) ↔
      ∀ c < t.nprocs, Exptable.commOffset t c < 2 ^ 31 ∧ Exptable.commBytes t c < 2 ^ 31 := Iff.rfl

theorem counted_push (t : ExpandableTable I S) (pushed : ℕ → List (ℕ × List UInt8)) (slotSize : ℕ)
    {proc : ℕ} (hrows : 0 < t.rows) (hfits : t.usedSlotCount proc ≤ t.rows)
    (changeinfo : I → ℕ → ℕ → I) (x : S) (element : List UInt8) :
    fill slotSize (.push proc element) (counted t pushed) =
      counted (Exptable.fixedElSizeTablePush t proc changeinfo x)
        (Function.update pushed proc
          (pushed proc ++ [(t.usedSlotCount proc * slotSize, element)])) := by
  by_cases hfull : t.usedSlotCount proc = t.rows
  · have hgrown : exactRows t.rows (t.usedSlotCount proc) 1 = t.rows + t.rows := by
      rw [exactRows, if_neg (by omega)]
      omega
    simp only [fill, counted, Filled.append, Exptable.fixedElSizeTablePush, if_pos hfull, hgrown,
      expand_rows, expand_usedSlotCount]
  · have hgrown : exactRows t.rows (t.usedSlotCount proc) 1 = t.rows := by
      rw [exactRows, if_pos (by omega)]
    simp only [fill, counted, Filled.append, Exptable.fixedElSizeTablePush, if_neg hfull, hgrown]

theorem counted_deliver (t : DeliveryTable) (pushed : ℕ → List (ℕ × List UInt8)) {proc : ℕ}
    {item : DelivElement} (ty : ItemType) (element : List UInt8) {payload : List UInt8}
    (hsize : item.size = payload.length) :
    fill 8 (.deliver proc element payload) (counted t pushed) =
      counted (Delivtable.deliveryTablePush t proc item ty).1
        (Function.update pushed proc
          (pushed proc ++ [(8 * (t.usedSlotCount proc + tagSize), payload)])) := by
  have hslots : (payload.length + 7) / 8 = noSlots item.size 8 := by
    rw [hsize]
    rfl
  simp only [fill, counted, Filled.append, push_eq, hslots, makeRoom_exact, makeRoom_usedSlotCount]

theorem counted_expand (t : ExpandableTable I S) (pushed : ℕ → List (ℕ × List UInt8))
    (slotSize rows : ℕ) (newinfo : I) : fill slotSize (.expand rows) (counted t pushed) =
      counted (Exptable.expandableTableExpand t rows newinfo) pushed := rfl

end Model

section Exact

variable {t : ByteTable} {rows slotSize c w : ℕ}

theorem slotBytes_of_lt (hslots : c * rows < 2 ^ 32) (h : c * rows * slotSize < 2 ^ 32) :
    slotBytes rows slotSize c = c * rows * slotSize := by
  rw [slotBytes, toUInt32, toUInt32, Nat.mod_eq_of_lt hslots, Nat.mod_eq_of_lt h]

theorem slotBytes_exact (hslot : 0 < slotSize) (h : c * rows * slotSize < 2 ^ 32) :
    slotBytes rows slotSize c = c * rows * slotSize :=
  slotBytes_of_lt (lt_of_le_of_lt (Nat.le_mul_of_pos_right _ hslot) h) h

theorem fixedOffset_of_lt (hslots : t.used c + c * t.rows < 2 ^ 32)
    (h : (t.used c + c * t.rows) * t.slotSize < 2 ^ 32) :
    fixedOffset t c = (t.used c + c * t.rows) * t.slotSize := by
  have hcol : toUInt32 (c * t.rows) = c * t.rows := Nat.mod_eq_of_lt (by omega)
  have hunsigned : toUInt32 (t.used c + c * t.rows) = t.used c + c * t.rows :=
    Nat.mod_eq_of_lt hslots
  rw [fixedOffset, hcol, hunsigned, intToUInt32_toInt32 hslots]
  exact Nat.mod_eq_of_lt h

theorem fixedOffset_exact (hslot : 0 < t.slotSize)
    (h : c * t.rows * t.slotSize + t.used c * t.slotSize < 2 ^ 32) :
    fixedOffset t c = c * t.rows * t.slotSize + t.used c * t.slotSize := by
  have hsum : (t.used c + c * t.rows) * t.slotSize =
      c * t.rows * t.slotSize + t.used c * t.slotSize := by ring
  rw [← hsum] at h ⊢
  exact fixedOffset_of_lt (lt_of_le_of_lt (Nat.le_mul_of_pos_right _ hslot) h) h

theorem fixedOffset_at {u : ℕ} (hslot : 0 < slotSize) (hslotSize : t.slotSize = slotSize)
    (hused : t.used c = u) (hrows : c * t.rows = c * rows) (hcol : c * rows * slotSize < 2 ^ 31)
    (hu : u * slotSize < 2 ^ 31) : fixedOffset t c = c * (rows * slotSize) + u * slotSize := by
  have hlt : c * t.rows * t.slotSize + t.used c * t.slotSize < 2 ^ 32 := by
    rw [hslotSize, hused, hrows]
    omega
  rw [fixedOffset_exact (hslotSize ▸ hslot) hlt, hslotSize, hused, hrows, Nat.mul_assoc]

theorem delivOffset_at {u : ℕ} (hused : t.used c = u) (hrows : c * t.rows = c * rows)
    (hcol : c * rows * 8 < 2 ^ 31) : delivOffset t c = c * (rows * 8) + u * 8 := by
  have hunsigned : toUInt32 (c * t.rows) = c * rows := by
    rw [hrows]
    exact Nat.mod_eq_of_lt (by omega)
  rw [delivOffset, hunsigned, hused]
  ring

theorem executeOffset_at (hrows : c * t.rows = c * rows) (hcol : c * rows * 8 < 2 ^ 31)
    (start : ℕ) : executeOffset t c start = c * (rows * 8) + start * 8 := by
  have hunsigned : toUInt32 (c * t.rows) = c * rows := by
    rw [hrows]
    exact Nat.mod_eq_of_lt (by omega)
  rw [executeOffset, hunsigned]
  ring

end Exact

structure Counts (nprocs slotSize : ℕ) (t : ByteTable) (e : Filled) : Prop where
  nprocs_eq : t.nprocs = nprocs
  slotSize_eq : t.slotSize = slotSize
  rows_eq : ∀ c < nprocs, c * t.rows = c * e.rows
  used_eq : ∀ c < nprocs, t.used c = e.used c
  fits : ∀ c < nprocs, e.used c ≤ e.rows
  rows_pos : 0 < e.rows

section Counts

variable {nprocs slotSize : ℕ} {t t' : ByteTable} {e : Filled} {op : TableOp}

theorem counts_rows (h : Counts nprocs slotSize t e) (hs : Small nprocs slotSize e)
    (hslot : 0 < slotSize) (hn : 1 < nprocs) : t.rows = e.rows ∧ e.rows < 2 ^ 31 := by
  have hrows := h.rows_eq 1 hn
  have hsmall := (hs 1 hn).1
  rw [Nat.one_mul, Nat.one_mul] at hrows
  rw [Nat.one_mul] at hsmall
  exact ⟨hrows, lt_of_le_of_lt (Nat.le_mul_of_pos_right _ hslot) hsmall⟩

theorem counts_used (hs : Small nprocs slotSize e) (hslot : 0 < slotSize) {c : ℕ}
    (hc : c < nprocs) :
    e.used c < 2 ^ 31 :=
  lt_of_le_of_lt (Nat.le_mul_of_pos_right _ hslot) (hs c hc).2

theorem rows_of {rows rows' : ℕ} (h : 1 < nprocs → rows = rows') :
    ∀ c < nprocs, c * rows = c * rows' := by
  intro c hc
  by_cases hzero : c = 0
  · rw [hzero, Nat.zero_mul, Nat.zero_mul]
  · rw [h (by omega)]

theorem counts_append (h : Counts nprocs slotSize t e) {proc slots place : ℕ} {bytes : List UInt8}
    (hnprocs : t'.nprocs = nprocs) (hslotSize : t'.slotSize = slotSize)
    (hrows : 1 < nprocs → t'.rows = exactRows e.rows (e.used proc) slots)
    (hused : t'.used = Function.update t.used proc (e.used proc + slots)) :
    Counts nprocs slotSize t' (e.append proc slots place bytes) := by
  obtain ⟨hle, hroom⟩ := exactRows_room e.rows (e.used proc) slots
  refine ⟨hnprocs, hslotSize, rows_of hrows, fun c hc => ?_, fun c hc => ?_, ?_⟩
  · rw [hused, append_used]
    by_cases he : c = proc
    · rw [he, Function.update_self, Function.update_self]
    · rw [Function.update_of_ne he, Function.update_of_ne he]
      exact h.used_eq c hc
  · rw [append_used, append_rows]
    by_cases he : c = proc
    · rw [he, Function.update_self]
      exact hroom
    · rw [Function.update_of_ne he]
      exact (h.fits c hc).trans hle
  · exact lt_of_lt_of_le h.rows_pos hle

section Room

variable (p : Prop) [Decidable p] (t : ByteTable) (rows : ℕ)

theorem room_nprocs : (if p then expandableTableExpand t rows else t).nprocs = t.nprocs := by
  split <;> rfl

theorem room_slotSize : (if p then expandableTableExpand t rows else t).slotSize = t.slotSize := by
  split <;> rfl

theorem room_used : (if p then expandableTableExpand t rows else t).used = t.used := by
  split <;> rfl

theorem room_rows : (if p then expandableTableExpand t rows else t).rows =
    if p then toUInt32 (rows + t.rows) else t.rows := by
  split <;> rfl

end Room

theorem counts_push (h : Counts nprocs slotSize t e) (hs : Small nprocs slotSize e)
    (hslot : 0 < slotSize) {proc : ℕ} (hp : proc < nprocs) (element : List UInt8) :
    Counts nprocs slotSize (fixedElSizeTablePush t proc element)
      (fill slotSize (.push proc element) e) := by
  have hused := counts_used hs hslot hp
  have hfits := h.fits proc hp
  refine counts_append h ((room_nprocs ..).trans h.nprocs_eq)
    ((room_slotSize ..).trans h.slotSize_eq) (fun hn => ?_) ?_
  · obtain ⟨hrows, hlt⟩ := counts_rows h hs hslot hn
    have hpos := h.rows_pos
    apply (room_rows ..).trans
    rw [h.used_eq proc hp, hrows, exactRows, toUInt32]
    split
    · rw [if_neg (by omega)]
      omega
    · rw [if_pos (by omega)]
  · rw [fixedElSizeTablePush, room_used, h.used_eq proc hp]
    rw [toUInt32, Nat.mod_eq_of_lt (by omega)]

theorem deliver_eq (t : ByteTable) (proc : ℕ) (element : List UInt8) {payload : List UInt8}
    (hlen : payload.length + 8 < 2 ^ 31) : deliveryTablePush t proc element payload =
      some (placeElement
        (if freeSpace t.rows (t.used proc) < toInt32 (2 + (payload.length + 7) / 8 : ℕ) then
          expandableTableExpand t
            (intToUInt32 (spaceNeeded t.rows (t.used proc) (2 + (payload.length + 7) / 8)))
        else t) proc (2 + (payload.length + 7) / 8) element payload) := by
  have hsize : toUInt32 payload.length = payload.length := Calls.toUInt32_eq (by omega)
  rw [deliveryTablePush, hsize, objectSize_small hlen, Option.map_some]

theorem counts_deliver (h : Counts nprocs slotSize t e) (hs : Small nprocs slotSize e)
    (hslot : slotSize = 8) {proc : ℕ} (hp : proc < nprocs) {element payload : List UInt8}
    (hlen : payload.length + 8 < 2 ^ 31)
    (hpush : deliveryTablePush t proc element payload = some t') :
    Counts nprocs slotSize t' (fill slotSize (.deliver proc element payload) e) := by
  have hused := counts_used hs (by omega) hp
  have hfits := h.fits proc hp
  rw [deliver_eq t proc element hlen, Option.some.injEq] at hpush
  rw [fill, tagSize_eq, ← hpush]
  apply counts_append h
  · rw [place_nprocs, room_nprocs, h.nprocs_eq]
  · rw [place_slotSize, room_slotSize, h.slotSize_eq]
  · intro hn
    obtain ⟨hrows, hlt⟩ := counts_rows h hs (by omega) hn
    have hgrown := grownRows_exact hlt hfits (show 2 + (payload.length + 7) / 8 < 2 ^ 29 by omega)
    rw [place_rows, room_rows, h.used_eq proc hp, hrows, spaceNeeded_unsigned (by omega),
      ← hgrown, grownRows]
  · have hsum : toUInt32 (e.used proc + (2 + (payload.length + 7) / 8)) =
        e.used proc + (2 + (payload.length + 7) / 8) := Nat.mod_eq_of_lt (by omega)
    rw [place_used, room_used, h.used_eq proc hp, hsum]

theorem counts_expand (h : Counts nprocs slotSize t e) {rows : ℕ}
    (hrows : 1 < nprocs → toUInt32 (rows + t.rows) = rows + e.rows) :
    Counts nprocs slotSize (expandableTableExpand t rows) (fill slotSize (.expand rows) e) := by
  refine ⟨h.nprocs_eq, h.slotSize_eq, rows_of hrows, h.used_eq, fun c hc => ?_, ?_⟩
  · exact (h.fits c hc).trans (Nat.le_add_left _ _)
  · exact Nat.add_pos_right _ h.rows_pos

theorem rows_expand (h : Counts nprocs slotSize t e) (hslot : 0 < slotSize) {rows : ℕ}
    (hs' : Small nprocs slotSize (fill slotSize (.expand rows) e)) (hn : 1 < nprocs) :
    toUInt32 (rows + t.rows) = rows + e.rows := by
  have hrows := h.rows_eq 1 hn
  have hsmall := (hs' 1 hn).1
  rw [Nat.one_mul, Nat.one_mul] at hrows
  rw [Nat.one_mul] at hsmall
  have hlt : rows + e.rows < 2 ^ 31 := lt_of_le_of_lt (Nat.le_mul_of_pos_right _ hslot) hsmall
  rw [hrows]
  exact Nat.mod_eq_of_lt (by omega)

end Counts

def Holds (nprocs slotSize : ℕ) (t : ByteTable) (e : Filled) : Prop :=
  ∀ c < nprocs, ∀ x ∈ e.pushed c, x.1 + x.2.length ≤ e.used c * slotSize ∧
    load t.data (c * (e.rows * slotSize) + x.1) x.2.length = x.2

section Bytes

variable {nprocs slotSize : ℕ} {t t' : ByteTable} {e : Filled} {op : TableOp}

theorem small_offset {rows : ℕ} (h : Counts nprocs slotSize t e) (hslot : 0 < slotSize)
    (hrows : ∀ c < nprocs, c * rows = c * e.rows) (hs : Small nprocs slotSize e) {c : ℕ}
    (hc : c < nprocs) : slotBytes rows t.slotSize c = c * (e.rows * slotSize) := by
  have hlt : c * rows * slotSize < 2 ^ 32 := by
    rw [hrows c hc]
    exact (hs c hc).1.trans (by decide)
  rw [h.slotSize_eq, slotBytes_exact hslot hlt, hrows c hc, Nat.mul_assoc]

theorem expand_moves {rows oldWidth width : ℕ} {bytes : ℕ → ℕ}
    (hold : ∀ c < t.nprocs, slotBytes t.rows t.slotSize c = c * oldWidth)
    (hnew : ∀ c < t.nprocs, slotBytes (toUInt32 (rows + t.rows)) t.slotSize c = c * width)
    (hbytes : ∀ c < t.nprocs, toUInt32 (t.used c * t.slotSize) = bytes c)
    (hwidth : ∀ c < t.nprocs, bytes c ≤ width) {c i : ℕ} (hc : c < t.nprocs) (hi : i < bytes c) :
    (expandableTableExpand t rows).data (c * width + i) = t.data (c * oldWidth + i) := by
  have hdata : (expandableTableExpand t rows).data = writeColumns width
      (fun d => load t.data (d * oldWidth) (bytes d)) t.nprocs
      (t.fresh (toUInt32 (rows + t.rows))) := by
    rw [expandableTableExpand, writeColumns]
    apply List.foldl_ext
    intro d x hx
    have hx' : x < t.nprocs := List.mem_range.mp hx
    rw [hnew x hx', hold x hx', hbytes x hx']
  have hle : ∀ d < t.nprocs, (load t.data (d * oldWidth) (bytes d)).length ≤ width := by
    intro d hd
    rw [load_length]
    exact hwidth d hd
  have hcol := writeColumns_column (t.fresh (toUInt32 (rows + t.rows))) hle hc
    (lt_of_lt_of_le hi (hwidth c hc))
  rw [hdata]
  apply hcol.trans
  rw [store_of_mem _ (Nat.zero_le _) (by simpa using hi), load_getElem, Nat.sub_zero]

theorem expand_data (h : Counts nprocs slotSize t e) (hs : Small nprocs slotSize e)
    (hslot : 0 < slotSize) {rows width : ℕ}
    (hnew : ∀ c < nprocs, slotBytes (toUInt32 (rows + t.rows)) t.slotSize c = c * width)
    (hwidth : ∀ c < nprocs, e.used c * slotSize ≤ width) {c i : ℕ} (hc : c < nprocs)
    (hi : i < e.used c * slotSize) :
    (expandableTableExpand t rows).data (c * width + i) =
      t.data (c * (e.rows * slotSize) + i) := by
  have hn := h.nprocs_eq
  rw [← hn] at hnew hwidth hc
  refine expand_moves (fun d hd => ?_) hnew (fun d hd => ?_) hwidth hc hi
  · exact small_offset h hslot h.rows_eq hs (hn ▸ hd)
  · rw [h.used_eq d (hn ▸ hd), h.slotSize_eq]
    exact Nat.mod_eq_of_lt ((hs d (hn ▸ hd)).2.trans (by decide))

theorem room_data (h : Counts nprocs slotSize t e) (hs : Small nprocs slotSize e)
    (hslot : 0 < slotSize) (p : Prop) [Decidable p] (rows : ℕ) {newrows : ℕ}
    (hrows : ∀ c < nprocs, c * (if p then expandableTableExpand t rows else t).rows = c * newrows)
    (hsmall : ∀ c < nprocs, c * newrows * slotSize < 2 ^ 31)
    (hfits : ∀ c < nprocs, e.used c ≤ newrows) {c i : ℕ} (hc : c < nprocs)
    (hi : i < e.used c * slotSize) :
    (if p then expandableTableExpand t rows else t).data (c * (newrows * slotSize) + i) =
      t.data (c * (e.rows * slotSize) + i) := by
  by_cases hp : p
  · simp only [if_pos hp] at hrows ⊢
    refine expand_data h hs hslot (fun d hd => ?_) (fun d hd => ?_) hc hi
    · have hd' : d * toUInt32 (rows + t.rows) = d * newrows := hrows d hd
      have hlt : d * toUInt32 (rows + t.rows) * slotSize < 2 ^ 32 := by
        rw [hd']
        exact (hsmall d hd).trans (by decide)
      rw [h.slotSize_eq, slotBytes_exact hslot hlt, hd', Nat.mul_assoc]
    · exact Nat.mul_le_mul_right _ (hfits d hd)
  · simp only [if_neg hp] at hrows ⊢
    have hcol : c * newrows = c * e.rows := (hrows c hc).symm.trans (h.rows_eq c hc)
    rw [← Nat.mul_assoc, hcol, Nat.mul_assoc]

theorem holds_append {proc slots place : ℕ} {bytes : List UInt8} (h : Holds nprocs slotSize t e)
    (hkept : ∀ c < nprocs, ∀ i < e.used c * slotSize,
      t'.data (c * (exactRows e.rows (e.used proc) slots * slotSize) + i) =
        t.data (c * (e.rows * slotSize) + i))
    (hnew : load t'.data (proc * (exactRows e.rows (e.used proc) slots * slotSize) + place)
      bytes.length = bytes)
    (hend : place + bytes.length ≤ (e.used proc + slots) * slotSize) :
    Holds nprocs slotSize t' (e.append proc slots place bytes) := by
  have hold : ∀ c < nprocs, ∀ x ∈ e.pushed c,
      x.1 + x.2.length ≤ e.used c * slotSize ∧
        load t'.data (c * (exactRows e.rows (e.used proc) slots * slotSize) + x.1) x.2.length =
          x.2 := by
    intro c hc x hx
    obtain ⟨hxend, hxload⟩ := h c hc x hx
    refine ⟨hxend, Eq.trans (load_congr fun i hi => ?_) hxload⟩
    rw [Nat.add_assoc, Nat.add_assoc]
    exact hkept c hc (x.1 + i) (by omega)
  intro c hc x hx
  rw [append_pushed] at hx
  rw [append_used, append_rows]
  by_cases he : c = proc
  · rw [he, Function.update_self, List.mem_append, List.mem_singleton] at hx
    rw [he, Function.update_self]
    rcases hx with hx | rfl
    · obtain ⟨hxend, hxload⟩ := hold proc (he ▸ hc) x hx
      exact ⟨hxend.trans (Nat.mul_le_mul_right _ (Nat.le_add_right _ _)), hxload⟩
    · exact ⟨hend, hnew⟩
  · rw [Function.update_of_ne he] at hx
    rw [Function.update_of_ne he]
    exact hold c hc x hx

theorem holds_push (h : Counts nprocs slotSize t e) (hh : Holds nprocs slotSize t e)
    (hs : Small nprocs slotSize e) (hslot : 0 < slotSize) {proc : ℕ} (hp : proc < nprocs)
    {element : List UInt8} (hlen : element.length = slotSize)
    (hs' : Small nprocs slotSize (fill slotSize (.push proc element) e)) :
    Holds nprocs slotSize (fixedElSizeTablePush t proc element)
      (fill slotSize (.push proc element) e) := by
  have hrows := (counts_push h hs hslot hp element).rows_eq
  obtain ⟨hle, hroom⟩ := exactRows_room e.rows (e.used proc) 1
  let roomy := if t.used proc = t.rows then expandableTableExpand t t.rows else t
  have hat : fixedOffset roomy proc =
      proc * (exactRows e.rows (e.used proc) 1 * slotSize) + e.used proc * slotSize := by
    refine fixedOffset_at hslot ((room_slotSize _ t t.rows).trans h.slotSize_eq) ?_ (hrows proc hp)
      (hs' proc hp).1 (hs proc hp).2
    rw [← h.used_eq proc hp]
    exact congrFun (room_used _ t t.rows) proc
  have hdata : (fixedElSizeTablePush t proc element).data =
      store roomy.data
        (proc * (exactRows e.rows (e.used proc) 1 * slotSize) + e.used proc * slotSize)
        element := by
    rw [← hat]
    rfl
  have hwidth : e.used proc * slotSize + element.length ≤
      exactRows e.rows (e.used proc) 1 * slotSize := by
    have hmul := Nat.mul_le_mul_right slotSize hroom
    rw [Nat.add_mul, Nat.one_mul] at hmul
    omega
  refine holds_append hh (fun c hc i hi => ?_) ?_ ?_
  · have hused := Nat.mul_le_mul_right slotSize ((h.fits c hc).trans hle)
    rw [hdata, store_behind (fun d => e.used d * slotSize) le_rfl hwidth hused hi]
    exact room_data h hs hslot _ t.rows hrows (fun d hd => (hs' d hd).1)
      (fun d hd => (h.fits d hd).trans hle) hc hi
  · rw [hdata]
    exact load_store_same _ _ _
  · rw [Nat.add_mul, hlen, Nat.one_mul]

theorem holds_deliver (h : Counts nprocs 8 t e) (hh : Holds nprocs 8 t e) (hs : Small nprocs 8 e)
    {proc : ℕ} (hp : proc < nprocs) {element payload : List UInt8} (hlen : element.length = 16)
    (hpayload : payload.length + 8 < 2 ^ 31)
    (hs' : Small nprocs 8 (fill 8 (.deliver proc element payload) e))
    (hpush : deliveryTablePush t proc element payload = some t') :
    Holds nprocs 8 t' (fill 8 (.deliver proc element payload) e) := by
  have hrows := (counts_deliver h hs rfl hp hpayload hpush).rows_eq
  rw [deliver_eq t proc element hpayload, Option.some.injEq] at hpush
  rw [fill, tagSize_eq] at hrows hs' ⊢
  rw [← hpush, place_rows] at hrows
  have hused : ∀ (p : Prop) [Decidable p] (rows : ℕ),
      (if p then expandableTableExpand t rows else t).used proc = e.used proc := by
    intro p _ rows
    rw [room_used, h.used_eq proc hp]
  have hat := delivOffset_at (hused _ _) (hrows proc hp) (hs' proc hp).1
  rw [append_rows] at hat
  obtain ⟨hle, hroom⟩ := exactRows_room e.rows (e.used proc) (2 + (payload.length + 7) / 8)
  have hfits : ∀ d < nprocs,
      e.used d ≤ exactRows e.rows (e.used proc) (2 + (payload.length + 7) / 8) :=
    fun d hd => (h.fits d hd).trans hle
  have hmoved := fun c hc i => room_data (c := c) (i := i) h hs (by decide) _ _ hrows
    (fun d hd => (hs' d hd).1) hfits hc
  simp only [append_rows] at hmoved
  have hbehind : ∀ base, base + e.used proc * 8 + 8 * 2 = base + 8 * (e.used proc + 2) := by omega
  have hdata := congrArg ByteTable.data hpush
  rw [place_data, hat, tagSize_eq, hbehind] at hdata
  refine holds_append hh (fun c hc i hi => ?_) ?_ ?_
  · have husedRows := Nat.mul_le_mul_right 8 (hfits c hc)
    rw [← hdata,
      store_behind (fun d => e.used d * 8) (by omega) (by omega) husedRows hi,
      store_behind (fun d => e.used d * 8) le_rfl (by omega) husedRows hi]
    exact hmoved c hc i hi
  · rw [← hdata, load_store_same]
  · omega

theorem holds_expand (h : Counts nprocs slotSize t e) (hh : Holds nprocs slotSize t e)
    (hs : Small nprocs slotSize e) (hslot : 0 < slotSize) {rows : ℕ}
    (hs' : Small nprocs slotSize (fill slotSize (.expand rows) e)) :
    Holds nprocs slotSize (expandableTableExpand t rows) (fill slotSize (.expand rows) e) := by
  have hcounts := counts_expand h (rows_expand h hslot hs')
  intro c hc x hx
  obtain ⟨hend, hload⟩ := hh c hc x hx
  refine ⟨hend, Eq.trans (load_congr fun i hi => ?_) hload⟩
  rw [Nat.add_assoc, Nat.add_assoc]
  refine expand_data h hs hslot (fun d hd => ?_) (fun d hd => ?_) hc (by omega)
  · have hoffset := small_offset hcounts hslot hcounts.rows_eq hs' hd
    rw [hcounts.slotSize_eq] at hoffset
    rw [h.slotSize_eq]
    exact hoffset
  · exact Nat.mul_le_mul_right _ (hcounts.fits d hd)

end Bytes

section Runs

variable {nprocs slotSize : ℕ} {t t' : ByteTable} {e : Filled} {op : TableOp}

theorem commOffset_of_small (h : Counts nprocs slotSize t e) (hslot : 0 < slotSize)
    (hs : Small nprocs slotSize e) {c : ℕ} (hc : c < nprocs) :
    commOffset t c = (c * e.rows * slotSize : ℕ) := by
  have hsmall := (hs c hc).1
  rw [commOffset, small_offset h hslot h.rows_eq hs hc, ← Nat.mul_assoc]
  exact Calls.toInt32_eq (by omega) (by omega)

theorem commBytes_of_small (h : Counts nprocs slotSize t e) (hs : Small nprocs slotSize e) {c : ℕ}
    (hc : c < nprocs) : commBytes t c = (e.used c * slotSize : ℕ) := by
  have hsmall := (hs c hc).2
  have hunsigned : toUInt32 (e.used c * slotSize) = e.used c * slotSize := Calls.toUInt32_eq hsmall
  rw [commBytes, h.used_eq c hc, h.slotSize_eq, hunsigned]
  exact Calls.toInt32_eq (by omega) (by omega)

theorem agrees_of_small (h : Counts nprocs slotSize t e) (hh : Holds nprocs slotSize t e)
    (hslot : 0 < slotSize) (hs : Small nprocs slotSize e) : Agrees t e := by
  have hn := h.nprocs_eq
  have hcol : ∀ c < nprocs, c * t.rows * t.slotSize = c * e.rows * slotSize := by
    intro c hc
    rw [h.slotSize_eq, h.rows_eq c hc]
  have hused : ∀ c < nprocs, t.used c * t.slotSize = e.used c * slotSize := by
    intro c hc
    rw [h.slotSize_eq, h.used_eq c hc]
  refine ⟨fun h1 => (counts_rows h hs hslot (hn ▸ h1)).1, fun c hc => ?_, fun c hc => ?_,
    fun h8 c hc => ?_, fun h8 c hc start => ?_, fun c hc => ?_,
    fun c hc d hd => ?_, fun c hc x hx => ?_⟩
  all_goals rw [hn] at hc
  · rw [hcol c hc, small_offset h hslot h.rows_eq hs hc, Nat.mul_assoc]
  · rw [hcol c hc, hused c hc, fixedOffset_at hslot h.slotSize_eq (h.used_eq c hc) (h.rows_eq c hc)
      (hs c hc).1 (hs c hc).2, Nat.mul_assoc]
  · rw [h.slotSize_eq] at h8
    rw [hcol c hc, hused c hc, h8, Nat.mul_assoc]
    exact delivOffset_at (h.used_eq c hc) (h.rows_eq c hc) (h8 ▸ (hs c hc).1)
  · rw [h.slotSize_eq] at h8
    rw [hcol c hc, h.slotSize_eq, h8, Nat.mul_assoc]
    exact executeOffset_at (h.rows_eq c hc) (h8 ▸ (hs c hc).1) start
  · rw [hcol c hc, hused c hc]
    exact ⟨commOffset_of_small h hslot hs hc, commBytes_of_small h hs hc⟩
  · have hd' : d < nprocs := hd.trans hc
    rw [commOffset_of_small h hslot hs hc, commOffset_of_small h hslot hs hd',
      commBytes_of_small h hs hd']
    have hfits := Nat.mul_le_mul_right slotSize (h.fits d hd')
    have hnext := Nat.mul_le_mul_right (e.rows * slotSize) (Nat.succ_le_of_lt hd)
    rw [Nat.succ_mul, ← Nat.mul_assoc, ← Nat.mul_assoc] at hnext
    omega
  · obtain ⟨hend, hload⟩ := hh c hc x hx
    rw [commBytes_of_small h hs hc, hcol c hc, Nat.mul_assoc]
    exact ⟨by exact_mod_cast hend, hload⟩

theorem small_of_agrees (h : Counts nprocs slotSize t e) (ha : Agrees t e) :
    Small nprocs slotSize e := by
  intro c hc
  obtain ⟨hoffset, hbytes⟩ := ha.sent c (h.nprocs_eq ▸ hc)
  have hlt : commOffset t c < 2 ^ 31 := (Calls.toInt32_range _).2
  have hlt' : commBytes t c < 2 ^ 31 := (Calls.toInt32_range _).2
  rw [hoffset, h.slotSize_eq, h.rows_eq c hc] at hlt
  rw [hbytes, h.slotSize_eq, h.used_eq c hc] at hlt'
  exact ⟨by exact_mod_cast hlt, by exact_mod_cast hlt'⟩

theorem payload_of_agrees {proc place : ℕ} {payload : List UInt8} (hp : proc < t.nprocs)
    (ha : Agrees t e) (hin : (place, payload) ∈ e.pushed proc) :
    place + payload.length < 2 ^ 31 := by
  have hlt : commBytes t proc < 2 ^ 31 := (Calls.toInt32_range _).2
  have hend := (ha.contains proc hp _ hin).1
  have hall := lt_of_le_of_lt hend hlt
  exact_mod_cast hall

theorem deliver_nprocs {proc : ℕ} {element payload : List UInt8}
    (h : deliveryTablePush t proc element payload = some t') : t'.nprocs = t.nprocs := by
  obtain ⟨object, -, rfl⟩ := Option.map_eq_some_iff.mp h
  rw [place_nprocs, room_nprocs]

theorem step_holds (h : Counts nprocs slotSize t e) (hh : Holds nprocs slotSize t e)
    (hs : Small nprocs slotSize e) (hslot : 0 < slotSize) (hop : Legal nprocs slotSize op)
    (hs' : Small nprocs slotSize (fill slotSize op e)) : ∃ t', step op t = some t' ∧
      Counts nprocs slotSize t' (fill slotSize op e) ∧
        Holds nprocs slotSize t' (fill slotSize op e) := by
  cases op with
  | push proc element =>
    obtain ⟨hp, hlen⟩ := hop
    exact ⟨_, rfl, counts_push h hs hslot hp element, holds_push h hh hs hslot hp hlen hs'⟩
  | deliver proc element payload =>
    obtain ⟨hp, rfl, hlen⟩ := hop
    have hpayload : payload.length + 8 < 2 ^ 31 := by
      have hused := (hs' proc hp).2
      rw [fill, append_used, Function.update_self, tagSize_eq] at hused
      omega
    have hpush := deliver_eq t proc element hpayload
    exact ⟨_, hpush, counts_deliver h hs rfl hp hpayload hpush,
      holds_deliver h hh hs hp hlen hpayload hs' hpush⟩
  | expand rows =>
    exact ⟨_, rfl, counts_expand h (rows_expand h hslot hs'), holds_expand h hh hs hslot hs'⟩

theorem step_small (h : Counts nprocs slotSize t e) (hs : Small nprocs slotSize e)
    (hslot : 0 < slotSize) (hop : Legal nprocs slotSize op) (hstep : step op t = some t')
    (ha : Agrees t' (fill slotSize op e)) : Small nprocs slotSize (fill slotSize op e) := by
  cases op with
  | push proc element =>
    rw [step, Option.some.injEq] at hstep
    exact small_of_agrees (hstep ▸ counts_push h hs hslot hop.1 element) ha
  | deliver proc element payload =>
    obtain ⟨hp, rfl, hlen⟩ := hop
    have hnprocs := (deliver_nprocs hstep).trans h.nprocs_eq
    have hin : (8 * (e.used proc + tagSize), payload) ∈
        (fill 8 (.deliver proc element payload) e).pushed proc := by
      rw [fill, append_pushed, Function.update_self]
      exact List.mem_append_right _ (List.mem_singleton_self _)
    have hend := payload_of_agrees (hnprocs ▸ hp) ha hin
    rw [tagSize_eq] at hend
    exact small_of_agrees (counts_deliver h hs rfl hp (by omega) hstep) ha
  | expand rows =>
    rw [step, Option.some.injEq] at hstep
    have hrows : 1 < nprocs → toUInt32 (rows + t.rows) = rows + e.rows := by
      intro hn
      rw [← hstep] at ha
      exact ha.rows (h.nprocs_eq ▸ hn)
    exact small_of_agrees (hstep ▸ counts_expand h hrows) ha

theorem agreesAlong_head {ops : List TableOp} (h : AgreesAlong ops t e) : Agrees t e := by
  cases ops with
  | nil => exact h
  | cons op ops => exact h.1

theorem smallAlong_head {ops : List TableOp} (h : SmallAlong nprocs slotSize ops e) :
    Small nprocs slotSize e := by
  cases ops with
  | nil => exact h
  | cons op ops => exact h.1

theorem along_iff (h : Counts nprocs slotSize t e) (hh : Holds nprocs slotSize t e)
    (hslot : 0 < slotSize) {ops : List TableOp} (hops : ∀ op ∈ ops, Legal nprocs slotSize op) :
    AgreesAlong ops t e ↔ SmallAlong nprocs slotSize ops e := by
  induction ops generalizing t e with
  | nil => exact ⟨small_of_agrees h, agrees_of_small h hh hslot⟩
  | cons op ops ih =>
    have hop := hops op (List.mem_cons_self ..)
    have hrest := fun x hx => hops x (List.mem_cons_of_mem _ hx)
    rw [AgreesAlong, SmallAlong, h.slotSize_eq]
    constructor
    · rintro ⟨ha, t', hstep, halong⟩
      have hs := small_of_agrees h ha
      have hs' := step_small h hs hslot hop hstep (agreesAlong_head halong)
      obtain ⟨t'', hstep', hcounts, hholds⟩ := step_holds h hh hs hslot hop hs'
      rw [hstep, Option.some.injEq] at hstep'
      rw [← hstep'] at hcounts hholds
      exact ⟨hs, (ih hcounts hholds hrest).mp halong⟩
    · rintro ⟨hs, halong⟩
      obtain ⟨t', hstep, hcounts, hholds⟩ := step_holds h hh hs hslot hop (smallAlong_head halong)
      exact ⟨agrees_of_small h hh hslot hs, t', hstep, (ih hcounts hholds hrest).mpr halong⟩

end Runs

def create (nprocs rows slotSize first : ℕ) (fresh : ℕ → ℕ → UInt8) : ByteTable :=
  { nprocs := nprocs
    rows := rows
    slotSize := slotSize
    used := fun _ => first
    data := fresh rows
    fresh := fresh }

def emptyCounts (rows first : ℕ) : Filled :=
  { rows := rows, used := fun _ => first, pushed := fun _ => [] }

/-- In a run the columns agree in every table exactly if, counted without wrap-around,
every column of every table starts before byte 2 ^ 31 and has fewer bytes in use. -/
theorem columns_agree_iff {nprocs rows slotSize first : ℕ} (hrows : 0 < rows)
    (hfirst : first ≤ rows)
    (hslot : 0 < slotSize) (fresh : ℕ → ℕ → UInt8) {ops : List TableOp}
    (hops : ∀ op ∈ ops, Legal nprocs slotSize op) :
    AgreesAlong ops (create nprocs rows slotSize first fresh) (emptyCounts rows first) ↔
      SmallAlong nprocs slotSize ops (emptyCounts rows first) := by
  have hcounts : Counts nprocs slotSize (create nprocs rows slotSize first fresh)
      (emptyCounts rows first) :=
    ⟨rfl, rfl, fun _ _ => rfl, fun _ _ => rfl, fun _ _ => hfirst, hrows⟩
  exact along_iff hcounts (fun _ _ x hx => absurd hx List.not_mem_nil) hslot hops

/-- The second message does not fit and the table grows. -/
theorem columns_agree_two :
    AgreesAlong [.deliver 1 (List.replicate 16 0) [1, 2, 3], .deliver 1 (List.replicate 16 0) [4]]
      (create 2 12 8 9 fun _ _ => 0) (emptyCounts 12 9) := by
  refine (columns_agree_iff (by decide) (by decide) (by decide) _ ?_).mpr
    ⟨by decide, by decide, show Small 2 8 _ by decide⟩
  intro op hop
  rw [List.mem_pair] at hop
  rcases hop with rfl | rfl
  · exact ⟨by decide, rfl, rfl⟩
  · exact ⟨by decide, rfl, rfl⟩

/-- A put of 16 MiB to one of 129 processors: after it the last column starts at a byte
that no `int` holds. -/
theorem columns_disagree :
    ¬ AgreesAlong [.deliver 0 (List.replicate 16 0) (List.replicate (2 ^ 24) 0)]
      (create 129 2057 8 9 fun _ _ => 0) (emptyCounts 2057 9) := by
  have hcounts : Counts 129 8 (create 129 2057 8 9 fun _ _ => 0) (emptyCounts 2057 9) :=
    ⟨rfl, rfl, fun _ _ => rfl, fun _ _ => rfl, fun _ _ => show 9 ≤ 2057 by decide, by decide⟩
  have hlegal : Legal 129 8 (.deliver 0 (List.replicate 16 0) (List.replicate (2 ^ 24) 0)) :=
    ⟨by decide, rfl, rfl⟩
  intro h
  have hsmall := ((along_iff hcounts (fun _ _ x hx => absurd hx List.not_mem_nil) (by decide)
    (List.forall_mem_singleton.mpr hlegal)).mp h).2 128 (by decide)
  rw [fill, append_rows, List.length_replicate] at hsmall
  exact absurd hsmall.1 (by decide)

end BspOnMpi.ColumnOffsets
