import BspOnMpi.Calls

/-! What a push reserves. `deliveryTable_push` with the integers of the machine: sizes pass from
`size_t` to `unsigned int` and to the `int` parameters of `no_slots`, and the sum of signed and
unsigned values is taken as the language has it. Where an `int` does not hold a sum the push is
undefined. -/

namespace BspOnMpi.DelivReserve
open Exptable Slots Delivtable DelivPush Bspx
open Calls (toInt32_spec)

def noSlotsInt (bytes slotSize : ℤ) : Option ℤ :=
  if bytes + slotSize < 2 ^ 31 then some ((bytes + slotSize - 1).tdiv slotSize) else none

def objectSize (size : ℕ) : Option ℕ :=
  (noSlotsInt (toInt32 size) 8).map fun slots => intToUInt32 (tagSize + slots)

def freeSpace (rows used : ℕ) : ℤ := toInt32 ((rows : ℤ) - used)

def spaceNeeded (rows used object : ℕ) : ℤ :=
  toInt32 (max rows (intToUInt32 (object - freeSpace rows used)) : ℕ)

/-- The rows and the column's `used_slot_count` after a push, and the slot of the column
that the returned pointer refers to. -/
structure Reservation where
  rows : ℕ
  used : ℕ
  pointer : ℕ
  deriving DecidableEq

/-- What `deliveryTable_push` does with a column of which `used` out of `rows` slots are
in use. -/
def reserve (rows used size : ℕ) : Option Reservation :=
  (objectSize size).map fun (object : ℕ) =>
    { rows := if freeSpace rows used < toInt32 object then
          toUInt32 (intToUInt32 (spaceNeeded rows used object) + rows)
        else rows
      used := toUInt32 (used + object)
      pointer := used + tagSize }

def putSize (nbytes : ℕ) : ℕ := toUInt32 nbytes

def sendSize (sendTagSize payloadNbytes : ℕ) : ℕ := toUInt32 (toUInt32 payloadNbytes + sendTagSize)

structure Column where
  rows : ℕ
  used : ℕ
  rows_lt : rows < 2 ^ 32
  used_le : used ≤ rows

def Reserves (c : Column) (size nbytes : ℕ) : Prop :=
  ∃ r, reserve c.rows c.used size = some r ∧ r.used ≤ r.rows ∧ 8 * r.pointer + nbytes ≤ 8 * r.used

/-- The sizes that are rounded up without overflow, in a column that has room for them
or in a table whose rows can be doubled. -/
def Fits (c : Column) (nbytes : ℕ) : Prop :=
  nbytes + 8 < 2 ^ 31 ∧ (c.used + tagSize + (nbytes + 7) / 8 ≤ c.rows ∨ c.rows < 2 ^ 31)

def takenBack (nbytes : ℕ) : ℕ := (2 ^ 32 - nbytes % 2 ^ 32 - 7) / 8

/-- The slots taken back leave the column at its start and enter it again at its end. -/
def Wraps (c : Column) (nbytes : ℕ) : Prop :=
  2 ^ 31 ≤ nbytes % 2 ^ 32 ∧ c.used + tagSize < takenBack nbytes ∧
    2 ^ 32 + c.used + tagSize ≤ c.rows + takenBack nbytes ∧
    nbytes + 8 * takenBack nbytes ≤ 8 * 2 ^ 32

theorem intToUInt32_lt (x : ℤ) : intToUInt32 x < 2 ^ 32 := by
  rw [intToUInt32]
  omega

theorem intToUInt32_toInt32 {x : ℕ} (h : x < 2 ^ 32) : intToUInt32 (toInt32 x) = x := by
  rw [intToUInt32, toInt32]
  have hmod := Int.bmod_emod (x := x) (m := 2 ^ 32)
  omega

theorem noSlotsInt_small {size : ℕ} (h : size + 8 < 2 ^ 31) :
    noSlotsInt (toInt32 size) 8 = some (((size + 7) / 8 : ℕ) : ℤ) := by
  have hint : toInt32 size = size := Calls.toInt32_eq (by omega) (by omega)
  have hsum : (size : ℤ) + 8 - 1 = (size + 7 : ℕ) := by omega
  rw [noSlotsInt, hint, if_pos (by omega), hsum]
  rfl

theorem noSlotsInt_overflow {size : ℕ} (hlo : 2 ^ 31 ≤ size + 8) (hhi : size < 2 ^ 31) :
    noSlotsInt (toInt32 size) 8 = none := by
  have hint : toInt32 size = size := Calls.toInt32_eq (by omega) (by omega)
  rw [noSlotsInt, hint, if_neg (by omega)]

theorem noSlotsInt_negative {size : ℕ} (hlo : 2 ^ 31 ≤ size) (hhi : size < 2 ^ 32) :
    noSlotsInt (toInt32 size) 8 = some (-(((2 ^ 32 - size - 7) / 8 : ℕ) : ℤ)) := by
  obtain ⟨q, hq, hge, hlt⟩ := toInt32_spec size
  have hint : toInt32 size = size - 2 ^ 32 := by omega
  rw [noSlotsInt, hint, if_pos (by omega), Option.some.injEq]
  by_cases hpos : 2 ^ 32 ≤ size + 7
  · have hsum : (size : ℤ) - 2 ^ 32 + 8 - 1 = (size + 7 - 2 ^ 32 : ℕ) := by omega
    rw [hsum, Int.natCast_tdiv_eq_ediv]
    omega
  · have hsum : (size : ℤ) - 2 ^ 32 + 8 - 1 = -((2 ^ 32 - size - 7 : ℕ) : ℤ) := by omega
    rw [hsum, Int.neg_tdiv, Int.natCast_tdiv_eq_ediv]
    omega

section Reserves

variable {c : Column} {size nbytes : ℕ}

def grownRows (rows used object : ℕ) : ℕ :=
  if freeSpace rows used < toInt32 object then
    toUInt32 (max rows (intToUInt32 (object - freeSpace rows used)) + rows)
  else rows

theorem spaceNeeded_unsigned {rows used object : ℕ} (hrows : rows < 2 ^ 32) :
    intToUInt32 (spaceNeeded rows used object) =
      max rows (intToUInt32 (object - freeSpace rows used)) :=
  intToUInt32_toInt32 (max_lt hrows (intToUInt32_lt _))

theorem reserve_object {rows used object : ℕ} (hrows : rows < 2 ^ 32)
    (hobject : objectSize size = some object) : reserve rows used size =
      some ⟨grownRows rows used object, toUInt32 (used + object), used + tagSize⟩ := by
  rw [reserve, hobject, Option.map_some, spaceNeeded_unsigned hrows]
  rfl

theorem reserves_object {object : ℕ} (hobject : objectSize size = some object) :
    Reserves c size nbytes ↔ toUInt32 (c.used + object) ≤ grownRows c.rows c.used object ∧
      8 * (c.used + 2) + nbytes ≤ 8 * toUInt32 (c.used + object) := by
  rw [Reserves, reserve_object c.rows_lt hobject]
  simp only [Option.some.injEq, exists_eq_left']
  rfl

theorem objectSize_small (hs : size + 8 < 2 ^ 31) :
    objectSize size = some (2 + (size + 7) / 8) := by
  rw [objectSize, noSlotsInt_small hs, Option.map_some, Option.some.injEq, intToUInt32, tagSize_eq]
  omega

theorem grownRows_small {rows used object : ℕ} (hrows : rows < 2 ^ 32) (hused : used ≤ rows)
    (hobject : object < 2 ^ 29) (hpos : 0 < object) :
    (used + object ≤ grownRows rows used object ↔ used + object ≤ rows ∨ rows < 2 ^ 31) ∧
      (rows < 2 ^ 31 → used + object < 2 ^ 32) := by
  obtain ⟨q, hq, hlo, hhi⟩ := toInt32_spec ((rows : ℤ) - used)
  have hsigned : toInt32 object = object := Calls.toInt32_eq (by omega) (by omega)
  rw [grownRows, hsigned, freeSpace]
  generalize toInt32 ((rows : ℤ) - used) = free at *
  refine ⟨?_, fun h => by omega⟩
  split
  · rw [toUInt32, intToUInt32]
    omega
  · omega

theorem reserves_small (hs : size + 8 < 2 ^ 31) : Reserves c size nbytes ↔
    nbytes ≤ 8 * ((size + 7) / 8) ∧
      (c.used + tagSize + (size + 7) / 8 ≤ c.rows ∨ c.rows < 2 ^ 31) := by
  have hrows := c.rows_lt
  have hused := c.used_le
  rw [reserves_object (objectSize_small hs), tagSize_eq]
  obtain ⟨hgrown, hsum⟩ := grownRows_small hrows hused
    (show 2 + (size + 7) / 8 < 2 ^ 29 by omega) (by omega)
  by_cases hwrap : c.used + (2 + (size + 7) / 8) < 2 ^ 32
  · rw [toUInt32, Nat.mod_eq_of_lt hwrap, hgrown]
    omega
  · -- the count itself wraps around
    rw [toUInt32]
    omega

theorem objectSize_negative (hlo : 2 ^ 31 ≤ nbytes % 2 ^ 32) : ∃ object,
    objectSize (nbytes % 2 ^ 32) = some object ∧
      (takenBack nbytes ≤ 2 → object + takenBack nbytes = 2) ∧
      (2 < takenBack nbytes → object + takenBack nbytes = 4294967298 ∧
        toInt32 object = 2 - takenBack nbytes) := by
  have hm : takenBack nbytes < 2 ^ 28 := by
    rw [takenBack]
    omega
  have hslots : noSlotsInt (toInt32 (nbytes % 2 ^ 32 : ℕ)) 8 = some (-(takenBack nbytes : ℤ)) :=
    noSlotsInt_negative hlo (Nat.mod_lt _ (by decide))
  refine ⟨_, by rw [objectSize, hslots, Option.map_some], ?_⟩
  generalize takenBack nbytes = m at *
  obtain ⟨q, hq, hge, hlt⟩ := toInt32_spec (intToUInt32 ((tagSize : ℤ) + -(m : ℤ)) : ℕ)
  rw [intToUInt32, tagSize_eq] at *
  constructor
  · omega
  · omega

theorem grownRows_negative {rows used object m : ℕ} (hrows : rows < 2 ^ 32) (hused : used ≤ rows)
    (hsum : object + m = 4294967298) (hsigned : toInt32 object = 2 - m) (hlo : 2 < m)
    (hhi : m < 2 ^ 28) :
    used + object ≤ grownRows rows used object ↔ used + object ≤ rows := by
  obtain ⟨q, hq, hfree, hfree'⟩ := toInt32_spec ((rows : ℤ) - used)
  rw [grownRows, hsigned, freeSpace]
  generalize toInt32 ((rows : ℤ) - used) = free at *
  split
  · have hneeded : intToUInt32 ((object : ℤ) - free) ≤ rows := by
      rw [intToUInt32]
      omega
    rw [max_eq_left hneeded, toUInt32]
    omega
  · rfl

theorem reserves_negative (hlo : 2 ^ 31 ≤ nbytes % 2 ^ 32) :
    Reserves c (nbytes % 2 ^ 32) nbytes ↔ Wraps c nbytes := by
  have hrows := c.rows_lt
  have hused := c.used_le
  have hmany : 2 ^ 31 ≤ nbytes := hlo.trans (Nat.mod_le _ _)
  have hm : takenBack nbytes < 2 ^ 28 := by
    rw [takenBack]
    omega
  obtain ⟨object, hobject, hfew, hback⟩ := objectSize_negative hlo
  rw [reserves_object hobject, Wraps, tagSize_eq]
  generalize takenBack nbytes = m at *
  by_cases htag : m ≤ 2
  · -- the pointer is behind the slots that stay reserved
    have hsum := hfew htag
    rw [toUInt32]
    omega
  · obtain ⟨hsum, hsigned⟩ := hback (by omega)
    have hgrown := grownRows_negative hrows hused hsum hsigned (by omega) hm
    constructor
    · rintro ⟨hle, hend⟩
      have hcol : c.used + 2 < m := by
        rw [toUInt32] at hend
        omega
      rw [toUInt32, Nat.mod_eq_of_lt (show c.used + object < 2 ^ 32 by omega)] at hle hend
      have hroom := hgrown.mp hle
      omega
    · rintro ⟨-, hcol, hroom, hend⟩
      rw [toUInt32, Nat.mod_eq_of_lt (show c.used + object < 2 ^ 32 by omega), hgrown]
      omega

theorem reserves_overflow (hlo : 2 ^ 31 ≤ size + 8) (hhi : size < 2 ^ 31) :
    ¬ Reserves c size nbytes := by
  rintro ⟨r, hr, -⟩
  rw [reserve, objectSize, noSlotsInt_overflow hlo hhi] at hr
  exact absurd hr (by simp)

theorem reserves_iff (c : Column) (nbytes : ℕ) :
    Reserves c (nbytes % 2 ^ 32) nbytes ↔ Fits c nbytes ∨ Wraps c nbytes := by
  have hmod : nbytes % 2 ^ 32 ≤ nbytes := Nat.mod_le _ _
  rw [Fits, Wraps]
  by_cases hneg : 2 ^ 31 ≤ nbytes % 2 ^ 32
  · rw [reserves_negative hneg, Wraps]
    omega
  · by_cases hover : 2 ^ 31 ≤ nbytes % 2 ^ 32 + 8
    · have hnot : ¬ Reserves c (nbytes % 2 ^ 32) nbytes := reserves_overflow hover (by omega)
      rw [iff_false_left hnot]
      omega
    · rw [reserves_small (by omega)]
      omega

end Reserves

def exactRows (rows used slots : ℕ) : ℕ :=
  if used + slots ≤ rows then rows else rows + max rows (used + slots - rows)

theorem exactRows_room (rows used slots : ℕ) :
    rows ≤ exactRows rows used slots ∧ used + slots ≤ exactRows rows used slots := by
  rw [exactRows]
  split <;> omega

theorem grownRows_exact {rows used object : ℕ} (hrows : rows < 2 ^ 31) (hused : used ≤ rows)
    (hobject : object < 2 ^ 29) : grownRows rows used object = exactRows rows used object := by
  have hfree : freeSpace rows used = rows - used := Calls.toInt32_eq (by omega) (by omega)
  have hsigned : toInt32 object = object := Calls.toInt32_eq (by omega) (by omega)
  rw [grownRows, exactRows, hfree, hsigned]
  by_cases hroom : used + object ≤ rows
  · rw [if_neg (by omega), if_pos hroom]
  · rw [if_pos (by omega), if_neg hroom, toUInt32, intToUInt32]
    omega

theorem makeRoom_exact (t : DeliveryTable) (proc object : ℕ) :
    (makeRoom t proc object).rows = exactRows t.rows (t.usedSlotCount proc) object := by
  rw [makeRoom, exactRows]
  by_cases hroom : t.usedSlotCount proc + object ≤ t.rows
  · rw [if_neg (by omega), if_pos hroom]
  · rw [if_pos (by omega), if_neg hroom, deliveryTableExpand]
    simp only [expand_rows]
    omega

theorem reserve_push {t : DeliveryTable} {proc : ℕ} (hrows : t.rows < 2 ^ 31)
    (hused : t.usedSlotCount proc ≤ t.rows) {element : DelivElement}
    (hs : element.size + 8 < 2 ^ 31)
    (ty : ItemType) : ∃ r, reserve t.rows (t.usedSlotCount proc) element.size = some r ∧
      (deliveryTablePush t proc element ty).1.rows = r.rows ∧
      (deliveryTablePush t proc element ty).1.usedSlotCount proc = r.used ∧
      (deliveryTablePush t proc element ty).2 = r.pointer + proc * r.rows := by
  have hobject : tagSize + noSlots element.size 8 = 2 + (element.size + 7) / 8 := rfl
  have hroom := makeRoom_exact t proc (2 + (element.size + 7) / 8)
  rw [← grownRows_exact hrows hused (by omega)] at hroom
  refine ⟨_, reserve_object (by omega) (objectSize_small hs), ?_, ?_, ?_⟩
  · rw [push_eq, hobject]
    simp only [hroom]
  · rw [push_eq, hobject]
    simp only [Function.update_self, makeRoom_usedSlotCount]
    exact (Nat.mod_eq_of_lt (by omega)).symm
  · rw [push_eq, hobject]
    simp only [makeRoom_usedSlotCount, hroom]
    omega

/-- A put and a send reserve what they copy exactly for the sizes that fit, and for those
that wrap around a column of almost 2 ^ 32 slots. -/
theorem push_reserves_iff (c : Column) :
    (∀ nbytes, Reserves c (putSize nbytes) nbytes ↔ Fits c nbytes ∨ Wraps c nbytes) ∧
      ∀ sendTagSize payloadNbytes,
        Reserves c (sendSize sendTagSize payloadNbytes) (sendTagSize + payloadNbytes) ↔
          Fits c (sendTagSize + payloadNbytes) ∨ Wraps c (sendTagSize + payloadNbytes) := by
  refine ⟨reserves_iff c, fun sendTagSize payloadNbytes => ?_⟩
  have hsize : sendSize sendTagSize payloadNbytes = (sendTagSize + payloadNbytes) % 2 ^ 32 := by
    rw [sendSize, toUInt32, toUInt32, Nat.mod_add_mod, Nat.add_comm]
  rw [hsize]
  exact reserves_iff c _

theorem freshRows_lt : delivtabMinSize + indexSize < 2 ^ 32 := by decide

theorem freshUsed_le : indexSize ≤ delivtabMinSize + indexSize := by decide

def freshColumn : Column := ⟨delivtabMinSize + indexSize, indexSize, freshRows_lt, freshUsed_le⟩

/-- A put of 2 ^ 31 bytes into a new table. -/
theorem put_not_reserved : ¬ Reserves freshColumn (putSize (2 ^ 31)) (2 ^ 31) := by
  have hiff := reserves_iff freshColumn (2 ^ 31)
  rw [Fits, Wraps, takenBack] at hiff
  rw [putSize, toUInt32, hiff]
  decide

end BspOnMpi.DelivReserve
