import BspOnMpi.Slots
import BspOnMpi.Lib.RelativeList

/-! Delivery tables. `bsp_delivtable.h`. The index pointers of column `p` are unsigned words at
its top; they are aimed again whenever the block moves. -/

namespace BspOnMpi.Delivtable
open Lib Exptable Slots

/-- Word addresses of the start, count and end arrays of every column. -/
structure DelivInfo where
  start : ℕ → ℕ
  count : ℕ → ℕ
  end_ : ℕ → ℕ

abbrev DeliveryTable := ExpandableTable DelivInfo Slot

def indexSize : ℕ := noSlots (3 * 6 * 4) 8

def tagSize : ℕ := noSlots 16 8

def aimIndex (rows : ℕ) : DelivInfo :=
  { start := fun p => 2 * (p * rows)
    count := fun p => 2 * (p * rows) + 6
    end_ := fun p => 2 * (p * rows) + 12 }

/-- The `memset` of every column's index, which stays part of the used slots. -/
def clearIndex (t : DeliveryTable) : DeliveryTable :=
  { t with
    data := (List.range t.nprocs).foldl
      (fun d p => store d (p * t.rows) (List.replicate indexSize (.words 0 0))) t.data
    usedSlotCount := fun _ => indexSize }

def deliveryTableInitialize (nprocs rows : ℕ) (fresh : ℕ → ℕ → Slot) : DeliveryTable :=
  clearIndex (expandableTableInitialize nprocs (rows + indexSize) 8
    (aimIndex (rows + indexSize)) fresh)

def deliveryTableReset (t : DeliveryTable) : DeliveryTable := clearIndex (expandableTableReset t)

def deliveryTableEmpty (t : DeliveryTable) : Bool :=
  (List.range t.nprocs).all fun p => t.usedSlotCount p ≤ indexSize

def deliveryTableExpand (t : DeliveryTable) (rows : ℕ) : DeliveryTable :=
  let t := expandableTableExpand t rows t.info
  { t with info := aimIndex t.rows }

def deliveryTableResetrowcount (t : DeliveryTable) (rows : ℕ) : DeliveryTable :=
  let t := expandableTableResetrowcount t rows
  clearIndex { t with info := aimIndex t.rows }

/-- Writes an element at slot `used` of the column that starts at slot `base`,
behind the last element of its type; the arguments `start`, `count` and `last`
are the word addresses of the column's index entries for that type. -/
def appendElement (start count last base used : ℕ) (element : DelivElement) (d : ℕ → Slot) :
    ℕ → Slot :=
  let d := if getWord d count = 0 then setWord d start used
    else setWord d (2 * (getWord d last + base) + 1) (used - getWord d last)
  let d := setWord d last used
  let d := setWord d count (getWord d count + 1)
  let pointer := used + base
  setInfo (setWord (setWord d (2 * pointer) element.size) (2 * pointer + 1) element.next)
    (pointer + 1) element.info

/-- Returns the slot where the payload of `element` may be copied to. -/
def deliveryTablePush (t : DeliveryTable) (proc : ℕ) (element : DelivElement) (type : ItemType) :
    DeliveryTable × ℕ :=
  let objectSize := tagSize + noSlots element.size 8
  let freeSpace : ℤ := t.rows - t.usedSlotCount proc
  let t := if (objectSize : ℤ) > freeSpace then
      deliveryTableExpand t (max t.rows (objectSize - freeSpace).toNat)
    else t
  let used := t.usedSlotCount proc
  let d := appendElement (t.info.start proc + type.index) (t.info.count proc + type.index)
    (t.info.end_ proc + type.index) (proc * t.rows) used element t.data
  ({ t with
      data := d
      usedSlotCount := Function.update t.usedSlotCount proc (used + objectSize) },
    used + proc * t.rows + tagSize)

structure Item where
  ty : ItemType
  info : DInfo
  payload : List UInt8

def Item.slots (it : Item) : ℕ := tagSize + noSlots it.payload.length 8

def extent : ℕ → List Item → ℕ
  | s, [] => s
  | s, it :: its => extent (s + it.slots) its

def layout : ℕ → List Item → List (ℕ × Item)
  | _, [] => []
  | s, it :: its => (s, it) :: layout (s + it.slots) its

def placed (ty : ItemType) (its : List Item) : List (ℕ × Item) :=
  (layout indexSize its).filter fun e => e.2.ty = ty

def positions (ty : ItemType) (its : List Item) : List ℕ := (placed ty its).map Prod.fst

def colSize (its : List Item) : ℕ := extent indexSize its

@[simp] theorem indexSize_eq : indexSize = 9 := rfl
@[simp] theorem tagSize_eq : tagSize = 2 := rfl

theorem Item.slots_eq (it : Item) : it.slots = 2 + (it.payload.length + 7) / 8 := rfl

theorem extent_eq (s : ℕ) (its : List Item) : extent s its = s + (its.map Item.slots).sum := by
  induction its generalizing s with
  | nil => rfl
  | cons it its ih => simp [extent, ih, Nat.add_assoc]

theorem le_extent (s : ℕ) (its : List Item) : s ≤ extent s its := by
  rw [extent_eq]
  omega

theorem layout_append (s : ℕ) (xs ys : List Item) :
    layout s (xs ++ ys) = layout s xs ++ layout (extent s xs) ys := by
  induction xs generalizing s with
  | nil => rfl
  | cons x xs ih => simp [layout, extent, ih]

theorem layout_map_snd (s : ℕ) (its : List Item) : (layout s its).map Prod.snd = its := by
  induction its generalizing s with
  | nil => rfl
  | cons it its ih => simp [layout, ih]

theorem layout_bounds {s : ℕ} {its : List Item} {e : ℕ × Item} (he : e ∈ layout s its) :
    s ≤ e.1 ∧ e.1 + e.2.slots ≤ extent s its := by
  induction its generalizing s with
  | nil => simp [layout] at he
  | cons it its ih =>
    rcases List.mem_cons.mp he with rfl | he
    · exact ⟨le_rfl, le_extent _ _⟩
    · have := ih he
      exact ⟨by omega, this.2⟩

theorem layout_pairwise (s : ℕ) (its : List Item) :
    (layout s its).Pairwise fun a b => a.1 + a.2.slots ≤ b.1 := by
  induction its generalizing s with
  | nil => exact List.Pairwise.nil
  | cons it its ih =>
    refine List.Pairwise.cons (fun e he => ?_) (ih _)
    exact (layout_bounds he).1

theorem layout_apart {s : ℕ} {its : List Item} {a b : ℕ × Item} (ha : a ∈ layout s its)
    (hb : b ∈ layout s its) : a = b ∨ a.1 + a.2.slots ≤ b.1 ∨ b.1 + b.2.slots ≤ a.1 := by
  induction its generalizing s with
  | nil => simp [layout] at ha
  | cons it its ih =>
    rcases List.mem_cons.mp ha with rfl | ha <;> rcases List.mem_cons.mp hb with rfl | hb
    · exact Or.inl rfl
    · exact Or.inr (Or.inl (layout_bounds hb).1)
    · exact Or.inr (Or.inr (layout_bounds ha).1)
    · exact ih ha hb

theorem colSize_ge (its : List Item) : 9 ≤ colSize its := le_extent indexSize its

theorem colSize_append (xs : List Item) (it : Item) :
    colSize (xs ++ [it]) = colSize xs + it.slots := by
  simp [colSize, extent_eq, Nat.add_assoc]

theorem entry_bounds {its : List Item} {e : ℕ × Item} (he : e ∈ layout indexSize its) :
    9 ≤ e.1 ∧ e.1 + 2 + (e.2.payload.length + 7) / 8 ≤ colSize its := by
  have hb := layout_bounds he
  rw [Item.slots_eq, ← Nat.add_assoc] at hb
  exact hb

theorem placed_append (ty : ItemType) (its : List Item) (it : Item) :
    placed ty (its ++ [it]) = placed ty its ++ if it.ty = ty then [(colSize its, it)] else [] := by
  unfold placed colSize
  rw [layout_append, List.filter_append]
  by_cases h : it.ty = ty <;> simp [layout, h]

theorem placed_map_snd (ty : ItemType) (its : List Item) :
    (placed ty its).map Prod.snd = its.filter fun it => it.ty = ty := by
  have h := List.filter_map (p := fun it : Item => decide (it.ty = ty)) (f := Prod.snd)
    (l := layout indexSize its)
  rw [layout_map_snd] at h
  exact h.symm

theorem mem_positions {ty : ItemType} {its : List Item} {p : ℕ} (h : p ∈ positions ty its) :
    ∃ it : Item, (p, it) ∈ layout indexSize its ∧ it.ty = ty := by
  obtain ⟨e, he, rfl⟩ := List.mem_map.mp h
  have hf := List.mem_filter.mp he
  exact ⟨e.2, hf.1, by simpa using hf.2⟩

theorem positions_bounds {ty : ItemType} {its : List Item} {p : ℕ} (h : p ∈ positions ty its) :
    9 ≤ p ∧ p + 2 ≤ colSize its := by
  obtain ⟨it, hm, -⟩ := mem_positions h
  have hb := entry_bounds hm
  simp only at hb
  omega

theorem positions_pairwise (ty : ItemType) (its : List Item) :
    (positions ty its).Pairwise (· < ·) := by
  refine List.pairwise_map.mpr ((layout_pairwise indexSize its).filter _ |>.imp ?_)
  intro a b hab
  have := a.2.slots_eq
  omega

theorem positions_disjoint {a b : ItemType} {its : List Item} {p : ℕ} (ha : p ∈ positions a its)
    (hb : p ∈ positions b its) : a = b := by
  obtain ⟨x, hx, rfl⟩ := mem_positions ha
  obtain ⟨y, hy, rfl⟩ := mem_positions hb
  have hxs := x.slots_eq
  have hys := y.slots_eq
  rcases layout_apart hx hy with h | h | h
  · rw [(Prod.mk.inj h).2]
  · simp only at h; omega
  · simp only at h; omega

theorem positions_append (ty : ItemType) (its : List Item) (it : Item) :
    positions ty (its ++ [it]) =
      positions ty its ++ if it.ty = ty then [colSize its] else [] := by
  unfold positions
  rw [placed_append, List.map_append]
  by_cases h : it.ty = ty <;> simp [h]

/-- The column `d` holds the elements `its`: every element is where the layout
puts it, and the six linked lists of the index visit the elements of their type. -/
structure Encodes (d : ℕ → Slot) (its : List Item) : Prop where
  entry : ∀ e ∈ layout indexSize its, getWord d (2 * e.1) = e.2.payload.length ∧
    getInfo d (e.1 + 1) = e.2.info ∧
    loadBytes d (8 * (e.1 + 2)) e.2.payload.length = e.2.payload
  count : ∀ ty : ItemType, getWord d (6 + ty.index) = (positions ty its).length
  start : ∀ ty : ItemType, ∀ a ∈ (positions ty its).head?, getWord d ty.index = a
  end_ : ∀ ty : ItemType, ∀ a ∈ (positions ty its).getLast?, getWord d (12 + ty.index) = a
  linked : ∀ ty : ItemType, Linked (fun p => getWord d (2 * p + 1)) (positions ty its)

theorem ItemType.index_lt (ty : ItemType) : ty.index < 6 := by cases ty <;> decide

theorem ItemType.index_injective {a b : ItemType} (h : a.index = b.index) : a = b := by
  cases a <;> cases b <;> first | rfl | exact absurd h (by decide)

theorem Encodes.end_lt {d : ℕ → Slot} {its : List Item} {ty : ItemType} (h : Encodes d its)
    (hc : getWord d (6 + ty.index) ≠ 0) : getWord d (12 + ty.index) < colSize its := by
  rw [h.count] at hc
  have hne := List.ne_nil_of_length_pos (Nat.pos_of_ne_zero hc)
  have hl := List.getLast?_eq_some_getLast hne
  have hb := positions_bounds (List.mem_of_getLast? hl)
  rw [h.end_ ty _ hl]
  omega

theorem Encodes.congr {d e : ℕ → Slot} {its : List Item} (h : Encodes d its)
    (he : ∀ s < colSize its, e s = d s) : Encodes e its := by
  have hi : ∀ k < 18, getWord e k = getWord d k := by
    intro k hk
    have := colSize_ge its
    exact getWord_congr (he _ (by omega)) rfl
  have hlt := ItemType.index_lt
  refine ⟨fun x hx => ?_, fun ty => ?_, fun ty => ?_, fun ty => ?_, fun ty => ?_⟩
  · obtain ⟨h1, h2, h3⟩ := h.entry x hx
    have hb := entry_bounds hx
    refine ⟨?_, ?_, ?_⟩
    · rw [← h1]
      exact getWord_congr (he _ (by omega)) rfl
    · rw [← h2]
      simp only [getInfo, he (x.1 + 1) (by omega)]
    · exact (loadBytes_congr fun s _ hs2 => he s (by omega)).trans h3
  · rw [hi _ (by have := hlt ty; omega)]
    exact h.count ty
  · rw [hi _ (by have := hlt ty; omega)]
    exact h.start ty
  · rw [hi _ (by have := hlt ty; omega)]
    exact h.end_ ty
  · refine (h.linked ty).congr fun a ha => getWord_congr (he _ ?_) rfl
    have hb := positions_bounds (List.dropLast_subset _ ha)
    omega

theorem encodes_nil {d : ℕ → Slot} (h : ∀ s < indexSize, d s = .words 0 0) : Encodes d [] := by
  have hw : ∀ k < 18, getWord d k = 0 := by
    intro k hk
    simp only [getWord, h (k / 2) (by simp only [indexSize_eq]; omega), ite_self]
  refine ⟨fun e he => ?_, fun ty => ?_, fun ty a ha => ?_, fun ty a ha => ?_, fun ty => ?_⟩
  · simp [layout] at he
  · have := ItemType.index_lt ty
    exact hw _ (by omega)
  · simp [positions, placed, layout] at ha
  · simp [positions, placed, layout] at ha
  · exact List.isChain_nil

end BspOnMpi.Delivtable
