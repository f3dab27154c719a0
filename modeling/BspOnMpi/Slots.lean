import BspOnMpi.Exptable

/-! Slots of a delivery table. The slots of a delivery table are `ALIGNED_TYPE`s of eight bytes. A
slot holds two unsigned words (a piece of the column's index, or size and link of an element), the
union `_DInfo` of an element, or eight bytes of payload; writing it at one of these types forgets
what it held at another. The first nine slots of a column are its index: start, count and end of
its six linked lists.

User memory is a map from addresses to bytes that the tables are no part of. -/

namespace BspOnMpi.Slots
open Lib Exptable

abbrev Mem := ℕ → UInt8

def addOffset (pointer : ℕ) (offset : ℤ) : ℕ := ((pointer : ℤ) + offset).toNat

inductive ItemType
  | popreg
  | pushreg
  | put
  | get
  | send
  | settag
  deriving DecidableEq

def ItemType.index : ItemType → ℕ
  | .popreg => 0
  | .pushreg => 1
  | .put => 2
  | .get => 3
  | .send => 4
  | .settag => 5

/-- The union `_DInfo`. A member reads 0 where another one was written. -/
inductive DInfo
  | put (dst : ℕ)
  | send (payloadSize : ℕ)
  | push (address : ℕ)
  | pop (address : ℕ)
  | settag (tagSize : ℕ)
  deriving DecidableEq

@[simp] def DInfo.dst : DInfo → ℕ
  | .put dst => dst
  | _ => 0

@[simp] def DInfo.payloadSize : DInfo → ℕ
  | .send payloadSize => payloadSize
  | _ => 0

@[simp] def DInfo.pushAddress : DInfo → ℕ
  | .push address => address
  | _ => 0

@[simp] def DInfo.popAddress : DInfo → ℕ
  | .pop address => address
  | _ => 0

@[simp] def DInfo.tagSize : DInfo → ℕ
  | .settag tagSize => tagSize
  | _ => 0

structure DelivElement where
  size : ℕ
  next : ℕ
  info : DInfo

inductive Slot
  | words (lo hi : ℕ)
  | info (i : DInfo)
  | bytes (b : Fin 8 → UInt8)

def getWord (d : ℕ → Slot) (k : ℕ) : ℕ :=
  match d (k / 2) with
  | .words lo hi => if k % 2 = 0 then lo else hi
  | _ => 0

def setWord (d : ℕ → Slot) (k v : ℕ) : ℕ → Slot :=
  Function.update d (k / 2)
    (if k % 2 = 0 then .words v (getWord d (k + 1)) else .words (getWord d (k - 1)) v)

def getInfo (d : ℕ → Slot) (s : ℕ) : DInfo :=
  match d s with
  | .info i => i
  | _ => .put 0

def setInfo (d : ℕ → Slot) (s : ℕ) (i : DInfo) : ℕ → Slot := Function.update d s (.info i)

def getByte (d : ℕ → Slot) (a : ℕ) : UInt8 :=
  match d (a / 8) with
  | .bytes b => b ⟨a % 8, Nat.mod_lt a (by decide)⟩
  | _ => 0

def loadBytes (d : ℕ → Slot) (a n : ℕ) : List UInt8 := load (getByte d) a n

def storeBytes (d : ℕ → Slot) (a : ℕ) (bs : List UInt8) : ℕ → Slot := fun s =>
  if 0 < bs.length ∧ a < 8 * s + 8 ∧ 8 * s < a + bs.length then
    .bytes fun j => store (getByte d) a bs (8 * s + j)
  else d s

theorem getWord_congr {d e : ℕ → Slot} {j k : ℕ} (h : d (j / 2) = e (k / 2))
    (hp : j % 2 = k % 2) : getWord d j = getWord e k := by
  simp only [getWord, h, hp]

theorem getByte_congr {d e : ℕ → Slot} {a b : ℕ} (h : d (a / 8) = e (b / 8))
    (hp : a % 8 = b % 8) : getByte d a = getByte e b := by
  simp only [getByte, h, hp]

@[simp] theorem getWord_setWord_same (d : ℕ → Slot) (k v : ℕ) : getWord (setWord d k v) k = v := by
  unfold setWord
  rcases Nat.mod_two_eq_zero_or_one k with h | h <;> simp [getWord, h]

theorem getWord_setWord_ne (d : ℕ → Slot) {j k : ℕ} (v : ℕ) (h : j ≠ k) :
    getWord (setWord d k v) j = getWord d j := by
  by_cases hs : j / 2 = k / 2
  · rcases Nat.mod_two_eq_zero_or_one k with hk | hk
    · have hj : j = k + 1 := by omega
      subst hj
      have hodd : (k + 1) % 2 = 1 := by omega
      simp [getWord, setWord, hs, hk, hodd]
    · have hj : j = k - 1 := by omega
      subst hj
      have heven : (k - 1) % 2 = 0 := by omega
      simp [getWord, setWord, hs, hk, heven]
  · exact getWord_congr (by rw [setWord, Function.update_of_ne hs]) rfl

theorem getWord_setWord (d : ℕ → Slot) (j k v : ℕ) :
    getWord (setWord d k v) j = if j = k then v else getWord d j := by
  split
  · subst j
    exact getWord_setWord_same d k v
  · exact getWord_setWord_ne d v ‹_›

theorem setWord_of_ne (d : ℕ → Slot) {s k : ℕ} (v : ℕ) (h : s ≠ k / 2) : setWord d k v s = d s :=
  Function.update_of_ne h _ _

theorem setInfo_of_ne (d : ℕ → Slot) {s k : ℕ} (i : DInfo) (h : s ≠ k) : setInfo d k i s = d s :=
  Function.update_of_ne h _ _

@[simp] theorem getInfo_setInfo_same (d : ℕ → Slot) (s : ℕ) (i : DInfo) :
    getInfo (setInfo d s i) s = i := by
  simp [getInfo, setInfo]

theorem getWord_setInfo_ne (d : ℕ → Slot) {s k : ℕ} (i : DInfo) (h : k / 2 ≠ s) :
    getWord (setInfo d s i) k = getWord d k :=
  getWord_congr (setInfo_of_ne d i h) rfl

theorem storeBytes_outside (d : ℕ → Slot) {a s : ℕ} (bs : List UInt8)
    (h : 8 * s + 8 ≤ a ∨ a + bs.length ≤ 8 * s) : storeBytes d a bs s = d s := by
  unfold storeBytes
  rw [if_neg (by omega)]

@[simp] theorem storeBytes_nil (d : ℕ → Slot) (a : ℕ) : storeBytes d a [] = d := by
  funext s
  simp [storeBytes]

theorem getByte_storeBytes (d : ℕ → Slot) (a : ℕ) (bs : List UInt8) (x : ℕ) :
    getByte (storeBytes d a bs) x = store (getByte d) a bs x := by
  by_cases h : 0 < bs.length ∧ a < 8 * (x / 8) + 8 ∧ 8 * (x / 8) < a + bs.length
  · have hx : 8 * (x / 8) + x % 8 = x := Nat.div_add_mod x 8
    simp only [getByte, storeBytes, if_pos h, hx]
  · rw [store_of_outside _ _ (by omega)]
    exact getByte_congr (by simp only [storeBytes, if_neg h]) rfl

theorem loadBytes_storeBytes_same (d : ℕ → Slot) (a : ℕ) (bs : List UInt8) :
    loadBytes (storeBytes d a bs) a bs.length = bs := by
  have h := load_store_same (getByte d) a bs
  unfold loadBytes
  rwa [load_congr fun i _ => getByte_storeBytes d a bs (a + i)]

theorem storeBytes_append (d : ℕ → Slot) (a : ℕ) (xs ys : List UInt8) :
    storeBytes (storeBytes d a xs) (a + xs.length) ys = storeBytes d a (xs ++ ys) := by
  have hbytes : getByte (storeBytes d a xs) = store (getByte d) a xs :=
    funext fun x => getByte_storeBytes d a xs x
  funext s
  have houter : storeBytes (storeBytes d a xs) (a + xs.length) ys s =
      if 0 < ys.length ∧ a + xs.length < 8 * s + 8 ∧ 8 * s < a + xs.length + ys.length then
        .bytes fun j => store (getByte d) a (xs ++ ys) (8 * s + j)
      else storeBytes d a xs s := by
    rw [storeBytes, hbytes, store_append]
  rw [houter]
  rcases Nat.eq_zero_or_pos xs.length with h0 | h0
  · rw [List.length_eq_zero_iff.mp h0, storeBytes_nil]
    rfl
  by_cases hy : 0 < ys.length ∧ a + xs.length < 8 * s + 8 ∧ 8 * s < a + xs.length + ys.length
  · rw [if_pos hy, storeBytes, List.length_append, if_pos (by omega)]
  · rw [if_neg hy]
    by_cases hx : a < 8 * s + 8 ∧ 8 * s < a + xs.length
    · rw [storeBytes, if_pos ⟨h0, hx⟩, storeBytes, List.length_append, if_pos (by omega)]
      congr 1
      funext j
      have hj := j.isLt
      rw [← store_append, store_of_outside _ ys (by omega)]
    · rw [storeBytes_outside d xs (by omega), storeBytes_outside d (xs ++ ys)
        (by rw [List.length_append]; omega)]

theorem loadBytes_congr {d e : ℕ → Slot} {a n : ℕ}
    (h : ∀ s, a < 8 * s + 8 → 8 * s < a + n → d s = e s) : loadBytes d a n = loadBytes e a n := by
  apply load_congr
  intro i hi
  exact getByte_congr (h _ (by omega) (by omega)) rfl

section Columns

variable (d : ℕ → Slot) (w c : ℕ)

theorem getWord_column (k : ℕ) : getWord (column d w c) k = getWord d (2 * (c * w) + k) :=
  getWord_congr (by simp only [column]; congr 1; omega) (by omega)

theorem getByte_column (a : ℕ) : getByte (column d w c) a = getByte d (8 * (c * w) + a) :=
  getByte_congr (by simp only [column]; congr 1; omega) (by omega)

theorem loadBytes_column (a n : ℕ) :
    loadBytes (column d w c) a n = loadBytes d (8 * (c * w) + a) n := by
  apply load_congr
  intro i _
  rw [getByte_column, Nat.add_assoc]

theorem column_update (s : ℕ) (x : Slot) :
    column (Function.update d (c * w + s) x) w c = Function.update (column d w c) s x := by
  funext k
  by_cases hk : k = s
  · subst hk; simp [column]
  · simp [column, hk]

theorem column_setWord (k v : ℕ) :
    column (setWord d (2 * (c * w) + k) v) w c = setWord (column d w c) k v := by
  have hs : (2 * (c * w) + k) / 2 = c * w + k / 2 := by omega
  have hp : (2 * (c * w) + k) % 2 = k % 2 := by omega
  unfold setWord
  rw [hs, hp, column_update, getWord_column, getWord_column]
  rcases Nat.mod_two_eq_zero_or_one k with hk | hk
  · simp only [hk, if_true, Nat.add_assoc]
  · have hsub : 2 * (c * w) + k - 1 = 2 * (c * w) + (k - 1) := by omega
    simp only [hk, hsub, Nat.one_ne_zero, if_false]

theorem column_setInfo (s : ℕ) (i : DInfo) :
    column (setInfo d (c * w + s) i) w c = setInfo (column d w c) s i :=
  column_update d w c s _

end Columns

end BspOnMpi.Slots
