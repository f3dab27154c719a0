import BspOnMpi.Slots

/-! Serialised datasets. `SerializedDataset.h` on top of `AVector.h`: an array of eight-byte words
with a table of offsets and two spare words in front of the records. A record is the length of an
identifier, its bytes, the length of a value and its bytes, each from a word boundary on.

A `uint64_t` is a natural number in the two halves of a slot. -/

namespace BspOnMpi.SerializedDataset
open Lib Slots

def getU64 (d : ℕ → Slot) (k : ℕ) : ℕ := getWord d (2 * k) + 2 ^ 32 * getWord d (2 * k + 1)

def setU64 (d : ℕ → Slot) (k v : ℕ) : ℕ → Slot :=
  Function.update d k (.words (v % 2 ^ 32) (v / 2 ^ 32))

/-- `AVector<uint64_t>`; an allocation of `n` words contains `fresh n`. -/
structure AVector where
  size : ℕ
  data : ℕ → Slot
  dataIsMine : Bool
  fresh : ℕ → ℕ → Slot

def AVector.create (fresh : ℕ → ℕ → Slot) (size : ℕ) : AVector :=
  { size := size, data := fresh size, dataIsMine := true, fresh := fresh }

/-- A block that belongs to somebody else is not moved. -/
def AVector.resize (v : AVector) (size : ℕ) : AVector :=
  if v.size = size then v
  else { v with
    size := size
    data := if v.dataIsMine then store (v.fresh size) 0 (load v.data 0 (min v.size size))
      else v.data }

structure Dataset where
  data : AVector
  dataPos : ℕ
  nelem : ℕ
  currentEl : ℕ

def create (fresh : ℕ → ℕ → Slot) (nelem : ℕ) : Dataset :=
  let data := (AVector.create fresh (2 + nelem)).resize (2 + nelem)
  { data := { data with data := store data.data 0 (List.replicate (nelem + 2) (.words 0 0)) }
    dataPos := 2 + nelem
    nelem := nelem
    currentEl := 0 }

/-- The constructor on a buffer of `size` bytes, which leaves `data_pos` unset. -/
def ofBuffer (xdata : ℕ → Slot) (nelem size unset : ℕ) : Dataset :=
  { data := { size := size / 8, data := xdata, dataIsMine := false, fresh := fun _ => xdata }
    dataPos := unset
    nelem := nelem
    currentEl := 0 }

def nextPos (ds : Dataset) (id value : List UInt8) : ℕ :=
  let totalSz := value.length + 2 * 8 + id.length
  ds.dataPos + (totalSz + 31) / 8

def reserve (ds : Dataset) (next : ℕ) : AVector :=
  if ds.data.size ≤ next then ds.data.resize (next + 1) else ds.data

def writeRecord (d : ℕ → Slot) (p : ℕ) (id value : List UInt8) : ℕ → Slot :=
  let d := storeBytes (setU64 d p id.length) (8 * (p + 1)) id
  let p := p + 1 + (id.length + 7) / 8
  storeBytes (setU64 d p value.length) (8 * (p + 1)) value

def addElem (ds : Dataset) (id value : List UInt8) : Dataset :=
  let next := nextPos ds id value
  let data := reserve ds next
  let d := setU64 (writeRecord data.data ds.dataPos id value) ds.currentEl ds.dataPos
  { ds with data := { data with data := d }, currentEl := ds.currentEl + 1, dataPos := next }

def elements (ds : Dataset) : ℕ := ds.nelem
def size (ds : Dataset) : ℕ := ds.data.size * 8
def getData (ds : Dataset) : ℕ → Slot := ds.data.data

def restart (ds : Dataset) : Dataset :=
  { ds with currentEl := 0, dataPos := getU64 ds.data.data 0 }

def nextName (ds : Dataset) : List UInt8 :=
  loadBytes ds.data.data (8 * (ds.dataPos + 1)) (getU64 ds.data.data ds.dataPos)

/-- The bytes that `get_elem` gives to `deserialize`, and the dataset behind them. -/
def getElem (ds : Dataset) : List UInt8 × Dataset :=
  let d := ds.data.data
  let start := getU64 d ds.currentEl
  let start := start + 1 + (getU64 d start + 7) / 8
  (loadBytes d (8 * (start + 1)) (getU64 d start),
    { ds with currentEl := ds.currentEl + 1, dataPos := getU64 d (ds.currentEl + 1) })

/-- The master moves the first offset to a spare word, to send the number of elements in
its place. -/
def packHeader (ds : Dataset) : Dataset :=
  let d := setU64 ds.data.data ds.nelem (getU64 ds.data.data 0)
  let d := setU64 (setU64 d 0 ds.nelem) (ds.nelem + 1) ds.currentEl
  { ds with data := { ds.data with data := d } }

def unpackHeader (ds : Dataset) : Dataset :=
  let d := ds.data.data
  let nelem := getU64 d 0
  let d := setU64 (setU64 d 0 (getU64 d nelem)) nelem 0
  { ds with
    data := { ds.data with data := d }
    nelem := nelem
    currentEl := getU64 d (nelem + 1) }

def beforeData (w : ℕ → Dataset) (master p : ℕ) : Dataset :=
  let ds := { w p with dataPos := (w master).dataPos }
  let ds := if p = master then packHeader ds else ds
  if ds.data.size < ds.dataPos + 1 then { ds with data := ds.data.resize (ds.dataPos + 1) } else ds

/-- `bsp_broadcast` counts bytes with an `int`: the words sent have fewer than 2^31 bytes. -/
def broadcast (w : ℕ → Dataset) (master q : ℕ) : Dataset :=
  let ds := beforeData w master q
  let sent := load (beforeData w master master).data.data 0 (ds.dataPos + 1)
  unpackHeader { ds with data := { ds.data with data := store ds.data.data 0 sent } }

section Words

variable (d : ℕ → Slot)

@[simp] theorem getU64_setU64_same (k v : ℕ) : getU64 (setU64 d k v) k = v := by
  have h1 : 2 * k / 2 = k := by omega
  have h2 : (2 * k + 1) / 2 = k := by omega
  have h3 : (2 * k + 1) % 2 = 1 := by omega
  have hv := Nat.mod_add_div v (2 ^ 32)
  simp only [getU64, getWord, setU64, h1, h2, h3, Function.update_self, Nat.mul_mod_right, if_true,
    Nat.one_ne_zero, if_false, hv]

theorem setU64_of_ne {j k : ℕ} (v : ℕ) (h : j ≠ k) : setU64 d k v j = d j :=
  Function.update_of_ne h _ _

theorem getU64_congr {d e : ℕ → Slot} {k : ℕ} (h : d k = e k) : getU64 d k = getU64 e k := by
  have h1 : 2 * k / 2 = k := by omega
  have h2 : (2 * k + 1) / 2 = k := by omega
  simp only [getU64, getWord, h1, h2, h]

theorem getU64_setU64_ne {j k : ℕ} (v : ℕ) (h : j ≠ k) : getU64 (setU64 d k v) j = getU64 d j :=
  getU64_congr (setU64_of_ne d v h)

end Words

abbrev Element := List UInt8 × List UInt8

def usedWords (e : Element) : ℕ := 2 + (e.1.length + 7) / 8 + (e.2.length + 7) / 8

def recordWords (e : Element) : ℕ := (e.2.length + 2 * 8 + e.1.length + 31) / 8

theorem usedWords_lt (e : Element) : usedWords e < recordWords e := by
  simp only [usedWords, recordWords]
  omega

structure RecordAt (d : ℕ → Slot) (p : ℕ) (e : Element) : Prop where
  idLength : getU64 d p = e.1.length
  id : loadBytes d (8 * (p + 1)) e.1.length = e.1
  length : getU64 d (p + 1 + (e.1.length + 7) / 8) = e.2.length
  value : loadBytes d (8 * (p + 1 + (e.1.length + 7) / 8 + 1)) e.2.length = e.2

theorem RecordAt.congr {d d' : ℕ → Slot} {p : ℕ} {e : Element} (h : RecordAt d p e)
    (hd : ∀ k, p ≤ k → k < p + usedWords e → d' k = d k) : RecordAt d' p e := by
  simp only [usedWords] at hd
  refine ⟨?_, ?_, ?_, ?_⟩
  · rw [getU64_congr (hd _ (by omega) (by omega)), h.idLength]
  · rw [loadBytes_congr fun s h1 h2 => hd s (by omega) (by omega), h.id]
  · rw [getU64_congr (hd _ (by omega) (by omega)), h.length]
  · rw [loadBytes_congr fun s h1 h2 => hd s (by omega) (by omega), h.value]

theorem writeRecord_outside (d : ℕ → Slot) {p k : ℕ} (e : Element)
    (h : k < p ∨ p + usedWords e ≤ k) : writeRecord d p e.1 e.2 k = d k := by
  simp only [usedWords] at h
  simp only [writeRecord]
  rw [storeBytes_outside _ _ (by omega), setU64_of_ne _ _ (by omega),
    storeBytes_outside _ _ (by omega), setU64_of_ne _ _ (by omega)]

theorem writeRecord_record (d : ℕ → Slot) (p : ℕ) (e : Element) :
    RecordAt (writeRecord d p e.1 e.2) p e := by
  refine ⟨?_, ?_, ?_, loadBytes_storeBytes_same ..⟩
  · simp only [writeRecord]
    rw [getU64_congr (storeBytes_outside _ _ (by omega)), getU64_setU64_ne _ _ (by omega),
      getU64_congr (storeBytes_outside _ _ (by omega)), getU64_setU64_same]
  · simp only [writeRecord]
    have hbehind := fun (d' : ℕ → Slot) => loadBytes_congr (a := 8 * (p + 1)) (n := e.1.length)
      fun s h1 h2 =>
        storeBytes_outside (a := 8 * (p + 1 + (e.1.length + 7) / 8 + 1)) (s := s) d' e.2
        (by omega)
    rw [hbehind, loadBytes_congr fun s h1 h2 => setU64_of_ne (k := p + 1 + (e.1.length + 7) / 8) _
      e.2.length (by omega), loadBytes_storeBytes_same]
  · simp only [writeRecord]
    rw [getU64_congr (storeBytes_outside _ _ (by omega)), getU64_setU64_same]

def fill (ds : Dataset) (es : List Element) : Dataset :=
  es.foldl (fun ds e => addElem ds e.1 e.2) ds

def posOf (n : ℕ) (es : List Element) (k : ℕ) : ℕ := 2 + n + ((es.take k).map recordWords).sum

theorem posOf_succ (n : ℕ) {es : List Element} {k : ℕ} (hk : k < es.length) :
    posOf n es (k + 1) = posOf n es k + recordWords es[k] := by
  rw [posOf, posOf, List.take_succ_eq_append_getElem hk, List.map_append, List.sum_append,
    List.map_singleton, List.sum_singleton, ← Nat.add_assoc]

theorem posOf_mono (n : ℕ) (es : List Element) : Monotone (posOf n es) := by
  apply monotone_nat_of_le_succ
  intro k
  rw [posOf, posOf, List.take_add_one, List.map_append, List.sum_append]
  omega

theorem posOf_append (n : ℕ) (es : List Element) (e : Element) {k : ℕ} (hk : k ≤ es.length) :
    posOf n (es ++ [e]) k = posOf n es k := by
  rw [posOf, posOf, List.take_append_of_le_length hk]

structure Encoded (d : ℕ → Slot) (n : ℕ) (es : List Element) : Prop where
  offset : ∀ k < es.length, getU64 d k = posOf n es k
  record : ∀ k, ∀ h : k < es.length, RecordAt d (posOf n es k) es[k]

theorem record_end (n : ℕ) {es : List Element} {k : ℕ} (hk : k < es.length) :
    posOf n es k + usedWords es[k] < posOf n es es.length := by
  have hlt := usedWords_lt es[k]
  have hmono := posOf_mono n es (Nat.succ_le_of_lt hk)
  rw [Nat.succ_eq_add_one, posOf_succ n hk] at hmono
  omega

theorem posOf_ge (n : ℕ) (es : List Element) (k : ℕ) : 2 + n ≤ posOf n es k := by
  rw [posOf]
  omega

theorem Encoded.congr {d d' : ℕ → Slot} {n : ℕ} {es : List Element} (h : Encoded d n es)
    (hoff : ∀ k < es.length, getU64 d' k = getU64 d k)
    (hrec : ∀ k, 2 + n ≤ k → k < posOf n es es.length → d' k = d k) : Encoded d' n es := by
  refine ⟨fun k hk => (hoff k hk).trans (h.offset k hk), fun k hk => (h.record k hk).congr ?_⟩
  intro s h1 h2
  have hend := record_end n hk
  have hge := posOf_ge n es k
  exact hrec s (by omega) (by omega)

structure Filled (ds : Dataset) (n : ℕ) (es : List Element) : Prop where
  nelem : ds.nelem = n
  currentEl : ds.currentEl = es.length
  dataPos : ds.dataPos = posOf n es es.length
  mine : ds.data.dataIsMine = true
  header : 2 + n ≤ ds.data.size
  room : es ≠ [] → ds.dataPos < ds.data.size
  encoded : Encoded ds.data.data n es

theorem Filled.dataPos_le {ds : Dataset} {n : ℕ} {es : List Element} (h : Filled ds n es) :
    ds.dataPos ≤ ds.data.size := by
  cases es with
  | nil =>
    rw [h.dataPos]
    exact h.header
  | cons e es => exact (h.room (List.cons_ne_nil e es)).le

theorem create_filled (fresh : ℕ → ℕ → Slot) (n : ℕ) : Filled (create fresh n) n [] := by
  have hsize : (AVector.create fresh (2 + n)).resize (2 + n) = AVector.create fresh (2 + n) :=
    if_pos rfl
  refine ⟨rfl, rfl, rfl, ?_, ?_, fun h => absurd rfl h, ⟨?_, ?_⟩⟩
  · simp only [create, hsize]
    rfl
  · simp only [create, hsize]
    exact le_rfl
  · simp
  · simp

theorem reserve_data {ds : Dataset} (hmine : ds.data.dataIsMine = true) (next : ℕ) {k : ℕ}
    (hk : k < ds.data.size) : (reserve ds next).data k = ds.data.data k := by
  unfold reserve AVector.resize
  split
  · rename_i hle
    have hne : ds.data.size ≠ next + 1 := by omega
    have hmin : min ds.data.size (next + 1) = ds.data.size := by omega
    simp only [if_neg hne, hmin]
    rw [store_of_mem _ (Nat.zero_le _) (by simpa using hk), load_getElem, Nat.zero_add,
      Nat.sub_zero]
  · rfl

theorem reserve_size (ds : Dataset) (next : ℕ) :
    next < (reserve ds next).size ∧ ds.data.size ≤ (reserve ds next).size := by
  unfold reserve AVector.resize
  split
  · rw [if_neg (by omega)]
    simp only
    omega
  · exact ⟨by omega, le_rfl⟩

theorem reserve_mine (ds : Dataset) (next : ℕ) :
    (reserve ds next).dataIsMine = ds.data.dataIsMine := by
  unfold reserve AVector.resize
  split
  · split <;> rfl
  · rfl

theorem addElem_filled {ds : Dataset} {n : ℕ} {es : List Element} (h : Filled ds n es)
    (hn : es.length < n) (e : Element) : Filled (addElem ds e.1 e.2) n (es ++ [e]) := by
  have hpos := h.dataPos
  have hcur := h.currentEl
  have hge := posOf_ge n es es.length
  have hnext : nextPos ds e.1 e.2 = posOf n (es ++ [e]) (es ++ [e]).length := by
    rw [List.length_append, List.length_singleton, posOf_succ n (by simp),
      List.getElem_concat_length rfl, posOf_append n es e le_rfl, ← hpos]
    rfl
  obtain ⟨hroom, hgrow⟩ := reserve_size ds (nextPos ds e.1 e.2)
  have hold : ∀ k, k < ds.data.size → k < ds.dataPos → k ≠ ds.currentEl →
      (addElem ds e.1 e.2).data.data k = ds.data.data k := by
    intro k hk1 hk2 hk3
    simp only [addElem]
    rw [setU64_of_ne _ _ hk3, writeRecord_outside _ e (Or.inl hk2), reserve_data h.mine _ hk1]
  refine ⟨h.nelem, ?_, ?_, ?_, ?_, fun _ => ?_, ⟨fun k hk => ?_, fun k hk => ?_⟩⟩
  · simp [addElem, hcur]
  · exact hnext
  · exact (reserve_mine ..).trans h.mine
  · exact h.header.trans hgrow
  · exact hroom
  · have hle : k ≤ es.length := by simpa [Nat.lt_succ_iff] using hk
    rw [posOf_append n es e hle]
    rcases Nat.lt_or_eq_of_le hle with hlt | rfl
    · have hhead := h.header
      rw [getU64_congr (hold k (by omega) (by omega) (by omega)), h.encoded.offset k hlt]
    · simp only [addElem, hcur, getU64_setU64_same, hpos]
  · have hle : k ≤ es.length := by simpa [Nat.lt_succ_iff] using hk
    rw [posOf_append n es e hle]
    rcases Nat.lt_or_eq_of_le hle with hlt | rfl
    · have hne : es ≠ [] := List.ne_nil_of_length_pos (by omega)
      have hsize := h.room hne
      have hend := record_end n hlt
      have hpk := posOf_ge n es k
      rw [List.getElem_append_left hlt]
      exact (h.encoded.record k hlt).congr fun s h1 h2 => hold s (by omega) (by omega) (by omega)
    · rw [List.getElem_concat_length rfl, ← hpos]
      apply (writeRecord_record (reserve ds (nextPos ds e.1 e.2)).data ds.dataPos e).congr
      intro s h1 h2
      simp only [addElem]
      exact setU64_of_ne _ _ (by omega)

theorem fill_filled {ds : Dataset} {n : ℕ} {es es' : List Element} (h : Filled ds n es)
    (hn : (es ++ es').length ≤ n) : Filled (fill ds es') n (es ++ es') := by
  induction es' generalizing ds es with
  | nil => simpa [fill] using h
  | cons e es' ih =>
    have hlen : es.length < n := by
      simp only [List.length_append, List.length_cons] at hn
      omega
    have hstep := addElem_filled h hlen e
    have hrest := ih hstep (by simpa [Nat.add_assoc, Nat.add_comm 1] using hn)
    simpa [fill] using hrest

def alternate : ℕ → Dataset → List Element
  | 0, _ => []
  | n + 1, ds => (nextName ds, (getElem ds).1) :: alternate n (getElem ds).2

section Reading

variable {ds : Dataset} {n : ℕ} {es : List Element}

structure At (ds : Dataset) (n : ℕ) (es : List Element) (k : ℕ) : Prop where
  encoded : Encoded ds.data.data n es
  currentEl : ds.currentEl = k
  dataPos : k < es.length → ds.dataPos = posOf n es k

theorem restart_at (h : Encoded ds.data.data n es) : At (restart ds) n es 0 :=
  ⟨h, rfl, fun h0 => h.offset 0 h0⟩

theorem nextName_at {k : ℕ} (h : At ds n es k) (hk : k < es.length) : nextName ds = es[k].1 := by
  have hrec := h.encoded.record k hk
  rw [nextName, h.dataPos hk, hrec.idLength, hrec.id]

theorem getElem_at {k : ℕ} (h : At ds n es k) (hk : k < es.length) :
    (getElem ds).1 = es[k].2 ∧ At (getElem ds).2 n es (k + 1) := by
  have hrec := h.encoded.record k hk
  constructor
  · simp only [getElem, h.currentEl, h.encoded.offset k hk, hrec.idLength, hrec.length, hrec.value]
  · refine ⟨h.encoded, congrArg (· + 1) h.currentEl, fun hlt => ?_⟩
    simp only [getElem, h.currentEl]
    exact h.encoded.offset (k + 1) hlt

theorem alternate_at {k : ℕ} (h : At ds n es k) : alternate (es.length - k) ds = es.drop k := by
  induction hm : es.length - k generalizing ds k with
  | zero => rw [alternate, List.drop_of_length_le (by omega)]
  | succ m ih =>
    have hk : k < es.length := by omega
    obtain ⟨hval, hnext⟩ := getElem_at h hk
    rw [alternate, nextName_at h hk, hval, ih hnext (by omega), List.drop_eq_getElem_cons hk]

theorem alternate_restart (h : Encoded ds.data.data n es) :
    alternate es.length (restart ds) = es := alternate_at (restart_at h)

end Reading

section Transfer

variable {n : ℕ} {es : List Element} {w : ℕ → Dataset} {master q : ℕ}

theorem resize_data {v : AVector} (hmine : v.dataIsMine = true) {size k : ℕ} (hk : k < v.size)
    (hs : k < size) : (v.resize size).data k = v.data k := by
  unfold AVector.resize
  split
  · rfl
  · have hlt : k < (load v.data 0 (min v.size size)).length := by
      rw [load_length]
      omega
    show (store _ 0 _) k = _
    rw [store_of_mem _ (Nat.zero_le _) hlt, load_getElem, Nat.zero_add, Nat.sub_zero]

theorem packHeader_words {ds : Dataset} (h : Filled ds n es) (hn : es.length = n) :
    let d := (packHeader ds).data.data
    getU64 d 0 = n ∧ getU64 d (n + 1) = n ∧ (0 < n → getU64 d n = posOf n es 0) ∧
      (∀ k, 0 < k → k < n → getU64 d k = posOf n es k) ∧ ∀ k, 2 + n ≤ k → d k = ds.data.data k := by
  have hnel := h.nelem
  have hcur := h.currentEl
  simp only [packHeader, hnel, hcur, hn]
  refine ⟨?_, getU64_setU64_same .., fun hpos => ?_, fun k hk hlt => ?_, fun k hk => ?_⟩
  · rw [getU64_setU64_ne _ _ (by omega), getU64_setU64_same]
  · rw [getU64_setU64_ne _ _ (by omega), getU64_setU64_ne _ _ (by omega), getU64_setU64_same]
    exact h.encoded.offset 0 (by omega)
  · rw [getU64_setU64_ne _ _ (by omega), getU64_setU64_ne _ _ (by omega),
      getU64_setU64_ne _ _ (by omega)]
    exact h.encoded.offset k (by omega)
  · rw [setU64_of_ne _ _ (by omega), setU64_of_ne _ _ (by omega), setU64_of_ne _ _ (by omega)]

theorem unpackHeader_encoded {ds : Dataset} {m : Dataset} (h : Filled m n es) (hn : es.length = n)
    (hd : ∀ k < m.dataPos, ds.data.data k = (packHeader m).data.data k) :
    Encoded (unpackHeader ds).data.data n es ∧ (unpackHeader ds).nelem = n := by
  obtain ⟨hzero, -, hn0, hoff, hrec⟩ := packHeader_words h hn
  have hpos := h.dataPos
  have hge := posOf_ge n es es.length
  have hnel : getU64 ds.data.data 0 = n := by
    rw [getU64_congr (hd 0 (by omega)), hzero]
  refine ⟨?_, hnel⟩
  simp only [unpackHeader, hnel]
  refine h.encoded.congr (fun k hk => ?_) fun k hk1 hk2 => ?_
  · rw [getU64_setU64_ne _ _ (by omega), h.encoded.offset k hk]
    rcases Nat.eq_zero_or_pos k with rfl | hkpos
    · rw [getU64_setU64_same, getU64_congr (hd n (by omega)), hn0 (by omega)]
    · rw [getU64_setU64_ne _ _ (by omega), getU64_congr (hd k (by omega)), hoff k hkpos (by omega)]
  · rw [setU64_of_ne _ _ (by omega), setU64_of_ne _ _ (by omega), hd k (by omega), hrec k hk1]

theorem beforeData_dataPos (p : ℕ) : (beforeData w master p).dataPos = (w master).dataPos := by
  simp only [beforeData]
  split <;> split <;> rfl

theorem beforeData_master (h : Filled (w master) n es) {k : ℕ} (hk : k < (w master).dataPos) :
    (beforeData w master master).data.data k = (packHeader (w master)).data.data k := by
  have hsize : k < (packHeader (w master)).data.size := hk.trans_le h.dataPos_le
  simp only [beforeData, if_true]
  split
  · exact resize_data (v := (packHeader (w master)).data) h.mine hsize (Nat.lt_succ_of_lt hk)
  · rfl

theorem broadcast_encoded (h : Filled (w master) n es) (hn : es.length = n) :
    Encoded (broadcast w master q).data.data n es ∧ (broadcast w master q).nelem = n := by
  apply unpackHeader_encoded h hn
  intro k hk
  have hlt : k < (load (beforeData w master master).data.data 0
      ((beforeData w master q).dataPos + 1)).length := by
    rw [load_length, beforeData_dataPos]
    exact Nat.lt_succ_of_lt hk
  rw [← beforeData_master h hk]
  show store _ 0 _ k = _
  rw [store_of_mem _ (Nat.zero_le _) hlt, load_getElem, Nat.zero_add, Nat.sub_zero]

end Transfer

structure InReserve (ds : Dataset) (e : Element) : Prop where
  record : ds.dataPos + usedWords e ≤ (addElem ds e.1 e.2).dataPos
  room : (addElem ds e.1 e.2).dataPos < (addElem ds e.1 e.2).data.size
  offset : ds.currentEl < ds.nelem
  frame : ∀ k, k < ds.dataPos ∨ ds.dataPos + usedWords e ≤ k → k ≠ ds.currentEl →
    (addElem ds e.1 e.2).data.data k = (reserve ds (nextPos ds e.1 e.2)).data k

theorem addElem_inReserve {ds : Dataset} {n : ℕ} {es : List Element} (h : Filled ds n es)
    (hn : es.length < n) (e : Element) : InReserve ds e := by
  refine ⟨?_, (reserve_size ds _).1, ?_, fun k hk hne => ?_⟩
  · have hlt := usedWords_lt e
    show ds.dataPos + usedWords e ≤ ds.dataPos + recordWords e
    omega
  · rw [h.currentEl, h.nelem]
    exact hn
  · simp only [addElem]
    rw [setU64_of_ne _ _ hne, writeRecord_outside _ e hk]

/-- A dataset is read back as it was filled, on every node after a broadcast and from
every copy of its words, and no element is written beyond what was reserved for it. -/
theorem dataset_roundtrip (fresh : ℕ → ℕ → Slot) (es : List Element) :
    (∀ (w : ℕ → Dataset) (master q : ℕ), w master = fill (create fresh es.length) es →
      alternate es.length (restart (broadcast w master q)) = es ∧
        elements (broadcast w master q) = es.length) ∧
    (∀ (xdata : ℕ → Slot) (unset : ℕ),
      let ds := fill (create fresh es.length) es
      load xdata 0 (size ds / 8) = load (getData ds) 0 (size ds / 8) →
      alternate es.length (restart (ofBuffer xdata es.length (size ds) unset)) = es ∧
        elements (ofBuffer xdata es.length (size ds) unset) = es.length) ∧
    ∀ k, ∀ hk : k < es.length, InReserve (fill (create fresh es.length) (es.take k)) es[k] := by
  have hfill : Filled (fill (create fresh es.length) es) es.length ([] ++ es) :=
    fill_filled (create_filled fresh es.length) le_rfl
  rw [List.nil_append] at hfill
  refine ⟨fun w master q hw => ?_, fun xdata unset => ?_, fun k hk => ?_⟩
  · rw [← hw] at hfill
    obtain ⟨henc, hnel⟩ := broadcast_encoded (q := q) hfill rfl
    exact ⟨alternate_restart henc, hnel⟩
  · intro ds hx
    have hsize : size ds / 8 = ds.data.size := Nat.mul_div_cancel _ (by decide)
    rw [hsize, load_eq_iff] at hx
    have hsame : ∀ k < ds.data.size, xdata k = ds.data.data k := by
      intro k hk
      have hword := hx k hk
      rwa [Nat.zero_add] at hword
    have henc : Encoded xdata es.length es := by
      refine hfill.encoded.congr (fun k hk => ?_) fun k _ hk => ?_
      · have hhead : 2 + es.length ≤ ds.data.size := hfill.header
        exact getU64_congr (hsame k (by omega))
      · rw [← hfill.dataPos] at hk
        exact hsame k (hk.trans_le hfill.dataPos_le)
    have hbuffer : Encoded (ofBuffer xdata es.length (size ds) unset).data.data es.length es := henc
    exact ⟨alternate_restart hbuffer, rfl⟩
  · have hpart : Filled (fill (create fresh es.length) (es.take k)) es.length ([] ++ es.take k) :=
      fill_filled (create_filled fresh es.length) (by simp)
    rw [List.nil_append] at hpart
    exact addElem_inReserve hpart (by rw [List.length_take]; omega) es[k]

def sampleElements : List Element :=
  [([], [1, 2, 3]), ([0, 7], []), ([1, 2, 3, 4, 5, 6, 7, 8], [9])]

theorem dataset_roundtrip_sample :
    let w := fun p => if p = 1 then fill (create (fun _ _ => .bytes fun _ => 5) 3) sampleElements
      else create (fun _ _ => .words 1 1) p
    alternate 3 (restart (broadcast w 1 4)) = sampleElements ∧ elements (broadcast w 1 4) = 3 :=
  (dataset_roundtrip (fun _ _ => .bytes fun _ => 5) sampleElements).1 _ 1 4 rfl

end BspOnMpi.SerializedDataset
