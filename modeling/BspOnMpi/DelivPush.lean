import BspOnMpi.Delivtable

/-! Pushing to a delivery table. A push followed by the copy of the payload appends one element to
the list a column encodes and leaves every other column as it was, whether or not the table has to
grow first. -/

namespace BspOnMpi.DelivPush
open Lib Exptable Slots Delivtable

section Append

variable {d : ℕ → Slot} {its : List Item} {element : DelivElement} {ty : ItemType}

abbrev appendHere (d : ℕ → Slot) (its : List Item) (element : DelivElement) (ty : ItemType) :
    ℕ → Slot :=
  appendElement ty.index (6 + ty.index) (12 + ty.index) 0 (colSize its) element d

theorem append_header (d : ℕ → Slot) (its : List Item) (element : DelivElement) (ty : ItemType) :
    getWord (appendHere d its element ty) (2 * colSize its) = element.size ∧
    getInfo (appendHere d its element ty) (colSize its + 1) = element.info := by
  refine ⟨?_, by simp [appendHere, appendElement]⟩
  simp only [appendHere, appendElement, Nat.add_zero]
  rw [getWord_setInfo_ne _ _ (by omega), getWord_setWord_ne _ _ (by omega), getWord_setWord_same]

theorem append_word (h : Encodes d its) {k : ℕ} (hk : k < 2 * colSize its) :
    getWord (appendHere d its element ty) k =
      if k = 6 + ty.index then (positions ty its).length + 1
      else if k = 12 + ty.index then colSize its
      else if positions ty its = [] then if k = ty.index then colSize its else getWord d k
      else if ∃ a ∈ (positions ty its).getLast?, k = 2 * a + 1 then
        colSize its - getWord d (12 + ty.index)
      else getWord d k := by
  have hx := colSize_ge its
  have hi := ItemType.index_lt ty
  simp only [appendHere, appendElement, Nat.add_zero]
  rw [getWord_setInfo_ne _ _ (by omega), getWord_setWord_ne _ _ (by omega),
    getWord_setWord_ne _ _ (by omega)]
  rcases List.eq_nil_or_concat (positions ty its) with hnil | ⟨ps, a, hps⟩
  · have hc : getWord d (6 + ty.index) = 0 := by rw [h.count, hnil]; rfl
    have hcount : getWord (setWord (setWord d ty.index (colSize its)) (12 + ty.index) (colSize its))
        (6 + ty.index) = (positions ty its).length := by
      rw [getWord_setWord_ne _ _ (by omega), getWord_setWord_ne _ _ (by omega), h.count]
    rw [if_pos hc, if_pos hnil, hcount, getWord_setWord, getWord_setWord, getWord_setWord]
  · have hne : positions ty its ≠ [] := by rw [hps]; simp
    have hl : (positions ty its).getLast? = some a := by rw [hps]; simp
    have he := h.end_ ty a hl
    have hc : getWord d (6 + ty.index) ≠ 0 := by rw [h.count, hps]; simp
    have hb := positions_bounds (List.mem_of_getLast? hl)
    have hiff : (∃ x ∈ (positions ty its).getLast?, k = 2 * x + 1) ↔ k = 2 * a + 1 := by
      rw [hl]; simp
    have hcount : getWord (setWord (setWord d (2 * a + 1) (colSize its - a)) (12 + ty.index)
        (colSize its)) (6 + ty.index) = (positions ty its).length := by
      rw [getWord_setWord_ne _ _ (by omega), getWord_setWord_ne _ _ (by omega), h.count]
    rw [if_neg hc, if_neg hne, he]
    simp only [hiff]
    rw [hcount, getWord_setWord, getWord_setWord, getWord_setWord]

theorem append_word_old (h : Encodes d its) {k : ℕ} (hk : k < 2 * colSize its)
    (h0 : k ≠ ty.index) (h6 : k ≠ 6 + ty.index) (h12 : k ≠ 12 + ty.index)
    (hlink : ∀ a ∈ (positions ty its).getLast?, k ≠ 2 * a + 1) :
    getWord (appendHere d its element ty) k = getWord d k := by
  have hno : ¬ ∃ a ∈ (positions ty its).getLast?, k = 2 * a + 1 :=
    fun ⟨a, ha, hka⟩ => hlink a ha hka
  rw [append_word h hk, if_neg h6, if_neg h12, if_neg h0, if_neg hno, ite_self]

theorem append_slot (h : Encodes d its) {s : ℕ} (hs : 9 ≤ s)
    (hlast : ∀ a ∈ (positions ty its).getLast?, s ≠ a)
    (hnew : s ≠ colSize its ∧ s ≠ colSize its + 1) :
    appendHere d its element ty s = d s := by
  have hi := ItemType.index_lt ty
  simp only [appendHere, appendElement, Nat.add_zero]
  rw [setInfo_of_ne _ _ (by omega), setWord_of_ne _ _ (by omega), setWord_of_ne _ _ (by omega),
    setWord_of_ne _ _ (by omega), setWord_of_ne _ _ (by omega)]
  split
  · exact setWord_of_ne _ _ (by omega)
  · rename_i hc
    rw [h.count] at hc
    obtain ⟨a, ha⟩ : ∃ a, (positions ty its).getLast? = some a :=
      ⟨_, List.getLast?_eq_some_getLast (List.ne_nil_of_length_pos (Nat.pos_of_ne_zero hc))⟩
    have he := h.end_ ty a ha
    have := hlast a ha
    rw [he]
    exact setWord_of_ne _ _ (by omega)

variable {e : ℕ → Slot} {payload : List UInt8}

theorem last_bounds {a : ℕ} (ha : a ∈ (positions ty its).getLast?) : 9 ≤ a ∧ a + 2 ≤ colSize its :=
  positions_bounds (List.mem_of_getLast? ha)

theorem index_not_link {k : ℕ} (hk : k < 18) :
    ∀ a ∈ (positions ty its).getLast?, k ≠ 2 * a + 1 := by
  intro a ha
  have hb := (last_bounds ha).1
  omega

section Column

variable (h : Encodes d its) (hbelow : ∀ s < colSize its + 2, e s = appendHere d its element ty s)

include hbelow

theorem append_getWord {k : ℕ} (hk : k < 2 * colSize its + 2) :
    getWord e k = getWord (appendHere d its element ty) k :=
  getWord_congr (hbelow _ (by omega)) rfl

include h

theorem append_entry {x : ℕ × Item} (hx : x ∈ layout indexSize its) :
    getWord e (2 * x.1) = x.2.payload.length ∧ getInfo e (x.1 + 1) = x.2.info ∧
      loadBytes e (8 * (x.1 + 2)) x.2.payload.length = x.2.payload := by
  obtain ⟨h1, h2, h3⟩ := h.entry x hx
  have hb := entry_bounds hx
  have hsl := x.2.slots_eq
  have hidx := ItemType.index_lt ty
  have hslot : ∀ s, x.1 < s → s < x.1 + x.2.slots → e s = d s := by
    intro s hs1 hs2
    rw [hbelow s (by omega)]
    refine append_slot h (by omega) (fun a ha hsa => ?_) (by omega)
    obtain ⟨it, hit, -⟩ := mem_positions (List.mem_of_getLast? ha)
    have hits := it.slots_eq
    rcases layout_apart hx hit with heq | hap | hap
    · rw [heq] at hs1
      exact absurd hsa (by omega)
    · omega
    · simp only at hap
      omega
  refine ⟨?_, ?_, ?_⟩
  · rw [append_getWord hbelow (by omega),
      append_word_old h (by omega) (by omega) (by omega) (by omega)
      (fun a _ => by omega), h1]
  · rw [← h2]
    simp only [getInfo, hslot (x.1 + 1) (by omega) (by omega)]
  · exact (loadBytes_congr fun s _ _ => hslot s (by omega) (by omega)).trans h3

theorem append_count (t : ItemType) :
    getWord e (6 + t.index) = (positions t (its ++ [⟨ty, element.info, payload⟩])).length := by
  have hx := colSize_ge its
  have hidx := ItemType.index_lt t
  have hidx' := ItemType.index_lt ty
  rw [append_getWord hbelow (by omega), positions_append]
  by_cases ht : ty = t
  · subst ht
    rw [append_word h (by omega)]
    simp
  · have hne : ty.index ≠ t.index := fun hc => ht (ItemType.index_injective hc)
    rw [append_word_old h (by omega) (by omega) (by omega) (by omega) (index_not_link (by omega)),
      h.count t]
    simp [ht]

theorem append_start (t : ItemType) {a : ℕ}
    (ha : a ∈ (positions t (its ++ [⟨ty, element.info, payload⟩])).head?) :
    getWord e t.index = a := by
  have hx := colSize_ge its
  have hidx := ItemType.index_lt t
  have hidx' := ItemType.index_lt ty
  have hnolink : ∀ a ∈ (positions ty its).getLast?, t.index ≠ 2 * a + 1 := index_not_link (by omega)
  rw [append_getWord hbelow (by omega)]
  rw [positions_append] at ha
  by_cases ht : ty = t
  · subst ht
    rw [append_word h (by omega), if_neg (by omega), if_neg (by omega)]
    cases hp : positions ty its with
    | nil =>
      rw [hp] at ha
      simpa using ha
    | cons b bs =>
      rw [hp] at ha hnolink
      have hno : ¬ ∃ a ∈ (b :: bs).getLast?, ty.index = 2 * a + 1 := by
        rintro ⟨a, ha, hk⟩
        exact hnolink a ha hk
      rw [if_neg (by simp), if_neg hno]
      apply h.start ty a
      rw [hp]
      simpa using ha
  · have hne : ty.index ≠ t.index := fun hc => ht (ItemType.index_injective hc)
    rw [append_word_old h (by omega) (by omega) (by omega) (by omega) hnolink]
    exact h.start t a (by simpa [ht] using ha)

theorem append_end (t : ItemType) {a : ℕ}
    (ha : a ∈ (positions t (its ++ [⟨ty, element.info, payload⟩])).getLast?) :
    getWord e (12 + t.index) = a := by
  have hx := colSize_ge its
  have hidx := ItemType.index_lt t
  have hidx' := ItemType.index_lt ty
  rw [append_getWord hbelow (by omega)]
  rw [positions_append] at ha
  by_cases ht : ty = t
  · subst ht
    rw [append_word h (by omega), if_neg (by omega), if_pos rfl]
    simpa using ha
  · have hne : ty.index ≠ t.index := fun hc => ht (ItemType.index_injective hc)
    rw [append_word_old h (by omega) (by omega) (by omega) (by omega) (index_not_link (by omega))]
    exact h.end_ t a (by simpa [ht] using ha)

theorem append_linked (t : ItemType) : Linked (fun p => getWord e (2 * p + 1))
    (positions t (its ++ [⟨ty, element.info, payload⟩])) := by
  have hx := colSize_ge its
  have hidx := ItemType.index_lt ty
  have hold : ∀ a ∈ (positions t its).dropLast, getWord e (2 * a + 1) = getWord d (2 * a + 1) := by
    intro a ha
    have hb := positions_bounds (List.dropLast_subset _ ha)
    rw [append_getWord hbelow (by omega),
      append_word_old h (by omega) (by omega) (by omega) (by omega)]
    intro z hz hk
    have haz : a = z := by omega
    subst haz
    have ht := positions_disjoint (List.dropLast_subset _ ha) (List.mem_of_getLast? hz)
    subst ht
    exact lt_irrefl _ (dropLast_lt_getLast (positions_pairwise t its) ha hz)
  rw [positions_append]
  by_cases ht : ty = t
  · subst ht
    simp only [if_true]
    refine linked_append.mpr ⟨(h.linked ty).congr hold, List.isChain_singleton _, ?_⟩
    intro a ha b hb
    have hb' : b = colSize its := by simpa using hb.symm
    subst hb'
    have hbd := last_bounds ha
    have hnil : positions ty its ≠ [] := by
      rintro hn
      rw [hn] at ha
      simp at ha
    show a + getWord e (2 * a + 1) = colSize its
    rw [append_getWord hbelow (by omega), append_word h (by omega), if_neg (by omega),
      if_neg (by omega), if_neg hnil, if_pos ⟨a, ha, rfl⟩, h.end_ ty a ha]
    omega
  · simp only [ht, if_false, List.append_nil]
    exact (h.linked t).congr hold

end Column

/-- The push lemma of a single column. The payload may be written in any way
that leaves the slots before it alone. -/
theorem append_encodes (h : Encodes d its) (hsize : element.size = payload.length)
    (hbelow : ∀ s < colSize its + 2, e s = appendHere d its element ty s)
    (hpay : loadBytes e (8 * (colSize its + 2)) payload.length = payload) :
    Encodes e (its ++ [⟨ty, element.info, payload⟩]) := by
  refine ⟨fun x hx => ?_, append_count h hbelow, fun t a ha => append_start h hbelow t ha,
    fun t a ha => append_end h hbelow t ha, append_linked h hbelow⟩
  rw [layout_append] at hx
  rcases List.mem_append.mp hx with hx | hx
  · exact append_entry h hbelow hx
  · have hxe : x = (colSize its, ⟨ty, element.info, payload⟩) := List.mem_singleton.mp hx
    subst hxe
    have hhead := append_header d its element ty
    refine ⟨?_, ?_, hpay⟩
    · rw [append_getWord hbelow (by omega), hhead.1, hsize]
    · simp only [getInfo, hbelow (colSize its + 1) (by simp)]
      exact hhead.2

end Append

section Shift

variable (d : ℕ → Slot) {w c : ℕ}

theorem column_setWord_other {c' j k : ℕ} (v : ℕ) (hc : c ≠ c') (hk : k / 2 < w) (hj : j < w) :
    column (setWord d (2 * (c * w) + k) v) w c' j = column d w c' j := by
  have hs : (2 * (c * w) + k) / 2 = c * w + k / 2 := by omega
  exact setWord_of_ne d v (hs ▸ column_index_ne (Ne.symm hc) hj hk)

theorem column_setInfo_other {c' j s : ℕ} (i : DInfo) (hc : c ≠ c') (hs : s < w) (hj : j < w) :
    column (setInfo d (c * w + s) i) w c' j = column d w c' j :=
  setInfo_of_ne d i (column_index_ne (Ne.symm hc) hj hs)

theorem column_appendElement (i j k used : ℕ) (element : DelivElement) :
    column (appendElement (2 * (c * w) + i) (2 * (c * w) + j) (2 * (c * w) + k) (c * w) used
      element d) w c = appendElement i j k 0 used element (column d w c) := by
  have hlink : ∀ z, 2 * (z + c * w) + 1 = 2 * (c * w) + (2 * z + 1) := fun z => by omega
  have hsize : 2 * (used + c * w) = 2 * (c * w) + 2 * used := by omega
  have hinfo : used + c * w + 1 = c * w + (used + 1) := by omega
  simp only [appendElement, hlink, hinfo, Nat.add_zero]
  rw [hsize, column_setInfo, column_setWord, column_setWord, column_setWord]
  simp only [← getWord_column, column_setWord]
  split <;> simp only [column_setWord]

theorem column_appendElement_other {c' l i j k : ℕ} (used : ℕ) (element : DelivElement)
    (hc : c ≠ c')
    (hi : i / 2 < w) (hj : j / 2 < w) (hk : k / 2 < w) (hu : used + 1 < w)
    (hlast : getWord d (2 * (c * w) + j) ≠ 0 → getWord d (2 * (c * w) + k) < w) (hl : l < w) :
    column (appendElement (2 * (c * w) + i) (2 * (c * w) + j) (2 * (c * w) + k) (c * w) used
      element d) w c' l = column d w c' l := by
  have hlink : ∀ z, 2 * (z + c * w) + 1 = 2 * (c * w) + (2 * z + 1) := fun z => by omega
  have hsize : 2 * (used + c * w) = 2 * (c * w) + 2 * used := by omega
  have hinfo : used + c * w + 1 = c * w + (used + 1) := by omega
  simp only [appendElement, hlink, hinfo]
  rw [hsize, column_setInfo_other _ _ hc hu hl, column_setWord_other _ _ hc (by omega) hl,
    column_setWord_other _ _ hc (by omega) hl, column_setWord_other _ _ hc hj hl,
    column_setWord_other _ _ hc hk hl]
  split
  · exact column_setWord_other _ _ hc hi hl
  · rename_i hcount
    have := hlast hcount
    exact column_setWord_other _ _ hc (by omega) hl

end Shift

structure Rep (t : DeliveryTable) (its : ℕ → List Item) : Prop where
  used : ∀ c < t.nprocs, t.usedSlotCount c = colSize (its c)
  fits : Fits t
  encodes : ∀ c < t.nprocs, Encodes (col t c) (its c)
  aimed : t.info = aimIndex t.rows
  slot : t.slotSize = 8

theorem Rep.congr {t : DeliveryTable} {its its' : ℕ → List Item} (h : Rep t its)
    (he : ∀ c < t.nprocs, its' c = its c) : Rep t its' := by
  refine ⟨fun c hc => ?_, h.fits, fun c hc => ?_, h.aimed, h.slot⟩
  · rw [he c hc]
    exact h.used c hc
  · rw [he c hc]
    exact h.encodes c hc

theorem rep_expand {t : DeliveryTable} {its : ℕ → List Item} (h : Rep t its) (rows : ℕ) :
    Rep (deliveryTableExpand t rows) its := by
  refine ⟨h.used, expand_fits rows t.info h.fits, fun c hc => ?_, rfl, h.slot⟩
  apply (h.encodes c hc).congr
  intro s hs
  exact expand_col rows t.info h.fits hc (by rw [h.used c hc]; exact hs)

theorem clearIndex_rep {t : DeliveryTable} (hrows : 9 ≤ t.rows) (hslot : t.slotSize = 8)
    (haim : t.info = aimIndex t.rows) : Rep (clearIndex t) fun _ => [] := by
  have hle : ∀ i < t.nprocs, (List.replicate indexSize (Slot.words 0 0)).length ≤ t.rows := by
    intro i _
    simpa using hrows
  refine ⟨fun _ _ => rfl, fun _ _ => hrows, fun c hc => encodes_nil fun s hs => ?_, haim, hslot⟩
  have hw := writeColumns_column t.data hle hc (lt_of_lt_of_le hs hrows)
  show column (writeColumns t.rows _ t.nprocs t.data) t.rows c s = _
  rw [hw, store_of_mem _ (Nat.zero_le _) (by simpa using hs), List.getElem_replicate]

theorem initialize_rep (nprocs rows : ℕ) (fresh : ℕ → ℕ → Slot) :
    Rep (deliveryTableInitialize nprocs rows fresh) fun _ => [] :=
  clearIndex_rep (by simp [expandableTableInitialize]) rfl rfl

theorem reset_rep {t : DeliveryTable} {its : ℕ → List Item} (h : Rep t its) (hn : 0 < t.nprocs) :
    Rep (deliveryTableReset t) fun _ => [] := by
  have hf := h.fits 0 hn
  have := colSize_ge (its 0)
  rw [h.used 0 hn] at hf
  exact clearIndex_rep (t := expandableTableReset t) (by simp only [expandableTableReset]; omega)
    h.slot h.aimed

def makeRoom (t : DeliveryTable) (proc objectSize : ℕ) : DeliveryTable :=
  if (objectSize : ℤ) > t.rows - t.usedSlotCount proc then
    deliveryTableExpand t (max t.rows ((objectSize : ℤ) - (t.rows - t.usedSlotCount proc)).toNat)
  else t

section Push

variable {t : DeliveryTable} {its : ℕ → List Item} {proc : ℕ}

@[simp] theorem makeRoom_nprocs (t : DeliveryTable) (proc n : ℕ) :
    (makeRoom t proc n).nprocs = t.nprocs := by
  unfold makeRoom; split <;> rfl

@[simp] theorem makeRoom_usedSlotCount (t : DeliveryTable) (proc n : ℕ) :
    (makeRoom t proc n).usedSlotCount = t.usedSlotCount := by
  unfold makeRoom; split <;> rfl

theorem makeRoom_rep (h : Rep t its) (proc n : ℕ) : Rep (makeRoom t proc n) its := by
  unfold makeRoom; split
  · exact rep_expand h _
  · exact h

theorem makeRoom_room (t : DeliveryTable) (proc n : ℕ) :
    t.usedSlotCount proc + n ≤ (makeRoom t proc n).rows := by
  unfold makeRoom; split
  · simp only [deliveryTableExpand, expand_rows]
    omega
  · omega

theorem push_eq (t : DeliveryTable) (proc : ℕ) (element : DelivElement) (ty : ItemType) :
    deliveryTablePush t proc element ty =
      let r := makeRoom t proc (tagSize + noSlots element.size 8)
      ({ r with
          data := appendElement (r.info.start proc + ty.index) (r.info.count proc + ty.index)
            (r.info.end_ proc + ty.index) (proc * r.rows) (r.usedSlotCount proc) element r.data
          usedSlotCount := Function.update r.usedSlotCount proc
            (r.usedSlotCount proc + (tagSize + noSlots element.size 8)) },
        r.usedSlotCount proc + proc * r.rows + tagSize) := rfl

/-- `d` is the block of `r` after a push to `proc` of an element with `slots` slots of payload. -/
def PushedBlock (r : DeliveryTable) (its : ℕ → List Item) (proc slots : ℕ) (element : DelivElement)
    (ty : ItemType) (d : ℕ → Slot) : Prop :=
  ∀ s, s < colSize (its proc) + proc * r.rows + 2 ∨
      colSize (its proc) + proc * r.rows + 2 + slots ≤ s →
    d s = appendElement (r.info.start proc + ty.index) (r.info.count proc + ty.index)
      (r.info.end_ proc + ty.index) (proc * r.rows) (colSize (its proc)) element r.data s

section Block

variable {r : DeliveryTable} {slots : ℕ} {element : DelivElement} {ty : ItemType} {d : ℕ → Slot}

theorem pushed_own (hr : Rep r its) (hd : PushedBlock r its proc slots element ty d) {s : ℕ}
    (hs : s < colSize (its proc) + 2) :
    column d r.rows proc s = appendHere (col r proc) (its proc) element ty s := by
  have haim : r.info = aimIndex r.rows := hr.aimed
  have hcol := column_appendElement r.data (w := r.rows) (c := proc) ty.index (6 + ty.index)
    (12 + ty.index) (colSize (its proc)) element
  show d (proc * r.rows + s) = _
  rw [hd _ (Or.inl (by omega)), haim]
  simp only [aimIndex, Nat.add_assoc]
  exact congrFun hcol s

theorem pushed_other (hr : Rep r its) (hp : proc < r.nprocs)
    (hd : PushedBlock r its proc slots element ty d)
    (hroom : colSize (its proc) + (2 + slots) ≤ r.rows) {c s : ℕ} (hc : c ≠ proc)
    (hs : s < r.rows) :
    column d r.rows c s = col r c s := by
  have haim : r.info = aimIndex r.rows := hr.aimed
  have hge := colSize_ge (its proc)
  have hty := ItemType.index_lt ty
  have hlastlt : getWord r.data (2 * (proc * r.rows) + (6 + ty.index)) ≠ 0 →
      getWord r.data (2 * (proc * r.rows) + (12 + ty.index)) < r.rows := by
    intro hcount
    rw [← getWord_column] at hcount ⊢
    have hend := (hr.encodes proc hp).end_lt hcount
    show getWord (col r proc) _ < _
    omega
  have hother := column_appendElement_other r.data (w := r.rows) (l := s)
    (i := ty.index) (j := 6 + ty.index) (k := 12 + ty.index) (colSize (its proc)) element
    (Ne.symm hc) (by omega) (by omega) (by omega) (by omega) hlastlt hs
  have hin : c * r.rows + s < colSize (its proc) + proc * r.rows + 2 ∨
      colSize (its proc) + proc * r.rows + 2 + slots ≤ c * r.rows + s := by
    by_contra hcon
    have hx : proc * r.rows + (c * r.rows + s - proc * r.rows) = c * r.rows + s := by omega
    exact column_index_ne (Ne.symm hc) (k := c * r.rows + s - proc * r.rows) (by omega) hs hx
  show d (c * r.rows + s) = _
  rw [hd _ hin, haim]
  simp only [aimIndex, Nat.add_assoc]
  exact hother

end Block

/-- The push lemma: `d` is the block once the caller has copied the payload to
the returned slot. -/
theorem push_rep (h : Rep t its) (hp : proc < t.nprocs) {element : DelivElement} {ty : ItemType}
    {payload : List UInt8} (hsize : element.size = payload.length) {d : ℕ → Slot}
    (hout : ∀ s, s < (deliveryTablePush t proc element ty).2 ∨
      (deliveryTablePush t proc element ty).2 + noSlots element.size 8 ≤ s →
      d s = (deliveryTablePush t proc element ty).1.data s)
    (hload : loadBytes d (8 * (deliveryTablePush t proc element ty).2) payload.length = payload) :
    Rep { (deliveryTablePush t proc element ty).1 with data := d }
      (Function.update its proc (its proc ++ [⟨ty, element.info, payload⟩])) := by
  have hr := makeRoom_rep h proc (tagSize + noSlots element.size 8)
  have hroom := makeRoom_room t proc (tagSize + noSlots element.size 8)
  have hn := makeRoom_nprocs t proc (tagSize + noSlots element.size 8)
  have hu := makeRoom_usedSlotCount t proc (tagSize + noSlots element.size 8)
  rw [push_eq] at hout hload ⊢
  generalize makeRoom t proc (tagSize + noSlots element.size 8) = r at *
  simp only at hout hload ⊢
  have hused := hr.used proc (by omega)
  have hslots : noSlots element.size 8 = (payload.length + 7) / 8 := by rw [hsize]; rfl
  rw [← hu, hused] at hroom
  rw [hused] at hout hload
  simp only [tagSize_eq, hslots] at hroom hout hload
  have hd : PushedBlock r its proc ((payload.length + 7) / 8) element ty d := hout
  refine ⟨fun c hc => ?_, fun c hc => ?_, fun c hc => ?_, hr.aimed, hr.slot⟩
  · by_cases he : c = proc
    · subst he
      simp only [Function.update_self, colSize_append, Item.slots_eq, hused, tagSize_eq, hslots]
    · simpa [Function.update_of_ne he] using hr.used c hc
  · by_cases he : c = proc
    · subst he
      simp only [Function.update_self, hused, tagSize_eq, hslots]
      exact hroom
    · simpa [Function.update_of_ne he] using hr.fits c hc
  · by_cases he : c = proc
    · subst he
      rw [Function.update_self]
      refine append_encodes (hr.encodes c hc) hsize (fun s hs => pushed_own hr hd hs) ?_
      show loadBytes (column d r.rows c) _ _ = _
      rw [loadBytes_column]
      rwa [show 8 * (c * r.rows) + 8 * (colSize (its c) + 2) =
        8 * (colSize (its c) + c * r.rows + 2) by ring]
    · rw [Function.update_of_ne he]
      apply (hr.encodes c hc).congr
      intro s hs
      have hcu := hr.used c hc
      have hcf := hr.fits c hc
      exact pushed_other hr (by omega) hd hroom he (by omega)

def pushPayload (t : DeliveryTable) (proc : ℕ) (element : DelivElement) (type : ItemType)
    (payload : List UInt8) : DeliveryTable :=
  let r := deliveryTablePush t proc element type
  { r.1 with data := storeBytes r.1.data (8 * r.2) payload }

theorem pushPayload_rep (h : Rep t its) (hp : proc < t.nprocs) {element : DelivElement}
    {payload : List UInt8} (hsize : element.size = payload.length) (ty : ItemType) :
    Rep (pushPayload t proc element ty payload)
      (Function.update its proc (its proc ++ [⟨ty, element.info, payload⟩])) := by
  refine push_rep h hp hsize (fun s hs => storeBytes_outside _ _ ?_) (loadBytes_storeBytes_same ..)
  have hslots : noSlots element.size 8 = (payload.length + 7) / 8 := by rw [hsize]; rfl
  omega

theorem push_rep_nil (h : Rep t its) (hp : proc < t.nprocs) (next : ℕ) (info : DInfo)
    (ty : ItemType) :
    Rep (deliveryTablePush t proc { size := 0, next := next, info := info } ty).1
      (Function.update its proc (its proc ++ [⟨ty, info, []⟩])) := by
  have hs : (DelivElement.mk 0 next info).size = ([] : List UInt8).length := rfl
  exact push_rep h hp hs (fun _ _ => rfl) rfl

@[simp] theorem delivPush_nprocs (t : DeliveryTable) (proc : ℕ) (element : DelivElement)
    (ty : ItemType) :
    (deliveryTablePush t proc element ty).1.nprocs = t.nprocs := by
  rw [push_eq]
  exact makeRoom_nprocs ..

@[simp] theorem pushPayload_nprocs (t : DeliveryTable) (proc : ℕ) (element : DelivElement)
    (ty : ItemType) (payload : List UInt8) :
    (pushPayload t proc element ty payload).nprocs = t.nprocs := delivPush_nprocs t proc element ty

end Push

end BspOnMpi.DelivPush
