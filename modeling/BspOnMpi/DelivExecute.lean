import BspOnMpi.DelivPush
import BspOnMpi.Memreg

/-! Executing a delivery table. `deliveryTable_execute` of `bsp_delivtable.c`. The messages stay
where they were received; the queue is made by linking the last message of a column to the first
one of the next. User memory is a map from addresses to bytes that the tables are no part of. -/

namespace BspOnMpi.DelivExecute
open Lib Exptable Slots Delivtable DelivPush Memreg

/-- The head of the queue is a slot of the received delivery table. -/
structure MessageQueue where
  recvTagSize : ℕ
  sendTagSize : ℕ
  nMesg : ℕ
  accumSize : ℕ
  head : Option ℕ

def messageQueueInitialize : MessageQueue :=
  { recvTagSize := 0, sendTagSize := 0, nMesg := 0, accumSize := 0, head := none }

def messageQueueSync (mesgq : MessageQueue) : MessageQueue :=
  { mesgq with recvTagSize := mesgq.sendTagSize, nMesg := 0, accumSize := 0, head := none }

def elementSize (t : DeliveryTable) (pointer : ℕ) : ℕ := getWord t.data (2 * pointer)

def elementNext (t : DeliveryTable) (pointer : ℕ) : ℕ := getWord t.data (2 * pointer + 1)

def elementInfo (t : DeliveryTable) (pointer : ℕ) : DInfo := getInfo t.data (pointer + 1)

def elementPayload (t : DeliveryTable) (pointer : ℕ) : List UInt8 :=
  loadBytes t.data (8 * (pointer + tagSize)) (elementSize t pointer)

def firstElement (t : DeliveryTable) (p : ℕ) (ty : ItemType) : ℕ :=
  p * t.rows + getWord t.data (t.info.start p + ty.index)

def elementCount (t : DeliveryTable) (p : ℕ) (ty : ItemType) : ℕ :=
  getWord t.data (t.info.count p + ty.index)

def forElements {β : Type} (t : DeliveryTable) (p : ℕ) (ty : ItemType) (body : β → ℕ → β) (b : β) :
    β :=
  eachElement (elementNext t) body (elementCount t p ty) (firstElement t p ty) b

def linkMessage (t : DeliveryTable) (message : Option ℕ) (pointer : ℕ) : DeliveryTable :=
  match message with
  | none => t
  | some m => { t with data := setWord t.data (2 * m + 1) (pointer - m) }

structure ExecState where
  table : DeliveryTable
  memreg : MemoryRegister
  mesgq : MessageQueue
  mem : Mem
  message : Option ℕ

def putElement (t : DeliveryTable) (mem : Mem) (pointer : ℕ) : Mem :=
  store mem (elementInfo t pointer).dst (elementPayload t pointer)

def pushregElement (t : DeliveryTable) (p : ℕ) (memreg : MemoryRegister) (pointer : ℕ) :
    MemoryRegister :=
  memoryRegisterPush memreg p (elementInfo t pointer).pushAddress

def sendElement (t : DeliveryTable) (s : MessageQueue × Option ℕ) (pointer : ℕ) :
    MessageQueue × Option ℕ :=
  ({ s.1 with accumSize := s.1.accumSize + elementSize t pointer, nMesg := s.1.nMesg + 1 },
    some pointer)

def popregElement (t : DeliveryTable) (rank : ℕ) (memreg : Option MemoryRegister) (pointer : ℕ) :
    Option MemoryRegister :=
  memreg.bind fun memreg => memoryRegisterPop memreg rank (elementInfo t pointer).popAddress

def settagElement (t : DeliveryTable) (mesgq : MessageQueue) (pointer : ℕ) : MessageQueue :=
  { mesgq with sendTagSize := (elementInfo t pointer).tagSize }

def executeColumn (st : ExecState) (p : ℕ) : ExecState :=
  let mem := forElements st.table p .put (putElement st.table) st.mem
  let memreg := forElements st.table p .pushreg (pushregElement st.table p) st.memreg
  let table := linkMessage st.table st.message (firstElement st.table p .send)
  let s := forElements table p .send (sendElement table) (st.mesgq, st.message)
  { table := table, memreg := memreg, mesgq := s.1, mem := mem, message := s.2 }

def queueHead (table : DeliveryTable) (mesgq : MessageQueue) : Option ℕ :=
  match (List.range table.nprocs).find? fun p => 0 < elementCount table p .send with
  | some p => some (firstElement table p .send)
  | none => mesgq.head

def deliveryTableExecute (table : DeliveryTable) (memreg : MemoryRegister) (mesgq : MessageQueue)
    (mem : Mem) (rank : ℕ) : Option ExecState := do
  let st := (List.range table.nprocs).foldl executeColumn
    { table := table, memreg := memreg, mesgq := mesgq, mem := mem, message := none }
  let memreg ← forElements st.table rank .popreg (popregElement st.table rank) (some st.memreg)
  let mesgq := forElements st.table rank .settag (settagElement st.table) st.mesgq
  return { st with memreg := memreg, mesgq := { mesgq with head := queueHead st.table mesgq } }

structure Received (t : DeliveryTable) (its : ℕ → List Item) : Prop where
  fits : ∀ c < t.nprocs, colSize (its c) ≤ t.rows
  encodes : ∀ c < t.nprocs, Encodes (col t c) (its c)
  aimed : t.info = aimIndex t.rows

structure ElementAt (t : DeliveryTable) (p : ℕ) (it : Item) : Prop where
  size : elementSize t p = it.payload.length
  info : elementInfo t p = it.info
  payload : elementPayload t p = it.payload

/-- Column `c` encodes `its`, and the index pointers aim at it. -/
structure Readable (t : DeliveryTable) (c : ℕ) (its : List Item) : Prop where
  encodes : Encodes (col t c) its
  aimed : t.info = aimIndex t.rows

theorem Received.column {t : DeliveryTable} {its : ℕ → List Item} (h : Received t its) {c : ℕ}
    (hc : c < t.nprocs) : Readable t c (its c) :=
  ⟨h.encodes c hc, h.aimed⟩

section Column

variable {t : DeliveryTable} {its : List Item} {c : ℕ}

theorem column_element (h : Readable t c its) {e : ℕ × Item}
    (he : e ∈ layout indexSize its) : ElementAt t (c * t.rows + e.1) e.2 := by
  obtain ⟨h1, h2, h3⟩ := h.encodes.entry e he
  rw [col, getWord_column] at h1
  have hsize : elementSize t (c * t.rows + e.1) = e.2.payload.length := by
    rw [← h1, elementSize, Nat.mul_add]
  refine ⟨hsize, h2, ?_⟩
  rw [col, loadBytes_column] at h3
  rw [elementPayload, hsize, tagSize_eq]
  rwa [show 8 * (c * t.rows + e.1 + 2) = 8 * (c * t.rows) + 8 * (e.1 + 2) by omega]

theorem column_count (h : Readable t c its) (ty : ItemType) :
    elementCount t c ty = (placed ty its).length := by
  have hcount := h.encodes.count ty
  rw [col, getWord_column, positions, List.length_map] at hcount
  rw [elementCount, h.aimed, ← hcount]
  simp only [aimIndex, Nat.add_assoc]

theorem column_first (h : Readable t c its) {ty : ItemType} {a : ℕ}
    (ha : a ∈ (positions ty its).head?) : firstElement t c ty = c * t.rows + a := by
  have hstart := h.encodes.start ty a ha
  rw [col, getWord_column] at hstart
  rw [firstElement, h.aimed, ← hstart]
  rfl

theorem column_linked (h : Readable t c its) (ty : ItemType) :
    Linked (elementNext t) ((positions ty its).map (c * t.rows + ·)) := by
  apply (linked_map_add (c * t.rows)).mpr
  have hl := h.encodes.linked ty
  have hnext : (fun p => getWord (col t c) (2 * p + 1)) =
      fun p => elementNext t (c * t.rows + p) := by
    funext p
    rw [col, getWord_column, elementNext]
    congr 1
    omega
  rwa [hnext] at hl

theorem forElements_eq {β : Type} (h : Readable t c its) (ty : ItemType)
    (body : β → ℕ → β) (b : β) : forElements t c ty body b =
      (placed ty its).foldl (fun b e => body b (c * t.rows + e.1)) b := by
  have hlink := column_linked h ty
  have hlen : elementCount t c ty = ((positions ty its).map (c * t.rows + ·)).length := by
    rw [column_count h, positions, List.length_map, List.length_map]
  rw [forElements, hlen, eachElement_linked body b hlink, positions, List.map_map, List.foldl_map]
  · rfl
  · intro a ha
    rw [List.head?_map] at ha
    obtain ⟨x, hx, rfl⟩ := Option.mem_map.mp ha
    exact column_first h hx

theorem forElements_items {β : Type} (h : Readable t c its) (ty : ItemType)
    {body : β → ℕ → β} {f : β → Item → β} (b : β)
    (hbody : ∀ b p it, ElementAt t p it → body b p = f b it) :
    forElements t c ty body b = (its.filter fun it => it.ty = ty).foldl f b := by
  rw [forElements_eq h, ← placed_map_snd, List.foldl_map]
  apply List.foldl_ext
  intro b e he
  exact hbody b _ _ (column_element h (List.mem_filter.mp he).1)

end Column

theorem relink_encodes {d : ℕ → Slot} {its : List Item} (h : Encodes d its) {ty : ItemType} {m : ℕ}
    (hm : m ∈ (positions ty its).getLast?) (v : ℕ) : Encodes (setWord d (2 * m + 1) v) its := by
  have hmem := List.mem_of_getLast? hm
  have hb := positions_bounds hmem
  obtain ⟨it, hit, -⟩ := mem_positions hmem
  have hits := it.slots_eq
  have hword : ∀ k, k ≠ 2 * m + 1 → getWord (setWord d (2 * m + 1) v) k = getWord d k :=
    fun k hk => getWord_setWord_ne d v hk
  refine ⟨fun e he => ?_, fun t => ?_, fun t a ha => ?_, fun t a ha => ?_, fun t => ?_⟩
  · obtain ⟨h1, h2, h3⟩ := h.entry e he
    have hes := e.2.slots_eq
    have hslot : ∀ s, e.1 < s → s < e.1 + e.2.slots → setWord d (2 * m + 1) v s = d s := by
      intro s hs1 hs2
      apply setWord_of_ne d v
      rcases layout_apart he hit with heq | hap | hap
      · rw [heq] at hs1; simp only at hs1; omega
      · simp only at hap; omega
      · simp only at hap; omega
    refine ⟨(hword _ (by omega)).trans h1, ?_, ?_⟩
    · rw [← h2]
      simp only [getInfo, hslot (e.1 + 1) (by omega) (by omega)]
    · exact (loadBytes_congr fun s _ _ => hslot s (by omega) (by omega)).trans h3
  · have := ItemType.index_lt t
    exact (hword _ (by omega)).trans (h.count t)
  · have := ItemType.index_lt t
    exact (hword _ (by omega)).trans (h.start t a ha)
  · have := ItemType.index_lt t
    exact (hword _ (by omega)).trans (h.end_ t a ha)
  · refine (h.linked t).congr fun a ha => hword _ fun hk => ?_
    have ham : a = m := by omega
    subst ham
    have ht := positions_disjoint (List.dropLast_subset _ ha) hmem
    subst ht
    exact lt_irrefl _ (dropLast_lt_getLast (positions_pairwise t its) ha hm)

def messageSlots (rows : ℕ) (its : ℕ → List Item) (n : ℕ) : List ℕ :=
  (List.range n).flatMap fun c => (positions .send (its c)).map (c * rows + ·)

theorem messageSlots_succ (rows : ℕ) (its : ℕ → List Item) (n : ℕ) :
    messageSlots rows its (n + 1) =
      messageSlots rows its n ++ (positions .send (its n)).map (n * rows + ·) := by
  simp [messageSlots, List.range_succ]

theorem messageSlots_last {rows : ℕ} {its : ℕ → List Item} {n m : ℕ}
    (hm : m ∈ (messageSlots rows its n).getLast?) :
    ∃ c < n, ∃ a ∈ (positions .send (its c)).getLast?, m = c * rows + a := by
  induction n with
  | zero => simp [messageSlots] at hm
  | succ n ih =>
    rw [messageSlots_succ, List.getLast?_append] at hm
    cases hl : (positions .send (its n)).getLast? with
    | some a =>
      simp only [List.getLast?_map, hl, Option.map_some, Option.some_or] at hm
      exact ⟨n, Nat.lt_succ_self n, a, hl, by simpa using hm.symm⟩
    | none =>
      simp only [List.getLast?_map, hl, Option.map_none, Option.none_or] at hm
      obtain ⟨c, hc, hrest⟩ := ih hm
      exact ⟨c, by omega, hrest⟩

theorem messageSlots_lt {rows : ℕ} {its : ℕ → List Item} {n : ℕ}
    (hfits : ∀ c < n, colSize (its c) ≤ rows) {m : ℕ} (hm : m ∈ messageSlots rows its n) :
    m < n * rows := by
  obtain ⟨c, hc, hmc⟩ := List.mem_flatMap.mp hm
  obtain ⟨a, ha, rfl⟩ := List.mem_map.mp hmc
  have hcn : c < n := List.mem_range.mp hc
  have hb := positions_bounds ha
  have hf := hfits c hcn
  have hmul := Nat.mul_le_mul_right rows (Nat.succ_le_of_lt hcn)
  rw [Nat.succ_mul] at hmul
  omega

theorem messageSlots_pairwise {rows : ℕ} {its : ℕ → List Item} {n : ℕ}
    (hfits : ∀ c < n, colSize (its c) ≤ rows) : (messageSlots rows its n).Pairwise (· < ·) := by
  induction n with
  | zero => exact List.Pairwise.nil
  | succ n ih =>
    rw [messageSlots_succ, List.pairwise_append]
    refine ⟨ih fun c hc => hfits c (by omega), ?_, fun a ha b hb => ?_⟩
    · exact (positions_pairwise .send (its n)).map _ fun a b hab => Nat.add_lt_add_left hab _
    · have hlt := messageSlots_lt (fun c hc => hfits c (by omega)) ha
      obtain ⟨x, -, rfl⟩ := List.mem_map.mp hb
      omega

theorem linkMessage_nprocs (t : DeliveryTable) (message : Option ℕ) (pointer : ℕ) :
    (linkMessage t message pointer).nprocs = t.nprocs := by cases message <;> rfl

theorem linkMessage_rows (t : DeliveryTable) (message : Option ℕ) (pointer : ℕ) :
    (linkMessage t message pointer).rows = t.rows := by cases message <;> rfl

theorem linkMessage_next {t : DeliveryTable} {m : ℕ} (pointer : ℕ) {a : ℕ} (ha : a ≠ m) :
    elementNext (linkMessage t (some m) pointer) a = elementNext t a :=
  getWord_setWord_ne _ _ (by omega)

theorem linkMessage_self {t : DeliveryTable} {m pointer : ℕ} (h : m ≤ pointer) :
    m + elementNext (linkMessage t (some m) pointer) m = pointer := by
  have hw := getWord_setWord_same t.data (2 * m + 1) (pointer - m)
  show m + getWord (setWord t.data (2 * m + 1) (pointer - m)) (2 * m + 1) = pointer
  omega

theorem linkMessage_received {t : DeliveryTable} {its : ℕ → List Item} (h : Received t its) {n : ℕ}
    (hn : n ≤ t.nprocs) {message : Option ℕ}
    (hm : message = (messageSlots t.rows its n).getLast?) (pointer : ℕ) :
    Received (linkMessage t message pointer) its := by
  cases message with
  | none => exact h
  | some m =>
    obtain ⟨c, hc, a, ha, rfl⟩ := messageSlots_last hm.symm
    refine ⟨h.fits, fun c' hc' => ?_, h.aimed⟩
    have hb := positions_bounds (List.mem_of_getLast? ha)
    have hfit := h.fits c (by omega)
    have hword : 2 * (c * t.rows + a) + 1 = 2 * (c * t.rows) + (2 * a + 1) := by omega
    show Encodes (column (setWord t.data (2 * (c * t.rows + a) + 1) _) t.rows c') (its c')
    rw [hword]
    by_cases he : c' = c
    · subst he
      rw [column_setWord]
      exact relink_encodes (h.encodes c' hc') ha _
    · apply (h.encodes c' hc').congr
      intro s hs
      have hfit' := h.fits c' hc'
      exact column_setWord_other t.data _ (Ne.symm he) (by omega) (by omega)

def putWrites (its : List Item) : List (ℕ × List UInt8) :=
  (its.filter fun it => it.ty = .put).map fun it => (it.info.dst, it.payload)

def pushRequests (p : ℕ) (its : List Item) : List (ℕ × ℕ) :=
  (its.filter fun it => it.ty = .pushreg).map fun it => (p, it.info.pushAddress)

def sendItems (its : List Item) : List Item := its.filter fun it => it.ty = .send

def popRequests (its : List Item) : List ℕ :=
  (its.filter fun it => it.ty = .popreg).map fun it => it.info.popAddress

def tagRequests (its : List Item) : List ℕ :=
  (its.filter fun it => it.ty = .settag).map fun it => it.info.tagSize

def popAll (rank : ℕ) (t : Option MemoryRegister) (ps : List ℕ) : Option MemoryRegister :=
  ps.foldl (fun t a => t.bind fun t => memoryRegisterPop t rank a) t

def countMessages (q : MessageQueue) (ms : List Item) : MessageQueue :=
  { q with
    nMesg := q.nMesg + ms.length
    accumSize := q.accumSize + (ms.map fun it => it.payload.length).sum }

theorem countMessages_append (q : MessageQueue) (xs ys : List Item) :
    countMessages q (xs ++ ys) = countMessages (countMessages q xs) ys := by
  simp [countMessages, Nat.add_assoc]

section Loops

variable {t : DeliveryTable} {its : ℕ → List Item} {c : ℕ}

theorem puts_column (h : Received t its) (hc : c < t.nprocs) (mem : Mem) :
    forElements t c .put (putElement t) mem = writeAll mem (putWrites (its c)) := by
  rw [forElements_items (f := fun mem it => store mem it.info.dst it.payload)
    (h.column hc) .put mem, writeAll, putWrites, List.foldl_map]
  intro mem p it he
  rw [putElement, he.info, he.payload]

theorem pushregs_column (h : Received t its) (hc : c < t.nprocs) (memreg : MemoryRegister) :
    forElements t c .pushreg (pushregElement t c) memreg =
      pushAll memreg (pushRequests c (its c)) := by
  rw [forElements_items (f := fun r it => memoryRegisterPush r c it.info.pushAddress)
    (h.column hc) .pushreg, pushAll, pushRequests, List.foldl_map]
  intro memreg p it he
  rw [pushregElement, he.info]

theorem popregs_column (h : Received t its) (hc : c < t.nprocs) (memreg : Option MemoryRegister) :
    forElements t c .popreg (popregElement t c) memreg = popAll c memreg (popRequests (its c)) := by
  rw [forElements_items (f := fun (r : Option MemoryRegister) it => r.bind fun r =>
    memoryRegisterPop r c it.info.popAddress) (h.column hc) .popreg, popAll, popRequests,
    List.foldl_map]
  intro memreg p it he
  rw [popregElement, he.info]

theorem settags_column (h : Received t its) (hc : c < t.nprocs) (mesgq : MessageQueue) :
    forElements t c .settag (settagElement t) mesgq =
      { mesgq with
        sendTagSize := (tagRequests (its c)).foldl (fun _ s => s) mesgq.sendTagSize } := by
  rw [forElements_items (f := fun (q : MessageQueue) it =>
    { q with sendTagSize := it.info.tagSize }) (h.column hc) .settag, tagRequests, List.foldl_map]
  · induction (its c).filter fun it => it.ty = .settag generalizing mesgq with
    | nil => rfl
    | cons it l ih => simpa using ih { mesgq with sendTagSize := it.info.tagSize }
  · intro mesgq p it he
    rw [settagElement, he.info]

theorem sends_column (h : Received t its) (hc : c < t.nprocs) (s : MessageQueue × Option ℕ) :
    forElements t c .send (sendElement t) s = (countMessages s.1 (sendItems (its c)),
      ((positions .send (its c)).map (c * t.rows + ·)).getLast?.or s.2) := by
  have hel : ∀ e ∈ placed .send (its c), ElementAt t (c * t.rows + e.1) e.2 :=
    fun e he => column_element (h.column hc) (List.mem_filter.mp he).1
  rw [forElements_eq (h.column hc), sendItems, ← placed_map_snd, positions]
  generalize placed .send (its c) = es at hel ⊢
  induction es generalizing s with
  | nil => rfl
  | cons e es ih =>
    rw [List.foldl_cons, ih _ fun x hx => hel x (by simp [hx])]
    simp only [sendElement, (hel e (by simp)).size]
    congr 1
    · simp only [countMessages, List.map_cons, List.length_cons, List.sum_cons]
      congr 1 <;> omega
    · rcases List.eq_nil_or_concat es with rfl | ⟨xs, x, rfl⟩
      · rfl
      · simp [List.getLast?_cons]

end Loops

def messages (its : ℕ → List Item) (n : ℕ) : List Item :=
  (List.range n).flatMap fun p => sendItems (its p)

structure Executed (st0 : ExecState) (its : ℕ → List Item) (n : ℕ) (st : ExecState) : Prop where
  table : ∃ d, st.table = { st0.table with data := d }
  received : Received st.table its
  mem : st.mem = writeAll st0.mem ((List.range n).flatMap fun p => putWrites (its p))
  memreg : st.memreg = pushAll st0.memreg ((List.range n).flatMap fun p => pushRequests p (its p))
  mesgq : st.mesgq = countMessages st0.mesgq (messages its n)
  message : st.message = (messageSlots st0.table.rows its n).getLast?
  linked : Linked (elementNext st.table) (messageSlots st0.table.rows its n)

theorem linkMessage_data (t : DeliveryTable) (message : Option ℕ) (pointer : ℕ) :
    ∃ d, linkMessage t message pointer = { t with data := d } := by
  cases message with
  | none => exact ⟨t.data, rfl⟩
  | some m => exact ⟨_, rfl⟩

theorem linkMessage_linked {t : DeliveryTable} {its : ℕ → List Item} (h : Received t its) {n : ℕ}
    (hn : n < t.nprocs) {message : Option ℕ} (hm : message = (messageSlots t.rows its n).getLast?)
    (hl : Linked (elementNext t) (messageSlots t.rows its n)) :
    Linked (elementNext (linkMessage t message (firstElement t n .send)))
      (messageSlots t.rows its (n + 1)) := by
  have hpw : (messageSlots t.rows its n).Pairwise (· < ·) :=
    messageSlots_pairwise fun c hc => h.fits c (by omega)
  have hrec := linkMessage_received h (by omega) hm (firstElement t n .send)
  have hrows := linkMessage_rows t message (firstElement t n .send)
  have hcol := column_linked (hrec.column (c := n) (by rw [linkMessage_nprocs]; exact hn)) .send
  rw [hrows] at hcol
  rw [messageSlots_succ]
  refine linked_append.mpr ⟨hl.congr fun a ha => ?_, hcol, fun a ha b hb => ?_⟩
  · cases message with
    | none => rfl
    | some m => exact linkMessage_next _ (Nat.ne_of_lt (dropLast_lt_getLast hpw ha hm.symm))
  · rw [List.head?_map] at hb
    obtain ⟨x, hx, rfl⟩ := Option.mem_map.mp hb
    have hlt := messageSlots_lt (fun c hc => h.fits c (by omega)) (List.mem_of_getLast? ha)
    have hmsg : message = some a := hm.trans ha
    rw [hmsg, column_first (h.column hn) hx]
    exact linkMessage_self (by omega)

theorem executeColumn_executed {st0 st : ExecState} {its : ℕ → List Item} {n : ℕ}
    (h : Executed st0 its n st) (hn : n < st0.table.nprocs) :
    Executed st0 its (n + 1) (executeColumn st n) := by
  obtain ⟨d, hd⟩ := h.table
  have hnp : st.table.nprocs = st0.table.nprocs := by rw [hd]
  have hrows : st.table.rows = st0.table.rows := by rw [hd]
  have hn' : n < st.table.nprocs := by omega
  have hmsg := h.message
  have hlinked := h.linked
  rw [← hrows] at hmsg hlinked
  have hrec := linkMessage_received h.received (n := n) (by omega) hmsg
    (firstElement st.table n .send)
  have hsend := sends_column hrec (c := n) (by rw [linkMessage_nprocs]; exact hn')
    (st.mesgq, st.message)
  rw [linkMessage_rows, hrows] at hsend
  obtain ⟨e, he⟩ := linkMessage_data st.table st.message (firstElement st.table n .send)
  have hlist : ∀ {β : Type} (f : ℕ → List β),
      (List.range (n + 1)).flatMap f = (List.range n).flatMap f ++ f n := by
    intro β f
    simp [List.range_succ]
  refine ⟨⟨e, ?_⟩, hrec, ?_, ?_, ?_, ?_, ?_⟩
  · show linkMessage st.table st.message _ = _
    rw [he, hd]
  · show forElements st.table n .put _ st.mem = _
    rw [puts_column h.received hn', h.mem, hlist, writeAll_append]
  · show forElements st.table n .pushreg _ st.memreg = _
    rw [pushregs_column h.received hn', h.memreg, hlist, pushAll, pushAll, pushAll,
      List.foldl_append]
  · apply (congrArg Prod.fst hsend).trans
    rw [h.mesgq, messages, messages, hlist, countMessages_append]
  · apply (congrArg Prod.snd hsend).trans
    rw [messageSlots_succ, List.getLast?_append, h.message]
  · have hl := linkMessage_linked h.received hn' hmsg hlinked
    rwa [hrows] at hl

theorem executeColumns_executed (st0 : ExecState) {its : ℕ → List Item}
    (h : Received st0.table its) (hm : st0.message = none) {n : ℕ} (hn : n ≤ st0.table.nprocs) :
    Executed st0 its n ((List.range n).foldl executeColumn st0) := by
  induction n with
  | zero => exact ⟨⟨st0.table.data, rfl⟩, h, rfl, rfl, rfl, hm, List.isChain_nil⟩
  | succ n ih =>
    rw [List.range_succ, List.foldl_append]
    exact executeColumn_executed (ih (by omega)) (by omega)

def QueueAt (t : DeliveryTable) : ℕ → List Item → Prop
  | _, [] => True
  | p, m :: ms => ElementAt t p m ∧ QueueAt t (p + elementNext t p) ms

structure Queued (t : DeliveryTable) (q : MessageQueue) (ms : List Item) : Prop where
  nMesg : q.nMesg = ms.length
  head : ms ≠ [] → ∃ p, q.head = some p ∧ QueueAt t p ms

theorem queued_cons {t : DeliveryTable} {q : MessageQueue} {m : Item} {ms : List Item}
    (h : Queued t q (m :: ms)) : ∃ p, q.head = some p ∧ ElementAt t p m ∧ q.nMesg = ms.length + 1 ∧
      ∀ accum, Queued t { q with
        head := some (p + elementNext t p), nMesg := q.nMesg - 1, accumSize := accum } ms := by
  obtain ⟨p, hp, hel, hrest⟩ := h.head (by simp)
  have hn := h.nMesg
  rw [List.length_cons] at hn
  refine ⟨p, hp, hel, hn, fun accum => ⟨?_, fun _ => ⟨_, rfl, hrest⟩⟩⟩
  show q.nMesg - 1 = ms.length
  omega

theorem queueAt_of_linked {t : DeliveryTable} {es : List (ℕ × Item)}
    (hl : Linked (elementNext t) (es.map Prod.fst)) (he : ∀ e ∈ es, ElementAt t e.1 e.2) {p : ℕ}
    (hp : ∀ a ∈ (es.map Prod.fst).head?, p = a) : QueueAt t p (es.map Prod.snd) := by
  induction es generalizing p with
  | nil => trivial
  | cons e es ih =>
    have hpe : p = e.1 := hp e.1 (by simp)
    subst hpe
    have hc := List.isChain_cons.mp hl
    exact ⟨he e (by simp), ih hc.2 (fun x hx => he x (by simp [hx])) hc.1⟩

def messageEntries (rows : ℕ) (its : ℕ → List Item) (n : ℕ) : List (ℕ × Item) :=
  (List.range n).flatMap fun c => (placed .send (its c)).map fun e => (c * rows + e.1, e.2)

theorem messageEntries_fst (rows : ℕ) (its : ℕ → List Item) (n : ℕ) :
    (messageEntries rows its n).map Prod.fst = messageSlots rows its n := by
  simp [messageEntries, messageSlots, List.map_flatMap, positions, Function.comp_def]

theorem messageEntries_snd (rows : ℕ) (its : ℕ → List Item) (n : ℕ) :
    (messageEntries rows its n).map Prod.snd = messages its n := by
  have hsnd : ∀ c, ((placed .send (its c)).map fun e => (c * rows + e.1, e.2)).map Prod.snd =
      sendItems (its c) := by
    intro c
    rw [List.map_map, sendItems, ← placed_map_snd]
    rfl
  simp only [messageEntries, messages, List.map_flatMap, hsnd]

theorem firstColumn_eq {t : DeliveryTable} {its : ℕ → List Item} (h : Received t its) {n : ℕ}
    (hn : n ≤ t.nprocs) :
    ((List.range n).find? fun p => 0 < elementCount t p .send).map (firstElement t · .send) =
      (messageSlots t.rows its n).head? := by
  induction n with
  | zero => rfl
  | succ n ih =>
    have hcol := h.column (c := n) (by omega)
    have hcount := column_count hcol .send
    have hlen : (positions .send (its n)).length = (placed .send (its n)).length := by
      simp [positions]
    rw [List.range_succ, List.find?_append, messageSlots_succ, List.head?_append, ← ih (by omega)]
    cases (List.range n).find? fun p => 0 < elementCount t p .send with
    | some p => rfl
    | none =>
      rcases hp : positions .send (its n) with _ | ⟨a, as⟩
      · have hz : elementCount t n .send = 0 := by rw [hcount, ← hlen, hp]; rfl
        simp [hz]
      · have hpos : 0 < elementCount t n .send := by rw [hcount, ← hlen, hp]; simp
        have hhead : a ∈ (positions .send (its n)).head? := by rw [hp]; simp
        have hfirst := column_first hcol hhead
        simp [hpos, hfirst]

theorem queueHead_eq {t : DeliveryTable} {its : ℕ → List Item} (h : Received t its)
    (q : MessageQueue) : queueHead t q = (messageSlots t.rows its t.nprocs).head?.or q.head := by
  rw [← firstColumn_eq h le_rfl, queueHead]
  cases (List.range t.nprocs).find? fun p => 0 < elementCount t p .send <;> rfl

theorem executed_entries {t : DeliveryTable} {its : ℕ → List Item} (h : Received t its) {n : ℕ}
    (hn : n ≤ t.nprocs) : ∀ e ∈ messageEntries t.rows its n, ElementAt t e.1 e.2 := by
  intro e he
  obtain ⟨c, hc, hec⟩ := List.mem_flatMap.mp he
  obtain ⟨x, hx, rfl⟩ := List.mem_map.mp hec
  have hcn : c < n := List.mem_range.mp hc
  exact column_element (h.column (by omega)) (List.mem_filter.mp hx).1

/-- The specification of `deliveryTable_execute`: the puts of all columns are
written column by column, the registrations are pushed before the own pops are
done, and the messages are queued column by column. -/
theorem execute_spec {table : DeliveryTable} {its : ℕ → List Item} (h : Received table its)
    (memreg : MemoryRegister) {memreg' : MemoryRegister} (mesgq : MessageQueue) (mem : Mem)
    {rank : ℕ} (hrank : rank < table.nprocs) (hq : mesgq.nMesg = 0 ∧ mesgq.accumSize = 0)
    (hpop : popAll rank (some (pushAll memreg
      ((List.range table.nprocs).flatMap fun p => pushRequests p (its p))))
      (popRequests (its rank)) = some memreg') :
    ∃ st, deliveryTableExecute table memreg mesgq mem rank = some st ∧
      (∃ d, st.table = { table with data := d }) ∧ st.memreg = memreg' ∧
      st.mem = writeAll mem ((List.range table.nprocs).flatMap fun p => putWrites (its p)) ∧
      Queued st.table st.mesgq (messages its table.nprocs) ∧
      st.mesgq.accumSize = ((messages its table.nprocs).map fun it => it.payload.length).sum ∧
      st.mesgq.recvTagSize = mesgq.recvTagSize ∧
      st.mesgq.sendTagSize = (tagRequests (its rank)).foldl (fun _ s => s) mesgq.sendTagSize := by
  have hex := executeColumns_executed ⟨table, memreg, mesgq, mem, none⟩ h rfl
    (n := table.nprocs) le_rfl
  unfold deliveryTableExecute
  generalize (List.range table.nprocs).foldl executeColumn _ = st at hex ⊢
  obtain ⟨⟨d, hd⟩, hrec, hmem, hreg, hmesgq, -, hlinked⟩ := hex
  simp only at hd hmem hreg hmesgq hlinked
  have hn : st.table.nprocs = table.nprocs := by rw [hd]
  have hrows : st.table.rows = table.rows := by rw [hd]
  dsimp only
  rw [popregs_column hrec (by omega), settags_column hrec (by omega), hreg, hpop]
  refine ⟨_, rfl, ⟨d, hd⟩, rfl, hmem, ⟨?_, fun hne => ?_⟩, ?_, ?_, ?_⟩
  · simp [hmesgq, countMessages, hq.1]
  · simp only [queueHead_eq hrec, hn, hrows]
    have hentries := executed_entries hrec (n := table.nprocs) (by omega)
    rw [hrows] at hentries
    cases hs : (messageSlots table.rows its table.nprocs).head? with
    | none =>
      rw [← messageEntries_fst, List.head?_eq_none_iff, List.map_eq_nil_iff] at hs
      rw [← messageEntries_snd table.rows, hs] at hne
      exact absurd rfl hne
    | some p =>
      refine ⟨p, rfl, ?_⟩
      rw [← messageEntries_snd table.rows]
      rw [← messageEntries_fst] at hs hlinked
      apply queueAt_of_linked hlinked hentries
      intro a ha
      rw [hs] at ha
      exact Option.some.inj ha
  · simp [hmesgq, countMessages, hq.2]
  · simp [hmesgq, countMessages]
  · simp [hmesgq, countMessages]

end BspOnMpi.DelivExecute
