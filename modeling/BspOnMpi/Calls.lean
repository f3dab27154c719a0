import BspOnMpi.Bspx

/-! What the calls of a superstep queue. Between two synchronisations the tables of a processor
are a log of its calls: column `c` of the delivery table and of the request table hold what the
calls so far address to processor `c`. -/

namespace BspOnMpi.Calls
open Lib Exptable Slots Delivtable DelivPush Memreg DelivExecute Reqtable Machine Bspx

def messageItem (m : Message) : Item := ⟨.send, .send m.payload.length, m.tag ++ m.payload⟩

def itemsFor (rank c : ℕ) : Call → List Item
  | .put pid dst bytes => if pid = c then [⟨.put, .put dst, bytes⟩] else []
  | .get .. => []
  | .send pid m => if pid = c then [messageItem m] else []
  | .pushReg ident => [⟨.pushreg, .push ident, []⟩]
  | .popReg ident => if rank = c then [⟨.popreg, .pop ident, []⟩] else []
  | .setTagsize size => if rank = c then [⟨.settag, .settag size, []⟩] else []

def requestsFor (c : ℕ) : Call → List ReqElement
  | .get pid src offset dst size =>
    if pid = c then [{ size := size, offset := offset, src := src, dst := dst }] else []
  | _ => []

def columnItems (rank : ℕ) (cs : List Call) (c : ℕ) : List Item := cs.flatMap (itemsFor rank c)

def columnRequests (cs : List Call) (c : ℕ) : List ReqElement := cs.flatMap (requestsFor c)

section Columns

theorem select_flatMap {β : Type} {g : Call → List Item} {h : Call → Option β} {P : Item → Bool}
    {f : Item → β} (hx : ∀ x, ((g x).filter P).map f = (h x).toList) (cs : List Call) :
    ((cs.flatMap g).filter P).map f = cs.filterMap h := by
  induction cs with
  | nil => rfl
  | cons x cs ih =>
    rw [List.flatMap_cons, List.filter_append, List.map_append, ih, hx, List.filterMap_cons]
    cases h x <;> rfl

variable (rank c : ℕ) (cs : List Call)

theorem putWrites_columnItems : putWrites (columnItems rank cs c) = putsTo c cs := by
  refine select_flatMap (fun x => ?_) cs
  cases x <;> simp only [itemsFor, messageItem] <;> (try split) <;> simp

theorem pushRequests_columnItems (p : ℕ) :
    pushRequests p (columnItems rank cs c) = (pushes cs).map fun a => (p, a) := by
  rw [pushes, List.map_filterMap]
  refine select_flatMap (fun x => ?_) cs
  cases x <;> simp only [itemsFor, messageItem] <;> (try split) <;> simp

theorem sendItems_columnItems :
    sendItems (columnItems rank cs c) = (sendsTo c cs).map messageItem := by
  rw [sendsTo, List.map_filterMap, ← List.map_id (sendItems _)]
  refine select_flatMap (fun x => ?_) cs
  cases x <;> simp only [itemsFor, messageItem] <;> (try split) <;> simp [messageItem]

theorem popRequests_columnItems : popRequests (columnItems rank cs rank) = pops cs := by
  refine select_flatMap (fun x => ?_) cs
  cases x <;> simp only [itemsFor, messageItem] <;> (try split) <;> simp_all

theorem tagRequests_columnItems : tagRequests (columnItems rank cs rank) = tagSizes cs := by
  refine select_flatMap (fun x => ?_) cs
  cases x <;> simp only [itemsFor, messageItem] <;> (try split) <;> simp_all

theorem putWrites_answers (mem : Mem) :
    putWrites ((columnRequests cs c).map (answer mem)) = answersOf c mem cs := by
  induction cs with
  | nil => rfl
  | cons x cs ih =>
    have hcons : columnRequests (x :: cs) c = requestsFor c x ++ columnRequests cs c := rfl
    rw [hcons, List.map_append, putWrites, List.filter_append, List.map_append]
    rw [putWrites] at ih
    rw [ih, answersOf, answersOf, List.filterMap_cons]
    cases x <;> simp only [requestsFor] <;> (try split) <;> simp_all [answer]

end Columns

structure Context where
  n : ℕ
  rank : ℕ
  rows : List Row
  tagSize : ℕ

def callOf (x : Context) (op : Op) (p : Proc) : List Call :=
  match op with
  | .pushReg ident => [.pushReg ident]
  | .popReg ident => [.popReg ident]
  | .put pid src dst offset nbytes | .hpput pid src dst offset nbytes =>
    (lastRow x.rows x.rank dst).toList.map fun r =>
      .put pid (addOffset (r pid) offset) (load p.mem src nbytes)
  | .get pid src offset dst nbytes | .hpget pid src offset dst nbytes =>
    (lastRow x.rows x.rank src).toList.map fun r => .get pid (r pid) offset dst nbytes
  | .send pid tag payload nbytes =>
    [.send pid ⟨load p.mem tag x.tagSize, load p.mem payload nbytes⟩]
  | .setTagsize tagNbytes => [.setTagsize (toUInt32 tagNbytes)]
  | .globalAlloc _ localSlice => [.pushReg localSlice]
  | .globalFree ptr => [.popReg (sliceOf p.bsp ptr)]
  | _ => []

/-- The operations within the interface: an existing target, a registered base,
sizes and offsets below 2^31, a message to move, a free handle. -/
def Admitted (x : Context) (op : Op) (p : Proc) : Prop :=
  match op with
  | .put pid _ dst _ nbytes | .hpput pid _ dst _ nbytes =>
    pid < x.n ∧ nbytes < 2 ^ 31 ∧ lastRow x.rows x.rank dst ≠ none
  | .get pid src offset _ nbytes | .hpget pid src offset _ nbytes =>
    pid < x.n ∧ nbytes < 2 ^ 31 ∧ -2 ^ 31 ≤ offset ∧ offset < 2 ^ 31 ∧
      lastRow x.rows x.rank src ≠ none
  | .send pid _ _ nbytes => pid < x.n ∧ nbytes + x.tagSize < 2 ^ 31
  | .move .. => p.bsp.messageQueue.nMesg ≠ 0
  | .globalAlloc .. => nextHandle p.bsp ≠ none
  | _ => True

structure DelivShape (t : DeliveryTable) (n : ℕ) : Prop where
  nprocs : t.nprocs = n
  rows : 9 ≤ t.rows
  slot : t.slotSize = 8
  aimed : t.info = aimIndex t.rows

structure ReqShape (t : RequestTable) (n : ℕ) : Prop where
  nprocs : t.nprocs = n
  rows : 0 < t.rows
  slot : t.slotSize = 24

/-- The tables hold exactly the calls `cs`. -/
structure Logged (x : Context) (cs : List Call) (p : Proc) : Prop where
  rank_lt : x.rank < x.n
  nprocs : p.bsp.nprocs = x.n
  rank : p.bsp.rank = x.rank
  deliv : Rep p.bsp.deliveryTable (columnItems x.rank cs)
  deliv_nprocs : p.bsp.deliveryTable.nprocs = x.n
  req : Requests p.bsp.requestTable (columnRequests cs)
  req_nprocs : p.bsp.requestTable.nprocs = x.n
  reg : Registered p.bsp.memoryRegister x.rows x.rank
  reg_nprocs : p.bsp.memoryRegister.nprocs = x.n
  recvDeliv : DelivShape p.bsp.deliveryReceivedTable x.n
  recvReq : ReqShape p.bsp.requestReceivedTable x.n
  tagSize : p.bsp.messageQueue.sendTagSize = x.tagSize
  queue : ∃ ms, Queued p.bsp.deliveryReceivedTable p.bsp.messageQueue ms

theorem columnItems_append (rank : ℕ) (cs : List Call) (call : Call) (c : ℕ) :
    columnItems rank (cs ++ [call]) c = columnItems rank cs c ++ itemsFor rank c call := by
  simp [columnItems]

theorem columnRequests_append (cs : List Call) (call : Call) (c : ℕ) :
    columnRequests (cs ++ [call]) c = columnRequests cs c ++ requestsFor c call := by
  simp [columnRequests]

section Exec

variable {x : Context} {cs : List Call} {p : Proc}

theorem logged_deliv (h : Logged x cs p) {call : Call} {pid : ℕ} {it : Item}
    (hitems : ∀ c, itemsFor x.rank c call = if pid = c then [it] else [])
    (hreqs : ∀ c, requestsFor c call = []) {t : DeliveryTable}
    (ht : Rep t (Function.update (columnItems x.rank cs) pid (columnItems x.rank cs pid ++ [it])))
    (htn : t.nprocs = x.n) :
    Logged x (cs ++ [call]) { p with bsp := { p.bsp with deliveryTable := t } } := by
  have hcols : columnItems x.rank (cs ++ [call]) =
      Function.update (columnItems x.rank cs) pid (columnItems x.rank cs pid ++ [it]) := by
    funext c
    rw [columnItems_append, hitems]
    by_cases hc : pid = c
    · subst hc; simp
    · simp [hc, Function.update_of_ne (Ne.symm hc)]
  have hreq : columnRequests (cs ++ [call]) = columnRequests cs := by
    funext c
    rw [columnRequests_append, hreqs, List.append_nil]
  exact { h with
    deliv := by rw [hcols]; exact ht
    deliv_nprocs := htn
    req := by rw [hreq]; exact h.req }

theorem toUInt32_eq {k : ℕ} (h : k < 2 ^ 31) : toUInt32 k = k := Nat.mod_eq_of_lt (by omega)

theorem toInt32_spec (x : ℤ) : ∃ q, x = toInt32 x + 2 ^ 32 * q ∧ -2 ^ 31 ≤ toInt32 x ∧
    toInt32 x < 2 ^ 31 :=
  ⟨Int.bdiv x (2 ^ 32), (Int.bmod_add_bdiv x (2 ^ 32)).symm, Int.le_bmod (by decide),
    Int.bmod_lt (by decide)⟩

theorem toInt32_range (x : ℤ) : -2 ^ 31 ≤ toInt32 x ∧ toInt32 x < 2 ^ 31 := by
  obtain ⟨q, -, hrange⟩ := toInt32_spec x
  exact hrange

theorem toInt32_eq {k : ℤ} (h1 : -2 ^ 31 ≤ k) (h2 : k < 2 ^ 31) : toInt32 k = k := by
  unfold toInt32
  rw [Int.bmod_eq_of_le (by omega) (by omega)]

theorem toInt32_eq_iff {k : ℤ} : toInt32 k = k ↔ -2 ^ 31 ≤ k ∧ k < 2 ^ 31 := by
  constructor
  · intro h
    have hrange := toInt32_range k
    rw [h] at hrange
    exact hrange
  · rintro ⟨hlo, hhi⟩
    exact toInt32_eq hlo hhi

theorem lookup (h : Logged x cs p) {pid base : ℕ} (hp : pid < x.n)
    (hreg : lastRow x.rows x.rank base ≠ none) :
    ∃ r, lastRow x.rows x.rank base = some r ∧
      memoryRegisterMemoizedFind p.bsp.memoryRegister pid base = some (r pid) := by
  obtain ⟨r, hr⟩ := Option.ne_none_iff_exists'.mp hreg
  refine ⟨r, hr, memoizedFind_spec h.reg ?_ ?_ hr⟩
  · rw [h.reg_nprocs]
    exact h.rank_lt
  · rw [h.reg_nprocs]
    exact hp

theorem logged_pushPut (h : Logged x cs p) {pid dst : ℕ} {bytes : List UInt8} (hpid : pid < x.n)
    {element : DelivElement} (hsize : element.size = bytes.length)
    (hinfo : element.info = .put dst) :
    Logged x (cs ++ [.put pid dst bytes]) { p with bsp := { p.bsp with
      deliveryTable := pushPayload p.bsp.deliveryTable pid element .put bytes } } := by
  have hrep := pushPayload_rep h.deliv (by rw [h.deliv_nprocs]; exact hpid) hsize .put
  rw [hinfo] at hrep
  exact logged_deliv h (fun _ => rfl) (fun _ => rfl) hrep
    ((pushPayload_nprocs ..).trans h.deliv_nprocs)

theorem logged_pushGet (h : Logged x cs p) {pid : ℕ} (hpid : pid < x.n) (src : ℕ) (offset : ℤ)
    (dst size : ℕ) : Logged x (cs ++ [.get pid src offset dst size]) { p with bsp := { p.bsp with
      requestTable := requestTablePush p.bsp.requestTable pid
        { size := size, offset := offset, src := src, dst := dst } } } := by
  have hlt : pid < p.bsp.requestTable.nprocs := by rw [h.req_nprocs]; exact hpid
  have hpush := requests_push h.req hlt { size := size, offset := offset, src := src, dst := dst }
  have hcols : columnItems x.rank (cs ++ [.get pid src offset dst size]) =
      columnItems x.rank cs := by
    funext c
    rw [columnItems_append, itemsFor, List.append_nil]
  have hreqs : columnRequests (cs ++ [.get pid src offset dst size]) =
      Function.update (columnRequests cs) pid (columnRequests cs pid ++
        [{ size := size, offset := offset, src := src, dst := dst }]) := by
    funext c
    rw [columnRequests_append, requestsFor]
    by_cases hc : pid = c
    · subst hc; simp
    · simp [hc, Function.update_of_ne (Ne.symm hc)]
  exact { h with
    deliv := by rw [hcols]; exact h.deliv
    req := by rw [hreqs]; exact hpush
    req_nprocs := (requestTablePush_nprocs ..).trans h.req_nprocs }

theorem logged_put (h : Logged x cs p) {pid src dst nbytes : ℕ} {offset : ℤ}
    (hok : Admitted x (.put pid src dst offset nbytes) p) :
    ∃ p', exec (.put pid src dst offset nbytes) p = some p' ∧
      Logged x (cs ++ callOf x (.put pid src dst offset nbytes) p) p' := by
  obtain ⟨hpid, hsize, hreg⟩ := hok
  obtain ⟨r, hr, hfind⟩ := lookup h hpid hreg
  refine ⟨_, by simp only [exec, bspxPut, hfind]; rfl, ?_⟩
  simp only [callOf, hr, Option.toList_some, List.map_cons, List.map_nil]
  refine logged_pushPut h hpid ?_ rfl
  rw [load_length]
  exact toUInt32_eq hsize

theorem logged_get (h : Logged x cs p) {pid src dst nbytes : ℕ} {offset : ℤ}
    (hok : Admitted x (.get pid src offset dst nbytes) p) :
    ∃ p', exec (.get pid src offset dst nbytes) p = some p' ∧
      Logged x (cs ++ callOf x (.get pid src offset dst nbytes) p) p' := by
  obtain ⟨hpid, hsize, hlo, hhi, hreg⟩ := hok
  obtain ⟨r, hr, hfind⟩ := lookup h hpid hreg
  refine ⟨_, by
    simp only [exec, bspxGet, hfind, toUInt32_eq hsize, toInt32_eq hlo hhi]; rfl, ?_⟩
  simp only [callOf, hr, Option.toList_some, List.map_cons, List.map_nil]
  exact logged_pushGet h hpid (r pid) offset dst nbytes

theorem logged_send (h : Logged x cs p) {pid tag payload nbytes : ℕ}
    (hok : Admitted x (.send pid tag payload nbytes) p) :
    ∃ p', exec (.send pid tag payload nbytes) p = some p' ∧
      Logged x (cs ++ callOf x (.send pid tag payload nbytes) p) p' := by
  obtain ⟨hpid, hsize⟩ := hok
  let m : Message := ⟨load p.mem tag x.tagSize, load p.mem payload nbytes⟩
  have h1 : toUInt32 nbytes = nbytes := toUInt32_eq (by omega)
  have h2 : toUInt32 (nbytes + x.tagSize) = nbytes + x.tagSize := toUInt32_eq hsize
  have hlen : (DelivElement.mk (nbytes + x.tagSize) p.stack (.send nbytes)).size =
      (m.tag ++ m.payload).length := by
    simp [m, Nat.add_comm]
  have hrep := pushPayload_rep h.deliv (by rw [h.deliv_nprocs]; exact hpid) hlen .send
  have hitem : (⟨.send, .send nbytes, m.tag ++ m.payload⟩ : Item) = messageItem m := by
    simp [messageItem, m]
  rw [hitem] at hrep
  have htag : x.tagSize = m.tag.length := by simp [m]
  have hexec : exec (.send pid tag payload nbytes) p = some { p with bsp := { p.bsp with
      deliveryTable := pushPayload p.bsp.deliveryTable pid
        ⟨nbytes + x.tagSize, p.stack, .send nbytes⟩ .send (m.tag ++ m.payload) } } := by
    simp only [exec, bspxSend, h.tagSize, h1, h2, pushPayload, ← storeBytes_append, ← htag]
    rfl
  exact ⟨_, hexec, logged_deliv h (fun _ => rfl) (fun _ => rfl) hrep
    ((pushPayload_nprocs ..).trans h.deliv_nprocs)⟩

theorem logged_own (h : Logged x cs p) {call : Call} {ty : ItemType} {info : DInfo}
    (hitems : ∀ c, itemsFor x.rank c call = if x.rank = c then [⟨ty, info, []⟩] else [])
    (hreqs : ∀ c, requestsFor c call = []) :
    Logged x (cs ++ [call]) { p with bsp := { p.bsp with
      deliveryTable := (deliveryTablePush p.bsp.deliveryTable p.bsp.rank
        { size := 0, next := p.stack, info := info } ty).1 } } := by
  rw [h.rank]
  have hlt : x.rank < p.bsp.deliveryTable.nprocs := by rw [h.deliv_nprocs]; exact h.rank_lt
  have hrep := push_rep_nil h.deliv hlt p.stack info ty
  exact logged_deliv h hitems hreqs hrep ((delivPush_nprocs ..).trans h.deliv_nprocs)

theorem logged_pushReg (h : Logged x cs p) (ident : ℕ) :
    Logged x (cs ++ [.pushReg ident]) { p with bsp := bspxPushReg p.bsp p.stack ident } := by
  have hrun : ∀ k ≤ x.n, Rep ((List.range k).foldl (fun t i =>
        (deliveryTablePush t i { size := 0, next := p.stack, info := .push ident } .pushreg).1)
        p.bsp.deliveryTable)
      (fun c => columnItems x.rank cs c ++ if c < k then [⟨.pushreg, .push ident, []⟩] else []) ∧
      ((List.range k).foldl (fun t i =>
        (deliveryTablePush t i { size := 0, next := p.stack, info := .push ident } .pushreg).1)
        p.bsp.deliveryTable).nprocs = x.n := by
    intro k
    induction k with
    | zero => exact fun _ => ⟨by simpa using h.deliv, h.deliv_nprocs⟩
    | succ k ih =>
      intro hk
      obtain ⟨h1, h2⟩ := ih (by omega)
      rw [List.range_succ, List.foldl_append, List.foldl_cons, List.foldl_nil]
      generalize (List.range k).foldl _ p.bsp.deliveryTable = t at h1 h2 ⊢
      have hrep := push_rep_nil h1 (show k < t.nprocs by omega) p.stack (.push ident) .pushreg
      refine ⟨hrep.congr fun c _ => ?_, (delivPush_nprocs ..).trans h2⟩
      by_cases hc : c = k
      · subst hc; simp
      · rw [Function.update_of_ne hc]
        simp only [show c < k + 1 ↔ c < k by omega]
  have hn := h.nprocs
  obtain ⟨h1, h2⟩ := hrun x.n le_rfl
  have hreq : columnRequests (cs ++ [.pushReg ident]) = columnRequests cs := by
    funext c
    exact (columnRequests_append ..).trans (List.append_nil _)
  exact { h with
    deliv := by
      simp only [bspxPushReg, hn]
      apply h1.congr
      intro c hc
      rw [h2] at hc
      rw [columnItems_append, itemsFor, if_pos hc]
    deliv_nprocs := by simp only [bspxPushReg, hn]; exact h2
    req := by rw [hreq]; exact h.req }

theorem logged_queue (h : Logged x cs p) {q : MessageQueue} (mem : Mem)
    (hq : ∃ ms, Queued p.bsp.deliveryReceivedTable q ms)
    (htag : q.sendTagSize = p.bsp.messageQueue.sendTagSize) :
    Logged x cs { p with bsp := { p.bsp with messageQueue := q }, mem := mem } :=
  { h with tagSize := htag.trans h.tagSize, queue := hq }

theorem logged_globalArrays (h : Logged x cs p) (globalArrays : ℕ → GlobalArray) (last : ℕ)
    (overflow : Bool) : Logged x cs { p with bsp := { p.bsp with
      globalArrays := globalArrays, globalArrayLast := last, globalOverflow := overflow } } :=
  { h with }

theorem logged_globalAlloc (h : Logged x cs p) (arraySize localSlice : ℕ)
    (hok : nextHandle p.bsp ≠ none) : ∃ p', exec (.globalAlloc arraySize localSlice) p = some p' ∧
      Logged x (cs ++ [.pushReg localSlice]) p' := by
  obtain ⟨handle, hh⟩ := Option.ne_none_iff_exists'.mp hok
  refine ⟨_, by simp only [exec, bspxGlobalAlloc, hh]; rfl, ?_⟩
  exact logged_pushReg (logged_globalArrays h _ _ _) localSlice

theorem logged_move (h : Logged x cs p) {payload receptionNbytes : ℕ}
    (hok : p.bsp.messageQueue.nMesg ≠ 0) :
    ∃ p', exec (.move payload receptionNbytes) p = some p' ∧ Logged x cs p' := by
  obtain ⟨ms, hq⟩ := h.queue
  cases ms with
  | nil => exact absurd hq.nMesg hok
  | cons m ms =>
    obtain ⟨head, hhead, -, -, htail⟩ := queued_cons hq
    exact ⟨_, congrArg (Option.map _) (move_head hhead p.mem payload receptionNbytes),
      logged_queue h _ ⟨ms, htail _⟩ rfl⟩

theorem logged_hpmove (h : Logged x cs p) :
    ∃ p', exec .hpmove p = some p' ∧ Logged x cs p' := by
  by_cases h0 : p.bsp.messageQueue.nMesg = 0
  · exact ⟨p, by simp only [exec, bspxHpmove, if_pos h0]; rfl, h⟩
  · obtain ⟨ms, hq⟩ := h.queue
    cases ms with
    | nil => exact absurd hq.nMesg h0
    | cons m ms =>
      obtain ⟨head, hhead, -, -, htail⟩ := queued_cons hq
      exact ⟨_, congrArg (Option.map _) (hpmove_head hhead h0),
        logged_queue h p.mem ⟨ms, htail _⟩ rfl⟩

theorem logged_getTag (h : Logged x cs p) (tag : ℕ) :
    ∃ p', exec (.getTag tag) p = some p' ∧ Logged x cs p' := by
  by_cases h0 : p.bsp.messageQueue.nMesg = 0
  · exact ⟨p, by simp only [exec, bspxGetTag, if_pos h0]; rfl, h⟩
  · obtain ⟨ms, hq⟩ := h.queue
    cases ms with
    | nil => exact absurd hq.nMesg h0
    | cons m ms =>
      obtain ⟨head, hhead, -⟩ := queued_cons hq
      exact ⟨_, congrArg (Option.map _) (getTag_head hhead h0 p.mem tag),
        logged_queue h _ h.queue rfl⟩

/-- Every admitted operation is defined and extends the log by its call. -/
theorem exec_logged (h : Logged x cs p) (op : Op) (hok : Admitted x op p) :
    ∃ p', exec op p = some p' ∧ Logged x (cs ++ callOf x op p) p' := by
  cases op with
  | pushReg ident => exact ⟨_, rfl, logged_pushReg h ident⟩
  | popReg ident => exact ⟨_, rfl, logged_own h (fun _ => rfl) fun _ => rfl⟩
  | put pid src dst offset nbytes => exact logged_put h hok
  | hpput pid src dst offset nbytes => exact logged_put h hok
  | get pid src offset dst nbytes => exact logged_get h hok
  | hpget pid src offset dst nbytes => exact logged_get h hok
  | send pid tag payload nbytes => exact logged_send h hok
  | setTagsize tagNbytes => exact ⟨_, rfl, logged_own h (fun _ => rfl) fun _ => rfl⟩
  | getTag tag => simpa [callOf] using logged_getTag h tag
  | move payload receptionNbytes => simpa [callOf] using logged_move h hok
  | hpmove => simpa [callOf] using logged_hpmove h
  | globalAlloc arraySize localSlice => exact logged_globalAlloc h arraySize localSlice hok
  | globalFree ptr =>
    have hpop : Logged x (cs ++ [.popReg (sliceOf p.bsp ptr)])
        { p with bsp := bspxPopReg p.bsp p.stack (sliceOf p.bsp ptr) } :=
      logged_own h (fun _ => rfl) fun _ => rfl
    exact ⟨_, rfl, logged_globalArrays hpop _ _ _⟩
  | compute f => exact ⟨_, rfl, by simpa [callOf] using logged_queue h (f p.mem) h.queue rfl⟩

def callsOf (x : Context) (ops : List Op) (p : Proc) : List Call := trace exec (callOf x) ops p

theorem run_exec (h : Logged x [] p) {ops : List Op} (hok : Along exec (Admitted x) ops p) :
    ∃ p', run exec ops p = some p' ∧ Logged x (callsOf x ops p) p' := by
  have hrun := run_logged (callOf x) (fun cs p => Logged x cs p)
    (fun op p log hl ha => exec_logged hl op ha) [] h hok
  simpa [callsOf] using hrun

def Op.IsAccess : Op → Prop
  | .put .. | .hpput .. | .get .. | .hpget .. => True
  | _ => False

theorem admitted_access {op : Op} (hop : Op.IsAccess op) {q : Proc} (h : Admitted x op p) :
    Admitted x op q := by
  cases op <;> first | exact h | exact hop.elim

theorem callOf_access {op : Op} (hop : Op.IsAccess op) {q : Proc} (h : p.mem = q.mem) :
    callOf x op p = callOf x op q := by
  cases op <;> first | exact hop.elim | simp only [callOf, h]

theorem exec_access {op : Op} (hop : Op.IsAccess op) {q : Proc} (h : exec op p = some q) :
    q.mem = p.mem ∧ q.bsp.globalArrays = p.bsp.globalArrays := by
  cases op with
  | put | hpput | get | hpget =>
    obtain ⟨bsp, hbsp, rfl⟩ := Option.map_eq_some_iff.mp h
    obtain ⟨base, -, hret⟩ := Option.bind_eq_some_iff.mp hbsp
    cases hret
    exact ⟨rfl, rfl⟩
  | pushReg | popReg | send | setTagsize => exact hop.elim
  | getTag | move | hpmove | globalAlloc | globalFree | compute => exact hop.elim

theorem run_access (h : Logged x cs p) {ops : List Op}
    (hops : ∀ op ∈ ops, Op.IsAccess op ∧ Admitted x op p) :
    callsOf x ops p = ops.flatMap (callOf x · p) ∧ Along exec (Admitted x) ops p ∧
      ∀ q, run exec ops p = some q → q.mem = p.mem ∧ q.bsp.globalArrays = p.bsp.globalArrays := by
  induction ops generalizing cs p with
  | nil => exact ⟨rfl, trivial, fun q hq => by cases hq; exact ⟨rfl, rfl⟩⟩
  | cons op ops ih =>
    obtain ⟨hop, hok⟩ := hops op (List.mem_cons_self ..)
    obtain ⟨p', hp', hl⟩ := exec_logged h op hok
    obtain ⟨hmem, harrays⟩ := exec_access hop hp'
    have hrest : ∀ op' ∈ ops, Op.IsAccess op' ∧ Admitted x op' p' := by
      intro op' ho
      obtain ⟨h1, h2⟩ := hops op' (List.mem_cons_of_mem _ ho)
      exact ⟨h1, admitted_access h1 h2⟩
    obtain ⟨hcalls, halong, hrun⟩ := ih hl hrest
    refine ⟨?_, ⟨hok, fun s hs => ?_⟩, fun q hq => ?_⟩
    · rw [callsOf] at hcalls
      rw [callsOf, trace, hp', Option.map_some, Option.getD_some, hcalls, List.flatMap_cons]
      congr 1
      apply List.flatMap_congr
      intro op' ho
      exact callOf_access (hrest op' ho).1 hmem
    · cases hp'.symm.trans hs
      exact halong
    · rw [run, hp', Option.bind_some] at hq
      obtain ⟨h1, h2⟩ := hrun q hq
      exact ⟨h1.trans hmem, h2.trans harrays⟩

end Exec

end BspOnMpi.Calls
