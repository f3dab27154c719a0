import BspOnMpi.DelivExecute

/-! A column as an encoding. Any sequence of pushes and expansions of a delivery table, and what a
reader of one column finds afterwards: in the table itself, or in another one that only the used
slots of the column were copied to. -/

namespace BspOnMpi.DelivColumn
open Lib Exptable Slots Delivtable DelivPush DelivExecute

inductive TableCall
  | push (proc : ℕ) (type : ItemType) (next : ℕ) (info : DInfo) (payload : List UInt8)
  | expand (rows : ℕ)

def TableCall.InTable (nprocs : ℕ) : TableCall → Prop
  | .push proc .. => proc < nprocs
  | .expand _ => True

def tableCall (t : DeliveryTable) : TableCall → DeliveryTable
  | .push proc type next info payload =>
    pushPayload t proc { size := payload.length, next := next, info := info } type payload
  | .expand rows => deliveryTableExpand t rows

def tableCalls (t : DeliveryTable) (cs : List TableCall) : DeliveryTable := cs.foldl tableCall t

def pushedTo (p : ℕ) (cs : List TableCall) : List Item :=
  cs.filterMap fun
    | .push proc type _ info payload => if proc = p then some ⟨type, info, payload⟩ else none
    | .expand _ => none

def lastElement (t : DeliveryTable) (p : ℕ) (ty : ItemType) : ℕ :=
  p * t.rows + getWord t.data (t.info.end_ p + ty.index)

/-- The slots visited from `start[p][type]` on, following `next` `count[p][type]` times. -/
def visited (t : DeliveryTable) (p : ℕ) (ty : ItemType) : List ℕ :=
  forElements t p ty (fun ps pointer => ps ++ [pointer]) []

structure ReadElement where
  size : ℕ
  info : DInfo
  payload : List UInt8

def readElement (t : DeliveryTable) (pointer : ℕ) : ReadElement :=
  { size := elementSize t pointer
    info := elementInfo t pointer
    payload := elementPayload t pointer }

def readColumn (t : DeliveryTable) (p : ℕ) (ty : ItemType) : List ReadElement :=
  (visited t p ty).map (readElement t)

def asRead (it : Item) : ReadElement :=
  { size := it.payload.length, info := it.info, payload := it.payload }

/-- Column `p` of `other` after the used slots of column `p` were copied to its top. -/
def copyColumn (t other : DeliveryTable) (p : ℕ) : DeliveryTable :=
  { other with
    data := store other.data (p * other.rows) (load t.data (p * t.rows) (t.usedSlotCount p)) }

/-- A reader of the elements of type `ty` in column `p` finds `its`. -/
structure ReadsBack (t : DeliveryTable) (p : ℕ) (ty : ItemType) (its : List Item) : Prop where
  count : elementCount t p ty = its.length
  elements : readColumn t p ty = its.map asRead
  last : ∀ a ∈ (visited t p ty).getLast?, a = lastElement t p ty

section Readable

variable {t : DeliveryTable} {p : ℕ} {its : List Item}

theorem visited_eq (h : Readable t p its) (ty : ItemType) :
    visited t p ty = (placed ty its).map fun e => p * t.rows + e.1 := by
  have hfold : ∀ (es : List (ℕ × Item)) (ps : List ℕ),
      es.foldl (fun ps e => ps ++ [p * t.rows + e.1]) ps =
        ps ++ es.map fun e => p * t.rows + e.1 := by
    intro es
    induction es with
    | nil => simp
    | cons e es ih => simp [ih]
  rw [visited, forElements_eq h, hfold, List.nil_append]

theorem column_last (h : Readable t p its) {ty : ItemType} {a : ℕ}
    (ha : a ∈ (positions ty its).getLast?) : lastElement t p ty = p * t.rows + a := by
  have hend := h.encodes.end_ ty a ha
  rw [col, getWord_column] at hend
  rw [lastElement, h.aimed, ← hend]
  simp only [aimIndex, Nat.add_assoc]

theorem readable_readsBack (h : Readable t p its) (ty : ItemType) :
    ReadsBack t p ty (its.filter fun it => it.ty = ty) := by
  refine ⟨?_, ?_, fun a ha => ?_⟩
  · rw [column_count h, ← placed_map_snd, List.length_map]
  · rw [readColumn, visited_eq h, ← placed_map_snd, List.map_map, List.map_map]
    apply List.map_congr_left
    intro e he
    have hel := column_element h (List.mem_filter.mp he).1
    simp only [Function.comp, readElement, asRead, hel.size, hel.info, hel.payload]
  · have hpos : (placed ty its).map (fun e => p * t.rows + e.1) =
        (positions ty its).map (p * t.rows + ·) := by
      rw [positions, List.map_map]
      rfl
    rw [visited_eq h, hpos, List.getLast?_map] at ha
    obtain ⟨x, hx, rfl⟩ := Option.mem_map.mp ha
    exact (column_last h hx).symm

theorem copyColumn_readable (h : Readable t p its) (hused : t.usedSlotCount p = colSize its)
    {other : DeliveryTable} (haim : other.info = aimIndex other.rows) :
    Readable (copyColumn t other p) p its := by
  refine ⟨h.encodes.congr fun s hs => ?_, haim⟩
  have hslot : s < (load t.data (p * t.rows) (t.usedSlotCount p)).length := by
    rw [load_length, hused]
    exact hs
  show store other.data (p * other.rows) _ (p * other.rows + s) = t.data (p * t.rows + s)
  rw [store_add _ _ hslot, load_getElem]

end Readable

theorem tableCall_rep {t : DeliveryTable} {its : ℕ → List Item} (h : Rep t its) {c : TableCall}
    (hc : c.InTable t.nprocs) :
    Rep (tableCall t c) fun p => its p ++ pushedTo p [c] := by
  cases c with
  | push proc type next info payload =>
    apply (pushPayload_rep h hc rfl type).congr
    intro p _
    by_cases hp : p = proc
    · subst hp
      simp [pushedTo]
    · simp [pushedTo, Ne.symm hp, hp]
  | expand rows => simpa [tableCall, pushedTo] using rep_expand h rows

theorem tableCall_nprocs (t : DeliveryTable) (c : TableCall) :
    (tableCall t c).nprocs = t.nprocs := by
  cases c with
  | push => exact pushPayload_nprocs ..
  | expand => rfl

theorem tableCalls_nprocs (t : DeliveryTable) (cs : List TableCall) :
    (tableCalls t cs).nprocs = t.nprocs := by
  induction cs generalizing t with
  | nil => rfl
  | cons c cs ih => exact (ih _).trans (tableCall_nprocs t c)

theorem pushedTo_cons (p : ℕ) (c : TableCall) (cs : List TableCall) :
    pushedTo p (c :: cs) = pushedTo p [c] ++ pushedTo p cs := by
  rw [pushedTo, pushedTo, pushedTo, ← List.filterMap_append, List.singleton_append]

theorem tableCalls_rep {t : DeliveryTable} {its : ℕ → List Item} (h : Rep t its)
    {cs : List TableCall} (hcs : ∀ c ∈ cs, c.InTable t.nprocs) :
    Rep (tableCalls t cs) fun p => its p ++ pushedTo p cs := by
  induction cs generalizing t its with
  | nil => simpa [tableCalls, pushedTo] using h
  | cons c cs ih =>
    have hstep := tableCall_rep h (hcs c List.mem_cons_self)
    have hrest := ih hstep fun d hd => by
      rw [tableCall_nprocs]
      exact hcs d (List.mem_cons_of_mem c hd)
    apply hrest.congr
    intro p _
    rw [pushedTo_cons, List.append_assoc]

/-- Whatever is pushed in whatever order, and however the table grows meanwhile,
the used slots of a column are its index and its elements, and a reader finds
every list as it was pushed: in the table, and in any other one with an aimed
index that just these slots are copied to. -/
theorem column_faithful (nprocs rows : ℕ) (fresh : ℕ → ℕ → Slot) (cs : List TableCall)
    (hcs : ∀ c ∈ cs, c.InTable nprocs) (p : ℕ) (hp : p < nprocs) :
    let t := tableCalls (deliveryTableInitialize nprocs rows fresh) cs
    (∀ ty, ReadsBack t p ty ((pushedTo p cs).filter fun it => it.ty = ty)) ∧
    t.usedSlotCount p = 9 + ((pushedTo p cs).map fun it => 2 + (it.payload.length + 7) / 8).sum ∧
    t.usedSlotCount p ≤ t.rows ∧
    ∀ other : DeliveryTable, other.info = aimIndex other.rows →
      ∀ ty, ReadsBack (copyColumn t other p) p ty
        ((pushedTo p cs).filter fun it => it.ty = ty) := by
  intro t
  have hrep : Rep t fun p => pushedTo p cs := by
    simpa using tableCalls_rep (initialize_rep nprocs rows fresh) hcs
  have hpt : p < t.nprocs := by
    rw [tableCalls_nprocs]
    exact hp
  have hread : Readable t p (pushedTo p cs) := ⟨hrep.encodes p hpt, hrep.aimed⟩
  have hused := hrep.used p hpt
  refine ⟨fun ty => readable_readsBack hread ty, ?_, hrep.fits p hpt, fun other haim ty => ?_⟩
  · rw [hused, colSize, extent_eq]
    rfl
  · exact readable_readsBack (copyColumn_readable hread hused haim) ty

def mixedCalls : List TableCall :=
  [.push 1 .put 0 (.put 5) [1, 2, 3], .push 0 .send 7 (.send 1) [9], .expand 2,
    .push 1 .popreg 0 (.pop 4) [], .push 1 .put 3 (.put 6) [4]]

theorem column_faithful_mixed :
    ReadsBack (tableCalls (deliveryTableInitialize 2 0 fun _ _ => .words 0 0) mixedCalls) 1 .put
      ((pushedTo 1 mixedCalls).filter fun it => it.ty = .put) :=
  (column_faithful 2 0 _ mixedCalls (by simp [mixedCalls, TableCall.InTable]) 1 (by decide)).1 .put

end BspOnMpi.DelivColumn
