import BspOnMpi.DelivPush

/-! Request tables. `bsp_reqtable.h` and `bsp_reqtable.c`: the table of the `bspx_get` calls. At
the processor that owns the data a request becomes a put; its answer is pushed to the column of
the requesting processor. -/

namespace BspOnMpi.Reqtable
open Lib Exptable Slots Delivtable DelivPush

structure ReqElement where
  size : ℕ
  offset : ℤ
  src : ℕ
  dst : ℕ

structure ReqInfo where
  dataSizes : ℕ → ℕ

abbrev RequestTable := ExpandableTable ReqInfo ReqElement

def requestTableInitialize (nprocs rows : ℕ) (fresh : ℕ → ℕ → ReqElement) : RequestTable :=
  expandableTableInitialize nprocs rows 24 ⟨fun _ => 0⟩ fresh

def requestTableReset (t : RequestTable) : RequestTable :=
  expandableTableReset { t with info := ⟨fun _ => 0⟩ }

def requestTableResetrowcount (t : RequestTable) (rows : ℕ) : RequestTable :=
  expandableTableResetrowcount { t with info := ⟨fun _ => 0⟩ } rows

def requestTableExpand (t : RequestTable) (rows : ℕ) : RequestTable :=
  expandableTableExpand t rows t.info

def newReqInfoAtPush (info : ReqInfo) (_rows _newrows : ℕ) : ReqInfo := info

def requestTablePush (t : RequestTable) (proc : ℕ) (element : ReqElement) : RequestTable :=
  fixedElSizeTablePush { t with info :=
    ⟨Function.update t.info.dataSizes proc (t.info.dataSizes proc + (element.size + 16))⟩ }
    proc newReqInfoAtPush element

/-- The body of the inner loop of `requestTable_execute`; `next` is what the
automatic variable `delivery` holds in the field that is not assigned. -/
def answerRequest (mem : Mem) (next i : ℕ) (deliv : DeliveryTable) (element : ReqElement) :
    DeliveryTable :=
  pushPayload deliv i { size := element.size, next := next, info := .put element.dst } .put
    (load mem (addOffset element.src element.offset) element.size)

def requestTableExecute (table : RequestTable) (deliv : DeliveryTable) (mem : Mem) (next : ℕ) :
    DeliveryTable :=
  (List.range table.nprocs).foldl (fun deliv i =>
    (List.range (table.usedSlotCount i)).foldl (fun deliv j =>
      answerRequest mem next i deliv (table.data (i * table.rows + j))) deliv) deliv

def answer (mem : Mem) (r : ReqElement) : Item :=
  ⟨.put, .put r.dst, load mem (addOffset r.src r.offset) r.size⟩

def announced (rs : List ReqElement) : ℕ := (rs.map fun r => r.size + 16).sum

structure Requests (t : RequestTable) (rs : ℕ → List ReqElement) : Prop where
  holds : Holds t rs
  sizes : ∀ c, t.info.dataSizes c = announced (rs c)
  rows_pos : 0 < t.rows
  slot : t.slotSize = 24

theorem reset_requests {t : RequestTable} (hr : 0 < t.rows) (hs : t.slotSize = 24) :
    Requests (requestTableReset t) fun _ => [] :=
  ⟨holds_reset _, fun _ => rfl, hr, hs⟩

theorem initialize_requests (nprocs rows : ℕ) (fresh : ℕ → ℕ → ReqElement) (hr : 0 < rows) :
    Requests (requestTableInitialize nprocs rows fresh) fun _ => [] :=
  ⟨⟨fun _ _ => rfl, fun _ _ => Nat.zero_le _, fun _ _ => rfl⟩, fun _ => rfl, hr, rfl⟩

theorem requests_push {t : RequestTable} {rs : ℕ → List ReqElement} (h : Requests t rs) {proc : ℕ}
    (hp : proc < t.nprocs) (element : ReqElement) :
    Requests (requestTablePush t proc element)
      (Function.update rs proc (rs proc ++ [element])) := by
  let u : RequestTable := { t with info :=
    ⟨Function.update t.info.dataSizes proc (t.info.dataSizes proc + (element.size + 16))⟩ }
  have hu : Holds u rs := ⟨h.holds.used, h.holds.fits, h.holds.content⟩
  have hinfo : (requestTablePush t proc element).info = u.info := by
    have hi := push_info u proc newReqInfoAtPush element
    rwa [newReqInfoAtPush, ite_self] at hi
  have hrows := push_rows_le u proc newReqInfoAtPush element
  refine ⟨push_holds hu h.rows_pos hp newReqInfoAtPush element, fun c => ?_,
    lt_of_lt_of_le h.rows_pos hrows,
    (Exptable.push_slotSize u proc newReqInfoAtPush element).trans h.slot⟩
  rw [hinfo]
  by_cases hc : c = proc
  · subst hc
    simp [u, h.sizes c, announced]
  · simp [u, hc, h.sizes c]

@[simp] theorem requestTablePush_nprocs (t : RequestTable) (proc : ℕ) (element : ReqElement) :
    (requestTablePush t proc element).nprocs = t.nprocs := Exptable.push_nprocs ..

theorem load_length_size (mem : Mem) (r : ReqElement) :
    (answer mem r).payload.length = r.size := by simp [answer]

theorem answerAll_rep {deliv : DeliveryTable} {its : ℕ → List Item} (h : Rep deliv its) {i : ℕ}
    (hi : i < deliv.nprocs) (mem : Mem) (next : ℕ) (rs : List ReqElement) :
    Rep (rs.foldl (answerRequest mem next i) deliv)
      (Function.update its i (its i ++ rs.map (answer mem))) ∧
      (rs.foldl (answerRequest mem next i) deliv).nprocs = deliv.nprocs := by
  induction rs generalizing deliv its with
  | nil => simpa using h
  | cons r rs ih =>
    have hsize : (DelivElement.mk r.size next (.put r.dst)).size = (answer mem r).payload.length :=
      (load_length_size mem r).symm
    have hpush := pushPayload_rep h hi hsize .put
    have hn := pushPayload_nprocs deliv i ⟨r.size, next, .put r.dst⟩ .put (answer mem r).payload
    obtain ⟨h1, h2⟩ := ih hpush (by rw [hn]; exact hi)
    refine ⟨?_, h2.trans hn⟩
    simpa [answer, answerRequest] using h1

theorem requestExecute_rep {table : RequestTable} {rs : ℕ → List ReqElement} (hr : Holds table rs)
    {deliv : DeliveryTable} {its : ℕ → List Item} (h : Rep deliv its)
    (hn : table.nprocs = deliv.nprocs) (mem : Mem) (next : ℕ) :
    Rep (requestTableExecute table deliv mem next)
      (fun i => if i < table.nprocs then its i ++ (rs i).map (answer mem) else its i) ∧
      (requestTableExecute table deliv mem next).nprocs = deliv.nprocs := by
  have hrun : ∀ n ≤ table.nprocs,
      Rep ((List.range n).foldl (fun deliv i =>
        (List.range (table.usedSlotCount i)).foldl (fun deliv j =>
          answerRequest mem next i deliv (table.data (i * table.rows + j))) deliv) deliv)
        (fun i => if i < n then its i ++ (rs i).map (answer mem) else its i) ∧
      ((List.range n).foldl (fun deliv i =>
        (List.range (table.usedSlotCount i)).foldl (fun deliv j =>
          answerRequest mem next i deliv (table.data (i * table.rows + j))) deliv) deliv).nprocs =
        deliv.nprocs := by
    intro n
    induction n with
    | zero => exact fun _ => ⟨by simpa using h, rfl⟩
    | succ n ih =>
      intro hle
      obtain ⟨h1, h2⟩ := ih (by omega)
      rw [List.range_succ, List.foldl_append, List.foldl_cons, List.foldl_nil]
      generalize (List.range n).foldl _ deliv = d at h1 h2 ⊢
      have hcells : (List.range (table.usedSlotCount n)).foldl (fun deliv j =>
          answerRequest mem next n deliv (table.data (n * table.rows + j))) d =
          (rs n).foldl (answerRequest mem next n) d := by
        have hl : rs n = load (col table n) 0 (table.usedSlotCount n) :=
          (hr.content n (by omega)).symm
        rw [hl, load, List.foldl_map]
        simp [col, column]
      rw [hcells]
      obtain ⟨h3, h4⟩ := answerAll_rep h1 (i := n) (by omega) mem next (rs n)
      refine ⟨?_, h4.trans h2⟩
      convert h3 using 1
      funext i
      by_cases hi : i = n
      · subst hi; simp
      · rw [Function.update_of_ne hi]
        simp only [show i < n + 1 ↔ i < n by omega]
  exact hrun table.nprocs le_rfl

end BspOnMpi.Reqtable
