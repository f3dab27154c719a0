import BspOnMpi.Drma

/-! Offsets of puts and gets. `bspx_put` adds its `long int` offset to the address it looked up.
`bspx_get` stores the offset in an `int` of the request, and the processor that is asked adds it.
-/

namespace BspOnMpi.DrmaOffsets
open Lib Memreg Slots Machine Bspx Calls BspxSync Superstep

/-- The operation with the offset that its request has room for. -/
def stored : Op → Op
  | .get pid src offset dst nbytes => .get pid src (toInt32 offset) dst nbytes
  | .hpget pid src offset dst nbytes => .hpget pid src (toInt32 offset) dst nbytes
  | op => op

/-- Worlds reached by supersteps within the interface, with offsets of any size. -/
inductive AnyOffset (n : ℕ) : (ℕ → List Row) → (ℕ → ℕ) → World → Prop
  | init (alloc : ℕ → Alloc) (globalArrays : ℕ → ℕ → GlobalArray) (mem : ℕ → Mem) (stack : ℕ → ℕ) :
    AnyOffset n (fun _ => []) (fun _ => 0) (initWorld alloc globalArrays mem stack n)
  | step {rows : ℕ → List Row} {tagSize : ℕ → ℕ} {w w' : World} {ops : ℕ → List Op}
    (hr : AnyOffset n rows tagSize w)
    (ha : Admissible n rows tagSize (fun p => (ops p).map stored) w)
    (hs : superstep n ops w = some w') :
    AnyOffset n
      (fun q => rowsAfter n (callsAt n rows tagSize (fun p => (ops p).map stored) w) (rows q) q)
      (fun q => tagAfter (tagSize q) (callsAt n rows tagSize (fun p => (ops p).map stored) w q)) w'

section Stored

theorem toInt32_toInt32 (k : ℤ) : toInt32 (toInt32 k) = toInt32 k := Int.bmod_bmod

theorem exec_stored (op : Op) (p : Proc) : exec (stored op) p = exec op p := by
  cases op with
  | get pid src offset dst nbytes | hpget pid src offset dst nbytes =>
    simp only [stored, exec, bspxHpget, bspxGet, toInt32_toInt32]
  | _ => rfl

theorem superstep_stored (n : ℕ) (ops : ℕ → List Op) (w : World) :
    superstep n (fun p => (ops p).map stored) w = superstep n ops w := by
  have hphase : localPhase n (fun p => (ops p).map stored) w = localPhase n ops w := by
    rw [localPhase, localPhase]
    congr 1
    funext p
    exact run_map exec_stored (ops p) (w p)
  rw [superstep, superstep, hphase]

theorem anyOffset_reachable {n : ℕ} {rows : ℕ → List Row} {tagSize : ℕ → ℕ} {w : World}
    (h : AnyOffset n rows tagSize w) : Reachable n (fun _ => True) rows tagSize w := by
  induction h with
  | init alloc globalArrays mem stack => exact .init alloc globalArrays mem stack
  | step hr ha hs ih =>
    rw [← superstep_stored] at hs
    exact .step ih ha trivial hs

end Stored

def alone (f : ℕ → Mem → Mem) (p : ℕ) (op : Op) : ℕ → List Op := fun s =>
  .compute (f s) :: if s = p then [op] else []

section Alone

variable {n : ℕ} {rows : ℕ → List Row} {tagSize : ℕ → ℕ} {w : World} {p : ℕ} {op : Op}
  {f : ℕ → Mem → Mem} {call : Call}

theorem alone_calls (hcall : ∀ q : Proc, q.mem = f p (w p).mem →
      callOf ⟨n, p, rows p, tagSize p⟩ op q = [call]) (s : ℕ) :
    callsAt n rows tagSize (alone f p op) w s = if s = p then [call] else [] := by
  have hcompute : callsAt n rows tagSize (alone f p op) w s =
      callsOf ⟨n, s, rows s, tagSize s⟩ (if s = p then [op] else [])
        { w s with mem := f s (w s).mem } := rfl
  rw [hcompute]
  by_cases hs : s = p
  · subst hs
    rw [if_pos rfl, if_pos rfl, callsOf, trace_singleton]
    exact hcall _ rfl
  · rw [if_neg hs, if_neg hs]
    rfl

theorem memAfter_congr {cs : ℕ → List Call} {mem mem' : ℕ → Mem} (h : ∀ s < n, mem s = mem' s)
    {q : ℕ} (hq : q < n) : memAfter n cs mem q = memAfter n cs mem' q := by
  rw [memAfter, memAfter, h q hq]
  congr 1
  apply List.flatMap_congr
  intro s hs
  rw [h s (List.mem_range.mp hs)]

theorem alone_run (hop : Op.IsAccess op) {s : ℕ} {q q' : Proc}
    (h : run exec (alone f p op s) q = some q') : q'.mem = f s q.mem := by
  have hcompute : run exec (alone f p op s) q =
      run exec (if s = p then [op] else []) { q with mem := f s q.mem } := rfl
  rw [hcompute] at h
  split at h
  · obtain ⟨r, hr, hrest⟩ := Option.bind_eq_some_iff.mp h
    cases hrest
    exact (exec_access hop hr).1
  · cases h
    rfl

theorem alone_registers (hpush : pushes [call] = []) (hpop : pops [call] = []) (s : ℕ) :
    pushes (if s = p then [call] else []) = [] ∧ pops (if s = p then [call] else []) = [] := by
  split
  · exact ⟨hpush, hpop⟩
  · exact ⟨rfl, rfl⟩

theorem alone_rows (hpush : pushes [call] = []) (hpop : pops [call] = []) (q : ℕ) :
    rowsAfter n (fun s => if s = p then [call] else []) (rows q) q = rows q := by
  have hnew : newRows n (fun s => if s = p then [call] else []) = [] := by
    rw [newRows, (alone_registers hpush hpop 0).1]
    rfl
  rw [rowsAfter, hnew, (alone_registers hpush hpop q).2, List.append_nil]
  rfl

theorem alone_admissible (hok : ∀ q : Proc, Admitted ⟨n, p, rows p, tagSize p⟩ op q)
    (hcalls : callsAt n rows tagSize (alone f p op) w = fun s => if s = p then [call] else [])
    (hpush : pushes [call] = []) (hpop : pops [call] = []) :
    Admissible n rows tagSize (alone f p op) w := by
  refine ⟨fun s _ => ⟨trivial, fun t _ => ?_⟩, ?_⟩
  · by_cases hs : s = p
    · subst hs
      rw [if_pos rfl]
      exact ⟨hok t, fun _ _ => trivial⟩
    · rw [if_neg hs]
      trivial
  · rw [hcalls]
    refine ⟨fun s _ => ?_, fun q _ => ?_⟩
    · rw [(alone_registers hpush hpop s).1, (alone_registers hpush hpop 0).1]
    · rw [(alone_registers hpush hpop q).2]
      trivial

theorem alone_superstep (f : ℕ → Mem → Mem) (op : Op) (call : Call)
    (h : Clean n rows tagSize w) (hop : Op.IsAccess op)
    (hok : ∀ q : Proc, Admitted ⟨n, p, rows p, tagSize p⟩ op q)
    (hcall : ∀ q : Proc, q.mem = f p (w p).mem →
      callOf ⟨n, p, rows p, tagSize p⟩ op q = [call])
    (hpush : pushes [call] = []) (hpop : pops [call] = []) :
    ∃ w', superstep n (alone f p op) w = some w' ∧ (∃ tagSize', Clean n rows tagSize' w') ∧
      ∀ q < n, (w' q).mem = memAfter n (fun s => if s = p then [call] else [])
        (fun s => f s (w s).mem) q := by
  have hcalls : callsAt n rows tagSize (alone f p op) w = fun s => if s = p then [call] else [] :=
    funext (alone_calls hcall)
  obtain ⟨v, w', hv, hw', hspec⟩ :=
    superstep_spec h (alone_admissible hok hcalls hpush hpop)
  rw [hcalls] at hspec
  have hclean : Clean n rows
      (fun q => tagAfter (tagSize q) (if q = p then [call] else [])) w' := by
    refine ⟨fun q hq => ?_⟩
    have hlogged := (hspec q hq).2.logged
    rw [alone_rows hpush hpop] at hlogged
    exact hlogged
  refine ⟨w', by rw [superstep, hv]; exact hw', ⟨_, hclean⟩, fun q hq => ?_⟩
  rw [(hspec q hq).2.mem]
  apply memAfter_congr (fun s hs => ?_) hq
  exact alone_run hop (hspec s hs).1

end Alone

section PutGet

variable {n : ℕ} {rows : ℕ → List Row} {tagSize : ℕ → ℕ} {w : World} {p q base nbytes : ℕ}
  {r : Row}

theorem put_alone (offset : ℤ) (h : Clean n rows tagSize w) (hp : p < n) (hq : q < n)
    (hsize : nbytes < 2 ^ 31) (hr : lastRow (rows p) p base = some r) (f : ℕ → Mem → Mem)
    (src : ℕ) :
    ∃ w', superstep n (alone f p (.put q src base offset nbytes)) w = some w' ∧
      (∃ tagSize', Clean n rows tagSize' w') ∧ (w' q).mem =
        store (f q (w q).mem) (addOffset (r q) offset) (load (f p (w p).mem) src nbytes) := by
  have hreg : lastRow (rows p) p base ≠ none := by
    rw [hr]
    exact Option.some_ne_none r
  obtain ⟨w', hw', hclean, hmem⟩ := alone_superstep f (.put q src base offset nbytes)
    (.put q (addOffset (r q) offset) (load (f p (w p).mem) src nbytes)) h trivial
    (fun _ => ⟨hq, hsize, hreg⟩)
    (fun s hs => by simp only [callOf, hr, hs, Option.toList_some, List.map_cons, List.map_nil])
    rfl rfl
  refine ⟨w', hw', hclean, ?_⟩
  rw [hmem q hq, memAfter, writesTo, flatMap_only hp]
  · rw [if_pos rfl]
    by_cases hqp : q = p
    · simp [putsTo, answersOf, hqp, writeAll]
    · simp [putsTo, answersOf, hqp, writeAll]
  · intro s _ hs
    by_cases hqp : q = p
    · simp [putsTo, answersOf, hqp, hs]
    · simp [putsTo, answersOf, hqp, hs]

theorem get_alone (offset : ℤ) (h : Clean n rows tagSize w) (hp : p < n) (hq : q < n)
    (hsize : nbytes < 2 ^ 31) (hr : lastRow (rows p) p base = some r) (f : ℕ → Mem → Mem)
    (dst : ℕ) :
    ∃ w', superstep n (alone f p (.get q base offset dst nbytes)) w = some w' ∧
      (w' p).mem = store (f p (w p).mem) dst
        (load (f q (w q).mem) (addOffset (r q) (toInt32 offset)) nbytes) := by
  have hreg : lastRow (rows p) p base ≠ none := by
    rw [hr]
    exact Option.some_ne_none r
  obtain ⟨hlo, hhi⟩ := toInt32_range offset
  obtain ⟨w', hw', hclean, hmem⟩ := alone_superstep f (.get q base (toInt32 offset) dst nbytes)
    (.get q (r q) (toInt32 offset) dst nbytes) h trivial
    (fun _ => ⟨hq, hsize, hlo, hhi, hreg⟩)
    (fun s hs => by simp only [callOf, hr, Option.toList_some, List.map_cons, List.map_nil])
    rfl rfl
  have hstored : (fun s => (alone f p (.get q base offset dst nbytes) s).map stored) =
      alone f p (.get q base (toInt32 offset) dst nbytes) := by
    funext s
    by_cases hs : s = p
    · simp [alone, stored, hs]
    · simp [alone, stored, hs]
  refine ⟨w', by rw [← superstep_stored, hstored]; exact hw', ?_⟩
  rw [hmem p hp, memAfter, writesTo, flatMap_only hq]
  · rw [if_pos rfl]
    by_cases hqp : q = p
    · simp [putsTo, answersOf, hqp, writeAll]
    · simp [putsTo, answersOf, hqp, writeAll]
  · intro s _ hs
    rw [if_pos rfl]
    have hqs : q ≠ s := Ne.symm hs
    by_cases hsp : s = p
    · simp [putsTo, answersOf, hsp, hsp ▸ hqs]
    · simp [putsTo, answersOf, hsp, hqs]

end PutGet

/-- Whatever the memories hold, the put of `p` stores its bytes at `a`. -/
def PutAt (n : ℕ) (w : World) (p q base : ℕ) (offset : ℤ) (nbytes a : ℕ) : Prop :=
  ∀ f src, ∃ w', superstep n (alone f p (.put q src base offset nbytes)) w = some w' ∧
    (w' q).mem = store (f q (w q).mem) a (load (f p (w p).mem) src nbytes)

def GetAt (n : ℕ) (w : World) (p q base : ℕ) (offset : ℤ) (nbytes a : ℕ) : Prop :=
  ∀ f dst, ∃ w', superstep n (alone f p (.get q base offset dst nbytes)) w = some w' ∧
    (w' p).mem = store (f p (w p).mem) dst (load (f q (w q).mem) a nbytes)

def RoundTrip (n : ℕ) (w : World) (p q base : ℕ) (offset : ℤ) (nbytes : ℕ) : Prop :=
  ∀ f src dst, ∃ v w', superstep n (alone f p (.put q src base offset nbytes)) w = some v ∧
    superstep n (alone (fun _ => id) p (.get q base offset dst nbytes)) v = some w' ∧
    load (w' p).mem dst nbytes = load (f p (w p).mem) src nbytes

structure SameBytes (n : ℕ) (w : World) (p q base : ℕ) (offset : ℤ) (nbytes : ℕ) : Prop where
  range : ∃ a, PutAt n w p q base offset nbytes a ∧ GetAt n w p q base offset nbytes a
  roundTrip : RoundTrip n w p q base offset nbytes

section Ranges

theorem address_of_store {a b n : ℕ} (hn : n ≠ 0)
    (h : ∀ (m : Mem) (src : ℕ), store m a (load m src n) = store m b (load m src n)) : a = b := by
  -- bytes 1 beyond both ranges, in a memory of zeros
  let m : Mem := fun x => if a + n + b ≤ x then 1 else 0
  have hbytes : ∀ i < n, (load m (a + n + b) n)[i]? = some 1 := by
    intro i hi
    rw [load_getElem? m hi]
    exact congrArg some (if_pos (Nat.le_add_right _ i))
  have hstore := h m (a + n + b)
  have hone : ∀ c, c ≤ a + b → store m c (load m (a + n + b) n) c = 1 := by
    intro c _
    have hlen : c - c < (load m (a + n + b) n).length := by
      rw [load_length]
      omega
    rw [store_of_mem m le_rfl hlen, ← Option.some_inj, ← List.getElem?_eq_getElem]
    exact hbytes _ (by omega)
  have hzero : ∀ c x, x < c ∨ c + n ≤ x → x ≤ a + b → store m c (load m (a + n + b) n) x = 0 := by
    intro c x hx hle
    rw [store_of_outside m _ (by rwa [load_length])]
    exact if_neg (by omega)
  rcases Nat.lt_trichotomy a b with hab | hab | hab
  · have h1 := hone a (by omega)
    rw [hstore, hzero b a (.inl hab) (by omega)] at h1
    exact absurd h1 (by decide)
  · exact hab
  · have h1 := hone b (by omega)
    rw [← hstore, hzero a b (.inl hab) (by omega)] at h1
    exact absurd h1 (by decide)

theorem address_of_load {a b n : ℕ} (hn : n ≠ 0) (h : ∀ m : Mem, load m a n = load m b n) :
    a = b := by
  have hload := load_eq_iff.mp (h fun x => if x = a then 1 else 0) 0 (by omega)
  simp only [Nat.add_zero, if_true] at hload
  by_contra hab
  rw [if_neg (Ne.symm hab)] at hload
  exact absurd hload (by decide)

theorem addOffset_toInt32 {a : ℕ} {k : ℤ} (ha : 0 ≤ (a : ℤ) + k)
    (h : addOffset a k = addOffset a (toInt32 k)) : toInt32 k = k := by
  have hrange := toInt32_range k
  have hmod : (2 ^ 32 : ℤ) ∣ k - toInt32 k := Int.dvd_self_sub_bmod
  rw [addOffset, addOffset] at h
  omega

end Ranges

section Main

variable {n : ℕ} {rows : ℕ → List Row} {tagSize : ℕ → ℕ} {w : World} {p q base nbytes : ℕ}
  {offset : ℤ} {r : Row}

theorem same_of_int (h : Clean n rows tagSize w) (hp : p < n) (hq : q < n)
    (hsize : nbytes < 2 ^ 31) (hr : lastRow (rows p) p base = some r)
    (haddr : nbytes = 0 ∨ toInt32 offset = offset) : SameBytes n w p q base offset nbytes := by
  have hload : ∀ m : Mem, load m (addOffset (r q) (toInt32 offset)) nbytes =
      load m (addOffset (r q) offset) nbytes := by
    intro m
    rcases haddr with hzero | heq
    · rw [hzero, load_zero, load_zero]
    · rw [heq]
  refine ⟨⟨addOffset (r q) offset, fun f src => ?_, fun f dst => ?_⟩, fun f src dst => ?_⟩
  · obtain ⟨w', hw', -, hmem⟩ := put_alone offset h hp hq hsize hr f src
    exact ⟨w', hw', hmem⟩
  · obtain ⟨w', hw', hmem⟩ := get_alone offset h hp hq hsize hr f dst
    rw [hload] at hmem
    exact ⟨w', hw', hmem⟩
  · obtain ⟨v, hv, ⟨tagSize', hclean⟩, hput⟩ :=
      put_alone offset h hp hq hsize hr f src
    obtain ⟨w', hw', hget⟩ := get_alone offset hclean hp hq hsize hr (fun _ => id) dst
    refine ⟨v, w', hv, hw', ?_⟩
    have hbytes : load (v q).mem (addOffset (r q) offset) nbytes =
        load (f p (w p).mem) src nbytes := by
      rw [hput]
      have hsame := load_store_same (f q (w q).mem) (addOffset (r q) offset)
        (load (f p (w p).mem) src nbytes)
      rwa [load_length] at hsame
    have hsame := load_store_same (v p).mem dst (load (v q).mem (addOffset (r q) offset) nbytes)
    rw [load_length] at hsame
    rw [hget, id, id, hload, hsame, hbytes]

theorem int_of_same (h : Clean n rows tagSize w) (hp : p < n) (hq : q < n)
    (hsize : nbytes < 2 ^ 31) (hr : lastRow (rows p) p base = some r)
    (haddr : 0 ≤ (r q : ℤ) + offset) (hsame : SameBytes n w p q base offset nbytes) :
    nbytes = 0 ∨ toInt32 offset = offset := by
  by_cases hzero : nbytes = 0
  · exact .inl hzero
  obtain ⟨a, hput, hget⟩ := hsame.range
  have hwrite : a = addOffset (r q) offset := by
    apply address_of_store hzero
    intro m src
    obtain ⟨w', hw', hmem⟩ := hput (fun _ _ => m) src
    obtain ⟨v', hv', -, hspec⟩ := put_alone offset h hp hq hsize hr (fun _ _ => m) src
    cases hw'.symm.trans hv'
    exact hmem.symm.trans hspec
  have hread : a = addOffset (r q) (toInt32 offset) := by
    apply address_of_load hzero
    intro m
    obtain ⟨w', hw', hmem⟩ := hget (fun _ _ => m) 0
    obtain ⟨v', hv', hspec⟩ := get_alone offset h hp hq hsize hr (fun _ _ => m) 0
    cases hw'.symm.trans hv'
    have hloads := congrArg (fun mem => load mem 0 nbytes) (hmem.symm.trans hspec)
    have h1 := load_store_same m 0 (load m a nbytes)
    have h2 := load_store_same m 0 (load m (addOffset (r q) (toInt32 offset)) nbytes)
    rw [load_length] at h1 h2
    simp only [h1, h2] at hloads
    exact hloads
  exact .inr (addOffset_toInt32 haddr (hwrite.symm.trans hread))

/-- In every run, put and get address the same bytes exactly when the offset fits in an `int`. -/
theorem same_bytes_iff (h : AnyOffset n rows tagSize w) (hp : p < n) (hq : q < n)
    (hsize : nbytes < 2 ^ 31) (hr : lastRow (rows p) p base = some r)
    (haddr : 0 ≤ (r q : ℤ) + offset) :
    SameBytes n w p q base offset nbytes ↔
      nbytes = 0 ∨ (-2 ^ 31 ≤ offset ∧ offset < 2 ^ 31) := by
  have hclean := reachable_clean (anyOffset_reachable h)
  rw [← toInt32_eq_iff]
  constructor
  · exact int_of_same hclean hp hq hsize hr haddr
  · exact same_of_int hclean hp hq hsize hr

theorem register_anyOffset : ∃ w, superstep 2 Drma.registerOps (startWorld 2) = some w ∧
    AnyOffset 2 (fun _ => [Drma.registeredRow]) (fun _ => 0) w := by
  obtain ⟨w, hs, -⟩ := Drma.register_reachable (fun _ => True) trivial
  exact ⟨w, hs, .step (.init _ _ _ _) Drma.register_admissible hs⟩

theorem same_bytes_five : ∃ w, superstep 2 Drma.registerOps (startWorld 2) = some w ∧
    (SameBytes 2 w 0 1 100 5 1 ↔ 1 = 0 ∨ ((-2 : ℤ) ^ 31 ≤ 5 ∧ (5 : ℤ) < 2 ^ 31)) := by
  obtain ⟨w, hs, hr⟩ := register_anyOffset
  exact ⟨w, hs, same_bytes_iff hr (by decide) (by decide) (by decide)
    (rfl : lastRow [Drma.registeredRow] 0 100 = some Drma.registeredRow) (by decide)⟩

/-- The get of the byte at offset 2^32 reads the byte at offset 0. -/
theorem different_bytes : ∃ w, superstep 2 Drma.registerOps (startWorld 2) = some w ∧
    AnyOffset 2 (fun _ => [Drma.registeredRow]) (fun _ => 0) w ∧
    lastRow [Drma.registeredRow] 0 100 = some Drma.registeredRow ∧
    ¬ SameBytes 2 w 0 1 100 (2 ^ 32) 1 := by
  obtain ⟨w, hs, hr⟩ := register_anyOffset
  refine ⟨w, hs, hr, rfl, fun hsame => ?_⟩
  have hclean := reachable_clean (anyOffset_reachable hr)
  have hint := int_of_same hclean (by decide) (by decide) (by decide)
    (rfl : lastRow [Drma.registeredRow] 0 100 = some Drma.registeredRow) (by decide) hsame
  revert hint
  decide

end Main

end BspOnMpi.DrmaOffsets
