import BspOnMpi.ContextRegister
import BspOnMpi.Lib.Transfers

/-! Remote memory access between contexts. The puts and gets of a superstep of contexts. Those
within a node are taken one after the other, before anything is exchanged, so that a get can see
what they have written. -/

namespace BspOnMpi.ContextDrma
open Lib Slots Memreg Machine Calls Mapper ContextMemreg LocalDelivery Contexts ContextLog
  ContextSync
  ContextSuperstep ContextProgram ContextRegister
open Bspx hiding exec

section Calls

variable (processors nnodes : ℕ)

def target (p : ℕ) : ContextCall → Option (ℕ × ℕ × ℕ)
  | .put pid dst bytes => some (nodeOf processors nnodes pid, dst, bytes.length)
  | .get _ _ _ dst size => some (p, dst, size)
  | _ => none

def Separate (p : ℕ) (e : ContextCall) (p' : ℕ) (f : ContextCall) : Prop :=
  ∀ r ∈ target processors nnodes p e, ∀ s ∈ target processors nnodes p' f, r.1 = s.1 → Apart r.2 s.2

structure DisjointTargets (logs : ℕ → List (ℕ × ContextCall)) : Prop where
  same : ∀ p < nnodes, (logs p).Pairwise fun e f => Separate processors nnodes p e.2 p f.2
  other : ∀ p < nnodes, ∀ p' < nnodes, p ≠ p' → ∀ e ∈ logs p, ∀ f ∈ logs p',
    Separate processors nnodes p e.2 p' f.2

/-- Every put has arrived, every get has the bytes at the entry of `bsp_sync`, and all other
bytes are as they were. -/
structure Delivered (logs : ℕ → List (ℕ × ContextCall)) (entry final : ℕ → Mem) : Prop where
  puts : ∀ p < nnodes, ∀ e ∈ logs p, ∀ pid dst bytes, e.2 = .put pid dst bytes →
    load (final (nodeOf processors nnodes pid)) dst bytes.length = bytes
  gets : ∀ p < nnodes, ∀ e ∈ logs p, ∀ pid src offset dst size, e.2 = .get pid src offset dst size →
    load (final p) dst size =
      load (entry (nodeOf processors nnodes pid)) (addOffset src offset) size
  frame : ∀ q < nnodes, ∀ x, (∀ p < nnodes, ∀ e ∈ logs p, ∀ r ∈ target processors nnodes p e.2,
    r.1 = q → ¬ (r.2.1 ≤ x ∧ x < r.2.1 + r.2.2)) → final q x = entry q x

def contextTransfers (log : List (ℕ × ContextCall)) (q lp : ℕ) : List (Transfer UInt8) :=
  (log.filterMap (localGet processors nnodes q lp)).map (fun d => .copy d.src d.dst d.nbytes) ++
    (log.filterMap (localPut processors nnodes q lp)).map fun w => .write w.1 w.2

def localTransfers (logs : ℕ → List (ℕ × ContextCall)) (q : ℕ) : List (Transfer UInt8) :=
  (List.range (contextsOn processors nnodes q)).flatMap
    (contextTransfers processors nnodes (logs q) q)

/-- No get reads what a local delivery before it is to change. -/
structure Unaffected (logs : ℕ → List (ℕ × ContextCall)) (entry : ℕ → Mem) : Prop where
  own : ∀ q < nnodes, Undisturbed (entry q) (localTransfers processors nnodes logs q)
  other : ∀ p < nnodes, ∀ e ∈ logs p, ∀ pid src offset dst size,
    e.2 = .get pid src offset dst size → nodeOf processors nnodes pid ≠ p →
    ∀ t ∈ localTransfers processors nnodes logs (nodeOf processors nnodes pid),
      (Transfer.copy (addOffset src offset) dst size).Spared (entry (nodeOf processors nnodes pid))
        (t.stores (entry (nodeOf processors nnodes pid)))

end Calls

section Stores

variable {processors nnodes : ℕ} {logs : ℕ → List (ℕ × ContextCall)} {q : ℕ}

theorem transferAll_context (log : List (ℕ × ContextCall)) (q lp : ℕ) (mem : Mem) :
    transferAll mem (contextTransfers processors nnodes log q lp) =
      writeAll (copyAll mem (log.filterMap (localGet processors nnodes q lp)))
        (log.filterMap (localPut processors nnodes q lp)) := by
  rw [contextTransfers, transferAll_append, transferAll, transferAll, List.foldl_map,
    List.foldl_map]
  rfl

theorem memLocal_transfers (v : ℕ → Node) (q : ℕ) : memLocal processors nnodes logs v q =
    transferAll (v q).proc.mem (localTransfers processors nnodes logs q) := by
  rw [memLocal, localTransfers, transferAll, List.foldl_flatMap]
  have hstep : ∀ (lps : List ℕ) (mem : Mem), lps.foldl (fun mem lp => writeAll
      (copyAll mem ((logs q).filterMap (localGet processors nnodes q lp)))
      ((logs q).filterMap (localPut processors nnodes q lp))) mem =
        lps.foldl (fun mem lp => (contextTransfers processors nnodes (logs q) q lp).foldl
          Transfer.apply mem) mem := by
    intro lps
    induction lps with
    | nil => exact fun _ => rfl
    | cons lp lps ih =>
      intro mem
      rw [List.foldl_cons, List.foldl_cons, ih, ← transferAll_context]
      rfl
  exact hstep _ _

/-- Which calls a store of node `q` comes from: gets and puts of its context `lp` within the
node, puts of node `p`, and its gets from node `p`. -/
inductive Source
  | ownGet (lp : ℕ)
  | ownPut (lp : ℕ)
  | otherPut (p : ℕ)
  | otherGet (p : ℕ)

def Source.caller (q : ℕ) : Source → ℕ
  | .otherPut p => p
  | _ => q

def Source.store (processors nnodes q : ℕ) (own : Mem) (other : ℕ → Mem) (s : Source)
    (e : ℕ × ContextCall) : Option (ℕ × List UInt8) :=
  match s, e.2 with
  | .ownGet lp, .get pid src offset dst size =>
    if nodeOf processors nnodes pid = q ∧ e.1 = lp then
      some (dst, load own (addOffset src offset) size)
    else none
  | .ownPut lp, .put pid dst bytes =>
    if nodeOf processors nnodes pid = q ∧ e.1 = lp then some (dst, bytes) else none
  | .otherPut p, .put pid dst bytes =>
    if nodeOf processors nnodes pid ≠ p ∧ nodeOf processors nnodes pid = q then some (dst, bytes)
    else none
  | .otherGet p, .get pid src offset dst size =>
    if nodeOf processors nnodes pid ≠ q ∧ nodeOf processors nnodes pid = p then
      some (dst, load (other p) (addOffset src offset) size)
    else none
  | _, _ => none

def storesOf (processors nnodes : ℕ) (logs : ℕ → List (ℕ × ContextCall)) (q : ℕ) (own : Mem)
    (other : ℕ → Mem) (ss : List Source) : List (ℕ × List UInt8) :=
  ss.flatMap fun s => (logs (s.caller q)).filterMap (s.store processors nnodes q own other)

def ownSources (n : ℕ) : List Source := (List.range n).flatMap fun lp => [.ownGet lp, .ownPut lp]

def otherSources (n : ℕ) : List Source := (List.range n).flatMap fun p => [.otherPut p, .otherGet p]

variable {own : Mem} {other : ℕ → Mem} {s s' : Source} {e : ℕ × ContextCall} {x x' : ℕ × List UInt8}

theorem store_target (h : s.store processors nnodes q own other e = some x) :
    target processors nnodes (s.caller q) e.2 = some (q, reach x) := by
  obtain ⟨l, call⟩ := e
  cases s <;> cases call <;>
    simp only [Source.store, Option.ite_none_right_eq_some, Option.some.injEq, reduceCtorEq] at h
  all_goals
    obtain ⟨⟨h1, h2⟩, rfl⟩ := h
    simp [target, Source.caller, reach, h1, h2]

theorem store_unique (hcaller : s.caller q = s'.caller q)
    (h : s.store processors nnodes q own other e = some x)
    (h' : s'.store processors nnodes q own other e = some x') : s = s' := by
  obtain ⟨l, call⟩ := e
  cases s <;> cases call <;>
    simp only [Source.store, Option.ite_none_right_eq_some, Option.some.injEq, reduceCtorEq] at h
  all_goals
    cases s' <;>
      simp only [Source.store, Option.ite_none_right_eq_some, Option.some.injEq, reduceCtorEq] at h'
  all_goals
    obtain ⟨⟨h1, h2⟩, -⟩ := h
    obtain ⟨⟨h1', h2'⟩, -⟩ := h'
    simp only [Source.caller] at hcaller
    simp_all

theorem sources_nodup (m n : ℕ) : (ownSources m ++ otherSources n).Nodup := by
  rw [List.nodup_append, ownSources, otherSources, List.nodup_flatMap, List.nodup_flatMap]
  refine ⟨⟨fun lp _ => by simp, ?_⟩, ⟨fun p _ => by simp, ?_⟩, fun s hs t ht => ?_⟩
  · refine List.nodup_range.imp fun {lp lp'} hne => ?_
    simp [Function.onFun, Ne.symm hne]
  · refine List.nodup_range.imp fun {p p'} hne => ?_
    simp [Function.onFun, Ne.symm hne]
  · obtain ⟨lp, -, hlp⟩ := List.mem_flatMap.mp hs
    obtain ⟨p, -, hp⟩ := List.mem_flatMap.mp ht
    simp only [List.mem_cons, List.not_mem_nil, or_false] at hlp hp
    rcases hlp with rfl | rfl <;> rcases hp with rfl | rfl <;> simp

theorem mem_storesOf {ss : List Source} (h : x ∈ storesOf processors nnodes logs q own other ss) :
    ∃ s ∈ ss, ∃ e ∈ logs (s.caller q), s.store processors nnodes q own other e = some x := by
  obtain ⟨s, hs, hx⟩ := List.mem_flatMap.mp h
  obtain ⟨e, he, hstore⟩ := List.mem_filterMap.mp hx
  exact ⟨s, hs, e, he, hstore⟩

theorem storesOf_scattered (hd : DisjointTargets processors nnodes logs) {ss : List Source}
    (hss : ss.Nodup) (hcaller : ∀ s ∈ ss, s.caller q < nnodes) :
    Scattered (storesOf processors nnodes logs q own other ss) := by
  have hapart : ∀ {s s' : Source} {e f : ℕ × ContextCall} {x y : ℕ × List UInt8},
      Separate processors nnodes (s.caller q) e.2 (s'.caller q) f.2 →
      s.store processors nnodes q own other e = some x →
      s'.store processors nnodes q own other f = some y → Apart (reach x) (reach y) :=
    fun hsep hx hy => hsep _ (store_target hx) _ (store_target hy) rfl
  rw [Scattered, storesOf, List.pairwise_flatMap]
  refine ⟨fun s hs => ?_, ?_⟩
  · exact (hd.same _ (hcaller s hs)).filterMap (s.store processors nnodes q own other)
      fun e f hsep x hx y hy => hapart hsep hx hy
  · refine hss.imp_of_mem fun {s s'} hs hs' hne x hx y hy => ?_
    obtain ⟨e, he, hstore⟩ := List.mem_filterMap.mp hx
    obtain ⟨f, hf, hstore'⟩ := List.mem_filterMap.mp hy
    refine hapart ?_ hstore hstore'
    by_cases heq : s.caller q = s'.caller q
    · have hef : e ≠ f := by
        rintro rfl
        exact hne (store_unique heq hstore hstore')
      have hsymm : Std.Symm fun e f : ℕ × ContextCall =>
          Separate processors nnodes (s.caller q) e.2 (s.caller q) f.2 :=
        ⟨fun _ _ h r hr t ht hrt => (h t ht r hr hrt.symm).symm⟩
      rw [← heq] at hf ⊢
      exact (hd.same _ (hcaller s hs)).forall he hf hef
    · exact hd.other _ (hcaller s hs) _ (hcaller s' hs') heq e he f hf

theorem stores_localTransfers (entry : Mem) (other : ℕ → Mem) :
    (localTransfers processors nnodes logs q).map (Transfer.stores entry) =
      storesOf processors nnodes logs q entry other
        (ownSources (contextsOn processors nnodes q)) := by
  rw [localTransfers, storesOf, ownSources, List.map_flatMap, List.flatMap_assoc]
  congr 1
  funext lp
  simp only [contextTransfers, List.map_append, List.map_filterMap, Option.map_map,
    List.flatMap_cons, List.flatMap_nil, List.append_nil]
  congr 2
  · funext e
    obtain ⟨l, call⟩ := e
    cases call <;> simp only [localGet, Source.store] <;> (try split) <;> rfl
  · funext e
    obtain ⟨l, call⟩ := e
    cases call <;> simp only [localPut, Source.store] <;> (try split) <;> rfl

theorem writesTo_nodeCalls (own : Mem) (other : ℕ → Mem) :
    writesTo nnodes (fun p => nodeCalls processors nnodes p (logs p)) other q =
      storesOf processors nnodes logs q own other (otherSources nnodes) := by
  rw [writesTo, storesOf, otherSources, List.flatMap_assoc]
  congr 1
  funext p
  simp only [putsTo, answersOf, nodeCalls, List.filterMap_filterMap, List.flatMap_cons,
    List.flatMap_nil, List.append_nil]
  congr 2
  · funext e
    obtain ⟨l, call⟩ := e
    cases call with
    | put pid dst bytes =>
      by_cases hp : nodeOf processors nnodes pid = p <;> simp [nodeCall, Source.store, hp]
    | get pid | send pid | hpsend pid =>
      by_cases hp : nodeOf processors nnodes pid = p <;> simp [nodeCall, Source.store, hp]
    | setTagsize => rfl
  · funext e
    obtain ⟨l, call⟩ := e
    cases call with
    | get pid =>
      by_cases hq : nodeOf processors nnodes pid = q <;> simp [nodeCall, Source.store, hq]
    | put pid | send pid | hpsend pid =>
      by_cases hq : nodeOf processors nnodes pid = q <;> simp [nodeCall, Source.store, hq]
    | setTagsize => rfl

end Stores

section Delivery

variable {processors nnodes : ℕ} {logs : ℕ → List (ℕ × ContextCall)} {v : ℕ → Node}
  {final : ℕ → Mem}
  {q : ℕ}

theorem mem_localTransfers {t : Transfer UInt8} : t ∈ localTransfers processors nnodes logs q ↔
    ∃ e ∈ logs q, e.1 < contextsOn processors nnodes q ∧
      ((∃ pid src offset dst size, e.2 = .get pid src offset dst size ∧
          nodeOf processors nnodes pid = q ∧ t = .copy (addOffset src offset) dst size) ∨
        ∃ pid dst bytes, e.2 = .put pid dst bytes ∧ nodeOf processors nnodes pid = q ∧
          t = .write dst bytes) := by
  simp only [localTransfers, contextTransfers, List.mem_flatMap, List.mem_range, List.mem_append,
    List.mem_map, List.mem_filterMap]
  constructor
  · rintro ⟨lp, hlp, ⟨d, ⟨⟨l, call⟩, he, hd⟩, rfl⟩ | ⟨w, ⟨⟨l, call⟩, he, hw⟩, rfl⟩⟩
    · cases call <;>
        simp only [localGet, Option.ite_none_right_eq_some, Option.some.injEq, reduceCtorEq] at hd
      obtain ⟨⟨hq, rfl⟩, rfl⟩ := hd
      exact ⟨_, he, hlp, .inl ⟨_, _, _, _, _, rfl, hq, rfl⟩⟩
    · cases call <;>
        simp only [localPut, Option.ite_none_right_eq_some, Option.some.injEq, reduceCtorEq] at hw
      obtain ⟨⟨hq, rfl⟩, rfl⟩ := hw
      exact ⟨_, he, hlp, .inr ⟨_, _, _, rfl, hq, rfl⟩⟩
  · rintro ⟨⟨l, call⟩, he, hlp, ⟨pid, src, offset, dst, size, rfl, hq, rfl⟩ |
      ⟨pid, dst, bytes, rfl, hq, rfl⟩⟩
    · exact ⟨l, hlp, .inl ⟨_, ⟨_, he, if_pos ⟨hq, rfl⟩⟩, rfl⟩⟩
    · exact ⟨l, hlp, .inr ⟨_, ⟨_, he, if_pos ⟨hq, rfl⟩⟩, rfl⟩⟩

def Addressed (processors nnodes : ℕ) (logs : ℕ → List (ℕ × ContextCall)) : Prop :=
  ∀ p < nnodes, ∀ e ∈ logs p, e.1 < contextsOn processors nnodes p ∧
    match e.2 with
    | .put pid _ _ | .get pid _ _ _ _ => nodeOf processors nnodes pid < nnodes
    | _ => True

theorem caller_lt (hq : q < nnodes) (n : ℕ) :
    ∀ s ∈ ownSources n ++ otherSources nnodes, s.caller q < nnodes := by
  intro s hs
  rcases List.mem_append.mp hs with hs | hs
  · obtain ⟨lp, -, hlp⟩ := List.mem_flatMap.mp hs
    simp only [List.mem_cons, List.not_mem_nil, or_false] at hlp
    rcases hlp with rfl | rfl <;> exact hq
  · obtain ⟨p, hp, hs⟩ := List.mem_flatMap.mp hs
    simp only [List.mem_cons, List.not_mem_nil, or_false] at hs
    rcases hs with rfl | rfl
    · exact List.mem_range.mp hp
    · exact hq

theorem node_stores (v : ℕ → Node) (q : ℕ) :
    (localTransfers processors nnodes logs q).map (Transfer.stores (v q).proc.mem) ++
      writesTo nnodes (fun p => nodeCalls processors nnodes p (logs p))
        (memLocal processors nnodes logs v) q =
    storesOf processors nnodes logs q (v q).proc.mem (memLocal processors nnodes logs v)
      (ownSources (contextsOn processors nnodes q) ++ otherSources nnodes) := by
  rw [stores_localTransfers _ (memLocal processors nnodes logs v),
    writesTo_nodeCalls (v q).proc.mem, storesOf, storesOf, storesOf, List.flatMap_append]

theorem put_written {p pid dst : ℕ} {bytes : List UInt8} {e : ℕ × ContextCall} (hp : p < nnodes)
    (he : e ∈ logs p) (hcall : e.2 = .put pid dst bytes) (hne : nodeOf processors nnodes pid ≠ p)
    (mem : ℕ → Mem) :
    (dst, bytes) ∈ writesTo nnodes (fun p => nodeCalls processors nnodes p (logs p))
      mem (nodeOf processors nnodes pid) := by
  have hnode : Call.put (nodeOf processors nnodes pid) dst bytes ∈
      nodeCalls processors nnodes p (logs p) :=
    List.mem_filterMap.mpr ⟨e, he, by simp [hcall, nodeCall, hne]⟩
  exact List.mem_flatMap.mpr ⟨p, List.mem_range.mpr hp,
    List.mem_append_left _ (List.mem_filterMap.mpr ⟨_, hnode, if_pos rfl⟩)⟩

theorem get_written {pid src dst size : ℕ} {offset : ℤ} {e : ℕ × ContextCall}
    (hpid : nodeOf processors nnodes pid < nnodes) (he : e ∈ logs q)
    (hcall : e.2 = .get pid src offset dst size) (hne : nodeOf processors nnodes pid ≠ q)
    (mem : ℕ → Mem) : (dst, load (mem (nodeOf processors nnodes pid)) (addOffset src offset) size) ∈
      writesTo nnodes (fun p => nodeCalls processors nnodes p (logs p)) mem q := by
  have hnode : Call.get (nodeOf processors nnodes pid) src offset dst size ∈
      nodeCalls processors nnodes q (logs q) :=
    List.mem_filterMap.mpr ⟨e, he, by simp [hcall, nodeCall, hne]⟩
  exact List.mem_flatMap.mpr ⟨_, List.mem_range.mpr hpid,
    List.mem_append_right _ (List.mem_filterMap.mpr ⟨_, hnode, if_pos rfl⟩)⟩

variable (hd : DisjointTargets processors nnodes logs) (ha : Addressed processors nnodes logs)
  (hfinal : ∀ q < nnodes,
    final q = memAfter nnodes (fun p => nodeCalls processors nnodes p (logs p))
    (memLocal processors nnodes logs v) q)

include hd in
theorem parts_scattered (v : ℕ → Node) (hq : q < nnodes) :
    let ts := localTransfers processors nnodes logs q
    let ws := writesTo nnodes (fun p => nodeCalls processors nnodes p (logs p))
      (memLocal processors nnodes logs v) q
    Scattered (ts.map (Transfer.stores (v q).proc.mem)) ∧ Scattered ws ∧
      ∀ t ∈ ts, ∀ w ∈ ws, Apart (reach w) (reach (t.stores (v q).proc.mem)) := by
  intro ts ws
  have hall : Scattered (storesOf processors nnodes logs q (v q).proc.mem
      (memLocal processors nnodes logs v)
      (ownSources (contextsOn processors nnodes q) ++ otherSources nnodes)) :=
    storesOf_scattered hd (sources_nodup _ _) (caller_lt hq _)
  rw [← node_stores, Scattered, List.pairwise_append] at hall
  obtain ⟨hown, hother, hcross⟩ := hall
  exact ⟨hown, hother, fun t ht w hw => (hcross _ (List.mem_map_of_mem ht) w hw).symm⟩

include hfinal in
theorem final_frame (hq : q < nnodes) {x : ℕ} (hx : ∀ p < nnodes, ∀ e ∈ logs p,
    ∀ r ∈ target processors nnodes p e.2, r.1 = q → ¬ (r.2.1 ≤ x ∧ x < r.2.1 + r.2.2)) :
    final q x = (v q).proc.mem x := by
  have hout : ∀ w ∈ storesOf processors nnodes logs q (v q).proc.mem
      (memLocal processors nnodes logs v)
      (ownSources (contextsOn processors nnodes q) ++ otherSources nnodes),
      ¬ (w.1 ≤ x ∧ x < w.1 + w.2.length) := by
    intro w hw
    obtain ⟨s, hs, e, he, hstore⟩ := mem_storesOf hw
    exact hx _ (caller_lt hq _ s hs) e he _ (store_target hstore) rfl
  rw [← node_stores] at hout
  rw [hfinal q hq, memAfter, writeAll_of_outside, memLocal_transfers, transferAll_of_outside]
  · exact fun t ht => hout _ (List.mem_append_left _ (List.mem_map_of_mem ht))
  · intro w hw
    have hw' := hout w (List.mem_append_right _ hw)
    omega

include hd ha hfinal

theorem delivered_transfers : Delivered processors nnodes logs (fun q => (v q).proc.mem) final ↔
    (∀ q < nnodes, Simultaneous (v q).proc.mem (final q)
      (localTransfers processors nnodes logs q)) ∧
    ∀ p < nnodes, ∀ e ∈ logs p, ∀ pid src offset dst size, e.2 = .get pid src offset dst size →
      nodeOf processors nnodes pid ≠ p →
      load (memLocal processors nnodes logs v (nodeOf processors nnodes pid))
        (addOffset src offset) size =
        load (v (nodeOf processors nnodes pid)).proc.mem (addOffset src offset) size := by
  have hremote : ∀ q < nnodes,
    ∀ w ∈ writesTo nnodes (fun p => nodeCalls processors nnodes p (logs p))
      (memLocal processors nnodes logs v) q, load (final q) w.1 w.2.length = w.2 := by
    intro q hq w hw
    rw [hfinal q hq]
    exact load_writeAll_mem (parts_scattered hd v hq).2.1 hw
  have hpid : ∀ p < nnodes, ∀ e ∈ logs p, ∀ pid src offset dst size,
      e.2 = .get pid src offset dst size → nodeOf processors nnodes pid < nnodes := by
    intro p hp e he pid src offset dst size hcall
    have haddr := (ha p hp e he).2
    rw [hcall] at haddr
    exact haddr
  have hanswer : ∀ p < nnodes, ∀ e ∈ logs p, ∀ pid src offset dst size,
      e.2 = .get pid src offset dst size → nodeOf processors nnodes pid ≠ p →
      load (final p) dst size =
        load (memLocal processors nnodes logs v (nodeOf processors nnodes pid))
        (addOffset src offset) size := by
    intro p hp e he pid src offset dst size hcall hne
    have hload := hremote p hp _ (get_written (hpid p hp e he _ _ _ _ _ hcall) he hcall hne
      (memLocal processors nnodes logs v))
    simpa using hload
  constructor
  · intro h
    refine ⟨fun q hq t ht => ?_, fun p hp e he pid src offset dst size hcall hne => ?_⟩
    · obtain ⟨e, he, -, ⟨pid, src, offset, dst, size, hcall, hnode, rfl⟩ |
        ⟨pid, dst, bytes, hcall, hnode, rfl⟩⟩ := mem_localTransfers.mp ht
      · have hget := h.gets q hq e he pid src offset dst size hcall
        rw [hnode] at hget
        simpa [Transfer.stores] using hget
      · have hput := h.puts q hq e he pid dst bytes hcall
        rwa [hnode] at hput
    · rw [← hanswer p hp e he pid src offset dst size hcall hne]
      exact h.gets p hp e he pid src offset dst size hcall
  · rintro ⟨hlocal, hsource⟩
    refine ⟨fun p hp e he pid dst bytes hcall => ?_,
      fun p hp e he pid src offset dst size hcall => ?_, fun q hq x hx => final_frame hfinal hq hx⟩
    · by_cases hnode : nodeOf processors nnodes pid = p
      · rw [hnode]
        exact hlocal p hp _ (mem_localTransfers.mpr
          ⟨e, he, (ha p hp e he).1, .inr ⟨pid, dst, bytes, hcall, hnode, rfl⟩⟩)
      · have haddr := (ha p hp e he).2
        rw [hcall] at haddr
        exact hremote _ haddr _ (put_written hp he hcall hnode _)
    · by_cases hnode : nodeOf processors nnodes pid = p
      · have hget := hlocal p hp _ (mem_localTransfers.mpr
          ⟨e, he, (ha p hp e he).1, .inl ⟨pid, src, offset, dst, size, hcall, hnode, rfl⟩⟩)
        rw [hnode]
        simpa [Transfer.stores] using hget
      · rw [hanswer p hp e he pid src offset dst size hcall hnode]
        exact hsource p hp e he pid src offset dst size hcall hnode

theorem delivered_iff : Delivered processors nnodes logs (fun q => (v q).proc.mem) final ↔
    Unaffected processors nnodes logs fun q => (v q).proc.mem := by
  have hown : ∀ q < nnodes,
      Simultaneous (v q).proc.mem (final q) (localTransfers processors nnodes logs q) ↔
        Undisturbed (v q).proc.mem (localTransfers processors nnodes logs q) := by
    intro q hq
    obtain ⟨hts, -, hcross⟩ := parts_scattered hd v hq
    rw [hfinal q hq, memAfter, simultaneous_writeAll hcross, memLocal_transfers,
      simultaneous_iff hts]
  rw [delivered_transfers hd ha hfinal]
  have hother : (∀ q < nnodes,
    Undisturbed (v q).proc.mem (localTransfers processors nnodes logs q)) →
      ∀ p < nnodes, ∀ e ∈ logs p, ∀ pid src offset dst size, e.2 = .get pid src offset dst size →
      (load (memLocal processors nnodes logs v (nodeOf processors nnodes pid))
        (addOffset src offset) size =
        load (v (nodeOf processors nnodes pid)).proc.mem (addOffset src offset) size ↔
      ∀ t ∈ localTransfers processors nnodes logs (nodeOf processors nnodes pid),
        (Transfer.copy (addOffset src offset) dst size).Spared
          (v (nodeOf processors nnodes pid)).proc.mem
          (t.stores (v (nodeOf processors nnodes pid)).proc.mem)) := by
    intro hun p hp e he pid src offset dst size hcall
    have haddr := (ha p hp e he).2
    rw [hcall] at haddr
    have hts := (parts_scattered hd v haddr).1
    rw [memLocal_transfers, transferAll_undisturbed hts (hun _ haddr), load_writeAll_iff hts,
      List.forall_mem_map]
    rfl
  constructor
  · rintro ⟨hlocal, hsource⟩
    have hun := fun (q : ℕ) (hq : q < nnodes) => (hown q hq).mp (hlocal q hq)
    refine ⟨hun, fun p hp e he pid src offset dst size hcall hne => ?_⟩
    exact (hother hun p hp e he pid src offset dst size hcall).mp
      (hsource p hp e he pid src offset dst size hcall hne)
  · intro h
    refine ⟨fun q hq => (hown q hq).mpr (h.own q hq),
      fun p hp e he pid src offset dst size hcall hne => ?_⟩
    exact (hother h.own p hp e he pid src offset dst size hcall).mpr
      (h.other p hp e he pid src offset dst size hcall hne)

end Delivery

section Superstep

variable {processors nnodes : ℕ} {tagSize : ℕ → ℕ} {w : ℕ → Node} {ops : ℕ → List (ℕ × ContextOp)}

theorem sound_addressed (hm : Mapped processors nnodes) {logs : ℕ → List (ℕ × ContextCall)}
    (h : ∀ p < nnodes, ∀ c ∈ logs p, Sound processors nnodes p (tagSize p) c) :
    Addressed processors nnodes logs := by
  intro p hp e he
  obtain ⟨hlp, hcall⟩ := h p hp e he
  refine ⟨hlp, ?_⟩
  cases hc : e.2 with
  | put | get =>
    rw [hc] at hcall
    exact nodeOf_lt hm hcall
  | send | hpsend | setTagsize => trivial

end Superstep

section Sample

variable {tagSize : ℕ → ℕ} {w : ℕ → Node}

/-- Context 0 puts 7 to the byte of context 1, and context 1 gets its own byte. -/
def overlapOps (q : ℕ) : List (ℕ × ContextOp) :=
  if q = 0 then
    [(0, .compute fun _ a => UInt8.ofNat a), (0, .put 1 7 100 0 1), (1, .get 1 100 0 50 1)]
  else []

theorem overlap_access : ∀ q < 1, ∀ e ∈ overlapOps q, Access e.2 := by
  intro q hq e he
  obtain rfl : q = 0 := by omega
  simp only [overlapOps, if_true, List.mem_cons, List.not_mem_nil, or_false] at he
  rcases he with rfl | rfl | rfl <;> trivial

theorem two_mapped : Mapped 2 1 := ⟨by decide, by decide⟩

theorem overlap_find (hw : AllHold 2 1 w) {lp : ℕ} (hlp : lp < 2) :
    findBase ((w 0).contexts lp) 1 100 = some 100 :=
  find_byte two_mapped hw (lt_of_lt_of_eq hlp (by decide)) Nat.one_lt_two

theorem overlap_world : ∃ tagSize w, Reachable 2 1 tagSize w ∧ AllHold 2 1 w := by
  obtain ⟨w, hs, ha, hw⟩ := byte_superstep two_mapped (by decide) (fun _ => sampleStart)
    fun _ _ => ⟨0, 0, 0, false⟩
  exact ⟨_, w, .step (.init fun _ => sampleStart) ha hs, hw⟩

theorem overlap_admissible (hr : Reachable 2 1 tagSize w) (hw : AllHold 2 1 w) :
    Admissible 2 1 overlapOps w := by
  have hready := (reachable_ready two_mapped (by decide) hr).1
  refine ⟨fun q hq => along_static two_mapped (hready.logged q hq) (fun _ => rfl) fun e he => ?_,
    [], fun q hq lp _ => ?_⟩
  · obtain rfl : q = 0 := by omega
    simp only [overlapOps, if_true, List.mem_cons, List.not_mem_nil, or_false] at he
    rcases he with rfl | rfl | rfl
    · exact ⟨by decide, trivial⟩
    · exact ⟨by decide, by decide, by decide,
        fun hnone => Option.some_ne_none _ ((overlap_find hw Nat.two_pos).symm.trans hnone)⟩
    · exact ⟨by decide, by decide, by decide, by decide, by decide,
        fun hnone => Option.some_ne_none _ ((overlap_find hw Nat.one_lt_two).symm.trans hnone)⟩
  · obtain rfl : q = 0 := by omega
    rfl

theorem overlap_run (hr : Reachable 2 1 tagSize w) (hw : AllHold 2 1 w) :
    (logsAt 2 1 overlapOps w = fun q =>
      if q = 0 then [(0, .put 1 100 [7]), (1, .get 1 100 0 50 1)] else []) ∧
      ∀ v, localPhase 2 1 overlapOps w = some v → (v 0).proc.mem = fun a => UInt8.ofNat a := by
  have hrank : (w 0).proc.bsp.rank = (taskMapper 2 1 0).globalToNode 1 :=
    ((reachable_ready two_mapped (by decide) hr).1.logged 0 Nat.one_pos).proc.rank
  let node := (w 0).onMem fun a => UInt8.ofNat a
  let node' := node.onQueue 0 fun q => q.put (load node.proc.mem 7 1) (addOffset 100 0)
  have hcompute : exec 2 1 0 (0, .compute fun _ a => UInt8.ofNat a) (w 0) = some node := rfl
  have hbase : findBase (node.contexts 0) 1 100 = some 100 := overlap_find hw Nat.two_pos
  have hput : exec 2 1 0 (0, .put 1 7 100 0 1) node = some node' := by
    simp only [exec, hbase, Option.map_some]
    exact congrArg some (if_pos hrank)
  have hget : findBase (node'.contexts 1) 1 100 = some 100 := by
    rw [findBase, onQueue_reg]
    exact overlap_find hw Nat.one_lt_two
  have hops : overlapOps 0 = [(0, .compute fun _ a => UInt8.ofNat a), (0, .put 1 7 100 0 1),
      (1, .get 1 100 0 50 1)] := rfl
  refine ⟨?_, fun v hv => ?_⟩
  · funext q
    by_cases hq : q = 0
    · subst hq
      rw [logsAt, logOf, hops, trace, hcompute, Option.map_some, Option.getD_some, trace, hput,
        Option.map_some, Option.getD_some, trace_singleton]
      simp only [emit, hbase, hget]
      rfl
    · rw [logsAt, overlapOps, if_neg hq, if_neg hq]
      rfl
  · have hrun := (allBelow_eq_some hv).1 0 Nat.one_pos
    rw [hops, run, hcompute, Option.bind_some, run, hput, Option.bind_some, run] at hrun
    simp only [exec, hget, Option.map_some, Option.bind_some, run, Option.some.injEq] at hrun
    rw [← hrun]
    split <;> rfl

theorem overlap_disjoint (hr : Reachable 2 1 tagSize w) (hw : AllHold 2 1 w) :
    DisjointTargets 2 1 (logsAt 2 1 overlapOps w) := by
  rw [(overlap_run hr hw).1]
  refine ⟨fun p hp => ?_, fun p hp p' hp' hne => by omega⟩
  obtain rfl : p = 0 := by omega
  apply List.pairwise_pair.mpr
  intro r hr s hs _
  cases hr
  cases hs
  intro x hx
  simp only at hx
  omega

end Sample

end BspOnMpi.ContextDrma
