import BspOnMpi.ContextMachine
import BspOnMpi.Registration

/-! The contexts refine their machine. `ContextImpl::bsp_sync` does to the nodes what the machine
does to its processors. A program that is safe on the machine runs on every placement of its
contexts, whatever the order in which the contexts of a node take their operations. -/

namespace BspOnMpi.ContextRefinement
open Lib Slots Memreg Machine Calls Mapper ContextMemreg ContextLive ContextRuns LocalDelivery
  Contexts
  ContextLog ContextSync ContextSuperstep ContextMachine ContextProgram ContextDrma ContextBsmp
open Bspx hiding exec
open AbstractMachine (Processor Answer callsAt barrier)
open Registration (CollectiveRegs NoRepush survivors regCalls)

section Registrations

variable {processors : ℕ} {L L' : List Live} {calls : List RegCall}

def libraryReg : RegCall → Registration.RegOp
  | .push row _ => .push row
  | .pop l => .pop l.row

def libraryCall : RegOp → Call
  | .push ident _ => .pushReg ident
  | .pop ident => .popReg ident

theorem legal_live {n₀ k : ℕ} (h : ContextRuns.Legal processors n₀ k L calls L')
    (hnodup : ∀ g < processors, (L.map fun l => l.row g).Nodup) :
    Registration.Live processors (L.map Live.row) (calls.map libraryReg) (L'.map Live.row) := by
  induction h with
  | nil k L => exact .nil _
  | @push k L L' row nbytes calls hnew h ih =>
    refine .push ?_
    rw [← List.map_singleton (f := Live.row) (a := ⟨below processors row, nbytes, n₀ + k⟩),
      ← List.map_append]
    refine ih fun g hg => ?_
    rw [List.map_append, List.map_singleton]
    refine (hnodup g hg).append (List.nodup_singleton _) fun x hx hlast => ?_
    obtain ⟨l, hl, rfl⟩ := List.mem_map.mp hx
    have hrow := List.mem_singleton.mp hlast
    simp only [below, if_pos hg] at hrow
    exact hnew g hg l hl hrow
  | @pop k xs ys L' l calls h ih =>
    have hsplit : ∀ g < processors, ((xs ++ ys).map fun m => m.row g).Nodup ∧
        ∀ m ∈ ys, m.row g ≠ l.row g := by
      intro g hg
      have hall := hnodup g hg
      rw [List.map_append, List.map_cons, List.nodup_middle, List.nodup_cons] at hall
      refine ⟨by rw [List.map_append]; exact hall.2, fun m hm heq => hall.1 ?_⟩
      exact List.mem_append_right _ (List.mem_map.mpr ⟨m, hm, heq⟩)
    rw [List.map_append, List.map_cons]
    refine .pop (fun _ _ => rfl) (fun g hg y hy => ?_) ?_
    · obtain ⟨m, hm, rfl⟩ := List.mem_map.mp hy
      exact (hsplit g hg).2 m hm
    · rw [← List.map_append]
      exact ih fun g hg => (hsplit g hg).1

theorem survivors_pushed {g : ℕ} {ro : List Registration.RegOp} {r : Row}
    (h : r ∈ survivors processors g ro) : ∃ row, .push row ∈ ro ∧ r = below processors row := by
  have hfold : ∀ (ro : List Registration.RegOp) (M : List Row),
      r ∈ ro.foldl (Registration.stackStep processors g) M →
      r ∈ M ∨ ∃ row, .push row ∈ ro ∧ r = below processors row := by
    intro ro
    induction ro with
    | nil => exact fun M h => .inl h
    | cons op ro ih =>
      intro M h
      rcases ih _ h with hM | ⟨row, hrow, heq⟩
      · cases op with
        | push row =>
          rcases List.mem_append.mp hM with hM | hlast
          · exact .inl hM
          · exact .inr ⟨row, List.mem_cons_self, List.mem_singleton.mp hlast⟩
        | pop a =>
          exact .inl (List.mem_reverse.mp (List.mem_of_mem_eraseP (List.mem_reverse.mp hM)))
      · exact .inr ⟨row, List.mem_cons_of_mem op hrow, heq⟩
  exact (hfold ro [] h).resolve_left List.not_mem_nil

theorem calls_noRepush (h : ∀ g < processors, ∀ row nbytes l, .push row nbytes ∈ calls →
    .pop l ∈ calls → row g ≠ l.row g) : NoRepush processors (calls.map libraryReg) := by
  induction calls with
  | nil => trivial
  | cons call calls ih =>
    have hrest := ih fun g hg row nbytes l hrow hl =>
      h g hg row nbytes l (List.mem_cons_of_mem _ hrow) (List.mem_cons_of_mem _ hl)
    cases call with
    | push row nbytes => exact hrest
    | pop l =>
      refine ⟨fun g hg r hr => ?_, hrest⟩
      obtain ⟨row, hrow, rfl⟩ := survivors_pushed hr
      obtain ⟨call, hcall, heq⟩ := List.mem_map.mp hrow
      cases call with
      | pop => cases heq
      | push row' nbytes =>
        cases heq
        rw [below, if_pos hg]
        exact h g hg row nbytes l (List.mem_cons_of_mem _ hcall) List.mem_cons_self

theorem step_calls {g : ℕ} {op : ContextOp} {a a' : Processor}
    (h : runOp processors g op a = some a') :
    ∃ cs, a'.calls = a.calls ++ cs ∧ regCalls cs = (registration op).toList.map libraryCall ∧
      ∀ q, recipient op ≠ some q → sendsTo q cs = [] := by
  simp only [runOp, libraryOp, AbstractMachine.exec] at h
  cases op with
  | pushReg | popReg | setTagsize =>
    cases h
    exact ⟨_, rfl, rfl, fun _ _ => rfl⟩
  | put | hpput | get | hpget =>
    obtain ⟨-, h⟩ := Option.ite_none_right_eq_some.mp h
    obtain ⟨base, -, rfl⟩ := Option.map_eq_some_iff.mp h
    exact ⟨_, rfl, rfl, fun _ _ => rfl⟩
  | send pid | hpsend pid =>
    obtain ⟨-, h⟩ := Option.ite_none_right_eq_some.mp h
    cases h
    refine ⟨_, rfl, rfl, fun q hq => ?_⟩
    have hpid : pid ≠ q := fun heq => hq (congrArg some heq)
    simp [sendsTo, hpid]
  | getTag =>
    dsimp only at h
    split at h
    · cases h
      exact ⟨[], (List.append_nil _).symm, rfl, fun _ _ => rfl⟩
    · cases h
      exact ⟨[], (List.append_nil _).symm, rfl, fun _ _ => rfl⟩
  | move =>
    dsimp only at h
    split at h
    · cases h
    · obtain ⟨-, h⟩ := Option.ite_none_right_eq_some.mp h
      cases h
      exact ⟨[], (List.append_nil _).symm, rfl, fun _ _ => rfl⟩
  | hpmove | compute =>
    cases h
    exact ⟨[], (List.append_nil _).symm, rfl, fun _ _ => rfl⟩

theorem step_regCalls {g : ℕ} {op : ContextOp} {a a' : Processor}
    (h : runOp processors g op a = some a') :
    regCalls a'.calls = regCalls a.calls ++ (registration op).toList.map libraryCall := by
  obtain ⟨cs, hcalls, hregs, -⟩ := step_calls h
  rw [hcalls, ← hregs]
  exact List.filter_append ..

theorem run_regCalls {g : ℕ} {ops : List ContextOp} {a a' : Processor}
    (h : run (runOp processors g) ops a = some a') :
    regCalls a'.calls = regCalls a.calls ++ (ops.filterMap registration).map libraryCall := by
  induction ops generalizing a with
  | nil =>
    cases h
    simp
  | cons op ops ih =>
    obtain ⟨a₁, hop, hrest⟩ := Option.bind_eq_some_iff.mp h
    rw [ih hrest, step_regCalls hop, List.filterMap_cons, List.append_assoc]
    cases registration op <;> rfl

end Registrations

/-- Nodes whose contexts are the processors `w`, with what both have queued. -/
structure Running (processors nnodes : ℕ) (owns : ℕ → ℕ → Prop) (tagSize : ℕ → ℕ) (L : List Live)
    (logs : ℕ → List (ℕ × ContextCall)) (v : ℕ → Node) (w : ℕ → Processor) : Prop where
  ready : NodesReady processors nnodes tagSize logs v
  sound : ∀ q < nnodes, ∀ e ∈ logs q, Sound processors nnodes q (tagSize q) e
  hosted : ∀ g < processors, Hosted processors (owns g) L g (localOf processors nnodes g)
    (v (nodeOf processors nnodes g)) (w g)
  calls : ∀ g < processors,
    ofThread (localOf processors nnodes g) (logs (nodeOf processors nnodes g)) =
    (w g).calls.filterMap contextCall

def tagOf : ContextCall → Option ℕ
  | .setTagsize size => some size
  | _ => none

def loggedTags (log : List (ℕ × ContextCall)) : List (ℕ × ℕ) :=
  log.filterMap fun e => (tagOf e.2).map fun size => (e.1, size)

theorem tagSizes_logged (processors nnodes q : ℕ) (log : List (ℕ × ContextCall)) :
    tagSizes (nodeCalls processors nnodes q log) = (loggedTags log).map Prod.snd := by
  rw [tagSizes, nodeCalls, loggedTags, List.filterMap_filterMap, List.map_filterMap]
  apply List.filterMap_congr
  rintro ⟨l, call⟩ -
  cases call with
  | put pid | get pid | send pid | hpsend pid =>
    by_cases hpid : nodeOf processors nnodes pid = q <;> simp [nodeCall, hpid, tagOf]
  | setTagsize => rfl

section Running

variable {processors nnodes : ℕ} {owns : ℕ → ℕ → Prop} {tagSize : ℕ → ℕ} {L L' : List Live}
  {logs : ℕ → List (ℕ × ContextCall)} {v v₀ : ℕ → Node} {w : ℕ → Processor} {g g' q : ℕ}
    {c d : Call}
  {c' d' : ContextCall}

theorem global_place (processors nnodes g : ℕ) :
    globalOf processors nnodes (nodeOf processors nnodes g) (localOf processors nnodes g) = g := by
  rw [globalOf, nodeOf, localOf, Nat.mul_comm]
  exact Nat.div_add_mod g _

theorem place_global (hm : Mapped processors nnodes) {lp : ℕ}
    (hlp : lp < contextsOn processors nnodes q) :
    globalOf processors nnodes q lp < processors ∧
      nodeOf processors nnodes (globalOf processors nnodes q lp) = q ∧
      localOf processors nnodes (globalOf processors nnodes q lp) = lp :=
  local_global hm hlp

theorem running_hosts (h : Running processors nnodes owns tagSize L logs v w) (hq : q < nnodes) :
    Hosts processors nnodes owns q (tagSize q) L (logs q) (v q)
      fun lp => w (globalOf processors nnodes q lp) := by
  refine ⟨fun lp hlp => ?_, h.ready.logged q hq, h.sound q hq, fun lp hlp => ?_⟩
  · obtain ⟨hlt, hnode, hlocal⟩ := place_global h.ready.mapped hlp
    have hosted := h.hosted _ hlt
    rwa [hnode, hlocal] at hosted
  · obtain ⟨hlt, hnode, hlocal⟩ := place_global h.ready.mapped hlp
    have hcalls := h.calls _ hlt
    rwa [hnode, hlocal] at hcalls

theorem hosts_running (hm : Mapped processors nnodes)
    (h : ∀ q < nnodes, Hosts processors nnodes owns q (tagSize q) L (logs q) (v q)
      fun lp => w (globalOf processors nnodes q lp)) :
    Running processors nnodes owns tagSize L logs v w := by
  refine ⟨⟨hm, fun q hq => (h q hq).logged⟩, fun q hq => (h q hq).sound, fun g hg => ?_,
    fun g hg => ?_⟩
  · have hosted := (h _ (nodeOf_lt hm hg)).hosted _ (localOf_lt hm hg)
    rwa [global_place] at hosted
  · have hcalls := (h _ (nodeOf_lt hm hg)).calls _ (localOf_lt hm hg)
    rwa [global_place] at hcalls

variable (h : Running processors nnodes owns tagSize L logs v w)

include h

theorem call_logged (hg : g < processors) (hc : c ∈ (w g).calls) (hlog : contextCall c = some c') :
    (localOf processors nnodes g, c') ∈ logs (nodeOf processors nnodes g) := by
  rw [← mem_ofThread, h.calls g hg]
  exact List.mem_filterMap.mpr ⟨c, hc, hlog⟩

theorem logged_call (hq : q < nnodes) {e : ℕ × ContextCall} (he : e ∈ logs q) :
    let g := globalOf processors nnodes q e.1
    g < processors ∧ nodeOf processors nnodes g = q ∧ ∃ c ∈ (w g).calls,
      contextCall c = some e.2 := by
  have hlp := (h.sound q hq e he).1
  obtain ⟨hlt, hnode, -⟩ := place_global h.ready.mapped hlp
  have hmem : e.2 ∈ ofThread e.1 (logs q) := mem_ofThread.mpr he
  rw [(running_hosts h hq).calls e.1 hlp] at hmem
  exact ⟨hlt, hnode, List.mem_filterMap.mp hmem⟩

theorem transfer_pid (hg : g < processors) (hc : c ∈ (w g).calls) {r : ℕ × ℕ × ℕ}
    (hr : r ∈ written g c ∨ r ∈ accessed c) : r.1 < processors := by
  have hsound : ∀ c', contextCall c = some c' → Sound processors nnodes (nodeOf processors nnodes g)
      (tagSize (nodeOf processors nnodes g)) (localOf processors nnodes g, c') :=
    fun c' hlog => h.sound _ (nodeOf_lt h.ready.mapped hg) _ (call_logged h hg hc hlog)
  cases c with
  | put pid dst bytes =>
    rcases hr with hr | hr
    · cases hr
      exact (hsound _ rfl).2
    · cases hr
  | get pid src offset dst size =>
    rcases hr with hr | hr
    · cases hr
      exact hg
    · cases hr
      exact (hsound _ rfl).2
  | send | pushReg | popReg | setTagsize => rcases hr with hr | hr <;> cases hr

theorem rows_synced {calls : List RegCall}
    (hstart : ∀ g < processors, ContextInv processors g (localOf processors nnodes g) L
      (regsOf processors nnodes v₀ g))
    (hqueued : Queued processors calls (regsOf processors nnodes v₀) (regsOf processors nnodes v))
    (hlegal : ContextRuns.Legal processors L.length 0 L calls L')
    (hcalls : ∀ g < processors, regCalls (w g).calls = (calls.map (RegCall.op g)).map libraryCall)
    (hg : g < processors) : rowsAfter processors (callsAt w) (w g).rows g = L'.map Live.row := by
  have hspec : ∀ g < processors, ∀ call ∈ calls, ∃ k r, QueuedAs g L k (call.op g) r := by
    intro g hg call hcall
    obtain ⟨k, hk⟩ := List.mem_iff_getElem?.mp hcall
    obtain ⟨-, -, hops⟩ := queue_spec (hstart g hg) hg (hqueued g hg)
    obtain ⟨r, -, hr⟩ := hops k (call.op g) (by simp [hk])
    exact ⟨k, r, hr⟩
  have hno : NoRepush processors (calls.map libraryReg) := by
    refine calls_noRepush fun g hg row nbytes l hrow hl heq => ?_
    obtain ⟨k, r, -, hnew⟩ := hspec g hg _ hrow
    obtain ⟨k', r', m, hm, hrow', -⟩ := hspec g hg _ hl
    exact hnew m hm (hrow'.trans heq.symm)
  have hregs : CollectiveRegs processors (L.map Live.row) (callsAt w) (calls.map libraryReg)
      (L'.map Live.row) := by
    refine ⟨fun g hg => ?_, legal_live hlegal fun g hg => (hstart g hg).processing.nodup⟩
    rw [callsAt, hcalls g hg, List.map_map, List.map_map]
    apply List.map_congr_left
    intro call _
    cases call <;> rfl
  rw [(h.hosted g hg).rows]
  exact Registration.collective_rowsAfter hregs hno hg

omit h in
theorem target_written (hlog : contextCall c = some c') :
    target processors nnodes (nodeOf processors nnodes g) c' =
      (written g c).map fun r => (nodeOf processors nnodes r.1, r.2) := by
  cases c <;> cases hlog <;> rfl

omit h in
theorem apart_of_clear (hown : Private processors nnodes owns) {r s : ℕ × ℕ × ℕ}
    (hr : r.1 < processors) (hs : s.1 < processors) (hrange : Range (owns r.1) r.2.1 r.2.2)
    (hrange' : Range (owns s.1) s.2.1 s.2.2)
    (hnode : nodeOf processors nnodes r.1 = nodeOf processors nnodes s.1) (hclear : Clear r s) :
    Apart r.2 s.2 := by
  by_cases heq : r.1 = s.1
  · exact hclear heq
  · rintro x ⟨⟨h1, h2⟩, h3, h4⟩
    have hx := hrange (x - r.2.1) (by omega)
    have hx' := hrange' (x - s.2.1) (by omega)
    rw [Nat.add_sub_cancel' h1] at hx
    rw [Nat.add_sub_cancel' h3] at hx'
    exact hown _ hr _ hs hnode heq x hx hx'

variable (hown : Private processors nnodes owns) (ht : Transfers processors owns w)

include hown ht

theorem separate_calls (hg : g < processors) (hg' : g' < processors) (hc : c ∈ (w g).calls)
    (hd : d ∈ (w g').calls) (hlog : contextCall c = some c') (hlog' : contextCall d = some d')
    (hclear : ∀ r ∈ written g c, ∀ s ∈ written g' d, Clear r s) :
    Separate processors nnodes (nodeOf processors nnodes g) c'
      (nodeOf processors nnodes g') d' := by
  intro r hr s hs hnode
  rw [target_written hlog] at hr
  rw [target_written hlog'] at hs
  obtain ⟨r', hr', rfl⟩ := Option.map_eq_some_iff.mp hr
  obtain ⟨s', hs', rfl⟩ := Option.map_eq_some_iff.mp hs
  exact apart_of_clear (r := r') (s := s') hown (transfer_pid h hg hc (.inl hr'))
    (transfer_pid h hg' hd (.inl hs')) (ht.within g hg c hc r' (.inl hr'))
    (ht.within g' hg' d hd s' (.inl hs')) hnode
    (hclear r' hr' s' hs')

theorem disjoint_targets : DisjointTargets processors nnodes logs := by
  refine ⟨fun q hq => pairwise_ofThread (fun lp => ?_) fun e he f hf hne => ?_,
    fun p hp p' hp' hne e he f hf => ?_⟩
  · by_cases hlp : lp < contextsOn processors nnodes q
    · obtain ⟨hg, hnode, -⟩ := place_global h.ready.mapped hlp
      rw [(running_hosts h hq).calls lp hlp]
      have hpairs := ht.same _ hg
      refine (hpairs.imp_of_mem fun {c d} hc hd hclear => ?_).filterMap contextCall
        (S := fun c' d' => Separate processors nnodes q c' q d') fun _ _ hsep => hsep
      intro c' hlog d' hlog'
      have hsep := separate_calls h hown ht hg hg hc hd hlog hlog' hclear
      rwa [hnode] at hsep
    · have hnil : ofThread lp (logs q) = [] := by
        rw [List.eq_nil_iff_forall_not_mem]
        intro c hc
        exact hlp (h.sound q hq _ (mem_ofThread.mp hc)).1
      rw [hnil]
      exact List.Pairwise.nil
  · obtain ⟨hg, hnode, c, hc, hlog⟩ := logged_call h hq he
    obtain ⟨hg', hnode', d, hd, hlog'⟩ := logged_call h hq hf
    have hsep := separate_calls h hown ht hg hg' hc hd hlog hlog'
      (ht.other _ hg _ hg' (fun heq => hne (Nat.add_left_cancel heq)) c hc d hd)
    rwa [hnode, hnode'] at hsep
  · obtain ⟨hg, hnode, c, hc, hlog⟩ := logged_call h hp he
    obtain ⟨hg', hnode', d, hd, hlog'⟩ := logged_call h hp' hf
    have hsep := separate_calls h hown ht hg hg' hc hd hlog hlog'
      (ht.other _ hg _ hg' (fun heq => hne (by rw [← hnode, ← hnode', heq])) c hc d hd)
    rwa [hnode, hnode'] at hsep

theorem accesses_unaffected : Unaffected processors nnodes logs fun q => (v q).proc.mem := by
  -- what a get reads is apart from what any call writes on the node
  have hspared : ∀ p < nnodes, ∀ e ∈ logs p, ∀ q < nnodes, ∀ f ∈ logs q,
      ∀ pid src offset dst size, e.2 = .get pid src offset dst size →
      ∀ s ∈ target processors nnodes q f.2, nodeOf processors nnodes pid = s.1 →
      Apart (addOffset src offset, size) s.2 := by
    intro p hp e he q hq f hf pid src offset dst size hget s hs hnode
    obtain ⟨hg, -, c, hc, hlog⟩ := logged_call h hp he
    obtain ⟨hg', hnode', d, hd, hlog'⟩ := logged_call h hq hf
    rw [← hnode', target_written hlog'] at hs
    obtain ⟨s', hs', rfl⟩ := Option.map_eq_some_iff.mp hs
    have hread : accessed c = some (pid, addOffset src offset, size) := by
      rw [hget] at hlog
      cases c <;> cases hlog
      rfl
    exact apart_of_clear (s := s') hown (transfer_pid h hg hc (.inr hread))
      (transfer_pid h hg' hd (.inl hs')) (ht.within _ hg c hc _ (.inr hread))
      (ht.within _ hg' d hd s' (.inl hs')) hnode
        (ht.undisturbed _ hg _ hg' c hc d hd _ hread s' hs')
  have hstores : ∀ q < nnodes, ∀ t ∈ localTransfers processors nnodes logs q,
      ∃ f ∈ logs q, (q, reach (t.stores (v q).proc.mem)) ∈ target processors nnodes q f.2 := by
    intro q _ t ht
    obtain ⟨f, hf, -, ⟨pid, src, offset, dst, size, hcall, -, rfl⟩ |
      ⟨pid, dst, bytes, hcall, hnode, rfl⟩⟩ := mem_localTransfers.mp ht
    · exact ⟨f, hf, by rw [hcall]; simp [target, Transfer.stores, reach]⟩
    · exact ⟨f, hf, by rw [hcall]; simp [target, Transfer.stores, reach, hnode]⟩
  have happly : ∀ p < nnodes, ∀ e ∈ logs p, ∀ pid src offset dst size,
      e.2 = .get pid src offset dst size → nodeOf processors nnodes pid < nnodes →
      ∀ t ∈ localTransfers processors nnodes logs (nodeOf processors nnodes pid),
      (Transfer.copy (addOffset src offset) dst size).Spared
        (v (nodeOf processors nnodes pid)).proc.mem
        (t.stores (v (nodeOf processors nnodes pid)).proc.mem) := by
    intro p hp e he pid src offset dst size hget hlt t ht
    obtain ⟨f, hf, htarget⟩ := hstores _ hlt t ht
    have hapart := hspared p hp e he _ hlt f hf pid src offset dst size hget _ htarget rfl
    exact load_writeAll_apart (List.forall_mem_singleton.mpr hapart.symm)
  refine ⟨fun q hq => ?_, fun p hp e he pid src offset dst size hget _ => ?_⟩
  · refine List.pairwise_of_forall_mem_list fun t ht u hu => ?_
    obtain ⟨e, he, -, ⟨pid, src, offset, dst, size, hcall, hnode, rfl⟩ |
      ⟨pid, dst, bytes, -, -, rfl⟩⟩ := mem_localTransfers.mp hu
    · subst hnode
      exact happly _ hq e he pid src offset dst size hcall hq t ht
    · trivial
  · have hpid := (h.sound p hp e he).2
    rw [hget] at hpid
    exact happly p hp e he pid src offset dst size hget (nodeOf_lt h.ready.mapped hpid)

variable {f : ℕ → Mem} (hf : ∀ q < nnodes, f q = memAfter nnodes
  (fun p => nodeCalls processors nnodes p (logs p)) (memLocal processors nnodes logs v) q)

omit hown ht in
theorem written_reaches (hg : g < processors) (hc : c ∈ (w g).calls) {r : ℕ × ℕ × ℕ}
    (hr : r ∈ written g c) : ∃ y ∈ writesTo processors (callsAt w) (fun p => (w p).mem) r.1,
      reach y = r.2 := by
  cases c with
  | put pid dst bytes =>
    cases hr
    refine ⟨(dst, bytes),
      List.mem_flatMap.mpr ⟨g, List.mem_range.mpr hg, List.mem_append_left _ ?_⟩, rfl⟩
    exact List.mem_filterMap.mpr ⟨_, hc, if_pos rfl⟩
  | get pid src offset dst size =>
    cases hr
    have hpid : pid < processors := transfer_pid h hg hc (.inr rfl)
    refine ⟨(dst, load (w pid).mem (addOffset src offset) size), List.mem_flatMap.mpr
      ⟨pid, List.mem_range.mpr hpid, List.mem_append_right _ ?_⟩, by simp [reach]⟩
    exact List.mem_filterMap.mpr ⟨_, hc, if_pos rfl⟩
  | send | pushReg | popReg | setTagsize => cases hr

omit hown in
theorem writes_delivered (hd : Delivered processors nnodes logs (fun q => (v q).proc.mem) f)
    (hg : g < processors) {y : ℕ × List UInt8}
    (hy : y ∈ writesTo processors (callsAt w) (fun p => (w p).mem) g) :
    load (f (nodeOf processors nnodes g)) y.1 y.2.length = y.2 := by
  obtain ⟨p, hp, hy⟩ := List.mem_flatMap.mp hy
  have hpn := List.mem_range.mp hp
  rcases List.mem_append.mp hy with hy | hy
  · obtain ⟨c, hc, hcall⟩ := List.mem_filterMap.mp hy
    cases c with
    | put pid dst bytes =>
      simp only [Option.ite_none_right_eq_some, Option.some.injEq] at hcall
      obtain ⟨rfl, rfl⟩ := hcall
      exact hd.puts _ (nodeOf_lt h.ready.mapped hpn) _ (call_logged h hpn hc rfl) _ _ _ rfl
    | get | send | pushReg | popReg | setTagsize => cases hcall
  · obtain ⟨c, hc, hcall⟩ := List.mem_filterMap.mp hy
    cases c with
    | get pid src offset dst size =>
      simp only [Option.ite_none_right_eq_some, Option.some.injEq] at hcall
      obtain ⟨rfl, rfl⟩ := hcall
      have hread := hd.gets _ (nodeOf_lt h.ready.mapped hg) _
        (call_logged h hg hc rfl) _ _ _ _ _ rfl
      rw [load_length, hread]
      exact load_owned (h.hosted pid hpn) (ht.within g hg _ hc _ (.inr rfl))
    | put | send | pushReg | popReg | setTagsize => cases hcall

include hf

theorem memory_synced (hg : g < processors) {x : ℕ} (hx : owns g x) :
    f (nodeOf processors nnodes g) x =
      memAfter processors (callsAt w) (fun p => (w p).mem) g x := by
  have hd : Delivered processors nnodes logs (fun q => (v q).proc.mem) f :=
    (delivered_iff (disjoint_targets h hown ht) (sound_addressed h.ready.mapped h.sound) hf).mpr
      (accesses_unaffected h hown ht)
  by_cases hreach : ∃ y ∈ writesTo processors (callsAt w) (fun p => (w p).mem) g,
      y.1 ≤ x ∧ x < y.1 + y.2.length
  · refine (writeAll_of_agree _ (fun y hy hle hlt => ?_) hreach).symm
    have hload := load_getElem (f (nodeOf processors nnodes g)) (a := y.1) (n := y.2.length)
      (i := x - y.1) (by rwa [load_length])
    simp only [writes_delivered h ht hd hg hy, Nat.add_sub_cancel' hle] at hload
    exact hload
  · rw [memAfter, writeAll_of_outside _ fun y hy => ?_, ← (h.hosted g hg).mem x hx]
    · refine hd.frame _ (nodeOf_lt h.ready.mapped hg) x fun p hp e he r hr hnode hin => hreach ?_
      obtain ⟨hg', hnode', c, hc, hlog⟩ := logged_call h hp he
      rw [← hnode', target_written hlog] at hr
      obtain ⟨s, hs, rfl⟩ := Option.map_eq_some_iff.mp hr
      obtain ⟨hle, hlt⟩ : s.2.1 ≤ x ∧ x < s.2.1 + s.2.2 := hin
      have hsx := ht.within _ hg' c hc s (.inl hs) (x - s.2.1) (by omega)
      rw [Nat.add_sub_cancel' hle] at hsx
      have hsg : s.1 = g := by
        by_contra hne
        exact hown _ (transfer_pid h hg' hc (.inl hs)) g hg hnode hne x hsx hx
      obtain ⟨y, hy, hreach⟩ := written_reaches h hg' hc hs
      rw [hsg] at hy
      rw [← hreach] at hle hlt
      exact ⟨y, hy, hle, hlt⟩
    · by_contra hin
      exact hreach ⟨y, hy, by omega, by omega⟩

omit hown ht hf

theorem logged_buffered : ∀ q < nnodes, ∀ e ∈ logs q, Buffered e.2 := by
  intro q hq e he
  obtain ⟨-, -, c, -, hlog⟩ := logged_call h hq he
  obtain ⟨l, call⟩ := e
  cases c <;> cases hlog <;> trivial

theorem sentBy_calls {s : ℕ} (hs : s < processors) :
    sentBy processors nnodes logs s g = sendsTo g (callsAt w s) := by
  let l := localOf processors nnodes s
  have hown : sentBy processors nnodes logs s g = sentBy processors nnodes
      (fun _ => (ofThread l (logs (nodeOf processors nnodes s))).map fun c => (l, c)) s g := by
    rw [sentBy, sentBy, List.filterMap_map, ofThread, List.filterMap_filterMap]
    apply List.filterMap_congr
    rintro ⟨k, call⟩ -
    by_cases hk : k = localOf processors nnodes s
    · cases call <;> simp [l, hk]
    · cases call <;> simp [l, hk]
  rw [hown, h.calls s hs, sentBy, List.filterMap_map, List.filterMap_filterMap, sendsTo, callsAt]
  apply List.filterMap_congr
  rintro c -
  cases c <;> simp [contextCall, l]

theorem messages_synced (hsame : SameTags processors nnodes tagSize) {v' : ℕ → Node}
    (hg : g < processors) (hs : NodeSynced processors nnodes tagSize logs v
      (nodeOf processors nnodes g) (v' (nodeOf processors nnodes g))) :
    ∃ ms, Arrives processors (callsAt w) g ms ∧ Waits (v' (nodeOf processors nnodes g)).proc
      ((v' (nodeOf processors nnodes g)).contexts (localOf processors nnodes g)).localDeliveries
      ms := by
  have hm := h.ready.mapped
  let p := (v' (nodeOf processors nnodes g)).proc
  refine ⟨(delivered processors nnodes logs g).map Prod.snd,
    ⟨delivered processors nnodes logs g, rfl, delivered_senders hm h.sound hg, fun s hs => ?_⟩, ?_⟩
  · rw [ofThread_filter, delivered_sender hm h.sound hg hs, sentBy_calls h hs]
  · obtain ⟨new, hpend, hnew⟩ := hs.queues _ (localOf_lt hm hg)
    have hmoved : ∀ mem, ((logs (nodeOf processors nnodes g)).filterMap (localSend processors nnodes
        (nodeOf processors nnodes g) (localOf processors nnodes g)) ++ new).map
        (resolve { p with mem := mem }) = (delivered processors nnodes logs g).map Prod.snd := by
      intro mem
      rw [delivered_messages (logged_buffered h) hg hm { p with mem := mem }, List.map_append,
        hnew mem]
    refine ⟨_, hpend.moved, hmoved, fun m hmem => ?_⟩
    cases m with
    | copied m =>
      have hdel : m ∈ (delivered processors nnodes logs g).map Prod.snd := by
        rw [← hmoved p.mem]
        exact List.mem_map_of_mem (f := resolve p) hmem
      obtain ⟨e, he, rfl⟩ := List.mem_map.mp hdel
      exact (delivered_tags hm h.sound hsame hg e he).trans hs.recvTagSize.symm
    | pointed => trivial

theorem tags_synced (htags : ∀ g < processors, tagSizes (w g).calls = tagSizes (w 0).calls)
    (hq : q < nnodes) (hpos : 0 < contextsOn processors nnodes q) (size : ℕ) :
    tagAfter size (nodeCalls processors nnodes q (logs q)) = tagAfter size (w 0).calls := by
  have hlt : ∀ e ∈ loggedTags (logs q), e.1 < contextsOn processors nnodes q := by
    intro e he
    obtain ⟨c, hc, hcall⟩ := List.mem_filterMap.mp he
    obtain ⟨size, -, rfl⟩ := Option.map_eq_some_iff.mp hcall
    exact (h.sound q hq c hc).1
  have hsizes : ∀ lp < contextsOn processors nnodes q,
      ((loggedTags (logs q)).filterMap fun e => if e.1 = lp then some e.2 else none) =
        tagSizes (w 0).calls := by
    intro lp hlp
    have hone : ofThread lp (loggedTags (logs q)) = (ofThread lp (logs q)).filterMap tagOf :=
      ofThread_filterMap lp tagOf _
    obtain ⟨hg, -, -⟩ := place_global h.ready.mapped hlp
    rw [← htags _ hg, ← ofThread, hone, (running_hosts h hq).calls lp hlp, List.filterMap_filterMap,
      tagSizes]
    apply List.filterMap_congr
    rintro c -
    cases c <;> rfl
  rw [tagAfter_last, tagAfter_last, tagSizes_logged, last_event hpos hlt hsizes]

end Running

/-- Nodes whose contexts are the processors of `m`, at the start of a superstep. -/
structure Represents (processors nnodes : ℕ) (owns : ℕ → ℕ → Prop) (m : Ensemble) (w : ℕ → Node) :
    Prop where
  running : ∃ tagSize, SameTags processors nnodes tagSize ∧
    Running processors nnodes owns tagSize m.live (fun _ => []) w m.procs
  idle : ∀ g < processors, (m.procs g).calls = []

section Sync

variable {processors nnodes : ℕ} {owns : ℕ → ℕ → Prop} {tagSize : ℕ → ℕ} {L L' : List Live}
  {logs : ℕ → List (ℕ × ContextCall)} {v : ℕ → Node} {w : ℕ → Processor} {fresh : ℕ → ℕ → RegReq}

theorem sync_represents (hp : processors ≤ 2 ^ 31) (hown : Private processors nnodes owns)
    (h : Running processors nnodes owns tagSize L logs v w)
    (hsame : SameTags processors nnodes tagSize)
    (ht : Transfers processors owns w)
    (htags : ∀ g < processors, tagSizes (w g).calls = tagSizes (w 0).calls) {regs : ℕ → ContextReg}
    (hregs : syncMemoryreg processors nnodes fresh (regsOf processors nnodes v) = some regs)
    (hinv : ∀ g < processors, ContextInv processors g (localOf processors nnodes g) L' (regs g))
    (hrows : ∀ g < processors,
      rowsAfter processors (callsAt w) (w g).rows g = L'.map Live.row) :
    ∃ v', bspSync processors nnodes v fresh = some v' ∧ ∃ procs : ℕ → Processor,
      (∀ g < processors, ∃ ms, Arrives processors (callsAt w) g ms ∧
        procs g = { barrier processors w g with inbox := ms }) ∧
      Represents processors nnodes owns ⟨L', procs⟩ v' := by
  have hm := h.ready.mapped
  obtain ⟨v', hv', hsync⟩ := bspSync_spec h.ready hp (fun q hq => tagsFit hsame h.sound hq)
    (fun q _ => buffered_targets hm (logged_buffered h) h.sound q) hregs
  have hnode := fun (g : ℕ) (hg : g < processors) => hsync _ (nodeOf_lt hm hg)
  choose! ms hms using fun (g : ℕ) (hg : g < processors) =>
    messages_synced h hsame hg (hnode g hg).1
  refine ⟨v', hv', fun g => { barrier processors w g with inbox := ms g },
    fun g hg => ⟨ms g, (hms g hg).1, rfl⟩,
    ⟨fun q => tagAfter (tagSize q) (nodeCalls processors nnodes q (logs q)), ?_, ?_⟩, fun g hg =>
      rfl⟩
  · obtain ⟨t, ht⟩ := hsame
    refine ⟨tagAfter t (w 0).calls, fun q hq hpos => ?_⟩
    rw [← ht q hq hpos]
    exact tags_synced h htags hq hpos _
  · refine ⟨synced_ready hm fun q hq => (hsync q hq).1, fun q _ e he => absurd he List.not_mem_nil,
      fun g hg => ?_, fun g hg => rfl⟩
    obtain ⟨hs, hcontext⟩ := hnode g hg
    have hlp := localOf_lt hm hg
    have hsize : (w g).sendTagSize = tagSize (nodeOf processors nnodes g) :=
      (h.hosted g hg).sendTagSize.trans (h.ready.logged _ (nodeOf_lt hm hg)).proc.tagSize
    have hreg : ((v' (nodeOf processors nnodes g)).contexts (localOf processors nnodes g)).reg =
        regs g := by
      rw [hcontext _ hlp, getContext_eq hm _ hlp]
      exact congrArg regs (global_place processors nnodes g)
    have hnone : (regs g).regRequests = [] := (hinv g hg).processing.requests
    refine ⟨fun x hx => ?_, ?_, ?_, hrows g hg, ?_, ?_, Nat.two_pow_pos 27,
      (hms g hg).2⟩
    · exact memory_synced h hown ht (f := fun q => (v' q).proc.mem)
        (fun q hq => (hsync q hq).1.mem) hg hx
    · have hafter : tagAfter (w g).sendTagSize (w g).calls =
          tagAfter (tagSize (nodeOf processors nnodes g)) (w 0).calls := by
        rw [tagAfter, tagAfter, htags g hg, hsize]
      rw [← tags_synced h htags (nodeOf_lt hm hg) (Nat.zero_lt_of_lt hlp)] at hafter
      exact hafter.trans hs.logged.tagSize.symm
    · exact hsize.trans hs.recvTagSize.symm
    · rw [hreg, takeRequests, ← hnone]
      exact hinv g hg
    · rw [hreg, hnone]
      rfl

end Sync

section Superstep

variable (processors nnodes : ℕ)

/-- Every node takes the operations of its contexts, those of a context in their order. -/
def Ordered (ops : ℕ → List ContextOp) (order : ℕ → List (ℕ × ContextOp)) : Prop :=
  ∀ q < nnodes, ∀ lp, ofThread lp (order q) =
    if lp < contextsOn processors nnodes q then ops (globalOf processors nnodes q lp) else []

def contextTranscript (order : ℕ → List (ℕ × ContextOp)) (w : ℕ → Node) : List (List Answer) :=
  (List.range processors).map fun g =>
    let q := nodeOf processors nnodes g
    ofThread (localOf processors nnodes g)
      (trace (Contexts.exec processors nnodes q) contextAnswers (order q) (w q))

end Superstep

section Refinement

variable {processors nnodes : ℕ} {owns : ℕ → ℕ → Prop} {tagSize : ℕ → ℕ} {L L' : List Live}
  {logs : ℕ → List (ℕ × ContextCall)} {w : ℕ → Node} {a b : ℕ → Processor} {m : Ensemble}
  {ops : ℕ → List ContextOp} {order : ℕ → List (ℕ × ContextOp)} {fresh : ℕ → ℕ → RegReq}

theorem nodes_run (hown : Private processors nnodes owns)
    (h : Running processors nnodes owns tagSize L logs w a)
    (horder : Ordered processors nnodes ops order)
    (hkeeps : ∀ g < processors, Along (runOp processors g) (Keeps (owns g) g) (ops g) (a g))
    (hrun : ∀ g < processors, run (runOp processors g) (ops g) (a g) = some (b g)) :
    ∃ v logs', localPhase processors nnodes order w = some v ∧
      Running processors nnodes owns tagSize L logs' v b ∧
      contextTranscript processors nnodes order w = (List.range processors).map fun g =>
        trace (runOp processors g) answers (ops g) (a g) := by
  have hm := h.ready.mapped
  have hnode : ∀ q : ℕ, ∃ node log, q < nnodes →
      run (Contexts.exec processors nnodes q) (order q) (w q) = some node ∧
      Hosts processors nnodes owns q (tagSize q) L log node
        (fun lp => b (globalOf processors nnodes q lp)) ∧
      ∀ lp < contextsOn processors nnodes q,
        ofThread lp (trace (Contexts.exec processors nnodes q) contextAnswers (order q) (w q)) =
          trace (runOp processors (globalOf processors nnodes q lp)) answers
            (ops (globalOf processors nnodes q lp)) (a (globalOf processors nnodes q lp)) := by
    intro q
    by_cases hq : q < nnodes
    · have hops := horder q hq
      let b' := fun lp =>
        if lp < contextsOn processors nnodes q then b (globalOf processors nnodes q lp)
        else a (globalOf processors nnodes q lp)
      have hparts : ∀ lp, Along (runOp processors (globalOf processors nnodes q lp))
          (fun op s => lp < contextsOn processors nnodes q ∧
            Keeps (owns (globalOf processors nnodes q lp)) (globalOf processors nnodes q lp) op s)
          (ofThread lp (order q)) (a (globalOf processors nnodes q lp)) ∧
          run (runOp processors (globalOf processors nnodes q lp)) (ofThread lp (order q))
            (a (globalOf processors nnodes q lp)) = some (b' lp) := by
        intro lp
        rw [hops lp]
        by_cases hlp : lp < contextsOn processors nnodes q
        · obtain ⟨hg, -, -⟩ := place_global hm hlp
          simp only [b', if_pos hlp]
          exact ⟨along_mono (fun _ _ _ hk => ⟨hlp, hk⟩) (hkeeps _ hg), hrun _ hg⟩
        · simp only [b', if_neg hlp]
          exact ⟨trivial, rfl⟩
      obtain ⟨node, log, hexec, hhosts, htrace⟩ := hosts_run hm hown (running_hosts h hq)
        (fun lp => (hparts lp).1) fun lp => (hparts lp).2
      refine ⟨node, log, fun _ => ⟨hexec, ⟨fun lp hlp => ?_, hhosts.logged, hhosts.sound,
        fun lp hlp => ?_⟩, fun lp hlp => ?_⟩⟩
      · have hosted := hhosts.hosted lp hlp
        simp only [b', if_pos hlp] at hosted
        exact hosted
      · have hcalls := hhosts.calls lp hlp
        simp only [b', if_pos hlp] at hcalls
        exact hcalls
      · rw [htrace lp, hops lp, if_pos hlp]
    · exact ⟨w q, [], fun hlt => absurd hlt hq⟩
  choose node log hnode using hnode
  obtain ⟨v, hv⟩ := allBelow_defined w fun q hq => ⟨node q, (hnode q hq).1⟩
  have hvq : ∀ q < nnodes, v q = node q := fun q hq =>
    Option.some.inj (((allBelow_eq_some hv).1 q hq).symm.trans (hnode q hq).1)
  refine ⟨v, log, hv, hosts_running hm fun q hq => ?_, ?_⟩
  · rw [hvq q hq]
    exact (hnode q hq).2.1
  · apply List.map_congr_left
    intro g hg
    have hgn := List.mem_range.mp hg
    rw [(hnode _ (nodeOf_lt hm hgn)).2.2 _ (localOf_lt hm hgn), global_place]

/-- Whatever the order on the nodes, a superstep does what the machine may do. -/
theorem superstep_refines (hp : processors ≤ 2 ^ 31) (hown : Private processors nnodes owns)
    (h : Represents processors nnodes owns m w) (hasks : (machine processors owns).asks ops m)
    (horder : Ordered processors nnodes ops order) :
    ∃ w', superstep processors nnodes fresh order w = some w' ∧
      (∃ m', (machine processors owns).next ops m m' ∧ Represents processors nnodes owns m' w') ∧
      contextTranscript processors nnodes order w = (machine processors owns).emits ops m := by
  obtain ⟨u, calls, live', hasked⟩ := hasks
  obtain ⟨⟨tagSize, hsame, hrunning⟩, hidle⟩ := h
  have hm := hrunning.ready.mapped
  obtain ⟨v, logs, hv, hu, htrace⟩ := nodes_run hown hrunning horder hasked.keeps hasked.run
  have hregs : ∀ (x : ℕ → Node), ∀ g < processors, regsOf processors nnodes x g =
      ((x (nodeOf processors nnodes g)).contexts (localOf processors nnodes g)).reg := by
    intro x g hg
    rw [regsOf, mapper_node hm 0 hg, mapper_local hm 0 hg]
  have hstart : ∀ g < processors, ContextInv processors g (localOf processors nnodes g) m.live
      (regsOf processors nnodes w g) := by
    intro g hg
    have hosted := hrunning.hosted g hg
    have hnone := hosted.requests
    rw [hidle g hg] at hnone
    have hinv := hosted.reg
    rwa [takeRequests, ← List.eq_nil_of_length_eq_zero hnone, ← hregs w g hg] at hinv
  have hqueued : Queued processors calls (regsOf processors nnodes w)
      (regsOf processors nnodes v) := by
    intro g hg
    have hq := nodeOf_lt hm hg
    have hlast := run_registrations ((allBelow_eq_some hv).1 _ hq) (localOf processors nnodes g)
    rw [horder _ hq, if_pos (localOf_lt hm hg), global_place, hasked.registrations g hg] at hlast
    rw [hregs w g hg, hregs v g hg]
    exact hlast
  have hfew : calls.length < 2 ^ 27 := by
    have hpos := hm.processors_pos
    have hosted := hu.hosted 0 hpos
    have hlen := (queue_spec (hstart 0 hpos) hpos (hqueued 0 hpos)).2.1
    rw [List.length_map, hregs v 0 hpos] at hlen
    rw [← hlen, hosted.requests]
    exact hosted.few
  obtain ⟨regs, hsync, hinv⟩ := step_inv hm hstart hasked.legal hfew hqueued fresh
  have hrows : ∀ g < processors,
      rowsAfter processors (callsAt u) (u g).rows g = live'.map Live.row := by
    refine fun g hg => rows_synced hu hstart hqueued hasked.legal (fun g hg => ?_) hg
    rw [run_regCalls (hasked.run g hg), hidle g hg, hasked.registrations g hg]
    rfl
  obtain ⟨v', hv', procs, hprocs, hrep⟩ :=
    sync_represents hp hown hu hsame hasked.transfers hasked.tags
    hsync hinv hrows
  refine ⟨v', ?_, ⟨⟨live', procs⟩, ⟨u, calls, hasked, hprocs⟩, hrep⟩, htrace⟩
  rw [superstep, hv]
  exact hv'

def startEnsemble (mem : ℕ → Mem) (globalArrays : ℕ → ℕ → GlobalArray) : Ensemble :=
  ⟨[], AbstractMachine.initial mem globalArrays⟩

theorem start_represents (hm : Mapped processors nnodes) (x : ℕ → Start) {mem : ℕ → Mem}
    (hmem : ∀ g < processors, ∀ a, owns g a → (x (nodeOf processors nnodes g)).mem a = mem g a)
    (globalArrays : ℕ → ℕ → GlobalArray) :
    Represents processors nnodes owns (startEnsemble mem globalArrays)
      fun q => initNode processors nnodes (x q) q := by
  have hready := init_ready processors nnodes hm x
  refine ⟨⟨fun _ => 0, ⟨0, fun _ _ _ => rfl⟩, hready, fun q _ e he => absurd he List.not_mem_nil,
    fun g hg => ?_, fun _ _ => rfl⟩, fun _ _ => rfl⟩
  have hq := nodeOf_lt hm hg
  have hinit := (Superstep.init_clean (fun q => (x q).alloc) (fun q => (x q).globalArrays)
    (fun q => (x q).mem) (fun q => (x q).stack) nnodes).logged _ hq
  have hmesgq := (constructed_logged hinit rfl
    (contextsOn processors nnodes (nodeOf processors nnodes g))).2
  have hinv := ContextRegister.init_inv hm x hg
  rw [regsOf, mapper_node hm 0 hg, mapper_local hm 0 hg] at hinv
  have hnone := hinv.processing.requests
  refine ⟨hmem g hg, (hready.logged _ hq).proc.tagSize.symm, ?_, rfl, ?_, ?_, Nat.two_pow_pos 27,
    [], (pending_create _).moved, fun _ => rfl, fun _ hmem => absurd hmem List.not_mem_nil⟩
  · exact congrArg DelivExecute.MessageQueue.recvTagSize hmesgq.symm
  · rw [takeRequests, ← hnone]
    exact hinv
  · rw [hnone]
    rfl

theorem program_represented (hm : Mapped processors nnodes) (hp : processors ≤ 2 ^ 31)
    (hown : Private processors nnodes owns) {program : List (ℕ → List ContextOp)}
    {steps : List ((ℕ → ℕ → RegReq) × (ℕ → List (ℕ × ContextOp)))}
    (hsteps : List.Forall₂ (fun ops e => Ordered processors nnodes ops e.2) program steps)
    (x : ℕ → Start) {mem : ℕ → Mem}
    (hmem : ∀ g < processors, ∀ a, owns g a → (x (nodeOf processors nnodes g)).mem a = mem g a)
    (globalArrays : ℕ → ℕ → GlobalArray)
    (hsafe : (machine processors owns).Safe program (startEnsemble mem globalArrays)) :
    ∃ w, run (fun e => superstep processors nnodes e.1 e.2) steps
        (fun q => initNode processors nnodes (x q) q) = some w ∧
      ∃ m, (machine processors owns).Outcome program (startEnsemble mem globalArrays)
        (trace (fun e => superstep processors nnodes e.1 e.2)
          (fun e => contextTranscript processors nnodes e.2) steps
          fun q => initNode processors nnodes (x q) q) m ∧
        Represents processors nnodes owns m w := by
  have hstep : ∀ ops (e : (ℕ → ℕ → RegReq) × (ℕ → List (ℕ × ContextOp))) m w,
      Ordered processors nnodes ops e.2 → Represents processors nnodes owns m w →
      (machine processors owns).asks ops m → ∃ w', superstep processors nnodes e.1 e.2 w = some w' ∧
        (∃ m', (machine processors owns).next ops m m' ∧ Represents processors nnodes owns m' w') ∧
        contextTranscript processors nnodes e.2 w = (machine processors owns).emits ops m :=
    fun ops e m w horder hrep hasks => superstep_refines hp hown hrep hasks horder
  exact Chooser.safe_refined hstep hsteps (start_represents hm x hmem globalArrays) hsafe

theorem represented_mem {m : Ensemble} {w : ℕ → Node} (h : Represents processors nnodes owns m w) :
    ∀ g < processors, ∀ a, owns g a → (w (nodeOf processors nnodes g)).proc.mem a =
      (m.procs g).mem a := by
  obtain ⟨⟨tagSize, -, hrunning⟩, -⟩ := h
  exact fun g hg => (hrunning.hosted g hg).mem

end Refinement

section Example

def sequentially (processors nnodes : ℕ) (ops : ℕ → List ContextOp) (q : ℕ) :
    List (ℕ × ContextOp) :=
  (List.range (contextsOn processors nnodes q)).flatMap fun lp =>
    (ops (globalOf processors nnodes q lp)).map fun op => (lp, op)

theorem sequentially_ordered (processors nnodes : ℕ) (ops : ℕ → List ContextOp) :
    Ordered processors nnodes ops (sequentially processors nnodes ops) := by
  intro q _ lp
  have hother : ∀ l, l ≠ lp →
      ofThread lp ((ops (globalOf processors nnodes q l)).map fun op => (l, op)) = [] :=
    fun l hl => ofThread_map_other hl _
  rw [sequentially, ofThread, List.filterMap_flatMap]
  by_cases hlp : lp < contextsOn processors nnodes q
  · rw [if_pos hlp]
    exact (flatMap_only hlp fun l _ hl => hother l hl).trans (ofThread_map lp _)
  · rw [if_neg hlp, List.flatMap_eq_nil_iff]
    intro l hl
    exact hother l fun heq => hlp (heq ▸ List.mem_range.mp hl)

theorem next_procs {processors : ℕ} {owns : ℕ → ℕ → Prop} {ops : ℕ → List ContextOp}
    {m m' : Ensemble}
    (h : (machine processors owns).next ops m m') {u : ℕ → Processor}
    (hu : ∀ g < processors, run (runOp processors g) (ops g) (m.procs g) = some (u g)) {g : ℕ}
    (hg : g < processors) : ∃ ms, Arrives processors (callsAt u) g ms ∧
      m'.procs g = { barrier processors u g with inbox := ms } := by
  obtain ⟨w, calls, hasked, hprocs⟩ := h
  have hw : ∀ p < processors, w p = u p := fun p hp =>
    Option.some.inj ((hasked.run p hp).symm.trans (hu p hp))
  obtain ⟨ms, ⟨tagged, hms, hsenders, horder⟩, hproc⟩ := hprocs g hg
  refine ⟨ms, ⟨tagged, hms, hsenders, fun s hs => ?_⟩, ?_⟩
  · rw [horder s hs, callsAt, callsAt, hw s hs]
  · rw [hproc, AbstractMachine.barrier_congr hw hg]

theorem silent_transfers {processors : ℕ} {owns : ℕ → ℕ → Prop} {w : ℕ → Processor}
    (hw : ∀ g < processors, ∀ c ∈ (w g).calls, written g c = none ∧ accessed c = none) :
    Transfers processors owns w := by
  refine ⟨fun p hp c hc r hr => ?_, fun p hp => ?_, fun p hp p' hp' hne c hc d hd r hr => ?_,
    fun p hp p' hp' c hc d hd r hr => ?_⟩
  · rw [(hw p hp c hc).1, (hw p hp c hc).2] at hr
    rcases hr with hr | hr <;> cases hr
  · refine List.pairwise_of_forall_mem_list fun c hc d hd r hr => ?_
    rw [(hw p hp c hc).1] at hr
    cases hr
  · rw [(hw p hp c hc).1] at hr
    cases hr
  · rw [(hw p hp c hc).2] at hr
    cases hr

def thousands (g a : ℕ) : Prop := a / 1000 = g

theorem thousands_private (processors nnodes : ℕ) : Private processors nnodes thousands :=
  fun _ _ _ _ _ hne _ hx hx' => hne (hx.symm.trans hx')

theorem thousands_range {g a n : ℕ} (hlo : 1000 * g ≤ a) (hhi : a + n ≤ 1000 * g + 1000) :
    Range (thousands g) a n := by
  intro i hi
  show (a + i) / 1000 = g
  omega

/-- Every context puts four bytes to its neighbour and sends a message to context 0, which
reads the messages. -/
def ring : List (ℕ → List ContextOp) :=
  [fun g => [.pushReg (1000 * g) 8, .setTagsize 1],
   fun g => [.put ((g + 1) % 3) (1000 * g + 100) (1000 * g) 0 4,
     .send 0 (1000 * g + 200) (1000 * g + 201) 2],
   fun g => if g = 0 then [.getTag 300, .hpmove, .hpmove, .hpmove] else []]

def ringStart : Ensemble := startEnsemble (fun _ a => UInt8.ofNat a) fun _ _ => ⟨0, 0, none⟩

structure Prepared (a : Processor) : Prop where
  rows : a.rows = [below 3 fun g => 1000 * g]
  tagSize : a.sendTagSize = 1
  calls : a.calls = []

def ringCalls (g : ℕ) (mem : Mem) : List Call :=
  [.put ((g + 1) % 3) (1000 * ((g + 1) % 3)) (load mem (1000 * g + 100) 4),
    .send 0 ⟨load mem (1000 * g + 200) 1, load mem (1000 * g + 201) 2⟩]

theorem ring_puts {a : Processor} (h : Prepared a) {g : ℕ} (hg : g < 3) :
    run (runOp 3 g) [.put ((g + 1) % 3) (1000 * g + 100) (1000 * g) 0 4,
      .send 0 (1000 * g + 200) (1000 * g + 201) 2] a =
        some { a with calls := ringCalls g a.mem } := by
  obtain ⟨mem, rows, sendTagSize, recvTagSize, inbox, calls, last, overflow, arrays⟩ := a
  obtain ⟨rfl, rfl, rfl⟩ := h
  have hcases : g = 0 ∨ g = 1 ∨ g = 2 := by omega
  rcases hcases with rfl | rfl | rfl <;> rfl

theorem ring_transfers (w : ℕ → Processor) (mem : ℕ → Mem)
    (hw : ∀ g < 3, (w g).calls = ringCalls g (mem g)) : Transfers 3 thousands w := by
  have hwritten : ∀ g < 3, ∀ c ∈ (w g).calls, ∀ r ∈ written g c,
      r = ((g + 1) % 3, 1000 * ((g + 1) % 3), 4) := by
    intro g hg c hc r hr
    rw [hw g hg] at hc
    simp only [ringCalls, List.mem_cons, List.not_mem_nil, or_false] at hc
    rcases hc with rfl | rfl
    · cases hr
      simp
    · cases hr
  have haccessed : ∀ g < 3, ∀ c ∈ (w g).calls, accessed c = none := by
    intro g hg c hc
    rw [hw g hg] at hc
    simp only [ringCalls, List.mem_cons, List.not_mem_nil, or_false] at hc
    rcases hc with rfl | rfl <;> rfl
  refine ⟨fun p hp c hc r hr => ?_, fun p hp => ?_,
    fun p hp p' hp' hne c hc d hd r hr s hs heq => ?_, fun p hp p' hp' c hc d hd r hr => ?_⟩
  · rcases hr with hr | hr
    · rw [hwritten p hp c hc r hr]
      show Range (thousands ((p + 1) % 3)) (1000 * ((p + 1) % 3)) 4
      exact thousands_range (le_refl _) (by omega)
    · rw [haccessed p hp c hc] at hr
      cases hr
  · rw [hw p hp]
    refine List.pairwise_cons.mpr ⟨fun d hd r _ s hs => ?_, List.pairwise_singleton _ _⟩
    rw [List.mem_singleton.mp hd] at hs
    cases hs
  · rw [hwritten p hp c hc r hr, hwritten p' hp' d hd s hs] at heq
    dsimp only at heq
    omega
  · rw [haccessed p hp c hc] at hr
    cases hr

theorem ring_reads (a : Processor) (g : ℕ) :
    ∃ a', run (runOp 3 g) (if g = 0 then [.getTag 300, .hpmove, .hpmove, .hpmove] else []) a =
      some a' ∧ a'.calls = a.calls := by
  by_cases hg : g = 0
  · rw [if_pos hg]
    obtain ⟨mem, rows, sendTagSize, recvTagSize, inbox, calls, last, overflow, arrays⟩ := a
    cases inbox with
    | nil => exact ⟨_, rfl, rfl⟩
    | cons => exact ⟨_, rfl, rfl⟩
  · rw [if_neg hg]
    exact ⟨a, rfl, rfl⟩

theorem ring_registers :
    Asked 3 thousands (fun g => [.pushReg (1000 * g) 8, .setTagsize 1]) ringStart
      (fun g => { ringStart.procs g with calls := [.pushReg (1000 * g), .setTagsize 1] })
      [.push (fun g => 1000 * g) 8] [⟨below 3 fun g => 1000 * g, 8, 0⟩] := by
  refine ⟨fun g _ => rfl, fun g _ => ?_, fun g _ => rfl, ?_, fun _ _ => rfl, ?_⟩
  · exact ⟨⟨fun _ hr => absurd hr List.not_mem_nil, show 0 + 1 < 2 ^ 27 by decide⟩,
      fun _ _ => ⟨trivial, fun _ _ => trivial⟩⟩
  · exact .push (fun _ _ _ hl => absurd hl List.not_mem_nil) (.nil _ _)
  · refine silent_transfers fun g _ c hc => ?_
    simp only [List.mem_cons, List.not_mem_nil, or_false] at hc
    rcases hc with rfl | rfl <;> exact ⟨rfl, rfl⟩

theorem ring_transfers_asked {m : Ensemble} (h : ∀ g < 3, Prepared (m.procs g)) :
    Asked 3 thousands (fun g => [.put ((g + 1) % 3) (1000 * g + 100) (1000 * g) 0 4,
      .send 0 (1000 * g + 200) (1000 * g + 201) 2]) m
      (fun g => { m.procs g with calls := ringCalls g (m.procs g).mem }) [] m.live := by
  refine ⟨fun g hg => ring_puts (h g hg) hg, fun g hg => ?_, fun g _ => rfl, .nil _ _,
    fun _ _ => rfl, ring_transfers _ (fun g => (m.procs g).mem) fun _ _ => rfl⟩
  refine ⟨thousands_range (by omega) (by omega), fun a ha => ⟨?_, fun _ _ => trivial⟩⟩
  have htag : a.sendTagSize = 1 := by
    simp only [runOp, libraryOp, AbstractMachine.exec, Option.ite_none_right_eq_some] at ha
    obtain ⟨base, -, rfl⟩ := Option.map_eq_some_iff.mp ha.2
    exact (h g hg).tagSize
  rw [Keeps, htag]
  exact ⟨thousands_range (by omega) (by omega), thousands_range (by omega) (by omega), by decide⟩

theorem ring_reads_asked {m : Ensemble} (hcalls : ∀ g < 3, (m.procs g).calls = [])
    (htag : (m.procs 0).recvTagSize = 1) :
    (machine 3 thousands).asks
      (fun g => if g = 0 then [.getTag 300, .hpmove, .hpmove, .hpmove] else []) m := by
  choose a ha hsame using fun g => ring_reads (m.procs g) g
  have hidle : ∀ g < 3, (a g).calls = [] := fun g hg => (hsame g).trans (hcalls g hg)
  refine ⟨a, [], m.live, fun g _ => ha g, fun g hg => ?_, fun g _ => ?_, .nil _ _, fun g hg => ?_,
    ?_⟩
  · by_cases hg : g = 0
    · subst hg
      refine ⟨?_, fun _ _ =>
        ⟨trivial, fun _ _ => ⟨trivial, fun _ _ => ⟨trivial, fun _ _ => trivial⟩⟩⟩⟩
      rw [Keeps, htag]
      exact thousands_range (by omega) (by omega)
    · rw [if_neg hg]
      trivial
  · by_cases hg : g = 0 <;> simp [hg, registration]
  · rw [hidle g hg, hidle 0 (by decide)]
  · refine silent_transfers fun g hg c hc => ?_
    rw [hidle g hg] at hc
    exact absurd hc List.not_mem_nil

theorem ring_safe : (machine 3 thousands).Safe ring ringStart := by
  refine ⟨⟨_, _, _, ring_registers⟩, fun m hm => ?_⟩
  have hprepared : ∀ g < 3, Prepared (m.procs g) := by
    intro g hg
    obtain ⟨ms, -, hproc⟩ := next_procs hm ring_registers.run hg
    rw [hproc]
    exact ⟨rfl, rfl, rfl⟩
  have hasked := ring_transfers_asked hprepared
  refine ⟨⟨_, _, _, hasked⟩, fun m' hm' => ⟨?_, fun _ _ => trivial⟩⟩
  have hnext := fun (g : ℕ) (hg : g < 3) => next_procs hm' hasked.run hg
  refine ring_reads_asked (fun g hg => ?_) ?_
  · obtain ⟨ms, -, hproc⟩ := hnext g hg
    rw [hproc]
    rfl
  · obtain ⟨ms, -, hproc⟩ := hnext 0 (by decide)
    rw [hproc]
    exact (hprepared 0 (by decide)).tagSize

end Example

end BspOnMpi.ContextRefinement
