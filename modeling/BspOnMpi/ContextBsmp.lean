import BspOnMpi.ContextProgram

/-! Message passing between contexts. What a context finds in its queue after a synchronisation:
the messages of its own node, which were copied to its queue, before those of the other nodes,
which were split from the queue of the node. -/

namespace BspOnMpi.ContextBsmp
open Lib Exptable Slots Delivtable Memreg Machine Calls Mapper ContextMemreg LocalDelivery Contexts
  ContextLog ContextSync ContextSuperstep ContextProgram
open Bspx hiding exec

section Drain

variable {p : Proc} {q : LocalDeliveryQueue} {gets : List LocalMemoryDelivery}
  {puts : List (ℕ × List UInt8)} {sent moved : List LocalMessage} {m : LocalMessage}

theorem resolve_nbytes (p : Proc) (m : LocalMessage) : (resolve p m).payload.length = m.nbytes := by
  cases m with
  | copied m => rfl
  | pointed tag payload nbytes => cases payload <;> exact load_length ..

def TagRead (p : Proc) : LocalMessage → Prop
  | .copied m => m.tag.length = p.bsp.messageQueue.recvTagSize
  | .pointed .. => True

theorem hpmove_pending (h : Pending q gets puts sent (m :: moved)) (hm : TagRead p m) :
    ∃ tag message, bspHpmove q = (q.bsmpAdvance, some (m.nbytes, tag, message)) ∧
      readFrom p q.messageMoveBuffer tag p.bsp.messageQueue.recvTagSize = (resolve p m).tag ∧
      readFrom p q.messageMoveBuffer message m.nbytes = (resolve p m).payload := by
  have hsize : q.bsmpQsize = moved.length + 1 := mailbox_qsize h.moved
  have hpos : 0 < q.bsmpQsize := by omega
  have hcarry := (mailbox_next h.moved).1
  have hbytes : q.bsmpTopSize = m.nbytes := carries_nbytes hcarry
  rw [bspHpmove, if_pos hpos, hbytes]
  refine ⟨_, _, rfl, ?_⟩
  rw [LocalDeliveryQueue.bsmpTopTag, LocalDeliveryQueue.bsmpTopMessage]
  cases hh : q.messageMoveQueue.head with
  | buffered tag src nbytes =>
    rw [hh] at hcarry
    cases m with
    | copied m =>
      obtain ⟨-, ⟨htag, -⟩, hsrc, -⟩ := hcarry
      rw [hm] at htag
      exact ⟨htag, hsrc⟩
    | pointed => exact hcarry.elim
  | unbuffered tag src nbytes =>
    rw [hh] at hcarry
    cases m with
    | copied m => exact hcarry.elim
    | pointed tag' payload nbytes' =>
      obtain ⟨rfl, rfl, rfl⟩ := hcarry
      exact ⟨rfl, rfl⟩

theorem hpmoveTimes_empty (h : Pending q gets puts sent []) (k : ℕ) :
    hpmoveTimes p k q = List.replicate k none := by
  induction k with
  | zero => rfl
  | succ k ih =>
    have hsize : q.bsmpQsize = 0 := mailbox_qsize h.moved
    have hmove : bspHpmove q = (q, none) := if_neg (by omega)
    rw [hpmoveTimes, hmove, ih]
    rfl

theorem hpmoveTimes_pending (h : Pending q gets puts sent moved)
    (hm : ∀ m ∈ moved, TagRead p m) (k : ℕ) :
    hpmoveTimes p (moved.length + k) q =
      (moved.map fun m => some (m.nbytes, resolve p m)) ++ List.replicate k none := by
  induction moved generalizing q with
  | nil => simpa using hpmoveTimes_empty h k
  | cons m moved ih =>
    obtain ⟨tag, message, hmove, htag, hmessage⟩ := hpmove_pending h (hm m (by simp))
    have hlen : (m :: moved).length + k = moved.length + k + 1 := by simp; omega
    have hrest := ih (pending_advance h) fun x hx => hm x (List.mem_cons_of_mem _ hx)
    rw [hlen, hpmoveTimes, hmove, hrest]
    simp only [Option.map_some, htag, hmessage, List.map_cons, List.cons_append]

theorem pending_bspQsize (h : Pending q gets puts sent moved) (p : Proc) :
    bspQsize q = ((moved.map (resolve p)).length,
      ((moved.map (resolve p)).map fun m => m.payload.length).sum) := by
  have hsize : q.bsmpQsize = moved.length := mailbox_qsize h.moved
  have hbytes : (moved.map fun m => (resolve p m).payload.length) = moved.map LocalMessage.nbytes :=
    List.map_congr_left fun m _ => resolve_nbytes p m
  rw [bspQsize, hsize, List.length_map, List.map_map]
  exact congrArg (Prod.mk _) (h.moved.bytes.trans (congrArg List.sum hbytes.symm))

end Drain

section Senders

variable (processors nnodes : ℕ)

def contextAt (w : ℕ → Node) (g : ℕ) : ContextImpl :=
  (w (nodeOf processors nnodes g)).contexts (localOf processors nnodes g)

def sentBy (logs : ℕ → List (ℕ × ContextCall)) (s g : ℕ) : List Message :=
  (logs (nodeOf processors nnodes s)).filterMap fun e =>
    match e.2 with
    | .send pid m => if e.1 = localOf processors nnodes s ∧ pid = g then some m else none
    | _ => none

def sentFrom (logs : ℕ → List (ℕ × ContextCall)) (g p : ℕ) : List (ℕ × Message) :=
  (logs p).filterMap fun e =>
    match e.2 with
    | .send pid m => if pid = g then some (p * icd processors nnodes + e.1, m) else none
    | _ => none

/-- The messages for context `g`: first those of its own node, then node by node. -/
def delivered (logs : ℕ → List (ℕ × ContextCall)) (g : ℕ) : List (ℕ × Message) :=
  sentFrom processors nnodes logs g (nodeOf processors nnodes g) ++
    (List.range nnodes).flatMap fun p =>
      if p = nodeOf processors nnodes g then [] else sentFrom processors nnodes logs g p

end Senders

section Delivered

variable {processors nnodes : ℕ} {tagSize : ℕ → ℕ} {logs : ℕ → List (ℕ × ContextCall)} {s g p : ℕ}

def Buffered : ContextCall → Prop
  | .hpsend .. => False
  | _ => True

theorem place_unique (hm : Mapped processors nnodes) {lp : ℕ}
    (hlp : lp < contextsOn processors nnodes p) :
    p * icd processors nnodes + lp = s ↔
      p = nodeOf processors nnodes s ∧ lp = localOf processors nnodes s := by
  obtain ⟨-, hdiv, hmod⟩ := local_global hm hlp
  constructor
  · rintro rfl
    exact ⟨hdiv.symm, hmod.symm⟩
  · rintro ⟨rfl, rfl⟩
    rw [nodeOf, localOf, Nat.mul_comm]
    exact Nat.div_add_mod _ _

theorem place_eq {pid : ℕ} : nodeOf processors nnodes pid = nodeOf processors nnodes g ∧
    localOf processors nnodes pid = localOf processors nnodes g ↔ pid = g := by
  constructor
  · rintro ⟨hnode, hlocal⟩
    rw [← Nat.div_add_mod pid (icd processors nnodes), ← Nat.div_add_mod g (icd processors nnodes)]
    exact congrArg₂ (fun a b => icd processors nnodes * a + b) hnode hlocal
  · rintro rfl
    exact ⟨rfl, rfl⟩

variable (hm : Mapped processors nnodes)
  (hsound : ∀ p < nnodes, ∀ c ∈ logs p, Sound processors nnodes p (tagSize p) c)

include hm hsound

theorem sentFrom_sender (hp : p < nnodes) :
    ((sentFrom processors nnodes logs g p).filter fun e => e.1 = s).map Prod.snd =
      if p = nodeOf processors nnodes s then sentBy processors nnodes logs s g else [] := by
  rw [sentFrom, List.filter_filterMap, List.map_filterMap]
  by_cases hps : p = nodeOf processors nnodes s
  · rw [if_pos hps, sentBy, ← hps]
    apply List.filterMap_congr
    intro c hc
    obtain ⟨hlp, -⟩ := hsound p hp c hc
    have hsame : p * icd processors nnodes + c.1 = s ↔ c.1 = localOf processors nnodes s := by
      rw [place_unique hm hlp]
      exact ⟨And.right, fun hl => ⟨hps, hl⟩⟩
    cases c.2 with
    | send pid m =>
      by_cases hpid : pid = g
      · by_cases hl : c.1 = localOf processors nnodes s
        · simp only [if_pos hpid, if_pos (And.intro hl hpid), Option.filter_some, hsame.mpr hl,
            decide_true, if_true, Option.map_some]
        · simp only [if_pos hpid, if_neg fun hc : _ ∧ pid = g => hl hc.1, Option.filter_some,
            mt hsame.mp hl, decide_false, Bool.false_eq_true, if_false, Option.map_none]
      · simp [hpid]
    | _ => simp
  · rw [if_neg hps, List.filterMap_eq_nil_iff]
    intro c hc
    obtain ⟨hlp, -⟩ := hsound p hp c hc
    have hne : p * icd processors nnodes + c.1 ≠ s :=
      fun heq => hps ((place_unique hm hlp).mp heq).1
    cases c.2 with
    | send pid m => by_cases hpid : pid = g <;> simp [hpid, hne]
    | _ => simp

theorem delivered_sender (hg : g < processors) (hs : s < processors) :
    ((delivered processors nnodes logs g).filter fun e => e.1 = s).map Prod.snd =
      sentBy processors nnodes logs s g := by
  have hgn := nodeOf_lt hm hg
  have hsn := nodeOf_lt hm hs
  have hpart := fun (p : ℕ) (hp : p < nnodes) => sentFrom_sender (s := s) (g := g) hm hsound hp
  rw [delivered, List.filter_append, List.map_append, hpart _ hgn, List.filter_flatMap,
    List.map_flatMap]
  by_cases hsg : nodeOf processors nnodes g = nodeOf processors nnodes s
  · have hnil : ((List.range nnodes).flatMap fun p => ((if p = nodeOf processors nnodes g then []
        else sentFrom processors nnodes logs g p).filter fun e => e.1 = s).map Prod.snd) = [] := by
      rw [List.flatMap_eq_nil_iff]
      intro p hp
      by_cases hpg : p = nodeOf processors nnodes g
      · rw [if_pos hpg]
        rfl
      · rw [if_neg hpg, hpart p (List.mem_range.mp hp), if_neg fun hc => hpg (hc.trans hsg.symm)]
    rw [if_pos hsg, hnil, List.append_nil]
  · rw [if_neg hsg, List.nil_append, flatMap_only hsn fun p hp hne => ?_, if_neg (Ne.symm hsg),
      hpart _ hsn, if_pos rfl]
    by_cases hpg : p = nodeOf processors nnodes g
    · rw [if_pos hpg]
      rfl
    · rw [if_neg hpg, hpart p hp, if_neg hne]

omit hm hsound in
theorem mem_delivered (hm : Mapped processors nnodes) (hg : g < processors) {e : ℕ × Message}
    (he : e ∈ delivered processors nnodes logs g) :
    ∃ p < nnodes, ∃ lp, (lp, .send g e.2) ∈ logs p ∧ e.1 = p * icd processors nnodes + lp := by
  have hfrom : ∃ p < nnodes, e ∈ sentFrom processors nnodes logs g p := by
    rcases List.mem_append.mp he with hown | hother
    · exact ⟨_, node_lt hm hg, hown⟩
    · obtain ⟨p, hp, hep⟩ := List.mem_flatMap.mp hother
      by_cases hpg : p = nodeOf processors nnodes g
      · simp [hpg] at hep
      · rw [if_neg hpg] at hep
        exact ⟨p, List.mem_range.mp hp, hep⟩
  obtain ⟨p, hp, hep⟩ := hfrom
  obtain ⟨⟨lp, call⟩, hc, hcall⟩ := List.mem_filterMap.mp hep
  cases call with
  | send pid m =>
    simp only [Option.ite_none_right_eq_some, Option.some.injEq] at hcall
    obtain ⟨rfl, rfl⟩ := hcall
    exact ⟨p, hp, lp, hc, rfl⟩
  | put | get | hpsend | setTagsize => cases hcall

theorem delivered_senders (hg : g < processors) :
    ∀ e ∈ delivered processors nnodes logs g, e.1 < processors := by
  intro e he
  obtain ⟨p, hp, lp, hc, hsender⟩ := mem_delivered hm hg he
  rw [hsender]
  exact (local_global hm (hsound p hp _ hc).1).1

theorem delivered_tags (hs : SameTags processors nnodes tagSize) (hg : g < processors) :
    ∀ e ∈ delivered processors nnodes logs g,
      e.2.tag.length = tagSize (nodeOf processors nnodes g) := by
  obtain ⟨t, ht⟩ := hs
  intro e he
  obtain ⟨p, hp, lp, hc, -⟩ := mem_delivered hm hg he
  obtain ⟨hlp, -, htag⟩ := hsound p hp _ hc
  rw [htag, ht p hp (Nat.zero_lt_of_lt hlp), ht _ (nodeOf_lt hm hg)
    (Nat.zero_lt_of_lt (localOf_lt hm hg))]

omit hm hsound in
theorem delivered_messages (hbuf : ∀ p < nnodes, ∀ c ∈ logs p, Buffered c.2) (hg : g < processors)
    (hm : Mapped processors nnodes) (p : Proc) :
    (delivered processors nnodes logs g).map Prod.snd =
      ((logs (nodeOf processors nnodes g)).filterMap (localSend processors nnodes
        (nodeOf processors nnodes g) (localOf processors nnodes g))).map (resolve p) ++
      forContext (localOf processors nnodes g)
        (arrivals processors nnodes logs (nodeOf processors nnodes g)) := by
  rw [delivered, List.map_append, List.map_flatMap, forContext, arrivals, List.filterMap_flatMap]
  congr 1
  · rw [sentFrom, List.map_filterMap, List.map_filterMap]
    apply List.filterMap_congr
    intro c hc
    have hb := hbuf _ (nodeOf_lt hm hg) c hc
    obtain ⟨lp, call⟩ := c
    cases call with
    | send pid m =>
      simp only [localSend, place_eq]
      by_cases hpid : pid = g <;> simp [hpid, resolve]
    | hpsend => exact hb.elim
    | put | get | setTagsize => rfl
  · apply List.flatMap_congr
    intro q hq
    by_cases hqg : q = nodeOf processors nnodes g
    · rw [if_pos hqg, List.map_nil, eq_comm, List.filterMap_filterMap, List.filterMap_eq_nil_iff]
      intro c hc
      have hb := hbuf q (List.mem_range.mp hq) c hc
      obtain ⟨lp, call⟩ := c
      cases call with
      | send pid m =>
        by_cases hpid : nodeOf processors nnodes pid = q
        · simp [arrival, hpid]
        · have hne : nodeOf processors nnodes pid ≠ nodeOf processors nnodes g := hqg ▸ hpid
          simp [arrival, hne]
      | hpsend => exact hb.elim
      | put | get | setTagsize => rfl
    · rw [if_neg hqg, sentFrom, List.map_filterMap, List.filterMap_filterMap]
      apply List.filterMap_congr
      intro c hc
      have hb := hbuf q (List.mem_range.mp hq) c hc
      obtain ⟨lp, call⟩ := c
      cases call with
      | send pid m =>
        by_cases hpid : pid = g
        · subst hpid
          simp [arrival, Ne.symm hqg]
        · by_cases hnode : nodeOf processors nnodes pid = nodeOf processors nnodes g
          · have hlocal : localOf processors nnodes pid ≠ localOf processors nnodes g :=
              fun hl => hpid (place_eq.mp ⟨hnode, hl⟩)
            simp [arrival, hpid, hnode, hlocal, Ne.symm hqg]
          · simp [arrival, hpid, hnode]
      | hpsend => exact hb.elim
      | put | get | setTagsize => rfl

end Delivered

section Superstep

variable {processors nnodes : ℕ} {tagSize : ℕ → ℕ} {w : ℕ → Node} {ops : ℕ → List (ℕ × ContextOp)}

def BufferedOp : ContextOp → Prop
  | .hpsend .. => False
  | _ => True

theorem logsAt_buffered (hops : ∀ q < nnodes, ∀ e ∈ ops q, BufferedOp e.2) :
    ∀ q < nnodes, ∀ c ∈ logsAt processors nnodes ops w q, Buffered c.2 := by
  intro q hq c hc
  obtain ⟨⟨lp, op⟩, hop, node, hemit⟩ := mem_trace hc
  have hb := hops q hq _ hop
  cases op with
  | put | get =>
    obtain ⟨base, -, rfl⟩ := List.mem_map.mp hemit
    trivial
  | hpput pid | hpget pid =>
    by_cases hrank : nodeOf processors nnodes pid = q
    · simp [emit, hrank] at hemit
    · simp only [emit, if_neg hrank] at hemit
      obtain ⟨base, -, rfl⟩ := List.mem_map.mp hemit
      trivial
  | send | setTagsize =>
    cases List.mem_singleton.mp hemit
    trivial
  | hpsend => exact hb.elim
  | pushReg | popReg | getTag | move | hpmove | compute => cases hemit

theorem buffered_targets (hm : Mapped processors nnodes) {logs : ℕ → List (ℕ × ContextCall)}
    (hbuf : ∀ q < nnodes, ∀ c ∈ logs q, Buffered c.2)
    (hsound : ∀ p < nnodes, ∀ c ∈ logs p, Sound processors nnodes p (tagSize p) c) (q : ℕ) :
    TargetsExist processors nnodes logs q := by
  intro e he
  obtain ⟨p, hp, c, hc, hcall⟩ := mem_arrivals he
  obtain ⟨-, hok⟩ := hsound p hp c hc
  rcases hcall with ⟨pid, hcall, hnode, -, hlocal⟩ | ⟨pid, tag, payload, nbytes, hcall, -⟩
  · rw [hcall] at hok
    rw [hlocal, ← hnode]
    exact localOf_lt hm hok.1
  · have hb := hbuf p hp c hc
    rw [hcall] at hb
    exact hb.elim

/-- The queue of context `g` holds the messages `ms`, given with their senders: those of
each sender in the order of its sends, and each with its tag, its payload and its size. -/
structure Delivers (processors nnodes : ℕ) (logs : ℕ → List (ℕ × ContextCall)) (w : ℕ → Node)
    (g : ℕ)
    (ms : List (ℕ × Message)) : Prop where
  senders : ∀ e ∈ ms, e.1 < processors
  order : ∀ s < processors,
    (ms.filter fun e => e.1 = s).map Prod.snd = sentBy processors nnodes logs s g
  drained : ∀ k, hpmoveTimes (w (nodeOf processors nnodes g)).proc (ms.length + k)
      (contextAt processors nnodes w g).localDeliveries =
    ms.map (fun e => some (e.2.payload.length, e.2)) ++ List.replicate k none
  qsize : bspQsize (contextAt processors nnodes w g).localDeliveries =
    (ms.length, (ms.map fun e => e.2.payload.length).sum)

theorem synced_delivers (hm : Mapped processors nnodes) {logs : ℕ → List (ℕ × ContextCall)}
    {v w' : ℕ → Node} (hbuf : ∀ q < nnodes, ∀ c ∈ logs q, Buffered c.2)
    (hsound : ∀ p < nnodes, ∀ c ∈ logs p, Sound processors nnodes p (tagSize p) c)
    (hs : SameTags processors nnodes tagSize) {g : ℕ} (hg : g < processors)
    (h : NodeSynced processors nnodes tagSize logs v (nodeOf processors nnodes g)
      (w' (nodeOf processors nnodes g))) :
    Delivers processors nnodes logs w' g (delivered processors nnodes logs g) := by
  let p := (w' (nodeOf processors nnodes g)).proc
  obtain ⟨new, hpend, hnew⟩ := h.queues _ (localOf_lt hm hg)
  generalize hall : (logs (nodeOf processors nnodes g)).filterMap (localSend processors nnodes
    (nodeOf processors nnodes g) (localOf processors nnodes g)) ++ new = moved at hpend
  have hmoved : moved.map (resolve p) = (delivered processors nnodes logs g).map Prod.snd := by
    rw [delivered_messages hbuf hg hm p, ← hall, List.map_append]
    exact congrArg _ (hnew p.mem)
  have hlen : moved.length = (delivered processors nnodes logs g).length := by
    have hmap := congrArg List.length hmoved
    rwa [List.length_map, List.length_map] at hmap
  have hread : ∀ m ∈ moved, TagRead p m := by
    intro m hmem
    cases m with
    | copied m =>
      have hdel : m ∈ (delivered processors nnodes logs g).map Prod.snd := by
        rw [← hmoved]
        exact List.mem_map_of_mem (f := resolve p) hmem
      obtain ⟨e, he, rfl⟩ := List.mem_map.mp hdel
      exact (delivered_tags hm hsound hs hg e he).trans h.recvTagSize.symm
    | pointed => trivial
  refine ⟨delivered_senders hm hsound hg, fun s hsp => delivered_sender hm hsound hg hsp,
    fun k => ?_, ?_⟩
  · have hdrain := hpmoveTimes_pending hpend hread k
    have hresults : (moved.map fun m => some (m.nbytes, resolve p m)) =
        (moved.map (resolve p)).map fun m => some (m.payload.length, m) := by
      rw [List.map_map]
      apply List.map_congr_left
      intro m _
      simp only [Function.comp_apply, resolve_nbytes]
    rw [hlen, hresults, hmoved, List.map_map] at hdrain
    exact hdrain
  · have hsize := pending_bspQsize hpend p
    rwa [hmoved, List.length_map, List.map_map] at hsize

/-- After a synchronisation every context finds the messages sent to it in the superstep
just ended, whatever the placement and the order of the calls on a node. -/
theorem superstep_delivers (hm : Mapped processors nnodes) (hp : processors ≤ 2 ^ 31)
    (hr : Reachable processors nnodes tagSize w) (ha : Admissible processors nnodes ops w)
    (hops : ∀ q < nnodes, ∀ e ∈ ops q, BufferedOp e.2) {fresh : ℕ → ℕ → RegReq}
    (hreg : ∀ v, localPhase processors nnodes ops w = some v →
      syncMemoryreg processors nnodes fresh (regsOf processors nnodes v) ≠ none) :
    ∃ w', superstep processors nnodes fresh ops w = some w' ∧ ∀ g < processors, ∃ ms,
      Delivers processors nnodes (logsAt processors nnodes ops w) w' g ms := by
  obtain ⟨hready, hsame⟩ := reachable_ready hm hp hr
  obtain ⟨v, hv, hlogged, hrun⟩ := localPhase_spec hready ha.admitted
  have hsound := fun (p : ℕ) (hp : p < nnodes) => (hrun p hp).2
  have hbuf : ∀ q < nnodes, ∀ c ∈ logsAt processors nnodes ops w q, Buffered c.2 :=
    logsAt_buffered hops
  obtain ⟨regs, hregs⟩ := Option.ne_none_iff_exists'.mp (hreg v hv)
  obtain ⟨w', hw', hsync⟩ := bspSync_spec hlogged hp (fun q hq => tagsFit hsame hsound hq)
    (fun q _ => buffered_targets hm hbuf hsound q) hregs
  refine ⟨w', by rw [superstep, hv]; exact hw', fun g hg =>
    ⟨delivered processors nnodes (logsAt processors nnodes ops w) g, ?_⟩⟩
  exact synced_delivers hm hbuf hsound hsame hg (hsync _ (nodeOf_lt hm hg)).1

def sampleOps : ℕ → List (ℕ × ContextOp)
  | 0 => [(1, .send 0 0 40 2), (0, .send 1 0 50 3), (1, .setTagsize 4), (0, .setTagsize 4),
      (0, .send 2 0 60 0), (1, .send 0 0 70 1)]
  | 1 => [(0, .send 0 0 80 5), (0, .send 2 0 90 1), (0, .setTagsize 4)]
  | _ => []

theorem superstep_delivers_three :
    ∃ w', superstep 3 2 (fun _ _ => ⟨0, 0, 0, false⟩) sampleOps
        (fun q => initNode 3 2 sampleStart q) = some w' ∧
      ∀ g < 3, ∃ ms, Delivers 3 2
        (logsAt 3 2 sampleOps fun q => initNode 3 2 sampleStart q) w' g ms := by
  have hm : Mapped 3 2 := ⟨by decide, by decide⟩
  have hready := init_ready 3 2 hm fun _ => sampleStart
  have hstatic : ∀ q < 2, ∀ e ∈ sampleOps q, Static 3 2 q 0
      (fun lp => ((initNode 3 2 sampleStart q).contexts lp).reg) e ∧ BufferedOp e.2 ∧
        ¬ Registers e.2 := by
    intro q hq e he
    have hcases : q = 0 ∨ q = 1 := by omega
    rcases hcases with rfl | rfl
    · simp only [sampleOps, List.mem_cons, List.not_mem_nil, or_false] at he
      rcases he with rfl | rfl | rfl | rfl | rfl | rfl
      · exact ⟨⟨by decide, by decide, by decide⟩, trivial, id⟩
      · exact ⟨⟨by decide, by decide, by decide⟩, trivial, id⟩
      · exact ⟨⟨by decide, trivial⟩, trivial, id⟩
      · exact ⟨⟨by decide, trivial⟩, trivial, id⟩
      · exact ⟨⟨by decide, by decide, by decide⟩, trivial, id⟩
      · exact ⟨⟨by decide, by decide, by decide⟩, trivial, id⟩
    · simp only [sampleOps, List.mem_cons, List.not_mem_nil, or_false] at he
      rcases he with rfl | rfl | rfl
      · exact ⟨⟨by decide, by decide, by decide⟩, trivial, id⟩
      · exact ⟨⟨by decide, by decide, by decide⟩, trivial, id⟩
      · exact ⟨⟨by decide, trivial⟩, trivial, id⟩
  refine superstep_delivers hm (by decide) (Reachable.init fun _ => sampleStart)
    ⟨fun q hq => along_static hm (hready.logged q hq) (fun _ => rfl) fun e he =>
      (hstatic q hq e he).1,
      [4], by decide⟩ (fun q hq e he => (hstatic q hq e he).2.1) fun v hv => ?_
  rw [no_registrations hm (fun q hq e he => (hstatic q hq e he).2.2) hv
    (ContextLive.skips_empty hm fun _ _ => rfl)]
  exact Option.some_ne_none _

end Superstep

end BspOnMpi.ContextBsmp
