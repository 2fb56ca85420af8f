import Maruswap.GuardedRun
import Maruswap.RpcCalls
import Maruswap.RpcResult

/-!
# One RPC as a run of the client

`RpcCalls` takes the RPCs of the driver line by line, `RpcResult` one of them as a
function of what its polls yield. If the completion queues yield the same, the lines of
one call come to what the function says.
-/

set_option autoImplicit false

namespace Maruswap.RpcRuns
open WireFormat GuardedRun
open RpcCalls (Client Completion Label Request nrBinders)
open RpcResult (SendResult RecvResult sendLoop recvLoop recordReply takeReply ibRpc)

variable {P : Type*}

/-- A line of call `c`, or a step of the queue pair. -/
def Serves (c : ℕ) : Label P → Prop
  | .acquire d _ => d = c
  | .post d _ => d = c
  | .answer _ _ _ => True
  | .complete _ => True
  | .pollSend d _ => d = c
  | .sent d => d = c
  | .readFlags d => d = c
  | .pollRecv d _ => d = c
  | .storePrivate d => d = c
  | .setFlags d => d = c
  | .loadPrivate d => d = c
  | .copy d => d = c
  | .putBack d => d = c
  | .checkBinder d => d = c
  | .release d => d = c

abbrev Goes (k : Client) (c : ℕ) (w u : RpcCalls.Rpc P) : Prop :=
  Reaches (RpcCalls.step k) (Serves c) w u

structure Alike (s : RpcResult.Rpc P) (w : RpcCalls.Rpc P) : Prop where
  flags : ∀ b, (w.binders b).flags = (s.binders b).flags
  priv : ∀ b p, (s.binders b).priv = some p → (w.binders b).priv = p
  buffer : ∀ r, (w.rw r).buffer = s.buffer r

/-- The completions of other calls come first, that of call `c` behind them. -/
def SendsFrom (c : ℕ) : List SendResult → List ℕ → Prop
  | [], _ => True
  | .empty::rs, cq => SendsFrom c rs cq
  | .negative::_, _ => True
  | .failed::_, _ => True
  | .got true::_, cq => cq = []
  | .got false::rs, cq => ∃ d cq', cq = d::cq' ∧ d ≠ c ∧ SendsFrom c rs cq'

/-- Replies that have come before, and behind them the answer to the word `own`, in one
of the works that are posted. A receive that fails is that of a posted work, too. -/
def RecvsFrom : List ℕ → Option U32 → List RecvResult → List Completion → Prop
  | _, _, [], _ => True
  | posted, own, .empty::rs, cq => RecvsFrom posted own rs cq
  | _, _, .negative::_, _ => True
  | posted, _, .failed::_, _ => posted ≠ []
  | posted, own, .got reply::rs, cq =>
    (∃ wc cq', cq = wc::cq' ∧ wc.immData = reply.immData ∧ wc.wrId = reply.wrId ∧
      RecvsFrom posted own rs cq') ∨
    (cq = [] ∧ own = some reply.immData ∧ reply.wrId ∈ posted ∧
      RecvsFrom (posted.erase reply.wrId) none rs [])

structure Unread (w u : RpcCalls.Rpc P) : Prop where
  binders : u.binders = w.binders
  rw : u.rw = w.rw
  recvCq : u.recvCq = w.recvCq
  requests : u.requests = w.requests
  posted : u.posted = w.posted
  res : u.res = w.res

theorem Unread.trans {w u v : RpcCalls.Rpc P} (h : Unread w u) (k : Unread u v) : Unread w v :=
  ⟨k.binders.trans h.binders,k.rw.trans h.rw,k.recvCq.trans h.recvCq,
    k.requests.trans h.requests,k.posted.trans h.posted,k.res.trans h.res⟩

variable {k : Client} {c b : ℕ}

def completed (c : ℕ) (w : RpcCalls.Rpc P) : RpcCalls.Rpc P :=
  { w with sends := w.sends.erase c, sendCq := w.sendCq++[c] }

def marked (d : ℕ) (cq : List ℕ) (w : RpcCalls.Rpc P) : RpcCalls.Rpc P :=
  { w with sendCq := cq, done := Function.update w.done d true }

theorem complete_goes {w : RpcCalls.Rpc P} (hposted : c ∈ w.sends) :
    Goes k c w (completed c w) :=
  reaches_step (show Serves c (.complete c) from trivial) (if_pos hposted)

theorem poll_send_goes (r : RpcCalls.PollResult) {w u : RpcCalls.Rpc P}
    (hpc : w.pc c = .sending b)
    (h : RpcCalls.pollSend c (.waiting b) (.returned false) r w = some u) : Goes k c w u := by
  refine reaches_step (show Serves c (.pollSend c r) from rfl) ?_
  simp only [RpcCalls.step, hpc]
  exact h

theorem send_loop_goes (sends : List SendResult) {goOn : Bool}
    (h : sendLoop sends = some goOn) {w : RpcCalls.Rpc P} (hpc : w.pc c = .sending b)
    (hdone : w.done c = false) (hposted : c ∈ w.sends) (hcq : SendsFrom c sends w.sendCq) :
    ∃ u, Goes k c w u ∧ Unread w u ∧
      u.pc c = if goOn then .waiting b else .returned false := by
  induction sends generalizing w with
  | nil => cases h
  | cons r rs ih =>
    cases r with
    | empty => exact ih h hpc hdone hposted hcq
    | negative =>
      obtain rfl := Option.some.inj h
      exact ⟨_,poll_send_goes .negative hpc rfl,⟨rfl,rfl,rfl,rfl,rfl,rfl⟩,
        Function.update_self ..⟩
    | failed =>
      obtain rfl := Option.some.inj h
      obtain ⟨d,cq,hhead⟩ : ∃ d cq, (completed c w).sendCq = d::cq :=
        List.exists_cons_of_ne_nil (by simp [completed])
      have hpoll : Goes k c (completed c w)
          { (completed c w).move c (.returned false) with sendCq := cq } :=
        poll_send_goes .failed hpc (by simp only [RpcCalls.pollSend, hhead])
      exact ⟨_,(complete_goes hposted).trans hpoll,⟨rfl,rfl,rfl,rfl,rfl,rfl⟩,
        Function.update_self ..⟩
    | got own =>
      cases own with
      | true =>
        obtain rfl := Option.some.inj h
        have hempty : w.sendCq = [] := hcq
        have hhead : (completed c w).sendCq = [c] := by simp [completed, hempty]
        have hpoll : Goes k c (completed c w) (marked c [] (completed c w)) :=
          poll_send_goes .got hpc (by simp only [RpcCalls.pollSend, hhead, marked])
        have hsent : Goes k c (marked c [] (completed c w))
            ((marked c [] (completed c w)).move c (.waiting b)) := by
          refine reaches_step (show Serves c (.sent c) from rfl) ?_
          simp [RpcCalls.step, marked, completed, hpc]
        exact ⟨_,((complete_goes hposted).trans hpoll).trans hsent,⟨rfl,rfl,rfl,rfl,rfl,rfl⟩,
          Function.update_self ..⟩
      | false =>
        obtain ⟨d,cq,hhead,hdc,hrest⟩ := hcq
        have hpoll : Goes k c w (marked d cq w) :=
          poll_send_goes .got hpc (by simp only [RpcCalls.pollSend, hhead, marked])
        have hdone' : (marked d cq w).done c = false := by
          simpa [marked, Ne.symm hdc] using hdone
        have hsame : Unread w (marked d cq w) := ⟨rfl,rfl,rfl,rfl,rfl,rfl⟩
        obtain ⟨u,hu,hrest,hend⟩ := ih h (w := marked d cq w) hpc hdone' hposted hrest
        exact ⟨u,hpoll.trans hu,hsame.trans hrest,hend⟩

theorem read_flags_goes {w : RpcCalls.Rpc P} (hpc : w.pc c = .waiting b) :
    Goes k c w (w.move c (if (w.binders b).flags = 2 then .ready b else .polling b)) := by
  refine reaches_step (show Serves c (.readFlags c) from rfl) ?_
  simp only [RpcCalls.step, hpc]

theorem poll_recv_goes (r : RpcCalls.RecvResult) {w u : RpcCalls.Rpc P}
    (hpc : w.pc c = .waiting b) (hflag : (w.binders b).flags ≠ 2)
    (h : RpcCalls.pollRecv k c b r (w.move c (.polling b)) = some u) : Goes k c w u := by
  have hread := @read_flags_goes P k c b w hpc
  rw [if_neg hflag] at hread
  refine hread.trans (reaches_step (show Serves c (.pollRecv c r) from rfl) ?_)
  have hpoll : (w.move c (.polling b)).pc c = .polling b := Function.update_self ..
  simp only [RpcCalls.step, hpoll]
  exact h

/-- The loop takes the first reply off the queue and writes into its binder. -/
structure Took (b : ℕ) (wc : Completion) (cq : List Completion) (c : ℕ)
    (w u : RpcCalls.Rpc P) : Prop where
  pc : u.pc c = .waiting b
  recvCq : u.recvCq = cq
  binders : u.binders =
    Function.update w.binders (replyBinder wc.immData) ⟨2,wc.wrId⟩
  rw : u.rw = w.rw
  requests : u.requests = w.requests
  posted : u.posted = w.posted
  res : u.res = w.res

def polled (c b : ℕ) (wc : Completion) (cq : List Completion) (w : RpcCalls.Rpc P) :
    RpcCalls.Rpc P :=
  { (w.move c (.polling b)).move c (.polled b wc) with recvCq := cq }

def stored (c b : ℕ) (wc : Completion) (w : RpcCalls.Rpc P) : RpcCalls.Rpc P :=
  (w.setBinder (replyBinder wc.immData)
    { w.binders (replyBinder wc.immData) with priv := wc.wrId }).move c (.marking b wc)

def flagged (c b : ℕ) (wc : Completion) (w : RpcCalls.Rpc P) : RpcCalls.Rpc P :=
  (w.setBinder (replyBinder wc.immData)
    { w.binders (replyBinder wc.immData) with flags := 2 }).move c (.waiting b)

theorem take_goes {w : RpcCalls.Rpc P} (hpc : w.pc c = .waiting b)
    (hflag : (w.binders b).flags ≠ 2) {wc : Completion} {cq : List Completion}
    (hcq : w.recvCq = wc::cq) : ∃ u, Goes k c w u ∧ Took b wc cq c w u := by
  have hpoll : Goes k c w (polled c b wc cq w) := by
    refine poll_recv_goes .got hpc hflag ?_
    have hhead : (w.move c (.polling b)).recvCq = wc::cq := hcq
    simp only [RpcCalls.pollRecv, hhead, polled]
  have hstore : Goes k c (polled c b wc cq w) (stored c b wc (polled c b wc cq w)) := by
    refine reaches_step (show Serves c (.storePrivate c) from rfl) ?_
    have hpolled : (polled c b wc cq w).pc c = .polled b wc := Function.update_self ..
    simp only [RpcCalls.step, hpolled, stored]
  have hset : Goes k c (stored c b wc (polled c b wc cq w))
      (flagged c b wc (stored c b wc (polled c b wc cq w))) := by
    refine reaches_step (show Serves c (.setFlags c) from rfl) ?_
    have hstored : (stored c b wc (polled c b wc cq w)).pc c = .marking b wc :=
      Function.update_self ..
    simp only [RpcCalls.step, hstored, flagged]
  refine ⟨_,(hpoll.trans hstore).trans hset,Function.update_self ..,rfl,?_,rfl,rfl,rfl,rfl⟩
  simp [flagged, stored, polled, RpcCalls.Rpc.setBinder, RpcCalls.Rpc.move]

theorem answer_goes {w : RpcCalls.Rpc P} {q : Request} {v : ℕ} (payload : P)
    (hq : q ∈ w.requests) (hv : v ∈ w.posted) :
    Goes k c w (RpcCalls.answer q payload v w) :=
  reaches_step (show Serves c (.answer q payload v) from trivial) (if_pos ⟨hq,hv⟩)

theorem Alike.took {s : RpcResult.Rpc P} {w u : RpcCalls.Rpc P} (h : Alike s w)
    {wc : Completion} {cq : List Completion} (ht : Took b wc cq c w u)
    {reply : RpcResult.Reply} (himm : wc.immData = reply.immData) (hwr : wc.wrId = reply.wrId) :
    Alike (recordReply reply s) u := by
  refine ⟨fun d => ?_,fun d p hp => ?_,fun r => ?_⟩
  · rw [ht.binders, himm]
    by_cases hd : d = replyBinder reply.immData
    · subst hd; simp [recordReply]
    · simpa [recordReply, hd] using h.flags d
  · rw [ht.binders, himm, hwr]
    by_cases hd : d = replyBinder reply.immData
    · subst hd
      simpa [recordReply] using hp
    · have hp' : (s.binders d).priv = some p := by simpa [recordReply, hd] using hp
      simpa [hd] using h.priv d p hp'
  · rw [ht.rw]
    exact h.buffer r

theorem Alike.move {s : RpcResult.Rpc P} {w : RpcCalls.Rpc P} (h : Alike s w) (p : RpcCalls.Pc) :
    Alike s (w.move c p) :=
  ⟨h.flags,h.priv,h.buffer⟩

theorem Alike.answered {s : RpcResult.Rpc P} {w : RpcCalls.Rpc P} (h : Alike s w) (q : Request)
    (v : ℕ) : Alike s (RpcCalls.answer q (s.buffer v) v w) := by
  refine ⟨h.flags,h.priv,fun r => ?_⟩
  by_cases hr : r = v
  · subst hr; simp [RpcCalls.answer]
  · simpa [RpcCalls.answer, hr] using h.buffer r

theorem marked_goes {recvs : List RecvResult} {ok : Bool} {s t : RpcResult.Rpc P}
    (hflag : (s.binders b).flags = 2) (h : recvLoop b recvs s = some (ok,t))
    {w : RpcCalls.Rpc P} (hw : Alike s w) (hpc : w.pc c = .waiting b) :
    ∃ u, Goes k c w u ∧ Alike t u ∧ u.res = w.res ∧
      u.pc c = if ok then .ready b else .returned false := by
  obtain ⟨rfl,rfl⟩ := RpcResult.recv_loop_marked hflag h
  have hread := @read_flags_goes P k c b w hpc
  rw [if_pos ((hw.flags b).trans hflag)] at hread
  exact ⟨_,hread,hw.move _,rfl,Function.update_self ..⟩

theorem recv_loop_goes (hk : k.driver = true) (recvs : List RecvResult)
    {own : Option U32} {ok : Bool} {s t : RpcResult.Rpc P}
    (h : recvLoop b recvs s = some (ok,t)) {w : RpcCalls.Rpc P} (hw : Alike s w)
    (hpc : w.pc c = .waiting b)
    (hown : ∀ i, own = some i → ⟨i,c,b⟩ ∈ w.requests)
    (hcq : RecvsFrom w.posted own recvs w.recvCq) :
    ∃ u, Goes k c w u ∧ Alike t u ∧ u.res = w.res ∧
      u.pc c = if ok then .ready b else .returned false := by
  induction recvs generalizing own s w with
  | nil =>
    by_cases hflag : (s.binders b).flags = 2
    · exact marked_goes hflag h hw hpc
    · unfold recvLoop at h
      rw [if_neg hflag] at h
      cases h
  | cons r rs ih =>
    by_cases hflag : (s.binders b).flags = 2
    · exact marked_goes hflag h hw hpc
    have hflag' : (w.binders b).flags ≠ 2 := fun he => hflag ((hw.flags b).symm.trans he)
    unfold recvLoop at h
    rw [if_neg hflag] at h
    cases r with
    | empty =>
      have hpoll : Goes k c w ((w.move c (.polling b)).move c (.waiting b)) :=
        poll_recv_goes .empty hpc hflag' rfl
      obtain ⟨u,hu,ht,hres,hend⟩ := ih (w := (w.move c (.polling b)).move c (.waiting b)) h
        ((hw.move _).move _) (Function.update_self ..) hown hcq
      exact ⟨u,hpoll.trans hu,ht,hres,hend⟩
    | negative =>
      obtain ⟨rfl,rfl⟩ := Prod.mk.inj (Option.some.inj h)
      refine ⟨_,poll_recv_goes .negative hpc hflag' rfl,(hw.move _).move _,rfl,?_⟩
      simp [RpcCalls.Rpc.move, hk]
    | failed =>
      obtain ⟨rfl,rfl⟩ := Prod.mk.inj (Option.some.inj h)
      obtain ⟨v,hv⟩ := List.exists_mem_of_ne_nil _ hcq
      have hv' : v ∈ (w.move c (.polling b)).posted := hv
      have hpoll : Goes k c w { (w.move c (.polling b)).move c (.returned false) with
          posted := (w.move c (.polling b)).posted.erase v } :=
        poll_recv_goes (.failed 0#32 v) hpc hflag'
          (by simp only [RpcCalls.pollRecv, if_pos hv', hk, if_true])
      exact ⟨_,hpoll,⟨hw.flags,hw.priv,hw.buffer⟩,rfl,Function.update_self ..⟩
    | got reply =>
      rcases hcq with ⟨wc,cq,hhead,himm,hwr,hrest⟩ | ⟨hempty,hword,hv,hrest⟩
      · obtain ⟨v,hv,ht⟩ := @take_goes P k c b w hpc hflag' wc cq hhead
        obtain ⟨u,hu,htu,hres,hend⟩ := ih (w := v) h (hw.took ht himm hwr) ht.pc
          (by rw [ht.requests]; exact hown) (by rw [ht.recvCq, ht.posted]; exact hrest)
        exact ⟨u,hv.trans hu,htu,hres.trans ht.res,hend⟩
      · have hq := hown _ hword
        have ha := hw.answered ⟨reply.immData,c,b⟩ reply.wrId
        have hhead : (RpcCalls.answer ⟨reply.immData,c,b⟩ (s.buffer reply.wrId)
            reply.wrId w).recvCq = [⟨reply.immData,reply.wrId,c,b⟩] := by
          simp [RpcCalls.answer, hempty]
        obtain ⟨v,hv',ht⟩ := @take_goes P k c b (RpcCalls.answer ⟨reply.immData,c,b⟩
          (s.buffer reply.wrId) reply.wrId w) hpc hflag' _ _ hhead
        have hnone : ∀ i, none = some i → ⟨i,c,b⟩ ∈ v.requests := by
          intro i hi
          cases hi
        obtain ⟨u,hu,htu,hres,hend⟩ := ih (w := v) h (ha.took ht rfl rfl) ht.pc hnone
          (by rw [ht.recvCq, ht.posted]; exact hrest)
        exact ⟨u,((answer_goes _ hq hv).trans hv').trans hu,htu,hres.trans ht.res,hend⟩

def taken (c b v : ℕ) (w : RpcCalls.Rpc P) : RpcCalls.Rpc P :=
  RpcCalls.putBack c b v (RpcCalls.copy c b v (w.move c (.loaded b v)))

theorem taken_goes {w : RpcCalls.Rpc P} (hpc : w.pc c = .ready b) {v : ℕ}
    (hv : (w.binders b).priv = v) : Goes k c w (taken c b v w) := by
  have hload : Goes k c w (w.move c (.loaded b v)) := by
    refine reaches_step (show Serves c (.loadPrivate c) from rfl) ?_
    simp only [RpcCalls.step, hpc, hv]
  have hcopy : Goes k c (w.move c (.loaded b v))
      (RpcCalls.copy c b v (w.move c (.loaded b v))) := by
    refine reaches_step (show Serves c (.copy c) from rfl) ?_
    have hloaded : (w.move c (.loaded b v)).pc c = .loaded b v := Function.update_self ..
    simp only [RpcCalls.step, hloaded]
  have hput : Goes k c (RpcCalls.copy c b v (w.move c (.loaded b v))) (taken c b v w) := by
    refine reaches_step (show Serves c (.putBack c) from rfl) ?_
    have hcopied : (RpcCalls.copy c b v (w.move c (.loaded b v))).pc c = .copied b v :=
      Function.update_self ..
    simp only [RpcCalls.step, hcopied, taken]
  exact (hload.trans hcopy).trans hput

theorem take_reply_goes (hk : k.driver = true) {s t : RpcResult.Rpc P}
    (h : takeReply b s = some t) {w : RpcCalls.Rpc P} (hw : Alike s w)
    (hpc : w.pc c = .ready b) :
    ∃ u, Goes k c w u ∧ Alike t u ∧ u.res c = some t.res ∧ u.pc c = .returned true := by
  obtain ⟨v,hv,rfl⟩ := Option.map_eq_some_iff.mp h
  have htake := @taken_goes P k c b w hpc v (hw.priv b v hv)
  have hput : (taken c b v w).pc c = .putBack b := Function.update_self ..
  have hres : (taken c b v w).res c = some (s.buffer v) := by
    simp [taken, RpcCalls.putBack, RpcCalls.copy, RpcCalls.Rpc.move, hw.buffer]
  rw [RpcResult.putBinder]
  by_cases hflag : (s.binders b).flags = 2
  · have hflag' : ((taken c b v w).binders b).flags = 2 := (hw.flags b).trans hflag
    have hcheck : Goes k c (taken c b v w) ((taken c b v w).move c (.checked b)) := by
      refine reaches_step (show Serves c (.checkBinder c) from rfl) ?_
      simp only [RpcCalls.step, hput, hflag', if_true]
    have hrelease : Goes k c ((taken c b v w).move c (.checked b))
        (RpcCalls.release k c b ((taken c b v w).move c (.checked b))) := by
      refine reaches_step (show Serves c (.release c) from rfl) ?_
      have hchecked : ((taken c b v w).move c (.checked b)).pc c = .checked b :=
        Function.update_self ..
      simp only [RpcCalls.step, hchecked]
    rw [if_neg (not_not.mpr hflag)]
    have hbinders : (RpcCalls.release k c b ((taken c b v w).move c (.checked b))).binders =
        Function.update w.binders b { w.binders b with flags := 0 } := rfl
    refine ⟨_,(htake.trans hcheck).trans hrelease,⟨fun d => ?_,fun d p hp => ?_,hw.buffer⟩,
      hres,?_⟩
    · rw [hbinders]
      by_cases hd : d = b
      · subst hd; simp
      · simpa [hd] using hw.flags d
    · rw [hbinders]
      by_cases hd : d = b
      · subst hd
        simpa using hw.priv d p (by simpa using hp)
      · simpa [hd] using hw.priv d p (by simpa [hd] using hp)
    · simp [RpcCalls.release, RpcCalls.Rpc.move, hk]
  · have hflag' : ((taken c b v w).binders b).flags ≠ 2 :=
      fun he => hflag ((hw.flags b).symm.trans he)
    have hcheck : Goes k c (taken c b v w) ((taken c b v w).move c (.returned true)) := by
      refine reaches_step (show Serves c (.checkBinder c) from rfl) ?_
      simp only [RpcCalls.step, hput, if_neg hflag', hk, if_true]
    rw [if_pos hflag]
    exact ⟨_,htake.trans hcheck,⟨hw.flags,hw.priv,hw.buffer⟩,hres,Function.update_self ..⟩

def bound (c b : ℕ) (w : RpcCalls.Rpc P) : RpcCalls.Rpc P :=
  (w.setBinder b { w.binders b with flags := 1 }).move c (.bound b)

theorem bound_goes {w : RpcCalls.Rpc P} (hb : b < nrBinders) (hpc : w.pc c = .idle)
    (hfree : (w.binders b).flags = 0) : Goes k c w (bound c b w) := by
  refine reaches_step (show Serves c (.acquire c b) from rfl) ?_
  simp only [RpcCalls.step, hpc, if_pos hb, RpcCalls.getBinder, if_pos hfree, bound]

theorem post_goes (hk : k.driver = true) (w : RpcCalls.Rpc P) (accepted : Bool) :
    Goes k c (bound c b w) (if accepted then RpcCalls.post k c b (bound c b w)
      else (bound c b w).move c (.returned false)) := by
  refine reaches_step (show Serves c (.post c accepted) from rfl) ?_
  have hbound : (bound c b w).pc c = .bound b := Function.update_self ..
  cases accepted <;> simp [RpcCalls.step, hbound, hk]

theorem Alike.bound {s s' : RpcResult.Rpc P} {w : RpcCalls.Rpc P} (h : Alike s w)
    (hs : RpcResult.getBinder b s = some s') : (w.binders b).flags = 0 ∧
      Alike s' (bound c b w) := by
  obtain ⟨hfree,hs⟩ := Option.ite_none_right_eq_some.mp hs
  obtain rfl := Option.some.inj hs
  refine ⟨(h.flags b).trans hfree,fun d => ?_,fun d p hp => ?_,h.buffer⟩
  · by_cases hd : d = b
    · subst hd; simp [RpcRuns.bound, RpcCalls.Rpc.setBinder, RpcCalls.Rpc.move]
    · simpa [RpcRuns.bound, RpcCalls.Rpc.setBinder, RpcCalls.Rpc.move, hd] using h.flags d
  · by_cases hd : d = b
    · subst hd
      have hp' : (s.binders d).priv = some p := by simpa using hp
      simpa [RpcRuns.bound, RpcCalls.Rpc.setBinder, RpcCalls.Rpc.move] using h.priv d p hp'
    · have hp' : (s.binders d).priv = some p := by simpa [hd] using hp
      simpa [RpcRuns.bound, RpcCalls.Rpc.setBinder, RpcCalls.Rpc.move, hd] using h.priv d p hp'

/-- What one call comes to, its lines come to, if the queues yield what it polls. -/
theorem rpc_is_run (hk : k.driver = true) {accepted : Bool} {sends : List SendResult}
    {recvs : List RecvResult} {s t : RpcResult.Rpc P} {ret : U32}
    (h : ibRpc (k.opcode c) b accepted sends recvs s = some (ret,t)) (hb : b < nrBinders)
    {w : RpcCalls.Rpc P} (hw : Alike s w) (hpc : w.pc c = .idle) (hdone : w.done c = false)
    (hsends : SendsFrom c sends w.sendCq)
    (hrecvs : RecvsFrom w.posted (some (rpcImm (k.opcode c) b)) recvs w.recvCq) :
    ∃ u, Goes k c w u ∧ Alike t u ∧ u.pc c = .returned (ret = 0#32) ∧
      u.res c = if ret = 0#32 then some t.res else w.res c := by
  obtain ⟨s₁,hs₁,h⟩ := Option.bind_eq_some_iff.mp h
  have hw₀ : Alike { s with polled := [], putBack := [] } w := ⟨hw.flags,hw.priv,hw.buffer⟩
  obtain ⟨hfree,hw₁⟩ := hw₀.bound (c := c) hs₁
  have hbound := @bound_goes P k c b w hb hpc hfree
  have hpost := @post_goes P k c b hk w accepted
  cases accepted with
  | false =>
    obtain ⟨rfl,rfl⟩ := Prod.mk.inj (Option.some.inj h)
    exact ⟨_,hbound.trans hpost,hw₁.move _,Function.update_self ..,rfl⟩
  | true =>
    simp only [Bool.not_true, Bool.false_eq_true, if_false] at h
    obtain ⟨goOn,hsend,h⟩ := Option.bind_eq_some_iff.mp h
    have hsending : (RpcCalls.post k c b (bound c b w)).pc c = .sending b := by
      simp [RpcCalls.post, RpcCalls.Rpc.move, hk]
    obtain ⟨u,hu,hsame,hend⟩ := @send_loop_goes P k c b sends goOn hsend
      (RpcCalls.post k c b (bound c b w)) hsending hdone (by simp [RpcCalls.post]) hsends
    have hgo : Goes k c w u := (hbound.trans hpost).trans hu
    have hwu : Alike { s₁ with sent := rpcImm (k.opcode c) b::s₁.sent } u := by
      refine ⟨?_,?_,?_⟩
      · rw [hsame.binders]; exact hw₁.flags
      · rw [hsame.binders]; exact hw₁.priv
      · rw [hsame.rw]; exact hw₁.buffer
    have hresu : u.res = w.res := hsame.res
    cases goOn with
    | false =>
      obtain ⟨rfl,rfl⟩ := Prod.mk.inj (Option.some.inj h)
      exact ⟨u,hgo,hwu,hend,congrFun hresu c⟩
    | true =>
      simp only [Bool.not_true, Bool.false_eq_true, if_false] at h
      obtain ⟨⟨ok,s₂⟩,hrecv,h⟩ := Option.bind_eq_some_iff.mp h
      have hown : ∀ i, some (rpcImm (k.opcode c) b) = some i →
          ⟨i,c,b⟩ ∈ u.requests := by
        rintro i ⟨rfl⟩
        rw [hsame.requests]
        simp [RpcCalls.post]
      have hqueue : RecvsFrom u.posted (some (rpcImm (k.opcode c) b)) recvs u.recvCq := by
        rw [hsame.recvCq, hsame.posted]
        exact hrecvs
      obtain ⟨v,hv,hwv,hresv,hend'⟩ := recv_loop_goes hk recvs hrecv hwu hend hown hqueue
      cases ok with
      | false =>
        obtain ⟨rfl,rfl⟩ := Prod.mk.inj (Option.some.inj h)
        exact ⟨v,hgo.trans hv,hwv,hend',congrFun (hresv.trans hresu) c⟩
      | true =>
        obtain ⟨s₃,htake,heq⟩ := Option.map_eq_some_iff.mp h
        obtain ⟨rfl,rfl⟩ := Prod.mk.inj heq
        obtain ⟨x,hx,hwx,hresx,hendx⟩ := take_reply_goes hk htake hwv hend'
        exact ⟨x,(hgo.trans hv).trans hx,hwx,hendx,hresx⟩

def openClient : Client := ⟨true,fun _ => 0x10000000#32,fun _ => true⟩

def sampleRpc : RpcResult.Rpc ℕ := ⟨fun _ => ⟨0,none⟩,fun v => v*v,7,[],[],[]⟩

theorem rpc_is_run_sample : ∃ u, Goes openClient 0 (RpcCalls.initRpc 8 fun v => v*v) u ∧
    u.pc 0 = .returned true ∧ u.res 0 = some 9 := by
  have hret : (ibRpc 0x10000000#32 0 true [.empty,.got true]
      [.empty,.got ⟨rpcImm 0x10000000#32 0,3⟩] sampleRpc).map
        (fun a => (a.1,a.2.res)) = some (0#32,9) := by
    decide +kernel
  obtain ⟨⟨ret,t⟩,ht,he⟩ := Option.map_eq_some_iff.mp hret
  obtain ⟨rfl,hres⟩ := Prod.mk.inj he
  obtain ⟨u,hu,-,hpc,hanswer⟩ := rpc_is_run (k := openClient) (c := 0)
    (w := RpcCalls.initRpc 8 fun v => v*v) rfl ht (by decide)
    ⟨fun _ => rfl,by simp [sampleRpc],fun _ => rfl⟩ rfl rfl rfl
    (.inr ⟨rfl,rfl,by decide,trivial⟩)
  exact ⟨u,hu,by simpa using hpc,by rw [hanswer, if_pos rfl]; exact congrArg some hres⟩

end Maruswap.RpcRuns
