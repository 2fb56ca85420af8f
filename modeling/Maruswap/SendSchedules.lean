import Mathlib.Data.List.Nodup
import Maruswap.SendWaits

/-!
# Where schedules come from

A call on the shared queue of `SendQueue`, where a completion goes to whoever polls it,
is a call of `SendWaits` under a schedule. Once its completion has been polled its loop
ends, or another call has taken from it what would have ended it.
-/

set_option autoImplicit false

namespace Maruswap.SendSchedules
open WireFormat GuardedRun SendWaits
open SendQueue (Pc Queue Completion initQueue)

def outstanding (q : Queue) : List ℕ := q.posted++q.sendCq.map Completion.wrId

structure Single (q : Queue) : Prop where
  nodup : (outstanding q).Nodup
  idle : ∀ c, q.pc c = .idle → c ∉ outstanding q ∧ q.done c = false
  queued : ∀ wc ∈ q.sendCq, q.status wc.wrId = some wc.success

/-- What a step of the queue is to call `c`. -/
def shows (c : ℕ) : SendQueue.Label → Queue → List Label
  | .test d, _ => if d = c then [.test] else []
  | .miss d, _ => if d = c then [.miss] else []
  | .poll d, q => match q.sendCq with
    | [] => []
    | wc::_ =>
      if d = c then [.poll (wc.wrId = c) wc.success]
      else if wc.wrId = c then [.taken wc.success] else []
  | .post _, _ => []
  | .complete _ _, _ => []

structure View (c : ℕ) (q : Queue) (s : Wait) : Prop where
  pc : s.pc = q.pc c
  done : s.done = q.done c
  ret : s.ret = 0#32
  owed : s.owed = true ↔ c ∈ outstanding q
  status : c ∉ outstanding q → s.status = q.status c

variable {q q' : Queue} {c d : ℕ} {wc : Completion} {cq : List Completion}

theorem complete_perm (posted : List ℕ) (cq : List Completion) (hd : d ∈ posted) (success : Bool) :
    (posted.erase d++(cq++[(⟨d,success⟩ : Completion)]).map Completion.wrId).Perm
      (posted++cq.map Completion.wrId) := by
  rw [List.map_append, ← List.append_assoc]
  refine (List.perm_append_singleton d _).trans ?_
  exact ((List.perm_cons_erase hd).append_right _).symm

theorem Single.tail (h : Single q) (hq : q.sendCq = wc::cq) :
    (q.posted++cq.map Completion.wrId).Nodup ∧
      ∀ d, d ∈ q.posted++cq.map Completion.wrId ↔ d ∈ outstanding q ∧ d ≠ wc.wrId := by
  have hn := h.nodup
  rw [outstanding, hq, List.map_cons, List.nodup_middle, List.nodup_cons] at hn
  refine ⟨hn.2,fun d => ?_⟩
  rw [outstanding, hq, List.map_cons, List.perm_middle.mem_iff, List.mem_cons]
  constructor
  · refine fun hd => ⟨.inr hd,?_⟩
    rintro rfl
    exact hn.1 hd
  · exact fun hd => hd.1.resolve_left hd.2

theorem move_idle {p : Pc} (hp : p ≠ .idle) (hd : (q.move d p).pc c = .idle) :
    q.pc c = .idle := by
  by_cases hcd : c = d
  · subst hcd
    exact absurd (by simpa [Queue.move] using hd) hp
  · simpa [Queue.move, hcd] using hd

theorem step_single (l : SendQueue.Label) (q q' : Queue) (h : Single q)
    (hs : SendQueue.step l q = some q') : Single q' := by
  cases l with
  | post d =>
    obtain ⟨hpc,hs⟩ := Option.ite_none_right_eq_some.mp hs
    obtain rfl := Option.some.inj hs
    obtain ⟨hnot,hdone⟩ := h.idle d hpc
    have hperm : (outstanding { q.move d .testing with posted := q.posted++[d] }).Perm
        (d::outstanding q) := by
      rw [outstanding, List.append_assoc]
      exact List.perm_middle
    refine ⟨hperm.nodup_iff.mpr (List.nodup_cons.mpr ⟨hnot,h.nodup⟩),fun c hc => ?_,h.queued⟩
    obtain ⟨hnot',hdone'⟩ := h.idle c (move_idle (by simp) hc)
    refine ⟨fun hm => ?_,hdone'⟩
    rcases List.mem_cons.mp (hperm.mem_iff.mp hm) with rfl | hm
    · simp [Queue.move] at hc
    · exact hnot' hm
  | complete d success =>
    obtain ⟨hd,hs⟩ := Option.ite_none_right_eq_some.mp hs
    obtain rfl := Option.some.inj hs
    have hperm := complete_perm q.posted q.sendCq hd success
    refine ⟨hperm.nodup_iff.mpr h.nodup,fun c hc =>
      ⟨fun hm => (h.idle c hc).1 (hperm.mem_iff.mp hm),(h.idle c hc).2⟩,fun wc hwc => ?_⟩
    rcases List.mem_append.mp hwc with hold | hnew
    · have hne : wc.wrId ≠ d := fun he =>
        (List.nodup_append.mp h.nodup).2.2 d hd wc.wrId (List.mem_map_of_mem hold) he.symm
      simpa [hne] using h.queued wc hold
    · obtain rfl := List.mem_singleton.mp hnew
      simp
  | test d =>
    obtain ⟨hpc,hs⟩ := Option.ite_none_right_eq_some.mp hs
    obtain rfl := Option.some.inj hs
    split
    · exact ⟨h.nodup,fun c hc => h.idle c (move_idle (by simp) hc),h.queued⟩
    · exact ⟨h.nodup,fun c hc => h.idle c (move_idle (by simp) hc),h.queued⟩
  | miss d =>
    obtain ⟨hpc,hs⟩ := Option.ite_none_right_eq_some.mp hs
    obtain rfl := Option.some.inj hs
    exact ⟨h.nodup,fun c hc => h.idle c (move_idle (by simp) hc),h.queued⟩
  | poll d =>
    obtain ⟨hpc,hs⟩ := Option.ite_none_right_eq_some.mp hs
    unfold SendQueue.poll at hs
    split at hs
    · cases hs
    · next wc cq hq =>
      obtain ⟨hn,hmem⟩ := h.tail hq
      have hidle : ∀ c, q.pc c = .idle → c ∉ q.posted++cq.map Completion.wrId :=
        fun c hc hm => (h.idle c hc).1 ((hmem c).mp hm).1
      have hqueued : ∀ v ∈ cq, q.status v.wrId = some v.success :=
        fun v hv => h.queued v (by simp [hq, hv])
      split_ifs at hs
      · obtain rfl := Option.some.inj hs
        refine ⟨hn,fun c hc => ⟨hidle c (move_idle (by simp) hc),?_⟩,hqueued⟩
        have hc' : q.pc c = .idle := move_idle (by simp) hc
        have hne : c ≠ wc.wrId := by
          rintro rfl
          refine (h.idle _ hc').1 ?_
          rw [outstanding, hq]
          simp
        simp [Queue.move, SendQueue.writeDone, hne, h.idle c hc']
      · obtain rfl := Option.some.inj hs
        exact ⟨hn,fun c hc => ⟨hidle c (move_idle (by simp) hc),
          (h.idle c (move_idle (by simp) hc)).2⟩,hqueued⟩

theorem View.move_other {p : Pc} {s : Wait} (h : View c q s) (hcd : c ≠ d) :
    View c (q.move d p) s :=
  ⟨h.pc.trans (by simp [Queue.move, hcd]),h.done,h.ret,h.owed,h.status⟩

theorem View.settled {s t : Wait} (hq : Single q) (hv : View c q s) (hcq : q.sendCq = wc::cq)
    (hout : outstanding q' = q.posted++cq.map Completion.wrId) (hpc : t.pc = q'.pc c)
    (hdone : t.done = q'.done c) (hret : t.ret = s.ret)
    (howed : t.owed = if wc.wrId = c then false else s.owed) (hsame : q'.status = q.status)
    (hstatus : t.status = if wc.wrId = c then some wc.success else s.status) :
    View c q' t where
  pc := hpc
  done := hdone
  ret := hret.trans hv.ret
  owed := by
    rw [hout, (hq.tail hcq).2, howed]
    by_cases hown : wc.wrId = c
    · simp [hown]
    · simp [hown, Ne.symm hown, hv.owed]
  status := fun hc => by
    rw [hstatus, hsame]
    by_cases hown : wc.wrId = c
    · rw [if_pos hown, ← hown]
      exact (hq.queued wc (by simp [hcq])).symm
    · rw [if_neg hown]
      rw [hout, (hq.tail hcq).2] at hc
      exact hv.status fun hm => hc ⟨hm,Ne.symm hown⟩

theorem own_poll_view {s : Wait} (hq : Single q) (hv : View c q s) (hpc : q.pc c = .polling)
    (hcq : q.sendCq = wc::cq) (hs : SendQueue.poll c q = some q') :
    ∃ t, step (.poll (wc.wrId = c) wc.success) s = some t ∧ View c q' t := by
  have hguard : s.pc = .polling ∧ (decide (wc.wrId = c) = true → s.owed = true) := by
    refine ⟨hv.pc.trans hpc,fun hown => hv.owed.mpr ?_⟩
    rw [outstanding, hcq, ← of_decide_eq_true hown]
    simp
  refine ⟨_,if_pos hguard,?_⟩
  simp only [SendQueue.poll, hcq] at hs
  cases hok : wc.success with
  | true =>
    rw [hok, if_pos rfl] at hs
    obtain rfl := Option.some.inj hs
    refine hv.settled hq hcq rfl ?_ ?_ ?_ ?_ rfl ?_
    · simp [Queue.move]
    · by_cases hown : wc.wrId = c
      · simp [hown, settle, Queue.move, SendQueue.writeDone]
      · simp [hown, Ne.symm hown, Queue.move, SendQueue.writeDone, hv.done]
    · by_cases hown : wc.wrId = c <;> simp [hown, settle]
    · by_cases hown : wc.wrId = c <;> simp [hown, settle]
    · by_cases hown : wc.wrId = c <;> simp [hown, settle, hok]
  | false =>
    rw [hok, if_neg Bool.false_ne_true] at hs
    obtain rfl := Option.some.inj hs
    refine hv.settled hq hcq rfl ?_ ?_ ?_ ?_ rfl ?_
    · simp [Queue.finish, Queue.move]
    · by_cases hown : wc.wrId = c
      · simp [hown, settle, Queue.finish, Queue.move, hv.done]
      · simp [hown, Queue.finish, Queue.move, hv.done]
    · by_cases hown : wc.wrId = c <;> simp [hown, settle]
    · by_cases hown : wc.wrId = c <;> simp [hown, settle]
    · by_cases hown : wc.wrId = c <;> simp [hown, settle, hok]

theorem other_poll_view {s : Wait} (hq : Single q) (hv : View c q s) (hdc : d ≠ c)
    (hcq : q.sendCq = wc::cq) (hs : SendQueue.poll d q = some q') :
    ∃ t, run step (if wc.wrId = c then [.taken wc.success] else []) s = some t ∧
      View c q' t := by
  have hout : outstanding q' = q.posted++cq.map Completion.wrId := by
    simp only [SendQueue.poll, hcq] at hs
    split_ifs at hs <;> (obtain rfl := Option.some.inj hs; rfl)
  have hsame : q'.status = q.status := by
    simp only [SendQueue.poll, hcq] at hs
    split_ifs at hs <;> (obtain rfl := Option.some.inj hs; rfl)
  have hpc : q'.pc c = q.pc c := by
    simp only [SendQueue.poll, hcq] at hs
    split_ifs at hs
    · obtain rfl := Option.some.inj hs
      simp [Queue.move, SendQueue.writeDone, Ne.symm hdc]
    · obtain rfl := Option.some.inj hs
      simp [Queue.finish, Queue.move, Ne.symm hdc]
  have hdone : q'.done c = if wc.wrId = c then q.done c || wc.success else q.done c := by
    simp only [SendQueue.poll, hcq] at hs
    cases hok : wc.success with
    | true =>
      rw [hok, if_pos rfl] at hs
      obtain rfl := Option.some.inj hs
      by_cases hown : wc.wrId = c
      · simp [hown, Queue.move, SendQueue.writeDone]
      · simp [hown, Ne.symm hown, Queue.move, SendQueue.writeDone]
    | false =>
      rw [hok, if_neg Bool.false_ne_true] at hs
      obtain rfl := Option.some.inj hs
      simp [Queue.finish, Queue.move]
  by_cases hown : wc.wrId = c
  · have howed : s.owed = true := by
      rw [hv.owed, outstanding, hcq, ← hown]
      simp
    rw [if_pos hown, run_single]
    refine ⟨_,if_pos howed,hv.settled hq hcq hout (hv.pc.trans hpc.symm) ?_ rfl ?_ hsame ?_⟩
    · rw [hdone, if_pos hown, ← hv.done]
      rfl
    · rw [if_pos hown]
      rfl
    · rw [if_pos hown]
      rfl
  · rw [if_neg hown]
    refine ⟨s,rfl,hv.settled hq hcq hout (hv.pc.trans hpc.symm) ?_ rfl ?_ hsame ?_⟩
    · rw [hdone, if_neg hown, hv.done]
    · rw [if_neg hown]
    · rw [if_neg hown]

theorem step_view (l : SendQueue.Label) {s : Wait} (hq : Single q) (hbusy : q.pc c ≠ .idle)
    (hv : View c q s) (hs : SendQueue.step l q = some q') :
    ∃ t, run step (shows c l q) s = some t ∧ View c q' t := by
  cases l with
  | post d =>
    obtain ⟨hpc,hs⟩ := Option.ite_none_right_eq_some.mp hs
    obtain rfl := Option.some.inj hs
    have hcd : c ≠ d := by
      rintro rfl
      exact hbusy hpc
    have hout : c ∈ outstanding { q.move d .testing with posted := q.posted++[d] } ↔
        c ∈ outstanding q := by
      simp [outstanding, Queue.move, hcd]
    exact ⟨s,rfl,⟨(hv.move_other hcd).pc,hv.done,hv.ret,hv.owed.trans hout.symm,
      fun hc => hv.status fun hm => hc (hout.mpr hm)⟩⟩
  | complete d success =>
    obtain ⟨hd,hs⟩ := Option.ite_none_right_eq_some.mp hs
    obtain rfl := Option.some.inj hs
    have hperm := complete_perm q.posted q.sendCq hd success
    refine ⟨s,rfl,⟨hv.pc,hv.done,hv.ret,hv.owed.trans hperm.mem_iff.symm,fun hc => ?_⟩⟩
    have hnot : c ∉ outstanding q := fun hm => hc (hperm.mem_iff.mpr hm)
    have hcd : c ≠ d := by
      rintro rfl
      exact hnot (List.mem_append_left _ hd)
    exact (hv.status hnot).trans (by simp [hcd])
  | test d =>
    obtain ⟨hpc,hs⟩ := Option.ite_none_right_eq_some.mp hs
    obtain rfl := Option.some.inj hs
    by_cases hdc : d = c
    · subst hdc
      rw [shows, if_pos rfl, run_single]
      refine ⟨_,if_pos (hv.pc.trans hpc),?_⟩
      have hdone := hv.done
      cases hd : q.done d with
      | true =>
        rw [hd] at hdone
        exact ⟨by simp [Queue.finish, Queue.move, hdone, hv.ret],hdone.trans hd.symm,hv.ret,
          hv.owed,hv.status⟩
      | false =>
        rw [hd] at hdone
        exact ⟨by simp [Queue.move, hdone],hdone.trans hd.symm,hv.ret,hv.owed,hv.status⟩
    · rw [shows, if_neg hdc]
      refine ⟨s,rfl,?_⟩
      split
      · exact ⟨(hv.move_other (Ne.symm hdc)).pc,hv.done,hv.ret,hv.owed,hv.status⟩
      · exact hv.move_other (Ne.symm hdc)
  | miss d =>
    obtain ⟨hpc,hs⟩ := Option.ite_none_right_eq_some.mp hs
    obtain rfl := Option.some.inj hs
    by_cases hdc : d = c
    · subst hdc
      rw [shows, if_pos rfl, run_single]
      exact ⟨_,if_pos (hv.pc.trans hpc),by simp [Queue.move],hv.done,hv.ret,hv.owed,hv.status⟩
    · rw [shows, if_neg hdc]
      exact ⟨s,rfl,hv.move_other (Ne.symm hdc)⟩
  | poll d =>
    obtain ⟨hpc,hs⟩ := Option.ite_none_right_eq_some.mp hs
    cases hcq : q.sendCq with
    | nil =>
      simp [SendQueue.poll, hcq] at hs
    | cons wc cq =>
      simp only [shows, hcq]
      by_cases hdc : d = c
      · subst hdc
        rw [if_pos rfl, run_single]
        exact own_poll_view hq hv hpc hcq hs
      · rw [if_neg hdc]
        exact other_poll_view hq hv hdc hcq hs

theorem step_idle (l : SendQueue.Label) (hq : Single q) (hidle : q.pc c = .idle)
    (hs : SendQueue.step l q = some q') :
    q'.pc c = .idle ∨ View c q' (ibRdmaSend 0#32) := by
  have hother : ∀ d, q.pc d ≠ .idle → c ≠ d := by
    rintro d hd rfl
    exact hd hidle
  cases l with
  | post d =>
    obtain ⟨-,hs⟩ := Option.ite_none_right_eq_some.mp hs
    obtain rfl := Option.some.inj hs
    by_cases hcd : c = d
    · subst hcd
      have hin : c ∈ outstanding { q.move c .testing with posted := q.posted++[c] } := by
        simp [outstanding]
      exact .inr ⟨by simp [ibRdmaSend, Queue.move],(hq.idle c hidle).2.symm,rfl,
        iff_of_true rfl hin,fun hc => absurd hin hc⟩
    · exact .inl (by simp [Queue.move, hcd, hidle])
  | complete d success =>
    obtain ⟨-,hs⟩ := Option.ite_none_right_eq_some.mp hs
    exact .inl (Option.some.inj hs ▸ hidle)
  | test d =>
    obtain ⟨hpc,hs⟩ := Option.ite_none_right_eq_some.mp hs
    obtain rfl := Option.some.inj hs
    have hcd := hother d (by simp [hpc])
    split
    · exact .inl (by simp [Queue.finish, Queue.move, hcd, hidle])
    · exact .inl (by simp [Queue.move, hcd, hidle])
  | miss d =>
    obtain ⟨hpc,hs⟩ := Option.ite_none_right_eq_some.mp hs
    obtain rfl := Option.some.inj hs
    exact .inl (by simp [Queue.move, hother d (by simp [hpc]), hidle])
  | poll d =>
    obtain ⟨hpc,hs⟩ := Option.ite_none_right_eq_some.mp hs
    have hcd := hother d (by simp [hpc])
    unfold SendQueue.poll at hs
    split at hs
    · cases hs
    · split_ifs at hs
      · obtain rfl := Option.some.inj hs
        exact .inl (by simp [Queue.move, SendQueue.writeDone, hcd, hidle])
      · obtain rfl := Option.some.inj hs
        exact .inl (by simp [Queue.finish, Queue.move, hcd, hidle])

/-- The call has not begun, or has got to where it is under some schedule. -/
def Scheduled (c : ℕ) (q : Queue) : Prop := q.pc c ≠ .idle →
  ∃ schedule s, run step schedule (ibRdmaSend 0#32) = some s ∧ View c q s

theorem step_scheduled (l : SendQueue.Label) (q q' : Queue) (h : Single q ∧ Scheduled c q)
    (hs : SendQueue.step l q = some q') : Single q' ∧ Scheduled c q' := by
  refine ⟨step_single l q q' h.1 hs,fun hbusy => ?_⟩
  by_cases hidle : q.pc c = .idle
  · rcases step_idle l h.1 hidle hs with hstill | hv
    · exact absurd hstill hbusy
    · exact ⟨[],_,rfl,hv⟩
  · obtain ⟨schedule,s,hrun,hv⟩ := h.2 hidle
    obtain ⟨t,ht,hv'⟩ := step_view l h.1 hidle hv hs
    exact ⟨schedule++shows c l q,t,run_trans hrun ht,hv'⟩

theorem init_scheduled : Single initQueue ∧ Scheduled c initQueue :=
  ⟨⟨by simp [outstanding, initQueue],by simp [outstanding, initQueue],by simp [initQueue]⟩,
    fun hbusy => absurd rfl hbusy⟩

/-- Every call of a run of the shared queue is a call under a schedule, with its post
accepted. -/
theorem queue_schedule (ls : List SendQueue.Label) (q : Queue)
    (h : run SendQueue.step ls initQueue = some q) (c : ℕ) (hc : q.pc c ≠ .idle) :
    ∃ schedule s, run step schedule (ibRdmaSend 0#32) = some s ∧ View c q s :=
  (run_induction step_scheduled init_scheduled h).2 hc

theorem step_busy {l : Label} {s t : Wait} (hs : s.pc ≠ .idle) (h : step l s = some t) :
    t.pc ≠ .idle := by
  cases l with
  | test =>
    obtain ⟨-,h⟩ := Option.ite_none_right_eq_some.mp h
    obtain rfl := Option.some.inj h
    cases s.done <;> simp
  | miss =>
    obtain ⟨-,h⟩ := Option.ite_none_right_eq_some.mp h
    obtain rfl := Option.some.inj h
    simp
  | poll own success =>
    obtain ⟨-,h⟩ := Option.ite_none_right_eq_some.mp h
    obtain rfl := Option.some.inj h
    cases success <;> simp
  | taken success =>
    obtain ⟨-,h⟩ := Option.ite_none_right_eq_some.mp h
    obtain rfl := Option.some.inj h
    exact hs

theorem shows_tests (c : ℕ) (l : SendQueue.Label) (q : Queue) :
    (shows c l q).count .test = [l].count (.test c) := by
  cases l with
  | test d => by_cases hdc : d = c <;> simp [shows, hdc]
  | miss d => by_cases hdc : d = c <;> simp [shows, hdc]
  | poll d =>
    simp only [shows]
    split
    · simp
    · split_ifs <;> simp
  | post d => simp [shows]
  | complete d success => simp [shows]

theorem run_view {ms : List SendQueue.Label} {s : Wait} (hq : Single q) (hbusy : s.pc ≠ .idle)
    (hv : View c q s) (h : run SendQueue.step ms q = some q') :
    ∃ ls t, run step ls s = some t ∧ ls.count .test = ms.count (.test c) := by
  induction ms generalizing q s with
  | nil => exact ⟨[],s,rfl,rfl⟩
  | cons m ms ih =>
    obtain ⟨u,hu,hrest⟩ := run_cons.mp h
    obtain ⟨t,ht,hv'⟩ := step_view m hq (hv.pc ▸ hbusy) hv hu
    have hbusy' : t.pc ≠ .idle :=
      run_induction (fun l s t => @step_busy l s t) hbusy ht
    obtain ⟨ls,v,hrun,hcount⟩ := ih (step_single m q u hq hu) hbusy' hv' hrest
    refine ⟨shows c m q++ls,v,run_trans ht hrun,?_⟩
    rw [List.count_append, shows_tests, hcount, ← List.count_append]
    rfl

theorem queue_spins (hpc : q.pc c = .testing) (hd : q.done c = false) (n : ℕ) :
    run SendQueue.step (List.replicate n [.test c,.miss c]).flatten q = some q := by
  refine run_again ?_ n
  have htest : SendQueue.step (.test c) q = some (q.move c .polling) := by
    simp [SendQueue.step, hpc, hd]
  have hmiss : SendQueue.step (.miss c) (q.move c .polling) =
      some ((q.move c .polling).move c .testing) := if_pos (Function.update_self ..)
  have hback : (q.move c .polling).move c .testing = q := by
    simp [Queue.move, ← hpc]
  exact run_cons.mpr ⟨_,htest,run_cons.mpr ⟨_,hmiss,congrArg some hback⟩⟩

theorem count_queue_tests (c n : ℕ) :
    (List.replicate n [SendQueue.Label.test c,.miss c]).flatten.count (.test c) = n := by
  induction n with
  | zero => rfl
  | succ n ih =>
    rw [List.replicate_succ, List.flatten_cons, List.count_append, ih]
    simp [Nat.add_comm]

theorem queue_not_ends (hpc : q.pc c = .testing ∨ q.pc c = .polling) (hd : q.done c = false)
    (n : ℕ) : ∃ ms q', run SendQueue.step ms q = some q' ∧ n ≤ ms.count (.test c) := by
  rcases hpc with hpc | hpc
  · exact ⟨_,q,queue_spins hpc hd n,(count_queue_tests c n).ge⟩
  · have hmiss : SendQueue.step (.miss c) q = some (q.move c .testing) := if_pos hpc
    have hspin := queue_spins (q := q.move c .testing) (c := c) (Function.update_self ..) hd n
    refine ⟨_,_,run_cons.mpr ⟨_,hmiss,hspin⟩,?_⟩
    rw [List.count_cons_of_ne (by simp), count_queue_tests]

/-- However calls share the queue: once the completion of a call has been polled, by
whatever call, its loop ends under every continuation exactly unless the completion was a
failed one and the call has not returned. -/
theorem queue_waits_iff (ls : List SendQueue.Label) (q : Queue)
    (h : run SendQueue.step ls initQueue = some q) (c : ℕ) (hc : q.pc c ≠ .idle)
    (hpolled : c ∉ outstanding q) :
    (∃ n, ∀ ms q', run SendQueue.step ms q = some q' → ms.count (.test c) ≤ n) ↔
      (q.status c = some false → (q.pc c).gone = true) := by
  have hq : Single q := (run_induction (step_scheduled (c := c)) init_scheduled h).1
  obtain ⟨schedule,s,hrun,hv⟩ := queue_schedule ls q h c hc
  obtain ⟨hs,-⟩ := run_tracks (rdma_begins 0#32).settles (rdma_begins 0#32).proceeds hrun
  have hbusy : s.pc ≠ .idle := hv.pc ▸ hc
  have hstatus : s.status ≠ none := by
    intro hnone
    exact hpolled (hv.owed.mp (hs.owed.mpr ⟨rfl,hnone⟩))
  have hleaving : Leaving s ↔ (q.status c = some false → (q.pc c).gone = true) := by
    rw [Leaving, hs.done, hv.pc, ← hv.status hpolled]
    cases hst : s.status with
    | none => exact absurd hst hstatus
    | some ok => cases ok <;> simp
  rw [← hleaving]
  constructor
  · rintro ⟨n,hn⟩
    by_contra hno
    obtain ⟨hgone,hdone⟩ := not_or.mp hno
    have hpc : q.pc c = .testing ∨ q.pc c = .polling := by
      cases hpc : q.pc c with
      | idle => exact absurd hpc hc
      | testing => exact .inl rfl
      | polling => exact .inr rfl
      | returned ret => simp [hv.pc, hpc, Pc.gone] at hgone
    have hd : q.done c = false := hv.done ▸ Bool.eq_false_of_not_eq_true hdone
    obtain ⟨ms,q',hms,hle⟩ := queue_not_ends hpc hd (n+1)
    have := hn ms q' hms
    omega
  · intro hl
    obtain ⟨n,hn⟩ := leaving_ends hl
    refine ⟨n,fun ms q' hms => ?_⟩
    obtain ⟨ls,t,ht,hcount⟩ := run_view hq hbusy hv hms
    exact hcount ▸ hn ls t ht

/-- Two calls, and the second polls the completion of the first. -/
def crossing (success : Bool) : List SendQueue.Label :=
  [.post 0,.post 1,.complete 0 success,.test 1,.poll 1]

theorem queue_waits_iff_sample :
    (∃ q, run SendQueue.step (crossing true) initQueue = some q ∧
      ∃ n, ∀ ms q', run SendQueue.step ms q = some q' → ms.count (.test 0) ≤ n) ∧
    ∃ q, run SendQueue.step (crossing false) initQueue = some q ∧
      ¬∃ n, ∀ ms q', run SendQueue.step ms q = some q' → ms.count (.test 0) ≤ n := by
  have hrun : ∀ success, ((run SendQueue.step (crossing success) initQueue).map fun q =>
      (q.pc 0,decide (0 ∈ outstanding q),q.status 0)) =
        some (.testing,false,some success) := by decide
  have hiff : ∀ success, ∃ q, run SendQueue.step (crossing success) initQueue = some q ∧
      ((∃ n, ∀ ms q', run SendQueue.step ms q = some q' → ms.count (.test 0) ≤ n) ↔
        success = true) := by
    intro success
    obtain ⟨q,hq,he⟩ := Option.map_eq_some_iff.mp (hrun success)
    simp only [Prod.mk.injEq, decide_eq_false_iff_not] at he
    obtain ⟨hpc,hout,hst⟩ := he
    refine ⟨q,hq,(queue_waits_iff _ q hq 0 (by simp [hpc]) hout).trans ?_⟩
    rw [hst, hpc]
    cases success <;> simp [Pc.gone]
  obtain ⟨q,hq,hends⟩ := hiff true
  obtain ⟨q',hq',hends'⟩ := hiff false
  exact ⟨⟨q,hq,hends.mpr rfl⟩,q',hq',fun h => Bool.false_ne_true (hends'.mp h)⟩

end Maruswap.SendSchedules
