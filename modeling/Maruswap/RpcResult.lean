import Maruswap.WireFormat
import Mathlib.Logic.Function.Basic

/-!
# The result of one RPC

`__ib_rpc` of the driver as a function of what the post and the polls of its two
loops yield. Both loops break off at a negative poll, and the code behind the
second takes whatever pointer the binder holds for its reply. The binders may hold
anything when the call begins.
-/

set_option autoImplicit false

namespace Maruswap.RpcResult
open WireFormat

variable {P : Type*}

/-- `private` is NULL until the first reply. -/
structure Binder where
  flags : ℕ
  priv : Option ℕ

/-- A poll of the send queue. The word of a completion is the address of the
`done` of this call, or of another. -/
inductive SendResult where
  | empty
  | negative
  | failed
  | got (own : Bool)
  deriving DecidableEq

structure Reply where
  immData : U32
  wrId : ℕ
  deriving DecidableEq

inductive RecvResult where
  | empty
  | negative
  | failed
  | got (reply : Reply)
  deriving DecidableEq

/-- `buffer` are the payloads in the receive works. What the call sends, the replies
it polls and the receive works it puts back are recorded, latest first. -/
structure Rpc (P : Type*) where
  binders : ℕ → Binder
  buffer : ℕ → P
  res : P
  sent : List U32
  polled : List Reply
  putBack : List ℕ

/-- The try of `__get_binder` that gets the binder `b`; those before it change
nothing. -/
def getBinder (b : ℕ) (s : Rpc P) : Option (Rpc P) :=
  if (s.binders b).flags = 0 then
    some { s with binders := Function.update s.binders b { s.binders b with flags := 1 } }
  else none

def putBinder (b : ℕ) (s : Rpc P) : Rpc P :=
  if (s.binders b).flags ≠ 2 then s
  else { s with binders := Function.update s.binders b { s.binders b with flags := 0 } }

/-- Whether the call goes on to the second loop; no value while it spins. -/
def sendLoop : List SendResult → Option Bool
  | [] => none
  | .empty::rs => sendLoop rs
  | .negative::_ => some true
  | .failed::_ => some false
  | .got own::rs => if own then some true else sendLoop rs

def recordReply (reply : Reply) (s : Rpc P) : Rpc P :=
  { s with
    binders := Function.update s.binders (replyBinder reply.immData) ⟨2,some reply.wrId⟩
    polled := reply::s.polled }

/-- Whether the call goes on to the reply; no value while it spins. -/
def recvLoop (b : ℕ) (rs : List RecvResult) (s : Rpc P) : Option (Bool × Rpc P) :=
  if (s.binders b).flags = 2 then some (true,s)
  else match rs with
    | [] => none
    | .empty::rs => recvLoop b rs s
    | .negative::_ => some (true,s)
    | .failed::_ => some (false,s)
    | .got reply::rs => recvLoop b rs (recordReply reply s)

/-- The end of the call. There is no outcome if the pointer is NULL. -/
def takeReply (b : ℕ) (s : Rpc P) : Option (Rpc P) :=
  (s.binders b).priv.map fun rw =>
    putBinder b { s with res := s.buffer rw, putBack := rw::s.putBack }

def ibRpc (opcode : U32) (b : ℕ) (accepted : Bool) (sends : List SendResult)
    (recvs : List RecvResult) (s : Rpc P) : Option (U32 × Rpc P) :=
  (getBinder b { s with polled := [], putBack := [] }).bind fun s =>
    if !accepted then some (1#32,s)
    else
      let s := { s with sent := rpcImm opcode b::s.sent }
      (sendLoop sends).bind fun goOn =>
        if !goOn then some (1#32,s)
        else
          (recvLoop b recvs s).bind fun r =>
            if !r.1 then some (1#32,r.2)
            else (takeReply b r.2).map fun t => (0#32,t)

/-- The send queue yields a failed completion before the call's own, and before a
negative poll. -/
def SendFails (sends : List SendResult) : Prop :=
  ∃ pre post, sends = pre++.failed::post ∧ ∀ r ∈ pre, r = .empty ∨ r = .got false

/-- The receive queue yields a negative poll before the reply to `b`, and before a
failed completion. -/
def BrokenOff (b : ℕ) (recvs : List RecvResult) : Prop :=
  ∃ pre post, recvs = pre++.negative::post ∧
    ∀ r ∈ pre, r = .empty ∨ ∃ reply, r = .got reply ∧ replyBinder reply.immData ≠ b

theorem send_loop_fails (sends : List SendResult) :
    sendLoop sends = some false ↔ SendFails sends := by
  have hloop : ∀ rs, sendLoop rs = rs.findSome? fun r => match r with
      | .empty => none
      | .negative => some true
      | .failed => some false
      | .got own => if own then some true else none := by
    intro rs
    induction rs with
    | nil => rfl
    | cons r rs ih =>
      cases r with
      | empty => simpa [sendLoop] using ih
      | negative => rfl
      | failed => rfl
      | got own => cases own <;> simp [sendLoop, ih]
  rw [hloop, List.findSome?_eq_some_iff]
  constructor
  · rintro ⟨pre,r,post,rfl,hr,hpre⟩
    have hfailed : r = .failed := by
      cases r with
      | empty => simp at hr
      | negative => simp at hr
      | failed => rfl
      | got own => cases own <;> simp at hr
    refine ⟨pre,post,by rw [hfailed],fun q hq => ?_⟩
    have hquiet := hpre q hq
    cases q with
    | empty => exact .inl rfl
    | negative => simp at hquiet
    | failed => simp at hquiet
    | got own => cases own <;> simp at hquiet ⊢
  · rintro ⟨pre,post,rfl,hpre⟩
    refine ⟨pre,.failed,post,rfl,rfl,fun q hq => ?_⟩
    rcases hpre q hq with rfl | rfl <;> rfl

theorem broken_off_nil (b : ℕ) : ¬BrokenOff b [] := by
  rintro ⟨pre,post,h,-⟩
  simp at h

theorem broken_off_cons (b : ℕ) (r : RecvResult) (rs : List RecvResult) :
    BrokenOff b (r::rs) ↔ r = .negative ∨
      (r = .empty ∨ ∃ reply, r = .got reply ∧ replyBinder reply.immData ≠ b) ∧
        BrokenOff b rs := by
  constructor
  · rintro ⟨pre,post,h,hpre⟩
    cases pre with
    | nil => exact .inl (List.cons.inj h).1
    | cons q pre =>
      obtain ⟨rfl,rfl⟩ := List.cons.inj h
      exact .inr ⟨hpre r (by simp),pre,post,rfl,fun x hx => hpre x (by simp [hx])⟩
  · rintro (rfl | ⟨hr,pre,post,rfl,hpre⟩)
    · exact ⟨[],rs,rfl,by simp⟩
    · refine ⟨r::pre,post,rfl,fun x hx => ?_⟩
      rcases List.mem_cons.mp hx with rfl | hx
      · exact hr
      · exact hpre x hx

inductive Left (b : ℕ) (rs : List RecvResult) (s t : Rpc P) : Bool → Prop where
  | answered (hno : ¬BrokenOff b rs) (reply : Reply) (hin : reply ∈ t.polled)
      (hown : replyBinder reply.immData = b) (hslot : t.binders b = ⟨2,some reply.wrId⟩) :
      Left b rs s t true
  | broken (hbroken : BrokenOff b rs)
      (hnone : ∀ reply ∈ t.polled, replyBinder reply.immData ≠ b) : Left b rs s t true
  | failed (hno : ¬BrokenOff b rs) : Left b rs s t false

/-- The second loop neither delivers a payload nor puts anything back. -/
structure Polls (s t : Rpc P) : Prop where
  buffer : t.buffer = s.buffer
  res : t.res = s.res
  putBack : t.putBack = s.putBack

theorem recv_loop_polls (b : ℕ) (rs : List RecvResult) (s t : Rpc P) (ok : Bool)
    (h : recvLoop b rs s = some (ok,t)) : Polls s t := by
  induction rs generalizing s with
  | nil =>
    unfold recvLoop at h
    split_ifs at h
    obtain ⟨-,rfl⟩ := Prod.mk.inj (Option.some.inj h)
    exact ⟨rfl,rfl,rfl⟩
  | cons r rs ih =>
    unfold recvLoop at h
    split_ifs at h
    · obtain ⟨-,rfl⟩ := Prod.mk.inj (Option.some.inj h)
      exact ⟨rfl,rfl,rfl⟩
    · cases r with
      | empty => exact ih s h
      | negative =>
        obtain ⟨-,rfl⟩ := Prod.mk.inj (Option.some.inj h)
        exact ⟨rfl,rfl,rfl⟩
      | failed =>
        obtain ⟨-,rfl⟩ := Prod.mk.inj (Option.some.inj h)
        exact ⟨rfl,rfl,rfl⟩
      | got reply =>
        have hrest := ih _ h
        exact ⟨hrest.buffer,hrest.res,hrest.putBack⟩

theorem recv_loop_marked {b : ℕ} {rs : List RecvResult} {s t : Rpc P} {ok : Bool}
    (hflag : (s.binders b).flags = 2) (h : recvLoop b rs s = some (ok,t)) :
    ok = true ∧ t = s := by
  unfold recvLoop at h
  rw [if_pos hflag] at h
  obtain ⟨rfl,rfl⟩ := Prod.mk.inj (Option.some.inj h)
  exact ⟨rfl,rfl⟩

theorem recv_loop_left (b : ℕ) (rs : List RecvResult) (s t : Rpc P) (ok : Bool)
    (hflag : (s.binders b).flags ≠ 2)
    (hother : ∀ reply ∈ s.polled, replyBinder reply.immData ≠ b)
    (h : recvLoop b rs s = some (ok,t)) : Left b rs s t ok := by
  induction rs generalizing s with
  | nil =>
    unfold recvLoop at h
    rw [if_neg hflag] at h
    cases h
  | cons r rs ih =>
    unfold recvLoop at h
    rw [if_neg hflag] at h
    cases r with
    | empty =>
      have hiff : BrokenOff b (.empty::rs) ↔ BrokenOff b rs := by simp [broken_off_cons]
      cases ih s hflag hother h with
      | answered hno reply hin hown hslot =>
        exact .answered (hiff.not.mpr hno) reply hin hown hslot
      | broken hbroken hnone => exact .broken (hiff.mpr hbroken) hnone
      | failed hno => exact .failed (hiff.not.mpr hno)
    | negative =>
      obtain ⟨rfl,rfl⟩ := Prod.mk.inj (Option.some.inj h)
      exact .broken ((broken_off_cons ..).mpr (.inl rfl)) hother
    | failed =>
      obtain ⟨rfl,rfl⟩ := Prod.mk.inj (Option.some.inj h)
      exact .failed (by simp [broken_off_cons])
    | got reply =>
      by_cases hown : replyBinder reply.immData = b
      · have hslot : (recordReply reply s).binders b = ⟨2,some reply.wrId⟩ := by
          simp [recordReply, hown]
        obtain ⟨rfl,rfl⟩ := recv_loop_marked (by rw [hslot]) h
        exact .answered (by simp [broken_off_cons, hown]) reply (by simp [recordReply]) hown hslot
      · have hiff : BrokenOff b (.got reply::rs) ↔ BrokenOff b rs := by
          simp [broken_off_cons, hown]
        have hflag' : ((recordReply reply s).binders b).flags ≠ 2 := by
          simpa [recordReply, Ne.symm hown] using hflag
        have hother' : ∀ r ∈ (recordReply reply s).polled, replyBinder r.immData ≠ b := by
          intro r hr
          rcases List.mem_cons.mp hr with rfl | hr
          · exact hown
          · exact hother r hr
        cases ih _ hflag' hother' h with
        | answered hno own hin hown hslot =>
          exact .answered (hiff.not.mpr hno) own hin hown hslot
        | broken hbroken hnone => exact .broken (hiff.mpr hbroken) hnone
        | failed hno => exact .failed (hiff.not.mpr hno)

/-- A call that returns zero has polled its own reply and delivers its payload; one
that does not delivers nothing and puts nothing back. -/
structure ResultSound (b : ℕ) (s t : Rpc P) (ret : U32) : Prop where
  success : ret = 0#32 →
    ∃ reply ∈ t.polled, replyBinder reply.immData = b ∧ t.res = s.buffer reply.wrId
  failure : ret ≠ 0#32 → t.res = s.res ∧ t.putBack = []

theorem take_reply_effect {b : ℕ} {s t : Rpc P} (h : takeReply b s = some t) :
    ∃ rw, (s.binders b).priv = some rw ∧ t.res = s.buffer rw ∧ t.polled = s.polled := by
  obtain ⟨rw,hrw,rfl⟩ := Option.map_eq_some_iff.mp h
  refine ⟨rw,hrw,?_,?_⟩
  · rw [putBinder]
    split <;> rfl
  · rw [putBinder]
    split <;> rfl

/-- The result of a call that returns is sound exactly if it was not a negative poll
that took the call out of its second loop. -/
theorem rpc_result_sound_iff (opcode : U32) (b : ℕ) (accepted : Bool)
    (sends : List SendResult) (recvs : List RecvResult) (s t : Rpc P) (ret : U32)
    (h : ibRpc opcode b accepted sends recvs s = some (ret,t)) :
    ResultSound b s t ret ↔
      ¬(accepted = true ∧ ¬SendFails sends ∧ BrokenOff b recvs) := by
  obtain ⟨u,hu,h⟩ := Option.bind_eq_some_iff.mp h
  obtain ⟨-,hu⟩ := Option.ite_none_right_eq_some.mp hu
  obtain rfl := Option.some.inj hu
  cases accepted with
  | false =>
    obtain ⟨rfl,rfl⟩ := Prod.mk.inj (Option.some.inj h)
    refine iff_of_true ⟨fun h0 => absurd h0 (by decide),fun _ => ⟨rfl,rfl⟩⟩ (by simp)
  | true =>
    simp only [Bool.not_true, Bool.false_eq_true, if_false] at h
    obtain ⟨goOn,hsend,h⟩ := Option.bind_eq_some_iff.mp h
    cases goOn with
    | false =>
      obtain ⟨rfl,rfl⟩ := Prod.mk.inj (Option.some.inj h)
      refine iff_of_true ⟨fun h0 => absurd h0 (by decide),fun _ => ⟨rfl,rfl⟩⟩ ?_
      exact fun hb => hb.2.1 ((send_loop_fails sends).mp hsend)
    | true =>
      have hpass : ¬SendFails sends := by
        rw [← send_loop_fails, hsend]
        simp
      simp only [Bool.not_true, Bool.false_eq_true, if_false] at h
      obtain ⟨⟨ok,v⟩,hrecv,h⟩ := Option.bind_eq_some_iff.mp h
      have hpolls := recv_loop_polls b recvs _ v ok hrecv
      have hleft := recv_loop_left b recvs _ v ok (by simp) (by simp) hrecv
      cases hleft with
      | failed hno =>
        obtain ⟨rfl,rfl⟩ := Prod.mk.inj (Option.some.inj h)
        refine iff_of_true ⟨fun h0 => absurd h0 (by decide),fun _ => ⟨hpolls.res,hpolls.putBack⟩⟩ ?_
        exact fun hb => hno hb.2.2
      | answered hno reply hin hown hslot =>
        obtain ⟨t',ht,hret⟩ := Option.map_eq_some_iff.mp h
        obtain ⟨rfl,rfl⟩ := Prod.mk.inj hret
        obtain ⟨rw,hrw,hres,hpolled⟩ := take_reply_effect ht
        rw [hslot] at hrw
        obtain rfl := Option.some.inj hrw
        refine iff_of_true ⟨fun _ => ⟨reply,hpolled ▸ hin,hown,?_⟩,fun h1 => absurd rfl h1⟩
          fun hb => hno hb.2.2
        rw [hres, hpolls.buffer]
      | broken hbroken hnone =>
        obtain ⟨t',ht,hret⟩ := Option.map_eq_some_iff.mp h
        obtain ⟨rfl,rfl⟩ := Prod.mk.inj hret
        obtain ⟨rw,-,-,hpolled⟩ := take_reply_effect ht
        refine iff_of_false (fun hsound => ?_) (fun hb => hb ⟨rfl,hpass,hbroken⟩)
        obtain ⟨reply,hin,hown,-⟩ := hsound.success rfl
        exact hnone reply (hpolled ▸ hin) hown

/-- Every binder still holds the receive work of an earlier reply. -/
def usedClient : Rpc ℕ where
  binders := fun _ => ⟨0,some 3⟩
  buffer := fun rw => rw+40
  res := 0
  sent := []
  polled := []
  putBack := []

def answeredCall : Option (U32 × Rpc ℕ) :=
  ibRpc commitWord 5 true [.empty,.got true]
    [.got ⟨rpcImm commitWord 9,1⟩,.got ⟨rpcImm commitWord 5,2⟩] usedClient

theorem rpc_result_sound_iff_sample : ∃ t, answeredCall = some (0#32,t) ∧
    ResultSound 5 usedClient t 0#32 := by
  have hrun : answeredCall.map Prod.fst = some 0#32 := by decide
  obtain ⟨⟨ret,t⟩,ht,rfl⟩ := Option.map_eq_some_iff.mp hrun
  refine ⟨t,ht,(rpc_result_sound_iff _ _ _ _ _ _ _ _ ht).mpr ?_⟩
  rintro ⟨-,-,hb⟩
  simp [broken_off_cons, broken_off_nil] at hb

/-- The receive queue breaks off. The call returns zero with the payload of the
earlier reply, and puts its receive work back a second time. -/
theorem stale_result : ∃ t,
    ibRpc commitWord 5 true [.got true] [.negative] usedClient = some (0#32,t) ∧
      t.polled = [] ∧ t.res = 43 ∧ t.putBack = [3] ∧ ¬ResultSound 5 usedClient t 0#32 := by
  have hrun : (ibRpc commitWord 5 true [.got true] [.negative] usedClient).map
      (fun r => (r.1,r.2.polled,r.2.res,r.2.putBack)) = some (0#32,[],43,[3]) := by decide
  obtain ⟨⟨ret,t⟩,ht,heq⟩ := Option.map_eq_some_iff.mp hrun
  simp only [Prod.mk.injEq] at heq
  obtain ⟨rfl,hpolled,hres,hput⟩ := heq
  refine ⟨t,ht,hpolled,hres,hput,fun hsound => ?_⟩
  obtain ⟨reply,hin,-⟩ := hsound.success rfl
  simp [hpolled] at hin

end Maruswap.RpcResult
