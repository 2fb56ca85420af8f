import Maruswap.WireFormat
import Mathlib.Logic.Function.Basic

/-!
# Calls of the RPC client

`ib_rpc` of the library and `__ib_rpc` of the driver, step by step: any number
of calls share the binders, the receive works and the two completion queues of
one queue pair. The driver waits for its send completion before it looks for
the reply, the library after it has released the binder. Each call has a number
of its own. The call and the binder a request or a reply belongs to, the payload
the peer answered with and the log are ghosts.
-/

set_option autoImplicit false

namespace Maruswap.RpcCalls
open WireFormat

variable {P : Type*}

def nrBinders : ℕ := 256

/-- What one `ibv_poll_cq(cq, 1, &wc)` of the send queue yields; `failed` is a
completion whose status is not success. -/
inductive PollResult where
  | empty
  | negative
  | failed
  | got
  deriving DecidableEq

/-- And of the receive queue. A failed completion is that of a posted work, without a
message: its `imm_data` holds whatever was there. -/
inductive RecvResult where
  | empty
  | negative
  | failed (immData : U32) (w : ℕ)
  | got
  deriving DecidableEq

structure Binder where
  flags : ℕ
  priv : ℕ

structure Request where
  immData : U32
  call : ℕ
  binder : ℕ
  deriving DecidableEq

structure Completion where
  immData : U32
  wrId : ℕ
  call : ℕ
  binder : ℕ
  deriving DecidableEq

structure RecvWork (P : Type*) where
  buffer : P
  call : ℕ

/-- The opcode word of every call, and whether it is given an `mr`. -/
structure Client where
  driver : Bool
  opcode : ℕ → U32
  mr : ℕ → Bool

inductive Pc where
  | idle
  | bound (b : ℕ)
  | sending (b : ℕ)
  | waiting (b : ℕ)
  | polling (b : ℕ)
  | polled (b : ℕ) (wc : Completion)
  | marking (b : ℕ) (wc : Completion)
  | ready (b : ℕ)
  | loaded (b w : ℕ)
  | copied (b w : ℕ)
  | putBack (b : ℕ)
  | checked (b : ℕ)
  | released
  | returned (success : Bool)
  deriving DecidableEq

/-- `reply` is the call whose reply is copied or put back. -/
inductive Event where
  | copied (caller reply : ℕ)
  | putBack (caller reply : ℕ)
  | released (caller : ℕ)
  deriving DecidableEq

structure Rpc (P : Type*) where
  pc : ℕ → Pc
  binders : ℕ → Binder
  requests : List Request
  sends : List ℕ
  sendCq : List ℕ
  done : ℕ → Bool
  recvCq : List Completion
  rw : ℕ → RecvWork P
  posted : List ℕ
  res : ℕ → Option P
  answered : ℕ → Option P
  log : List Event

inductive Label (P : Type*) where
  | acquire (c b : ℕ)
  | post (c : ℕ) (accepted : Bool)
  | answer (q : Request) (payload : P) (w : ℕ)
  | complete (c : ℕ)
  | pollSend (c : ℕ) (r : PollResult)
  | sent (c : ℕ)
  | readFlags (c : ℕ)
  | pollRecv (c : ℕ) (r : RecvResult)
  | storePrivate (c : ℕ)
  | setFlags (c : ℕ)
  | loadPrivate (c : ℕ)
  | copy (c : ℕ)
  | putBack (c : ℕ)
  | checkBinder (c : ℕ)
  | release (c : ℕ)

def Rpc.move (s : Rpc P) (c : ℕ) (p : Pc) : Rpc P := { s with pc := Function.update s.pc c p }

def Rpc.setBinder (s : Rpc P) (b : ℕ) (v : Binder) : Rpc P :=
  { s with binders := Function.update s.binders b v }

/-- One try of the `atomic_cmpxchg` in `__get_binder`. -/
def getBinder (c b : ℕ) (s : Rpc P) : Rpc P :=
  if (s.binders b).flags = 0 then
    (s.setBinder b { s.binders b with flags := 1 }).move c (.bound b)
  else s

def post (k : Client) (c b : ℕ) (s : Rpc P) : Rpc P :=
  { s.move c (if k.driver then .sending b else .waiting b) with
    requests := s.requests++[⟨rpcImm (k.opcode c) b,c,b⟩]
    sends := s.sends++[c] }

/-- The peer echoes the immediate word of a request; the reply lands in a
posted receive work. -/
def answer (q : Request) (payload : P) (w : ℕ) (s : Rpc P) : Rpc P :=
  { s with
    requests := s.requests.erase q
    rw := Function.update s.rw w ⟨payload,q.call⟩
    posted := s.posted.erase w
    recvCq := s.recvCq++[⟨q.immData,w,q.call,q.binder⟩]
    answered := Function.update s.answered q.call (some payload) }

/-- A poll of the send queue, with the places a negative result and a failed
completion lead to. -/
def pollSend (c : ℕ) (onNegative onFailed : Pc) : PollResult → Rpc P → Option (Rpc P)
  | .empty, s => some s
  | .negative, s => some (s.move c onNegative)
  | .failed, s => match s.sendCq with
    | [] => none
    | _::cq => some { s.move c onFailed with sendCq := cq }
  | .got, s => match s.sendCq with
    | [] => none
    | d::cq => some { s with sendCq := cq, done := Function.update s.done d true }

/-- A poll of the receive queue. Only the driver looks at the status; after a
negative result it goes on as if its reply had come. The library takes a failed
completion for a reply; the ghosts are then those of the call that polls it. -/
def pollRecv (k : Client) (c b : ℕ) : RecvResult → Rpc P → Option (Rpc P)
  | .empty, s => some (s.move c (.waiting b))
  | .negative, s => some (s.move c (if k.driver then .ready b else .returned false))
  | .failed immData w, s =>
    if w ∈ s.posted then
      some { s.move c (if k.driver then .returned false else .polled b ⟨immData,w,c,b⟩) with
        posted := s.posted.erase w }
    else none
  | .got, s => match s.recvCq with
    | [] => none
    | wc::cq => some { s.move c (.polled b wc) with recvCq := cq }

def copy (c b w : ℕ) (s : Rpc P) : Rpc P :=
  { s.move c (.copied b w) with
    res := Function.update s.res c (some (s.rw w).buffer)
    log := .copied c (s.rw w).call::s.log }

def putBack (c b w : ℕ) (s : Rpc P) : Rpc P :=
  { s.move c (.putBack b) with
    posted := s.posted++[w]
    log := .putBack c (s.rw w).call::s.log }

def release (k : Client) (c b : ℕ) (s : Rpc P) : Rpc P :=
  { (s.setBinder b { s.binders b with flags := 0 }).move c
      (if k.driver then .returned true else .released) with
    log := .released c::s.log }

/-- The refused post of the library and its failed check are assertions: the
call has no next step there. -/
def step (k : Client) : Label P → Rpc P → Option (Rpc P)
  | .acquire c b, s => match s.pc c with
    | .idle => if b < nrBinders then some (getBinder c b s) else none
    | _ => none
  | .post c accepted, s => match s.pc c with
    | .bound b =>
      if accepted then some (post k c b s)
      else if k.driver then some (s.move c (.returned false)) else none
    | _ => none
  | .answer q payload w, s =>
    if q ∈ s.requests ∧ w ∈ s.posted then some (answer q payload w s) else none
  | .complete c, s =>
    if c ∈ s.sends then some { s with sends := s.sends.erase c, sendCq := s.sendCq++[c] }
    else none
  | .pollSend c r, s => match s.pc c with
    | .sending b => pollSend c (.waiting b) (.returned false) r s
    | .released => if k.mr c then pollSend c (.returned true) (.returned false) r s else none
    | _ => none
  | .sent c, s => match s.pc c with
    | .sending b => if s.done c then some (s.move c (.waiting b)) else none
    | .released => if s.done c || !k.mr c then some (s.move c (.returned true)) else none
    | _ => none
  | .readFlags c, s => match s.pc c with
    | .waiting b => some (s.move c (if (s.binders b).flags = 2 then .ready b else .polling b))
    | _ => none
  | .pollRecv c r, s => match s.pc c with
    | .polling b => pollRecv k c b r s
    | _ => none
  | .storePrivate c, s => match s.pc c with
    | .polled b wc => some ((s.setBinder (replyBinder wc.immData)
        { s.binders (replyBinder wc.immData) with priv := wc.wrId }).move c (.marking b wc))
    | _ => none
  | .setFlags c, s => match s.pc c with
    | .marking b wc => some ((s.setBinder (replyBinder wc.immData)
        { s.binders (replyBinder wc.immData) with flags := 2 }).move c (.waiting b))
    | _ => none
  | .loadPrivate c, s => match s.pc c with
    | .ready b => some (s.move c (.loaded b (s.binders b).priv))
    | _ => none
  | .copy c, s => match s.pc c with
    | .loaded b w => some (copy c b w s)
    | _ => none
  | .putBack c, s => match s.pc c with
    | .copied b w => some (putBack c b w s)
    | _ => none
  | .checkBinder c, s => match s.pc c with
    | .putBack b =>
      if (s.binders b).flags = 2 then some (s.move c (.checked b))
      else if k.driver then some (s.move c (.returned true)) else none
    | _ => none
  | .release c, s => match s.pc c with
    | .checked b => some (release k c b s)
    | _ => none

/-- What a poll of the send queue comes to. -/
inductive SendPoll (c : ℕ) (onNegative onFailed : Pc) : PollResult → Rpc P → Rpc P → Prop where
  | empty {s : Rpc P} : SendPoll c onNegative onFailed .empty s s
  | negative {s : Rpc P} : SendPoll c onNegative onFailed .negative s (s.move c onNegative)
  | failed {s : Rpc P} {d : ℕ} {cq : List ℕ} (hcq : s.sendCq = d::cq) :
      SendPoll c onNegative onFailed .failed s { s.move c onFailed with sendCq := cq }
  | got {s : Rpc P} {d : ℕ} {cq : List ℕ} (hcq : s.sendCq = d::cq) :
      SendPoll c onNegative onFailed .got s
        { s with sendCq := cq, done := Function.update s.done d true }

theorem poll_send_effect {c : ℕ} {onNegative onFailed : Pc} {r : PollResult} {s t : Rpc P}
    (h : pollSend c onNegative onFailed r s = some t) :
    SendPoll c onNegative onFailed r s t := by
  cases r with
  | empty => exact Option.some.inj h ▸ .empty
  | negative => exact Option.some.inj h ▸ .negative
  | failed =>
    cases hcq : s.sendCq with
    | nil => simp [pollSend, hcq] at h
    | cons d cq =>
      simp only [pollSend, hcq, Option.some.injEq] at h
      exact h ▸ .failed hcq
  | got =>
    cases hcq : s.sendCq with
    | nil => simp [pollSend, hcq] at h
    | cons d cq =>
      simp only [pollSend, hcq, Option.some.injEq] at h
      exact h ▸ .got hcq

/-- What a poll of the receive queue comes to. -/
inductive RecvPoll (k : Client) (c b : ℕ) : RecvResult → Rpc P → Rpc P → Prop where
  | empty {s : Rpc P} : RecvPoll k c b .empty s (s.move c (.waiting b))
  | goOn {s : Rpc P} (hk : k.driver = true) : RecvPoll k c b .negative s (s.move c (.ready b))
  | giveUp {s : Rpc P} (hk : k.driver = false) :
      RecvPoll k c b .negative s (s.move c (.returned false))
  | failed {immData : U32} {w : ℕ} {s : Rpc P} (hk : k.driver = true) (hw : w ∈ s.posted) :
      RecvPoll k c b (.failed immData w) s
        { s.move c (.returned false) with posted := s.posted.erase w }
  | mistaken {immData : U32} {w : ℕ} {s : Rpc P} (hk : k.driver = false) (hw : w ∈ s.posted) :
      RecvPoll k c b (.failed immData w) s
        { s.move c (.polled b ⟨immData,w,c,b⟩) with posted := s.posted.erase w }
  | taken {s : Rpc P} {wc : Completion} {cq : List Completion} (hcq : s.recvCq = wc::cq) :
      RecvPoll k c b .got s { s.move c (.polled b wc) with recvCq := cq }

theorem poll_recv_effect {k : Client} {c b : ℕ} {r : RecvResult} {s t : Rpc P}
    (h : pollRecv k c b r s = some t) : RecvPoll k c b r s t := by
  cases r with
  | empty => exact Option.some.inj h ▸ .empty
  | negative =>
    obtain rfl := Option.some.inj h
    cases hk : k.driver
    · exact .giveUp hk
    · exact .goOn hk
  | failed immData w =>
    obtain ⟨hw,h⟩ := Option.ite_none_right_eq_some.mp h
    obtain rfl := Option.some.inj h
    cases hk : k.driver
    · exact .mistaken hk hw
    · exact .failed hk hw
  | got =>
    cases hcq : s.recvCq with
    | nil => simp [pollRecv, hcq] at h
    | cons wc cq =>
      simp only [pollRecv, hcq, Option.some.injEq] at h
      exact h ▸ .taken hcq

/-- What each label does where it is enabled, a branch of the source a case. -/
inductive Effect (k : Client) : Label P → Rpc P → Rpc P → Prop where
  | acquire {c b : ℕ} {s : Rpc P} (hpc : s.pc c = .idle) (hb : b < nrBinders) :
      Effect k (.acquire c b) s (getBinder c b s)
  | post {c b : ℕ} {s : Rpc P} (hpc : s.pc c = .bound b) :
      Effect k (.post c true) s (post k c b s)
  | refuse {c b : ℕ} {s : Rpc P} (hpc : s.pc c = .bound b) (hk : k.driver = true) :
      Effect k (.post c false) s (s.move c (.returned false))
  | answer {q : Request} {payload : P} {w : ℕ} {s : Rpc P} (hq : q ∈ s.requests)
      (hw : w ∈ s.posted) : Effect k (.answer q payload w) s (answer q payload w s)
  | complete {c : ℕ} {s : Rpc P} (hc : c ∈ s.sends) :
      Effect k (.complete c) s { s with sends := s.sends.erase c, sendCq := s.sendCq++[c] }
  | pollSend {c b : ℕ} {r : PollResult} {s t : Rpc P} (hpc : s.pc c = .sending b)
      (ht : SendPoll c (.waiting b) (.returned false) r s t) :
      Effect k (.pollSend c r) s t
  | pollLate {c : ℕ} {r : PollResult} {s t : Rpc P} (hpc : s.pc c = .released)
      (ht : SendPoll c (.returned true) (.returned false) r s t) :
      Effect k (.pollSend c r) s t
  | sent {c b : ℕ} {s : Rpc P} (hpc : s.pc c = .sending b) :
      Effect k (.sent c) s (s.move c (.waiting b))
  | finished {c : ℕ} {s : Rpc P} (hpc : s.pc c = .released) :
      Effect k (.sent c) s (s.move c (.returned true))
  | readFlags {c b : ℕ} {s : Rpc P} (hpc : s.pc c = .waiting b) : Effect k (.readFlags c) s
      (s.move c (if (s.binders b).flags = 2 then .ready b else .polling b))
  | pollRecv {c b : ℕ} {r : RecvResult} {s t : Rpc P} (hpc : s.pc c = .polling b)
      (ht : RecvPoll k c b r s t) : Effect k (.pollRecv c r) s t
  | storePrivate {c b : ℕ} {wc : Completion} {s : Rpc P} (hpc : s.pc c = .polled b wc) :
      Effect k (.storePrivate c) s ((s.setBinder (replyBinder wc.immData)
        { s.binders (replyBinder wc.immData) with priv := wc.wrId }).move c (.marking b wc))
  | setFlags {c b : ℕ} {wc : Completion} {s : Rpc P} (hpc : s.pc c = .marking b wc) :
      Effect k (.setFlags c) s ((s.setBinder (replyBinder wc.immData)
        { s.binders (replyBinder wc.immData) with flags := 2 }).move c (.waiting b))
  | loadPrivate {c b : ℕ} {s : Rpc P} (hpc : s.pc c = .ready b) :
      Effect k (.loadPrivate c) s (s.move c (.loaded b (s.binders b).priv))
  | copy {c b w : ℕ} {s : Rpc P} (hpc : s.pc c = .loaded b w) :
      Effect k (.copy c) s (copy c b w s)
  | putBack {c b w : ℕ} {s : Rpc P} (hpc : s.pc c = .copied b w) :
      Effect k (.putBack c) s (putBack c b w s)
  | checkBinder {c b : ℕ} {s : Rpc P} (hpc : s.pc c = .putBack b)
      (hf : (s.binders b).flags = 2) : Effect k (.checkBinder c) s (s.move c (.checked b))
  | skipBinder {c b : ℕ} {s : Rpc P} (hpc : s.pc c = .putBack b)
      (hf : (s.binders b).flags ≠ 2) (hk : k.driver = true) :
      Effect k (.checkBinder c) s (s.move c (.returned true))
  | release {c b : ℕ} {s : Rpc P} (hpc : s.pc c = .checked b) :
      Effect k (.release c) s (release k c b s)

theorem step_effect {k : Client} {l : Label P} {s t : Rpc P} (h : step k l s = some t) :
    Effect k l s t := by
  cases l with
  | acquire c b =>
    simp only [step] at h
    split at h
    · next hpc =>
      obtain ⟨hb,h⟩ := Option.ite_none_right_eq_some.mp h
      exact Option.some.inj h ▸ .acquire hpc hb
    · cases h
  | post c accepted =>
    simp only [step] at h
    split at h
    · next b hpc =>
      split_ifs at h with ha hk
      · subst ha
        exact Option.some.inj h ▸ .post hpc
      · obtain rfl : accepted = false := by simpa using ha
        exact Option.some.inj h ▸ .refuse hpc hk
    · cases h
  | answer q payload w =>
    obtain ⟨⟨hq,hw⟩,h⟩ := Option.ite_none_right_eq_some.mp h
    exact Option.some.inj h ▸ .answer hq hw
  | complete c =>
    obtain ⟨hc,h⟩ := Option.ite_none_right_eq_some.mp h
    exact Option.some.inj h ▸ .complete hc
  | pollSend c r =>
    simp only [step] at h
    split at h
    · next b hpc => exact .pollSend hpc (poll_send_effect h)
    · next hpc => exact .pollLate hpc (poll_send_effect (Option.ite_none_right_eq_some.mp h).2)
    · cases h
  | sent c =>
    simp only [step] at h
    split at h
    · next b hpc =>
      exact Option.some.inj (Option.ite_none_right_eq_some.mp h).2 ▸ .sent hpc
    · next hpc =>
      exact Option.some.inj (Option.ite_none_right_eq_some.mp h).2 ▸ .finished hpc
    · cases h
  | readFlags c =>
    simp only [step] at h
    split at h
    · next b hpc => exact Option.some.inj h ▸ .readFlags hpc
    · cases h
  | pollRecv c r =>
    simp only [step] at h
    split at h
    · next b hpc => exact .pollRecv hpc (poll_recv_effect h)
    · cases h
  | storePrivate c =>
    simp only [step] at h
    split at h
    · next b wc hpc => exact Option.some.inj h ▸ .storePrivate hpc
    · cases h
  | setFlags c =>
    simp only [step] at h
    split at h
    · next b wc hpc => exact Option.some.inj h ▸ .setFlags hpc
    · cases h
  | loadPrivate c =>
    simp only [step] at h
    split at h
    · next b hpc => exact Option.some.inj h ▸ .loadPrivate hpc
    · cases h
  | copy c =>
    simp only [step] at h
    split at h
    · next b w hpc => exact Option.some.inj h ▸ .copy hpc
    · cases h
  | putBack c =>
    simp only [step] at h
    split at h
    · next b w hpc => exact Option.some.inj h ▸ .putBack hpc
    · cases h
  | checkBinder c =>
    simp only [step] at h
    split at h
    · next b hpc =>
      split_ifs at h with hf hk
      · exact Option.some.inj h ▸ .checkBinder hpc hf
      · exact Option.some.inj h ▸ .skipBinder hpc hf hk
    · cases h
  | release c =>
    simp only [step] at h
    split at h
    · next b hpc => exact Option.some.inj h ▸ .release hpc
    · cases h

/-- After `init_binder`, with `n` receive works posted. -/
def initRpc (n : ℕ) (buffer : ℕ → P) : Rpc P where
  pc := fun _ => .idle
  binders := fun _ => ⟨0,0⟩
  requests := []
  sends := []
  sendCq := []
  done := fun _ => false
  recvCq := []
  rw := fun w => ⟨buffer w,0⟩
  posted := List.range n
  res := fun _ => none
  answered := fun _ => none
  log := []

/-- Posts are accepted, and no poll is negative or yields a failed completion. -/
def Accepted : Label P → Prop
  | .post _ accepted => accepted = true
  | .pollSend _ r => r ≠ .negative ∧ r ≠ .failed
  | .pollRecv _ r => r ≠ .negative ∧ ∀ immData w, r ≠ .failed immData w
  | _ => True

/-- The binder of a call from the moment it is acquired until it is released. -/
def Pc.binder : Pc → Option ℕ
  | .idle => none
  | .bound b => some b
  | .sending b => some b
  | .waiting b => some b
  | .polling b => some b
  | .polled b _ => some b
  | .marking b _ => some b
  | .ready b => some b
  | .loaded b _ => some b
  | .copied b _ => some b
  | .putBack b => some b
  | .checked b => some b
  | .released => none
  | .returned _ => none

def Event.caller : Event → ℕ
  | .copied c _ => c
  | .putBack c _ => c
  | .released c => c

def trace (c : ℕ) (log : List Event) : List Event := log.filter (fun e => e.caller = c)

end Maruswap.RpcCalls
