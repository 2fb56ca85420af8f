import Maruswap.GetPage
import Maruswap.OpenReplies
import Maruswap.OpenedBlocks

/-!
# The clients' calls and the server's RDMA thread

Any number of calls on one side of a reliable connection, `rdma_memory_thread` on the
other: it takes the requests one by one out of its receive works, goes by their opcode,
replies where the handler does, and posts the work again. The multicast thread goes on
meanwhile. What a call returns is then what the handlers did for its own request. A GET
whose page the queue pair does not take inline ends the server. The handlers of OPEN and
of FLOW are taken in one piece each: where both look for a block that is not there, the
one may come between test and assignment of the other, which is not followed here.
-/

set_option autoImplicit false

namespace Maruswap.RpcService
open WireFormat RpcCalls RpcBinders GuardedRun
open OpenReplies (Sent Worded Mistakes step_worded)
open ServerHandlers (AllocResult processRdmaRpcOpen mcmMaxRecvWr InTable)
open ServerThreads (Threads Ledger IsCommit)
open Deployment (copied)
open OpenFaults (region)
open GetPage (opcodeGet walkList ibSendInline)

variable {Page : Type*}

/-- What a reply carries. The byte that answers a COMMIT means nothing. -/
inductive Reply (Page : Type*) where
  | opened (remoteAddr : ℕ) (rkey : U32)
  | committed
  | page (content : Page)

/-- What the RDMA thread has in hand: a request, and the receive work it came in. -/
inductive Hand (Page : Type*) where
  | idle
  | handling (q : Request) (w : ℕ)
  | replying (q : Request) (w : ℕ) (r : Reply Page)
  | handled (w : ℕ)
  | aborted (q : Request) (w : ℕ)

def Hand.request : Hand Page → Option Request
  | .handling q _ => some q
  | .replying q _ _ => some q
  | .aborted q _ => some q
  | _ => none

def Hand.work : Hand Page → Option ℕ
  | .idle => none
  | .handling _ w => some w
  | .replying _ w _ => some w
  | .handled w => some w
  | .aborted _ w => some w

def Hand.down : Hand Page → Bool
  | .aborted _ _ => true
  | _ => false

/-- `cq` and `posted` are the server's. The last three are ghosts: the requests in the
order they were posted, those the server is done with, with the reply if there was one,
and how many frames it had listed when a call was posted. -/
structure Service (Page : Type*) where
  client : Rpc (Reply Page)
  wire : List Request
  cq : List (Request × ℕ)
  hand : Hand Page
  posted : List ℕ
  thr : Threads Page
  asked : List Request
  handled : List (Request × Option (Reply Page))
  upto : ℕ → ℕ

inductive Label (Page : Type*) where
  | client (l : RpcCalls.Label (Reply Page))
  | thread (l : ServerThreads.Label Page)
  | deliver (w : ℕ)
  | poll
  | openBlock (a : AllocResult)
  | pick
  | committed
  | getPage
  | ignore
  | send (v : ℕ)
  | putBack

def isAnswer : RpcCalls.Label (Reply Page) → Bool
  | .answer _ _ _ => true
  | _ => false

/-- A commit is taken up and ended with its request. -/
def isRequest : ServerThreads.Label Page → Bool
  | .pick _ => true
  | .reply => true
  | _ => false

/-- CLOSE, TRANSITION and CHECK have handlers that do not reply, and unknown opcodes have
none. -/
def Silent (immData : U32) : Prop :=
  ibGetOpcode immData ≠ opcodeOpen ∧ ¬IsCommit immData ∧ ibGetOpcode immData ≠ opcodeGet

instance (immData : U32) : Decidable (Silent immData) :=
  inferInstanceAs (Decidable (_ ∧ _ ∧ _))

def fresh (c d : Rpc (Reply Page)) : List Request := d.requests.drop c.requests.length

/-- The client goes on to `c`. What it posts is counted from the frames listed by then. -/
def Service.goOn (s : Service Page) (c : Rpc (Reply Page)) : Service Page := { s with
  client := c
  wire := s.wire++fresh s.client c
  asked := s.asked++fresh s.client c
  upto := fun d =>
    if d ∈ (fresh s.client c).map Request.call then s.thr.listed else s.upto d }

section Step
variable [Zero Page]

def search (immData : U32) (s : ServerHandlers.Server Page) : Option Page :=
  (interpretHeader immData).bind fun hd =>
    let r := walkList hd.offset s s.commitList ⟨false,0⟩
    if r.check then some r.page else none

/-- The page of a GET is sent, or the server aborts. -/
def sendPage (maxInline : ℕ) (q : Request) (w : ℕ) (page : Page) : Hand Page :=
  match ibSendInline maxInline pageSize q.immData page with
  | .replied _ page => .replying q w (.page page)
  | _ => .aborted q w

/-- A reply is sent when it has come into a receive work of the client. -/
def step (maxInline : ℕ) (k : Client) : Label Page → Service Page → Option (Service Page)
  | .client l, s =>
    if isAnswer l then none
    else (RpcCalls.step k l s.client).map s.goOn
  | .thread l, s =>
    if isRequest l || s.hand.down then none
    else (ServerThreads.step l s.thr).map fun t => { s with thr := t }
  | .deliver w, s => match s.wire with
    | q::rest =>
      if w ∈ s.posted ∧ s.hand.down = false then some { s with
        wire := rest, cq := s.cq++[(q,w)], posted := s.posted.erase w }
      else none
    | [] => none
  | .poll, s => match s.hand, s.cq with
    | .idle, e::rest => some { s with hand := .handling e.1 e.2, cq := rest }
    | _, _ => none
  | .openBlock a, s => match s.hand with
    | .handling q w =>
      if ibGetOpcode q.immData = opcodeOpen ∧ InTable q.immData then
        (processRdmaRpcOpen a q.immData s.thr.srv).bind fun srv =>
          (region srv (blockOf (pageOffset q.immData))).map fun mr => { s with
            thr := { s.thr with srv := srv }
            hand := .replying q w (.opened mr.1 mr.2) }
      else none
    | _ => none
  | .pick, s => match s.hand with
    | .handling q _ =>
      (ServerThreads.step (.pick q.immData) s.thr).map fun t => { s with thr := t }
    | _ => none
  | .committed, s => match s.hand with
    | .handling q w => (ServerThreads.step .reply s.thr).map fun t => { s with
        thr := t, hand := .replying q w .committed }
    | _ => none
  | .getPage, s => match s.hand with
    | .handling q w =>
      if ibGetOpcode q.immData = opcodeGet then
        (search q.immData s.thr.srv).map fun page => { s with
          hand := sendPage maxInline q w page }
      else none
    | _ => none
  | .ignore, s => match s.hand with
    | .handling q w =>
      if Silent q.immData then some { s with
        hand := .handled w, handled := s.handled++[(q,none)] }
      else none
    | _ => none
  | .send v, s => match s.hand with
    | .replying q w r => (RpcCalls.step k (.answer q r v) s.client).map fun c => { s with
        client := c, hand := .handled w, handled := s.handled++[(q,some r)] }
    | _ => none
  | .putBack, s => match s.hand with
    | .handled w => some { s with hand := .idle, posted := s.posted++[w] }
    | _ => none

def initService (n : ℕ) (buffer : ℕ → Reply Page) (base : ℕ) (rkey : U32) : Service Page where
  client := initRpc n buffer
  wire := []
  cq := []
  hand := .idle
  posted := List.range mcmMaxRecvWr
  thr := ServerThreads.initThreads base rkey
  asked := []
  handled := []
  upto := fun _ => 0

inductive Effect (maxInline : ℕ) (k : Client) :
    Label Page → Service Page → Service Page → Prop where
  | client {l : RpcCalls.Label (Reply Page)} {s : Service Page} {c : Rpc (Reply Page)}
      (hl : isAnswer l = false) (hc : RpcCalls.step k l s.client = some c) :
      Effect maxInline k (.client l) s (s.goOn c)
  | thread {l : ServerThreads.Label Page} {s : Service Page} {u : Threads Page}
      (hl : isRequest l = false) (hu : ServerThreads.step l s.thr = some u) :
      Effect maxInline k (.thread l) s { s with thr := u }
  | deliver {q : Request} {rest : List Request} {w : ℕ} {s : Service Page}
      (hwire : s.wire = q::rest) (hw : w ∈ s.posted) : Effect maxInline k (.deliver w) s { s with
        wire := rest, cq := s.cq++[(q,w)], posted := s.posted.erase w }
  | poll {e : Request × ℕ} {rest : List (Request × ℕ)} {s : Service Page}
      (hhand : s.hand = .idle) (hcq : s.cq = e::rest) :
      Effect maxInline k .poll s { s with hand := .handling e.1 e.2, cq := rest }
  | openBlock {a : AllocResult} {q : Request} {w : ℕ} {s : Service Page}
      {srv : ServerHandlers.Server Page} {mr : ℕ × U32} (hhand : s.hand = .handling q w)
      (hop : ibGetOpcode q.immData = opcodeOpen) (htable : InTable q.immData)
      (hsrv : processRdmaRpcOpen a q.immData s.thr.srv = some srv)
      (hmr : region srv (blockOf (pageOffset q.immData)) = some mr) :
      Effect maxInline k (.openBlock a) s { s with
        thr := { s.thr with srv := srv }, hand := .replying q w (.opened mr.1 mr.2) }
  | pick {q : Request} {w : ℕ} {s : Service Page} {u : Threads Page}
      (hhand : s.hand = .handling q w)
      (hu : ServerThreads.step (.pick q.immData) s.thr = some u) :
      Effect maxInline k .pick s { s with thr := u }
  | committed {q : Request} {w : ℕ} {s : Service Page} {u : Threads Page}
      (hhand : s.hand = .handling q w) (hu : ServerThreads.step .reply s.thr = some u) :
      Effect maxInline k .committed s { s with thr := u, hand := .replying q w .committed }
  | getPage {q : Request} {w : ℕ} {s : Service Page} {content : Page}
      (hhand : s.hand = .handling q w) (hop : ibGetOpcode q.immData = opcodeGet)
      (hfound : search q.immData s.thr.srv = some content) :
      Effect maxInline k .getPage s { s with hand := sendPage maxInline q w content }
  | ignore {q : Request} {w : ℕ} {s : Service Page} (hhand : s.hand = .handling q w)
      (hsilent : Silent q.immData) : Effect maxInline k .ignore s { s with
        hand := .handled w, handled := s.handled++[(q,none)] }
  | send {q : Request} {w v : ℕ} {r : Reply Page} {s : Service Page} {c : Rpc (Reply Page)}
      (hhand : s.hand = .replying q w r)
      (hc : RpcCalls.step k (.answer q r v) s.client = some c) :
      Effect maxInline k (.send v) s { s with
        client := c, hand := .handled w, handled := s.handled++[(q,some r)] }
  | putBack {w : ℕ} {s : Service Page} (hhand : s.hand = .handled w) :
      Effect maxInline k .putBack s { s with hand := .idle, posted := s.posted++[w] }

theorem step_cases {maxInline : ℕ} {k : Client} {l : Label Page} {s t : Service Page}
    (hs : step maxInline k l s = some t) : Effect maxInline k l s t := by
  cases l with
  | client l =>
    obtain ⟨hl,hs⟩ := Option.ite_none_left_eq_some.mp hs
    obtain ⟨c,hc,rfl⟩ := Option.map_eq_some_iff.mp hs
    exact .client (by simpa using hl) hc
  | thread l =>
    obtain ⟨hl,hs⟩ := Option.ite_none_left_eq_some.mp hs
    obtain ⟨hl,-⟩ : isRequest l = false ∧ s.hand.down = false := by simpa using hl
    obtain ⟨u,hu,rfl⟩ := Option.map_eq_some_iff.mp hs
    exact .thread hl hu
  | deliver w =>
    simp only [step] at hs
    split at hs
    · next q rest hwire =>
      obtain ⟨⟨hw,-⟩,hs⟩ := Option.ite_none_right_eq_some.mp hs
      exact Option.some.inj hs ▸ .deliver hwire hw
    · cases hs
  | poll =>
    simp only [step] at hs
    split at hs
    · next e rest hhand hcq => exact Option.some.inj hs ▸ .poll hhand hcq
    · cases hs
  | openBlock a =>
    simp only [step] at hs
    split at hs
    · next q w hhand =>
      obtain ⟨⟨hop,htable⟩,hs⟩ := Option.ite_none_right_eq_some.mp hs
      obtain ⟨srv,hsrv,hs⟩ := Option.bind_eq_some_iff.mp hs
      obtain ⟨mr,hmr,rfl⟩ := Option.map_eq_some_iff.mp hs
      exact .openBlock hhand hop htable hsrv hmr
    · cases hs
  | pick =>
    simp only [step] at hs
    split at hs
    · next q w hhand =>
      obtain ⟨u,hu,rfl⟩ := Option.map_eq_some_iff.mp hs
      exact .pick hhand hu
    · cases hs
  | committed =>
    simp only [step] at hs
    split at hs
    · next q w hhand =>
      obtain ⟨u,hu,rfl⟩ := Option.map_eq_some_iff.mp hs
      exact .committed hhand hu
    · cases hs
  | getPage =>
    simp only [step] at hs
    split at hs
    · next q w hhand =>
      obtain ⟨hop,hs⟩ := Option.ite_none_right_eq_some.mp hs
      obtain ⟨content,hcontent,rfl⟩ := Option.map_eq_some_iff.mp hs
      exact .getPage hhand hop hcontent
    · cases hs
  | ignore =>
    simp only [step] at hs
    split at hs
    · next q w hhand =>
      obtain ⟨hsilent,hs⟩ := Option.ite_none_right_eq_some.mp hs
      exact Option.some.inj hs ▸ .ignore hhand hsilent
    · cases hs
  | send v =>
    simp only [step] at hs
    split at hs
    · next q w r hhand =>
      obtain ⟨c,hc,rfl⟩ := Option.map_eq_some_iff.mp hs
      exact .send hhand hc
    · cases hs
  | putBack =>
    simp only [step] at hs
    split at hs
    · next w hhand => exact Option.some.inj hs ▸ .putBack hhand
    · cases hs

end Step

def dropped (handled : List (Request × Option (Reply Page))) : List Request :=
  (handled.filter (·.2.isNone)).map Prod.fst

def past : Pc → Bool
  | .idle => false
  | .bound _ => false
  | _ => true

variable {k : Client}

inductive Posts (k : Client) (c d : Rpc (Reply Page)) : Prop where
  | same (hrequests : d.requests = c.requests)
      (hpast : ∀ x, past (c.pc x) = true → past (d.pc x) = true) : Posts k c d
  | post (x b : ℕ) (hpc : c.pc x = .bound b) (hnow : past (d.pc x) = true)
      (hrequests : d.requests = c.requests++[⟨rpcImm (k.opcode x) b,x,b⟩])
      (hpast : ∀ x, past (c.pc x) = true → past (d.pc x) = true) : Posts k c d

theorem past_move {c d : Rpc (Reply Page)} {x : ℕ} {p : Pc}
    (hpc : d.pc = Function.update c.pc x p) (hp : past (c.pc x) = true → past p = true) (y : ℕ)
    (h : past (c.pc y) = true) : past (d.pc y) = true := by
  rw [hpc]
  by_cases hy : y = x
  · subst hy
    rw [Function.update_self]
    exact hp h
  · rwa [Function.update_of_ne hy]

theorem client_posts {l : RpcCalls.Label (Reply Page)} {c d : Rpc (Reply Page)}
    (hl : isAnswer l = false) (hs : RpcCalls.step k l c = some d) :
    Posts k c d ∧ d.answered = c.answered := by
  have hsend : ∀ {x : ℕ} {p q : Pc} {r : PollResult}, past p = true → past q = true →
      SendPoll x p q r c d → Posts k c d ∧ d.answered = c.answered := by
    intro x p q r hp hq ht
    cases ht with
    | empty => exact ⟨.same rfl fun _ h => h,rfl⟩
    | negative => exact ⟨.same rfl (past_move rfl fun _ => hp),rfl⟩
    | failed hcq => exact ⟨.same rfl (past_move rfl fun _ => hq),rfl⟩
    | got hcq => exact ⟨.same rfl fun _ h => h,rfl⟩
  cases step_effect hs with
  | acquire hpc hb =>
    unfold getBinder
    split
    · exact ⟨.same rfl (past_move rfl fun h => by rw [hpc] at h; cases h),rfl⟩
    · exact ⟨.same rfl fun _ h => h,rfl⟩
  | @post x b _ hpc =>
    have hp : past (if k.driver then Pc.sending b else .waiting b) = true := by
      cases k.driver <;> rfl
    exact ⟨.post x b hpc (by simpa [post, Rpc.move] using hp) rfl (past_move rfl fun _ => hp),rfl⟩
  | refuse hpc hk => exact ⟨.same rfl (past_move rfl fun _ => rfl),rfl⟩
  | answer hq hw => cases hl
  | complete hc => exact ⟨.same rfl fun _ h => h,rfl⟩
  | pollSend hpc ht => exact hsend rfl rfl ht
  | pollLate hpc ht => exact hsend rfl rfl ht
  | sent hpc => exact ⟨.same rfl (past_move rfl fun _ => rfl),rfl⟩
  | finished hpc => exact ⟨.same rfl (past_move rfl fun _ => rfl),rfl⟩
  | @readFlags x b _ hpc =>
    have hp : past (if (c.binders b).flags = 2 then Pc.ready b else .polling b) = true := by
      split <;> rfl
    exact ⟨.same rfl (past_move rfl fun _ => hp),rfl⟩
  | pollRecv hpc ht =>
    cases ht with
    | empty => exact ⟨.same rfl (past_move rfl fun _ => rfl),rfl⟩
    | goOn hk => exact ⟨.same rfl (past_move rfl fun _ => rfl),rfl⟩
    | giveUp hk => exact ⟨.same rfl (past_move rfl fun _ => rfl),rfl⟩
    | failed hk hw => exact ⟨.same rfl (past_move rfl fun _ => rfl),rfl⟩
    | mistaken hk hw => exact ⟨.same rfl (past_move rfl fun _ => rfl),rfl⟩
    | taken hcq => exact ⟨.same rfl (past_move rfl fun _ => rfl),rfl⟩
  | storePrivate hpc => exact ⟨.same rfl (past_move rfl fun _ => rfl),rfl⟩
  | setFlags hpc => exact ⟨.same rfl (past_move rfl fun _ => rfl),rfl⟩
  | loadPrivate hpc => exact ⟨.same rfl (past_move rfl fun _ => rfl),rfl⟩
  | copy hpc => exact ⟨.same rfl (past_move rfl fun _ => rfl),rfl⟩
  | putBack hpc => exact ⟨.same rfl (past_move rfl fun _ => rfl),rfl⟩
  | checkBinder hpc hf => exact ⟨.same rfl (past_move rfl fun _ => rfl),rfl⟩
  | skipBinder hpc hf hk => exact ⟨.same rfl (past_move rfl fun _ => rfl),rfl⟩
  | release hpc =>
    have hp : past (if k.driver then Pc.returned true else .released) = true := by
      split <;> rfl
    exact ⟨.same rfl (past_move rfl fun _ => hp),rfl⟩

/-- Every request asked is done with or on its way to it, in the order of the posts; what
was not answered is still the client's; and the server's receive works are all there. -/
structure Queued (k : Client) (s : Service Page) : Prop where
  order : s.asked =
    s.handled.map Prod.fst++(s.hand.request.toList++(s.cq.map Prod.fst++s.wire))
  open' : s.client.requests.Perm
    (dropped s.handled++(s.hand.request.toList++(s.cq.map Prod.fst++s.wire)))
  works : (s.posted++(s.hand.work.toList++s.cq.map Prod.snd)).Perm (List.range mcmMaxRecvWr)
  words : Worded k s.client
  worded : ∀ q ∈ s.asked, Sent k q.immData q.call q.binder
  once : (s.asked.map Request.call).Nodup
  asked : ∀ q ∈ s.asked, past (s.client.pc q.call) = true

theorem dropped_append (h₁ h₂ : List (Request × Option (Reply Page))) :
    dropped (h₁++h₂) = dropped h₁++dropped h₂ := by
  simp [dropped]

theorem client_queued {l : RpcCalls.Label (Reply Page)} {s : Service Page}
    {c : Rpc (Reply Page)} (h : Queued k s) (hl : isAnswer l = false) (hm : ¬Mistakes k l)
    (hs : RpcCalls.step k l s.client = some c) : Queued k (s.goOn c) := by
  unfold Service.goOn
  have hwords := step_worded l s.client c h.words hm hs
  cases (client_posts hl hs).1 with
  | same hrequests hpast =>
    have hfresh : fresh s.client c = [] := by simp [fresh, hrequests]
    rw [hfresh, List.append_nil, List.append_nil]
    exact ⟨h.order,hrequests ▸ h.open',h.works,hwords,h.worded,h.once,
      fun q hq => hpast q.call (h.asked q hq)⟩
  | post x b hpc hnow hrequests hpast =>
    have hfresh : fresh s.client c = [⟨rpcImm (k.opcode x) b,x,b⟩] := by
      simp [fresh, hrequests]
    rw [hfresh]
    refine ⟨?_,?_,h.works,hwords,fun q hq => ?_,?_,fun q hq => ?_⟩
    · simp [h.order]
    · change c.requests.Perm _
      rw [hrequests]
      simpa using h.open'.append_right [(⟨rpcImm (k.opcode x) b,x,b⟩ : Request)]
    · rcases List.mem_append.mp hq with hq | hq
      · exact h.worded q hq
      · obtain rfl := List.mem_singleton.mp hq
        exact ⟨h.words.bound x b hpc,rfl⟩
    · rw [List.map_append]
      refine List.nodup_append.mpr ⟨h.once,List.nodup_singleton _,fun y hy z hz he => ?_⟩
      obtain ⟨q,hq,rfl⟩ := List.mem_map.mp hy
      obtain rfl := List.mem_singleton.mp hz
      have hq := h.asked q hq
      rw [he, hpc] at hq
      cases hq
    · rcases List.mem_append.mp hq with hq | hq
      · exact hpast q.call (h.asked q hq)
      · obtain rfl := List.mem_singleton.mp hq
        exact hnow

/-- The reply to the request in hand is the peer's answer of `RpcCalls`. -/
theorem send_queued {s : Service Page} {q : Request} {w v : ℕ} {r : Reply Page}
    {c : Rpc (Reply Page)} (h : Queued k s) (hhand : s.hand = .replying q w r)
    (hs : RpcCalls.step k (.answer q r v) s.client = some c) :
    Queued k { s with client := c, hand := .handled w, handled := s.handled++[(q,some r)] } := by
  have hwords := step_worded _ s.client c h.words id hs
  obtain ⟨⟨hq,-⟩,hs⟩ := Option.ite_none_right_eq_some.mp hs
  obtain rfl := Option.some.inj hs
  have horder := h.order
  have hopen := h.open'
  have hworks := h.works
  rw [hhand] at horder hopen hworks
  refine ⟨?_,?_,hworks,hwords,h.worded,h.once,h.asked⟩
  · simpa [Hand.request] using horder
  · have hmid : (dropped s.handled++([q]++(s.cq.map Prod.fst++s.wire))).Perm
        (q::(dropped s.handled++(s.cq.map Prod.fst++s.wire))) := by
      simp
    have herase := (hopen.trans hmid).erase q
    rw [List.erase_cons_head] at herase
    simpa [answer, dropped_append, dropped, Hand.request] using herase

theorem hold_queued {s : Service Page} {q : Request} {w : ℕ} {hand : Hand Page}
    {thr : Threads Page} (h : Queued k s) (hhand : s.hand = .handling q w)
    (hsame : hand.request = some q ∧ hand.work = some w) :
    Queued k { s with thr := thr, hand := hand } := by
  have hrequest : hand.request = s.hand.request := by rw [hhand]; exact hsame.1
  have hwork : hand.work = s.hand.work := by rw [hhand]; exact hsame.2
  exact ⟨hrequest ▸ h.order,hrequest ▸ h.open',hwork ▸ h.works,h.words,h.worded,h.once,h.asked⟩

theorem send_page_cases (maxInline : ℕ) (q : Request) (w : ℕ) (page : Page) :
    sendPage maxInline q w page = .replying q w (.page page) ∨
      sendPage maxInline q w page = .aborted q w := by
  unfold sendPage ibSendInline
  split_ifs with hsize
  · exact .inl rfl
  · exact .inr rfl

theorem step_queued [Zero Page] {maxInline : ℕ} {l : Label Page} {s t : Service Page}
    (h : Queued k s) (hm : ∀ m, l = .client m → ¬Mistakes k m)
    (hs : step maxInline k l s = some t) : Queued k t := by
  cases step_cases hs with
  | client hl hc => exact client_queued h hl (hm _ rfl) hc
  | thread hl hu => exact ⟨h.order,h.open',h.works,h.words,h.worded,h.once,h.asked⟩
  | @deliver q rest w _ hwire hw =>
    have horder := h.order
    have hopen := h.open'
    rw [hwire] at horder hopen
    refine ⟨by simpa using horder,by simpa using hopen,?_,h.words,h.worded,h.once,h.asked⟩
    have hback := (List.perm_cons_erase hw).symm
    refine List.Perm.trans ?_ h.works
    refine List.Perm.trans ?_ (hback.append_right _)
    rw [List.map_append, ← List.append_assoc, ← List.append_assoc, List.cons_append]
    exact (List.perm_append_singleton w _).trans (by rw [List.append_assoc])
  | poll hhand hcq =>
    have horder := h.order
    have hopen := h.open'
    have hworks := h.works
    rw [hhand, hcq] at horder hopen hworks
    exact ⟨by simpa [Hand.request] using horder,by simpa [Hand.request] using hopen,
      by simpa [Hand.work] using hworks,h.words,h.worded,h.once,h.asked⟩
  | openBlock hhand hop htable hsrv hmr => exact hold_queued h hhand ⟨rfl,rfl⟩
  | pick hhand hu => exact ⟨h.order,h.open',h.works,h.words,h.worded,h.once,h.asked⟩
  | committed hhand hu => exact hold_queued h hhand ⟨rfl,rfl⟩
  | @getPage q w _ content hhand hop hfound =>
    refine hold_queued h hhand ?_
    rcases send_page_cases maxInline q w content with he | he <;> rw [he] <;> exact ⟨rfl,rfl⟩
  | ignore hhand hsilent =>
    have horder := h.order
    have hopen := h.open'
    have hworks := h.works
    rw [hhand] at horder hopen hworks
    exact ⟨by simpa [Hand.request] using horder,
      by simpa [Hand.request, dropped_append, dropped] using hopen,
      by simpa [Hand.work] using hworks,h.words,h.worded,h.once,h.asked⟩
  | send hhand hc => exact send_queued h hhand hc
  | putBack hhand =>
    have horder := h.order
    have hopen := h.open'
    have hworks := h.works
    rw [hhand] at horder hopen hworks
    exact ⟨by simpa [Hand.request] using horder,by simpa [Hand.request] using hopen,
      by simpa [Hand.work] using hworks,h.words,h.worded,h.once,h.asked⟩

theorem init_queued [Zero Page] (k : Client) (n : ℕ) (buffer : ℕ → Reply Page) (base : ℕ)
    (rkey : U32) :
    Queued k (initService n buffer base rkey) where
  order := rfl
  open' := .refl _
  works := by simp [initService, Hand.work]
  words := OpenReplies.init_worded k n buffer
  worded := fun _ hq => by cases hq
  once := List.nodup_nil
  asked := fun _ hq => by cases hq

end Maruswap.RpcService
