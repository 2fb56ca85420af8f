import Maruswap.RpcAnswers

/-!
# Calls as exchanges

The driver and the test client take an OPEN for one step of the server, and a COMMIT for
a request and a reply. Binders, receive works and completion queues lie below that. What
a server goes through while calls of any number are made on it is then a run of such
exchanges, with the same answers. The answer to an OPEN names a block by the address
that it is registered at, so that the blocks must lie apart.
-/

set_option autoImplicit false

namespace Maruswap.RpcExchanges
open WireFormat RpcCalls RpcBinders GuardedRun RpcService RpcAnswers
open ServerHandlers (AllocResult InTable)
open ServerThreads (Threads Ledger IsCommit RdmaPc)
open Deployment (serveOpen locate base Apart Fresh)
open DriverStage (RdmaInfo)
open OpenFaults (region)
open CommitBarrier (Net)

variable {Page : Type*}

/-- `opened` are the answers to the OPENs so far, each with its word. -/
structure Peer (Page : Type*) where
  net : Net Page
  opened : List (U32 × RdmaInfo)

inductive Exchange (Page : Type*) where
  | openRpc (a : AllocResult) (header : U32)
  | net (l : CommitBarrier.Label Page)

/-- Memory is had, of its own for each block, and no commit comes between the halves of a
FLOW handler. -/
def Gentle : Exchange Page → Peer Page → Prop
  | .net l, p => Deployment.Calm l p.net
  | .openRpc a _, p => Fresh a p.net.thr.srv

def Spaced : RpcService.Label Page → Service Page → Prop
  | .openBlock a, s => Fresh a s.thr.srv
  | _, _ => True

instance decidableSpaced (l : RpcService.Label Page) (s : Service Page) :
    Decidable (Spaced l s) :=
  match l with
  | .openBlock a => Deployment.decidableFresh a s.thr.srv
  | .client _ | .thread _ | .deliver _ | .poll | .pick | .committed | .getPage | .ignore
  | .send _ | .putBack => isTrue trivial

section Exchange
variable [Zero Page]

def exchange : Exchange Page → Peer Page → Option (Peer Page)
  | .openRpc a header, p => (serveOpen a header p.net).map fun r =>
    ⟨r.1,p.opened++[(header,r.2)]⟩
  | .net l, p => (CommitBarrier.step l p.net).map fun n => { p with net := n }

def initPeer (base : ℕ) (rkey : U32) : Peer Page := ⟨CommitBarrier.initNet base rkey,[]⟩

end Exchange

def taken : Hand Page → List Request
  | .handling q _ => [q]
  | _ => []

def unserved (s : Service Page) : List Request :=
  (if s.thr.rdma = .idle then taken s.hand else [])++(s.cq.map Prod.fst++s.wire)

def commits (qs : List Request) : List U32 :=
  (qs.filter fun q => decide (IsCommit q.immData)).map Request.immData

def answer : Request × Option (Reply Page) → Option (U32 × RdmaInfo)
  | (q,some (.opened _ rkey)) => some (q.immData,⟨⟨blockOf (pageOffset q.immData),0⟩,rkey⟩)
  | _ => none

def replying : Hand Page → List (Request × Option (Reply Page))
  | .replying q _ r => [(q,some r)]
  | _ => []

def opens (s : Service Page) : List (U32 × RdmaInfo) :=
  (s.handled++replying s.hand).filterMap answer

structure Seen (s : Service Page) (p : Peer Page) : Prop where
  thr : p.net.thr = s.thr
  apart : Apart s.thr.srv
  channel : p.net.channel = []
  rpc : p.net.rpc.map CommitBarrier.Request.immData = commits (unserved s)
  current : p.net.current = none ↔ s.thr.rdma = .idle
  opened : p.opened = opens s

theorem commits_append (qs rs : List Request) : commits (qs++rs) = commits qs++commits rs := by
  simp [commits]

theorem commits_cons_of (q : Request) (qs : List Request) (h : IsCommit q.immData) :
    commits (q::qs) = q.immData::commits qs := by
  simp [commits, h]

theorem commits_cons_of_not (q : Request) (qs : List Request) (h : ¬IsCommit q.immData) :
    commits (q::qs) = commits qs := by
  simp [commits, h]

theorem Seen.keep {s t : Service Page} {p : Peer Page} (h : Seen s p) (hthr : t.thr = s.thr)
    (hcommits : commits (unserved t) = commits (unserved s)) (hopens : opens t = opens s) :
    Seen t p :=
  ⟨h.thr.trans hthr.symm,hthr ▸ h.apart,h.channel,h.rpc.trans hcommits.symm,hthr ▸ h.current,
    h.opened.trans hopens.symm⟩

section Steps
variable [Zero Page]

theorem requests_run (words : List U32) (p : Peer Page) (hw : ∀ v ∈ words, IsCommit v) :
    ∃ q, (run exchange (words.map fun v => .net (.request v)) p = some q ∧
        Meets exchange Gentle (words.map fun v => .net (.request v)) p) ∧
      q.net.thr = p.net.thr ∧ q.net.channel = p.net.channel ∧
      q.net.current = p.net.current ∧ q.opened = p.opened ∧
      q.net.rpc.map CommitBarrier.Request.immData =
        p.net.rpc.map CommitBarrier.Request.immData++words := by
  induction words generalizing p with
  | nil => exact ⟨p,⟨rfl,trivial⟩,rfl,rfl,rfl,rfl,by simp⟩
  | cons v words ih =>
    have hstep : ∃ u : Peer Page, exchange (.net (.request v)) p = some u ∧
        u.net.thr = p.net.thr ∧ u.net.channel = p.net.channel ∧
        u.net.current = p.net.current ∧ u.opened = p.opened ∧
        u.net.rpc.map CommitBarrier.Request.immData =
          p.net.rpc.map CommitBarrier.Request.immData++[v] := by
      simp only [exchange, CommitBarrier.step, if_pos (hw v (by simp)), Option.map_some]
      exact ⟨_,rfl,rfl,rfl,rfl,rfl,by simp⟩
    obtain ⟨u,hu,hthr,hchannel,hcurrent,hopened,hrpc⟩ := hstep
    obtain ⟨q,hq,hthr',hchannel',hcurrent',hopened',hrpc'⟩ :=
      ih u (fun w hin => hw w (.tail _ hin))
    refine ⟨q,guarded_cons hu trivial hq,hthr'.trans hthr,hchannel'.trans hchannel,
      hcurrent'.trans hcurrent,hopened'.trans hopened,?_⟩
    rw [hrpc', hrpc, List.append_assoc, List.singleton_append]

theorem client_seen {s : Service Page} {p : Peer Page} (h : Seen s p)
    (c : Rpc (Reply Page)) :
    ∃ es q, (run exchange es p = some q ∧ Meets exchange Gentle es p) ∧
      Seen (s.goOn c) q := by
  have hcommit : ∀ v ∈ commits (fresh s.client c), IsCommit v := by
    intro v hv
    obtain ⟨q,hq,rfl⟩ := List.mem_map.mp hv
    simpa using (List.mem_filter.mp hq).2
  obtain ⟨q,hrun,hthr,hchannel,hcurrent,hopened,hrpc⟩ := requests_run _ p hcommit
  refine ⟨_,q,hrun,hthr.trans h.thr,h.apart,hchannel.trans h.channel,?_,?_,
    hopened.trans h.opened⟩
  · rw [hrpc, h.rpc, ← commits_append]
    simp [unserved, Service.goOn, List.append_assoc]
  · rw [hcurrent]
    exact h.current

theorem seen_single {e : Exchange Page} {p q : Peer Page} {t : Service Page}
    (hs : exchange e p = some q) (hg : Gentle e p) (ht : Seen t q) :
    ∃ es q, (run exchange es p = some q ∧ Meets exchange Gentle es p) ∧ Seen t q :=
  ⟨[e],q,guarded_cons hs hg ⟨rfl,trivial⟩,ht⟩

theorem seen_none {p : Peer Page} {t : Service Page} (ht : Seen t p) :
    ∃ es q, (run exchange es p = some q ∧ Meets exchange Gentle es p) ∧ Seen t q :=
  ⟨[],p,⟨rfl,trivial⟩,ht⟩

theorem mapped_base {l : ServerThreads.Label Page} {t u : Threads Page} (hledger : Ledger t)
    (hg : Mapped l t) (hu : ServerThreads.step l t = some u) : base u.srv = base t.srv := by
  refine OpenedBlocks.thread_base hu ?_ ?_
  · rintro a rfl wc hwc hnone
    have hsome := hg wc hwc
    rw [region, Option.isSome_map] at hsome
    rw [base, Option.map_eq_none_iff] at hnone
    simp [hnone] at hsome
  · rintro alloc rfl
    have hm : t.mcast = none := hg
    exact .inl fun w hw => hledger.whole w hw (by simp [hm])

theorem thread_seen {l : ServerThreads.Label Page} {s : Service Page} {p : Peer Page}
    {u : Threads Page} (h : Seen s p) (hl : isRequest l = false)
    (hg : ServerThreads.Unsplit l s.thr) (hu : ServerThreads.step l s.thr = some u)
    (hbase : base u.srv = base s.thr.srv) :
    ∃ es q, (run exchange es p = some q ∧ Meets exchange Gentle es p) ∧
      Seen { s with thr := u } q := by
  have hapart : Apart u.srv := by
    unfold Apart
    rw [hbase]
    exact h.apart
  have hsame : (u.rdma = .idle ↔ s.thr.rdma = .idle) → Seen { s with thr := u }
      { p with net := { p.net with thr := u } } := by
    intro hidle
    refine ⟨rfl,hapart,h.channel,h.rpc.trans ?_,h.current.trans hidle.symm,h.opened⟩
    simp only [unserved, hidle]
  have hnet : ∀ (m : CommitBarrier.Label Page),
      (CommitBarrier.step m p.net = CommitBarrier.serverStep l p.net) →
      Deployment.Calm m p.net → (u.rdma = .idle ↔ s.thr.rdma = .idle) →
      ∃ es q, (run exchange es p = some q ∧ Meets exchange Gentle es p) ∧
        Seen { s with thr := u } q := by
    intro m hm hcalm hidle
    refine seen_single (e := .net m) ?_ hcalm (hsame hidle)
    rw [exchange, hm, CommitBarrier.serverStep, h.thr, hu]
    rfl
  cases l with
  | pick immData => cases hl
  | reply => cases hl
  | arrive header payload w =>
    have hstep := hu
    obtain ⟨⟨hop,htable,hw⟩,he⟩ := Option.ite_none_right_eq_some.mp hu
    obtain rfl := Option.some.inj he
    have hnone : p.net.channel = [] := h.channel
    refine ⟨[.net (.send header payload),.net (.deliver w)],
      { p with net := { p.net with
        thr := ServerThreads.arrive header payload w s.thr
        sent := p.net.sent++[(header,payload)] } },
      guarded_cons (t := { p with net := { p.net with
        channel := p.net.channel++[(header,payload)], sent := p.net.sent++[(header,payload)] } })
        ?_ trivial (guarded_cons ?_ trivial ⟨rfl,trivial⟩),?_⟩
    · simp only [exchange, CommitBarrier.step]
      rw [if_pos ⟨hop,htable⟩]
      rfl
    · simp only [exchange, CommitBarrier.step, hnone, List.nil_append, CommitBarrier.serverStep]
      rw [h.thr, hstep]
      rfl
    · exact ⟨rfl,hapart,h.channel,h.rpc,h.current,h.opened⟩
  | poll =>
    refine hnet .poll rfl trivial ?_
    obtain ⟨wc,cq,-,-,-,rfl⟩ := ServerThreads.poll_cases hu
    exact Iff.rfl
  | listAdd =>
    refine hnet .listAdd rfl trivial ?_
    obtain ⟨wc,-,rfl⟩ := Option.map_eq_some_iff.mp hu
    exact Iff.rfl
  | convey a =>
    refine hnet (.convey a) rfl hg ?_
    obtain ⟨wc,-,rfl⟩ := Option.map_eq_some_iff.mp hu
    exact Iff.rfl
  | pass =>
    refine hnet .pass rfl trivial ?_
    simp only [ServerThreads.step] at hu
    split at hu
    · next immData hrdma =>
      obtain ⟨-,he⟩ := Option.ite_none_right_eq_some.mp hu
      obtain rfl := Option.some.inj he
      simp [hrdma]
    · cases hu
  | region alloc =>
    refine hnet (.region alloc) rfl ?_ ?_
    · rw [Deployment.Calm, h.thr]
      exact hg
    · simp only [ServerThreads.step] at hu
      split at hu
      · next immData hrdma =>
        obtain rfl := Option.some.inj hu
        simp [hrdma]
      · cases hu

theorem open_seen {a : AllocResult} {q : Request} {w : ℕ} {s : Service Page} {p : Peer Page}
    {srv : ServerHandlers.Server Page} {mr : ℕ × U32} (h : Seen s p)
    (hfresh : Fresh a s.thr.srv) (hidle : s.thr.rdma = .idle) (hhand : s.hand = .handling q w)
    (hop : ibGetOpcode q.immData = opcodeOpen) (htable : InTable q.immData)
    (hsrv : ServerHandlers.processRdmaRpcOpen a q.immData s.thr.srv = some srv)
    (hmr : region srv (blockOf (pageOffset q.immData)) = some mr) :
    ∃ es p', (run exchange es p = some p' ∧ Meets exchange Gentle es p) ∧ Seen { s with
      thr := { s.thr with srv := srv }, hand := .replying q w (.opened mr.1 mr.2) } p' := by
  obtain ⟨mb,hmb,rfl⟩ := Option.map_eq_some_iff.mp hmr
  have hcommit : ¬IsCommit q.immData := by
    rw [IsCommit, hop]
    decide
  have hapart := Deployment.open_apart h.apart hfresh hsrv
  have hlocate : locate srv mb.buffer = some (blockOf (pageOffset q.immData)) :=
    Deployment.locate_base hapart htable (by simp [base, hmb])
  have hs : exchange (.openRpc a q.immData) p = some
      ⟨{ p.net with thr := { p.net.thr with srv := srv } },
        p.opened++[(q.immData,⟨⟨blockOf (pageOffset q.immData),0⟩,mb.rkey⟩)]⟩ := by
    rw [exchange, serveOpen, h.thr, if_pos ⟨hidle,hop,htable⟩, hsrv, Option.bind_some, hmb,
      Option.bind_some, hlocate]
    rfl
  have hgentle : Gentle (.openRpc a q.immData) p := by
    rw [Gentle, h.thr]
    exact hfresh
  refine seen_single hs hgentle ⟨?_,hapart,h.channel,h.rpc.trans ?_,h.current,?_⟩
  · dsimp only
    rw [h.thr]
  · simp only [unserved, hidle, if_true, hhand, taken, List.singleton_append, List.nil_append]
    exact commits_cons_of_not q _ hcommit
  · dsimp only
    rw [h.opened, opens, opens, hhand]
    simp [replying, answer]

theorem pick_seen {q : Request} {w : ℕ} {s : Service Page} {p : Peer Page} {u : Threads Page}
    (h : Seen s p) (hhand : s.hand = .handling q w)
    (hu : ServerThreads.step (.pick q.immData) s.thr = some u) :
    ∃ es p', (run exchange es p = some p' ∧ Meets exchange Gentle es p) ∧
      Seen { s with thr := u } p' := by
  have hstep := hu
  obtain ⟨⟨hidle,hcommit⟩,he⟩ := Option.ite_none_right_eq_some.mp hu
  have hbusy : u.rdma ≠ .idle := by
    rw [← Option.some.inj he]
    dsimp only
    split <;> simp
  have hrpc := h.rpc
  simp only [unserved, hidle, if_true, hhand, taken, List.singleton_append] at hrpc
  rw [commits_cons_of q _ hcommit] at hrpc
  obtain ⟨r,rest,hr,himm,hrest⟩ := List.map_eq_cons_iff.mp hrpc
  have hs : exchange (.net .pick) p = some { p with net := { p.net with
      thr := u, rpc := rest, current := some r } } := by
    simp only [exchange, CommitBarrier.step, hr, CommitBarrier.serverStep]
    rw [himm, h.thr, hstep]
    rfl
  have hsrv : u.srv = s.thr.srv := by rw [← Option.some.inj he]
  refine seen_single hs trivial
    ⟨rfl,hsrv ▸ h.apart,h.channel,hrest.trans ?_,by simp [hbusy],h.opened⟩
  simp only [unserved, hbusy, if_false, List.nil_append]

theorem committed_seen {q : Request} {w : ℕ} {s : Service Page} {p : Peer Page}
    {u : Threads Page} (h : Seen s p) (hhand : s.hand = .handling q w)
    (hu : ServerThreads.step .reply s.thr = some u) :
    ∃ es p', (run exchange es p = some p' ∧ Meets exchange Gentle es p) ∧
      Seen { s with thr := u, hand := .replying q w .committed } p' := by
  have hstep := hu
  simp only [ServerThreads.step] at hu
  split at hu
  · next immData hrdma =>
    obtain rfl := Option.some.inj hu
    have hs : exchange (.net .reply) p = some { p with net := { p.net with
        thr := { s.thr with srv := s.thr.srv.emit (.committed immData), rdma := .idle }
        current := none
        base := (p.net.current.map CommitBarrier.Request.upto).getD p.net.base } } := by
      simp only [exchange, CommitBarrier.step, CommitBarrier.serverStep]
      rw [h.thr, hstep]
      rfl
    refine seen_single hs trivial
      ⟨rfl,h.apart,h.channel,h.rpc.trans ?_,by simp,h.opened.trans ?_⟩
    · simp [unserved, hrdma, taken]
    · rw [opens, opens, hhand]
      simp [replying, answer]
  · cases hu

theorem step_seen {maxInline : ℕ} {k : Client} {l : RpcService.Label Page}
    {s t : Service Page} {p : Peer Page} (ht : Truthful s) (h : Seen s p) (hg : Calm l s)
    (hspaced : Spaced l s) (hs : RpcService.step maxInline k l s = some t) :
    ∃ es q, (run exchange es p = some q ∧ Meets exchange Gentle es p) ∧ Seen t q := by
  cases step_cases hs with
  | client hl hc => exact client_seen h _
  | thread hl hu =>
    have hbase := mapped_base ht.ledger hg hu
    obtain ⟨m,hm,hunsplit,hu⟩ := mapped_unsplit hl hg hu
    exact thread_seen h hm hunsplit hu hbase
  | deliver hwire hw =>
    refine seen_none (h.keep rfl ?_ rfl)
    simp [unserved, hwire]
  | poll hhand hcq =>
    have hidle := ht.resting (by rw [hhand]; simp)
    refine seen_none (h.keep rfl ?_ ?_)
    · simp [unserved, hidle, hhand, hcq, taken]
    · simp [opens, hhand, replying]
  | openBlock hhand hop htable hsrv hmr =>
    have hidle := ht.resting fun q w hq => by
      rw [hhand] at hq
      obtain ⟨rfl,-⟩ := Hand.handling.inj hq
      rw [IsCommit, hop]
      decide
    exact open_seen h hspaced hidle hhand hop htable hsrv hmr
  | pick hhand hu => exact pick_seen h hhand hu
  | committed hhand hu => exact committed_seen h hhand hu
  | @getPage q w _ content hhand hop hfound =>
    have hcommit : ¬IsCommit q.immData := by
      rw [IsCommit, hop]
      decide
    have hidle := ht.resting fun r w hr => by
      rw [hhand] at hr
      obtain ⟨rfl,-⟩ := Hand.handling.inj hr
      exact hcommit
    refine seen_none (h.keep rfl ?_ ?_)
    · have htaken : taken (sendPage maxInline q w content) = [] := by
        rcases send_page_cases maxInline q w content with he | he <;> rw [he] <;> rfl
      have hbefore : taken s.hand = [q] := by rw [hhand]; rfl
      simp only [unserved, hidle, if_true, htaken, hbefore, List.singleton_append,
        List.nil_append]
      exact (commits_cons_of_not q _ hcommit).symm
    · rcases send_page_cases maxInline q w content with he | he <;>
        simp [opens, hhand, he, replying, answer]
  | @ignore q w _ hhand hsilent =>
    have hidle := ht.resting fun r w hr => by
      rw [hhand] at hr
      obtain ⟨rfl,-⟩ := Hand.handling.inj hr
      exact hsilent.2.1
    refine seen_none (h.keep rfl ?_ ?_)
    · simp only [unserved, hidle, if_true, hhand, taken, List.singleton_append, List.nil_append]
      exact (commits_cons_of_not q _ hsilent.2.1).symm
    · simp [opens, hhand, replying, answer]
  | send hhand hc =>
    refine seen_none (h.keep rfl ?_ ?_)
    · simp [unserved, hhand, taken]
    · simp [opens, hhand, replying]
  | putBack hhand =>
    refine seen_none (h.keep rfl ?_ ?_)
    · simp [unserved, hhand, taken]
    · simp [opens, hhand, replying]

end Steps

theorem all_answered {k : Client} {n : ℕ} {s : Service Page} (hd : Served k n s)
    (hall : ∀ q ∈ s.asked, ∃ success, s.client.pc q.call = .returned success) :
    s.hand.request.toList++(s.cq.map Prod.fst++s.wire) = [] := by
  refine List.eq_nil_iff_forall_not_mem.mpr fun q hq => ?_
  have hin : q ∈ s.asked := by
    rw [hd.inOrder]
    exact List.mem_append_right _ hq
  obtain ⟨success,hpc⟩ := hall q hin
  obtain ⟨q',r,hmem,hcall,-⟩ := hd.results q.call success hpc
  have honce := hd.once
  rw [hd.inOrder, List.map_append] at honce
  exact List.disjoint_of_nodup_append honce
    (List.mem_map_of_mem (List.mem_map_of_mem hmem)) (hcall ▸ List.mem_map_of_mem hq)

/-- The answer has the key, and points to the block that the address is the base of. -/
structure Located (s : ServerHandlers.Server Page) (remoteAddr : ℕ) (rkey : U32)
    (info : RdmaInfo) : Prop where
  block : locate s remoteAddr = some info.remoteAddr.block
  base : info.remoteAddr.byte = 0
  rkey : info.rkey = rkey

/-- What the exchanges make of a state of the service: the server is the same, a call that
has returned from an OPEN holds the address and the key that one of them answered for its
block, and when no call is out there is no commit to be answered. -/
structure Answered (k : Client) (s : Service Page) (p : Peer Page) : Prop where
  seen : Seen s p
  opened : ∀ c success remoteAddr rkey, s.client.pc c = .returned success →
    s.client.res c = some (.opened remoteAddr rkey) → ∃ header info, (header,info) ∈ p.opened ∧
      blockOf (pageOffset header) = blockOf (pageOffset (k.opcode c)) ∧
      info.remoteAddr.block = blockOf (pageOffset header) ∧
      Located s.thr.srv remoteAddr rkey info
  settled : (∀ q ∈ s.asked, ∃ success, s.client.pc q.call = .returned success) →
    p.net.rpc = [] ∧ p.net.current = none

/-- A request that was answered is for a block of the table. -/
def Tabled (s : Service Page) : Prop :=
  ∀ e ∈ opens s, InTable e.1

theorem Tabled.keep {s t : Service Page} (h : Tabled s) (ho : opens t = opens s) :
    Tabled t := fun e he => h e (ho ▸ he)

theorem step_tabled [Zero Page] {maxInline : ℕ} {k : Client} {l : RpcService.Label Page}
    {s t : Service Page} (h : Tabled s) (hs : RpcService.step maxInline k l s = some t) :
    Tabled t := by
  cases step_cases hs with
  | client hl hc => exact h
  | thread hl hu => exact h
  | deliver hwire hw => exact h
  | pick hhand hu => exact h
  | poll hhand hcq => exact h.keep (by simp [opens, hhand, replying])
  | openBlock hhand hop htable hsrv hmr =>
    intro e he
    simp only [opens, replying, List.filterMap_append, List.mem_append] at he
    rcases he with he | he
    · exact h e (by simp [opens, hhand, replying, he])
    · simp only [List.filterMap_cons, answer, List.filterMap_nil, List.mem_singleton] at he
      rw [he]
      exact htable
  | committed hhand hu => exact h.keep (by simp [opens, hhand, replying, answer])
  | @getPage q w _ content hhand hop hfound =>
    refine h.keep ?_
    rcases send_page_cases maxInline q w content with he | he <;>
      simp [opens, hhand, he, replying, answer]
  | ignore hhand hsilent => exact h.keep (by simp [opens, hhand, replying, answer])
  | send hhand hc => exact h.keep (by simp [opens, hhand, replying])
  | putBack hhand => exact h.keep (by simp [opens, hhand, replying])

theorem seen_answered {k : Client} {n : ℕ} {s : Service Page} {p : Peer Page} [Zero Page]
    (hs : Sure k n s) (ht : Tabled s) (h : Seen s p) : Answered k s p := by
  have hd := hs.served
  refine ⟨h,fun c success remoteAddr rkey hpc hres => ?_,fun hall => ?_⟩
  · obtain ⟨q,r,hmem,rfl,hr,-,hblock,hright⟩ := hd.results c success hpc
    obtain rfl := Option.some.inj (hres.symm.trans hr)
    have hopens : (q.immData,⟨⟨blockOf (pageOffset q.immData),0⟩,rkey⟩) ∈ opens s :=
      List.mem_filterMap.mpr ⟨_,List.mem_append_left _ hmem,rfl⟩
    obtain ⟨mb,hmb,hmr⟩ := Option.map_eq_some_iff.mp hright.2
    have hbase : base s.thr.srv (blockOf (pageOffset q.immData)) = some remoteAddr := by
      rw [base, hmb, Option.map_some, (Prod.mk.inj hmr).1]
    refine ⟨_,_,h.opened ▸ hopens,hblock,rfl,?_,rfl,rfl⟩
    exact Deployment.locate_base h.apart (ht _ hopens) hbase
  · have hnil := all_answered hd hall
    obtain ⟨hhand,hqueue⟩ := List.append_eq_nil_iff.mp hnil
    have hnone : ∀ q w, s.hand ≠ .handling q w := by
      intro q w hq
      rw [hq] at hhand
      cases hhand
    have htaken : taken s.hand = [] := by
      cases hc : s.hand with
      | handling q w => exact absurd hc (hnone q w)
      | _ => rfl
    refine ⟨List.map_eq_nil_iff.mp (h.rpc.trans ?_),h.current.mpr ?_⟩
    · rw [unserved, htaken, hqueue, ite_self]
      rfl
    · exact hs.truthful.resting fun q w hq => absurd hq (hnone q w)

section Runs
variable [Zero Page]

theorem init_seen (n : ℕ) (buffer : ℕ → Reply Page) (base : ℕ) (rkey : U32) :
    Seen (initService n buffer base rkey) (initPeer base rkey) := by
  refine ⟨rfl,?_,rfl,rfl,⟨fun _ => rfl,fun _ => rfl⟩,rfl⟩
  exact OpenedBlocks.init_apart base rkey

end Runs

end Maruswap.RpcExchanges
