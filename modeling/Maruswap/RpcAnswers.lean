import Maruswap.BinderLeaks
import Maruswap.RpcWorks
import Maruswap.RpcService

/-!
# What the calls return

The replies of the RDMA thread are right when they are made, and stay so: blocks stay
registered, and copied frames copied. A call has the reply to its own request, so it
returns what the handlers did for it. The frames are for blocks that are registered by
the time they are copied, so that of the two handlers only OPEN adds blocks.
-/

set_option autoImplicit false

namespace Maruswap.RpcAnswers
open WireFormat RpcBinders RpcWorks RpcService GuardedRun
open RpcCalls hiding Label step Effect
open ServerHandlers (AllocResult processRdmaRpcOpen mcmMaxRecvWr)
open ServerThreads (Threads Ledger IsCommit)
open Deployment (copied)
open OpenFaults (region)
open GetPage (opcodeGet)

variable {Page : Type*} {k : Client} {maxInline : ℕ}

/-- The block of a frame is registered when its copy is made, and no commit comes between
the halves of a FLOW handler. -/
def Mapped : ServerThreads.Label Page → Threads Page → Prop
  | .convey _, t => ∀ wc ∈ t.mcast, (region t.srv (blockOf (pageOffset wc.immData))).isSome
  | .region _, t => t.mcast = none
  | _, _ => True

instance decidableMapped (l : ServerThreads.Label Page) (t : Threads Page) :
    Decidable (Mapped l t) := by
  cases l with
  | convey a => exact inferInstanceAs (Decidable (∀ _ ∈ _, _))
  | region alloc => exact inferInstanceAs (Decidable (_ = none))
  | _ => exact isTrue trivial

/-- Posts and polls of the client succeed. -/
def Calm : Label Page → Service Page → Prop
  | .client l, _ => Accepted l
  | .thread l, s => Mapped l s.thr
  | _, _ => True

instance decidableAccepted (l : RpcCalls.Label (Reply Page)) : Decidable (Accepted l) := by
  cases l with
  | post c accepted => exact inferInstanceAs (Decidable (accepted = true))
  | pollSend c r => exact inferInstanceAs (Decidable (_ ∧ _))
  | pollRecv c r =>
    cases r with
    | negative => exact isFalse fun h => h.1 rfl
    | failed immData w => exact isFalse fun h => h.2 immData w rfl
    | _ => exact isTrue ⟨by simp,by simp⟩
  | _ => exact isTrue trivial

instance decidableCalm (l : Label Page) (s : Service Page) : Decidable (Calm l s) := by
  cases l with
  | client l => exact decidableAccepted l
  | thread l => exact decidableMapped l s.thr
  | _ => exact isTrue trivial

theorem accepted_sure {l : RpcCalls.Label (Reply Page)} (h : Accepted l) :
    ¬OpenReplies.Mistakes k l := by
  intro hm
  cases l with
  | pollRecv c r =>
    cases r with
    | failed immData w => exact h.2 immData w rfl
    | _ => exact hm
  | _ => exact hm

theorem convey_registered [Zero Page] {wc : ServerHandlers.Wc} {s : ServerHandlers.Server Page}
    (h : (region s (blockOf (pageOffset wc.immData))).isSome) (a b : AllocResult) :
    ServerHandlers.flowConvey a wc s = ServerHandlers.flowConvey b wc s := by
  obtain ⟨mb,hmb⟩ : ∃ mb, s.memblocks (blockOf (pageOffset wc.immData)) = some mb :=
    Option.isSome_iff_exists.mp (by simpa [region] using h)
  obtain ⟨off,hd,-⟩ := interpret_header_eq wc.immData
  simp only [ServerHandlers.flowConvey, ServerHandlers.ibConveyPage, hd, hmb, Option.isNone_some,
    Bool.false_eq_true, if_false]

theorem mapped_unsplit [Zero Page] {l : ServerThreads.Label Page} {t u : Threads Page}
    (hl : isRequest l = false) (hg : Mapped l t) (hs : ServerThreads.step l t = some u) :
    ∃ m, isRequest m = false ∧ ServerThreads.Unsplit m t ∧ ServerThreads.step m t = some u := by
  cases l with
  | convey a =>
    obtain ⟨wc,hm,rfl⟩ := Option.map_eq_some_iff.mp hs
    refine ⟨.convey ⟨some 0,some 0#32⟩,rfl,⟨rfl,rfl⟩,?_⟩
    rw [convey_registered (hg wc hm) a ⟨some 0,some 0#32⟩]
    exact Option.map_eq_some_iff.mpr ⟨wc,hm,rfl⟩
  | region alloc => exact ⟨.region alloc,rfl,hg,hs⟩
  | arrive header payload w => exact ⟨.arrive header payload w,rfl,trivial,hs⟩
  | poll => exact ⟨.poll,rfl,trivial,hs⟩
  | listAdd => exact ⟨.listAdd,rfl,trivial,hs⟩
  | pass => exact ⟨.pass,rfl,trivial,hs⟩
  | pick immData => cases hl
  | reply => cases hl

/-- What a reply owes its request: the block that is registered, the frames listed
before the call in their pages, or a frame of that number. -/
def Right (t : Threads Page) (upto : ℕ) (immData : U32) : Reply Page → Prop
  | .opened remoteAddr rkey => ibGetOpcode immData = opcodeOpen ∧
    region t.srv (blockOf (pageOffset immData)) = some (remoteAddr,rkey)
  | .committed => IsCommit immData ∧ upto ≤ copied t
  | .page content => ibGetOpcode immData = opcodeGet ∧ ∃ (f : ℕ) (header : U32),
    t.arrived[f]? = some (header,content) ∧ pageOffset header = pageOffset immData % 2^18

structure Grown (t u : Threads Page) : Prop where
  listed : t.listed ≤ u.listed
  copied : copied t ≤ copied u
  arrived : ∀ (f : ℕ) (e : U32 × Page), t.arrived[f]? = some e → u.arrived[f]? = some e
  region : ∀ n mr, region t.srv n = some mr → region u.srv n = some mr

theorem Right.grow {t u : Threads Page} {upto : ℕ} {immData : U32} {r : Reply Page}
    (h : Right t upto immData r) (hg : Grown t u) : Right u upto immData r := by
  cases r with
  | opened remoteAddr rkey => exact ⟨h.1,hg.region _ _ h.2⟩
  | committed => exact ⟨h.1,h.2.trans hg.copied⟩
  | page content =>
    obtain ⟨hop,f,header,harr,hpage⟩ := h
    exact ⟨hop,f,header,hg.arrived f _ harr,hpage⟩

theorem copied_whole {t : Threads Page} (hm : t.mcast = none) : copied t = t.listed := by
  simp [copied, hm]

theorem empty_whole [Zero Page] {t : Threads Page} (h : Ledger t) (hl : t.srv.commitList = []) :
    t.mcast = none := by
  cases hm : t.mcast with
  | none => rfl
  | some wc =>
    have hmem := (h.split wc hm).1
    rw [hl] at hmem
    cases hmem

section Replies
variable [Zero Page]

theorem thread_grown {l : ServerThreads.Label Page} {t u : Threads Page} (h : Ledger t)
    (hs : ServerThreads.step l t = some u) : Grown t u := by
  have hregion := OpenedBlocks.thread_quiet hs
  cases l with
  | arrive header payload w =>
    obtain ⟨-,hs⟩ := Option.ite_none_right_eq_some.mp hs
    obtain rfl := Option.some.inj hs
    have hlisted := ServerThreads.arrive_listed header payload w t
    refine ⟨hlisted.ge,?_,fun f e he => ?_,hregion⟩
    · rw [copied, copied, hlisted]
      exact le_refl _
    · exact List.getElem?_append_left (List.getElem?_eq_some_iff.mp he).1 ▸ he
  | poll =>
    obtain ⟨wc,cq,htaken,-,hcq,rfl⟩ := ServerThreads.poll_cases hs
    have hlisted : Threads.listed { t with cq := cq, taken := some wc } = t.listed := by
      simp [Threads.listed, Threads.queue, htaken, hcq]
    refine ⟨hlisted.ge,?_,fun _ _ he => he,hregion⟩
    rw [copied, copied, hlisted]
  | listAdd =>
    obtain ⟨wc,htaken,rfl⟩ := Option.map_eq_some_iff.mp hs
    have hlisted := ServerThreads.list_flow_listed h htaken
    refine ⟨by omega,?_,fun _ _ he => he,hregion⟩
    rw [copied_whole (h.alone (by simp [htaken])), copied, hlisted]
    exact le_refl _
  | convey a =>
    obtain ⟨wc,hm,rfl⟩ := Option.map_eq_some_iff.mp hs
    have hwhole : copied { t with
        srv := ServerHandlers.flowConvey a wc t.srv, mcast := none } = t.listed := copied_whole rfl
    exact ⟨le_refl _,(Nat.sub_le ..).trans hwhole.ge,fun _ _ he => he,hregion⟩
  | pick immData =>
    obtain ⟨-,hs⟩ := Option.ite_none_right_eq_some.mp hs
    obtain rfl := Option.some.inj hs
    exact ⟨le_refl _,le_refl _,fun _ _ he => he,hregion⟩
  | pass =>
    simp only [ServerThreads.step] at hs
    split at hs
    · obtain ⟨-,hs⟩ := Option.ite_none_right_eq_some.mp hs
      obtain rfl := Option.some.inj hs
      exact ⟨le_refl _,le_refl _,fun _ _ he => he,hregion⟩
    · cases hs
  | region alloc =>
    simp only [ServerThreads.step] at hs
    split at hs
    · obtain rfl := Option.some.inj hs
      exact ⟨le_refl _,le_refl _,fun _ _ he => he,hregion⟩
    · cases hs
  | reply =>
    simp only [ServerThreads.step] at hs
    split at hs
    · obtain rfl := Option.some.inj hs
      exact ⟨le_refl _,le_refl _,fun _ _ he => he,hregion⟩
    · cases hs

/-- Apart from taking up a commit and ending it, the threads begin no reply unless every
frame listed is copied. -/
theorem thread_rdma {l : ServerThreads.Label Page} {t u : Threads Page}
    (hl : isRequest l = false) (hg : ServerThreads.Unsplit l t)
    (hs : ServerThreads.step l t = some u) :
    u.rdma = t.rdma ∨ t.rdma ≠ .idle ∧
      ((∀ immData, u.rdma ≠ .replying immData) ∨ copied u = u.listed) := by
  cases l with
  | arrive header payload w =>
    obtain ⟨-,hs⟩ := Option.ite_none_right_eq_some.mp hs
    exact .inl (Option.some.inj hs ▸ rfl)
  | poll =>
    obtain ⟨wc,cq,-,-,-,rfl⟩ := ServerThreads.poll_cases hs
    exact .inl rfl
  | listAdd =>
    obtain ⟨wc,-,rfl⟩ := Option.map_eq_some_iff.mp hs
    exact .inl rfl
  | convey a =>
    obtain ⟨wc,-,rfl⟩ := Option.map_eq_some_iff.mp hs
    exact .inl rfl
  | pick immData => cases hl
  | pass =>
    simp only [ServerThreads.step] at hs
    split at hs
    · next immData hrdma =>
      obtain ⟨-,hs⟩ := Option.ite_none_right_eq_some.mp hs
      obtain rfl := Option.some.inj hs
      exact .inr ⟨by simp [hrdma],.inl (by simp)⟩
    · cases hs
  | region alloc =>
    simp only [ServerThreads.step] at hs
    split at hs
    · next immData hrdma =>
      obtain rfl := Option.some.inj hs
      exact .inr ⟨by simp [hrdma],.inr (copied_whole hg)⟩
    · cases hs
  | reply => cases hl

theorem search_right {t : Threads Page} {immData : U32} {content : Page} (h : Ledger t)
    (hs : search immData t.srv = some content) : ∃ (f : ℕ) (header : U32),
      t.arrived[f]? = some (header,content) ∧ pageOffset header = pageOffset immData % 2^18 := by
  obtain ⟨hd,hhd,hs⟩ := Option.bind_eq_some_iff.mp hs
  obtain ⟨hd',hhd',hoffset⟩ := GetPage.interpret_header_offset immData
  obtain rfl := Option.some.inj (hhd.symm.trans hhd')
  simp only [GetPage.walk_list_eq] at hs
  cases hlast : KeyedLog.lastOf hd.offset.toNat
      (t.srv.commitList.map (CommitWalk.entry t.srv)) with
  | none => simp [hlast] at hs
  | some page =>
    simp only [hlast, Option.map_some, Option.getD_some, if_true, Option.some.injEq] at hs
    subst hs
    obtain ⟨w,hw,he⟩ := List.mem_map.mp (KeyedLog.last_of_mem hlast)
    obtain ⟨hpage,rfl⟩ := Prod.mk.inj he
    obtain ⟨-,-,harr⟩ := h.listed w hw
    exact ⟨_,_,harr,hpage.trans hoffset⟩

/-- Every reply that was made or is being made is right, and what the client has been
answered was replied. -/
structure Truthful (s : Service Page) : Prop where
  ledger : Ledger s.thr
  busy : s.thr.rdma ≠ .idle → ∃ q w, s.hand = .handling q w ∧ IsCommit q.immData
  owed : ∀ q w immData, s.hand = .handling q w → s.thr.rdma = .replying immData →
    s.upto q.call ≤ copied s.thr
  upto : ∀ c, s.upto c ≤ s.thr.listed
  replying : ∀ q w r, s.hand = .replying q w r → Right s.thr (s.upto q.call) q.immData r
  handled : ∀ q r, (q,some r) ∈ s.handled → Right s.thr (s.upto q.call) q.immData r
  answered : ∀ c r, s.client.answered c = some r → ∃ q, (q,some r) ∈ s.handled ∧ q.call = c

theorem Truthful.resting {s : Service Page} (h : Truthful s)
    (hhand : ∀ q w, s.hand = .handling q w → ¬IsCommit q.immData) : s.thr.rdma = .idle := by
  by_contra hbusy
  obtain ⟨q,w,hq,hc⟩ := h.busy hbusy
  exact hhand q w hq hc

theorem Truthful.go {s t : Service Page} (h : Truthful s) (hg : Grown s.thr t.thr)
    (hledger : Ledger t.thr)
    (hbusy : t.thr.rdma ≠ .idle → ∃ q w, t.hand = .handling q w ∧ IsCommit q.immData)
    (howed : ∀ q w immData, t.hand = .handling q w → t.thr.rdma = .replying immData →
      s.upto q.call ≤ copied t.thr)
    (hreplying : ∀ q w r, t.hand = .replying q w r →
      Right t.thr (s.upto q.call) q.immData r)
    (hupto : t.upto = s.upto) (hhandled : t.handled = s.handled)
    (hclient : t.client = s.client) : Truthful t := by
  refine ⟨hledger,hbusy,?_,?_,?_,?_,?_⟩
  · rw [hupto]; exact howed
  · rw [hupto]; exact fun c => (h.upto c).trans hg.listed
  · rw [hupto]; exact hreplying
  · rw [hupto, hhandled]; exact fun q r hq => (h.handled q r hq).grow hg
  · rw [hclient, hhandled]; exact h.answered

omit [Zero Page] in
theorem grown_refl (t : Threads Page) : Grown t t :=
  ⟨le_refl _,le_refl _,fun _ _ he => he,fun _ _ he => he⟩

theorem client_truthful {l : RpcCalls.Label (Reply Page)} {s : Service Page}
    {c : Rpc (Reply Page)} (hq : Queued k s) (h : Truthful s) (hl : isAnswer l = false)
    (hs : RpcCalls.step k l s.client = some c) : Truthful (s.goOn c) := by
  unfold Service.goOn
  obtain ⟨hposts,hanswered⟩ := client_posts hl hs
  have hkeep : ∀ q ∈ s.asked, q.call ∉ (fresh s.client c).map Request.call := by
    intro q hasked
    cases hposts with
    | same hrequests hpast => simp [fresh, hrequests]
    | post x b hpc hnow hrequests hpast =>
      have hfresh : fresh s.client c = [⟨rpcImm (k.opcode x) b,x,b⟩] := by
        simp [fresh, hrequests]
      rw [hfresh]
      intro hmem
      have hpast := hq.asked q hasked
      rw [List.mem_singleton.mp hmem, hpc] at hpast
      cases hpast
  have hhand : ∀ q, s.hand.request = some q → q ∈ s.asked := by
    intro q hr
    rw [hq.order, hr]
    simp
  have hdone : ∀ q r, (q,some r) ∈ s.handled → q ∈ s.asked := by
    intro q r hr
    rw [hq.order]
    exact List.mem_append_left _ (List.mem_map_of_mem hr)
  refine ⟨h.ledger,h.busy,fun q w immData hh hr => ?_,fun d => ?_,fun q w r hh => ?_,
    fun q r hr => ?_,?_⟩
  · dsimp only
    rw [if_neg (hkeep q (hhand q (by rw [show s.hand = _ from hh]; rfl)))]
    exact h.owed q w immData hh hr
  · dsimp only
    split
    · exact le_refl _
    · exact h.upto d
  · dsimp only
    rw [if_neg (hkeep q (hhand q (by rw [show s.hand = _ from hh]; rfl)))]
    exact h.replying q w r hh
  · dsimp only
    rw [if_neg (hkeep q (hdone q r hr))]
    exact h.handled q r hr
  · dsimp only
    rw [hanswered]
    exact h.answered

theorem send_truthful {s : Service Page} {q : Request} {w v : ℕ} {r : Reply Page}
    {c : Rpc (Reply Page)} (h : Truthful s) (hhand : s.hand = .replying q w r)
    (hs : RpcCalls.step k (.answer q r v) s.client = some c) :
    Truthful { s with client := c, hand := .handled w, handled := s.handled++[(q,some r)] } := by
  have hidle := h.resting (by simp [hhand])
  obtain ⟨-,hs⟩ := Option.ite_none_right_eq_some.mp hs
  obtain rfl := Option.some.inj hs
  refine ⟨h.ledger,fun hb => absurd hidle hb,fun _ _ _ hh => (by cases hh),h.upto,
    fun _ _ _ hh => (by cases hh),fun p u hu => ?_,fun d u hu => ?_⟩
  · rcases List.mem_append.mp hu with hu | hu
    · exact h.handled p u hu
    · obtain ⟨rfl,hr⟩ := Prod.mk.inj (List.mem_singleton.mp hu)
      exact Option.some.inj hr ▸ h.replying p w r hhand
  · by_cases hd : d = q.call
    · subst hd
      simp only [answer, Function.update_self, Option.some.injEq] at hu
      exact ⟨q,List.mem_append_right _ (by rw [hu]; exact List.mem_singleton_self _),rfl⟩
    · simp only [answer, Function.update_of_ne hd] at hu
      obtain ⟨p,hp,hcall⟩ := h.answered d u hu
      exact ⟨p,List.mem_append_left _ hp,hcall⟩

theorem open_grown {a : AllocResult} {immData : U32} {t : Threads Page}
    {srv : ServerHandlers.Server Page} (hs : processRdmaRpcOpen a immData t.srv = some srv) :
    Grown t { t with srv := srv } :=
  ⟨le_refl _,le_refl _,fun _ _ he => he,OpenedBlocks.open_quiet hs⟩

theorem Truthful.queue {s : Service Page} (h : Truthful s)
    (hhand : ∀ q w, s.hand = .handling q w → ¬IsCommit q.immData) {wire : List Request}
    {cq : List (Request × ℕ)} {posted : List ℕ} {hand : Hand Page}
    (hnew : ∀ q w r, hand ≠ .replying q w r) :
    Truthful { s with wire := wire, cq := cq, posted := posted, hand := hand } := by
  have hidle := h.resting hhand
  exact h.go (grown_refl _) h.ledger (fun hb => absurd hidle hb)
    (fun _ _ _ _ hr => by rw [hidle] at hr; cases hr) (fun q w r hh => absurd hh (hnew q w r))
    rfl rfl rfl

theorem thread_truthful {l : ServerThreads.Label Page} {s : Service Page} {u : Threads Page}
    (h : Truthful s) (hl : isRequest l = false) (hg : ServerThreads.Unsplit l s.thr)
    (hs : ServerThreads.step l s.thr = some u) : Truthful { s with thr := u } := by
  have hgrown := thread_grown h.ledger hs
  have hrdma := thread_rdma hl hg hs
  refine h.go hgrown (ServerThreads.step_ledger l s.thr u h.ledger hg hs) (fun hb => ?_)
    (fun q w immData hh hr => ?_) (fun q w r hh => (h.replying q w r hh).grow hgrown) rfl rfl rfl
  · rcases hrdma with hsame | ⟨hbusy,-⟩
    · exact h.busy (hsame ▸ hb)
    · exact h.busy hbusy
  · rcases hrdma with hsame | ⟨-,hnone | hwhole⟩
    · exact (h.owed q w immData hh (hsame.symm.trans hr)).trans hgrown.copied
    · exact absurd hr (hnone immData)
    · exact ((h.upto q.call).trans hgrown.listed).trans hwhole.ge

theorem pick_truthful {s : Service Page} {q : Request} {w : ℕ} {u : Threads Page}
    (h : Truthful s) (hhand : s.hand = .handling q w)
    (hs : ServerThreads.step (.pick q.immData) s.thr = some u) :
    Truthful { s with thr := u } := by
  have hgrown := thread_grown h.ledger hs
  have hledger := ServerThreads.step_ledger (.pick q.immData) s.thr u h.ledger trivial hs
  obtain ⟨⟨-,hcommit⟩,hs⟩ := Option.ite_none_right_eq_some.mp hs
  obtain rfl := Option.some.inj hs
  refine h.go hgrown hledger (fun _ => ⟨q,w,hhand,hcommit⟩) (fun p v immData _ hr => ?_)
    (fun p v r hh => by cases hhand.symm.trans hh) rfl rfl rfl
  dsimp only at hr
  split at hr
  · next hl =>
    exact (h.upto p.call).trans (copied_whole (empty_whole h.ledger hl)).ge
  · cases hr

theorem committed_truthful {s : Service Page} {q : Request} {w : ℕ} {u : Threads Page}
    (h : Truthful s) (hhand : s.hand = .handling q w)
    (hs : ServerThreads.step .reply s.thr = some u) :
    Truthful { s with thr := u, hand := .replying q w .committed } := by
  have hgrown := thread_grown h.ledger hs
  have hledger := ServerThreads.step_ledger .reply s.thr u h.ledger trivial hs
  simp only [ServerThreads.step] at hs
  split at hs
  · next immData hrdma =>
    obtain rfl := Option.some.inj hs
    obtain ⟨p,v,hp,hcommit⟩ := h.busy (by simp [hrdma])
    obtain ⟨rfl,rfl⟩ := Hand.handling.inj (hhand.symm.trans hp)
    refine h.go hgrown hledger (fun hb => absurd rfl hb) (fun _ _ _ hh => by cases hh)
      (fun p v r hh => ?_) rfl rfl rfl
    obtain ⟨rfl,rfl,rfl⟩ := Hand.replying.inj hh
    exact ⟨hcommit,(h.owed _ _ immData hhand hrdma).trans hgrown.copied⟩
  · cases hs

theorem not_commit {immData : U32}
    (h : ibGetOpcode immData = opcodeOpen ∨ ibGetOpcode immData = opcodeGet) :
    ¬IsCommit immData := by
  have hopen : opcodeOpen ≠ opcodeCommit ∧ opcodeOpen ≠ opcodeQcommit := by decide
  have hget : opcodeGet ≠ opcodeCommit ∧ opcodeGet ≠ opcodeQcommit := by decide
  rintro (hc | hc) <;> rcases h with h | h
  · exact hopen.1 (h.symm.trans hc)
  · exact hget.1 (h.symm.trans hc)
  · exact hopen.2 (h.symm.trans hc)
  · exact hget.2 (h.symm.trans hc)

theorem step_truthful {l : Label Page} {s t : Service Page} (hq : Queued k s) (h : Truthful s)
    (hg : Calm l s) (hs : step maxInline k l s = some t) : Truthful t := by
  have hother : ∀ {q w}, s.hand = .handling q w → ¬IsCommit q.immData →
      ∀ p v, s.hand = .handling p v → ¬IsCommit p.immData := by
    intro q w hhand hn p v hh
    obtain ⟨rfl,-⟩ := Hand.handling.inj (hhand.symm.trans hh)
    exact hn
  cases step_cases hs with
  | client hl hc => exact client_truthful hq h hl hc
  | thread hl hu =>
    obtain ⟨m,hm,hunsplit,hu⟩ := mapped_unsplit hl hg hu
    exact thread_truthful h hm hunsplit hu
  | deliver hwire hw => exact h.go (grown_refl _) h.ledger h.busy h.owed h.replying rfl rfl rfl
  | poll hhand hcq => exact h.queue (by simp [hhand]) (by simp)
  | openBlock hhand hop htable hsrv hmr =>
    have hidle := h.resting (hother hhand (not_commit (.inl hop)))
    refine h.go (open_grown hsrv) (Deployment.open_ledger h.ledger hsrv)
      (fun hb => absurd hidle hb) (fun _ _ _ hh => by cases hh) (fun p v r hh => ?_) rfl rfl rfl
    obtain ⟨rfl,rfl,rfl⟩ := Hand.replying.inj hh
    exact ⟨hop,hmr⟩
  | pick hhand hu => exact pick_truthful h hhand hu
  | committed hhand hu => exact committed_truthful h hhand hu
  | @getPage q w _ content hhand hop hfound =>
    have hidle := h.resting (hother hhand (not_commit (.inr hop)))
    refine h.go (grown_refl _) h.ledger (fun hb => absurd hidle hb)
      (fun _ _ _ _ hr => by rw [hidle] at hr; cases hr) (fun p v r hh => ?_) rfl rfl rfl
    rcases send_page_cases maxInline q w content with he | he
    · obtain ⟨rfl,rfl,rfl⟩ := Hand.replying.inj (he.symm.trans hh)
      exact ⟨hop,search_right h.ledger hfound⟩
    · cases he.symm.trans hh
  | @ignore q w _ hhand hsilent =>
    have hold : Truthful { s with hand := .handled w } :=
      h.queue (hother hhand hsilent.2.1) (by simp)
    refine ⟨hold.ledger,hold.busy,hold.owed,hold.upto,hold.replying,fun p r hp => ?_,
      fun c r hc => ?_⟩
    · rcases List.mem_append.mp hp with hp | hp
      · exact h.handled p r hp
      · cases (Prod.mk.inj (List.mem_singleton.mp hp)).2
    · obtain ⟨p,hp,hcall⟩ := h.answered c r hc
      exact ⟨p,List.mem_append_left _ hp,hcall⟩
  | send hhand hc => exact send_truthful h hhand hc
  | putBack hhand => exact h.queue (by simp [hhand]) (by simp)

theorem client_step {l : Label Page} {s t : Service Page} (hg : Calm l s)
    (hs : step maxInline k l s = some t) : t.client = s.client ∨
      ∃ m, Accepted m ∧ RpcCalls.step k m s.client = some t.client := by
  cases step_cases hs with
  | client hl hc => exact .inr ⟨_,hg,hc⟩
  | @send q w v r _ c hhand hc => exact .inr ⟨.answer q r v,trivial,hc⟩
  | _ => exact .inl rfl

end Replies

/-! What the callers get. -/

theorem requests_length {stage : ℕ → Stage} {c : Rpc (Reply Page)} (h : Matched k stage c) :
    c.requests.length ≤ nrBinders := by
  have hinj : ∀ p ∈ c.requests, ∀ q ∈ c.requests,
      replyBinder p.immData = replyBinder q.immData → p = q := by
    intro p hp q hq he
    refine List.inj_on_of_nodup_map h.requestNodup hp hq ?_
    exact h.exclusive _ _ _ (h.requests p hp).2 (he ▸ (h.requests q hq).2)
  have hnodup : (c.requests.map fun q => replyBinder q.immData).Nodup :=
    h.requestNodup.of_map.map_on hinj
  have hsub : (c.requests.map fun q => replyBinder q.immData) ⊆ List.range nrBinders := by
    intro b hb
    obtain ⟨q,-,rfl⟩ := List.mem_map.mp hb
    exact List.mem_range.mpr (BinderLeaks.reply_binder_lt q.immData)
  simpa using (hnodup.subperm hsub).length_le

theorem posted_ne_nil {stage : ℕ → Stage} {s : Service Page} (h : Queued k s)
    (hm : Matched k stage s.client) : s.posted ≠ [] := by
  intro hnil
  have hworks := h.works.length_eq
  have hopen := h.open'.length_eq
  have hlen := requests_length hm
  have hhand : s.hand.work.toList.length ≤ 1 := by cases s.hand.work <;> simp
  simp only [hnil, List.nil_append, List.length_append, List.length_map, List.length_range] at *
  unfold nrBinders at hlen
  unfold mcmMaxRecvWr at hworks
  omega

structure Served (k : Client) (n : ℕ) (s : Service Page) : Prop where
  matched : RepliesMatched n s.client
  inOrder : s.asked =
    s.handled.map Prod.fst++(s.hand.request.toList++(s.cq.map Prod.fst++s.wire))
  once : (s.asked.map Request.call).Nodup
  room : s.posted ≠ []
  results : ∀ c success, s.client.pc c = .returned success → ∃ q r,
    (q,some r) ∈ s.handled ∧ q.call = c ∧ s.client.res c = some r ∧
      ibGetOpcode q.immData = ibGetOpcode (k.opcode c) ∧
      blockOf (pageOffset q.immData) = blockOf (pageOffset (k.opcode c)) ∧
      Right s.thr (s.upto c) q.immData r
  silent : ∀ c success, Silent (k.opcode c) → s.client.pc c ≠ .returned success
  conveyed : ∀ f < copied s.thr, ServerThreads.conveys f s.thr.srv.log = 1

theorem copied_conveyed [Zero Page] {t : Threads Page} (h : Ledger t) {f : ℕ} (hf : f < copied t) :
    ServerThreads.conveys f t.srv.log = 1 := by
  unfold copied at hf
  refine h.once f (by omega) fun wc hm he => ?_
  have hlast := (h.split wc hm).2.2.2.1
  simp only [hm, Option.isSome_some, if_true] at hf
  omega

theorem Right.not_silent {t : Threads Page} {upto : ℕ} {immData : U32} {r : Reply Page}
    (h : Right t upto immData r) : ¬Silent immData := by
  rintro ⟨hopen,hcommit,hget⟩
  cases r with
  | opened remoteAddr rkey => exact hopen h.1
  | committed => exact hcommit h.1
  | page content => exact hget h.1

theorem served [Zero Page] {n : ℕ} {stage : ℕ → Stage} {s : Service Page} (hq : Queued k s)
    (ht : Truthful s) (hm : Matched k stage s.client) (hw : Settled n s.client) :
    Served k n s := by
  have hmatched := hw.replies_matched hm
  have hresults : ∀ c success, s.client.pc c = .returned success → ∃ q r,
      (q,some r) ∈ s.handled ∧ q.call = c ∧ s.client.res c = some r ∧
        ibGetOpcode q.immData = ibGetOpcode (k.opcode c) ∧
        blockOf (pageOffset q.immData) = blockOf (pageOffset (k.opcode c)) ∧
        Right s.thr (s.upto c) q.immData r := by
    intro c success hpc
    obtain ⟨-,r,hr,hres⟩ := hmatched.delivered c success hpc
    obtain ⟨q,hmem,rfl⟩ := ht.answered c r hr
    have hasked : q ∈ s.asked := by
      rw [hq.order]
      exact List.mem_append_left _ (List.mem_map_of_mem hmem)
    obtain ⟨hb,hword⟩ := hq.worded q hasked
    obtain ⟨hop,hblock⟩ := Deployment.imm_fields (k.opcode q.call) hb
    rw [← hword] at hop hblock
    exact ⟨q,r,hmem,rfl,hres,hop,hblock,ht.handled q r hmem⟩
  refine ⟨hmatched,hq.order,hq.once,posted_ne_nil hq hm,hresults,
    fun c success hsilent hpc => ?_,fun _ hf => copied_conveyed ht.ledger hf⟩
  obtain ⟨q,r,-,-,-,hop,-,hright⟩ := hresults c success hpc
  refine hright.not_silent ?_
  unfold Silent IsCommit at hsilent ⊢
  rwa [hop]

section Runs
variable [Zero Page]

theorem init_truthful (n : ℕ) (buffer : ℕ → Reply Page) (base : ℕ) (rkey : U32) :
    Truthful (initService n buffer base rkey) where
  ledger := ServerThreads.init_ledger base rkey
  busy := fun hb => absurd rfl hb
  owed := fun _ _ _ hh => by cases hh
  upto := fun _ => Nat.zero_le _
  replying := fun _ _ _ hh => by cases hh
  handled := fun _ _ hq => by cases hq
  answered := fun _ _ hr => by cases hr

structure Sure (k : Client) (n : ℕ) (s : Service Page) : Prop where
  queued : Queued k s
  truthful : Truthful s
  client : (∃ stage, Matched k stage s.client) ∧ Settled n s.client

theorem Sure.served {k : Client} {n : ℕ} {s : Service Page} (h : Sure k n s) : Served k n s := by
  obtain ⟨⟨stage,hm⟩,hw⟩ := h.client
  exact RpcAnswers.served h.queued h.truthful hm hw

theorem step_sure {k : Client} {n : ℕ} (hk : ∀ c, k.opcode c &&& 0xff#32 = 0#32)
    (l : Label Page) (s t : Service Page) (h : Sure k n s) (hl : Calm l s)
    (hs : step maxInline k l s = some t) : Sure k n t := by
  have hsure : ∀ m, l = .client m → ¬OpenReplies.Mistakes k m := by
    rintro m rfl
    exact accepted_sure hl
  refine ⟨step_queued h.queued hsure hs,step_truthful h.queued h.truthful hl hs,?_⟩
  rcases client_step hl hs with hsame | ⟨m,ha,hs⟩
  · exact hsame ▸ h.client
  · refine step_settled k n m s.client t.client h.client ⟨ha,?_⟩ hs
    cases m with
    | acquire c b => exact fits_of_low_bits k c b (hk c)
    | _ => trivial

theorem init_sure (k : Client) (n : ℕ) (buffer : ℕ → Reply Page) (base : ℕ) (rkey : U32) :
    Sure k n (initService n buffer base rkey) :=
  ⟨init_queued k n buffer base rkey,init_truthful n buffer base rkey,
    ⟨_,init_matched k n buffer⟩,init_settled n buffer⟩

/-- Call 0 asks for block 1, call 1 for a commit of the frame that has come by then. Call
1 takes the reply to call 0 off the queue. -/
def sampleClient : Client :=
  ⟨false,fun c => if c = 0 then openWord 0x40000#32 else qcommitWord 1#32,fun _ => true⟩

def finish (c : ℕ) : List (Label ℕ) :=
  [.client (.readFlags c),.client (.loadPrivate c),.client (.copy c),.client (.putBack c),
    .client (.checkBinder c),.client (.release c),.client (.complete c),
    .client (.pollSend c .got),.client (.sent c)]

def take : List (Label ℕ) :=
  [.client (.readFlags 1),.client (.pollRecv 1 .got),.client (.storePrivate 1),
    .client (.setFlags 1)]

def sampleLabels : List (Label ℕ) :=
  [.client (.acquire 0 3),.client (.post 0 true),.client (.acquire 1 7),
    .thread (.arrive (flowHeader 5#32) 42 0),.thread .poll,.thread .listAdd,
    .thread (.convey ⟨none,none⟩),.client (.post 1 true),.deliver 0,.deliver 1,.poll,
    .openBlock ⟨some 9,some 2#32⟩,.send 0,.putBack,.poll,.pick,.thread .pass,
    .thread (.region fun _ => ⟨none,none⟩),.committed,.send 1,.putBack]++
    (take++(finish 0++(take++finish 1)))

theorem sample_low_bits (c : ℕ) : sampleClient.opcode c &&& 0xff#32 = 0#32 := by
  simp only [sampleClient]
  split <;> decide

theorem sample_calm : Meets (step 64 sampleClient) Calm sampleLabels
    (initService 4 (fun _ => .committed) 0 1#32) := by
  decide +kernel

set_option maxRecDepth 20000 in
theorem sample_runs : ∃ s : Service ℕ,
    run (step 64 sampleClient) sampleLabels (initService 4 (fun _ => .committed) 0 1#32) =
      some s ∧ s.client.pc 0 = .returned true ∧ s.client.pc 1 = .returned true ∧
      s.client.res 0 = some (.opened 9 2#32) ∧ s.client.res 1 = some .committed ∧
      s.asked.map Request.call = [0,1] :=
  ⟨_,rfl,rfl,rfl,rfl,rfl,rfl⟩

end Runs

end Maruswap.RpcAnswers
