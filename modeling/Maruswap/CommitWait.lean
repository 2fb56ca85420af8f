import Maruswap.Deployment

/-!
# When the waiting loop of a commit ends

`__process_rdma_rpc_commit` spins until the counter has reached what the request asks
for. What the counter can still reach without another send is what it holds and the
frames under way, and never more than there are receive works.
-/

set_option autoImplicit false

namespace Maruswap.CommitWait
open WireFormat GuardedRun Deployment CommitBarrier
open ServerHandlers (mcmMaxRecvWr commitNeed InTable)
open ServerThreads (RdmaPc Threads)

variable {Page : Type*}

def inHand (mcast : Option ServerHandlers.Wc) : ℕ := if mcast.isSome then 1 else 0

def inFlight (n : Net Page) : ℕ := n.channel.length+n.thr.queue.length+inHand n.thr.mcast

def stage : RdmaPc → ℕ
  | .idle => 0
  | .replying _ => 1
  | .passed _ => 2
  | .waiting _ => 3

def rank (n : Net Page) : ℕ :=
  4*n.channel.length+3*n.thr.cq.length+2*inHand n.thr.taken+inHand n.thr.mcast+
    4*n.rpc.length+stage n.thr.rdma

section Steps
variable [Zero Page]

/-- The server's steps while its client sends nothing. -/
def ownStep (l : CommitBarrier.Label Page) (n : Net Page) : Option (Net Page) :=
  if isClient l then none else CommitBarrier.step l n

def Stuck (n : Net Page) : Prop :=
  ∀ l : CommitBarrier.Label Page, AllocSucceeds l → ownStep l n = none

/-- Every receive work is somewhere, and every frame in the channel can be handled. -/
structure Stocked (n : Net Page) : Prop where
  kept : Kept n
  full : n.thr.srv.posted.length+n.thr.queue.length+n.thr.srv.commitList.length = mcmMaxRecvWr
  flows : ∀ e ∈ n.channel, ibGetOpcode e.1 = multicastOpcodeFlow ∧ InTable e.1

theorem convey_posted (a : ServerHandlers.AllocResult) (wc : ServerHandlers.Wc)
    (s : ServerHandlers.Server Page) :
    (ServerHandlers.flowConvey a wc s).posted = s.posted := by
  unfold ServerHandlers.flowConvey
  split
  · rfl
  · rcases ServerHandlers.ib_convey_page_cases a wc s with ⟨-,hc⟩ | ⟨he,-,-⟩
    · exact hc.posted
    · rw [he]

theorem region_length (alloc : ℕ → ServerHandlers.AllocResult) {t : Threads Page}
    (h : ServerThreads.Ledger t) (hm : t.mcast = none) :
    (ServerHandlers.commitRegion alloc t.srv).posted.length =
      t.srv.posted.length+t.srv.commitList.length := by
  have hup : ∀ w ∈ t.srv.commitList, (t.srv.rw w).convey = true :=
    fun w hw => h.whole w hw (by simp [hm])
  rw [ServerHandlers.commitRegion, ServerHandlers.walk_conveyed alloc _ _ hup,
    ServerHandlers.drain_eq _ _ rfl]
  simp [ServerHandlers.resetBatch]

theorem thread_full {k : ServerThreads.Label Page} {t u : Threads Page}
    (h : ServerThreads.Ledger t) (hg : ServerThreads.Unsplit k t)
    (hs : ServerThreads.step k t = some u) :
    u.srv.posted.length+u.queue.length+u.srv.commitList.length =
      t.srv.posted.length+t.queue.length+t.srv.commitList.length := by
  cases k with
  | arrive header payload w =>
    obtain ⟨⟨-,-,hw⟩,hs⟩ := Option.ite_none_right_eq_some.mp hs
    obtain rfl := Option.some.inj hs
    have hpos := List.length_pos_of_mem hw
    rw [ServerThreads.arrive_queue]
    simp only [ServerThreads.arrive, ServerHandlers.deliver, List.length_append,
      List.length_cons, List.length_nil, List.length_erase_of_mem hw]
    omega
  | poll =>
    obtain ⟨wc,cq,ht,-,hcq,rfl⟩ := ServerThreads.poll_cases hs
    simp [Threads.queue, ht, hcq]
  | listAdd =>
    obtain ⟨wc,ht,rfl⟩ := Option.map_eq_some_iff.mp hs
    simp only [Threads.queue, ServerThreads.listFlow, ServerHandlers.flowListAdd, ht,
      Option.toList_some, Option.toList_none, List.length_append, List.length_cons,
      List.length_nil]
    omega
  | convey a =>
    obtain ⟨wc,-,rfl⟩ := Option.map_eq_some_iff.mp hs
    dsimp only [Threads.queue]
    rw [convey_posted, flow_convey_list]
  | pick immData =>
    obtain ⟨-,hs⟩ := Option.ite_none_right_eq_some.mp hs
    exact Option.some.inj hs ▸ rfl
  | pass =>
    simp only [ServerThreads.step] at hs
    split at hs
    · obtain ⟨-,hs⟩ := Option.ite_none_right_eq_some.mp hs
      exact Option.some.inj hs ▸ rfl
    · cases hs
  | region alloc =>
    simp only [ServerThreads.step] at hs
    split at hs
    · obtain rfl := Option.some.inj hs
      dsimp only [Threads.queue]
      rw [region_length alloc h hg, region_list, List.length_nil]
      omega
    · cases hs
  | reply =>
    simp only [ServerThreads.step] at hs
    split at hs
    · exact Option.some.inj hs ▸ rfl
    · cases hs

theorem step_stocked {l : CommitBarrier.Label Page} {n m : Net Page} (h : Stocked n)
    (hc : Calm l n) (hs : CommitBarrier.step l n = some m) : Stocked m := by
  have hthread : ∀ (k : ServerThreads.Label Page) {u : Threads Page} {rpc current base},
      ServerThreads.step k n.thr = some u → ServerThreads.Unsplit k n.thr → isClient l = false →
      m = { n with thr := u, rpc := rpc, current := current, base := base } → Stocked m := by
    intro k u rpc current base hu hg hl hm
    refine ⟨(server_step h.kept hl hc hs).kept,?_,?_⟩
    · rw [hm]
      exact (thread_full h.kept.ledger hg hu).trans h.full
    · rw [hm]
      exact h.flows
  have hown : ∀ (k : ServerThreads.Label Page) {rpc current base}, ServerThreads.Unsplit k n.thr →
      isClient l = false → serverStep k { n with rpc := rpc, current := current, base := base } =
        some m → Stocked m := by
    intro k rpc current base hg hl hk
    obtain ⟨u,hu,rfl⟩ := Option.map_eq_some_iff.mp hk
    exact hthread k hu hg hl rfl
  cases l with
  | send header payload =>
    obtain ⟨hflow,hs⟩ := Option.ite_none_right_eq_some.mp hs
    obtain rfl := Option.some.inj hs
    refine ⟨⟨h.kept.ledger,by simp [h.kept.sent]⟩,h.full,fun e he => ?_⟩
    rcases List.mem_append.mp he with he | he
    · exact h.flows e he
    · obtain rfl := List.mem_singleton.mp he
      exact hflow
  | request immData =>
    obtain ⟨-,hs⟩ := Option.ite_none_right_eq_some.mp hs
    obtain rfl := Option.some.inj hs
    exact ⟨⟨h.kept.ledger,h.kept.sent⟩,h.full,h.flows⟩
  | deliver w =>
    have hkept := (server_step h.kept rfl hc hs).kept
    cases hch : n.channel with
    | nil => simp [CommitBarrier.step, hch] at hs
    | cons e rest =>
      simp only [CommitBarrier.step, hch] at hs
      obtain ⟨u,hu,rfl⟩ := Option.map_eq_some_iff.mp hs
      have hfull := thread_full (k := .arrive e.1 e.2 w) h.kept.ledger trivial hu
      refine ⟨hkept,hfull.trans h.full,fun d hd => ?_⟩
      exact h.flows d (by rw [hch]; exact .tail _ hd)
  | poll => exact hown .poll trivial rfl hs
  | listAdd => exact hown .listAdd trivial rfl hs
  | convey a => exact hown (.convey a) hc rfl hs
  | pick =>
    simp only [CommitBarrier.step] at hs
    split at hs
    · exact hown (.pick _) trivial rfl (by assumption)
    · cases hs
  | pass => exact hown .pass trivial rfl hs
  | region alloc => exact hown (.region alloc) hc rfl hs
  | reply => exact hown .reply trivial rfl hs

theorem init_stocked (buffer : ℕ) (rkey : U32) : Stocked (initNet buffer rkey : Net Page) where
  kept := ⟨ServerThreads.init_ledger buffer rkey,rfl⟩
  full := by simp [initNet, ServerThreads.initThreads, ServerHandlers.initServer, Threads.queue]
  flows := fun _ he => by cases he

theorem step_rank {l : CommitBarrier.Label Page} {n m : Net Page} (hs : ownStep l n = some m) :
    rank m+1 ≤ rank n := by
  obtain ⟨hl,hs⟩ := Option.ite_none_left_eq_some.mp hs
  cases l with
  | send header payload => exact absurd rfl hl
  | request immData => exact absurd rfl hl
  | deliver w =>
    cases hch : n.channel with
    | nil => simp [CommitBarrier.step, hch] at hs
    | cons e rest =>
      simp only [CommitBarrier.step, hch] at hs
      obtain ⟨u,hu,rfl⟩ := Option.map_eq_some_iff.mp hs
      obtain ⟨-,hu⟩ := Option.ite_none_right_eq_some.mp hu
      obtain rfl := Option.some.inj hu
      have hhand : (ServerThreads.arrive e.1 e.2 w n.thr).mcast = n.thr.mcast := rfl
      have hrdma : (ServerThreads.arrive e.1 e.2 w n.thr).rdma = n.thr.rdma := rfl
      have htaken : (ServerThreads.arrive e.1 e.2 w n.thr).taken = n.thr.taken := rfl
      have hcq : (ServerThreads.arrive e.1 e.2 w n.thr).cq.length = n.thr.cq.length+1 := by
        simp [ServerThreads.arrive]
      simp only [rank, hch, hhand, hrdma, htaken, hcq, List.length_cons]
      omega
  | poll =>
    obtain ⟨u,hu,rfl⟩ := Option.map_eq_some_iff.mp hs
    obtain ⟨wc,cq,ht,-,hcq,rfl⟩ := ServerThreads.poll_cases hu
    simp only [rank, inHand, ht, hcq, List.length_cons, Option.isSome_some, Option.isSome_none,
      if_true, Bool.false_eq_true, if_false]
    omega
  | listAdd =>
    obtain ⟨u,hu,rfl⟩ := Option.map_eq_some_iff.mp hs
    obtain ⟨wc,ht,rfl⟩ := Option.map_eq_some_iff.mp hu
    simp only [rank, inHand, ht, ServerThreads.listFlow, Option.isSome_some, Option.isSome_none,
      if_true, Bool.false_eq_true, if_false]
    omega
  | convey a =>
    obtain ⟨u,hu,rfl⟩ := Option.map_eq_some_iff.mp hs
    obtain ⟨wc,hm,rfl⟩ := Option.map_eq_some_iff.mp hu
    simp only [rank, inHand, hm, Option.isSome_some, Option.isSome_none, if_true,
      Bool.false_eq_true, if_false]
    omega
  | pick =>
    simp only [CommitBarrier.step] at hs
    split at hs
    · next r rest hr =>
      obtain ⟨u,hu,rfl⟩ := Option.map_eq_some_iff.mp hs
      obtain ⟨⟨hidle,-⟩,hu⟩ := Option.ite_none_right_eq_some.mp hu
      obtain rfl := Option.some.inj hu
      have hstage : stage (if n.thr.srv.commitList = [] then .replying r.immData
          else .waiting r.immData) ≤ 3 := by split <;> simp [stage]
      simp only [rank, inHand, hr, List.length_cons]
      omega
    · cases hs
  | pass =>
    obtain ⟨u,hu,rfl⟩ := Option.map_eq_some_iff.mp hs
    simp only [ServerThreads.step] at hu
    split at hu
    · next immData hw =>
      obtain ⟨-,hu⟩ := Option.ite_none_right_eq_some.mp hu
      obtain rfl := Option.some.inj hu
      simp only [rank, hw, stage]
      omega
    · cases hu
  | region alloc =>
    obtain ⟨u,hu,rfl⟩ := Option.map_eq_some_iff.mp hs
    simp only [ServerThreads.step] at hu
    split at hu
    · next immData hw =>
      obtain rfl := Option.some.inj hu
      simp only [rank, hw, stage]
      omega
    · cases hu
  | reply =>
    obtain ⟨u,hu,rfl⟩ := Option.map_eq_some_iff.mp hs
    simp only [ServerThreads.step] at hu
    split at hu
    · next immData hw =>
      obtain rfl := Option.some.inj hu
      simp only [rank, hw, stage]
      omega
    · cases hu

/-- The loop spins, and `total` is what the counter can reach. -/
structure Waits (immData : U32) (total : ℕ) (n : Net Page) : Prop where
  stocked : Stocked n
  rdma : n.thr.rdma = .waiting immData
  total : n.thr.srv.batch+inFlight n = total

def Reaches (immData : U32) (total : ℕ) : Prop :=
  commitNeed immData ≤ total ∧ commitNeed immData ≤ mcmMaxRecvWr

theorem batch_le {n : Net Page} (h : Stocked n) : n.thr.srv.batch ≤ mcmMaxRecvWr := by
  have hlist := batch_le_list h.kept.ledger
  have hfull := h.full
  omega

theorem waits_step {l : CommitBarrier.Label Page} {n m : Net Page} {immData : U32} {total : ℕ}
    (h : Waits immData total n) (ha : AllocSucceeds l) (hs : ownStep l n = some m) :
    Waits immData total m ∨ Reaches immData total ∧ m.thr.rdma = .passed immData := by
  obtain ⟨hl,hs⟩ := Option.ite_none_left_eq_some.mp hs
  have hstay : Calm l n → m.thr.rdma = n.thr.rdma →
      m.thr.srv.batch+inFlight m = n.thr.srv.batch+inFlight n → Waits immData total m :=
    fun hc hrdma htotal => ⟨step_stocked h.stocked hc hs,hrdma.trans h.rdma,htotal.trans h.total⟩
  have hrdma := h.rdma
  cases l with
  | send header payload => exact absurd rfl hl
  | request immData => exact absurd rfl hl
  | deliver w =>
    cases hch : n.channel with
    | nil => simp [CommitBarrier.step, hch] at hs
    | cons e rest =>
      refine .inl (hstay trivial ?_ ?_)
      all_goals
        simp only [CommitBarrier.step, hch] at hs
        obtain ⟨u,hu,rfl⟩ := Option.map_eq_some_iff.mp hs
        obtain ⟨-,hu⟩ := Option.ite_none_right_eq_some.mp hu
        obtain rfl := Option.some.inj hu
      · rfl
      · have hbatch : (ServerThreads.arrive e.1 e.2 w n.thr).srv.batch = n.thr.srv.batch := rfl
        have hmcast : (ServerThreads.arrive e.1 e.2 w n.thr).mcast = n.thr.mcast := rfl
        have hqueue : (ServerThreads.arrive e.1 e.2 w n.thr).queue.length =
            n.thr.queue.length+1 := by simp [ServerThreads.arrive_queue]
        simp only [inFlight, hch, hbatch, hmcast, hqueue, List.length_cons]
        omega
  | poll =>
    refine .inl (hstay trivial ?_ ?_)
    all_goals
      obtain ⟨u,hu,rfl⟩ := Option.map_eq_some_iff.mp hs
      obtain ⟨wc,cq,ht,-,hcq,rfl⟩ := ServerThreads.poll_cases hu
    · rfl
    · simp [inFlight, Threads.queue, ht, hcq]
  | listAdd =>
    refine .inl (hstay trivial ?_ ?_)
    all_goals
      obtain ⟨u,hu,rfl⟩ := Option.map_eq_some_iff.mp hs
      obtain ⟨wc,ht,rfl⟩ := Option.map_eq_some_iff.mp hu
    · rfl
    · have hmcast := h.stocked.kept.ledger.alone (by simp [ht])
      simp [inFlight, inHand, Threads.queue, hmcast, ht, ServerThreads.listFlow,
        ServerHandlers.flowListAdd, Nat.add_assoc]
  | convey a =>
    refine .inl (hstay ha ?_ ?_)
    all_goals
      obtain ⟨u,hu,rfl⟩ := Option.map_eq_some_iff.mp hs
      obtain ⟨wc,hm,rfl⟩ := Option.map_eq_some_iff.mp hu
    · rfl
    · have hflag := (h.stocked.kept.ledger.split wc hm).2.2.1
      have hbatch := (ServerHandlers.flow_convey_conveyed a wc n.thr.srv hflag ha).batch
      simp only [inFlight, inHand, Threads.queue, hm, hbatch, Option.isSome_some,
        Option.isSome_none, if_true, Bool.false_eq_true, if_false]
      omega
  | pick =>
    simp only [CommitBarrier.step] at hs
    split at hs
    · obtain ⟨u,hu,rfl⟩ := Option.map_eq_some_iff.mp hs
      obtain ⟨⟨hidle,-⟩,-⟩ := Option.ite_none_right_eq_some.mp hu
      cases hrdma.symm.trans hidle
    · cases hs
  | pass =>
    obtain ⟨u,hu,rfl⟩ := Option.map_eq_some_iff.mp hs
    simp only [ServerThreads.step, hrdma, Option.ite_none_right_eq_some, Option.some.injEq] at hu
    obtain ⟨hneed,rfl⟩ := hu
    have htotal := h.total
    have hbatch := batch_le h.stocked
    exact .inr ⟨⟨by omega,by omega⟩,rfl⟩
  | region alloc =>
    obtain ⟨u,hu,rfl⟩ := Option.map_eq_some_iff.mp hs
    simp [ServerThreads.step, hrdma] at hu
  | reply =>
    obtain ⟨u,hu,rfl⟩ := Option.map_eq_some_iff.mp hs
    simp [ServerThreads.step, hrdma] at hu

theorem reply_reaches {ls : List (CommitBarrier.Label Page)} {n m : Net Page} {immData : U32}
    {total : ℕ} (h : Waits immData total n) (ha : ∀ l ∈ ls, AllocSucceeds l)
    (hrun : run ownStep ls n = some m) (hreply : .reply ∈ ls) : Reaches immData total := by
  induction ls generalizing n with
  | nil => cases hreply
  | cons l ls ih =>
    obtain ⟨u,hu,hrest⟩ := run_cons.mp hrun
    rcases waits_step h (ha l (by simp)) hu with hw | ⟨hreaches,-⟩
    · refine ih hw (fun k hk => ha k (by simp [hk])) hrest ?_
      refine (List.mem_cons.mp hreply).resolve_left fun he => ?_
      subst he
      obtain ⟨v,hv,-⟩ := Option.map_eq_some_iff.mp (Option.ite_none_left_eq_some.mp hu).2
      simp [ServerThreads.step, h.rdma] at hv
    · exact hreaches

def Unanswered (immData : U32) (total : ℕ) (n : Net Page) : Prop :=
  Waits immData total n ∨ n.thr.rdma = .passed immData ∨ n.thr.rdma = .replying immData

theorem unanswered_step {l : CommitBarrier.Label Page} {n m : Net Page} {immData : U32}
    {total : ℕ} (h : Unanswered immData total n) (ha : AllocSucceeds l ∧ l ≠ .reply)
    (hs : ownStep l n = some m) : Unanswered immData total m := by
  rcases h with h | h
  · exact (waits_step h ha.1 hs).imp_right fun hr => .inl hr.2
  · refine .inr ?_
    obtain ⟨hl,hs⟩ := Option.ite_none_left_eq_some.mp hs
    have hkeep : ∀ (k : ServerThreads.Label Page) {v : Net Page}, serverStep k v = some m →
        v.thr = n.thr → (∀ u, ServerThreads.step k n.thr = some u → u.rdma = n.thr.rdma) →
        m.thr.rdma = .passed immData ∨ m.thr.rdma = .replying immData := by
      intro k v hm hv hk
      obtain ⟨u,hu,rfl⟩ := Option.map_eq_some_iff.mp hm
      have hsame : u.rdma = n.thr.rdma := hk u (hv ▸ hu)
      exact hsame ▸ h
    have hbusy : n.thr.rdma ≠ .idle := fun hi => by rcases h with h | h <;> cases hi.symm.trans h
    cases l with
    | send header payload => exact absurd rfl hl
    | request immData => exact absurd rfl hl
    | deliver w =>
      simp only [CommitBarrier.step] at hs
      split at hs
      · refine hkeep _ hs rfl fun u hu => ?_
        obtain ⟨-,hu⟩ := Option.ite_none_right_eq_some.mp hu
        exact Option.some.inj hu ▸ rfl
      · cases hs
    | poll =>
      refine hkeep .poll hs rfl fun u hu => ?_
      obtain ⟨wc,cq,-,-,-,rfl⟩ := ServerThreads.poll_cases hu
      rfl
    | listAdd =>
      refine hkeep .listAdd hs rfl fun u hu => ?_
      obtain ⟨wc,-,rfl⟩ := Option.map_eq_some_iff.mp hu
      rfl
    | convey a =>
      refine hkeep (.convey a) hs rfl fun u hu => ?_
      obtain ⟨wc,-,rfl⟩ := Option.map_eq_some_iff.mp hu
      rfl
    | pick =>
      simp only [CommitBarrier.step] at hs
      split at hs
      · refine hkeep _ hs rfl fun u hu => ?_
        obtain ⟨⟨hidle,-⟩,-⟩ := Option.ite_none_right_eq_some.mp hu
        exact absurd hidle hbusy
      · cases hs
    | pass =>
      refine hkeep .pass hs rfl fun u hu => ?_
      rcases h with h | h <;> simp [ServerThreads.step, h] at hu
    | region alloc =>
      obtain ⟨u,hu,rfl⟩ := Option.map_eq_some_iff.mp hs
      rcases h with h | h
      · simp only [ServerThreads.step, h, Option.some.injEq] at hu
        exact hu ▸ .inr rfl
      · simp [ServerThreads.step, h] at hu
    | reply => exact absurd rfl ha.2

def plenty : ServerHandlers.AllocResult := ⟨some 0,some 1#32⟩

theorem plenty_succeeds : plenty.Succeeds := ⟨rfl,rfl⟩

theorem stuck_not_reaches {n : Net Page} {immData : U32} {total : ℕ}
    (h : Unanswered immData total n) (hstuck : Stuck n) : ¬Reaches immData total := by
  rintro ⟨htotal,hmax⟩
  have hnone : ∀ k : ServerThreads.Label Page, serverStep k n = none →
      ServerThreads.step k n.thr = none := fun k hk => Option.map_eq_none_iff.mp hk
  rcases h with h | h | h
  · have hmcast : n.thr.mcast = none := by
      have hs := hnone _ (hstuck (.convey plenty) plenty_succeeds)
      exact Option.map_eq_none_iff.mp hs
    have htaken : n.thr.taken = none := by
      have hs := hnone _ (hstuck .listAdd trivial)
      exact Option.map_eq_none_iff.mp hs
    have hqueue : n.thr.queue = [] := by
      have hs := hnone _ (hstuck .poll trivial)
      cases hc : n.thr.cq with
      | nil => simp [Threads.queue, htaken, hc]
      | cons wc cq => simp [ServerThreads.step, hmcast, htaken, hc] at hs
    have hneed : n.thr.srv.batch < commitNeed immData := by
      have hs := hnone _ (hstuck .pass trivial)
      simpa [ServerThreads.step, h.rdma] using hs
    have hlist : n.thr.srv.batch = n.thr.srv.commitList.length := by
      simpa [hmcast] using h.stocked.kept.ledger.batch
    have hfull := h.stocked.full
    rw [hqueue, List.length_nil] at hfull
    have hall := h.total
    simp only [inFlight, inHand, hmcast, hqueue, List.length_nil, Option.isSome_none,
      Bool.false_eq_true, if_false] at hall
    cases hch : n.channel with
    | nil =>
      rw [hch, List.length_nil] at hall
      omega
    | cons e rest =>
      cases hp : n.thr.srv.posted with
      | nil =>
        rw [hp, List.length_nil] at hfull
        omega
      | cons w ws =>
        obtain ⟨hflow,htable⟩ := h.stocked.flows e (by simp [hch])
        have hs : ownStep (.deliver w) n = none := hstuck (.deliver w) trivial
        simp [ownStep, isClient, CommitBarrier.step, hch, serverStep, ServerThreads.step, hflow,
          htable, hp] at hs
  · have hs := hnone _ (hstuck (.region fun _ => plenty) fun _ => plenty_succeeds)
    simp [ServerThreads.step, h] at hs
  · have hs : ownStep .reply n = none := hstuck .reply trivial
    simp [ownStep, isClient, CommitBarrier.step, serverStep, ServerThreads.step, h] at hs

/-- A server whose client sends nothing more comes to a halt, and until then it has
answered the commit in its loop exactly when the frames under way and the counter come
to what was asked for, and that is no more than there are receive works. -/
theorem commit_wait_ends (buffer : ℕ) (rkey : U32) (before : List (CommitBarrier.Label Page))
    (n : Net Page) (hg : Meets CommitBarrier.step Calm before (initNet buffer rkey))
    (h : run CommitBarrier.step before (initNet buffer rkey) = some n) (immData : U32)
    (hw : n.thr.rdma = .waiting immData) :
    (∀ ls m, run ownStep ls n = some m → ls.length ≤ rank n) ∧
    ∀ ls m, (∀ l ∈ ls, AllocSucceeds l) → run ownStep ls n = some m → Stuck m →
      (.reply ∈ ls ↔ commitNeed immData ≤ n.thr.srv.batch+inFlight n ∧
        commitNeed immData ≤ mcmMaxRecvWr) := by
  have hstep : ∀ (l : CommitBarrier.Label Page) (s t : Net Page), Stocked s → Calm l s →
      CommitBarrier.step l s = some t → Stocked t := fun l s t hs hl ht => step_stocked hs hl ht
  have hwaits : Waits immData (n.thr.srv.batch+inFlight n) n :=
    ⟨run_invariant hstep (init_stocked buffer rkey) hg h,hw,rfl⟩
  refine ⟨fun ls m hrun => ?_,fun ls m ha hrun hstuck =>
    ⟨fun hreply => reply_reaches hwaits ha hrun hreply,fun hreaches => ?_⟩⟩
  · have hany : ∀ (l : CommitBarrier.Label Page) (s t : Net Page), True →
        ownStep l s = some t → True := fun _ _ _ _ _ => trivial
    have hcount := run_count_le rank (fun _ => true) hany
      (fun l s t _ ht => by simpa using step_rank ht) trivial hrun
    simpa [List.countP_true] using hcount
  · by_contra hno
    have hkeep : ∀ (l : CommitBarrier.Label Page) (s t : Net Page),
        Unanswered immData (n.thr.srv.batch+inFlight n) s → AllocSucceeds l ∧ l ≠ .reply →
        ownStep l s = some t → Unanswered immData (n.thr.srv.batch+inFlight n) t :=
      fun l s t hs hl ht => unanswered_step hs hl ht
    have hmeets : Meets ownStep (fun l _ => AllocSucceeds l ∧ l ≠ .reply) ls n :=
      meets_of_forall (fun l hl _ => ⟨ha l hl,fun he => hno (he ▸ hl)⟩) n
    exact stuck_not_reaches (run_invariant hkeep (.inl hwaits) hmeets hrun) hstuck hreaches

end Steps

/-- A QCOMMIT for one frame finds it listed and not yet copied. -/
def waitingLabels : List (CommitBarrier.Label ℕ) :=
  [.send (flowHeader 3#32) 9,.request (qcommitWord 1#32),.deliver 0,.poll,.listAdd,.pick]

theorem commit_wait_ends_sample : ∃ n : Net ℕ,
    run CommitBarrier.step waitingLabels (initNet 0 1#32) = some n ∧
      n.thr.rdma = .waiting (qcommitWord 1#32) ∧
      ∀ ls m, (∀ l ∈ ls, AllocSucceeds l) → run ownStep ls n = some m → Stuck m →
        .reply ∈ ls := by
  have hrun : (run CommitBarrier.step waitingLabels (initNet 0 1#32 : Net ℕ)).map
      (fun n => (n.thr.rdma,n.thr.srv.batch+inFlight n)) =
        some (.waiting (qcommitWord 1#32),1) := by decide +kernel
  obtain ⟨n,hn,he⟩ := Option.map_eq_some_iff.mp hrun
  obtain ⟨hw,htotal⟩ := Prod.mk.inj he
  have hg : Meets CommitBarrier.step Calm waitingLabels (initNet 0 1#32) :=
    meets_of_forall (by simp [waitingLabels, Calm]) _
  refine ⟨n,hn,hw,fun ls m ha hm hstuck =>
    ((commit_wait_ends 0 1#32 waitingLabels n hg hn _ hw).2 ls m ha hm hstuck).mpr ?_⟩
  rw [htotal]
  decide

end Maruswap.CommitWait
