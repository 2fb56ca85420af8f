import Maruswap.OpenedBlocks

/-!
# A read sees the last write, on the servers as they are

Every run of the driver and its servers is seen as one of the cluster in which a
server is its memory and its pending frames. That a server has handled all frames
when it answers a COMMIT, an assumption there, follows here from the commits being
in order at each server.
-/

set_option autoImplicit false

namespace Maruswap.DeployedReads
open WireFormat DriverStage WriterThreads WriterThreads.Writers OneWriter ReaderThreads
open GuardedRun Deployment
open CommitBarrier (Net InOrder)
open OpenedBlocks (Spaced Stocked)
open RpcCalls (nrBinders)

variable {Page : Type*} [Zero Page]

/-- One writer, sends that succeed and reach every server, RDMA reads that succeed, areas
of their own for the blocks, memory for the frames, and commits in order. -/
def Dependable : Deployment.Label Page → System Page → Prop
  | .driver l lost, d => (thread l = some 0 ∧ Answered l d.toWriters) ∧ ∀ c, lost c = false
  | .openRpc i b a, d => i = 0 ∧ Spaced (.openRpc i b a) d
  | .askCommit i _, _ => i = 0
  | .commitRpc i, _ => i = 0
  | .server c l, d => CommitBarrier.AllocSucceeds l ∧ InOrder l (d.net c)
  | .reader l, d => Reliable l (view d)

/-- Every server has been sent what the driver posted, and while its answer to a COMMIT
is awaited nothing more. -/
structure Good (d : System Page) : Prop where
  sound : ∀ c, CommitBarrier.Sound (d.net c)
  sent : ∀ c, (d.net c).sent = d.frames
  linked : Linked d.toWriters
  asked : ∀ c, d.asked c = true → (d.net c).last = d.frames.length ∧
    ∃ todo ret, d.pc 0 = .committing (c::todo) ret

theorem sound_kept {n : Net Page} (h : CommitBarrier.Sound n) : Kept n := ⟨h.ledger,h.sent⟩

omit [Zero Page] in
theorem in_order_calm {l : CommitBarrier.Label Page} {n : Net Page}
    (ha : CommitBarrier.AllocSucceeds l) (ho : InOrder l n) : Calm l n := by
  cases l with
  | convey a => exact ha
  | region alloc => exact ho
  | _ => trivial

/-- With nothing asked of it that is not answered, a server that was asked last has
copied every frame. -/
theorem answered_pending {n : Net Page} (h : CommitBarrier.Sound n) (hrpc : n.rpc = [])
    (hcur : n.current = none) (hlast : n.last = n.sent.length) : pending n = [] := by
  have hchain := h.chain
  rw [hrpc, hcur] at hchain
  have hbase : n.base = n.last := hchain
  have hroom := h.room
  have hsent := congrArg List.length h.sent
  rw [List.length_append] at hsent
  have hlisted : n.thr.listed ≤ n.thr.arrived.length := Nat.sub_le ..
  have hlist : n.thr.srv.commitList = [] := List.length_eq_zero_iff.mp (by omega)
  have hmcast : n.thr.mcast = none := by
    cases hm : n.thr.mcast with
    | none => rfl
    | some wc =>
      have hmem := (h.ledger.split wc hm).1
      rw [hlist] at hmem
      cases hmem
  have hcopied : copied n.thr = n.thr.listed := by simp [copied, hmcast]
  rw [pending, hcopied, List.drop_eq_nil_of_le (by omega)]
  rfl

omit [Zero Page] in
theorem committing_waits {l : WriterThreads.Label Page} {w u : Writers Page} {c : ℕ}
    {todo : List ℕ} {ret : U32} (hl : thread l = some 0) (hr : isRpc l = false)
    (hpc : w.pc 0 = .committing (c::todo) ret) (hs : WriterThreads.step l w = some u) :
    False := by
  have hne : ∀ i p, thread l = some i → w.pc i = p → p ≠ .committing (c::todo) ret → False := by
    intro i p hi hp hn
    obtain rfl := Option.some.inj (hl.symm.trans hi)
    exact hn (hp.symm.trans hpc)
  cases step_effect hs with
  | connect c => cases hl
  | @call i offset _ page ret' hi ho =>
    refine hne i (w.pc i) rfl rfl fun he => ?_
    rw [he] at hi
    exact hi
  | openSub outcome hi hc => cases hr
  | openMain outcome hi => cases hr
  | commitRpc tret hi => cases hr
  | resetBatch hi => exact hne _ _ rfl hi (by simp)
  | lock hi hlock => exact hne _ _ rfl hi (by simp)
  | store xa hi => exact hne _ _ rfl hi (by simp)
  | _ hi => exact hne _ _ rfl hi (by simp)

theorem multicast_sound (f : Option (U32 × Page)) {n : Net Page} (h : CommitBarrier.Sound n) :
    CommitBarrier.Sound (multicast f n) := by
  cases f with
  | none => simpa [multicast] using h
  | some f => exact CommitBarrier.send_sound f.1 f.2 n h

theorem multicast_seen (f : U32 × Page) {n : Net Page} (h : CommitBarrier.Sound n) :
    seen (multicast (some f) n) = (seen n).post ⟨n.sent.length,f.1,f.2⟩ := by
  have hcopied := copied_le (sound_kept h)
  have hpending : pending (multicast (some f) n) =
      pending n++[⟨n.sent.length,f.1,f.2⟩] := by
    rw [pending, multicast, Option.toList_some, List.drop_append_of_le_length hcopied,
      List.zipIdx_append, List.map_append, List.length_drop, Nat.add_sub_cancel' hcopied]
    rfl
  rw [seen, hpending]
  rfl

theorem served_seen {l : WriterThreads.Label Page} {d : System Page} (h : Good d) :
    served l (fun _ => false) (view d) = fun c => seen (multicast (posted l d) (d.net c)) := by
  have hnone : ∀ n : Net Page, multicast none n = n := fun n => by simp [multicast]
  funext c
  cases l with
  | post i ret =>
    by_cases hret : ret = 0#32
    · simp only [served, posted, hret, if_true]
      rw [multicast_seen _ (h.sound c), h.sent c]
      rfl
    · simp only [served, posted, hret, if_false, hnone]
      rfl
  | complete i success => simp [served, posted, hnone, view]
  | _ => exact congrArg seen (hnone _).symm

/-- What is seen of a step is nothing, or a step of the cluster. -/
def Shown (d e : System Page) : Prop :=
  view e = view d ∨
    ∃ k, Reliable k (view d) ∧ ReaderThreads.step k (view d) = some (view e)

theorem driver_shown {l : WriterThreads.Label Page} {lost : ℕ → Bool} {d e : System Page}
    (h : Good d) (hg : Dependable (.driver l lost) d)
    (hs : Deployment.step (.driver l lost) d = some e) : Good e ∧ Shown d e := by
  simp only [Deployment.step, Option.ite_none_left_eq_some, Option.map_eq_some_iff] at hs
  obtain ⟨hrpc,u,hu,rfl⟩ := hs
  have hrpc : isRpc l = false := by simpa using hrpc
  have hall : ∀ c, (if lost c then none else posted l d) = posted l d := fun c => by
    rw [hg.2 c]
    rfl
  simp only [hall]
  have hframes := frames_step hu
  refine ⟨⟨fun c => multicast_sound _ (h.sound c),fun c => ?_,
    (step_linked l _ u h.linked hg.1.1 hg.1.2 hu).1,fun c hc => ?_⟩,
    .inr ⟨.driver l (fun _ => false),⟨hg.1.1,hg.1.2,?_⟩,?_⟩⟩
  · change (d.net c).sent++(posted l d).toList = u.frames
    rw [h.sent c, hframes]
  · obtain ⟨-,todo,ret,hpc⟩ := h.asked c hc
    exact (committing_waits hg.1.1 hrpc hpc hu).elim
  · cases l with
    | commitRpc i tret => cases hrpc
    | _ => trivial
  · rw [ReaderThreads.step]
    exact Option.map_eq_some_iff.mpr ⟨u,hu,by
      rw [Cluster.drive, served_seen h]
      rfl⟩

omit [Zero Page] in
theorem open_unasked {i c : ℕ} {d : System Page} (hc : openTarget i d = some c)
    (ha : ¬asks i c d) (o o' : Option RdmaInfo) :
    WriterThreads.step (.openRpc i o) d.toWriters =
      WriterThreads.step (.openRpc i o') d.toWriters := by
  have hsame : (d.ctrl c).alive = true → ∀ o, ibRpcOpenUnlocked c (d.call i).offset o d.toDriver =
      (0#32,d.toDriver) := fun halive o => if_pos fun hkey => ha ⟨halive,hkey⟩
  simp only [WriterThreads.step]
  unfold openTarget at hc
  split
  · next hpc =>
    simp only [hpc] at hc
    rw [hc, Option.map_some, Option.map_some]
    unfold openSub
    by_cases halive : (d.ctrl c).alive
    · simp only [halive, if_true, hsame halive]
    · simp only [halive]
      rfl
  · next hpc =>
    simp only [hpc, Option.some.injEq] at hc
    subst hc
    unfold openMain
    by_cases halive : (d.ctrl d.mainRdmaCtrl).alive
    · simp only [halive, if_true, hsame halive]
    · simp only [halive]
      rfl
  · rfl

omit [Zero Page] in
theorem open_waits {c : ℕ} {d : System Page} (hc : openTarget 0 d = some c) {todo : List ℕ}
    {ret : U32} (hpc : d.pc 0 = .committing todo ret) : False := by
  simp [openTarget, hpc] at hc

theorem opened_shown {c : ℕ} {d : System Page} {u : Writers Page} {net : ℕ → Net Page}
    {info : RdmaInfo} (h : Good d) (hc : openTarget 0 d = some c)
    (hinfo : info.remoteAddr = ⟨getNumMemblock (d.call 0).offset,0⟩)
    (hu : WriterThreads.step (.openRpc 0 (some info)) d.toWriters = some u)
    (hsound : ∀ c, CommitBarrier.Sound (net c)) (hsent : ∀ c, (net c).sent = (d.net c).sent)
    (hseen : ∀ c, seen (net c) = seen (d.net c)) :
    Good { d with toWriters := u, net := net } ∧
      Shown d { d with toWriters := u, net := net } := by
  have ha : Answered (.openRpc 0 (some info)) d.toWriters :=
    ⟨info.rkey,congrArg some (by rw [← hinfo])⟩
  refine ⟨⟨hsound,fun c => ?_,(step_linked _ _ u h.linked rfl ha hu).1,fun b hb => ?_⟩,
    .inr ⟨.driver (.openRpc 0 (some info)) (fun _ => false),⟨rfl,ha,trivial⟩,?_⟩⟩
  · rw [hsent, h.sent]
    exact (quiet_step (.openRpc 0 (some info)) 0 _ u rfl hu).frames.symm
  · obtain ⟨-,todo,ret,hpc⟩ := h.asked b hb
    exact (open_waits hc hpc).elim
  · rw [ReaderThreads.step]
    refine Option.map_eq_some_iff.mpr ⟨u,hu,?_⟩
    simp only [view, hseen]
    rfl

theorem served_open {c : ℕ} {a : ServerHandlers.AllocResult} {header : U32} {d : System Page}
    {n : Net Page} {info : RdmaInfo} (h : Good d)
    (hs : serveOpen a header (d.net c) = some (n,info)) :
    (∀ x, CommitBarrier.Sound (Function.update d.net c n x)) ∧
      (∀ x, (Function.update d.net c n x).sent = (d.net x).sent) ∧
      (∀ x, (Function.update d.net c n x).last = (d.net x).last) ∧
      ∀ x, seen (Function.update d.net c n x) = seen (d.net x) := by
  have ho := serve_open (sound_kept (h.sound c)) hs
  refine ⟨fun x => ?_,fun x => ?_,fun x => ?_,fun x => ?_⟩
  all_goals rcases eq_or_ne x c with rfl | hx
  · simpa using ho.sound (h.sound x)
  · simpa [hx] using h.sound x
  · simpa using ho.served.sent
  · simp [hx]
  · simpa using ho.served.last
  · simp [hx]
  · simpa using ho.same
  · simp [hx]

theorem open_shown {b : ℕ} {a : ServerHandlers.AllocResult} {d e : System Page} (h : Good d)
    (hst : Stocked d) (hg : Dependable (.openRpc 0 b a) d)
    (hs : Deployment.step (.openRpc 0 b a) d = some e) : Good e ∧ Shown d e := by
  cases open_effect hs with
  | @known c u hc hasks hu =>
    rw [open_unasked hc hasks none
      (some ⟨⟨getNumMemblock (d.call 0).offset,0⟩,0#32⟩)] at hu
    exact opened_shown h hc rfl hu h.sound (fun _ => rfl) (fun _ => rfl)
  | @answered c n info u hc hb hserve hu =>
    obtain ⟨hsound,hsent,-,hseen⟩ := served_open h hserve
    have hlt := OpenedBlocks.target_lt hst.opened.wired hc
    have haddr := (opened_addr (hst.apart c hlt) (hg.2 c hc) hserve).2
    rw [open_block _ hb] at haddr
    exact opened_shown h hc haddr hu hsound hsent hseen
  | @astray c n info hc hserve hbinder =>
    obtain ⟨hsound,hsent,hlast,hseen⟩ := served_open h hserve
    refine ⟨⟨hsound,fun x => (hsent x).trans (h.sent x),h.linked,fun x hx => ?_⟩,.inl ?_⟩
    · obtain ⟨hupto,hpc⟩ := h.asked x hx
      exact ⟨(hlast x).trans hupto,hpc⟩
    · simp only [view, hseen]

theorem ask_shown {b : ℕ} {d e : System Page} (h : Good d)
    (hs : Deployment.step (.askCommit 0 b) d = some e) : Good e ∧ Shown d e := by
  simp only [Deployment.step] at hs
  split at hs
  · next c todo ret hpc =>
    obtain ⟨-,hs⟩ := Option.ite_none_right_eq_some.mp hs
    obtain ⟨n,hn,rfl⟩ := Option.map_eq_some_iff.mp hs
    simp only [CommitBarrier.step, Option.ite_none_right_eq_some] at hn
    obtain ⟨-,hn⟩ := hn
    obtain rfl := Option.some.inj hn
    refine ⟨⟨fun x => ?_,fun x => ?_,h.linked,fun x hx => ?_⟩,.inl ?_⟩
    · rcases eq_or_ne x c with rfl | hne
      · simpa using CommitBarrier.request_sound _ _ (h.sound x)
      · simpa [hne] using h.sound x
    · rcases eq_or_ne x c with rfl | hne
      · simpa using h.sent x
      · simpa [hne] using h.sent x
    · rcases eq_or_ne x c with rfl | hne
      · exact ⟨by simp [h.sent],todo,ret,hpc⟩
      · simp only [Function.update_of_ne hne] at hx ⊢
        exact h.asked x hx
    · simp only [view, Cluster.mk.injEq, true_and, and_true]
      funext x
      rcases eq_or_ne x c with rfl | hne
      · simp [seen, pending]
      · simp [hne]
  · cases hs

theorem commit_shown {d e : System Page} (h : Good d)
    (hs : Deployment.step (.commitRpc 0) d = some e) : Good e ∧ Shown d e := by
  simp only [Deployment.step] at hs
  split at hs
  · next c todo ret hpc =>
    obtain ⟨hgate,hs⟩ := Option.ite_none_right_eq_some.mp hs
    obtain ⟨u,hu,rfl⟩ := Option.map_eq_some_iff.mp hs
    obtain ⟨hasked,hrpc,hcur⟩ := hgate (h.linked.connected.alive c)
    have hlast := (h.asked c hasked).1
    rw [← h.sent c] at hlast
    have hnone := answered_pending (h.sound c) hrpc (Option.isNone_iff_eq_none.mp hcur) hlast
    have hq := quiet_step (.commitRpc 0 0#32) 0 _ u rfl hu
    refine ⟨⟨h.sound,fun x => (h.sent x).trans hq.frames.symm,
      (step_linked (.commitRpc 0 0#32) _ u h.linked rfl rfl hu).1,fun x hx => ?_⟩,
      .inr ⟨.driver (.commitRpc 0 0#32) (fun _ => false),⟨rfl,rfl,?_⟩,?_⟩⟩
    · rcases eq_or_ne x c with rfl | hne
      · simp at hx
      · simp only [Function.update_of_ne hne] at hx
        obtain ⟨-,rest,ret',hpc'⟩ := h.asked x hx
        simp only [hpc, Pc.committing.injEq, List.cons.injEq] at hpc'
        exact absurd hpc'.1.1.symm hne
    · intro x rest ret' hpc'
      change d.pc 0 = _ at hpc'
      simp only [hpc, Pc.committing.injEq, List.cons.injEq] at hpc'
      obtain ⟨⟨rfl,-⟩,-⟩ := hpc'
      exact hnone
    · rw [ReaderThreads.step]
      exact Option.map_eq_some_iff.mpr ⟨u,hu,rfl⟩
  · cases hs

theorem server_shown {c : ℕ} {l : CommitBarrier.Label Page} {d e : System Page} (h : Good d)
    (hg : Dependable (.server c l) d) (hs : Deployment.step (.server c l) d = some e) :
    Good e ∧ Shown d e := by
  simp only [Deployment.step, Option.ite_none_left_eq_some, Option.map_eq_some_iff] at hs
  obtain ⟨hl,n,hn,rfl⟩ := hs
  have hv := server_step (sound_kept (h.sound c)) (by simpa using hl)
    (in_order_calm hg.1 hg.2) hn
  have hview : view { d with net := Function.update d.net c n } =
      { view d with server := Function.update (view d).server c (seen n) } := by
    simp only [view, Cluster.mk.injEq, true_and, and_true]
    funext x
    rcases eq_or_ne x c with rfl | hne
    · simp
    · simp [hne]
  refine ⟨⟨fun x => ?_,fun x => ?_,h.linked,fun x hx => ?_⟩,?_⟩
  · rcases eq_or_ne x c with rfl | hne
    · simpa using CommitBarrier.step_sound l _ n (h.sound x) hg hn
    · simpa [hne] using h.sound x
  · rcases eq_or_ne x c with rfl | hne
    · simpa using hv.sent.trans (h.sent x)
    · simpa [hne] using h.sent x
  · obtain ⟨hlast,hpc⟩ := h.asked x hx
    refine ⟨?_,hpc⟩
    rcases eq_or_ne x c with rfl | hne
    · simpa using hv.last.trans hlast
    · simpa [hne] using hlast
  · rcases hv.seen with hseen | hseen
    · refine .inl (hview.trans ?_)
      rw [hseen]
      exact congrArg (fun s => { view d with server := s }) (Function.update_eq_self ..)
    · refine .inr ⟨.deliver c 0,trivial,?_⟩
      rw [hview]
      exact Option.map_eq_some_iff.mpr ⟨seen n,hseen,rfl⟩

omit [Zero Page] in
theorem read_step {l : ReaderThreads.Label Page} {w v : Cluster Page} (hl : isRead l = true)
    (hs : ReaderThreads.step l w = some v) : v = { w with reader := v.reader } := by
  cases l with
  | driver l lost => cases hl
  | deliver c k => cases hl
  | read r offset odd =>
    obtain ⟨-,hs⟩ := Option.ite_none_right_eq_some.mp hs
    obtain ⟨c,-,rfl⟩ := Option.map_eq_some_iff.mp hs
    rfl
  | load r =>
    obtain ⟨-,hs⟩ := Option.ite_none_right_eq_some.mp hs
    obtain rfl := Option.some.inj hs
    rfl
  | issue r ret =>
    obtain ⟨-,hs⟩ := Option.ite_none_right_eq_some.mp hs
    obtain rfl := Option.some.inj hs
    rfl
  | rdmaRead r ret =>
    simp only [ReaderThreads.step] at hs
    split at hs
    · obtain rfl := Option.some.inj hs
      rfl
    · cases hs

theorem reader_shown {l : ReaderThreads.Label Page} {d e : System Page} (h : Good d)
    (hg : Dependable (.reader l) d) (hs : Deployment.step (.reader l) d = some e) :
    Good e ∧ Shown d e := by
  obtain ⟨hl,hs⟩ := Option.ite_none_right_eq_some.mp hs
  obtain ⟨w,hw,rfl⟩ := Option.map_eq_some_iff.mp hs
  have hview : view { d with reader := w.reader } = w := (read_step hl hw).symm
  exact ⟨⟨h.sound,h.sent,h.linked,h.asked⟩,.inr ⟨l,hg,hw.trans (congrArg some hview.symm)⟩⟩

theorem step_shown (l : Deployment.Label Page) (d e : System Page) (h : Good d)
    (hst : Stocked d) (hg : Dependable l d) (hs : Deployment.step l d = some e) :
    Good e ∧ Shown d e := by
  cases l with
  | driver l lost => exact driver_shown h hg hs
  | openRpc i b a =>
    obtain rfl : i = 0 := hg.1
    exact open_shown h hst hg hs
  | askCommit i b =>
    obtain rfl : i = 0 := hg
    exact ask_shown h hs
  | commitRpc i =>
    obtain rfl : i = 0 := hg
    exact commit_shown h hs
  | server c l => exact server_shown h hg hs
  | reader l => exact reader_shown h hg hs

theorem dependable_spaced {l : Deployment.Label Page} {d : System Page}
    (h : Dependable l d) : Spaced l d := by
  cases l with
  | openRpc i b a => exact h.2
  | _ => trivial

theorem init_view (stage : ℕ → Page) (call : ℕ → Call Page) (base : ℕ → ℕ) (rkey : ℕ → U32) :
    view (initDeployment stage call base rkey) = initCluster stage call
      (fun c => memory (CommitBarrier.initNet (base c) (rkey c) : Net Page).thr.srv) := rfl

theorem init_good (stage : ℕ → Page) (call : ℕ → Call Page) (base : ℕ → ℕ) (rkey : ℕ → U32) :
    Good (initDeployment stage call base rkey) where
  sound := fun _ => CommitBarrier.init_sound _ _
  sent := fun _ => rfl
  linked := (ReadYourWrites.init_faithful stage call fun _ _ => 0).held.alone.linked
  asked := nofun

def Ends (d : System Page) (r : ℕ) : Prop :=
  ∃ ls e ret, run Deployment.step ls d = some e ∧ Meets Deployment.step Dependable ls d ∧
    (e.reader r).pc = .returned ret ∧ (e.reader r).expect = (d.reader r).expect

theorem ends_of_step {l : ReaderThreads.Label Page} {d e : System Page} {r : ℕ}
    (hs : Deployment.step (.reader l) d = some e) (hg : Reliable l (view d))
    (hx : (e.reader r).expect = (d.reader r).expect) (he : Ends e r) : Ends d r := by
  obtain ⟨ls,f,ret,hrun,hmeets,hpc,hsame⟩ := he
  have hall : run Deployment.step (.reader l::ls) d = some f ∧
      Meets Deployment.step Dependable (.reader l::ls) d := guarded_cons hs hg ⟨hrun,hmeets⟩
  exact ⟨_,f,ret,hall.1,hall.2,hpc,hsame.trans hx⟩

theorem returned_ends {d : System Page} {r : ℕ} (ret : U32)
    (hpc : (d.reader r).pc = .returned ret) : Ends d r :=
  ⟨[],d,ret,rfl,trivial,hpc,rfl⟩

theorem issued_ends {d : System Page} {r : ℕ} (addr : Ptr)
    (hpc : (d.reader r).pc = .issued addr) : Ends d r := by
  have hs : Deployment.step (.reader (.rdmaRead r 0#32)) d = some { d with
      reader := Function.update d.reader r { d.reader r with
        pc := .returned 0#32
        page := some (((view d).server (d.reader r).ctrl).memory addr) } } := by
    simp [Deployment.step, isRead, ReaderThreads.step, view, hpc, Cluster.setReader]
  exact ends_of_step hs rfl (by simp) (returned_ends 0#32 (by simp))

theorem missed_ends {d : System Page} {r : ℕ} (hpc : (d.reader r).pc = .missed) :
    Ends d r := by
  have hs : Deployment.step (.reader (.issue r 0#32)) d = some { d with
      reader := Function.update d.reader r { d.reader r with
        pc := .issued (readAddr d.toDriver (d.reader r)) } } := by
    simp [Deployment.step, isRead, ReaderThreads.step, view, hpc, Cluster.setReader]
  exact ends_of_step hs rfl (by simp)
    (issued_ends (readAddr d.toDriver (d.reader r)) (by simp))

theorem loading_ends {d : System Page} {r : ℕ} (hpc : (d.reader r).pc = .loading) :
    Ends d r := by
  have hs : Deployment.step (.reader (.load r)) d = some { d with
      reader := Function.update d.reader r (stageLoad d.stageBuffer (d.reader r)) } := by
    simp [Deployment.step, isRead, ReaderThreads.step, view, hpc, Cluster.setReader]
  refine ends_of_step hs trivial ?_ ?_
  · simp only [Function.update_self, stageLoad]
    split <;> rfl
  · cases hl : stageBufferLoad (d.reader r).offset d.stageBuffer with
    | some page => exact returned_ends 0#32 (by simp [stageLoad, hl])
    | none => exact missed_ends (by simp [stageLoad, hl])

/-- A read that expects `v` returns with nothing else and can always return. -/
structure ReadsBack (d : System Page) (r : ℕ) (v : Page) : Prop where
  returned : ∀ ret, (d.reader r).pc = .returned ret → ret = 0#32 ∧ (d.reader r).page = some v
  returns : ∃ ls e, run Deployment.step ls d = some e ∧ (e.reader r).pc = .returned 0#32 ∧
    (e.reader r).page = some v

theorem run_faithful {stage : ℕ → Page} {call : ℕ → Call Page} {base : ℕ → ℕ}
    {rkey : ℕ → U32} {ls : List (Deployment.Label Page)} {d : System Page}
    (hg : Meets Deployment.step Dependable ls (initDeployment stage call base rkey))
    (h : run Deployment.step ls (initDeployment stage call base rkey) = some d) :
    ReadYourWrites.Faithful (view d) := by
  have hstep : ∀ (l : Deployment.Label Page) (s t : System Page), Good s ∧ Stocked s →
      Dependable l s → Deployment.step l s = some t → Good t ∧ Stocked t :=
    fun l s t hs hl ht => ⟨(step_shown l s t hs.1 hs.2 hl ht).1,
      OpenedBlocks.step_stocked l s t hs.2 (dependable_spaced hl) ht⟩
  obtain ⟨ks,hrun,hmeets⟩ := run_simulates view hstep
    (fun l s t hs hl ht => (step_shown l s t hs.1 hs.2 hl ht).2)
    ⟨init_good stage call base rkey,OpenedBlocks.init_stocked stage call base rkey⟩ hg h
  rw [init_view] at hrun hmeets
  exact run_invariant ReadYourWrites.step_faithful (ReadYourWrites.init_faithful ..) hmeets hrun

/-- The first write of all, which opens its block on both servers, its frame on its way
into the memory of one of them, and a read of its page. -/
def readBackLabels : List (Deployment.Label ℕ) :=
  [.driver (.call 0 0x40000#32 7 0#32) (fun _ => false),.driver (.lock 0) (fun _ => false),
    .driver (.check 0) (fun _ => false),.openRpc 0 0 ⟨some 3,some 1#32⟩,
    .openRpc 0 1 ⟨some 4,some 2#32⟩,.driver (.test 0) (fun _ => false),
    .driver (.count 0) (fun _ => false),.driver (.post 0 0#32) (fun _ => false),
    .driver (.store 0 true) (fun _ => false),.server 1 (.deliver 0),.server 1 .poll,
    .server 1 .listAdd,.server 1 (.convey ⟨some 5,some 1#32⟩),
    .driver (.complete 0 true) (fun _ => false),.reader (.read 0 0x40000#32 true),
    .reader (.load 0)]

end Maruswap.DeployedReads
