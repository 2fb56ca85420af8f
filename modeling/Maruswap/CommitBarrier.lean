import Maruswap.ServerThreads

/-!
# The commit barrier

A client multicasts FLOW frames on one channel and sends commit requests on
another. Both channels are reliable and first-in first-out; nothing orders one
against the other. Any number of frames and requests may be under way. A
request carries as ghosts how many frames the client had multicast before it,
in all and since its previous commit.
-/

set_option autoImplicit false

namespace Maruswap.CommitBarrier
open WireFormat ServerHandlers ServerThreads GuardedRun

variable {Page : Type*}

/-- `CONFIG_BATCH` of drive/ib.h; the lib test client uses the server's own. -/
def driverBatch : ℕ := 2^10

structure Request where
  immData : U32
  upto : ℕ
  since : ℕ

/-- `last` is what the client's previous request counted, `base` what the last
request to be answered counted; `sent` lists every frame ever multicast. -/
structure Net (Page : Type*) where
  thr : Threads Page
  channel : List (U32 × Page)
  rpc : List Request
  current : Option Request
  sent : List (U32 × Page)
  last : ℕ
  base : ℕ

inductive Label (Page : Type*) where
  | send (header : U32) (payload : Page)
  | request (immData : U32)
  | deliver (w : ℕ)
  | poll
  | listAdd
  | convey (a : AllocResult)
  | pick
  | pass
  | region (alloc : ℕ → AllocResult)
  | reply

section Step
variable [Zero Page]

def serverStep (l : ServerThreads.Label Page) (n : Net Page) : Option (Net Page) :=
  (ServerThreads.step l n.thr).map fun t => { n with thr := t }

def step : Label Page → Net Page → Option (Net Page)
  | .send header payload, n =>
    if ibGetOpcode header = multicastOpcodeFlow ∧ InTable header then
      some { n with
        channel := n.channel++[(header,payload)]
        sent := n.sent++[(header,payload)] }
    else none
  | .request immData, n =>
    if IsCommit immData then
      some { n with
        rpc := n.rpc++[⟨immData,n.sent.length,n.sent.length-n.last⟩]
        last := n.sent.length }
    else none
  | .deliver w, n => match n.channel with
    | (header,payload)::rest =>
      serverStep (.arrive header payload w) { n with channel := rest }
    | [] => none
  | .poll, n => serverStep .poll n
  | .listAdd, n => serverStep .listAdd n
  | .convey a, n => serverStep (.convey a) n
  | .pick, n => match n.rpc with
    | r::rest => serverStep (.pick r.immData) { n with rpc := rest, current := some r }
    | [] => none
  | .pass, n => serverStep .pass n
  | .region alloc, n => serverStep (.region alloc) n
  | .reply, n => serverStep .reply
    { n with current := none, base := (n.current.map Request.upto).getD n.base }

def initNet (buffer : ℕ) (rkey : U32) : Net Page :=
  ⟨initThreads buffer rkey,[],[],none,[],0,0⟩

end Step

def Copied (n : Net Page) (f : ℕ) : Prop :=
  ∃ header payload, n.sent[f]? = some (header,payload) ∧
    .convey f (blockOf (pageOffset header)) (byteOf (pageOffset header)) payload ∈ n.thr.srv.log

def Promised (r : Request) : Prop :=
  ibGetOpcode r.immData = opcodeCommit ∨
    (ibGetOpcode r.immData = opcodeQcommit ∧ commitNeed r.immData = r.since)

/-- When the server sends its reply every earlier frame is in its page. -/
def Barrier (n : Net Page) : Prop :=
  ∀ r immData, n.current = some r → n.thr.rdma = .replying immData → Promised r →
    ∀ f < r.upto, Copied n f

def AllocSucceeds : Label Page → Prop
  | .convey a => a.Succeeds
  | .region alloc => ∀ w, (alloc w).Succeeds
  | _ => True

/-- The empty-list reply is taken only by a request all of whose frames have been put on
the list; the counter the wait loop ends on has reached the client's own count; and the
locked region splits no frame. -/
def InOrder : Label Page → Net Page → Prop
  | .pick, n => n.thr.srv.commitList = [] → ∀ r ∈ n.rpc.head?, r.upto ≤ n.thr.listed
  | .pass, n => ∀ r ∈ n.current, r.since ≤ n.thr.srv.batch
  | .region _, n => n.thr.mcast = none
  | _, _ => True

/-- The counts of the queued requests continue from `b` up to the client's own. -/
def Chained : ℕ → List Request → ℕ → Prop
  | b, [], l => b = l
  | b, r::rs, l => r.upto = b+r.since ∧ Chained r.upto rs l

theorem Chained.snoc {b l k : ℕ} {rs : List Request} (h : Chained b rs l) (hk : l ≤ k)
    (immData : U32) : Chained b (rs++[⟨immData,k,k-l⟩]) k := by
  induction rs generalizing b with
  | nil =>
    have hb : b = l := h
    refine ⟨?_,rfl⟩
    change k = b+(k-l)
    omega
  | cons r rs ih => exact ⟨h.1,ih h.2⟩

def Owed (n : Net Page) : Prop :=
  match n.current, n.thr.rdma with
  | none, .idle => True
  | some r, .waiting _ => r.upto = n.base+r.since
  | some r, .passed _ => r.upto ≤ n.thr.listed
  | some r, .replying _ => r.upto+n.thr.srv.commitList.length ≤ n.thr.listed
  | _, _ => False

section Steps
variable [Zero Page]

structure Sound (n : Net Page) : Prop where
  ledger : Ledger n.thr
  sent : n.sent = n.thr.arrived++n.channel
  last : n.last ≤ n.sent.length
  chain : Chained ((n.current.map Request.upto).getD n.base) n.rpc n.last
  room : n.base+n.thr.srv.commitList.length ≤ n.thr.listed
  owed : Owed n

/-- A frame the reply vouches for is neither on its way nor being handled: the
one being handled is the last listed, and it is on the list. -/
theorem Sound.barrier {n : Net Page} (h : Sound n) : Barrier n := by
  intro r immData hr hpc _ f hf
  have howed := h.owed
  simp only [Owed, hr, hpc] at howed
  have honce : conveys f n.thr.srv.log = 1 := by
    refine h.ledger.once f (by omega) (fun wc hwc he => ?_)
    obtain ⟨hwl,-,-,hlast,-⟩ := h.ledger.split wc hwc
    have := List.length_pos_of_mem hwl
    omega
  obtain ⟨e,he,hf'⟩ := List.countP_pos_iff.mp (show 0 < conveys f n.thr.srv.log by omega)
  cases e with
  | convey g block byte content =>
    have hg : g = f := by simpa [isConvey] using hf'
    subst hg
    obtain ⟨header,ha,rfl,rfl⟩ := h.ledger.placed g block byte content he
    refine ⟨header,content,?_,he⟩
    rw [h.sent]
    exact List.getElem?_append_left (List.getElem?_eq_some_iff.mp ha).1 ▸ ha
  | repost g => simp [isConvey] at hf'
  | reset => simp [isConvey] at hf'
  | opened immData addr rkey => simp [isConvey] at hf'
  | committed immData => simp [isConvey] at hf'

/-- A move of the multicast side: the list grows no faster than the frames are
listed, and the RDMA thread stays where it is. -/
structure Moved (t u : Threads Page) : Prop where
  ledger : Ledger u
  rdma : u.rdma = t.rdma
  listed : t.listed ≤ u.listed
  list : t.listed+u.srv.commitList.length ≤ u.listed+t.srv.commitList.length

theorem Moved.owed {n : Net Page} {u : Threads Page} (h : Moved n.thr u) (ho : Owed n)
    (channel : List (U32 × Page)) : Owed { n with thr := u, channel := channel } := by
  have hp := h.listed
  have hl := h.list
  unfold Owed at ho ⊢
  simp only [h.rdma]
  cases hc : n.current <;> cases hr : n.thr.rdma <;> simp only [hc, hr] at ho ⊢ <;> omega

theorem Moved.sound {n : Net Page} {u : Threads Page} (h : Moved n.thr u) (hs : Sound n)
    (harr : u.arrived = n.thr.arrived) : Sound { n with thr := u } := by
  refine ⟨h.ledger,?_,hs.last,hs.chain,?_,h.owed hs.owed n.channel⟩
  · change n.sent = u.arrived++n.channel
    rw [harr]
    exact hs.sent
  · have hr := hs.room
    have hl := h.list
    change n.base+u.srv.commitList.length ≤ u.listed
    omega

theorem batch_le_list {t : Threads Page} (h : Ledger t) :
    t.srv.batch ≤ t.srv.commitList.length :=
  (Nat.le_add_right _ _).trans (le_of_eq h.batch)

theorem send_sound (header : U32) (payload : Page) (n : Net Page) (h : Sound n) :
    Sound { n with
      channel := n.channel++[(header,payload)]
      sent := n.sent++[(header,payload)] } := by
  refine ⟨h.ledger,?_,?_,h.chain,h.room,h.owed⟩
  · rw [h.sent, List.append_assoc]
  · rw [List.length_append]
    exact h.last.trans (Nat.le_add_right _ _)

theorem request_sound (immData : U32) (n : Net Page) (h : Sound n) :
    Sound { n with
      rpc := n.rpc++[⟨immData,n.sent.length,n.sent.length-n.last⟩]
      last := n.sent.length } :=
  ⟨h.ledger,h.sent,le_refl _,h.chain.snoc h.last immData,h.room,h.owed⟩

theorem flow_convey_list (a : AllocResult) (wc : Wc) (s : Server Page) :
    (flowConvey a wc s).commitList = s.commitList := by
  unfold flowConvey
  split
  · rfl
  · rcases ib_convey_page_cases a wc s with ⟨-,hc⟩ | ⟨he,-,-⟩
    · exact hc.commitList
    · rw [he]

theorem region_list (alloc : ℕ → AllocResult) (s : Server Page) :
    (commitRegion alloc s).commitList = [] := by
  rw [commitRegion, drain_eq _ _ rfl]
  rfl

theorem deliver_sound (header : U32) (payload : Page) (w : ℕ) (rest : List (U32 × Page))
    (n m : Net Page) (h : Sound n) (hc : n.channel = (header,payload)::rest)
    (hs : serverStep (.arrive header payload w) { n with channel := rest } = some m) :
    Sound m := by
  obtain ⟨u,hu,rfl⟩ := Option.map_eq_some_iff.mp hs
  have hl := step_ledger (.arrive header payload w) _ _ h.ledger trivial hu
  simp only [ServerThreads.step, Option.ite_none_right_eq_some] at hu
  obtain rfl := Option.some.inj hu.2
  have hmv : Moved n.thr (arrive header payload w n.thr) :=
    ⟨hl,rfl,(arrive_listed header payload w n.thr).ge,by
      rw [arrive_listed]
      simp [arrive, deliver]⟩
  refine ⟨hl,?_,h.last,h.chain,?_,hmv.owed h.owed rest⟩
  · change n.sent = (n.thr.arrived++[(header,payload)])++rest
    rw [h.sent, hc, List.append_assoc]
    rfl
  · have hr := h.room
    have hp := hmv.list
    change n.base+(arrive header payload w n.thr).srv.commitList.length ≤
      (arrive header payload w n.thr).listed
    omega

theorem poll_sound (n m : Net Page) (h : Sound n) (hs : serverStep .poll n = some m) :
    Sound m := by
  obtain ⟨u,hu,rfl⟩ := Option.map_eq_some_iff.mp hs
  have hl := step_ledger .poll _ _ h.ledger trivial hu
  obtain ⟨wc,cq,ht,-,hq,rfl⟩ := poll_cases hu
  have hlisted : Threads.listed { n.thr with cq := cq, taken := some wc } = n.thr.listed := by
    simp [Threads.listed, Threads.queue, ht, hq]
  exact Moved.sound ⟨hl,rfl,hlisted.ge,by rw [hlisted]⟩ h rfl

theorem list_add_sound (n m : Net Page) (h : Sound n) (hs : serverStep .listAdd n = some m) :
    Sound m := by
  obtain ⟨u,hu,rfl⟩ := Option.map_eq_some_iff.mp hs
  have hl := step_ledger .listAdd _ _ h.ledger trivial hu
  obtain ⟨wc,ht,rfl⟩ := Option.map_eq_some_iff.mp hu
  have hlisted := list_flow_listed h.ledger ht
  refine Moved.sound ⟨hl,rfl,by omega,?_⟩ h rfl
  have hlist : (listFlow wc n.thr).srv.commitList.length = n.thr.srv.commitList.length+1 := rfl
  omega

theorem convey_sound (a : AllocResult) (ha : a.Succeeds) (n m : Net Page) (h : Sound n)
    (hs : serverStep (.convey a) n = some m) : Sound m := by
  obtain ⟨u,hu,rfl⟩ := Option.map_eq_some_iff.mp hs
  have hl := step_ledger (.convey a) _ _ h.ledger ha hu
  obtain ⟨wc,-,rfl⟩ := Option.map_eq_some_iff.mp hu
  refine Moved.sound ⟨hl,rfl,le_refl _,?_⟩ h rfl
  exact le_of_eq (congrArg (fun ws => n.thr.listed+List.length ws)
    (flow_convey_list a wc n.thr.srv))

theorem pick_sound (r : Request) (rest : List Request) (n m : Net Page) (h : Sound n)
    (hr : n.rpc = r::rest)
    (hg : n.thr.srv.commitList = [] → r.upto ≤ n.thr.listed)
    (hs : serverStep (.pick r.immData) { n with rpc := rest, current := some r } = some m) :
    Sound m := by
  obtain ⟨u,hu,rfl⟩ := Option.map_eq_some_iff.mp hs
  simp only [ServerThreads.step, Option.ite_none_right_eq_some] at hu
  obtain ⟨⟨hidle,-⟩,hu⟩ := hu
  obtain rfl := Option.some.inj hu
  have hnone : n.current = none := by
    have ho := h.owed
    unfold Owed at ho
    cases hc : n.current with
    | none => rfl
    | some q => simp [hc, hidle] at ho
  have hchain := h.chain
  rw [hr, hnone] at hchain
  refine ⟨rdma_ledger _ h.ledger _,h.sent,h.last,hchain.2,h.room,?_⟩
  by_cases he : n.thr.srv.commitList = []
  · have := hg he
    simpa [Owed, he, Threads.listed, Threads.queue] using this
  · simpa [Owed, he] using hchain.1

theorem pass_sound (n m : Net Page) (h : Sound n)
    (hg : ∀ r ∈ n.current, r.since ≤ n.thr.srv.batch)
    (hs : serverStep .pass n = some m) : Sound m := by
  obtain ⟨u,hu,rfl⟩ := Option.map_eq_some_iff.mp hs
  have ho := h.owed
  have hroom := h.room
  have hbatch := batch_le_list h.ledger
  simp only [ServerThreads.step] at hu
  cases hr : n.thr.rdma with
  | waiting immData =>
    simp only [hr, Option.ite_none_right_eq_some] at hu
    obtain rfl := Option.some.inj hu.2
    refine ⟨rdma_ledger _ h.ledger _,h.sent,h.last,h.chain,h.room,?_⟩
    cases hc : n.current with
    | none => simp [Owed, hc, hr] at ho
    | some r =>
      have hu := hg r (by simp [hc])
      simp only [Owed, hc, hr] at ho
      -- the counter counts entries of the list, which lie past the last commit
      have : r.upto ≤ n.thr.listed := by omega
      simpa [Owed, hc, Threads.listed, Threads.queue] using this
  | idle => simp [hr] at hu
  | passed immData => simp [hr] at hu
  | replying immData => simp [hr] at hu

theorem region_sound (alloc : ℕ → AllocResult) (n m : Net Page) (h : Sound n)
    (hg : n.thr.mcast = none) (hs : serverStep (.region alloc) n = some m) : Sound m := by
  obtain ⟨u,hu,rfl⟩ := Option.map_eq_some_iff.mp hs
  have ho := h.owed
  have hroom := h.room
  simp only [ServerThreads.step] at hu
  cases hr : n.thr.rdma with
  | passed immData =>
    simp only [hr, Option.some.injEq] at hu
    subst hu
    refine ⟨region_ledger alloc _ h.ledger hg _,h.sent,h.last,h.chain,?_,?_⟩
    · change n.base+(commitRegion alloc n.thr.srv).commitList.length ≤ n.thr.listed
      rw [region_list, List.length_nil]
      omega
    · cases hc : n.current with
      | none => simp [Owed, hc, hr] at ho
      | some r =>
        simp only [Owed, hc, hr] at ho
        have hp : r.upto+(commitRegion alloc n.thr.srv).commitList.length ≤ n.thr.listed := by
          rw [region_list, List.length_nil]
          omega
        simpa [Owed, hc, Threads.listed, Threads.queue] using hp
  | idle => simp [hr] at hu
  | waiting immData => simp [hr] at hu
  | replying immData => simp [hr] at hu

theorem reply_sound (n m : Net Page) (h : Sound n)
    (hs : serverStep .reply { n with
      current := none, base := (n.current.map Request.upto).getD n.base } = some m) :
    Sound m := by
  obtain ⟨u,hu,rfl⟩ := Option.map_eq_some_iff.mp hs
  have hl := step_ledger .reply _ _ h.ledger trivial hu
  have ho := h.owed
  simp only [ServerThreads.step] at hu
  cases hr : n.thr.rdma with
  | replying immData =>
    simp only [hr, Option.some.injEq] at hu
    subst hu
    refine ⟨hl,h.sent,h.last,h.chain,?_,trivial⟩
    cases hc : n.current with
    | none => simp [Owed, hc, hr] at ho
    | some r =>
      simp only [Owed, hc, hr] at ho
      exact ho
  | idle => simp [hr] at hu
  | waiting immData => simp [hr] at hu
  | passed immData => simp [hr] at hu

theorem step_sound (l : Label Page) (n m : Net Page) (h : Sound n)
    (hg : AllocSucceeds l ∧ InOrder l n) (hs : step l n = some m) : Sound m := by
  cases l with
  | send header payload =>
    simp only [step, Option.ite_none_right_eq_some] at hs
    exact Option.some.inj hs.2 ▸ send_sound header payload n h
  | request immData =>
    simp only [step, Option.ite_none_right_eq_some] at hs
    exact Option.some.inj hs.2 ▸ request_sound immData n h
  | deliver w =>
    cases hc : n.channel with
    | nil => simp [step, hc] at hs
    | cons e rest =>
      simp only [step, hc] at hs
      exact deliver_sound e.1 e.2 w rest n m h hc hs
  | poll => exact poll_sound n m h hs
  | listAdd => exact list_add_sound n m h hs
  | convey a => exact convey_sound a hg.1 n m h hs
  | pick =>
    cases hr : n.rpc with
    | nil => simp [step, hr] at hs
    | cons r rest =>
      simp only [step, hr] at hs
      exact pick_sound r rest n m h hr (fun he => hg.2 he r (by simp [hr])) hs
  | pass => exact pass_sound n m h hg.2 hs
  | region alloc => exact region_sound alloc n m h hg.2 hs
  | reply => exact reply_sound n m h hs

theorem init_sound (buffer : ℕ) (rkey : U32) : Sound (initNet buffer rkey : Net Page) :=
  ⟨init_ledger buffer rkey,rfl,le_refl _,rfl,Nat.le_refl _,trivial⟩

/-- The commit barrier over every run of both channels and both threads whose
commits meet `InOrder`; what has been copied is what the pages hold. -/
theorem commit_barrier (buffer : ℕ) (rkey : U32) (ls : List (Label Page)) (n : Net Page)
    (ha : ∀ l ∈ ls, AllocSucceeds l) (hg : Meets step InOrder ls (initNet buffer rkey))
    (h : run step ls (initNet buffer rkey) = some n) : Barrier n ∧ Replayed n.thr.srv := by
  have hn := run_invariant step_sound (init_sound buffer rkey)
    ((meets_of_forall (fun l hl _ => ha l hl) _).and hg) h
  exact ⟨hn.barrier,hn.ledger.replayed⟩

def sampleLabels : List (Label ℕ) :=
  [.send (flowHeader 3#32) 9,.request (qcommitWord 1#32),.deliver 0,.poll,.listAdd,
    .convey ⟨some 0,some 1#32⟩,.pick,.pass,.region (fun _ => ⟨some 0,some 1#32⟩)]

theorem commit_barrier_sample : ∃ n : Net ℕ,
    run step sampleLabels (initNet 0 1#32) = some n ∧
      n.thr.rdma = .replying (qcommitWord 1#32) ∧ Barrier n ∧ Replayed n.thr.srv := by
  have hrun : (run step sampleLabels (initNet 0 1#32)).map (fun n => n.thr.rdma) =
      some (.replying (qcommitWord 1#32)) := by decide +kernel
  obtain ⟨n,hn,hpc⟩ := Option.map_eq_some_iff.mp hrun
  have hlist : (run step (sampleLabels.take 6) (initNet 0 1#32)).map
      (fun n => n.thr.srv.commitList) = some [0] := by decide +kernel
  have hcount : ∀ u ∈ run step (sampleLabels.take 7) (initNet 0 1#32),
      u.current.map Request.since = some 1 ∧ u.thr.srv.batch = 1 := by
    decide +kernel
  have hsplit : ∀ v ∈ run step (sampleLabels.take 8) (initNet 0 1#32),
      v.thr.mcast.isNone = true := by decide +kernel
  have ha : ∀ l ∈ sampleLabels, AllocSucceeds l := by
    simp [sampleLabels, AllocSucceeds, AllocResult.Succeeds]
  have hg : Meets step InOrder sampleLabels (initNet 0 1#32) := by
    change Meets step InOrder (sampleLabels.take 6++[.pick,.pass,.region _]) _
    refine meets_append (meets_of_forall (by simp [sampleLabels, InOrder]) _) (fun m hm => ?_)
    rw [hm] at hlist
    have hm6 : ∀ u, step .pick m = some u →
        run step (sampleLabels.take 6++[.pick]) (initNet 0 1#32) = some u := fun u hu =>
      run_trans hm (by simp [run, hu])
    have hm7 : ∀ u v, step .pick m = some u → step .pass u = some v →
        run step ((sampleLabels.take 6++[.pick])++[.pass]) (initNet 0 1#32) = some v :=
      fun u v hu hv =>
      run_trans (hm6 u hu) (by simp [run, hv])
    refine ⟨fun he => ?_,fun u hu => ⟨fun r hr => ?_,fun v hv => ⟨?_,fun _ _ => trivial⟩⟩⟩
    · simp [he] at hlist
    · obtain ⟨hsince,hbatch⟩ := hcount u (hm6 u hu)
      rw [Option.mem_def.mp hr, Option.map_some] at hsince
      exact le_of_eq ((Option.some.inj hsince).trans hbatch.symm)
    · exact Option.isNone_iff_eq_none.mp (hsplit v (hm7 u v hu hv))
  exact ⟨n,hn,hpc,commit_barrier 0 1#32 sampleLabels n ha hg hn⟩

def sends (n : ℕ) : List (U32 × ℕ) := (List.range n).map (fun i => (flowHeader 0#32,i))

def batchLabels (n : ℕ) : List (Label ℕ) :=
  (sends n).map (fun e => .send e.1 e.2)++[.request commitWord]

theorem send_run (es : List (U32 × ℕ)) (n : Net ℕ)
    (h : ∀ e ∈ es, ibGetOpcode e.1 = multicastOpcodeFlow ∧ InTable e.1) :
    run step (es.map (fun e => .send e.1 e.2)) n =
      some { n with channel := n.channel++es, sent := n.sent++es } := by
  induction es generalizing n with
  | nil => simp [run]
  | cons e es ih =>
    have he := h e (by simp)
    have hstep : step (.send e.1 e.2) n = some { n with
        channel := n.channel++[e], sent := n.sent++[e] } := if_pos he
    rw [List.map_cons, run, hstep, Option.bind_some, ih _ (fun v hv => h v (by simp [hv]))]
    simp

/-- The client's whole batch is in the channel and its COMMIT is on the way. -/
def batchSent (n : ℕ) (t : Threads ℕ) (k : ℕ) : Net ℕ :=
  ⟨t,(sends n).drop k,[⟨commitWord,n,n⟩],none,sends n,n,0⟩

theorem batch_run (n : ℕ) :
    run step (batchLabels n) (initNet 0 1#32) = some (batchSent n (initThreads 0 1#32) 0) := by
  have hs := send_run (sends n) (initNet 0 1#32) (by
    intro e he
    obtain ⟨i,-,rfl⟩ := List.mem_map.mp he
    exact (⟨by decide,by decide⟩ :
      ibGetOpcode (flowHeader 0#32) = multicastOpcodeFlow ∧ InTable (flowHeader 0#32)))
  refine run_trans hs ?_
  have hc : IsCommit commitWord := by decide
  simp [run, step, hc, initNet, batchSent, sends]

theorem not_barrier (n : Net ℕ) (r : Request) (immData : U32) (hr : n.current = some r)
    (hpc : n.thr.rdma = .replying immData) (hp : Promised r) (f : ℕ) (hf : f < r.upto)
    (hlog : conveys f n.thr.srv.log = 0) : ¬ Barrier n := by
  intro h
  obtain ⟨header,payload,-,he⟩ := h r immData hr hpc hp f hf
  have := List.countP_eq_zero.mp hlog _ he
  simp [isConvey] at this

theorem flow_run (n k : ℕ) (t u : Threads ℕ) (hk : k < n)
    (h : run ServerThreads.step (flowLabels k) t = some u) :
    run step [.deliver k,.poll,.listAdd,.convey allocated] (batchSent n t k) =
      some (batchSent n u (k+1)) := by
  have hd : (sends n).drop k = (flowHeader 0#32,k)::(sends n).drop (k+1) := by
    have hl : k < (sends n).length := by simpa [sends] using hk
    rw [List.drop_eq_getElem_cons hl]
    simp [sends]
  simp only [flowLabels, run_cons] at h
  obtain ⟨a,ha,b,hb,c,hc,d,hd',hu⟩ := h
  obtain rfl := Option.some.inj hu
  simp [run, step, serverStep, batchSent, hd, ha, hb, hc, hd']

theorem partial_run (n k : ℕ) (hk : k ≤ n) (hmax : k ≤ mcmMaxRecvWr) : ∃ t,
    run step ((List.range k).flatMap (fun w => [.deliver w,.poll,.listAdd,.convey allocated]))
      (batchSent n (initThreads 0 1#32) 0) = some (batchSent n t k) ∧ Flooded k t := by
  induction k with
  | zero =>
    obtain ⟨t,ht,hf⟩ := flood_run 0 (by decide)
    obtain rfl := Option.some.inj ht
    exact ⟨_,rfl,hf⟩
  | succ k ih =>
    obtain ⟨t,ht,hf⟩ := ih (by omega) (by omega)
    obtain ⟨u,hu,hg⟩ := flow_flooded k t hf (by omega)
    refine ⟨u,?_,hg⟩
    rw [List.range_succ, List.flatMap_append]
    exact run_trans ht (by simpa using flow_run n k t u (by omega) hu)

theorem commit_opcode : ibGetOpcode commitWord = opcodeCommit := by decide

theorem overtaken (n : ℕ) (hn : 0 < n) : ∃ m,
    run step (batchLabels n++[.pick]) (initNet 0 1#32) = some m ∧ ¬ Barrier m := by
  have hc : IsCommit commitWord := by decide
  refine ⟨{ batchSent n (initThreads 0 1#32) 0 with
      thr := { initThreads 0 1#32 with rdma := .replying commitWord }
      rpc := []
      current := some ⟨commitWord,n,n⟩ },run_trans (batch_run n) ?_,?_⟩
  · simp [run, step, serverStep, ServerThreads.step, batchSent, initThreads, initServer, hc]
  · exact not_barrier _ ⟨commitWord,n,n⟩ commitWord rfl rfl (Or.inl commit_opcode) 0 hn rfl

/-- Neither client keeps the barrier: the lib client's COMMIT and the driver's
overtake their frames, and the driver's also returns after half of its batch. -/
theorem commit_barrier_fails :
    (∃ n, run step (batchLabels configBatch++[.pick]) (initNet 0 1#32) = some n ∧
      ¬ Barrier n) ∧
    (∃ n, run step (batchLabels driverBatch++[.pick]) (initNet 0 1#32) = some n ∧
      ¬ Barrier n) ∧
    ∃ n, run step (batchLabels driverBatch++
        (List.range configBatch).flatMap (fun w => [.deliver w,.poll,.listAdd,.convey allocated])++
        [.pick,.pass,.region (fun _ => allocated)]) (initNet 0 1#32) = some n ∧
      ¬ Barrier n := by
  refine ⟨overtaken configBatch (by decide),overtaken driverBatch (by decide),?_⟩
  obtain ⟨t,ht,hf⟩ := partial_run driverBatch configBatch (by decide) (by decide)
  have hc : IsCommit commitWord := by decide
  have hneed : commitNeed commitWord ≤ t.srv.batch := by rw [hf.batch]; decide
  have hne : t.srv.commitList ≠ [] := by
    intro he
    have := hf.ledger.batch
    rw [hf.batch, he, List.length_nil] at this
    exact absurd this (by simp [configBatch])
  have hl := region_ledger (fun _ => allocated) t hf.ledger hf.mcast (.replying commitWord)
  refine ⟨{ batchSent driverBatch t configBatch with
      thr := { t with
        srv := commitRegion (fun _ => allocated) t.srv, rdma := .replying commitWord }
      rpc := []
      current := some ⟨commitWord,driverBatch,driverBatch⟩ },
    run_trans (run_trans (batch_run driverBatch) ht) ?_,?_⟩
  · simp [run, step, serverStep, ServerThreads.step, batchSent, hf.rdma, hc, hne, hneed]
  · refine not_barrier _ ⟨commitWord,driverBatch,driverBatch⟩ commitWord rfl rfl
      (Or.inl commit_opcode) configBatch (by decide) (hl.fresh _ ?_)
    have := hf.arrived
    simp only [Threads.listed]
    omega

end Steps

end Maruswap.CommitBarrier
