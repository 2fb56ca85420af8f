import Maruswap.Deployment
import Maruswap.OpenFaults

/-!
# A frame is posted where it can be copied

Any number of writers, servers whose memory may run out, and frames that may be lost. A
block is opened on both servers before a frame of it is posted, and what a server has
registered it keeps; so no handler asks for memory for a frame of the driver.
-/

set_option autoImplicit false

namespace Maruswap.OpenedBlocks
open WireFormat DriverStage WriterThreads WriterThreads.Writers OneWriter ReaderThreads
open GuardedRun Deployment OpenFaults
open ServerHandlers (AllocResult Wc)
open CommitBarrier (Net)
open RpcCalls (nrBinders)

variable {Page : Type*}

/-! What a server has registered, it keeps. -/

def registered (n : Net Page) (k : ℕ) : Option (ℕ × U32) := region n.thr.srv k

/-- The headers a server may have to copy a frame for, and the frames on their way, are
of frames that were sent. -/
structure Headers (n : Net Page) : Prop where
  channel : ∀ e ∈ n.channel, e ∈ n.sent
  queued : ∀ wc ∈ n.thr.queue, wc.immData ∈ n.sent.map Prod.fst
  split : ∀ wc, n.thr.mcast = some wc → wc.immData ∈ n.sent.map Prod.fst
  listed : ∀ w ∈ n.thr.srv.commitList, (n.thr.srv.rw w).wc.immData ∈ n.sent.map Prod.fst

section Servers
variable [Zero Page]

theorem page_wc (a : AllocResult) (wc : Wc) (s : ServerHandlers.Server Page) (w : ℕ) :
    ((ServerHandlers.ibConveyPage a wc s).2.rw w).wc = (s.rw w).wc := by
  rcases ServerHandlers.ib_convey_page_cases a wc s with ⟨-,hc⟩ | ⟨he,-,-⟩
  · rw [hc.rw_eq]
    by_cases hw : w = wc.wrId
    · subst hw
      rw [Function.update_self]
    · rw [Function.update_of_ne hw]
  · rw [he]

theorem convey_wc (a : AllocResult) (wc : Wc) (s : ServerHandlers.Server Page) (w : ℕ) :
    ((ServerHandlers.flowConvey a wc s).rw w).wc = (s.rw w).wc := by
  unfold ServerHandlers.flowConvey
  split
  · rfl
  · exact page_wc a wc s w

def isArrival : ServerThreads.Label Page → Bool
  | .arrive _ _ _ => true
  | _ => false

theorem thread_headers {k : ServerThreads.Label Page} {t u : ServerThreads.Threads Page}
    {p : U32 → Prop} (hk : isArrival k = false) (hs : ServerThreads.step k t = some u)
    (hq : ∀ wc ∈ t.queue, p wc.immData) (hm : ∀ wc, t.mcast = some wc → p wc.immData)
    (hl : ∀ w ∈ t.srv.commitList, p (t.srv.rw w).wc.immData) :
    (∀ wc ∈ u.queue, p wc.immData) ∧ (∀ wc, u.mcast = some wc → p wc.immData) ∧
      ∀ w ∈ u.srv.commitList, p (u.srv.rw w).wc.immData := by
  cases k with
  | arrive header payload w => cases hk
  | poll =>
    obtain ⟨wc,cq,ht,-,hcq,rfl⟩ := ServerThreads.poll_cases hs
    exact ⟨fun v hv => hq v (by simpa [ServerThreads.Threads.queue, ht, hcq] using hv),hm,hl⟩
  | listAdd =>
    obtain ⟨wc,ht,rfl⟩ := Option.map_eq_some_iff.mp hs
    have hqueue : t.queue = wc::t.cq := by simp [ServerThreads.Threads.queue, ht]
    have hwc : p wc.immData := hq wc (by simp [hqueue])
    refine ⟨fun v hv => hq v (by rw [hqueue]; exact .tail _ hv),fun v hv => ?_,fun w hw => ?_⟩
    · exact Option.some.inj hv ▸ hwc
    · simp only [ServerThreads.listFlow, ServerHandlers.flowListAdd, List.mem_cons] at hw ⊢
      by_cases hne : w = wc.wrId
      · subst hne
        rw [Function.update_self]
        exact hwc
      · rw [Function.update_of_ne hne]
        exact hl w (hw.resolve_left hne)
  | convey a =>
    obtain ⟨wc,-,rfl⟩ := Option.map_eq_some_iff.mp hs
    refine ⟨hq,(fun v hv => by cases hv),fun w hw => ?_⟩
    dsimp only at hw ⊢
    rw [CommitBarrier.flow_convey_list] at hw
    rw [convey_wc]
    exact hl w hw
  | pick immData =>
    obtain ⟨-,hs⟩ := Option.ite_none_right_eq_some.mp hs
    exact Option.some.inj hs ▸ ⟨hq,hm,hl⟩
  | pass =>
    simp only [ServerThreads.step] at hs
    split at hs
    · obtain ⟨-,hs⟩ := Option.ite_none_right_eq_some.mp hs
      exact Option.some.inj hs ▸ ⟨hq,hm,hl⟩
    · cases hs
  | region alloc =>
    simp only [ServerThreads.step] at hs
    split at hs
    · obtain rfl := Option.some.inj hs
      refine ⟨hq,hm,fun w hw => ?_⟩
      dsimp only at hw
      rw [CommitBarrier.region_list] at hw
      cases hw
    · cases hs
  | reply =>
    simp only [ServerThreads.step] at hs
    split at hs
    · exact Option.some.inj hs ▸ ⟨hq,hm,hl⟩
    · cases hs

theorem thread_quiet {l : ServerThreads.Label Page} {t u : ServerThreads.Threads Page}
    (hs : ServerThreads.step l t = some u) (k : ℕ) (mr : ℕ × U32)
    (h : region t.srv k = some mr) : region u.srv k = some mr := by
  cases l with
  | arrive header payload w =>
    obtain ⟨-,hs⟩ := Option.ite_none_right_eq_some.mp hs
    exact Option.some.inj hs ▸ h
  | poll =>
    obtain ⟨wc,cq,-,-,-,rfl⟩ := ServerThreads.poll_cases hs
    exact h
  | listAdd =>
    obtain ⟨wc,-,rfl⟩ := Option.map_eq_some_iff.mp hs
    exact h
  | convey a =>
    obtain ⟨wc,-,rfl⟩ := Option.map_eq_some_iff.mp hs
    simp only [ServerHandlers.flowConvey]
    split
    · exact h
    · exact (convey_quiet a wc _).region k mr h
  | pick immData =>
    obtain ⟨-,hs⟩ := Option.ite_none_right_eq_some.mp hs
    exact Option.some.inj hs ▸ h
  | pass =>
    simp only [ServerThreads.step] at hs
    split at hs
    · obtain ⟨-,hs⟩ := Option.ite_none_right_eq_some.mp hs
      exact Option.some.inj hs ▸ h
    · cases hs
  | region alloc =>
    simp only [ServerThreads.step] at hs
    split at hs
    · refine Option.some.inj hs ▸ ?_
      exact (drain_quiet _ _).region k mr ((walk_quiet alloc _ _).region k mr h)
    · cases hs
  | reply =>
    simp only [ServerThreads.step] at hs
    split at hs
    · exact Option.some.inj hs ▸ h
    · cases hs

/-- What a server does of its own is a step of its threads; a frame that arrives is the
first of the channel. -/
inductive Moves (n m : Net Page) : Prop where
  | arrived {header : U32} {payload : Page} {w : ℕ} (hchannel : n.channel =
      (header,payload)::m.channel) (hsent : m.sent = n.sent)
      (hthr : m.thr = ServerThreads.arrive header payload w n.thr) : Moves n m
  | moved {k : ServerThreads.Label Page} (hk : isArrival k = false)
      (hchannel : m.channel = n.channel) (hsent : m.sent = n.sent)
      (hthr : ServerThreads.step k n.thr = some m.thr) : Moves n m

theorem server_moves {l : CommitBarrier.Label Page} {n m : Net Page}
    (hl : isClient l = false) (hs : CommitBarrier.step l n = some m) : Moves n m := by
  have hthread : ∀ (k : ServerThreads.Label Page) {rpc current base}, isArrival k = false →
      CommitBarrier.serverStep k { n with rpc := rpc, current := current, base := base } =
        some m → Moves n m := by
    intro k rpc current base hk hj
    obtain ⟨u,hu,rfl⟩ := Option.map_eq_some_iff.mp hj
    exact .moved hk rfl rfl hu
  cases l with
  | send header payload => cases hl
  | request immData => cases hl
  | deliver w =>
    cases hc : n.channel with
    | nil => simp [CommitBarrier.step, hc] at hs
    | cons e rest =>
      simp only [CommitBarrier.step, hc] at hs
      obtain ⟨u,hu,rfl⟩ := Option.map_eq_some_iff.mp hs
      simp only [ServerThreads.step, Option.ite_none_right_eq_some] at hu
      obtain rfl := Option.some.inj hu.2
      exact .arrived hc rfl rfl
  | poll => exact hthread .poll rfl hs
  | listAdd => exact hthread .listAdd rfl hs
  | convey a => exact hthread (.convey a) rfl hs
  | pick =>
    simp only [CommitBarrier.step] at hs
    split at hs
    · exact hthread (.pick _) rfl hs
    · cases hs
  | pass => exact hthread .pass rfl hs
  | region alloc => exact hthread (.region alloc) rfl hs
  | reply => exact hthread .reply rfl hs

theorem moves_registered {n m : Net Page} (h : Moves n m) (k : ℕ) (mr : ℕ × U32)
    (hr : registered n k = some mr) : registered m k = some mr := by
  cases h with
  | arrived hchannel hsent hthr =>
    rw [registered, hthr]
    exact hr
  | moved hk hchannel hsent hthr => exact thread_quiet hthr k mr hr

theorem moves_headers {n m : Net Page} (h : Headers n) (hm : Moves n m) : Headers m := by
  cases hm with
  | @arrived header payload w hchannel hsent hthr =>
    have hmem : (header,payload) ∈ n.sent := h.channel _ (by simp [hchannel])
    refine ⟨fun e he => ?_,fun wc hwc => ?_,fun wc hwc => ?_,fun v hv => ?_⟩
    · rw [hsent]
      exact h.channel e (by rw [hchannel]; exact .tail _ he)
    · rw [hthr, ServerThreads.arrive_queue] at hwc
      rw [hsent]
      rcases List.mem_append.mp hwc with hold | hnew
      · exact h.queued wc hold
      · obtain rfl := List.mem_singleton.mp hnew
        exact List.mem_map_of_mem hmem
    · rw [hthr] at hwc
      rw [hsent]
      exact h.split wc hwc
    · rw [hthr] at hv ⊢
      rw [hsent]
      have hwc : ((ServerThreads.arrive header payload w n.thr).srv.rw v).wc =
          (n.thr.srv.rw v).wc := by
        by_cases hvw : v = w
        · subst hvw
          simp [ServerThreads.arrive, ServerHandlers.deliver]
        · simp [ServerThreads.arrive, ServerHandlers.deliver, hvw]
      rw [hwc]
      exact h.listed v hv
  | @moved k hk hchannel hsent hthr =>
    obtain ⟨hqueued,hsplit,hlisted⟩ := thread_headers hk hthr h.queued h.split h.listed
    refine ⟨?_,?_,?_,?_⟩
    · rw [hchannel, hsent]
      exact h.channel
    all_goals rw [hsent]; assumption

theorem open_quiet {a : AllocResult} {header : U32} {s t : ServerHandlers.Server Page}
    (hs : ServerHandlers.processRdmaRpcOpen a header s = some t) (k : ℕ) (mr : ℕ × U32)
    (h : region s k = some mr) : region t k = some mr := by
  obtain ⟨off,hd,-⟩ := interpret_header_eq header
  simp only [ServerHandlers.processRdmaRpcOpen, hd, Option.map_eq_some_iff] at hs
  obtain ⟨mb,-,rfl⟩ := hs
  split
  · exact (add_memblock_quiet a _ _).region k mr h
  · exact h

theorem open_registered {a : AllocResult} {header : U32} {n m : Net Page} {info : RdmaInfo}
    (hs : serveOpen a header n = some (m,info)) :
    (∀ k mr, registered n k = some mr → registered m k = some mr) ∧
      ∃ buffer, registered m (blockOf (pageOffset header)) = some (buffer,info.rkey) := by
  obtain ⟨s,mb,-,-,hopen,hmb,-,rfl,rfl⟩ := serve_open_cases hs
  exact ⟨fun k mr h => open_quiet hopen k mr h,mb.buffer,by simp [registered, region, hmb]⟩

/-! A frame of a block that is registered is copied where that block is. -/

theorem convey_base {a : AllocResult} {wc : Wc} {s : ServerHandlers.Server Page}
    (h : base s (blockOf (pageOffset wc.immData)) ≠ none) :
    base (ServerHandlers.ibConveyPage a wc s).2 = base s := by
  have hblock : (s.memblocks (blockOf (pageOffset wc.immData))).isNone = false := by
    cases hm : s.memblocks (blockOf (pageOffset wc.immData)) with
    | none => exact absurd (by simp [base, hm]) h
    | some mb => rfl
  obtain ⟨off,hd,-⟩ := interpret_header_eq wc.immData
  simp only [ServerHandlers.ibConveyPage, hd, hblock, Bool.false_eq_true, if_false, if_true]
  funext k
  by_cases hk : k = blockOf (pageOffset wc.immData)
  · subst hk
    simp only [base, ServerHandlers.copyPage, Function.update_self, Option.map_map]
    rfl
  · simp [base, ServerHandlers.copyPage, hk]

theorem walk_base (alloc : ℕ → AllocResult) (ws : List ℕ) (s : ServerHandlers.Server Page)
    (h : ∀ w ∈ ws, base s (blockOf (pageOffset (s.rw w).wc.immData)) ≠ none) :
    base (ServerHandlers.commitWalk alloc ws s) = base s := by
  induction ws generalizing s with
  | nil => rfl
  | cons w ws ih =>
    have hrest : ∀ v ∈ ws, base s (blockOf (pageOffset (s.rw v).wc.immData)) ≠ none :=
      fun v hv => h v (.tail _ hv)
    have hw := convey_base (a := alloc w) (h w (.head _))
    rw [ServerHandlers.commitWalk]
    split
    · exact ih s hrest
    · dsimp only
      split
      · refine (ih _ fun v hv => ?_).trans hw
        rw [hw, page_wc]
        exact hrest v hv
      · exact hw

theorem thread_base {k : ServerThreads.Label Page} {t u : ServerThreads.Threads Page}
    (hs : ServerThreads.step k t = some u)
    (hm : ∀ a, k = .convey a → ∀ wc, t.mcast = some wc →
      base t.srv (blockOf (pageOffset wc.immData)) ≠ none)
    (hl : ∀ alloc, k = .region alloc → (∀ w ∈ t.srv.commitList, (t.srv.rw w).convey = true) ∨
      ∀ w ∈ t.srv.commitList, base t.srv (blockOf (pageOffset (t.srv.rw w).wc.immData)) ≠ none) :
    base u.srv = base t.srv := by
  cases k with
  | arrive header payload w =>
    obtain ⟨-,hs⟩ := Option.ite_none_right_eq_some.mp hs
    exact Option.some.inj hs ▸ rfl
  | poll =>
    obtain ⟨wc,cq,-,-,-,rfl⟩ := ServerThreads.poll_cases hs
    rfl
  | listAdd =>
    obtain ⟨wc,-,rfl⟩ := Option.map_eq_some_iff.mp hs
    rfl
  | convey a =>
    obtain ⟨wc,hwc,rfl⟩ := Option.map_eq_some_iff.mp hs
    simp only [ServerHandlers.flowConvey]
    split
    · rfl
    · exact convey_base (hm a rfl wc hwc)
  | pick immData =>
    obtain ⟨-,hs⟩ := Option.ite_none_right_eq_some.mp hs
    exact Option.some.inj hs ▸ rfl
  | pass =>
    simp only [ServerThreads.step] at hs
    split at hs
    · obtain ⟨-,hs⟩ := Option.ite_none_right_eq_some.mp hs
      exact Option.some.inj hs ▸ rfl
    · cases hs
  | region alloc =>
    simp only [ServerThreads.step] at hs
    split at hs
    · obtain rfl := Option.some.inj hs
      have hwalk : base (ServerHandlers.commitWalk alloc t.srv.commitList t.srv) = base t.srv := by
        rcases hl alloc rfl with hup | hblocks
        · rw [ServerHandlers.walk_conveyed alloc _ _ hup]
        · exact walk_base alloc t.srv.commitList t.srv hblocks
      refine Eq.trans ?_ hwalk
      rw [ServerHandlers.commitRegion, ServerHandlers.drain_eq _ _ rfl]
      rfl
    · cases hs
  | reply =>
    simp only [ServerThreads.step] at hs
    split at hs
    · exact Option.some.inj hs ▸ rfl
    · cases hs

/-! What the driver holds of the servers. -/

omit [Zero Page] in
theorem multicast_headers (f : Option (U32 × Page)) {n : Net Page} (h : Headers n) :
    Headers (multicast f n) := by
  have hmem : ∀ v, v ∈ n.sent.map Prod.fst → v ∈ (n.sent++f.toList).map Prod.fst :=
    fun v hv => by
      rw [List.map_append]
      exact List.mem_append_left _ hv
  refine ⟨fun e he => ?_,fun wc hwc => hmem _ (h.queued wc hwc),
    fun wc hwc => hmem _ (h.split wc hwc),fun w hw => hmem _ (h.listed w hw)⟩
  rcases List.mem_append.mp he with he | he
  · exact List.mem_append_left _ (h.channel e he)
  · exact List.mem_append_right _ he

end Servers

structure Wired (d : Driver Page) : Prop where
  list : d.rdmaCtrlList = [1,0]
  main : d.mainRdmaCtrl = 0
  alive : ∀ c, (d.ctrl c).alive = true

/-- The address and the key of a block are those of the server. -/
def Known (d : Driver Page) (net : ℕ → Net Page) : Prop :=
  ∀ c k, ((d.ctrl c).rdmaInfo k).rkey ≠ 0#32 →
    ((d.ctrl c).rdmaInfo k).remoteAddr = ⟨k,0⟩ ∧
      ∃ buffer, registered (net c) k = some (buffer,((d.ctrl c).rdmaInfo k).rkey)

def Has (net : ℕ → Net Page) (c k : ℕ) : Prop := (registered (net c) k).isSome

def Grows (net net' : ℕ → Net Page) : Prop :=
  ∀ c k mr, registered (net c) k = some mr → registered (net' c) k = some mr

section Blocks
variable {net net' : ℕ → Net Page}

theorem Grows.has (h : Grows net net') {c k : ℕ} (hk : Has net c k) : Has net' c k := by
  obtain ⟨mr,hmr⟩ := Option.isSome_iff_exists.mp hk
  exact Option.isSome_iff_exists.mpr ⟨mr,h c k mr hmr⟩

theorem Known.grow {d : Driver Page} (h : Known d net) (hg : Grows net net') :
    Known d net' := by
  intro c k hkey
  obtain ⟨haddr,buffer,hmr⟩ := h c k hkey
  exact ⟨haddr,buffer,hg c k _ hmr⟩

theorem Known.has {d : Driver Page} (h : Known d net) {c k : ℕ}
    (hkey : ((d.ctrl c).rdmaInfo k).rkey ≠ 0#32) : Has net c k := by
  obtain ⟨-,buffer,hmr⟩ := h c k hkey
  exact Option.isSome_iff_exists.mpr ⟨_,hmr⟩

def Answers (net : ℕ → Net Page) (c k : ℕ) (info : RdmaInfo) : Prop :=
  info.remoteAddr = ⟨k,0⟩ ∧ ∃ buffer, registered (net c) k = some (buffer,info.rkey)

theorem set_known {d : Driver Page} {c k : ℕ} {info : RdmaInfo} (h : Known d net)
    (ha : Answers net c k info) : Known (setRdmaInfo c k info d) net := by
  intro b m hkey
  by_cases hb : b = c
  · subst hb
    by_cases hm : m = k
    · subst hm
      simpa [setRdmaInfo, Answers] using ha
    · simp only [setRdmaInfo, Function.update_self, Function.update_of_ne hm] at hkey ⊢
      exact h b m hkey
  · simp only [setRdmaInfo, Function.update_of_ne hb] at hkey ⊢
    exact h b m hkey

/-- After an open that was answered the server has the block. -/
structure OpenedAt (net : ℕ → Net Page) (c : ℕ) (offset : U32) (r : U32 × Driver Page) :
    Prop where
  wired : Wired r.2
  known : Known r.2 net
  has : Has net c (getNumMemblock offset)

theorem open_at {d : Driver Page} {c : ℕ} {offset : U32} {outcome : Option RdmaInfo}
    (hw : Wired d) (h : Known d net)
    (ha : ((d.ctrl c).rdmaInfo (getNumMemblock offset)).rkey = 0#32 →
      ∃ info, outcome = some info ∧ Answers net c (getNumMemblock offset) info) :
    OpenedAt net c offset (ibRpcOpenUnlocked c offset outcome d) := by
  unfold ibRpcOpenUnlocked
  split
  · next hkey => exact ⟨hw,h,h.has hkey⟩
  · next hkey =>
    obtain ⟨info,rfl,hinfo⟩ := ha (not_not.mp hkey)
    obtain ⟨-,buffer,hmr⟩ := id hinfo
    refine ⟨⟨hw.list,hw.main,fun b => ?_⟩,set_known h hinfo,
      Option.isSome_iff_exists.mpr ⟨_,hmr⟩⟩
    by_cases hb : b = c
    · subst hb
      simpa [setRdmaInfo] using hw.alive b
    · simpa [setRdmaInfo, hb] using hw.alive b

end Blocks

/-! One step. -/

def callBlock (w : Writers Page) (i : ℕ) : ℕ := getNumMemblock (w.call i).offset

/-- Past the check a writer finds its block on both servers, and so do its frames. -/
structure Opened (w : Writers Page) (net : ℕ → Net Page) : Prop where
  wired : Wired w.toDriver
  known : Known w.toDriver net
  opening : ∀ i tret, w.pc i = .openMain tret → Has net 1 (callBlock w i)
  ready : ∀ i, Ready (w.pc i) → ∀ c, c < 2 → Has net c (callBlock w i)
  frames : ∀ f ∈ w.frames, ∀ c, c < 2 → Has net c (blockOf (pageOffset f.1))

section Steps
variable {net net' : ℕ → Net Page} {w u : Writers Page}

theorem Opened.grow (h : Opened w net) (hg : Grows net net') : Opened w net' :=
  ⟨h.wired,h.known.grow hg,fun i tret hp => hg.has (h.opening i tret hp),
    fun i hp c hc => hg.has (h.ready i hp c hc),fun f hf c hc => hg.has (h.frames f hf c hc)⟩

theorem Opened.move (h : Opened w net) {i : ℕ} {p : Pc} (hwired : Wired u.toDriver)
    (hknown : Known u.toDriver net) (hpc : u.pc = Function.update w.pc i p)
    (hcall : ∀ j, j ≠ i → callBlock u j = callBlock w j)
    (hopening : ∀ tret, p = .openMain tret → Has net 1 (callBlock u i))
    (hready : Ready p → ∀ c, c < 2 → Has net c (callBlock u i))
    (hframes : ∀ f ∈ u.frames, f ∈ w.frames ∨
      ∀ c, c < 2 → Has net c (blockOf (pageOffset f.1))) : Opened u net := by
  refine ⟨hwired,hknown,fun j tret hj => ?_,fun j hj => ?_,fun f hf => ?_⟩
  · rw [hpc] at hj
    by_cases hji : j = i
    · subst hji
      rw [Function.update_self] at hj
      exact hopening tret hj
    · rw [Function.update_of_ne hji] at hj
      exact hcall j hji ▸ h.opening j tret hj
  · rw [hpc] at hj
    by_cases hji : j = i
    · subst hji
      rw [Function.update_self] at hj
      exact hready hj
    · rw [Function.update_of_ne hji] at hj
      exact hcall j hji ▸ h.ready j hj
  · exact (hframes f hf).elim (h.frames f) id

theorem Opened.past (h : Opened w net) {i : ℕ} {p q : Pc} (hctrl : u.ctrl = w.ctrl)
    (hlist : u.rdmaCtrlList = w.rdmaCtrlList) (hmain : u.mainRdmaCtrl = w.mainRdmaCtrl)
    (hpc : u.pc = Function.update w.pc i p) (hcall : ∀ j, callBlock u j = callBlock w j)
    (hw : w.pc i = q) (hopening : ∀ tret, p ≠ .openMain tret) (hready : Ready p → Ready q)
    (hframes : u.frames = w.frames) : Opened u net := by
  refine h.move ⟨hlist.trans h.wired.list,hmain.trans h.wired.main,?_⟩ ?_ hpc
    (fun j _ => hcall j) (fun tret hp => absurd hp (hopening tret)) (fun hp => ?_)
    (fun f hf => .inl (hframes ▸ hf))
  · rw [hctrl]
    exact h.wired.alive
  · intro c k
    rw [hctrl]
    exact h.known c k
  · rw [hcall]
    exact h.ready i (hw ▸ hready hp)

theorem writer_opened {l : WriterThreads.Label Page} (h : Opened w net)
    (ho : ∀ i outcome, l ≠ .openRpc i outcome) (hs : WriterThreads.step l w = some u) :
    Opened u net := by
  cases step_effect hs with
  | connect c =>
    refine ⟨⟨h.wired.list,h.wired.main,fun b => ?_⟩,fun b k => ?_,h.opening,h.ready,h.frames⟩
    · by_cases hb : b = c
      · subst hb
        simp [withDriver]
      · simpa [withDriver, hb] using h.wired.alive b
    · by_cases hb : b = c
      · subst hb
        simpa [withDriver] using h.known b k
      · simpa [withDriver, hb] using h.known b k
  | @call i offset _ page ret hpc hoff =>
    refine h.move h.wired h.known rfl (fun j hj => by simp [callBlock, enter, hj]) ?_ ?_
      (fun f hf => .inl hf)
    · intro tret hp
      split at hp <;> cases hp
    · intro hp
      split at hp <;> exact hp.elim
  | lock hpc hlock =>
    exact h.past rfl rfl rfl rfl (fun _ => rfl) hpc (by simp) (fun hp => hp.elim) rfl
  | @check i _ hpc =>
    refine h.move h.wired h.known rfl (fun _ _ => rfl) ?_ ?_ (fun f hf => .inl hf)
    · intro tret hp
      split at hp <;> cases hp
    · intro hp c hc
      split at hp
      · exact hp.elim
      · next hcheck =>
        simp only [checkRdmaInfo, h.wired.list, List.any_cons, List.any_nil, Bool.or_false,
          Bool.or_eq_true, beq_iff_eq, not_or] at hcheck
        obtain rfl | rfl : c = 0 ∨ c = 1 := by omega
        · exact h.known.has hcheck.2
        · exact h.known.has hcheck.1
  | openSub outcome hpc hc => exact absurd rfl (ho _ _)
  | openMain outcome hpc => exact absurd rfl (ho _ _)
  | start hpc hb => exact h.past rfl rfl rfl rfl (fun _ => rfl) hpc (by simp) id rfl
  | pass hpc hb => exact h.past rfl rfl rfl rfl (fun _ => rfl) hpc (by simp) id rfl
  | commitRpc tret hpc => exact h.past rfl rfl rfl rfl (fun _ => rfl) hpc (by simp) id rfl
  | resetBatch hpc => exact h.past rfl rfl rfl rfl (fun _ => rfl) hpc (by simp) id rfl
  | clear hpc => exact h.past rfl rfl rfl rfl (fun _ => rfl) hpc (by simp) id rfl
  | resetCount hpc => exact h.past rfl rfl rfl rfl (fun _ => rfl) hpc (by simp) id rfl
  | abort hpc hret =>
    exact h.past (p := .returned 1#32) rfl rfl rfl rfl (fun _ => rfl) hpc (by simp)
      (fun hp => hp.elim) rfl
  | count hpc => exact h.past rfl rfl rfl rfl (fun _ => rfl) hpc (by simp) id rfl
  | @post i _ hpc =>
    have hready : Ready (w.pc i) := by rw [hpc]; trivial
    have hcall : ∀ j, (Function.update w.call i { w.call i with postedAt := w.commits } j).offset =
        (w.call j).offset := by
      intro j
      by_cases hj : j = i
      · subst hj
        rw [Function.update_self]
      · rw [Function.update_of_ne hj]
    refine h.move h.wired h.known rfl (fun j _ => congrArg getNumMemblock (hcall j))
      (fun tret hp => by cases hp) (fun _ c hc => ?_) fun f hf => ?_
    · have hb := h.ready i hready c hc
      rwa [callBlock, ← hcall] at hb
    · refine (List.mem_append.mp hf).imp id fun hf c hc => ?_
      obtain rfl := List.mem_singleton.mp hf
      have hb := h.ready i hready c hc
      rwa [callBlock, get_num_memblock_eq, ← flow_header_page] at hb
  | refuse hpc hret =>
    exact h.past rfl rfl rfl rfl (fun _ => rfl) hpc (by simp) (fun hp => hp.elim) rfl
  | store xa hpc => exact h.past rfl rfl rfl rfl (fun _ => rfl) hpc (by simp) id rfl
  | complete hpc =>
    exact h.past rfl rfl rfl rfl (fun _ => rfl) hpc (by simp) (fun hp => hp.elim) rfl
  | incomplete hpc =>
    exact h.past rfl rfl rfl rfl (fun _ => rfl) hpc (by simp) (fun hp => hp.elim) rfl

/-- The driver asks only for what it does not hold, and is told the truth. -/
def Told (net : ℕ → Net Page) (c i : ℕ) (outcome : Option RdmaInfo) (w : Writers Page) : Prop :=
  ((w.ctrl c).rdmaInfo (callBlock w i)).rkey = 0#32 →
    ∃ info, outcome = some info ∧ Answers net c (callBlock w i) info

theorem open_sub_opened {i c : ℕ} {outcome : Option RdmaInfo} (h : Opened w net)
    (hc : subRdmaCtrl w.toDriver = some c) (ha : Told net c i outcome w) :
    Opened (openSub i c outcome w) net := by
  obtain rfl : c = 1 := by
    simpa [subRdmaCtrl, h.wired.list, h.wired.main, eq_comm] using hc
  have ho := open_at h.wired h.known ha
  simp only [openSub, h.wired.alive, if_true]
  exact h.move ho.wired ho.known rfl (fun _ _ => rfl) (fun _ _ => ho.has) (fun hp => hp.elim)
    (fun f hf => .inl hf)

theorem open_main_opened {i : ℕ} {tret : U32} {outcome : Option RdmaInfo} (h : Opened w net)
    (hpc : w.pc i = .openMain tret) (ha : Told net w.mainRdmaCtrl i outcome w) :
    Opened (openMain i tret outcome w) net := by
  have ho := open_at h.wired h.known ha
  simp only [openMain, h.wired.alive, if_true]
  split
  · refine h.move (p := .testing) ho.wired ho.known rfl (fun _ _ => rfl) (fun t ht => by cases ht)
      (fun _ c hc => ?_) (fun f hf => .inl hf)
    obtain rfl | rfl : c = 0 ∨ c = 1 := by omega
    · exact h.wired.main ▸ ho.has
    · exact h.opening i tret hpc
  · exact h.move (p := .returned 1#32) ho.wired ho.known rfl (fun _ _ => rfl)
      (fun t ht => by cases ht) (fun hp => hp.elim) (fun f hf => .inl hf)

theorem open_opened {i c : ℕ} {outcome : Option RdmaInfo} {d : System Page}
    (h : Opened d.toWriters net) (hc : openTarget i d = some c)
    (ha : Told net c i outcome d.toWriters)
    (hs : WriterThreads.step (.openRpc i outcome) d.toWriters = some u) : Opened u net := by
  unfold openTarget at hc
  cases step_effect hs with
  | @openSub i c' _ outcome hpc hsub =>
    rw [hpc] at hc
    obtain rfl := Option.some.inj (hc.symm.trans hsub)
    exact open_sub_opened h hc ha
  | openMain outcome hpc =>
    rw [hpc] at hc
    obtain rfl := Option.some.inj hc
    exact open_main_opened h hpc ha

end Steps

section Runs
variable [Zero Page]

theorem step_grows {l : Deployment.Label Page} {d e : System Page}
    (hs : Deployment.step l d = some e) : Grows d.net e.net := by
  intro c k mr h
  cases net_effect hs c with
  | sent f hframes hnet =>
    rw [registered, hnet]
    exact h
  | idle hframes hnet =>
    rw [hnet]
    exact h
  | opened hframes hnet => exact (open_registered hnet).1 k mr h
  | asked hframes hnet =>
    simp only [CommitBarrier.step, Option.ite_none_right_eq_some] at hnet
    rw [registered, ← Option.some.inj hnet.2]
    exact h
  | served hk hframes hnet => exact moves_registered (server_moves hk hnet) k mr h

theorem open_headers {a : AllocResult} {header : U32} {n m : Net Page} {info : RdmaInfo}
    (h : Headers n) (hs : serveOpen a header n = some (m,info)) :
    Headers m ∧ m.sent = n.sent := by
  obtain ⟨s,-,-,-,hopen,-,-,rfl,-⟩ := serve_open_cases hs
  obtain ⟨-,hrw,-,-,hl,-⟩ := ServerHandlers.open_effect header a n.thr.srv s hopen
  refine ⟨⟨h.channel,h.queued,h.split,fun w hw => ?_⟩,rfl⟩
  dsimp only at hw ⊢
  rw [hl] at hw
  rw [hrw]
  exact h.listed w hw

structure Fed (frames : List (U32 × Page)) (n : Net Page) : Prop where
  headers : Headers n
  sent : ∀ e ∈ n.sent, e ∈ frames

theorem step_fed {l : Deployment.Label Page} {d e : System Page} {c : ℕ}
    (h : Fed d.frames (d.net c)) (hs : Deployment.step l d = some e) :
    Fed e.frames (e.net c) := by
  cases net_effect hs c with
  | @sent l lost _ _ f hframes hnet =>
    rw [hnet, hframes]
    refine ⟨multicast_headers _ h.headers,fun x hx => ?_⟩
    rcases List.mem_append.mp hx with hx | hx
    · exact List.mem_append_left _ (h.sent x hx)
    · refine List.mem_append_right _ ?_
      split at hx
      · cases hx
      · exact hx
  | idle hframes hnet =>
    rw [hnet, hframes]
    exact h
  | opened hframes hnet =>
    obtain ⟨hheaders,hsame⟩ := open_headers h.headers hnet
    rw [hframes]
    exact ⟨hheaders,hsame ▸ h.sent⟩
  | asked hframes hnet =>
    simp only [CommitBarrier.step, Option.ite_none_right_eq_some] at hnet
    rw [← Option.some.inj hnet.2, hframes]
    exact ⟨⟨h.headers.channel,h.headers.queued,h.headers.split,h.headers.listed⟩,h.sent⟩
  | served hk hframes hnet =>
    have hm := server_moves hk hnet
    refine ⟨moves_headers h.headers hm,?_⟩
    rw [hframes]
    cases hm with
    | arrived hchannel hsame hthr => exact hsame ▸ h.sent
    | moved hk hchannel hsame hthr => exact hsame ▸ h.sent

/-- Every area that an OPEN is given is its own. -/
def Spaced : Deployment.Label Page → System Page → Prop
  | .openRpc i _ a, d => ∀ c, openTarget i d = some c → Fresh a (d.net c).thr.srv
  | _, _ => True

instance (l : Deployment.Label Page) (d : System Page) : Decidable (Spaced l d) := by
  cases l with
  | openRpc i b a =>
    cases hc : openTarget i d with
    | none => exact .isTrue fun c h => by rw [hc] at h; cases h
    | some c =>
      exact decidable_of_iff (Fresh a (d.net c).thr.srv)
        ⟨fun h x hx => Option.some.inj (hc.symm.trans hx) ▸ h,fun h => h c hc⟩
  | _ => exact .isTrue trivial

structure Stocked (d : System Page) : Prop where
  opened : Opened d.toWriters d.net
  fed : ∀ c, Fed d.frames (d.net c)
  apart : ∀ c, c < 2 → Apart (d.net c).thr.srv

omit [Zero Page] in
theorem target_lt {i c : ℕ} {d : System Page} (h : Wired d.toDriver)
    (hc : openTarget i d = some c) : c < 2 := by
  unfold openTarget at hc
  split at hc
  · obtain rfl : 1 = c := by
      simpa [subRdmaCtrl, h.list, h.main] using hc
    decide
  · obtain rfl := Option.some.inj hc
    rw [h.main]
    decide
  · cases hc

omit [Zero Page] in
theorem Has.based {net : ℕ → Net Page} {c k : ℕ} (h : Has net c k) :
    base (net c).thr.srv k ≠ none := by
  obtain ⟨mr,hmr⟩ := Option.isSome_iff_exists.mp h
  obtain ⟨mb,hmb,-⟩ := Option.map_eq_some_iff.mp hmr
  simp [base, hmb]

omit [Zero Page] in
theorem Stocked.has {d : System Page} (h : Stocked d) {c : ℕ} (hc : c < 2) {immData : U32}
    (hin : immData ∈ (d.net c).sent.map Prod.fst) :
    Has d.net c (blockOf (pageOffset immData)) := by
  obtain ⟨f,hf,rfl⟩ := List.mem_map.mp hin
  exact h.opened.frames f ((h.fed c).sent f hf) c hc

theorem moves_apart {d : System Page} {c : ℕ} {m : Net Page} (h : Stocked d) (hc : c < 2)
    (hm : Moves (d.net c) m) : Apart m.thr.srv := by
  have hheaders := (h.fed c).headers
  cases hm with
  | arrived hchannel hsent hthr =>
    rw [hthr]
    exact h.apart c hc
  | moved hk hchannel hsent hthr =>
    have hbase := thread_base hthr
      (fun _ _ wc hwc => (h.has hc (hheaders.split wc hwc)).based)
      (fun _ _ => .inr fun w hw => (h.has hc (hheaders.listed w hw)).based)
    unfold Apart
    rw [hbase]
    exact h.apart c hc

theorem step_apart {l : Deployment.Label Page} {d e : System Page} (h : Stocked d)
    (hg : Spaced l d) (hs : Deployment.step l d = some e) {c : ℕ} (hc : c < 2) :
    Apart (e.net c).thr.srv := by
  cases l with
  | openRpc i b a =>
    have hupdate : ∀ {x : ℕ} {header : U32} {n : Net Page} {info : RdmaInfo},
        openTarget i d = some x → serveOpen a header (d.net x) = some (n,info) →
        Apart (Function.update d.net x n c).thr.srv := by
      intro x header n info hx hserve
      by_cases hcx : c = x
      · subst hcx
        rw [Function.update_self]
        exact (opened_addr (h.apart c hc) (hg c hx) hserve).1
      · rw [Function.update_of_ne hcx]
        exact h.apart c hc
    cases open_effect hs with
    | known hx hasks hu => exact h.apart c hc
    | answered hx hb hserve hu => exact hupdate hx hserve
    | astray hx hserve hbinder => exact hupdate hx hserve
  | server x k =>
    obtain ⟨hk,hs⟩ := Option.ite_none_left_eq_some.mp hs
    obtain ⟨n,hn,rfl⟩ := Option.map_eq_some_iff.mp hs
    by_cases hcx : c = x
    · subst hcx
      simpa using moves_apart h hc (server_moves (by simpa using hk) hn)
    · simpa [hcx] using h.apart c hc
  | driver l lost =>
    obtain ⟨-,hs⟩ := Option.ite_none_left_eq_some.mp hs
    obtain ⟨u,-,rfl⟩ := Option.map_eq_some_iff.mp hs
    exact h.apart c hc
  | askCommit i b =>
    simp only [Deployment.step] at hs
    split at hs
    · next x todo ret hpc =>
      obtain ⟨-,hs⟩ := Option.ite_none_right_eq_some.mp hs
      obtain ⟨n,hn,rfl⟩ := Option.map_eq_some_iff.mp hs
      simp only [CommitBarrier.step, Option.ite_none_right_eq_some] at hn
      obtain rfl := Option.some.inj hn.2
      by_cases hcx : c = x
      · subst hcx
        simpa using h.apart c hc
      · simpa [hcx] using h.apart c hc
    · cases hs
  | commitRpc i =>
    simp only [Deployment.step] at hs
    split at hs
    · obtain ⟨-,hs⟩ := Option.ite_none_right_eq_some.mp hs
      obtain ⟨u,-,rfl⟩ := Option.map_eq_some_iff.mp hs
      exact h.apart c hc
    · cases hs
  | reader l =>
    obtain ⟨-,hs⟩ := Option.ite_none_right_eq_some.mp hs
    obtain ⟨w,-,rfl⟩ := Option.map_eq_some_iff.mp hs
    exact h.apart c hc

theorem step_opened {l : Deployment.Label Page} {d e : System Page} (h : Stocked d)
    (hg : Spaced l d) (hs : Deployment.step l d = some e) : Opened e.toWriters e.net := by
  have hgrown := h.opened.grow (step_grows hs)
  cases l with
  | driver l lost =>
    obtain ⟨hrpc,hs⟩ := Option.ite_none_left_eq_some.mp hs
    obtain ⟨u,hu,rfl⟩ := Option.map_eq_some_iff.mp hs
    refine writer_opened hgrown (fun i o he => ?_) hu
    subst he
    exact hrpc rfl
  | openRpc i b a =>
    cases open_effect hs with
    | @known c u hc hasks hu =>
      refine open_opened hgrown hc (fun hkey => ?_) hu
      exact absurd ⟨h.opened.wired.alive c,hkey⟩ hasks
    | @answered c n info u hc hb hserve hu =>
      refine open_opened hgrown hc (fun _ => ⟨info,rfl,?_⟩) hu
      obtain ⟨-,hkey⟩ := open_registered hserve
      have haddr := (opened_addr (h.apart c (target_lt h.opened.wired hc)) (hg c hc) hserve).2
      rw [open_block _ hb] at haddr hkey
      refine ⟨haddr,?_⟩
      dsimp only
      rw [Function.update_self]
      exact hkey
    | astray hc hserve hbinder => exact hgrown
  | askCommit i b =>
    simp only [Deployment.step] at hs
    split at hs
    · obtain ⟨-,hs⟩ := Option.ite_none_right_eq_some.mp hs
      obtain ⟨n,hn,rfl⟩ := Option.map_eq_some_iff.mp hs
      exact hgrown
    · cases hs
  | commitRpc i =>
    simp only [Deployment.step] at hs
    split at hs
    · obtain ⟨-,hs⟩ := Option.ite_none_right_eq_some.mp hs
      obtain ⟨u,hu,rfl⟩ := Option.map_eq_some_iff.mp hs
      exact writer_opened hgrown (fun i o he => by cases he) hu
    · cases hs
  | server c l =>
    obtain ⟨-,hs⟩ := Option.ite_none_left_eq_some.mp hs
    obtain ⟨n,hn,rfl⟩ := Option.map_eq_some_iff.mp hs
    exact hgrown
  | reader l =>
    obtain ⟨-,hs⟩ := Option.ite_none_right_eq_some.mp hs
    obtain ⟨w,hw,rfl⟩ := Option.map_eq_some_iff.mp hs
    exact hgrown

theorem step_stocked (l : Deployment.Label Page) (d e : System Page) (h : Stocked d)
    (hg : Spaced l d) (hs : Deployment.step l d = some e) : Stocked e :=
  ⟨step_opened h hg hs,fun c => step_fed (h.fed c) hs,fun _ hc => step_apart h hg hs hc⟩

theorem init_headers (buffer : ℕ) (rkey : U32) :
    Headers (CommitBarrier.initNet buffer rkey : Net Page) where
  channel := fun _ he => by cases he
  queued := fun _ hwc => by cases hwc
  split := fun _ hwc => by cases hwc
  listed := fun _ hw => by cases hw

theorem init_apart (buffer : ℕ) (rkey : U32) :
    Apart (CommitBarrier.initNet buffer rkey : Net Page).thr.srv := by
  have hzero : ∀ j, base (ServerHandlers.initServer buffer rkey : ServerHandlers.Server Page) j ≠
      none → j = 0 := by
    intro j hj
    by_contra hne
    exact hj (by simp [base, ServerHandlers.initServer, hne])
  intro j _ k _ hj he
  rw [hzero j hj, hzero k (he ▸ hj)]

theorem init_stocked (stage : ℕ → Page) (call : ℕ → Call Page) (base : ℕ → ℕ)
    (rkey : ℕ → U32) : Stocked (initDeployment stage call base rkey) where
  opened :=
    { wired := ⟨rfl,rfl,fun _ => rfl⟩
      known := fun _ _ hkey => absurd rfl hkey
      opening := fun _ _ hp => by cases hp
      ready := fun _ hp => hp.elim
      frames := fun _ hf => by cases hf }
  fed := fun _ => ⟨init_headers _ _,fun _ he => by cases he⟩
  apart := fun _ _ => init_apart _ _

def InHand (t : ServerThreads.Threads Page) (wc : Wc) : Prop :=
  t.mcast = some wc ∨ wc ∈ t.queue ∨ ∃ w ∈ t.srv.commitList, wc = (t.srv.rw w).wc

/-- The address that the driver has of a block is that of the memory region which the
server has for it, and so is the key. -/
structure Holds (info : RdmaInfo) (s : ServerHandlers.Server Page) (k : ℕ) : Prop where
  addr : info.remoteAddr = ⟨k,0⟩
  mr : ∃ mb, s.memblocks k = some mb ∧ locate s mb.buffer = some k ∧ mb.rkey = info.rkey

/-- The driver holds what the servers have registered, and no copy depends on memory. -/
structure Prepared (d : System Page) : Prop where
  known : ∀ c k, c < 2 → k < maxMemblock → ((d.ctrl c).rdmaInfo k).rkey ≠ 0#32 →
    Holds ((d.ctrl c).rdmaInfo k) (d.net c).thr.srv k
  posted : ∀ f ∈ d.frames, ∀ c, c < 2 → Has d.net c (blockOf (pageOffset f.1))
  conveyed : ∀ c, c < 2 → ∀ wc, InHand (d.net c).thr wc → ∀ a,
    (ServerHandlers.ibConveyPage a wc (d.net c).thr.srv).1 = true ∧
      ServerHandlers.ibConveyPage a wc (d.net c).thr.srv =
        ServerHandlers.ibConveyPage ⟨none,none⟩ wc (d.net c).thr.srv

theorem convey_prepared {s : ServerHandlers.Server Page} {wc : Wc}
    (h : (region s (blockOf (pageOffset wc.immData))).isSome) (a : AllocResult) :
    (ServerHandlers.ibConveyPage a wc s).1 = true ∧
      ServerHandlers.ibConveyPage a wc s = ServerHandlers.ibConveyPage ⟨none,none⟩ wc s := by
  have hblock : (s.memblocks (blockOf (pageOffset wc.immData))).isNone = false := by
    obtain ⟨mr,hmr⟩ := Option.isSome_iff_exists.mp h
    obtain ⟨mb,hmb,-⟩ := Option.map_eq_some_iff.mp hmr
    simp [hmb]
  obtain ⟨off,hd,-⟩ := interpret_header_eq wc.immData
  simp [ServerHandlers.ibConveyPage, hd, hblock]

theorem Stocked.prepared {d : System Page} (h : Stocked d) : Prepared d where
  known := by
    intro c k hc hk hkey
    obtain ⟨haddr,buffer,hmr⟩ := h.opened.known c k hkey
    obtain ⟨mb,hmb,he⟩ := Option.map_eq_some_iff.mp hmr
    obtain ⟨-,hrkey⟩ := Prod.mk.inj he
    have hbase : base (d.net c).thr.srv k = some mb.buffer := by simp [base, hmb]
    exact ⟨haddr,mb,hmb,locate_base (h.apart c hc) hk hbase,hrkey⟩
  posted := h.opened.frames
  conveyed := by
    intro c hc wc hwc a
    have hheaders := (h.fed c).headers
    refine convey_prepared (h.has hc ?_) a
    rcases hwc with hwc | hwc | ⟨w,hw,rfl⟩
    · exact hheaders.split wc hwc
    · exact hheaders.queued wc hwc
    · exact hheaders.listed w hw

/-- One writer's first frame, in the hand of a server that has no more memory. The other
server has not got it. -/
def inHandLabels : List (Deployment.Label ℕ) :=
  [.driver (.call 3 0x40000#32 7 0#32) (fun _ => false),.driver (.lock 3) (fun _ => false),
    .driver (.check 3) (fun _ => false),.openRpc 3 0 ⟨some 3,some 1#32⟩,
    .openRpc 3 1 ⟨some 4,some 2#32⟩,.driver (.test 3) (fun _ => false),
    .driver (.count 3) (fun _ => false),.driver (.post 3 0#32) (· == 0),
    .server 1 (.deliver 0),.server 1 .poll,.server 1 .listAdd]

end Runs

end Maruswap.OpenedBlocks
