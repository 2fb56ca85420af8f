import Maruswap.ReadYourWrites
import Maruswap.CommitBarrier
import Maruswap.RpcCalls
import Maruswap.CommitWalk

/-!
# The driver and its servers together

The writers and readers of the driver against the handler threads of the servers. A
frame that is posted goes into the channel of every server; an OPEN is answered by the
handler, and a COMMIT by the RDMA thread once it has come to its reply. A frame may be
lost on its way to a server, and the answer to an OPEN goes to the binder in its low
bits. The posts and polls of the RPCs do not fail here.
-/

set_option autoImplicit false

namespace Maruswap.Deployment
open WireFormat DriverStage WriterThreads WriterThreads.Writers OneWriter ReaderThreads GuardedRun
open ServerHandlers (AllocResult processRdmaRpcOpen)
open ServerThreads (Threads Ledger)
open CommitBarrier (Net Request)
open RpcCalls (nrBinders)

variable {Page : Type*}

/-- `asked` are the servers whose answer to a COMMIT is awaited, `astray` the writers
whose answer to an OPEN went to another binder: they spin from then on. -/
structure System (Page : Type*) extends Writers Page where
  net : ℕ → Net Page
  asked : ℕ → Bool
  astray : ℕ → Bool
  reader : ℕ → Reader Page
  latest : U32 → Option Page

/-- `lost` are the servers that a frame does not reach, `b` is the binder of a call. -/
inductive Label (Page : Type*) where
  | driver (l : WriterThreads.Label Page) (lost : ℕ → Bool)
  | openRpc (i b : ℕ) (a : AllocResult)
  | askCommit (i b : ℕ)
  | commitRpc (i : ℕ)
  | server (c : ℕ) (l : CommitBarrier.Label Page)
  | reader (l : ReaderThreads.Label Page)

def isRpc : WriterThreads.Label Page → Bool
  | .openRpc _ _ => true
  | .commitRpc _ _ => true
  | _ => false

def isClient : CommitBarrier.Label Page → Bool
  | .send _ _ => true
  | .request _ => true
  | _ => false

def isRead : ReaderThreads.Label Page → Bool
  | .driver _ _ => false
  | .deliver _ _ => false
  | _ => true

/-! What is seen of a server. -/

def copied (t : Threads Page) : ℕ := t.listed-(if t.mcast.isSome then 1 else 0)

def pending (n : Net Page) : List (Frame Page) :=
  ((n.sent.drop (copied n.thr)).zipIdx (copied n.thr)).map fun e => ⟨e.2,e.1.1,e.1.2⟩

section Step
variable [Zero Page]

def memory (s : ServerHandlers.Server Page) (p : Ptr) : Page :=
  match s.memblocks p.block with
  | some mb => mb.pages p.byte
  | none => 0

def seen (n : Net Page) : ReaderThreads.Server Page := ⟨memory n.thr.srv,pending n⟩

def view (d : System Page) : Cluster Page where
  toWriters := d.toWriters
  server := fun c => seen (d.net c)
  reader := d.reader
  latest := d.latest

def posted (l : WriterThreads.Label Page) (d : System Page) : Option (U32 × Page) :=
  match l with
  | .post i ret =>
    if ret = 0#32 then some (flowHeader (d.call i).offset,(d.call i).page) else none
  | _ => none

def multicast (f : Option (U32 × Page)) (n : Net Page) : Net Page :=
  { n with channel := n.channel++f.toList, sent := n.sent++f.toList }

def base (s : ServerHandlers.Server Page) (k : ℕ) : Option ℕ :=
  (s.memblocks k).map ServerHandlers.Memblock.buffer

/-- The block of the table that is registered at an address. -/
def locate (s : ServerHandlers.Server Page) (addr : ℕ) : Option ℕ :=
  (List.range maxMemblock).find? fun k => base s k == some addr

/-- The RDMA thread answers an OPEN with the address and the key of the block its handler
finds or adds; the driver's pointers name the block that the address is registered for.
There is no answer for a block past the table. -/
def serveOpen (a : AllocResult) (header : U32) (n : Net Page) : Option (Net Page × RdmaInfo) :=
  if n.thr.rdma = .idle ∧ ibGetOpcode header = opcodeOpen ∧ ServerHandlers.InTable header then
    (processRdmaRpcOpen a header n.thr.srv).bind fun s =>
      (s.memblocks (blockOf (pageOffset header))).bind fun mb =>
        (locate s mb.buffer).map fun k =>
          ({ n with thr := { n.thr with srv := s } },⟨⟨k,0⟩,mb.rkey⟩)
  else none

def openTarget (i : ℕ) (d : System Page) : Option ℕ :=
  match d.pc i with
  | .openSub => subRdmaCtrl d.toDriver
  | .openMain _ => some d.mainRdmaCtrl
  | _ => none

/-- `ib_rpc_open_unlocked` asks for blocks that are not open. -/
def asks (i c : ℕ) (d : System Page) : Prop :=
  (d.ctrl c).alive = true ∧ ((d.ctrl c).rdmaInfo (getNumMemblock (d.call i).offset)).rkey = 0#32

instance (i c : ℕ) (d : System Page) : Decidable (asks i c d) :=
  inferInstanceAs (Decidable (_ ∧ _))

def step : Label Page → System Page → Option (System Page)
  | .driver l lost, d =>
    if isRpc l then none
    else (WriterThreads.step l d.toWriters).map fun u => { d with
      toWriters := u
      net := fun c => multicast (if lost c then none else posted l d) (d.net c)
      reader := fun r => (d.reader r).overlapped l
      latest := written l (view d) }
  | .openRpc i b a, d => (openTarget i d).bind fun c =>
    if d.astray i then none
    else if asks i c d then
      if b < nrBinders then
        let header := rpcImm (openWord (d.call i).offset) b
        (serveOpen a header (d.net c)).bind fun r =>
          if replyBinder header = b then
            (WriterThreads.step (.openRpc i (some r.2)) d.toWriters).map fun u =>
              { d with toWriters := u, net := Function.update d.net c r.1 }
          else some { d with
            net := Function.update d.net c r.1
            astray := Function.update d.astray i true }
      else none
    else (WriterThreads.step (.openRpc i none) d.toWriters).map fun u =>
      { d with toWriters := u }
  | .askCommit i b, d => match d.pc i with
    | .committing (c::_) _ =>
      if (d.ctrl c).alive ∧ d.asked c = false ∧ b < nrBinders then
        (CommitBarrier.step (.request (rpcImm commitWord b)) (d.net c)).map fun n =>
          { d with net := Function.update d.net c n, asked := Function.update d.asked c true }
      else none
    | _ => none
  | .commitRpc i, d => match d.pc i with
    | .committing (c::_) _ =>
      if (d.ctrl c).alive → d.asked c ∧ (d.net c).rpc = [] ∧ (d.net c).current.isNone then
        (WriterThreads.step (.commitRpc i 0#32) d.toWriters).map fun u =>
          { d with toWriters := u, asked := Function.update d.asked c false }
      else none
    | _ => none
  | .server c l, d =>
    if isClient l then none
    else (CommitBarrier.step l (d.net c)).map fun n =>
      { d with net := Function.update d.net c n }
  | .reader l, d =>
    if isRead l then
      (ReaderThreads.step l (view d)).map fun w => { d with reader := w.reader }
    else none

def initDeployment (stage : ℕ → Page) (call : ℕ → Call Page) (base : ℕ → ℕ) (rkey : ℕ → U32) :
    System Page where
  toWriters := initWriters (fun _ => ⟨true,fun _ => ⟨⟨0,0⟩,0#32⟩⟩) [1,0] 0 stage call
  net := fun c => CommitBarrier.initNet (base c) (rkey c)
  asked := fun _ => false
  astray := fun _ => false
  reader := fun _ => ⟨.idle,0#32,0,none,none⟩
  latest := fun _ => none

end Step

/-! What the steps of a server come to, as it is seen. -/

/-- Memory is had, and no commit comes between the halves of a FLOW handler. -/
def Calm : CommitBarrier.Label Page → Net Page → Prop
  | .convey a, _ => a.Succeeds
  | .region _, n => n.thr.mcast = none
  | _, _ => True

theorem pending_length (n : Net Page) :
    (pending n).length = n.sent.length-copied n.thr := by
  simp [pending]

theorem frames_step {l : WriterThreads.Label Page} {d : System Page} {u : Writers Page}
    (hs : WriterThreads.step l d.toWriters = some u) :
    u.frames = d.frames++(posted l d).toList := by
  cases hp : l.quiet with
  | some i =>
    have hnone : posted l d = none := by
      cases l <;> first | rfl | cases hp
    rw [(quiet_step l i d.toWriters u hp hs).frames, hnone]
    exact (List.append_nil _).symm
  | none =>
    cases step_effect hs with
    | post hpc => simp [posted]
    | refuse hpc hret => simp [posted, hret, move]
    | store xa hpc => simp [posted, store, move]
    | count hpc => simp [posted, count, move]
    | connect c => simp [posted, withDriver]
    | abort hpc hret => simp [posted, fail, move]
    | start hpc hb => simp [posted, move]
    | pass hpc hb => simp [posted, move]
    | resetBatch hpc => simp [posted, move]
    | clear hpc => simp [posted, move]
    | resetCount hpc => simp [posted, move]
    | complete hpc => simp [posted, move]
    | incomplete hpc => simp [posted, move]
    | _ => cases hp

theorem imm_fields (opcode : U32) {b : ℕ} (hb : b < nrBinders) :
    ibGetOpcode (rpcImm opcode b) = ibGetOpcode opcode ∧
      blockOf (pageOffset (rpcImm opcode b)) = blockOf (pageOffset opcode) := by
  have hlow : (BitVec.ofNat 32 b).toNat = b := by
    unfold nrBinders at hb
    rw [BitVec.toNat_ofNat, Nat.mod_eq_of_lt (by omega)]
  have hor : (rpcImm opcode b).toNat / 2^18 = opcode.toNat / 2^18 := by
    unfold nrBinders at hb
    rw [rpcImm, BitVec.toNat_or, hlow, Nat.or_div_two_pow, Nat.div_eq_of_lt (a := b) (by omega),
      Nat.or_zero]
  refine ⟨BitVec.eq_of_toNat_eq ?_,?_⟩
  · rw [ib_get_opcode_eq, ib_get_opcode_eq]
    omega
  · unfold blockOf pageOffset
    omega

theorem open_block (offset : U32) {b : ℕ} (hb : b < nrBinders) :
    blockOf (pageOffset (rpcImm (openWord offset) b)) = getNumMemblock offset := by
  have hop : (opcodeOpen <<< 28) >>> 18 &&& 0x3ff#32 = 0#32 := by decide
  rw [(imm_fields (openWord offset) hb).2, pageOffset, ← get_num_memblock_eq, getNumMemblock,
    getNumMemblock, openWord, BitVec.ushiftRight_or_distrib, BitVec.and_comm,
    BitVec.and_or_distrib_left, BitVec.and_comm, hop, BitVec.zero_or, BitVec.and_comm]

section Memory
variable [Zero Page]

structure Kept (n : Net Page) : Prop where
  ledger : Ledger n.thr
  sent : n.sent = n.thr.arrived++n.channel

theorem copied_le {n : Net Page} (h : Kept n) : copied n.thr ≤ n.sent.length := by
  have hlisted : n.thr.listed ≤ n.thr.arrived.length := Nat.sub_le ..
  have hle : copied n.thr ≤ n.thr.listed := Nat.sub_le ..
  rw [h.sent, List.length_append]
  omega

theorem memory_add (a : AllocResult) (id : ℕ) (s : ServerHandlers.Server Page) :
    memory (ServerHandlers.addMemblock a id s).2 = memory s := by
  unfold ServerHandlers.addMemblock
  split
  · rfl
  · next hn =>
    have hnone : s.memblocks id = none := by simpa using hn
    split
    · funext p
      by_cases hp : p.block = id
      · simp [memory, hp, hnone]
      · simp [memory, hp]
    · rfl

theorem memory_copy (wc : ServerHandlers.Wc) (b byte : ℕ) (s : ServerHandlers.Server Page)
    (h : (s.memblocks b).isSome) : memory (ServerHandlers.copyPage wc b byte s) =
      Function.update (memory s) ⟨b,byte⟩ (s.rw wc.wrId).buffer := by
  obtain ⟨mb,hmb⟩ := Option.isSome_iff_exists.mp h
  funext ⟨pb,pbyte⟩
  by_cases hb : pb = b
  · subst hb
    by_cases hbyte : pbyte = byte
    · subst hbyte
      simp [memory, ServerHandlers.copyPage, hmb]
    · simp [memory, ServerHandlers.copyPage, hmb, hbyte]
  · simp [memory, ServerHandlers.copyPage, hb]

theorem memory_convey (a : AllocResult) (wc : ServerHandlers.Wc)
    (s : ServerHandlers.Server Page) (ha : a.Succeeds) :
    memory (ServerHandlers.ibConveyPage a wc s).2 = Function.update (memory s)
      ⟨blockOf (pageOffset wc.immData),byteOf (pageOffset wc.immData)⟩ (s.rw wc.wrId).buffer := by
  obtain ⟨off,hd,hbyte⟩ := interpret_header_eq wc.immData
  simp only [ServerHandlers.ibConveyPage, hd, hbyte]
  split
  · next hn =>
    have hnone : s.memblocks (blockOf (pageOffset wc.immData)) = none := by simpa using hn
    have hadd : (ServerHandlers.addMemblock a (blockOf (pageOffset wc.immData)) s).1 = true :=
      (CommitWalk.add_memblock_absent_iff a _ s hnone).mpr ha
    have hp := ServerHandlers.add_memblock_provided a _ s hadd
    rw [if_pos hadd, memory_copy _ _ _ _ hp.mapped, memory_add, hp.rw_eq]
  · next hn =>
    rw [if_pos rfl, memory_copy]
    simpa [Option.isSome_iff_ne_none] using hn

theorem memory_open (a : AllocResult) (header : U32) {s t : ServerHandlers.Server Page}
    (h : processRdmaRpcOpen a header s = some t) : memory t = memory s := by
  obtain ⟨off,hd,-⟩ := interpret_header_eq header
  simp only [processRdmaRpcOpen, hd, Option.map_eq_some_iff] at h
  obtain ⟨mb,-,rfl⟩ := h
  split
  · exact memory_add a _ s
  · rfl

theorem memory_region (alloc : ℕ → AllocResult) {t : Threads Page} (h : Ledger t)
    (hm : t.mcast = none) : memory (ServerHandlers.commitRegion alloc t.srv) = memory t.srv := by
  have hup : ∀ w ∈ t.srv.commitList, (t.srv.rw w).convey = true :=
    fun w hw => h.whole w hw (by simp [hm])
  rw [ServerHandlers.commitRegion, ServerHandlers.walk_conveyed alloc _ _ hup,
    ServerHandlers.drain_eq _ _ rfl]
  rfl

structure Stays (t u : Threads Page) : Prop where
  arrived : u.arrived = t.arrived
  memory : memory u.srv = memory t.srv
  copied : copied u = copied t

theorem stays_seen {n : Net Page} {u : Threads Page} (h : Stays n.thr u) (rpc : List Request)
    (current : Option Request) (base : ℕ) :
    seen { n with thr := u, rpc := rpc, current := current, base := base } = seen n := by
  unfold seen pending
  dsimp only
  rw [h.memory, h.copied]

def isSeen : ServerThreads.Label Page → Bool
  | .arrive _ _ _ => true
  | .convey _ => true
  | _ => false

theorem thread_stays {l : ServerThreads.Label Page} {t u : Threads Page} (h : Ledger t)
    (hs : ServerThreads.step l t = some u) (hg : ServerThreads.Unsplit l t)
    (hl : isSeen l = false) : Stays t u := by
  cases l with
  | arrive header payload w => cases hl
  | convey a => cases hl
  | poll =>
    obtain ⟨wc,cq,ht,hm,hq,rfl⟩ := ServerThreads.poll_cases hs
    refine ⟨rfl,rfl,?_⟩
    simp [copied, Threads.listed, Threads.queue, ht, hq]
  | listAdd =>
    obtain ⟨wc,ht,rfl⟩ := Option.map_eq_some_iff.mp hs
    have hm : t.mcast = none := h.alone (by simp [ht])
    have hlisted := ServerThreads.list_flow_listed h ht
    refine ⟨rfl,rfl,?_⟩
    rw [copied, copied, hlisted, hm]
    rfl
  | pick immData =>
    simp only [ServerThreads.step, Option.ite_none_right_eq_some] at hs
    exact Option.some.inj hs.2 ▸ ⟨rfl,rfl,rfl⟩
  | pass =>
    simp only [ServerThreads.step] at hs
    split at hs
    · simp only [Option.ite_none_right_eq_some] at hs
      exact Option.some.inj hs.2 ▸ ⟨rfl,rfl,rfl⟩
    · cases hs
  | region alloc =>
    simp only [ServerThreads.step] at hs
    split at hs
    · exact Option.some.inj hs ▸ ⟨rfl,memory_region alloc h hg,rfl⟩
    · cases hs
  | reply =>
    simp only [ServerThreads.step] at hs
    split at hs
    · exact Option.some.inj hs ▸ ⟨rfl,rfl,rfl⟩
    · cases hs

theorem convey_seen {n : Net Page} {a : AllocResult} {u : Threads Page} (h : Kept n)
    (ha : a.Succeeds) (hs : ServerThreads.step (.convey a) n.thr = some u) :
    (seen n).deliver 0 = some (seen { n with thr := u }) ∧ u.arrived = n.thr.arrived := by
  obtain ⟨wc,hm,rfl⟩ := Option.map_eq_some_iff.mp hs
  refine ⟨?_,rfl⟩
  obtain ⟨hwl,hwc,hflag,hlast,-⟩ := h.ledger.split wc hm
  obtain ⟨-,-,harr⟩ := h.ledger.listed wc.wrId hwl
  rw [hwc] at harr
  have hlt := (List.getElem?_eq_some_iff.mp harr).1
  have hsent : n.sent[wc.frame]? = some (wc.immData,(n.thr.srv.rw wc.wrId).buffer) := by
    rw [h.sent, List.getElem?_append_left hlt, harr]
  obtain ⟨hlt',hget⟩ := List.getElem?_eq_some_iff.mp hsent
  have hbefore : copied n.thr = wc.frame := by
    simp only [copied, hm, Option.isSome_some, if_true]
    omega
  have hafter : copied { n.thr with
      srv := ServerHandlers.flowConvey a wc n.thr.srv, mcast := none } = wc.frame+1 := by
    simp only [copied, Option.isSome_none, Bool.false_eq_true, if_false, Nat.sub_zero]
    exact hlast.symm
  have hpending : pending n = ⟨wc.frame,wc.immData,(n.thr.srv.rw wc.wrId).buffer⟩::
      pending { n with thr := { n.thr with
        srv := ServerHandlers.flowConvey a wc n.thr.srv, mcast := none } } := by
    rw [pending, pending, hafter, hbefore, List.drop_eq_getElem_cons hlt', hget,
      List.zipIdx_cons, List.map_cons]
  obtain ⟨off,hd,hbyte⟩ := interpret_header_eq wc.immData
  have hmemory : memory (ServerHandlers.flowConvey a wc n.thr.srv) = Function.update
      (memory n.thr.srv) ⟨blockOf (pageOffset wc.immData),byteOffset off⟩
        (n.thr.srv.rw wc.wrId).buffer := by
    rw [hbyte, ServerHandlers.flowConvey, if_neg (by simp [hflag]), memory_convey a wc _ ha]
  simp only [Server.deliver, seen, hpending, List.getElem?_cons_zero, Option.bind_some,
    List.take_zero, List.all_nil, if_true, hd, Option.map_some, hmemory, List.nil_append,
    Nat.zero_add, List.drop_one, List.tail_cons]

/-- A step of a server is not seen, or as a delivery. -/
structure Served (n m : Net Page) : Prop where
  sent : m.sent = n.sent
  last : m.last = n.last
  kept : Kept m
  seen : seen m = seen n ∨ (seen n).deliver 0 = some (seen m)

theorem server_step {l : CommitBarrier.Label Page} {n m : Net Page} (h : Kept n)
    (hl : isClient l = false) (hc : Calm l n) (hs : CommitBarrier.step l n = some m) :
    Served n m := by
  have hquiet : ∀ (k : ServerThreads.Label Page) {v : Net Page} {rpc current base},
      isSeen k = false → ServerThreads.Unsplit k n.thr →
      CommitBarrier.serverStep k { n with rpc := rpc, current := current, base := base } =
        some v → Served n v := by
    intro k v rpc current base hk hg hv
    obtain ⟨u,hu,rfl⟩ := Option.map_eq_some_iff.mp hv
    have hst := thread_stays h.ledger hu hg hk
    refine ⟨rfl,rfl,⟨ServerThreads.step_ledger k n.thr u h.ledger hg hu,?_⟩,
      .inl (stays_seen hst rpc current base)⟩
    change n.sent = u.arrived++n.channel
    rw [hst.arrived, h.sent]
  cases l with
  | send header payload => cases hl
  | request immData => cases hl
  | deliver w =>
    cases hch : n.channel with
    | nil => simp [CommitBarrier.step, hch] at hs
    | cons e rest =>
      simp only [CommitBarrier.step, hch] at hs
      obtain ⟨u,hu,rfl⟩ := Option.map_eq_some_iff.mp hs
      have hledger := ServerThreads.step_ledger (.arrive e.1 e.2 w) _ u h.ledger trivial hu
      simp only [ServerThreads.step, Option.ite_none_right_eq_some] at hu
      obtain rfl := Option.some.inj hu.2
      refine ⟨rfl,rfl,⟨hledger,?_⟩,.inl ?_⟩
      · change n.sent = (n.thr.arrived++[e])++rest
        rw [h.sent, hch, List.append_assoc]
        rfl
      · have hcopied : copied (ServerThreads.arrive e.1 e.2 w n.thr) = copied n.thr :=
          congrArg (·-(if n.thr.mcast.isSome then 1 else 0))
            (ServerThreads.arrive_listed e.1 e.2 w n.thr)
        simp only [seen, pending, hcopied]
        rfl
  | poll => exact hquiet .poll rfl trivial hs
  | listAdd => exact hquiet .listAdd rfl trivial hs
  | convey a =>
    obtain ⟨u,hu,rfl⟩ := Option.map_eq_some_iff.mp hs
    obtain ⟨hseen,harr⟩ := convey_seen h hc hu
    refine ⟨rfl,rfl,⟨ServerThreads.step_ledger (.convey a) n.thr u h.ledger hc hu,?_⟩,.inr hseen⟩
    change n.sent = u.arrived++n.channel
    rw [harr, h.sent]
  | pick =>
    cases hr : n.rpc with
    | nil => simp [CommitBarrier.step, hr] at hs
    | cons r rest =>
      simp only [CommitBarrier.step, hr] at hs
      exact hquiet (.pick r.immData) rfl trivial hs
  | pass => exact hquiet .pass rfl trivial hs
  | region alloc => exact hquiet (.region alloc) rfl hc hs
  | reply => exact hquiet .reply rfl trivial hs

theorem open_ledger {a : AllocResult} {header : U32} {t : Threads Page}
    {s : ServerHandlers.Server Page} (h : Ledger t)
    (hs : processRdmaRpcOpen a header t.srv = some s) : Ledger { t with srv := s } := by
  obtain ⟨hpages,hrw,hp,hb,hl,addr,rkey,hlog⟩ := ServerHandlers.open_effect header a t.srv s hs
  have hcon : ∀ f, ServerThreads.conveys f s.log = ServerThreads.conveys f t.srv.log := by
    intro f
    rw [hlog, ServerThreads.conveys_cons]
    rfl
  refine ⟨?_,h.fits,h.fifo,h.alone,?_,?_,?_,?_,?_,?_,?_,?_,?_,?_,?_,?_,?_⟩
  · rw [hp, hl]; exact h.works
  · rw [hl, hrw]; exact h.distinct
  · rw [hl, hrw]; exact h.down
  · rw [hrw]; exact h.queued
  · rw [hl, hrw]; exact h.listed
  · rw [hl, hrw]
    intro wc hwc
    obtain ⟨hin,hself,hdown,hlast,hzero⟩ := h.split wc hwc
    exact ⟨hin,hself,hdown,hlast,(hcon _).trans hzero⟩
  · rw [hl, hrw]; exact h.whole
  · exact fun f hf hn => (hcon f).trans (h.once f hf hn)
  · exact fun f hf => (hcon f).trans (h.fresh f hf)
  · rw [hlog]
    intro f block byte content he
    refine h.placed f block byte content ((List.mem_cons.mp he).resolve_left fun heq => ?_)
    cases heq
  · exact h.replayed.quiet hpages [_] hlog (by simp [ServerHandlers.Event.written])
  · rw [hlog]; exact h.copyFirst
  · rw [hlog, hb]; exact h.tally
  · rw [hb, hl]; exact h.batch

theorem serve_open_cases {a : AllocResult} {header : U32} {n m : Net Page} {info : RdmaInfo}
    (hs : serveOpen a header n = some (m,info)) :
    ∃ s mb k, ServerHandlers.InTable header ∧
      processRdmaRpcOpen a header n.thr.srv = some s ∧
      s.memblocks (blockOf (pageOffset header)) = some mb ∧ locate s mb.buffer = some k ∧
      m = { n with thr := { n.thr with srv := s } } ∧ info = ⟨⟨k,0⟩,mb.rkey⟩ := by
  simp only [serveOpen, Option.ite_none_right_eq_some, Option.bind_eq_some_iff,
    Option.map_eq_some_iff] at hs
  obtain ⟨⟨-,-,htable⟩,s,hopen,mb,hmb,k,hk,he⟩ := hs
  obtain ⟨rfl,rfl⟩ := Prod.mk.inj he
  exact ⟨s,mb,k,htable,hopen,hmb,hk,rfl,rfl⟩

/-- The block is found or added, and nothing is seen of it. -/
structure Opened (n m : Net Page) : Prop where
  served : Served n m
  same : seen m = seen n
  sound : CommitBarrier.Sound n → CommitBarrier.Sound m

theorem serve_open {a : AllocResult} {header : U32} {n m : Net Page} {info : RdmaInfo}
    (h : Kept n) (hs : serveOpen a header n = some (m,info)) : Opened n m := by
  obtain ⟨s,-,-,-,hopen,-,-,rfl,-⟩ := serve_open_cases hs
  have hledger := open_ledger h.ledger hopen
  have hsame : seen { n with thr := { n.thr with srv := s } } = seen n := by
    simp only [seen, memory_open a header hopen]
    rfl
  refine ⟨⟨rfl,rfl,⟨hledger,h.sent⟩,.inl hsame⟩,hsame,fun hn => ?_⟩
  obtain ⟨-,-,-,-,hl,-⟩ := ServerHandlers.open_effect header a n.thr.srv s hopen
  refine CommitBarrier.Moved.sound ⟨hledger,rfl,le_refl _,?_⟩ hn rfl
  change n.thr.listed+s.commitList.length ≤ n.thr.listed+n.thr.srv.commitList.length
  rw [hl]

inductive OpenEffect (i b : ℕ) (a : AllocResult) (d : System Page) : System Page → Prop where
  | known {c : ℕ} {u : Writers Page} (hc : openTarget i d = some c) (hasks : ¬asks i c d)
      (hu : WriterThreads.step (.openRpc i none) d.toWriters = some u) :
      OpenEffect i b a d { d with toWriters := u }
  | answered {c : ℕ} {n : Net Page} {info : RdmaInfo} {u : Writers Page}
      (hc : openTarget i d = some c) (hb : b < nrBinders)
      (hserve : serveOpen a (rpcImm (openWord (d.call i).offset) b) (d.net c) = some (n,info))
      (hu : WriterThreads.step (.openRpc i (some info)) d.toWriters = some u) :
      OpenEffect i b a d { d with toWriters := u, net := Function.update d.net c n }
  | astray {c : ℕ} {n : Net Page} {info : RdmaInfo} (hc : openTarget i d = some c)
      (hserve : serveOpen a (rpcImm (openWord (d.call i).offset) b) (d.net c) = some (n,info))
      (hbinder : replyBinder (rpcImm (openWord (d.call i).offset) b) ≠ b) :
      OpenEffect i b a d { d with
        net := Function.update d.net c n
        astray := Function.update d.astray i true }

theorem open_effect {i b : ℕ} {a : AllocResult} {d e : System Page}
    (hs : step (.openRpc i b a) d = some e) : OpenEffect i b a d e := by
  obtain ⟨c,hc,hs⟩ := Option.bind_eq_some_iff.mp hs
  obtain ⟨-,hs⟩ := Option.ite_none_left_eq_some.mp hs
  by_cases hasks : asks i c d
  · rw [if_pos hasks] at hs
    obtain ⟨hb,hs⟩ := Option.ite_none_right_eq_some.mp hs
    obtain ⟨⟨n,info⟩,hserve,hs⟩ := Option.bind_eq_some_iff.mp hs
    split at hs
    · obtain ⟨u,hu,rfl⟩ := Option.map_eq_some_iff.mp hs
      exact .answered hc hb hserve hu
    · next hbinder =>
      obtain rfl := Option.some.inj hs
      exact .astray hc hserve hbinder
  · rw [if_neg hasks] at hs
    obtain ⟨u,hu,rfl⟩ := Option.map_eq_some_iff.mp hs
    exact .known hc hasks hu

inductive NetEffect (c : ℕ) : Label Page → System Page → System Page → Prop where
  | sent {l : WriterThreads.Label Page} {lost : ℕ → Bool} {d e : System Page}
      (f : Option (U32 × Page)) (hframes : e.frames = d.frames++f.toList)
      (hnet : e.net c = multicast (if lost c then none else f) (d.net c)) :
      NetEffect c (.driver l lost) d e
  | idle {l : Label Page} {d e : System Page} (hframes : e.frames = d.frames)
      (hnet : e.net c = d.net c) : NetEffect c l d e
  | opened {l : Label Page} {d e : System Page} {a : AllocResult} {header : U32}
      {info : RdmaInfo} (hframes : e.frames = d.frames)
      (hnet : serveOpen a header (d.net c) = some (e.net c,info)) : NetEffect c l d e
  | asked {l : Label Page} {d e : System Page} {immData : U32} (hframes : e.frames = d.frames)
      (hnet : CommitBarrier.step (.request immData) (d.net c) = some (e.net c)) : NetEffect c l d e
  | served {k : CommitBarrier.Label Page} {d e : System Page} (hk : isClient k = false)
      (hframes : e.frames = d.frames)
      (hnet : CommitBarrier.step k (d.net c) = some (e.net c)) : NetEffect c (.server c k) d e

theorem net_effect {l : Label Page} {d e : System Page} (hs : step l d = some e) (c : ℕ) :
    NetEffect c l d e := by
  cases l with
  | driver l lost =>
    obtain ⟨-,hs⟩ := Option.ite_none_left_eq_some.mp hs
    obtain ⟨u,hu,rfl⟩ := Option.map_eq_some_iff.mp hs
    exact .sent _ (frames_step hu) rfl
  | openRpc i b a =>
    have hsame : ∀ {o : Option RdmaInfo} {u : Writers Page},
        WriterThreads.step (.openRpc i o) d.toWriters = some u → u.frames = d.frames :=
      fun hu => by simpa [posted] using frames_step hu
    have hserve : ∀ {x : ℕ} {header : U32} {n : Net Page} {info : RdmaInfo} {e : System Page},
        serveOpen a header (d.net x) = some (n,info) → e.frames = d.frames →
        e.net = Function.update d.net x n → NetEffect c (.openRpc i b a) d e := by
      intro x header n info e hopen hframes hnet
      by_cases hc : c = x
      · subst hc
        exact .opened hframes (by simpa [hnet] using hopen)
      · exact .idle hframes (by simp [hnet, hc])
    cases open_effect hs with
    | known hc hasks hu => exact .idle (hsame hu) rfl
    | answered hc hb hopen hu => exact hserve hopen (hsame hu) rfl
    | astray hc hopen hbinder => exact hserve hopen rfl rfl
  | askCommit i b =>
    simp only [step] at hs
    split at hs
    · next x todo ret hpc =>
      obtain ⟨-,hs⟩ := Option.ite_none_right_eq_some.mp hs
      obtain ⟨n,hn,rfl⟩ := Option.map_eq_some_iff.mp hs
      by_cases hc : c = x
      · subst hc
        exact .asked rfl (by simpa using hn)
      · exact .idle rfl (Function.update_of_ne hc ..)
    · cases hs
  | commitRpc i =>
    simp only [step] at hs
    split at hs
    · obtain ⟨-,hs⟩ := Option.ite_none_right_eq_some.mp hs
      obtain ⟨u,hu,rfl⟩ := Option.map_eq_some_iff.mp hs
      exact .idle (by simpa [posted] using frames_step hu) rfl
    · cases hs
  | server x l =>
    obtain ⟨hl,hs⟩ := Option.ite_none_left_eq_some.mp hs
    obtain ⟨n,hn,rfl⟩ := Option.map_eq_some_iff.mp hs
    by_cases hc : c = x
    · subst hc
      exact .served (by simpa using hl) rfl (by simpa using hn)
    · exact .idle rfl (Function.update_of_ne hc ..)
  | reader l =>
    obtain ⟨-,hs⟩ := Option.ite_none_right_eq_some.mp hs
    obtain ⟨w,-,rfl⟩ := Option.map_eq_some_iff.mp hs
    exact .idle rfl rfl

end Memory

/-! Where the blocks are. -/

section Blocks

def Apart (s : ServerHandlers.Server Page) : Prop :=
  ∀ j < maxMemblock, ∀ k < maxMemblock, base s j ≠ none → base s j = base s k → j = k

/-- The area that `mmap` yields is not that of a block. -/
def Fresh (a : AllocResult) (s : ServerHandlers.Server Page) : Prop :=
  ∀ k < maxMemblock, base s k ≠ none → base s k ≠ a.mmap

instance decidableFresh (a : AllocResult) (s : ServerHandlers.Server Page) :
    Decidable (Fresh a s) :=
  inferInstanceAs (Decidable (∀ k < _, _))

theorem locate_base {s : ServerHandlers.Server Page} {k addr : ℕ} (h : Apart s)
    (hk : k < maxMemblock) (hb : base s k = some addr) : locate s addr = some k := by
  cases hl : locate s addr with
  | none =>
    have hnone := List.find?_eq_none.mp hl k (List.mem_range.mpr hk)
    exact absurd hb (by simpa using hnone)
  | some j =>
    have hj : base s j = some addr := by simpa using List.find?_some hl
    have hlt := List.mem_range.mp (List.mem_of_find?_eq_some hl)
    exact congrArg some (h j hlt k hk (by simp [hj]) (hj.trans hb.symm))

variable [Zero Page]

theorem base_add (a : AllocResult) (id : ℕ) (s : ServerHandlers.Server Page) :
    base (ServerHandlers.addMemblock a id s).2 = base s ∨
      base (ServerHandlers.addMemblock a id s).2 = Function.update (base s) id a.mmap := by
  unfold ServerHandlers.addMemblock
  split
  · exact .inl rfl
  · split
    · next buffer rkey hm _ =>
      refine .inr (funext fun k => ?_)
      by_cases hk : k = id <;> simp [base, hk, hm]
    · exact .inl rfl

theorem add_apart {a : AllocResult} {id : ℕ} {s : ServerHandlers.Server Page} (h : Apart s)
    (hf : Fresh a s) : Apart (ServerHandlers.addMemblock a id s).2 := by
  intro j hj k hk
  rcases base_add a id s with he | he <;> rw [he]
  · exact h j hj k hk
  · by_cases hji : j = id
    · by_cases hki : k = id
      · exact fun _ _ => hji.trans hki.symm
      · rw [hji, Function.update_self, Function.update_of_ne hki]
        exact fun hne heq => absurd heq.symm (hf k hk (heq ▸ hne))
    · rw [Function.update_of_ne hji]
      by_cases hki : k = id
      · rw [hki, Function.update_self]
        exact fun hne heq => absurd heq (hf j hj hne)
      · rw [Function.update_of_ne hki]
        exact h j hj k hk

theorem open_apart {a : AllocResult} {header : U32} {s t : ServerHandlers.Server Page}
    (h : Apart s) (hf : Fresh a s) (hs : processRdmaRpcOpen a header s = some t) : Apart t := by
  obtain ⟨off,hd,-⟩ := interpret_header_eq header
  simp only [processRdmaRpcOpen, hd, Option.map_eq_some_iff] at hs
  obtain ⟨mb,-,rfl⟩ := hs
  split
  · exact add_apart h hf
  · exact h

theorem opened_addr {a : AllocResult} {header : U32} {n m : Net Page} {info : RdmaInfo}
    (h : Apart n.thr.srv) (hf : Fresh a n.thr.srv)
    (hs : serveOpen a header n = some (m,info)) :
    Apart m.thr.srv ∧ info.remoteAddr = ⟨blockOf (pageOffset header),0⟩ := by
  obtain ⟨s,mb,k,htable,hopen,hmb,hk,rfl,rfl⟩ := serve_open_cases hs
  have hapart := open_apart h hf hopen
  refine ⟨hapart,?_⟩
  have hbase : base s (blockOf (pageOffset header)) = some mb.buffer := by simp [base, hmb]
  rw [locate_base hapart htable hbase, Option.some.injEq] at hk
  rw [hk]

end Blocks

end Maruswap.Deployment
