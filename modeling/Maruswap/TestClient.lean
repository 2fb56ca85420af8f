import Maruswap.CommitPaths
import Maruswap.DecimalText
import Maruswap.DeployedReads
import Maruswap.OpenedBlocks
import Maruswap.PageRanges
import Maruswap.Replicas
import Maruswap.RingWindow
import Maruswap.RpcBuffers

/-!
# The test client

`test_rpc_open` of the library, which is what the client program runs: it opens 25
blocks, multicasts pages with random offsets, each with its offset printed into it,
commits after every `CONFIG_BATCH` of them, and then reads each of them back over RDMA
and compares the number. Line by line, against the handler threads of one server. Every
RPC takes the receive work that comes next, on this side as on the other, and some works
have slots past the end of what is registered: with such a one the message is not
received, and what becomes of the connection is not followed any further.
-/

set_option autoImplicit false

namespace Maruswap.TestClient
open WireFormat BitFields DecimalText GuardedRun Deployment
open DriverStage (Ptr RdmaInfo)
open ServerHandlers (AllocResult configBatch commitNeed)
open CommitBarrier (Net AllocSucceeds InOrder Sound)
open RpcCalls (nrBinders)
open OpenedBlocks (registered)
open PageRanges (memblockSize)
open RpcBuffers (mcmMaxRecvWr serverSlotSize rpcBufferSize)
open Replicas (Replica stored)

def Bytes : Type := Fin pageSize → Char

instance : Zero Bytes := ⟨fun _ => nul⟩

/-- The blocks that are opened, the rounds, and the frames of a round. -/
def nrOpened : ℕ := 25
def nrRounds : ℕ := 30
def roundLength : ℕ := 2^18

/-- The three loops: `i` of the first, `a` and `i` of the second and third, `ia` of the
one that reads back. A failed send returns, a failed read is an assertion, a number that
is not the one expected returns, and an RPC whose message is not received does not. -/
inductive Pc where
  | opening (i : ℕ)
  | drawing (a i : ℕ)
  | sending (a i : ℕ)
  | asking (a i : ℕ)
  | waiting (a i : ℕ)
  | reading (a i ia : ℕ)
  | comparing (a i ia : ℕ)
  | unopened
  | unanswered (a i : ℕ)
  | finished
  | unsent
  | unread
  | mismatch
  deriving DecidableEq

/-- `works` are the receive works of either side by their slots, in the order they are
posted in, and `readBack` is a ghost, the headers of the frames that were read back. -/
structure Test where
  net : Net Bytes
  works : List ℕ
  pc : Pc
  list : ℕ → RdmaInfo
  header : U32
  numlist : ℕ → ℤ
  offsetlist : ℕ → U32
  lnum : Bytes
  scanBuffer : Bytes
  batch : ℕ
  sendCount : ℕ
  count : ℕ
  readBack : List U32

/-- `r` is what `rand` returns, and `success` whether the send completes. -/
inductive Label where
  | openBlock (b : ℕ) (a : AllocResult)
  | draw (r : U32)
  | send (success : Bool)
  | ask (b : ℕ)
  | answered
  | read
  | compare
  | turn
  | server (l : CommitBarrier.Label Bytes)

/-- `soffset >> 12` -/
def openOffset (i : ℕ) : U32 := BitVec.ofNat 32 (2^30*i/2^12)

/-- A read over RDMA goes through if it stays in the block and has its key. -/
def rdmaRead (info : RdmaInfo) (byte : ℕ) (n : Net Bytes) : Option Bytes :=
  if (registered n info.remoteAddr.block).any (fun mr => mr.2 = info.rkey) ∧
      info.remoteAddr.byte+byte+pageSize ≤ memblockSize then
    some (memory n.thr.srv ⟨info.remoteAddr.block,info.remoteAddr.byte+byte⟩)
  else none

/-- `atoi(scan_buffer)` -/
def number (page : Bytes) : ℤ := atoi (List.ofFn page)

/-- `(offset >> 18) & 0xff` -/
def nrBlock (offset : U32) : ℕ := ((offset >>> 18) &&& 0xff#32).toNat

def SlotFits (w : ℕ) : Prop := (w+1)*serverSlotSize ≤ rpcBufferSize

instance (w : ℕ) : Decidable (SlotFits w) := inferInstanceAs (Decidable (_ ≤ _))

/-- A work is put back behind the others. -/
def step : Label → Test → Option Test
  | .openBlock b a, s => match s.pc, s.works with
    | .opening i, w::works =>
      let header := rpcImm (openWord (openOffset i)) b
      if b < nrBinders ∧ replyBinder header = b then
        if SlotFits w then
          (serveOpen a header s.net).map fun r => { s with
            net := r.1
            works := works++[w]
            list := Function.update s.list i r.2
            pc := if i+1 < nrOpened then .opening (i+1) else .drawing 0 0 }
        else some { s with pc := .unopened }
      else none
    | _, _ => none
  | .draw r, s => match s.pc with
    | .drawing a i =>
      if i < roundLength then
        let offset := r &&& 0x3fffff#32
        some { s with
          header := flowHeader offset
          numlist := Function.update s.numlist (i % configBatch) offset.toInt
          offsetlist := Function.update s.offsetlist (i % configBatch) offset
          lnum := snprintf (decimal offset.toInt) s.lnum
          batch := s.batch+1
          pc := .sending a i }
      else none
    | _ => none
  | .send success, s => match s.pc with
    | .sending a i =>
      if success then some { s with
        net := multicast (some (s.header,s.lnum)) s.net
        pc := if s.batch % configBatch = 0 then .asking a i else .drawing a (i+1) }
      else some { s with pc := .unsent }
    | _ => none
  | .ask b, s => match s.pc, s.works with
    | .asking a i, w::works =>
      if b < nrBinders then
        if SlotFits w then
          (CommitBarrier.step (.request (rpcImm commitWord b)) s.net).map fun n =>
            { s with net := n, works := works++[w], pc := .waiting a i }
        else some { s with pc := .unanswered a i }
      else none
    | _, _ => none
  | .answered, s => match s.pc with
    | .waiting a i =>
      if s.net.rpc = [] ∧ s.net.current.isNone then
        some { s with pc := .reading a i s.sendCount }
      else none
    | _ => none
  | .read, s => match s.pc with
    | .reading a i ia =>
      if ia < s.batch then
        let offset := s.offsetlist (ia % configBatch)
        match rdmaRead (s.list (nrBlock offset)) (byteOffset (offset &&& 0x3ffff#32)) s.net with
        | some page => some { s with scanBuffer := page, pc := .comparing a i ia }
        | none => some { s with pc := .unread }
      else some { s with sendCount := s.batch, pc := .drawing a (i+1) }
    | _ => none
  | .compare, s => match s.pc with
    | .comparing a i ia =>
      if s.numlist (ia % configBatch) = number s.scanBuffer then some { s with
        count := s.count+1
        readBack := s.readBack++[flowHeader (s.offsetlist (ia % configBatch))]
        pc := .reading a i (ia+1) }
      else some { s with pc := .mismatch }
    | _ => none
  | .turn, s => match s.pc with
    | .drawing a i =>
      if i < roundLength then none
      else some { s with
        batch := 0, sendCount := 0
        pc := if a+1 < nrRounds then .drawing (a+1) 0 else .finished }
    | _ => none
  | .server l, s =>
    if isClient l then none
    else (CommitBarrier.step l s.net).map fun n => { s with net := n }

def initTest (base : ℕ) (rkey : U32) (list : ℕ → RdmaInfo) (lnum scanBuffer : Bytes) : Test where
  net := CommitBarrier.initNet base rkey
  works := List.range mcmMaxRecvWr
  pc := .opening 0
  list := list
  header := 0#32
  numlist := fun _ => 0
  offsetlist := fun _ => 0#32
  lnum := lnum
  scanBuffer := scanBuffer
  batch := 0
  sendCount := 0
  count := 0
  readBack := []

/-- A COMMIT finds a frame on the list, and its region splits none. -/
def Timely : CommitBarrier.Label Bytes → Net Bytes → Prop
  | .pick, n => n.thr.srv.commitList ≠ []
  | .region _, n => n.thr.mcast = none
  | _, _ => True

/-- Memory is had for the frames, and of its own for each block; commits come in time. -/
def Steady : Label → Test → Prop
  | .server l, s => AllocSucceeds l ∧ Timely l s.net
  | .openBlock _ a, s => Fresh a s.net.thr.srv
  | _, _ => True

/-! The server, as the test finds it. -/

/-- A batch has come to an end with this request, and the wait loop asks for as much. -/
structure Asked (r : CommitBarrier.Request) : Prop where
  since : r.since = configBatch
  need : commitNeed r.immData = configBatch

/-- Every request is for a whole batch, and every page that was sent has the number of its
offset in it. -/
structure Filled (n : Net Bytes) : Prop where
  sound : Sound n
  replica : Replica n.sent n
  rpc : ∀ r ∈ n.rpc, Asked r
  current : ∀ r ∈ n.current, Asked r
  need : ∀ immData, n.thr.rdma = .waiting immData → commitNeed immData = configBatch
  texts : ∀ e ∈ n.sent, ∃ offset : U32, offset.toNat < 2^22 ∧ e.1 = flowHeader offset ∧
    number e.2 = offset.toInt

theorem Filled.in_order {n m : Net Bytes} {l : CommitBarrier.Label Bytes} (h : Filled n)
    (hl : Timely l n) (hs : CommitBarrier.step l n = some m) : InOrder l n := by
  cases l with
  | pick => exact fun hempty => absurd hempty hl
  | pass =>
    intro r hr
    obtain ⟨u,hu,-⟩ := Option.map_eq_some_iff.mp hs
    simp only [ServerThreads.step] at hu
    split at hu
    · next immData hrdma =>
      obtain ⟨hneed,-⟩ := Option.ite_none_right_eq_some.mp hu
      rw [h.need immData hrdma, ← (h.current r hr).since] at hneed
      exact hneed
    · cases hu
  | region alloc => exact hl
  | _ => trivial

theorem asked_step {n m : Net Bytes} {l : CommitBarrier.Label Bytes} (h : Filled n)
    (hl : isClient l = false) (hs : CommitBarrier.step l n = some m) :
    (∀ r ∈ m.rpc, Asked r) ∧ (∀ r ∈ m.current, Asked r) ∧
      ∀ immData, m.thr.rdma = .waiting immData → commitNeed immData = configBatch := by
  have hkeep : m.rpc = n.rpc → m.current = n.current →
      (∀ immData, m.thr.rdma = .waiting immData → n.thr.rdma = .waiting immData) →
      (∀ r ∈ m.rpc, Asked r) ∧ (∀ r ∈ m.current, Asked r) ∧
        ∀ immData, m.thr.rdma = .waiting immData → commitNeed immData = configBatch :=
    fun hrpc hcurrent hw => ⟨hrpc ▸ h.rpc,hcurrent ▸ h.current,
      fun immData hi => h.need immData (hw immData hi)⟩
  cases l with
  | send header payload => cases hl
  | request immData => cases hl
  | deliver w =>
    simp only [CommitBarrier.step] at hs
    split at hs
    · obtain ⟨u,hu,rfl⟩ := Option.map_eq_some_iff.mp hs
      obtain ⟨-,hu⟩ := Option.ite_none_right_eq_some.mp hu
      obtain rfl := Option.some.inj hu
      exact hkeep rfl rfl fun _ hw => hw
    · cases hs
  | poll =>
    obtain ⟨u,hu,rfl⟩ := Option.map_eq_some_iff.mp hs
    obtain ⟨wc,cq,-,-,-,rfl⟩ := ServerThreads.poll_cases hu
    exact hkeep rfl rfl fun _ hw => hw
  | listAdd =>
    obtain ⟨u,hu,rfl⟩ := Option.map_eq_some_iff.mp hs
    obtain ⟨wc,-,rfl⟩ := Option.map_eq_some_iff.mp hu
    exact hkeep rfl rfl fun _ hw => hw
  | convey a =>
    obtain ⟨u,hu,rfl⟩ := Option.map_eq_some_iff.mp hs
    obtain ⟨wc,-,rfl⟩ := Option.map_eq_some_iff.mp hu
    exact hkeep rfl rfl fun _ hw => hw
  | pick =>
    simp only [CommitBarrier.step] at hs
    split at hs
    · next r rest hrpc =>
      obtain ⟨u,hu,rfl⟩ := Option.map_eq_some_iff.mp hs
      obtain ⟨-,hu⟩ := Option.ite_none_right_eq_some.mp hu
      obtain rfl := Option.some.inj hu
      have hr : Asked r := h.rpc r (by simp [hrpc])
      refine ⟨fun q hq => h.rpc q (by simp [hrpc, show q ∈ rest from hq]),fun q hq => ?_,
        fun immData hw => ?_⟩
      · exact Option.some.inj hq ▸ hr
      · dsimp only at hw
        split at hw
        · cases hw
        · exact ServerThreads.RdmaPc.waiting.inj hw ▸ hr.need
    · cases hs
  | pass =>
    obtain ⟨u,hu,rfl⟩ := Option.map_eq_some_iff.mp hs
    simp only [ServerThreads.step] at hu
    split at hu
    · obtain ⟨-,hu⟩ := Option.ite_none_right_eq_some.mp hu
      obtain rfl := Option.some.inj hu
      exact hkeep rfl rfl fun _ hw => by cases hw
    · cases hu
  | region alloc =>
    obtain ⟨u,hu,rfl⟩ := Option.map_eq_some_iff.mp hs
    simp only [ServerThreads.step] at hu
    split at hu
    · obtain rfl := Option.some.inj hu
      exact hkeep rfl rfl fun _ hw => by cases hw
    · cases hu
  | reply =>
    obtain ⟨u,hu,rfl⟩ := Option.map_eq_some_iff.mp hs
    simp only [ServerThreads.step] at hu
    split at hu
    · obtain rfl := Option.some.inj hu
      exact ⟨h.rpc,by simp,fun _ hw => by cases hw⟩
    · cases hu

theorem server_filled {n m : Net Bytes} {l : CommitBarrier.Label Bytes} (h : Filled n)
    (hl : isClient l = false) (ha : AllocSucceeds l) (ht : Timely l n)
    (hs : CommitBarrier.step l n = some m) : Filled m := by
  have horder := h.in_order ht hs
  have hreplica := Replicas.server_replica h.replica hl (DeployedReads.in_order_calm ha horder) hs
  obtain ⟨hrpc,hcurrent,hneed⟩ := asked_step h hl hs
  refine ⟨CommitBarrier.step_sound l n m h.sound ⟨ha,horder⟩ hs,hreplica.sent.symm ▸ hreplica,
    hrpc,hcurrent,hneed,?_⟩
  rw [hreplica.sent]
  exact h.texts

theorem page_read {n : Net Bytes} {offset : U32} (h : Filled n) (hp : pending n = [])
    (ho : offset.toNat < 2^22) (hsent : flowHeader offset ∈ n.sent.map Prod.fst) :
    number (stored n offset.toNat) = offset.toInt := by
  obtain ⟨e,he,hheader⟩ := List.mem_map.mp hsent
  have hpage : pageOffset e.1 = offset.toNat := by
    rw [hheader, flow_header_page, Nat.mod_eq_of_lt (by omega)]
  rw [Replicas.replica_settled h.replica (by simp [hp])]
  cases hlast : KeyedLog.lastOf offset.toNat (n.sent.map Replicas.entry) with
  | none =>
    have hnone := KeyedLog.last_of_none hlast _ (List.mem_map_of_mem he)
    exact absurd hpage hnone
  | some page =>
    obtain ⟨f,hf,hentry⟩ := List.mem_map.mp (KeyedLog.last_of_mem hlast)
    obtain ⟨hfst,rfl⟩ := Prod.mk.inj hentry
    obtain ⟨number,hlt,hnumber,htext⟩ := h.texts f hf
    rw [hnumber, flow_header_page, Nat.mod_eq_of_lt (by omega)] at hfst
    obtain rfl := BitVec.eq_of_toNat_eq hfst
    exact htext

/-! What the client sends. -/

theorem open_filled {a : AllocResult} {header : U32} {n m : Net Bytes} {info : RdmaInfo}
    (h : Filled n) (hs : serveOpen a header n = some (m,info)) : Filled m ∧ m.last = n.last := by
  have hreplica := Replicas.open_replica h.replica hs
  have hopened := serve_open h.replica.kept hs
  obtain ⟨srv,mb,k,-,-,-,-,rfl,rfl⟩ := serve_open_cases hs
  exact ⟨⟨hopened.sound h.sound,hreplica,h.rpc,h.current,h.need,h.texts⟩,rfl⟩

theorem send_filled {header offset : U32} {page : Bytes} {n : Net Bytes} (h : Filled n)
    (ho : offset.toNat < 2^22) (hheader : header = flowHeader offset)
    (hpage : number page = offset.toInt) : Filled (multicast (some (header,page)) n) := by
  refine ⟨CommitBarrier.send_sound header page n h.sound,
    Replicas.multicast_replica (some (header,page)) h.replica,h.rpc,h.current,h.need,
    fun e he => ?_⟩
  rcases List.mem_append.mp he with he | he
  · exact h.texts e he
  · obtain rfl := List.mem_singleton.mp he
    exact ⟨offset,ho,hheader,hpage⟩

theorem commit_word_need {b : ℕ} (hb : b < nrBinders) :
    commitNeed (rpcImm commitWord b) = configBatch := by
  refine CommitPaths.commit_need_eq _ ?_
  rw [(imm_fields commitWord hb).1]
  decide

theorem ask_filled {b : ℕ} {n m : Net Bytes} (h : Filled n) (hb : b < nrBinders)
    (hsince : n.sent.length-n.last = configBatch)
    (hs : CommitBarrier.step (.request (rpcImm commitWord b)) n = some m) :
    Filled m ∧ m.sent = n.sent ∧ m.thr = n.thr ∧ m.last = n.sent.length ∧
      m.channel = n.channel := by
  obtain ⟨-,hs⟩ := Option.ite_none_right_eq_some.mp hs
  obtain rfl := Option.some.inj hs
  refine ⟨⟨CommitBarrier.request_sound _ n h.sound,
    ⟨⟨h.replica.kept.ledger,h.replica.kept.sent⟩,rfl,h.replica.pages⟩,fun r hr => ?_,
    h.current,h.need,h.texts⟩,rfl,rfl,rfl,rfl⟩
  rcases List.mem_append.mp hr with hr | hr
  · exact h.rpc r hr
  · obtain rfl := List.mem_singleton.mp hr
    exact ⟨hsince,commit_word_need hb⟩

/-! Where the loops stand. -/

/-- The slot of `j` in the two rings is for the frame with this header. -/
structure Slot (s : Test) (j : ℕ) (header : U32) : Prop where
  bound : (s.offsetlist (j % configBatch)).toNat < 2^22
  word : header = flowHeader (s.offsetlist (j % configBatch))
  number : s.numlist (j % configBatch) = (s.offsetlist (j % configBatch)).toInt

/-- Where the batch of `i` began. -/
def start (i : ℕ) : ℕ := i/configBatch*configBatch

/-- In round `a` so many frames have been sent, and so many of them read back; the slots
from `low` on are theirs, and the last commit came behind `last` of them. -/
structure Stands (s : Test) (a low sent back last : ℕ) : Prop where
  round : a < nrRounds
  length : s.net.sent.length = a*roundLength+sent
  counted : s.sendCount = low
  ring : ∀ j, low ≤ j → j < sent → ∃ e, s.net.sent[a*roundLength+j]? = some e ∧ Slot s j e.1
  read : s.readBack = (s.net.sent.map Prod.fst).take (a*roundLength+back)
  asked : s.net.last = a*roundLength+last

/-- The batch of `i` is complete with it. -/
def Batch (i : ℕ) : Prop := i < roundLength ∧ (i+1) % configBatch = 0

def At (s : Test) : Prop :=
  match s.pc with
  | .opening i => i < nrOpened ∧ s.net.sent = [] ∧ s.net.last = 0 ∧ s.readBack = [] ∧
    s.batch = 0 ∧ s.sendCount = 0
  | .drawing a i => i ≤ roundLength ∧ s.batch = i ∧ Stands s a (start i) i (start i) (start i)
  | .sending a i => i < roundLength ∧ s.batch = i+1 ∧
    Stands s a (start i) i (start i) (start i) ∧ Slot s i s.header ∧
    number s.lnum = (s.offsetlist (i % configBatch)).toInt
  | .asking a i => Batch i ∧ s.batch = i+1 ∧ Stands s a (start i) (i+1) (start i) (start i)
  | .waiting a i => Batch i ∧ s.batch = i+1 ∧ Stands s a (start i) (i+1) (start i) (i+1)
  | .reading a i ia => Batch i ∧ s.batch = i+1 ∧ start i ≤ ia ∧ ia ≤ i+1 ∧
    pending s.net = [] ∧ Stands s a (start i) (i+1) ia (i+1)
  | .comparing a i ia => Batch i ∧ s.batch = i+1 ∧ start i ≤ ia ∧ ia < i+1 ∧
    pending s.net = [] ∧ Stands s a (start i) (i+1) ia (i+1) ∧
    number s.scanBuffer = (s.offsetlist (ia % configBatch)).toInt
  | .unopened => s.net.sent = [] ∧ s.readBack = []
  | .unanswered a i => Batch i ∧ Stands s a (start i) (i+1) (start i) (start i)
  | .finished => s.readBack <+: s.net.sent.map Prod.fst
  | .unsent => s.readBack <+: s.net.sent.map Prod.fst
  | .unread => False
  | .mismatch => False

/-- The blocks have addresses of their own, and the frames to come are among those that
were sent. -/
structure Charted (n : Net Bytes) : Prop where
  apart : Apart n.thr.srv
  headers : OpenedBlocks.Headers n

/-- The address and the key are those of block `k`. -/
def Listed (s : Test) (k : ℕ) : Prop :=
  (s.list k).remoteAddr = ⟨k,0⟩ ∧ ∃ buffer, registered s.net k = some (buffer,(s.list k).rkey)

def Pc.opened : Pc → ℕ
  | .opening i => i
  | .unopened => 0
  | _ => nrOpened

structure Consistent (s : Test) : Prop where
  filled : Filled s.net
  charted : Charted s.net
  at' : At s
  listed : ∀ k < s.pc.opened, Listed s k
  count : s.count = s.readBack.length

theorem Stands.keep {s t : Test} {a low sent back last : ℕ} (h : Stands s a low sent back last)
    (hsent : t.net.sent = s.net.sent) (hlast : t.net.last = s.net.last)
    (hnum : t.numlist = s.numlist) (hoff : t.offsetlist = s.offsetlist)
    (hcount : t.sendCount = s.sendCount) (hback : t.readBack = s.readBack) :
    Stands t a low sent back last := by
  refine ⟨h.round,hsent ▸ h.length,hcount.trans h.counted,fun j hlo hj => ?_,?_,
    hlast.trans h.asked⟩
  · obtain ⟨e,he,hslot⟩ := h.ring j hlo hj
    exact ⟨e,hsent ▸ he,hoff ▸ hslot.bound,hoff ▸ hslot.word,hnum ▸ hoff ▸ hslot.number⟩
  · rw [hback, hsent]
    exact h.read

theorem At.serve {s : Test} {m : Net Bytes} (h : At s) (hsent : m.sent = s.net.sent)
    (hlast : m.last = s.net.last) (hp : pending s.net = [] → pending m = []) :
    At { s with net := m } := by
  unfold At at h ⊢
  have hkeep : ∀ {p : Pc} {a low sent back last}, Stands s a low sent back last →
      Stands { s with net := m, pc := p } a low sent back last :=
    fun hs => hs.keep hsent hlast rfl rfl rfl rfl
  cases hpc : s.pc with
  | opening i =>
    simp only [hpc] at h ⊢
    exact ⟨h.1,hsent.trans h.2.1,hlast.trans h.2.2.1,h.2.2.2⟩
  | drawing a i =>
    simp only [hpc] at h ⊢
    exact ⟨h.1,h.2.1,hkeep h.2.2⟩
  | sending a i =>
    simp only [hpc] at h ⊢
    exact ⟨h.1,h.2.1,hkeep h.2.2.1,⟨h.2.2.2.1.bound,h.2.2.2.1.word,h.2.2.2.1.number⟩,h.2.2.2.2⟩
  | asking a i =>
    simp only [hpc] at h ⊢
    exact ⟨h.1,h.2.1,hkeep h.2.2⟩
  | waiting a i =>
    simp only [hpc] at h ⊢
    exact ⟨h.1,h.2.1,hkeep h.2.2⟩
  | reading a i ia =>
    simp only [hpc] at h ⊢
    obtain ⟨hb,hbatch,hlo,hhi,hpend,hs⟩ := h
    exact ⟨hb,hbatch,hlo,hhi,hp hpend,hkeep hs⟩
  | comparing a i ia =>
    simp only [hpc] at h ⊢
    obtain ⟨hb,hbatch,hlo,hhi,hpend,hs,hscan⟩ := h
    exact ⟨hb,hbatch,hlo,hhi,hp hpend,hkeep hs,hscan⟩
  | unopened =>
    simp only [hpc] at h ⊢
    exact ⟨hsent.trans h.1,h.2⟩
  | unanswered a i =>
    simp only [hpc] at h ⊢
    exact ⟨h.1,hkeep h.2⟩
  | finished =>
    simp only [hpc] at h ⊢
    rw [hsent]
    exact h
  | unsent =>
    simp only [hpc] at h ⊢
    rw [hsent]
    exact h
  | unread =>
    simp only [hpc] at h
  | mismatch =>
    simp only [hpc] at h

theorem Listed.keep {s t : Test} {k : ℕ} (h : Listed s k) (hlist : t.list k = s.list k)
    (hreg : ∀ mr, registered s.net k = some mr → registered t.net k = some mr) : Listed t k := by
  obtain ⟨haddr,buffer,hmr⟩ := h
  refine ⟨hlist ▸ haddr,buffer,?_⟩
  rw [hlist]
  exact hreg _ hmr

/-! One label after the other. -/

theorem open_offset_block {i : ℕ} (h : i < nrOpened) : getNumMemblock (openOffset i) = i := by
  unfold nrOpened at h
  rw [get_num_memblock_eq, openOffset, BitVec.toNat_ofNat, blockOf]
  omega

theorem open_step {b : ℕ} {a : AllocResult} {s t : Test} (h : Consistent s)
    (hg : Fresh a s.net.thr.srv) (hs : step (.openBlock b a) s = some t) : Consistent t := by
  simp only [step] at hs
  split at hs
  · next i w works hpc _ =>
    obtain ⟨⟨hb,-⟩,hs⟩ := Option.ite_none_right_eq_some.mp hs
    have hat := h.at'
    simp only [At, hpc] at hat
    obtain ⟨hi,hsent,hlast,hread,hbatch,hcount⟩ := hat
    split at hs
    · obtain ⟨⟨n,info⟩,hserve,rfl⟩ := Option.map_eq_some_iff.mp hs
      obtain ⟨hfilled,hsame⟩ := open_filled h.filled hserve
      have hsent' : n.sent = [] :=
        (serve_open h.filled.replica.kept hserve).served.sent.trans hsent
      obtain ⟨hapart,haddr⟩ := opened_addr h.charted.apart hg hserve
      obtain ⟨hquiet,buffer,hmr⟩ := OpenedBlocks.open_registered hserve
      rw [open_block _ hb, open_offset_block hi] at haddr hmr
      refine ⟨hfilled,⟨hapart,(OpenedBlocks.open_headers h.charted.headers hserve).1⟩,?_,
        fun k hk => ?_,h.count⟩
      · by_cases hnext : i+1 < nrOpened
        · simp only [At, hnext, if_true]
          exact ⟨trivial,hsent',hsame.trans hlast,hread,hbatch,hcount⟩
        · simp only [At, hnext, if_false]
          refine ⟨Nat.zero_le _,hbatch,by decide,?_,hcount,fun j hlo hj => ?_,?_,?_⟩
          · simp [hsent']
          · exact absurd hj (Nat.not_lt_zero j)
          · simp [hsent', hread]
          · simp [hsame, hlast, start]
      · have hk' : k < i+1 := by
          by_cases hnext : i+1 < nrOpened
          · simpa [hnext, Pc.opened] using hk
          · simp only [hnext, if_false, Pc.opened] at hk
            omega
        by_cases hki : k = i
        · subst hki
          exact ⟨by simp [haddr],buffer,by simp [hmr]⟩
        · have hold := h.listed k (by rw [hpc, Pc.opened]; omega)
          exact hold.keep (by simp [hki]) fun mr hr => hquiet k mr hr
    · obtain rfl := Option.some.inj hs
      refine ⟨h.filled,h.charted,?_,fun k hk => absurd hk (Nat.not_lt_zero k),h.count⟩
      simp only [At]
      exact ⟨hsent,hread⟩
  · cases hs

theorem offset_bound (r : U32) : (r &&& 0x3fffff#32).toNat < 2^22 := by
  have h := toNat_mask r 22 (by decide)
  rw [show (r &&& 0x3fffff#32).toNat = r.toNat % 2^22 from h]
  exact Nat.mod_lt _ (by decide)

/-- `PAGE_SIZE` has room for the number. -/
theorem printed_number {offset : U32} (h : offset.toNat < 2^22) (page : Bytes) :
    number (snprintf (decimal offset.toInt) page) = offset.toInt := by
  refine atoi_snprintf ?_ page
  have hint : offset.toInt.natAbs < 10^7 := by
    rw [BitVec.toInt_eq_toNat_of_lt (by omega)]
    omega
  have hlength := decimal_length (by decide) hint
  unfold pageSize
  omega

theorem draw_step {r : U32} {s t : Test} (h : Consistent s) (hs : step (.draw r) s = some t) :
    Consistent t := by
  simp only [step] at hs
  split at hs
  · next a i hpc =>
    obtain ⟨hi,hs⟩ := Option.ite_none_right_eq_some.mp hs
    obtain rfl := Option.some.inj hs
    have hat := h.at'
    simp only [At, hpc] at hat
    obtain ⟨-,hbatch,hst⟩ := hat
    have hbound := offset_bound r
    refine ⟨h.filled,h.charted,?_,fun k hk => ?_,h.count⟩
    · simp only [At]
      refine ⟨hi,by rw [hbatch],⟨hst.round,hst.length,hst.counted,fun j hlo hj => ?_,hst.read,
        hst.asked⟩,⟨by simpa using hbound,by simp,by simp⟩,?_⟩
      · obtain ⟨e,he,hslot⟩ := hst.ring j hlo hj
        -- the slots of a batch are apart
        have hne : j % configBatch ≠ i % configBatch := by
          unfold start configBatch at hlo
          unfold configBatch
          omega
        refine ⟨e,he,?_,?_,?_⟩
        · simpa [hne] using hslot.bound
        · simpa [hne] using hslot.word
        · simpa [hne] using hslot.number
      · simpa using printed_number hbound s.lnum
    · exact (h.listed k (by simpa [hpc, Pc.opened] using hk)).keep rfl fun _ hr => hr
  · cases hs

theorem Stands.send {s t : Test} {a i low : ℕ} (h : Stands s a low i low low) (hlow : low ≤ i)
    (hslot : Slot s i s.header) (hsent : t.net.sent = s.net.sent++[(s.header,s.lnum)])
    (hlast : t.net.last = s.net.last) (hnum : t.numlist = s.numlist)
    (hoff : t.offsetlist = s.offsetlist) (hcount : t.sendCount = s.sendCount)
    (hread : t.readBack = s.readBack) : Stands t a low (i+1) low low := by
  have hlength := h.length
  have hkeep : ∀ {j : ℕ} {header : U32}, Slot s j header → Slot t j header :=
    fun hj => ⟨hoff ▸ hj.bound,hoff ▸ hj.word,hnum ▸ hoff ▸ hj.number⟩
  refine ⟨h.round,?_,hcount.trans h.counted,fun j hlo hj => ?_,?_,hlast.trans h.asked⟩
  · rw [hsent, List.length_append, hlength, List.length_singleton, Nat.add_assoc]
  · rcases Nat.lt_succ_iff_lt_or_eq.mp hj with hj | rfl
    · obtain ⟨e,he,hs⟩ := h.ring j hlo hj
      refine ⟨e,?_,hkeep hs⟩
      rw [hsent, List.getElem?_append_left (by omega)]
      exact he
    · refine ⟨(s.header,s.lnum),?_,hkeep hslot⟩
      rw [hsent, ← hlength]
      exact List.getElem?_concat_length ..
  · rw [hread, hsent, List.map_append, List.take_append_of_le_length, h.read]
    rw [List.length_map, hlength]
    omega

theorem start_le (i : ℕ) : start i ≤ i := Nat.div_mul_le_self i configBatch

theorem start_succ (i : ℕ) :
    start (i+1) = if (i+1) % configBatch = 0 then i+1 else start i := by
  unfold start configBatch
  split <;> omega

theorem batch_length {i : ℕ} (h : Batch i) : i+1 = start i+configBatch := by
  have hmod := h.2
  simp only [start, configBatch] at hmod ⊢
  omega

theorem send_step {success : Bool} {s t : Test} (h : Consistent s)
    (hs : step (.send success) s = some t) : Consistent t := by
  simp only [step] at hs
  split at hs
  · next a i hpc =>
    have hat := h.at'
    simp only [At, hpc] at hat
    obtain ⟨hi,hbatch,hst,hslot,hlnum⟩ := hat
    have hlisted : ∀ k < nrOpened, Listed s k :=
      fun k hk => h.listed k (by simpa [hpc, Pc.opened] using hk)
    by_cases hsuccess : success = true
    · rw [if_pos hsuccess] at hs
      obtain rfl := Option.some.inj hs
      have hfilled := send_filled h.filled hslot.bound hslot.word hlnum
      have hcharted : Charted (multicast (some (s.header,s.lnum)) s.net) :=
        ⟨h.charted.apart,OpenedBlocks.multicast_headers _ h.charted.headers⟩
      have hnext := start_succ i
      by_cases hend : s.batch % configBatch = 0
      · refine ⟨hfilled,hcharted,?_,fun k hk => ?_,h.count⟩
        · simp only [At, hend, if_true]
          exact ⟨⟨hi,hbatch ▸ hend⟩,hbatch,
            hst.send (start_le i) hslot rfl rfl rfl rfl rfl rfl⟩
        · exact (hlisted k (by simpa [hend, Pc.opened] using hk)).keep rfl fun _ hr => hr
      · rw [hbatch] at hend
        rw [if_neg hend] at hnext
        refine ⟨hfilled,hcharted,?_,fun k hk => ?_,h.count⟩
        · simp only [At, hbatch, hend, if_false]
          refine ⟨hi,trivial,?_⟩
          rw [hnext]
          exact hst.send (start_le i) hslot rfl rfl rfl rfl rfl rfl
        · exact (hlisted k (by simpa [hbatch, hend, Pc.opened] using hk)).keep rfl
            fun _ hr => hr
    · rw [if_neg hsuccess] at hs
      obtain rfl := Option.some.inj hs
      refine ⟨h.filled,h.charted,?_,fun k hk => (hlisted k hk).keep rfl fun _ hr => hr,h.count⟩
      simp only [At, hst.read]
      exact List.take_prefix ..
  · cases hs

theorem ask_step {b : ℕ} {s t : Test} (h : Consistent s) (hs : step (.ask b) s = some t) :
    Consistent t := by
  simp only [step] at hs
  split at hs
  · next a i w works hpc _ =>
    obtain ⟨hb,hs⟩ := Option.ite_none_right_eq_some.mp hs
    have hat := h.at'
    simp only [At, hpc] at hat
    obtain ⟨hend,hbatch,hst⟩ := hat
    have hlisted : ∀ k < nrOpened, Listed s k :=
      fun k hk => h.listed k (by simpa [hpc, Pc.opened] using hk)
    split at hs
    · obtain ⟨n,hn,rfl⟩ := Option.map_eq_some_iff.mp hs
      have hsince : s.net.sent.length-s.net.last = configBatch := by
        have hlength := batch_length hend
        rw [hst.length, hst.asked]
        omega
      obtain ⟨hfilled,hsent,hthr,hlast,hchannel⟩ := ask_filled h.filled hb hsince hn
      have hh := h.charted.headers
      refine ⟨hfilled,⟨hthr ▸ h.charted.apart,?_⟩,?_,fun k hk => ?_,h.count⟩
      · refine ⟨?_,?_,?_,?_⟩
        · rw [hchannel, hsent]; exact hh.channel
        · rw [hthr, hsent]; exact hh.queued
        · rw [hthr, hsent]; exact hh.split
        · rw [hthr, hsent]; exact hh.listed
      · simp only [At]
        refine ⟨hend,hbatch,hst.round,hsent ▸ hst.length,hst.counted,fun j hlo hj => ?_,?_,
          hlast.trans hst.length⟩
        · obtain ⟨e,he,hslot⟩ := hst.ring j hlo hj
          exact ⟨e,hsent ▸ he,hslot.bound,hslot.word,hslot.number⟩
        · rw [hsent]
          exact hst.read
      · refine (hlisted k hk).keep rfl fun mr hr => ?_
        rw [registered, hthr]
        exact hr
    · obtain rfl := Option.some.inj hs
      refine ⟨h.filled,h.charted,?_,fun k hk => (hlisted k hk).keep rfl fun _ hr => hr,h.count⟩
      simp only [At]
      exact ⟨hend,hst.keep rfl rfl rfl rfl rfl rfl⟩
  · cases hs

theorem answered_step {s t : Test} (h : Consistent s) (hs : step .answered s = some t) :
    Consistent t := by
  simp only [step] at hs
  split at hs
  · next a i hpc =>
    obtain ⟨⟨hrpc,hcurrent⟩,hs⟩ := Option.ite_none_right_eq_some.mp hs
    obtain rfl := Option.some.inj hs
    have hat := h.at'
    simp only [At, hpc] at hat
    obtain ⟨hend,hbatch,hst⟩ := hat
    have hpending : pending s.net = [] :=
      DeployedReads.answered_pending h.filled.sound hrpc (by simpa using hcurrent)
        (hst.asked.trans hst.length.symm)
    refine ⟨h.filled,h.charted,?_,fun k hk => ?_,h.count⟩
    · simp only [At, hst.counted]
      exact ⟨hend,hbatch,Nat.le_refl _,(start_le i).trans (Nat.le_succ i),hpending,
        hst.keep rfl rfl rfl rfl hst.counted.symm rfl⟩
    · exact (h.listed k (by simpa [hpc, Pc.opened] using hk)).keep rfl fun _ hr => hr
  · cases hs

theorem read_page {s : Test} {offset : U32} (h : Listed s (nrBlock offset))
    (ho : offset.toNat < 2^22) :
    rdmaRead (s.list (nrBlock offset)) (byteOffset (offset &&& 0x3ffff#32)) s.net =
      some (stored s.net offset.toNat) := by
  have hblock : nrBlock offset = blockOf offset.toNat := by
    have hfield : nrBlock offset = offset.toNat / 2^18 % 2^8 := toNat_field 18 8 offset (by decide)
    rw [hfield, blockOf]
    omega
  have hbyte : byteOffset (offset &&& 0x3ffff#32) = byteOf offset.toNat := by
    rw [send_offset_byte, Nat.mod_eq_of_lt (by omega)]
  obtain ⟨haddr,buffer,hmr⟩ := h
  have hfits := PageRanges.byte_of_fits offset.toNat
  rw [rdmaRead, haddr, hbyte, Nat.zero_add, hmr, if_pos ⟨by simp,hfits⟩, hblock]
  rfl

theorem read_step {s t : Test} (h : Consistent s) (hs : step .read s = some t) :
    Consistent t := by
  simp only [step] at hs
  split at hs
  · next a i ia hpc =>
    have hat := h.at'
    simp only [At, hpc] at hat
    obtain ⟨hend,hbatch,hlo,hhi,hpending,hst⟩ := hat
    have hlisted : ∀ k < nrOpened, Listed s k :=
      fun k hk => h.listed k (by simpa [hpc, Pc.opened] using hk)
    by_cases hia : ia < s.batch
    · rw [if_pos hia] at hs
      have hlt : ia < i+1 := hbatch ▸ hia
      obtain ⟨e,he,hslot⟩ := hst.ring ia hlo hlt
      have hblock : nrBlock (s.offsetlist (ia % configBatch)) < nrOpened := by
        have hbound := hslot.bound
        have hfield := toNat_field 18 8 (s.offsetlist (ia % configBatch)) (by decide)
        have hnr : nrBlock (s.offsetlist (ia % configBatch)) =
          (s.offsetlist (ia % configBatch)).toNat / 2^18 % 2^8 := hfield
        unfold nrOpened
        omega
      rw [read_page (hlisted _ hblock) hslot.bound] at hs
      obtain rfl := Option.some.inj hs
      refine ⟨h.filled,h.charted,?_,fun k hk => (hlisted k hk).keep rfl fun _ hr => hr,h.count⟩
      simp only [At]
      refine ⟨hend,hbatch,hlo,hlt,hpending,hst.keep rfl rfl rfl rfl rfl rfl,?_⟩
      refine page_read h.filled hpending hslot.bound ?_
      rw [← hslot.word]
      exact List.mem_map_of_mem (List.mem_of_getElem? he)
    · rw [if_neg hia] at hs
      obtain rfl := Option.some.inj hs
      have hall : ia = i+1 := by omega
      have hnext := start_succ i
      rw [if_pos hend.2] at hnext
      refine ⟨h.filled,h.charted,?_,fun k hk => (hlisted k hk).keep rfl fun _ hr => hr,h.count⟩
      simp only [At, hbatch]
      refine ⟨hend.1,trivial,?_⟩
      rw [hnext]
      exact ⟨hst.round,hst.length,rfl,fun j hlow hj => by omega,hall ▸ hst.read,hst.asked⟩
  · cases hs

theorem compare_step {s t : Test} (h : Consistent s) (hs : step .compare s = some t) :
    Consistent t := by
  simp only [step] at hs
  split at hs
  · next a i ia hpc =>
    have hat := h.at'
    simp only [At, hpc] at hat
    obtain ⟨hend,hbatch,hlo,hhi,hpending,hst,hscan⟩ := hat
    obtain ⟨e,he,hslot⟩ := hst.ring ia hlo hhi
    rw [if_pos (hslot.number.trans hscan.symm)] at hs
    obtain rfl := Option.some.inj hs
    refine ⟨h.filled,h.charted,?_,fun k hk => ?_,?_⟩
    · simp only [At]
      refine ⟨hend,hbatch,by omega,hhi,hpending,hst.round,hst.length,hst.counted,
        fun j hlow hj => ?_,?_,hst.asked⟩
      · obtain ⟨f,hf,hj'⟩ := hst.ring j hlow hj
        exact ⟨f,hf,hj'.bound,hj'.word,hj'.number⟩
      · have hget : (s.net.sent.map Prod.fst)[a*roundLength+ia]? = some e.1 := by
          rw [List.getElem?_map, he]
          rfl
        rw [← Nat.add_assoc, List.take_add_one, hget, ← hst.read, hslot.word]
        rfl
    · exact (h.listed k (by simpa [hpc, Pc.opened] using hk)).keep rfl fun _ hr => hr
    · simp [h.count]
  · cases hs

theorem turn_step {s t : Test} (h : Consistent s) (hs : step .turn s = some t) :
    Consistent t := by
  simp only [step] at hs
  split at hs
  · next a i hpc =>
    obtain ⟨hi,hs⟩ := Option.ite_none_left_eq_some.mp hs
    obtain rfl := Option.some.inj hs
    have hat := h.at'
    simp only [At, hpc] at hat
    obtain ⟨hle,hbatch,hst⟩ := hat
    have hall : i = roundLength := by omega
    have hstart : start roundLength = roundLength := by
      unfold start roundLength configBatch
      omega
    rw [hall, hstart] at hst
    have hround : (a+1)*roundLength = a*roundLength+roundLength := Nat.succ_mul ..
    have hlisted : ∀ k < nrOpened, Listed s k :=
      fun k hk => h.listed k (by simpa [hpc, Pc.opened] using hk)
    by_cases hnext : a+1 < nrRounds
    · refine ⟨h.filled,h.charted,?_,fun k hk => ?_,h.count⟩
      · simp only [At, hnext, if_true]
        refine ⟨Nat.zero_le _,trivial,hnext,?_,?_,fun j hlow hj => ?_,?_,?_⟩
        · rw [hround]
          exact hst.length.trans (Nat.add_zero _).symm
        · simp [start]
        · exact (Nat.not_lt_zero j hj).elim
        · simp only [start, Nat.zero_div, Nat.zero_mul, Nat.add_zero, hround]
          exact hst.read
        · simp only [start, Nat.zero_div, Nat.zero_mul, Nat.add_zero, hround]
          exact hst.asked
      · exact (hlisted k (by simpa [hnext, Pc.opened] using hk)).keep rfl fun _ hr => hr
    · refine ⟨h.filled,h.charted,?_,fun k hk => ?_,h.count⟩
      · simp only [At, hnext, if_false, hst.read]
        exact List.take_prefix ..
      · exact (hlisted k (by simpa [hnext, Pc.opened] using hk)).keep rfl fun _ hr => hr
  · cases hs

theorem server_step_pending {n m : Net Bytes} {l : CommitBarrier.Label Bytes} (h : Filled n)
    (hl : isClient l = false) (hc : Calm l n) (hs : CommitBarrier.step l n = some m)
    (hp : pending n = []) : pending m = [] := by
  rcases (server_step h.replica.kept hl hc hs).seen with hsame | hdeliver
  · have hpending : pending m = pending n :=
      congrArg ReaderThreads.Server.pending hsame
    rw [hpending, hp]
  · obtain ⟨f,hf,-⟩ := Replicas.deliver_first hdeliver
    have hcons : pending n = f::pending m := hf
    rw [hp] at hcons
    cases hcons

theorem Consistent.opened {s : Test} (h : Consistent s) (hsent : s.net.sent ≠ []) :
    s.pc.opened = nrOpened := by
  have hat := h.at'
  cases hpc : s.pc with
  | opening i =>
    simp only [At, hpc] at hat
    exact absurd hat.2.1 hsent
  | unopened =>
    simp only [At, hpc] at hat
    exact absurd hat.1 hsent
  | _ => rfl

theorem moves_charted {s : Test} {m : Net Bytes} (h : Consistent s)
    (hm : OpenedBlocks.Moves s.net m) : Charted m := by
  refine ⟨?_,OpenedBlocks.moves_headers h.charted.headers hm⟩
  have hh := h.charted.headers
  -- the block of every frame is open
  have hbased : ∀ immData ∈ s.net.sent.map Prod.fst,
      base s.net.thr.srv (blockOf (pageOffset immData)) ≠ none := by
    intro immData hin
    obtain ⟨e,he,rfl⟩ := List.mem_map.mp hin
    obtain ⟨offset,hlt,hheader,-⟩ := h.filled.texts e he
    have hopened := h.opened (List.ne_nil_of_mem he)
    have hblock : blockOf (pageOffset e.1) < nrOpened := by
      rw [hheader, flow_header_page, blockOf, nrOpened]
      omega
    obtain ⟨-,buffer,hmr⟩ := h.listed _ (hopened ▸ hblock)
    obtain ⟨mb,hmb,-⟩ := Option.map_eq_some_iff.mp hmr
    simp [base, hmb]
  cases hm with
  | arrived hchannel hsent hthr =>
    rw [hthr]
    exact h.charted.apart
  | moved hk hchannel hsent hthr =>
    have hbase := OpenedBlocks.thread_base hthr (fun _ _ wc hwc => hbased _ (hh.split wc hwc))
      (fun _ _ => .inr fun w hw => hbased _ (hh.listed w hw))
    unfold Apart
    rw [hbase]
    exact h.charted.apart

theorem serve_step {l : CommitBarrier.Label Bytes} {s t : Test} (h : Consistent s)
    (hg : Steady (.server l) s) (hs : step (.server l) s = some t) : Consistent t := by
  obtain ⟨ha,ht⟩ := hg
  obtain ⟨hl,hs⟩ := Option.ite_none_left_eq_some.mp hs
  obtain ⟨m,hm,rfl⟩ := Option.map_eq_some_iff.mp hs
  have hclient : isClient l = false := by simpa using hl
  have hcalm := DeployedReads.in_order_calm ha (h.filled.in_order ht hm)
  have hserved := server_step h.filled.replica.kept hclient hcalm hm
  have hmoves := OpenedBlocks.server_moves hclient hm
  exact ⟨server_filled h.filled hclient ha ht hm,moves_charted h hmoves,
    h.at'.serve hserved.sent hserved.last (server_step_pending h.filled hclient hcalm hm),
    fun k hk => (h.listed k hk).keep rfl fun mr hr => OpenedBlocks.moves_registered hmoves k mr hr,
    h.count⟩

theorem step_consistent (l : Label) (s t : Test) (h : Consistent s) (hg : Steady l s)
    (hs : step l s = some t) : Consistent t := by
  cases l with
  | openBlock b a => exact open_step h hg hs
  | draw r => exact draw_step h hs
  | send success => exact send_step h hs
  | ask b => exact ask_step h hs
  | answered => exact answered_step h hs
  | read => exact read_step h hs
  | compare => exact compare_step h hs
  | turn => exact turn_step h hs
  | server l => exact serve_step h hg hs

theorem init_consistent (base : ℕ) (rkey : U32) (list : ℕ → RdmaInfo) (lnum scanBuffer : Bytes) :
    Consistent (initTest base rkey list lnum scanBuffer) :=
  ⟨⟨CommitBarrier.init_sound base rkey,Replicas.init_replica base rkey,
    fun _ hr => absurd hr List.not_mem_nil,fun _ hr => (by cases hr),fun _ hw => (by cases hw),
    fun _ he => absurd he List.not_mem_nil⟩,
  ⟨OpenedBlocks.init_apart base rkey,OpenedBlocks.init_headers base rkey⟩,
  ⟨by decide,rfl,rfl,rfl,rfl,rfl⟩,fun k hk => absurd hk (Nat.not_lt_zero k),rfl⟩

theorem Consistent.read {s : Test} (h : Consistent s) :
    s.readBack <+: s.net.sent.map Prod.fst := by
  have hat := h.at'
  have hpart : ∀ {a low sent back last}, Stands s a low sent back last →
      s.readBack <+: s.net.sent.map Prod.fst := fun hst => hst.read ▸ List.take_prefix ..
  cases hpc : s.pc with
  | opening i =>
    simp only [At, hpc] at hat
    exact hat.2.2.2.1 ▸ List.nil_prefix
  | drawing a i =>
    simp only [At, hpc] at hat
    exact hpart hat.2.2
  | sending a i =>
    simp only [At, hpc] at hat
    exact hpart hat.2.2.1
  | asking a i =>
    simp only [At, hpc] at hat
    exact hpart hat.2.2
  | waiting a i =>
    simp only [At, hpc] at hat
    exact hpart hat.2.2
  | reading a i ia =>
    simp only [At, hpc] at hat
    exact hpart hat.2.2.2.2.2
  | comparing a i ia =>
    simp only [At, hpc] at hat
    exact hpart hat.2.2.2.2.2.1
  | unopened =>
    simp only [At, hpc] at hat
    exact hat.2 ▸ List.nil_prefix
  | unanswered a i =>
    simp only [At, hpc] at hat
    exact hpart hat.2
  | finished =>
    simp only [At, hpc] at hat
    exact hat
  | unsent =>
    simp only [At, hpc] at hat
    exact hat
  | unread => simp only [At, hpc] at hat
  | mismatch => simp only [At, hpc] at hat

end Maruswap.TestClient
