import Maruswap.ByteRanges
import Maruswap.GuardedRun

/-!
# Receive slots of the two sides

`rdma_connect_established` of the driver and `alloc_rdma_memory_handler` of the
server post one receive work for every slot of a buffer, until a post is refused.
From then on a message takes a posted work and the receiver puts it back. `posts`
keeps every work ever posted. The constants of the two sides are in different
enums.
-/

set_option autoImplicit false

namespace Maruswap.RpcBuffers
open ByteRanges GuardedRun

abbrev U64 := BitVec 64

def pageSize : ℕ := 2^12

def nrRecv : ℕ := 32

/-- `RPC_MAX_EACH_SIZE` of the driver. -/
def driverSlotSize : ℕ := 2*pageSize/nrRecv

def mcmMaxRecvWr : ℕ := 2^12

def rpcNrBuffer : ℕ := 2^10

/-- `RPC_MAX_EACH_SIZE` of the server. -/
def serverSlotSize : ℕ := 64

/-- `__RPC_BUFFER_SIZE` -/
def slotBufferSize : ℕ := serverSlotSize*rpcNrBuffer

/-- `RPC_BUFFER_SIZE` -/
def rpcBufferSize : ℕ := slotBufferSize+pageSize

/-- `sizeof(struct rdma_open_t)`, an address and a key. -/
def rdmaOpenSize : ℕ := 16

/-- The number of a receive work and its `sg_list`. -/
structure RecvWork where
  id : ℕ
  addr : U64
  length : ℕ
  deriving DecidableEq

def RecvWork.bytes (rw : RecvWork) : Set U64 := ByteRanges.bytes rw.addr rw.length

def slotWork (base : U64) (size i : ℕ) : RecvWork := ⟨i,base+BitVec.ofNat 64 (i*size),size⟩

/-- The loop that posts slots `i`, `i+1` and so on, `n` at most. -/
def postLoop (base : U64) (size : ℕ) (accepts : ℕ → Bool) : ℕ → ℕ → List RecvWork
  | _, 0 => []
  | i, n+1 =>
    if accepts i then slotWork base size i::postLoop base size accepts (i+1) n else []

/-- What a side gets of its buffer, and which posts are accepted. -/
structure Setup where
  buffer : Option U64
  accepts : ℕ → Bool

def rdmaConnectEstablished (s : Setup) : List RecvWork :=
  match s.buffer with
  | some dma => postLoop dma driverSlotSize s.accepts 0 nrRecv
  | none => []

def allocRdmaMemoryHandler (s : Setup) : List RecvWork :=
  match s.buffer with
  | some rpcBuffer => postLoop rpcBuffer serverSlotSize s.accepts 0 mcmMaxRecvWr
  | none => []

structure RecvQueue where
  posted : List RecvWork
  taken : List RecvWork
  posts : List RecvWork

inductive Label where
  | receive (driver : Bool) (rw : RecvWork)
  | putBack (driver : Bool) (rw : RecvWork)

/-- A message arrives in a posted work. -/
def receive (rw : RecvWork) (q : RecvQueue) : Option RecvQueue :=
  if rw ∈ q.posted then some { q with posted := q.posted.erase rw, taken := rw::q.taken }
  else none

/-- `ib_putback_recv_work` -/
def putBack (rw : RecvWork) (q : RecvQueue) : Option RecvQueue :=
  if rw ∈ q.taken then
    some ⟨q.posted++[rw],q.taken.erase rw,q.posts++[rw]⟩
  else none

structure Sides where
  driver : RecvQueue
  server : RecvQueue

def onSide (driver : Bool) (f : RecvQueue → Option RecvQueue) (s : Sides) : Option Sides :=
  if driver then (f s.driver).map fun q => { s with driver := q }
  else (f s.server).map fun q => { s with server := q }

def step : Label → Sides → Option Sides
  | .receive driver rw, s => onSide driver (receive rw) s
  | .putBack driver rw, s => onSide driver (putBack rw) s

def initQueue (posts : List RecvWork) : RecvQueue := ⟨posts,[],posts⟩

def initSides (d m : Setup) : Sides :=
  ⟨initQueue (rdmaConnectEstablished d),initQueue (allocRdmaMemoryHandler m)⟩

structure Cycles (ws : List RecvWork) (q : RecvQueue) : Prop where
  posted : ∀ rw ∈ q.posted, rw ∈ ws
  taken : ∀ rw ∈ q.taken, rw ∈ ws
  posts : ∀ rw, rw ∈ q.posts ↔ rw ∈ ws

theorem init_cycles (ws : List RecvWork) : Cycles ws (initQueue ws) :=
  ⟨fun _ h => h,by simp [initQueue],fun _ => Iff.rfl⟩

theorem receive_cycles {ws : List RecvWork} {rw : RecvWork} {q r : RecvQueue}
    (h : Cycles ws q) (hr : receive rw q = some r) : Cycles ws r := by
  obtain ⟨hrw,hr⟩ := Option.ite_none_right_eq_some.mp hr
  obtain rfl := Option.some.inj hr
  refine ⟨fun v hv => h.posted v (List.mem_of_mem_erase hv),?_,h.posts⟩
  intro v hv
  rcases List.mem_cons.mp hv with rfl | hv
  · exact h.posted v hrw
  · exact h.taken v hv

theorem put_back_cycles {ws : List RecvWork} {rw : RecvWork} {q r : RecvQueue}
    (h : Cycles ws q) (hr : putBack rw q = some r) : Cycles ws r := by
  obtain ⟨hrw,hr⟩ := Option.ite_none_right_eq_some.mp hr
  obtain rfl := Option.some.inj hr
  have hin := h.taken rw hrw
  refine ⟨?_,fun v hv => h.taken v (List.mem_of_mem_erase hv),fun v => ?_⟩
  · intro v hv
    rcases List.mem_append.mp hv with hv | hv
    · exact h.posted v hv
    · exact List.mem_singleton.mp hv ▸ hin
  · rw [List.mem_append, h.posts, List.mem_singleton]
    constructor
    · rintro (hv | rfl)
      · exact hv
      · exact hin
    · exact .inl

theorem on_side_cycles {d m : List RecvWork} {driver : Bool} {f : RecvQueue → Option RecvQueue}
    {s t : Sides} (hf : ∀ ws q r, Cycles ws q → f q = some r → Cycles ws r)
    (hs : Cycles d s.driver ∧ Cycles m s.server) (h : onSide driver f s = some t) :
    Cycles d t.driver ∧ Cycles m t.server := by
  unfold onSide at h
  split at h
  · obtain ⟨q,hq,rfl⟩ := Option.map_eq_some_iff.mp h
    exact ⟨hf d _ q hs.1 hq,hs.2⟩
  · obtain ⟨q,hq,rfl⟩ := Option.map_eq_some_iff.mp h
    exact ⟨hs.1,hf m _ q hs.2 hq⟩

theorem run_cycles {d m : Setup} {ls : List Label} {t : Sides}
    (h : run step ls (initSides d m) = some t) :
    Cycles (rdmaConnectEstablished d) t.driver ∧ Cycles (allocRdmaMemoryHandler m) t.server := by
  have hstep : ∀ l s t, Cycles (rdmaConnectEstablished d) s.driver ∧
      Cycles (allocRdmaMemoryHandler m) s.server → step l s = some t →
      Cycles (rdmaConnectEstablished d) t.driver ∧
        Cycles (allocRdmaMemoryHandler m) t.server := by
    intro l s t hs ht
    cases l with
    | receive driver rw => exact on_side_cycles (fun _ _ _ => receive_cycles) hs ht
    | putBack driver rw => exact on_side_cycles (fun _ _ _ => put_back_cycles) hs ht
  exact run_induction hstep ⟨init_cycles _,init_cycles _⟩ h

/-- Slot `i` is posted if no post up to it is refused. -/
def Reached (s : Setup) (i : ℕ) : Prop := s.buffer.isSome ∧ ∀ j ≤ i, s.accepts j = true

theorem mem_post_loop (base : U64) (size : ℕ) (accepts : ℕ → Bool) (rw : RecvWork) (i n : ℕ) :
    rw ∈ postLoop base size accepts i n ↔
      ∃ k, i ≤ k ∧ k < i+n ∧ (∀ j, i ≤ j → j ≤ k → accepts j = true) ∧
        rw = slotWork base size k := by
  induction n generalizing i with
  | zero =>
    simp only [postLoop, List.not_mem_nil, false_iff]
    rintro ⟨k,hk,hk',-⟩
    omega
  | succ n ih =>
    rw [postLoop]
    by_cases hi : accepts i
    · rw [if_pos hi, List.mem_cons, ih]
      constructor
      · rintro (rfl | ⟨k,hk,hk',ha,rfl⟩)
        · refine ⟨i,le_refl i,by omega,fun j hj hj' => ?_,rfl⟩
          obtain rfl : j = i := by omega
          exact hi
        · refine ⟨k,by omega,by omega,fun j hj hj' => ?_,rfl⟩
          rcases Nat.lt_or_eq_of_le hj with hlt | rfl
          · exact ha j (by omega) hj'
          · exact hi
      · rintro ⟨k,hk,hk',ha,rfl⟩
        rcases Nat.lt_or_eq_of_le hk with hlt | rfl
        · exact .inr ⟨k,by omega,by omega,fun j hj hj' => ha j (by omega) hj',rfl⟩
        · exact .inl rfl
    · rw [if_neg hi]
      simp only [List.not_mem_nil, false_iff]
      rintro ⟨k,hk,hk',ha,-⟩
      exact hi (ha i (le_refl i) hk)

theorem mem_driver_works (d : Setup) (rw : RecvWork) : rw ∈ rdmaConnectEstablished d ↔
    ∃ dma i, d.buffer = some dma ∧ i < nrRecv ∧ Reached d i ∧
      rw = slotWork dma driverSlotSize i := by
  unfold rdmaConnectEstablished Reached
  cases hb : d.buffer with
  | none => simp
  | some dma => simp [mem_post_loop]

theorem mem_server_works (m : Setup) (rw : RecvWork) : rw ∈ allocRdmaMemoryHandler m ↔
    ∃ rpcBuffer i, m.buffer = some rpcBuffer ∧ i < mcmMaxRecvWr ∧ Reached m i ∧
      rw = slotWork rpcBuffer serverSlotSize i := by
  unfold allocRdmaMemoryHandler Reached
  cases hb : m.buffer with
  | none => simp
  | some rpcBuffer => simp [mem_post_loop]

theorem slot_work_bytes (base : U64) (size i : ℕ) :
    (slotWork base size i).bytes = slot base size i := rfl

theorem driver_slot_inside_iff (dma : U64) {i : ℕ} (hi : i < nrRecv) :
    (slotWork dma driverSlotSize i).bytes ⊆ bytes dma pageSize ↔ i < 16 := by
  have hsize : driverSlotSize = 256 := rfl
  have hpage : pageSize = 4096 := rfl
  have hn : nrRecv = 32 := rfl
  rw [slot_work_bytes, hsize, slot_subset_iff dma (by omega) (by omega) (by omega)]
  omega

theorem open_reply_apart_iff (rpcBuffer : U64) {i : ℕ} (hi : i < mcmMaxRecvWr) :
    Disjoint (slotWork rpcBuffer serverSlotSize i).bytes (bytes rpcBuffer rdmaOpenSize) ↔
      0 < i := by
  have hsize : serverSlotSize = 64 := rfl
  have hopen : rdmaOpenSize = 16 := rfl
  have hn : mcmMaxRecvWr = 4096 := rfl
  rw [slot_work_bytes, hsize, slot, ← part_zero,
    part_disjoint_iff rpcBuffer (by omega) (by omega) (by omega) (by omega)]
  omega

theorem slots_apart_of_size (base : U64) {size i j : ℕ} (hsize : 0 < size) (hs : size ≤ 2^12)
    (hi : i < 2^12) (hj : j < 2^12) (h : i ≠ j) :
    Disjoint (slotWork base size i).bytes (slotWork base size j).bytes := by
  have hturn : ∀ k, k < 2^12 → (k+1)*size ≤ 2^64 := by
    intro k hk
    have hmul : (k+1)*size ≤ 2^12*2^12 := Nat.mul_le_mul (by omega) hs
    omega
  exact slots_disjoint base hsize (hturn i hi) (hturn j hj) h

/-- Every slot ever posted lies in the buffer of its side and apart from the other
slots, and the server's from what it builds its replies in. -/
structure Fits (d m : Setup) (t : Sides) : Prop where
  driverInside : ∀ dma, d.buffer = some dma → ∀ rw ∈ t.driver.posts,
    rw.bytes ⊆ bytes dma pageSize
  serverInside : ∀ rpcBuffer, m.buffer = some rpcBuffer → ∀ rw ∈ t.server.posts,
    rw.bytes ⊆ bytes rpcBuffer rpcBufferSize
  driverApart : ∀ v ∈ t.driver.posts, ∀ w ∈ t.driver.posts, v.id ≠ w.id →
    Disjoint v.bytes w.bytes
  serverApart : ∀ v ∈ t.server.posts, ∀ w ∈ t.server.posts, v.id ≠ w.id →
    Disjoint v.bytes w.bytes
  openApart : ∀ rpcBuffer, m.buffer = some rpcBuffer → ∀ rw ∈ t.server.posts,
    Disjoint rw.bytes (bytes rpcBuffer rdmaOpenSize)
  pageApart : ∀ rpcBuffer, m.buffer = some rpcBuffer → ∀ rw ∈ t.server.posts,
    Disjoint rw.bytes (part rpcBuffer slotBufferSize pageSize)

/-- After any number of messages the slots fit only if both set-ups broke off, the
driver's before its slot 16 and the server's before its first. -/
theorem rpc_buffers_fit_iff (d m : Setup) (ls : List Label) (t : Sides)
    (h : run step ls (initSides d m) = some t) :
    Fits d m t ↔ ¬Reached d 16 ∧ ¬Reached m 0 := by
  obtain ⟨hd,hm⟩ := run_cycles h
  constructor
  · intro hf
    refine ⟨fun hr => ?_,fun hr => ?_⟩
    · obtain ⟨dma,hdma⟩ := Option.isSome_iff_exists.mp hr.1
      have hin : slotWork dma driverSlotSize 16 ∈ t.driver.posts :=
        (hd.posts _).mpr ((mem_driver_works d _).mpr ⟨dma,16,hdma,by decide,hr,rfl⟩)
      have hlt := (driver_slot_inside_iff dma (by decide)).mp (hf.driverInside dma hdma _ hin)
      exact absurd hlt (by decide)
    · obtain ⟨b,hb⟩ := Option.isSome_iff_exists.mp hr.1
      have hin : slotWork b serverSlotSize 0 ∈ t.server.posts :=
        (hm.posts _).mpr ((mem_server_works m _).mpr ⟨b,0,hb,by decide,hr,rfl⟩)
      have hlt := (open_reply_apart_iff b (by decide)).mp (hf.openApart b hb _ hin)
      exact absurd hlt (by decide)
  · rintro ⟨hd16,hm0⟩
    have hdriver : ∀ rw ∈ t.driver.posts, ∃ dma i, d.buffer = some dma ∧ i < 16 ∧
        rw = slotWork dma driverSlotSize i := by
      intro rw hrw
      obtain ⟨dma,i,hdma,-,hr,rfl⟩ := (mem_driver_works d rw).mp ((hd.posts rw).mp hrw)
      refine ⟨dma,i,hdma,Nat.lt_of_not_le fun hle => hd16 ⟨hr.1,fun j hj => ?_⟩,rfl⟩
      exact hr.2 j (hj.trans hle)
    have hserver : ∀ rw, rw ∉ t.server.posts := by
      intro rw hrw
      obtain ⟨b,i,-,-,hr,-⟩ := (mem_server_works m rw).mp ((hm.posts rw).mp hrw)
      exact hm0 ⟨hr.1,fun j hj => hr.2 j (by omega)⟩
    refine ⟨?_,?_,?_,?_,?_,?_⟩
    · intro dma hdma rw hrw
      obtain ⟨dma',i,hdma',hi,rfl⟩ := hdriver rw hrw
      obtain rfl : dma' = dma := Option.some.inj (hdma'.symm.trans hdma)
      exact (driver_slot_inside_iff dma' (Nat.lt_trans hi (by decide))).mpr hi
    · exact fun _ _ rw hrw => absurd hrw (hserver rw)
    · intro v hv w hw hne
      obtain ⟨dma,i,hdma,hi,rfl⟩ := hdriver v hv
      obtain ⟨dma',j,hdma',hj,rfl⟩ := hdriver w hw
      obtain rfl : dma' = dma := Option.some.inj (hdma'.symm.trans hdma)
      exact slots_apart_of_size dma' (by decide) (by decide) (Nat.lt_trans hi (by decide))
        (Nat.lt_trans hj (by decide)) hne
    · exact fun v hv => absurd hv (hserver v)
    · exact fun _ _ rw hrw => absurd hrw (hserver rw)
    · exact fun _ _ rw hrw => absurd hrw (hserver rw)

/-- A set-up in which every post is accepted. -/
def connected (base : U64) : Setup := ⟨some base,fun _ => true⟩

/-- An RPC: the message lands in a slot of the server, the reply in one of the driver,
and both are put back. -/
def exchange (dma rpcBuffer : U64) (i j : ℕ) : List Label :=
  [.receive false (slotWork rpcBuffer serverSlotSize i),
    .receive true (slotWork dma driverSlotSize j),
    .putBack true (slotWork dma driverSlotSize j),
    .putBack false (slotWork rpcBuffer serverSlotSize i)]

theorem rpc_buffers_fit_sample :
    ∃ t, run step (exchange 0x10000#64 0x20000#64 0 0++exchange 0x10000#64 0x20000#64 1 1)
        (initSides (connected 0x10000#64) (connected 0x20000#64)) = some t ∧
      ¬Fits (connected 0x10000#64) (connected 0x20000#64) t := by
  have hrun : (run step (exchange 0x10000#64 0x20000#64 0 0++exchange 0x10000#64 0x20000#64 1 1)
      (initSides (connected 0x10000#64) (connected 0x20000#64))).isSome = true := by
    decide +kernel
  obtain ⟨t,ht⟩ := Option.isSome_iff_exists.mp hrun
  refine ⟨t,ht,fun hf => ?_⟩
  exact ((rpc_buffers_fit_iff _ _ _ t ht).mp hf).1 ⟨rfl,fun _ _ => rfl⟩

/-- The driver's slot 16 begins where its page ends. -/
theorem slots_overrun : ¬ ∀ (d m : Setup) (ls : List Label) (t : Sides),
    run step ls (initSides d m) = some t → Fits d m t := by
  intro hall
  have hf := hall (connected 0x10000#64) (connected 0x20000#64) [] _ rfl
  have hin : slotWork 0x10000#64 driverSlotSize 16 ∈
      (initSides (connected 0x10000#64) (connected 0x20000#64)).driver.posts := by
    decide +kernel
  have hlt := (driver_slot_inside_iff _ (by decide)).mp (hf.driverInside _ rfl _ hin)
  exact absurd hlt (by decide)

end Maruswap.RpcBuffers
