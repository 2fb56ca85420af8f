import Maruswap.SingleRequests

/-!
# What a run of the test comes to

The pages that are read back are those that were sent, in the order of sending, and the
test does not wait for a server that has nothing to do. Its end is the RPC whose message
finds the first work with a slot past what is registered, well before the last round: as
long as every send completes, the test can be brought there from wherever it stands, and
no further.
-/

set_option autoImplicit false

namespace Maruswap.TestRuns
open WireFormat BitFields GuardedRun Deployment TestClient CommitWait SingleRequests
open DriverStage (RdmaInfo)
open ServerHandlers (AllocResult configBatch InTable)
open CommitBarrier (Net AllocSucceeds)
open ServerThreads (IsCommit)
open RpcCalls (nrBinders)

/-! The test with its server. -/

def waits : Pc → Bool
  | .waiting _ _ => true
  | _ => false

structure Brisk (s : Test) : Prop where
  stocked : Stocked s.net
  level : Level s.net
  single : Single s.net
  alone : ∀ r ∈ s.net.rpc, IsCommit r.immData ∧ s.net.rpc = [r] ∧ s.net.current = none
  quiet : waits s.pc = false → s.net.rpc = [] ∧ s.net.current = none

theorem Brisk.keep {s t : Test} (h : Brisk s) (hnet : t.net = s.net)
    (hquiet : waits t.pc = false → s.net.rpc = [] ∧ s.net.current = none) : Brisk t :=
  ⟨hnet ▸ h.stocked,hnet ▸ h.level,hnet ▸ h.single,hnet ▸ h.alone,hnet ▸ hquiet⟩

theorem rdma_idle {n : Net Bytes} (h : Filled n) (hcurrent : n.current = none) :
    n.thr.rdma = .idle := by
  have howed := h.sound.owed
  cases hrdma : n.thr.rdma with
  | idle => rfl
  | _ => simp [CommitBarrier.Owed, hcurrent, hrdma] at howed

theorem open_brisk {a : AllocResult} {header : U32} {s t : Test} {info : RdmaInfo}
    (hf : Filled s.net) (h : Brisk s) (hpc : waits s.pc = false)
    (hs : serveOpen a header s.net = some (t.net,info)) : Brisk t := by
  obtain ⟨hrpc,hcurrent⟩ := h.quiet hpc
  have hkept := (serve_open hf.replica.kept hs).served.kept
  obtain ⟨srv,mb,k,-,hopen,-,-,hnet,-⟩ := serve_open_cases hs
  obtain ⟨-,-,hposted,-,hlist,-⟩ := ServerHandlers.open_effect header a _ srv hopen
  rw [hnet] at hkept
  refine ⟨?_,?_,?_,?_,?_⟩
  · rw [hnet]
    refine ⟨hkept,?_,h.stocked.flows⟩
    dsimp only
    rw [hposted, hlist]
    exact h.stocked.full
  · rw [hnet]
    exact h.level.keep rfl hlist rfl rfl rfl
  · rw [hnet]
    exact h.single
  · rw [hnet]
    exact h.alone
  · rw [hnet]
    exact fun _ => ⟨hrpc,hcurrent⟩

theorem flow_header_opcode (offset : U32) :
    ibGetOpcode (flowHeader offset) = multicastOpcodeFlow := by
  have hmask : (offset &&& 0xfffffff#32).toNat = offset.toNat % 2^28 :=
    toNat_mask offset 28 (by decide)
  have hm : offset &&& 0xfffffff#32 = BitVec.ofNat 32 (offset.toNat % 2^28) := by
    apply BitVec.eq_of_toNat_eq
    rw [hmask, BitVec.toNat_ofNat]
    omega
  refine BitVec.eq_of_toNat_eq ?_
  have hword : (flowHeader offset).toNat = 2^28*1+offset.toNat % 2^28 := by
    rw [flowHeader, hm]
    exact opcode_or_offset 1 _ (by decide) (Nat.mod_lt _ (by decide))
  rw [ib_get_opcode_eq, hword, multicastOpcodeFlow]
  simp only [BitVec.toNat_ofNat]
  omega

theorem send_brisk {header offset : U32} {page : Bytes} {s t : Test} (hf : Filled s.net)
    (h : Brisk s) (hpc : waits s.pc = false) (ho : offset.toNat < 2^22)
    (hheader : header = flowHeader offset)
    (hnet : t.net = multicast (some (header,page)) s.net) : Brisk t := by
  obtain ⟨hrpc,hcurrent⟩ := h.quiet hpc
  have hidle := rdma_idle hf hcurrent
  have hlevel := h.level
  have hflow : ibGetOpcode header = multicastOpcodeFlow ∧ InTable header := by
    rw [hheader]
    refine ⟨flow_header_opcode offset,?_⟩
    unfold InTable blockOf maxMemblock
    rw [flow_header_page]
    omega
  refine ⟨?_,?_,?_,?_,?_⟩
  · refine step_stocked (l := .send header page) h.stocked trivial ?_
    rw [hnet]
    exact if_pos hflow
  · rw [hnet]
    unfold Level at hlevel ⊢
    simp only [multicast, hidle] at hlevel ⊢
    exact hlevel
  · rw [hnet]
    intro r hr
    have hin : r ∈ s.net.current := hr
    rw [hcurrent] at hin
    cases hin
  · rw [hnet]
    exact h.alone
  · rw [hnet]
    exact fun _ => ⟨hrpc,hcurrent⟩

theorem ask_brisk {immData : U32} {s t : Test} (hf : Filled s.net) (h : Brisk s)
    (hpc : waits s.pc = false) (hpc' : waits t.pc = true)
    (hs : CommitBarrier.step (.request immData) s.net = some t.net) : Brisk t := by
  obtain ⟨hrpc,hcurrent⟩ := h.quiet hpc
  have hidle := rdma_idle hf hcurrent
  have hlevel := h.level
  have hstocked := step_stocked (l := .request immData) h.stocked trivial hs
  obtain ⟨hcommit,hs⟩ := Option.ite_none_right_eq_some.mp hs
  have hnet := (Option.some.inj hs).symm
  refine ⟨hstocked,?_,?_,?_,fun hno => (by rw [hno] at hpc'; cases hpc')⟩
  · rw [hnet]
    unfold Level at hlevel ⊢
    simp only [hidle] at hlevel ⊢
    exact hlevel
  · rw [hnet]
    intro r hr
    have hin : r ∈ s.net.current := hr
    rw [hcurrent] at hin
    cases hin
  · rw [hnet]
    simp only [hrpc, List.nil_append]
    intro r hr
    obtain rfl := List.mem_singleton.mp hr
    exact ⟨hcommit,rfl,hcurrent⟩

theorem serve_brisk {l : CommitBarrier.Label Bytes} {s : Test} {m : Net Bytes}
    (hc : Consistent s) (h : Brisk s) (hl : isClient l = false) (ha : AllocSucceeds l)
    (ht : Timely l s.net) (hs : CommitBarrier.step l s.net = some m) :
    Brisk { s with net := m } := by
  have hcalm := DeployedReads.in_order_calm ha (hc.filled.in_order ht hs)
  have hserved := server_step hc.filled.replica.kept hl hcalm hs
  have hlevel := level_step hc.filled h.level h.single hl ht hs
  have hstocked := step_stocked h.stocked hcalm hs
  cases queue_step hl hs with
  | same hrpc hcurrent =>
    refine ⟨hstocked,hlevel,?_,?_,?_⟩
    · intro r hr
      dsimp only at hr ⊢
      rw [hcurrent] at hr
      rw [hrpc, hserved.sent]
      exact h.single r hr
    · dsimp only
      rw [hrpc, hcurrent]
      exact h.alone
    · dsimp only
      rw [hrpc, hcurrent]
      exact h.quiet
  | picked r hrpc hcurrent =>
    have hwaits : waits s.pc = true := by
      cases hw : waits s.pc with
      | true => rfl
      | false =>
        rw [(h.quiet hw).1] at hrpc
        cases hrpc
    obtain ⟨-,hsingle,hnone⟩ := h.alone r (by simp [hrpc])
    have hrest : m.rpc = [] := by
      rw [hrpc] at hsingle
      exact (List.cons.inj hsingle).2
    refine ⟨hstocked,hlevel,?_,?_,fun hno => (by rw [hwaits] at hno; cases hno)⟩
    · intro q hq
      dsimp only at hq ⊢
      rw [hcurrent] at hq
      obtain rfl := Option.some.inj hq
      refine ⟨hrest,?_⟩
      have hchain := hc.filled.sound.chain
      rw [hsingle, hnone] at hchain
      obtain ⟨-,hlast⟩ : r.upto = s.net.base+r.since ∧ r.upto = s.net.last := hchain
      have hat := hc.at'
      unfold At at hat
      unfold waits at hwaits
      split at hwaits
      · next a i hpc =>
        simp only [hpc] at hat
        rw [hlast, hserved.sent, hat.2.2.asked, hat.2.2.length]
      · cases hwaits
    · dsimp only
      rw [hrest]
      intro q hq
      cases hq
  | replied hrpc hcurrent =>
    refine ⟨hstocked,hlevel,?_,?_,?_⟩
    · intro r hr
      dsimp only at hr
      rw [hcurrent] at hr
      cases hr
    · dsimp only
      rw [hrpc, hcurrent]
      exact fun r hr => ⟨(h.alone r hr).1,(h.alone r hr).2.1,rfl⟩
    · dsimp only
      rw [hrpc, hcurrent]
      exact fun hw => ⟨(h.quiet hw).1,rfl⟩

theorem read_brisk {s t : Test} (h : Brisk s) (hs : TestClient.step .read s = some t) :
    Brisk t := by
  simp only [TestClient.step] at hs
  split at hs
  · next a i ia hpc =>
    have hquiet := h.quiet (by simp [hpc, waits])
    split at hs
    · split at hs
      · exact Option.some.inj hs ▸ h.keep rfl fun _ => hquiet
      · exact Option.some.inj hs ▸ h.keep rfl fun _ => hquiet
    · exact Option.some.inj hs ▸ h.keep rfl fun _ => hquiet
  · cases hs

theorem compare_brisk {s t : Test} (h : Brisk s) (hs : TestClient.step .compare s = some t) :
    Brisk t := by
  simp only [TestClient.step] at hs
  split at hs
  · next a i ia hpc =>
    have hquiet := h.quiet (by simp [hpc, waits])
    split at hs
    · exact Option.some.inj hs ▸ h.keep rfl fun _ => hquiet
    · exact Option.some.inj hs ▸ h.keep rfl fun _ => hquiet
  · cases hs

theorem step_brisk {l : Label} {s t : Test} (hc : Consistent s) (h : Brisk s)
    (hg : Steady l s) (hs : TestClient.step l s = some t) : Brisk t := by
  cases l with
  | openBlock b a =>
    simp only [TestClient.step] at hs
    split at hs
    · next i w works hpc _ =>
      obtain ⟨-,hs⟩ := Option.ite_none_right_eq_some.mp hs
      have hwaits : waits s.pc = false := by simp [hpc, waits]
      split at hs
      · obtain ⟨⟨n,info⟩,hserve,rfl⟩ := Option.map_eq_some_iff.mp hs
        exact open_brisk hc.filled h hwaits hserve
      · exact Option.some.inj hs ▸ h.keep rfl fun _ => h.quiet hwaits
    · cases hs
  | draw r =>
    simp only [TestClient.step] at hs
    split at hs
    · next a i hpc =>
      obtain ⟨-,hs⟩ := Option.ite_none_right_eq_some.mp hs
      obtain rfl := Option.some.inj hs
      exact h.keep rfl fun _ => h.quiet (by simp [hpc, waits])
    · cases hs
  | send success =>
    simp only [TestClient.step] at hs
    split at hs
    · next a i hpc =>
      have hat := hc.at'
      simp only [At, hpc] at hat
      obtain ⟨-,-,-,hslot,-⟩ := hat
      split at hs
      · obtain rfl := Option.some.inj hs
        exact send_brisk hc.filled h (by simp [hpc, waits]) hslot.bound hslot.word rfl
      · obtain rfl := Option.some.inj hs
        exact h.keep rfl fun _ => h.quiet (by simp [hpc, waits])
    · cases hs
  | ask b =>
    simp only [TestClient.step] at hs
    split at hs
    · next a i w works hpc _ =>
      obtain ⟨-,hs⟩ := Option.ite_none_right_eq_some.mp hs
      have hwaits : waits s.pc = false := by simp [hpc, waits]
      split at hs
      · obtain ⟨n,hn,rfl⟩ := Option.map_eq_some_iff.mp hs
        exact ask_brisk hc.filled h hwaits rfl hn
      · exact Option.some.inj hs ▸ h.keep rfl fun _ => h.quiet hwaits
    · cases hs
  | answered =>
    simp only [TestClient.step] at hs
    split at hs
    · obtain ⟨⟨hrpc,hcurrent⟩,hs⟩ := Option.ite_none_right_eq_some.mp hs
      obtain rfl := Option.some.inj hs
      exact h.keep rfl fun _ => ⟨hrpc,by simpa using hcurrent⟩
    · cases hs
  | read => exact read_brisk h hs
  | compare => exact compare_brisk h hs
  | turn =>
    simp only [TestClient.step] at hs
    split at hs
    · next a i hpc =>
      obtain ⟨-,hs⟩ := Option.ite_none_left_eq_some.mp hs
      obtain rfl := Option.some.inj hs
      exact h.keep rfl fun _ => h.quiet (by simp [hpc, waits])
    · cases hs
  | server l =>
    obtain ⟨hl,hs⟩ := Option.ite_none_left_eq_some.mp hs
    obtain ⟨m,hm,rfl⟩ := Option.map_eq_some_iff.mp hs
    exact serve_brisk hc h (by simpa using hl) hg.1 hg.2 hm

/-! The receive works go round. -/

def rotated (n : ℕ) : List ℕ :=
  List.range' n (RpcBuffers.mcmMaxRecvWr-n)++List.range n

theorem rotated_cases {n w : ℕ} {works : List ℕ} (h : n < RpcBuffers.mcmMaxRecvWr)
    (hw : rotated n = w::works) : w = n ∧ works++[w] = rotated (n+1) := by
  have hleft : RpcBuffers.mcmMaxRecvWr-n = (RpcBuffers.mcmMaxRecvWr-(n+1))+1 := by omega
  rw [rotated, hleft, List.range'_succ, List.cons_append, List.cons.injEq] at hw
  obtain ⟨rfl,rfl⟩ := hw
  refine ⟨rfl,?_⟩
  rw [rotated, List.range_succ, List.append_assoc]

def nrFitting : ℕ := 1088

theorem rotated_cons {n : ℕ} (h : n ≤ nrFitting) : ∃ works, rotated n = n::works := by
  have hleft : RpcBuffers.mcmMaxRecvWr-n = (RpcBuffers.mcmMaxRecvWr-(n+1))+1 := by
    unfold nrFitting at h
    unfold RpcBuffers.mcmMaxRecvWr
    omega
  rw [rotated, hleft, List.range'_succ]
  exact ⟨_,rfl⟩

theorem slot_fits_iff (w : ℕ) : SlotFits w ↔ w < nrFitting := by
  unfold SlotFits RpcBuffers.serverSlotSize RpcBuffers.rpcBufferSize nrFitting
  unfold RpcBuffers.slotBufferSize RpcBuffers.serverSlotSize RpcBuffers.rpcNrBuffer
    RpcBuffers.pageSize
  omega

/-- The RPCs that have been made, where the test goes on. -/
def calls : Pc → Option ℕ
  | .opening i => some i
  | .drawing a i => some (nrOpened+a*(roundLength/configBatch)+i/configBatch)
  | .sending a i => some (nrOpened+a*(roundLength/configBatch)+i/configBatch)
  | .asking a i => some (nrOpened+a*(roundLength/configBatch)+i/configBatch)
  | .waiting a i => some (nrOpened+a*(roundLength/configBatch)+(i+1)/configBatch)
  | .reading a i _ => some (nrOpened+a*(roundLength/configBatch)+(i+1)/configBatch)
  | .comparing a i _ => some (nrOpened+a*(roundLength/configBatch)+(i+1)/configBatch)
  | .unanswered a i => some (nrOpened+a*(roundLength/configBatch)+i/configBatch)
  | _ => none

/-- So many RPCs have found their slots inside; with the next one the test is over. -/
structure Slotted (s : Test) : Prop where
  posted : ∀ n ∈ calls s.pc, n ≤ nrFitting ∧ s.works = rotated n
  opened : s.pc ≠ .unopened
  unfinished : s.pc ≠ .finished
  last : ∀ a i, s.pc = .unanswered a i → calls s.pc = some nrFitting

theorem Slotted.keep {s t : Test} (h : Slotted s) (hworks : t.works = s.works)
    (hcalls : calls t.pc = calls s.pc) (hopened : t.pc ≠ .unopened)
    (hunfinished : t.pc ≠ .finished) (hlast : ∀ a i, t.pc ≠ .unanswered a i) : Slotted t :=
  ⟨fun n hn => hworks ▸ h.posted n (hcalls ▸ hn),hopened,hunfinished,
    fun a i hpc => absurd hpc (hlast a i)⟩

theorem stopped_slotted {t : Test} (h : t.pc = .unsent ∨ t.pc = .unread ∨ t.pc = .mismatch) :
    Slotted t := by
  rcases h with h | h | h <;>
    exact ⟨fun n hn => by simp [h, calls] at hn,by simp [h],by simp [h],
      fun a i hpc => by simp [h] at hpc⟩

theorem Slotted.call {s : Test} {n w : ℕ} {works : List ℕ} (h : Slotted s)
    (hcalls : calls s.pc = some n) (hworks : s.works = w::works) :
    n ≤ nrFitting ∧ w = n ∧ works++[w] = rotated (n+1) := by
  obtain ⟨hle,hrot⟩ := h.posted n hcalls
  have hlt : n < RpcBuffers.mcmMaxRecvWr := by
    unfold nrFitting at hle
    unfold RpcBuffers.mcmMaxRecvWr
    omega
  exact ⟨hle,rotated_cases hlt (hrot.symm.trans hworks)⟩

theorem open_slotted {b : ℕ} {a : AllocResult} {s t : Test} (hc : Consistent s) (h : Slotted s)
    (hs : TestClient.step (.openBlock b a) s = some t) : Slotted t := by
  simp only [TestClient.step] at hs
  split at hs
  · next i w works hpc hworks =>
    obtain ⟨-,hs⟩ := Option.ite_none_right_eq_some.mp hs
    have hat := hc.at'
    simp only [At, hpc] at hat
    have hi : i < nrOpened := hat.1
    obtain ⟨-,rfl,hnext⟩ := h.call (by rw [hpc]; rfl) hworks
    have hfits : w < nrFitting := hi.trans (by decide)
    rw [if_pos ((slot_fits_iff w).mpr hfits)] at hs
    obtain ⟨r,-,rfl⟩ := Option.map_eq_some_iff.mp hs
    by_cases hend : w+1 < nrOpened
    · simp only [hend, if_true]
      refine ⟨fun n hn => ?_,by simp,by simp,by simp⟩
      obtain rfl : w+1 = n := Option.some.inj hn
      exact ⟨hfits,hnext⟩
    · simp only [hend, if_false]
      refine ⟨fun n hn => ?_,by simp,by simp,by simp⟩
      have hall : w+1 = nrOpened := by omega
      obtain rfl : nrOpened = n := by simpa [calls] using hn
      exact ⟨by decide,hall ▸ hnext⟩
  · cases hs

theorem batch_div (i : ℕ) : (i+1)/configBatch =
    i/configBatch+if (i+1) % configBatch = 0 then 1 else 0 := by
  unfold configBatch
  split <;> omega

theorem send_slotted {success : Bool} {s t : Test} (hc : Consistent s) (h : Slotted s)
    (hs : TestClient.step (.send success) s = some t) : Slotted t := by
  simp only [TestClient.step] at hs
  split at hs
  · next a i hpc =>
    have hat := hc.at'
    simp only [At, hpc] at hat
    have hbatch := hat.2.1
    split at hs
    · obtain rfl := Option.some.inj hs
      by_cases hend : s.batch % configBatch = 0
      · simp only [hend, if_true]
        exact h.keep rfl (by rw [hpc]; rfl) (by simp) (by simp) (by simp)
      · simp only [hend, if_false]
        rw [hbatch] at hend
        refine h.keep rfl ?_ (by simp) (by simp) (by simp)
        simp only [hpc, calls, batch_div i, hend, if_false, Nat.add_zero]
    · exact Option.some.inj hs ▸ stopped_slotted (.inl rfl)
  · cases hs

theorem ask_slotted {b : ℕ} {s t : Test} (hc : Consistent s) (h : Slotted s)
    (hs : TestClient.step (.ask b) s = some t) : Slotted t := by
  simp only [TestClient.step] at hs
  split at hs
  · next a i w works hpc hworks =>
    obtain ⟨-,hs⟩ := Option.ite_none_right_eq_some.mp hs
    have hat := hc.at'
    simp only [At, hpc] at hat
    have hend : (i+1) % configBatch = 0 := hat.1.2
    obtain ⟨hle,hw,hnext⟩ := h.call (by rw [hpc]; rfl) hworks
    split at hs
    · next hfits =>
      obtain ⟨r,-,rfl⟩ := Option.map_eq_some_iff.mp hs
      refine ⟨fun n hn => ?_,by simp,by simp,by simp⟩
      have hdiv := batch_div i
      rw [if_pos hend] at hdiv
      have hn' : w+1 = n := by
        rw [← Option.some.inj hn, hw, hdiv]
        rfl
      rw [← hn']
      exact ⟨(slot_fits_iff w).mp hfits,hw ▸ hnext⟩
    · next hfits =>
      obtain rfl := Option.some.inj hs
      have hlt : ¬w < nrFitting := fun hlt => hfits ((slot_fits_iff w).mpr hlt)
      refine ⟨fun n hn => h.posted n (by rw [hpc]; exact hn),by simp,by simp,fun c j hj => ?_⟩
      obtain ⟨rfl,rfl⟩ := Pc.unanswered.inj hj
      have hall : w = nrFitting := Nat.le_antisymm (hw ▸ hle) (not_lt.mp hlt)
      rw [← hall, hw]
      rfl
  · cases hs

theorem turn_slotted {s t : Test} (hc : Consistent s) (h : Slotted s)
    (hs : TestClient.step .turn s = some t) : Slotted t := by
  simp only [TestClient.step] at hs
  split at hs
  · next a i hpc =>
    obtain ⟨hi,hs⟩ := Option.ite_none_left_eq_some.mp hs
    obtain rfl := Option.some.inj hs
    have hat := hc.at'
    simp only [At, hpc] at hat
    obtain ⟨hle,-,hst⟩ := hat
    have hall : i = roundLength := by omega
    obtain ⟨hposted,hworks⟩ := h.posted _ (by rw [hpc]; rfl)
    have hnext : nrOpened+a*(roundLength/configBatch)+i/configBatch =
        nrOpened+(a+1)*(roundLength/configBatch)+0/configBatch := by
      rw [hall, Nat.succ_mul, Nat.zero_div, Nat.add_zero, Nat.add_assoc]
    -- the last round is out of reach
    have hround : a+1 < nrRounds := by
      unfold nrOpened roundLength configBatch nrFitting at hposted
      unfold nrRounds
      omega
    simp only [hround, if_true]
    refine h.keep rfl ?_ (by simp) (by simp) (by simp)
    rw [hpc]
    exact congrArg some hnext.symm
  · cases hs

theorem step_slotted {l : Label} {s t : Test} (hc : Consistent s) (h : Slotted s)
    (hs : TestClient.step l s = some t) : Slotted t := by
  cases l with
  | openBlock b a => exact open_slotted hc h hs
  | send success => exact send_slotted hc h hs
  | ask b => exact ask_slotted hc h hs
  | turn => exact turn_slotted hc h hs
  | draw r =>
    simp only [TestClient.step] at hs
    split at hs
    · next a i hpc =>
      obtain ⟨-,hs⟩ := Option.ite_none_right_eq_some.mp hs
      exact Option.some.inj hs ▸
        h.keep rfl (by rw [hpc]; rfl) (by simp) (by simp) (by simp)
    · cases hs
  | answered =>
    simp only [TestClient.step] at hs
    split at hs
    · next a i hpc =>
      obtain ⟨-,hs⟩ := Option.ite_none_right_eq_some.mp hs
      exact Option.some.inj hs ▸
        h.keep rfl (by rw [hpc]; rfl) (by simp) (by simp) (by simp)
    · cases hs
  | read =>
    simp only [TestClient.step] at hs
    split at hs
    · next a i ia hpc =>
      split at hs
      · split at hs
        · exact Option.some.inj hs ▸
            h.keep rfl (by rw [hpc]; rfl) (by simp) (by simp) (by simp)
        · exact Option.some.inj hs ▸ stopped_slotted (.inr (.inl rfl))
      · exact Option.some.inj hs ▸
          h.keep rfl (by rw [hpc]; rfl) (by simp) (by simp) (by simp)
    · cases hs
  | compare =>
    simp only [TestClient.step] at hs
    split at hs
    · next a i ia hpc =>
      split at hs
      · exact Option.some.inj hs ▸
          h.keep rfl (by rw [hpc]; rfl) (by simp) (by simp) (by simp)
      · exact Option.some.inj hs ▸ stopped_slotted (.inr (.inr rfl))
    · cases hs
  | server l =>
    obtain ⟨-,hs⟩ := Option.ite_none_left_eq_some.mp hs
    obtain ⟨m,-,rfl⟩ := Option.map_eq_some_iff.mp hs
    exact ⟨h.posted,h.opened,h.unfinished,h.last⟩

/-! A step always leads nearer to the end. -/

def perFrame : ℕ := 2^11

def framesLeft (a i : ℕ) : ℕ := (nrRounds-a)*(roundLength+1)-i

def left : Pc → ℕ
  | .opening i => perFrame*framesLeft 0 0+(nrOpened-i)
  | .drawing a i => perFrame*framesLeft a i
  | .sending a i => perFrame*framesLeft a i-1
  | .asking a i => perFrame*framesLeft a i-2
  | .waiting a i => perFrame*framesLeft a i-3
  | .reading a i ia => perFrame*framesLeft a i-4-2*(ia-start i)
  | .comparing a i ia => perFrame*framesLeft a i-5-2*(ia-start i)
  | _ => 0

/-- A send gives the server four steps more, and so does a request. -/
def total (s : Test) : ℕ := 5*left s.pc+rank s.net

theorem frames_left_succ {a i : ℕ} (ha : a < nrRounds) (hi : i < roundLength) :
    framesLeft a i = framesLeft a (i+1)+1 := by
  unfold nrRounds at ha
  unfold roundLength at hi
  unfold framesLeft nrRounds roundLength
  omega

theorem frames_left_turn {a : ℕ} (ha : a < nrRounds) :
    framesLeft a roundLength = framesLeft (a+1) 0+1 := by
  unfold nrRounds at ha
  unfold framesLeft nrRounds roundLength
  omega

theorem open_total {b : ℕ} {a : AllocResult} {s t : Test} (h : Consistent s)
    (hs : TestClient.step (.openBlock b a) s = some t) : total t+1 ≤ total s := by
  simp only [TestClient.step] at hs
  split at hs
  · next i w works hpc _ =>
    obtain ⟨-,hs⟩ := Option.ite_none_right_eq_some.mp hs
    have hat := h.at'
    simp only [At, hpc] at hat
    have hi := hat.1
    split at hs
    · obtain ⟨⟨n,info⟩,hserve,rfl⟩ := Option.map_eq_some_iff.mp hs
      have hrank : rank n = rank s.net := by
        obtain ⟨srv,mb,k,-,-,-,-,rfl,-⟩ := serve_open_cases hserve
        rfl
      by_cases hnext : i+1 < nrOpened
      · simp only [total, hrank, hpc, hnext, if_true, left]
        omega
      · simp only [total, hrank, hpc, hnext, if_false, left]
        omega
    · obtain rfl := Option.some.inj hs
      simp only [total, hpc, left]
      omega
  · cases hs

theorem draw_total {r : U32} {s t : Test} (h : Consistent s)
    (hs : TestClient.step (.draw r) s = some t) : total t+1 ≤ total s := by
  simp only [TestClient.step] at hs
  split at hs
  · next a i hpc =>
    obtain ⟨hi,hs⟩ := Option.ite_none_right_eq_some.mp hs
    obtain rfl := Option.some.inj hs
    have hat := h.at'
    simp only [At, hpc] at hat
    have hframes := frames_left_succ hat.2.2.round hi
    simp only [total, hpc, left, perFrame]
    omega
  · cases hs

theorem send_total {success : Bool} {s t : Test} (h : Consistent s)
    (hs : TestClient.step (.send success) s = some t) : total t+1 ≤ total s := by
  simp only [TestClient.step] at hs
  split at hs
  · next a i hpc =>
    have hat := h.at'
    simp only [At, hpc] at hat
    obtain ⟨hi,hbatch,hst,-⟩ := hat
    have hframes := frames_left_succ hst.round hi
    split at hs
    · obtain rfl := Option.some.inj hs
      have hrank : rank (multicast (some (s.header,s.lnum)) s.net) = rank s.net+4 := by
        simp only [rank, multicast, Option.toList_some, List.length_append, List.length_singleton]
        omega
      by_cases hend : s.batch % configBatch = 0
      · simp only [total, hrank, hpc, hend, if_true, left, perFrame]
        omega
      · simp only [total, hrank, hpc, hend, if_false, left, perFrame]
        omega
    · obtain rfl := Option.some.inj hs
      simp only [total, hpc, left, perFrame]
      omega
  · cases hs

theorem ask_total {b : ℕ} {s t : Test} (h : Consistent s)
    (hs : TestClient.step (.ask b) s = some t) : total t+1 ≤ total s := by
  simp only [TestClient.step] at hs
  split at hs
  · next a i w works hpc _ =>
    obtain ⟨-,hs⟩ := Option.ite_none_right_eq_some.mp hs
    have hat := h.at'
    simp only [At, hpc] at hat
    obtain ⟨hend,-,hst⟩ := hat
    have hframes := frames_left_succ hst.round hend.1
    split at hs
    · obtain ⟨n,hn,rfl⟩ := Option.map_eq_some_iff.mp hs
      obtain ⟨-,hn⟩ := Option.ite_none_right_eq_some.mp hn
      obtain rfl := Option.some.inj hn
      simp only [total, rank, hpc, left, perFrame, List.length_append, List.length_singleton]
      omega
    · obtain rfl := Option.some.inj hs
      simp only [total, hpc, left, perFrame]
      omega
  · cases hs

theorem answered_total {s t : Test} (h : Consistent s)
    (hs : TestClient.step .answered s = some t) : total t+1 ≤ total s := by
  simp only [TestClient.step] at hs
  split at hs
  · next a i hpc =>
    obtain ⟨-,hs⟩ := Option.ite_none_right_eq_some.mp hs
    obtain rfl := Option.some.inj hs
    have hat := h.at'
    simp only [At, hpc] at hat
    obtain ⟨hend,-,hst⟩ := hat
    have hframes := frames_left_succ hst.round hend.1
    simp only [total, hpc, left, perFrame, hst.counted]
    omega
  · cases hs

theorem read_total {s t : Test} (h : Consistent s)
    (hs : TestClient.step .read s = some t) : total t+1 ≤ total s := by
  simp only [TestClient.step] at hs
  split at hs
  · next a i ia hpc =>
    have hat := h.at'
    simp only [At, hpc] at hat
    obtain ⟨hend,hbatch,hlo,hhi,-,hst⟩ := hat
    have hframes := frames_left_succ hst.round hend.1
    have hlength := batch_length hend
    unfold configBatch at hlength
    split at hs
    · split at hs
      · obtain rfl := Option.some.inj hs
        simp only [total, hpc, left, perFrame]
        omega
      · obtain rfl := Option.some.inj hs
        simp only [total, hpc, left, perFrame]
        omega
    · obtain rfl := Option.some.inj hs
      simp only [total, hpc, left, perFrame]
      omega
  · cases hs

theorem compare_total {s t : Test} (h : Consistent s)
    (hs : TestClient.step .compare s = some t) : total t+1 ≤ total s := by
  simp only [TestClient.step] at hs
  split at hs
  · next a i ia hpc =>
    have hat := h.at'
    simp only [At, hpc] at hat
    obtain ⟨hend,hbatch,hlo,hhi,-,hst,-⟩ := hat
    have hframes := frames_left_succ hst.round hend.1
    have hlength := batch_length hend
    unfold configBatch at hlength
    split at hs
    · obtain rfl := Option.some.inj hs
      simp only [total, hpc, left, perFrame]
      omega
    · obtain rfl := Option.some.inj hs
      simp only [total, hpc, left, perFrame]
      omega
  · cases hs

theorem turn_total {s t : Test} (h : Consistent s)
    (hs : TestClient.step .turn s = some t) : total t+1 ≤ total s := by
  simp only [TestClient.step] at hs
  split at hs
  · next a i hpc =>
    obtain ⟨hi,hs⟩ := Option.ite_none_left_eq_some.mp hs
    obtain rfl := Option.some.inj hs
    have hat := h.at'
    simp only [At, hpc] at hat
    obtain ⟨hle,-,hst⟩ := hat
    obtain rfl : i = roundLength := by omega
    have hframes := frames_left_turn hst.round
    by_cases hnext : a+1 < nrRounds
    · simp only [total, hpc, hnext, if_true, left, perFrame]
      omega
    · simp only [total, hpc, hnext, if_false, left, perFrame]
      omega
  · cases hs

theorem step_total {l : Label} {s t : Test} (h : Consistent s)
    (hs : TestClient.step l s = some t) : total t+1 ≤ total s := by
  cases l with
  | openBlock b a => exact open_total h hs
  | draw r => exact draw_total h hs
  | send success => exact send_total h hs
  | ask b => exact ask_total h hs
  | answered => exact answered_total h hs
  | read => exact read_total h hs
  | compare => exact compare_total h hs
  | turn => exact turn_total h hs
  | server l =>
    obtain ⟨hl,hs⟩ := Option.ite_none_left_eq_some.mp hs
    obtain ⟨m,hm,rfl⟩ := Option.map_eq_some_iff.mp hs
    have hrank : rank m+1 ≤ rank s.net :=
      step_rank (l := l) (Option.ite_none_left_eq_some.mpr ⟨hl,hm⟩)
    simp only [total]
    omega

def unused (s : ServerHandlers.Server Bytes) : AllocResult :=
  ⟨some ((List.range maxMemblock).foldr (fun k m => (base s k).getD 0+m) 1),some 1#32⟩

theorem lt_foldr_add (f : ℕ → ℕ) {l : List ℕ} {k : ℕ} (hk : k ∈ l) :
    f k < l.foldr (fun k m => f k+m) 1 := by
  have hpos : ∀ l : List ℕ, 0 < l.foldr (fun k m => f k+m) 1 := by
    intro l
    induction l with
    | nil => exact Nat.one_pos
    | cons j l ih => exact Nat.add_pos_right _ ih
  induction l with
  | nil => cases hk
  | cons j l ih =>
    rw [List.foldr_cons]
    rcases List.mem_cons.mp hk with rfl | hk
    · exact Nat.lt_add_of_pos_right (hpos l)
    · exact Nat.lt_add_left _ (ih hk)

theorem unused_fresh (s : ServerHandlers.Server Bytes) : Fresh (unused s) s := by
  intro k hk hne haddr
  have hlt := lt_foldr_add (fun k => (base s k).getD 0) (List.mem_range.mpr hk)
  simp only [haddr, unused, Option.getD_some] at hlt
  exact Nat.lt_irrefl _ hlt

theorem open_answers {a : AllocResult} {header : U32} {n : Net Bytes} (ha : a.Succeeds)
    (hapart : Apart n.thr.srv) (hf : Fresh a n.thr.srv) (hidle : n.thr.rdma = .idle)
    (hop : ibGetOpcode header = opcodeOpen) (htable : InTable header) :
    ∃ r, serveOpen a header n = some r := by
  obtain ⟨off,hd,-⟩ := interpret_header_eq header
  have hblock : ∃ srv mb, ServerHandlers.processRdmaRpcOpen a header n.thr.srv = some srv ∧
      srv.memblocks (blockOf (pageOffset header)) = some mb := by
    simp only [ServerHandlers.processRdmaRpcOpen, hd]
    cases hmb : n.thr.srv.memblocks (blockOf (pageOffset header)) with
    | none =>
      obtain ⟨mb,hadd⟩ := Option.isSome_iff_exists.mp (ServerHandlers.add_memblock_provided a
        (blockOf (pageOffset header)) n.thr.srv
        ((CommitWalk.add_memblock_absent_iff a _ _ hmb).mpr ha)).mapped
      simp only [Option.isNone_none, if_true, hadd]
      exact ⟨_,mb,rfl,hadd⟩
    | some mb =>
      simp only [Option.isNone_some, Bool.false_eq_true, if_false, hmb]
      exact ⟨_,mb,rfl,hmb⟩
  obtain ⟨srv,mb,hopen,hmb⟩ := hblock
  have hbase : base srv (blockOf (pageOffset header)) = some mb.buffer := by simp [base, hmb]
  have hlocate := locate_base (open_apart hapart hf hopen) htable hbase
  rw [serveOpen, if_pos ⟨hidle,hop,htable⟩, hopen, Option.bind_some, hmb, Option.bind_some,
    hlocate]
  exact ⟨_,rfl⟩

theorem open_word_toNat {i : ℕ} (h : i < nrOpened) :
    (openWord (openOffset i)).toNat = 2^28*1+2^18*i := by
  unfold nrOpened at h
  rw [show 2^18*i = 2^30*i/2^12 by omega]
  exact opcode_or_offset 1 (2^30*i/2^12) (by decide) (by omega)

theorem open_word_opcode {i : ℕ} (h : i < nrOpened) :
    ibGetOpcode (rpcImm (openWord (openOffset i)) 0) = opcodeOpen := by
  have hword := open_word_toNat h
  unfold nrOpened at h
  rw [(imm_fields _ (by decide)).1]
  refine BitVec.eq_of_toNat_eq ?_
  rw [ib_get_opcode_eq, hword, opcodeOpen]
  simp only [BitVec.toNat_ofNat]
  omega

theorem open_word_binder {i : ℕ} (h : i < nrOpened) :
    replyBinder (rpcImm (openWord (openOffset i)) 0) = 0 := by
  have hword := open_word_toNat h
  have hmask : replyBinder (rpcImm (openWord (openOffset i)) 0) =
      (rpcImm (openWord (openOffset i)) 0).toNat % 2^8 := toNat_mask _ 8 (by decide)
  rw [hmask, rpcImm, BitVec.or_zero, hword]
  omega

/-- Some step can be taken that is not a send that fails. -/
def GoesOn (s : Test) : Prop :=
  ∃ l, Steady l s ∧ ∃ t ∈ TestClient.step l s, t.pc ≠ .unsent

theorem opening_goes_on {i : ℕ} {s : Test} (hc : Consistent s) (hb : Brisk s) (h : Slotted s)
    (hpc : s.pc = .opening i) : GoesOn s := by
  have hat := hc.at'
  simp only [At, hpc] at hat
  obtain ⟨-,hcurrent⟩ := hb.quiet (by simp [hpc, waits])
  have htable : InTable (rpcImm (openWord (openOffset i)) 0) := by
    have hi := hat.1
    unfold nrOpened at hi
    rw [InTable, open_block _ (by decide), open_offset_block hat.1, maxMemblock]
    omega
  have hfresh := unused_fresh s.net.thr.srv
  obtain ⟨r,hr⟩ := open_answers ⟨rfl,rfl⟩ hc.charted.apart hfresh
    (rdma_idle hc.filled hcurrent) (open_word_opcode hat.1) htable
  obtain ⟨hle,hworks⟩ := h.posted i (by rw [hpc]; rfl)
  obtain ⟨works,hcons⟩ := rotated_cons hle
  refine ⟨.openBlock 0 (unused s.net.thr.srv),hfresh,?_⟩
  simp only [TestClient.step, hpc, hworks, hcons]
  rw [if_pos ⟨by decide,open_word_binder hat.1⟩]
  split
  · rw [hr]
    refine ⟨_,rfl,?_⟩
    dsimp only
    split <;> simp
  · exact ⟨_,rfl,by simp⟩

theorem asking_goes_on {a i : ℕ} {s : Test} (h : Slotted s) (hpc : s.pc = .asking a i) :
    GoesOn s := by
  obtain ⟨hle,hworks⟩ := h.posted _ (by rw [hpc]; rfl)
  obtain ⟨works,hcons⟩ := rotated_cons hle
  refine ⟨.ask 0,trivial,?_⟩
  simp only [TestClient.step, hpc, hworks, hcons, CommitBarrier.step]
  rw [if_pos (by decide), if_pos (show IsCommit (rpcImm commitWord 0) by decide)]
  split
  · exact ⟨_,rfl,by simp⟩
  · exact ⟨_,rfl,by simp⟩

theorem waiting_goes_on {a i : ℕ} {s : Test} (hc : Consistent s) (hb : Brisk s)
    (hpc : s.pc = .waiting a i) : GoesOn s := by
  by_cases hdone : s.net.rpc = [] ∧ s.net.current.isNone = true
  · refine ⟨.answered,trivial,?_⟩
    simp only [TestClient.step, hpc]
    rw [if_pos hdone]
    exact ⟨_,rfl,by simp⟩
  · have hbusy : s.net.rpc ≠ [] ∨ s.net.current ≠ none := by
      by_contra hno
      simp only [ne_eq, not_or, not_not] at hno
      exact hdone ⟨hno.1,by simp [hno.2]⟩
    obtain ⟨l,hl,ha,ht,hsome⟩ := server_busy hc.filled hb.stocked hb.level hb.single
      (fun r hr => ⟨(hb.alone r hr).1,(hb.alone r hr).2.1⟩) hbusy
    obtain ⟨m,hm⟩ := Option.isSome_iff_exists.mp hsome
    refine ⟨.server l,⟨ha,ht⟩,?_⟩
    simp only [TestClient.step, hl, hm, Bool.false_eq_true, if_false, Option.map_some]
    exact ⟨_,rfl,by simp [hpc]⟩

theorem reading_goes_on {a i ia : ℕ} {s : Test} (hpc : s.pc = .reading a i ia) : GoesOn s := by
  refine ⟨.read,trivial,?_⟩
  simp only [TestClient.step, hpc]
  by_cases hia : ia < s.batch
  · rw [if_pos hia]
    split
    · exact ⟨_,rfl,by simp⟩
    · exact ⟨_,rfl,by simp⟩
  · rw [if_neg hia]
    exact ⟨_,rfl,by simp⟩

/-- The message of the next RPC is not received. -/
def Stopped (s : Test) : Prop := ∃ a i, s.pc = .unanswered a i

theorem test_moves {s : Test} (hc : Consistent s) (hb : Brisk s) (h : Slotted s)
    (hsent : s.pc ≠ .unsent) : Stopped s ∨ GoesOn s := by
  have hat := hc.at'
  cases hpc : s.pc with
  | opening i => exact .inr (opening_goes_on hc hb h hpc)
  | drawing a i =>
    by_cases hi : i < roundLength
    · refine .inr ⟨.draw 0#32,trivial,?_⟩
      simp only [TestClient.step, hpc, if_pos hi]
      exact ⟨_,rfl,by simp⟩
    · refine .inr ⟨.turn,trivial,?_⟩
      simp only [TestClient.step, hpc, if_neg hi]
      refine ⟨_,rfl,?_⟩
      dsimp only
      split <;> simp
  | sending a i =>
    refine .inr ⟨.send true,trivial,?_⟩
    simp only [TestClient.step, hpc, if_true]
    refine ⟨_,rfl,?_⟩
    dsimp only
    split <;> simp
  | asking a i => exact .inr (asking_goes_on h hpc)
  | waiting a i => exact .inr (waiting_goes_on hc hb hpc)
  | reading a i ia => exact .inr (reading_goes_on hpc)
  | comparing a i ia =>
    refine .inr ⟨.compare,trivial,?_⟩
    simp only [TestClient.step, hpc]
    split
    · exact ⟨_,rfl,by simp⟩
    · exact ⟨_,rfl,by simp⟩
  | unanswered a i => exact .inl ⟨a,i,hpc⟩
  | unopened => exact absurd hpc h.opened
  | finished => exact absurd hpc h.unfinished
  | unsent => exact absurd hpc hsent
  | unread => simp only [At, hpc] at hat
  | mismatch => simp only [At, hpc] at hat

/-- What holds wherever a run stands. -/
structure Running (s : Test) : Prop where
  consistent : Consistent s
  brisk : Brisk s
  slotted : Slotted s

theorem step_running (l : Label) (s t : Test) (h : Running s) (hg : Steady l s)
    (hs : TestClient.step l s = some t) : Running t :=
  ⟨step_consistent l s t h.consistent hg hs,step_brisk h.consistent h.brisk hg hs,
    step_slotted h.consistent h.slotted hs⟩

theorem stopped_counts {s : Test} {a i : ℕ} (h : Running s) (hpc : s.pc = .unanswered a i) :
    s.net.sent.length = 1064*configBatch ∧
      s.readBack = (s.net.sent.map Prod.fst).take (1063*configBatch) := by
  have hat := h.consistent.at'
  simp only [At, hpc] at hat
  obtain ⟨hend,hst⟩ := hat
  have hcalls := h.slotted.last a i hpc
  rw [hpc] at hcalls
  have hnr := Option.some.inj hcalls
  have hlength := batch_length hend
  simp only [start, nrOpened, roundLength, configBatch, nrFitting] at hnr hlength
  have hback : a*roundLength+start i = 1063*configBatch := by
    unfold roundLength start configBatch
    omega
  refine ⟨?_,hback ▸ hst.read⟩
  rw [hst.length]
  unfold roundLength configBatch
  omega

section Runs
variable (base : ℕ) (rkey : U32) (list : ℕ → RdmaInfo) (lnum scanBuffer : Bytes)

theorem init_running : Running (initTest base rkey list lnum scanBuffer) where
  consistent := init_consistent base rkey list lnum scanBuffer
  brisk := ⟨init_stocked base rkey,rfl,fun _ hr => (by cases hr),
    fun _ hr => absurd hr List.not_mem_nil,fun _ => ⟨rfl,rfl⟩⟩
  slotted := by
    refine ⟨fun n hn => ?_,by simp [initTest],by simp [initTest],by simp [initTest]⟩
    obtain rfl : 0 = n := Option.some.inj hn
    refine ⟨Nat.zero_le _,?_⟩
    have hworks : (initTest base rkey list lnum scanBuffer).works =
        List.range RpcBuffers.mcmMaxRecvWr := by simp only [initTest]
    rw [hworks, rotated, Nat.sub_zero, List.range_zero, List.append_nil,
      List.range_eq_range']

theorem init_total :
    total (initTest base rkey list lnum scanBuffer) = 5*left (.opening 0) := by
  have hrank : rank (CommitBarrier.initNet base rkey : Net Bytes) = 0 := rfl
  change 5*left (.opening 0)+rank (CommitBarrier.initNet base rkey : Net Bytes) = _
  rw [hrank, Nat.add_zero]

theorem run_stops {s : Test} (h : Running s) (hsent : s.pc ≠ .unsent) :
    ∃ ls t, (run TestClient.step ls s = some t ∧ Meets TestClient.step Steady ls s) ∧
      Stopped t := by
  have hnear : ∀ s : Test, Running s ∧ s.pc ≠ .unsent → Stopped s ∨
      ∃ l t, Steady l s ∧ TestClient.step l s = some t ∧ (Running t ∧ t.pc ≠ .unsent) ∧
        total t+1 ≤ total s := by
    rintro s ⟨hs,hne⟩
    rcases test_moves hs.consistent hs.brisk hs.slotted hne with hgoal | ⟨l,hg,t,ht,hpc⟩
    · exact .inl hgoal
    · exact .inr ⟨l,t,hg,ht,⟨step_running l s t hs hg ht,hpc⟩,step_total hs.consistent ht⟩
  exact run_to_goal total hnear ⟨h,hsent⟩

variable (ls : List Label) (t : Test)

/-- Whatever offsets are drawn, the test reads back what it sent, frame after frame, and
never finds another number or a page it may not read. It does not come to its last round:
the message of its 1064th COMMIT is not received, and by then it has read back 1063
batches. -/
theorem test_reads_back
    (hg : Meets TestClient.step Steady ls (initTest base rkey list lnum scanBuffer))
    (h : run TestClient.step ls (initTest base rkey list lnum scanBuffer) = some t) :
    t.pc ≠ .unread ∧ t.pc ≠ .mismatch ∧ t.pc ≠ .unopened ∧ t.pc ≠ .finished ∧
      t.readBack <+: t.net.sent.map Prod.fst ∧ t.count = t.readBack.length ∧
      ∀ a i, t.pc = .unanswered a i → t.net.sent.length = 1064*configBatch ∧
        t.readBack = (t.net.sent.map Prod.fst).take (1063*configBatch) := by
  have hinit := init_running base rkey list lnum scanBuffer
  have hrunning := run_invariant step_running hinit hg h
  have hat := hrunning.consistent.at'
  refine ⟨fun hpc => ?_,fun hpc => ?_,hrunning.slotted.opened,hrunning.slotted.unfinished,
    hrunning.consistent.read,hrunning.consistent.count,fun a i hpc =>
    stopped_counts hrunning hpc⟩
  · simp only [At, hpc] at hat
  · simp only [At, hpc] at hat

theorem test_reads_back_sample : ∃ t : Test, Stopped t ∧
    t.net.sent.length = 544768 ∧ t.readBack = (t.net.sent.map Prod.fst).take 544256 := by
  have hinit := init_running 0 9#32 (fun _ => ⟨⟨0,0⟩,0#32⟩) 0 0
  obtain ⟨ls,t,⟨hrun,hg⟩,a,i,hpc⟩ := run_stops hinit (by simp [initTest])
  exact ⟨t,⟨a,i,hpc⟩,(test_reads_back 0 9#32 _ 0 0 ls t hg hrun).2.2.2.2.2.2 a i hpc⟩

/-- The test does not go on forever, and from wherever it stands it can be brought to the
COMMIT whose message is not received, unless a send has failed. -/
theorem test_ends
    (hg : Meets TestClient.step Steady ls (initTest base rkey list lnum scanBuffer))
    (h : run TestClient.step ls (initTest base rkey list lnum scanBuffer) = some t) :
    ls.length ≤ 5*left (.opening 0) ∧ (t.pc ≠ .unsent →
      ∃ ms u, (run TestClient.step ms t = some u ∧ Meets TestClient.step Steady ms t) ∧
        Stopped u) := by
  have hinit := init_running base rkey list lnum scanBuffer
  refine ⟨?_,run_stops (run_invariant step_running hinit hg h)⟩
  have hstep : ∀ (l : Label) (s t : Test), Running s → Steady l s →
      TestClient.step l s = some t → Running t ∧ total t+1 ≤ total s :=
    fun l s t hs hl ht => ⟨step_running l s t hs hl ht,step_total hs.consistent ht⟩
  rw [← init_total base rkey list lnum scanBuffer]
  exact (Nat.le_add_right _ _).trans (run_length_le total hstep hinit hg h)

end Runs

def openingLabels : List Label := [.openBlock 0 plenty,.openBlock 0 ⟨some 1,some 2#32⟩]

def OpensApart : Label → Test → Prop
  | .openBlock _ a, s => Fresh a s.net.thr.srv
  | _, _ => False

instance (l : Label) (s : Test) : Decidable (OpensApart l s) := by
  cases l with
  | openBlock b a => exact inferInstanceAs (Decidable (Fresh a s.net.thr.srv))
  | _ => exact .isFalse id

theorem opens_apart_steady (l : Label) (s : Test) (h : OpensApart l s) : Steady l s := by
  cases l with
  | openBlock b a => exact h
  | _ => exact h.elim

theorem test_ends_sample : ∃ t : Test, t.pc = .opening 2 ∧
    ∃ ms u, run TestClient.step ms t = some u ∧ Stopped u := by
  have hrun : (run TestClient.step openingLabels
      (initTest 7 9#32 (fun _ => ⟨⟨0,0⟩,0#32⟩) 0 0)).map Test.pc = some (.opening 2) := by
    decide +kernel
  have hapart : Meets TestClient.step OpensApart openingLabels
      (initTest 7 9#32 (fun _ => ⟨⟨0,0⟩,0#32⟩) 0 0) := by decide +kernel
  have hg := hapart.mono opens_apart_steady
  obtain ⟨t,ht,hpc⟩ := Option.map_eq_some_iff.mp hrun
  obtain ⟨ms,u,⟨hu,-⟩,hend⟩ := (test_ends 7 9#32 _ 0 0 _ t hg ht).2 (by simp [hpc])
  exact ⟨t,hpc,ms,u,hu,hend⟩

end Maruswap.TestRuns
