import Maruswap.CommitWait
import Maruswap.TestClient

/-!
# One request at a time

The server as the test asks it: for whole batches, and never for the next before the last
is answered. The list then holds what has come since the last commit, and a request that
is not answered leaves the server something to do.
-/

set_option autoImplicit false

namespace Maruswap.SingleRequests
open WireFormat GuardedRun Deployment TestClient CommitWait
open ServerHandlers (AllocResult configBatch mcmMaxRecvWr)
open CommitBarrier (Net AllocSucceeds Request serverStep)
open ServerThreads (IsCommit Threads)

/-- The list holds what was put on it since the last commit. -/
def Level (n : Net Bytes) : Prop :=
  match n.thr.rdma with
  | .replying _ => n.thr.srv.commitList = [] ∧ n.thr.listed = n.sent.length
  | _ => n.thr.listed = n.base+n.thr.srv.commitList.length

/-- The request in hand is the last, and no frame was sent behind it. -/
def Single (n : Net Bytes) : Prop :=
  ∀ r ∈ n.current, n.rpc = [] ∧ r.upto = n.sent.length

theorem listed_eq {n : Net Bytes} (h : Kept n) :
    n.thr.listed+n.thr.queue.length+n.channel.length = n.sent.length := by
  have hfits := h.ledger.fits
  rw [h.sent, List.length_append, Threads.listed]
  omega

theorem Level.keep {n m : Net Bytes} (h : Level n) (hrdma : m.thr.rdma = n.thr.rdma)
    (hlist : m.thr.srv.commitList = n.thr.srv.commitList) (hlisted : m.thr.listed = n.thr.listed)
    (hsent : m.sent = n.sent) (hbase : m.base = n.base) : Level m := by
  unfold Level at h ⊢
  rw [hrdma, hlist, hlisted, hsent, hbase]
  exact h

theorem list_add_level {n : Net Bytes} {wc : ServerHandlers.Wc} (h : Filled n) (hv : Level n)
    (ht : n.thr.taken = some wc) : Level { n with thr := ServerThreads.listFlow wc n.thr } := by
  have hkept := listed_eq h.replica.kept
  have hlisted := ServerThreads.list_flow_listed h.sound.ledger ht
  have hqueue : n.thr.queue.length = n.thr.cq.length+1 := by simp [Threads.queue, ht]
  unfold Level at hv ⊢
  dsimp only
  rw [hlisted]
  cases hrdma : n.thr.rdma with
  | replying immData =>
    simp only [hrdma] at hv
    omega
  | _ =>
    simp only [hrdma] at hv
    simp only [ServerThreads.listFlow, ServerHandlers.flowListAdd, hrdma, List.length_cons]
    omega

theorem region_level {n m : Net Bytes} {alloc : ℕ → AllocResult} (h : Filled n)
    (hone : Single n) (hs : serverStep (.region alloc) n = some m) : Level m := by
  have hkept := listed_eq h.replica.kept
  have howed := h.sound.owed
  obtain ⟨u,hu,rfl⟩ := Option.map_eq_some_iff.mp hs
  simp only [ServerThreads.step] at hu
  split at hu
  · next immData hrdma =>
    obtain rfl := Option.some.inj hu
    cases hcurrent : n.current with
    | none => simp [CommitBarrier.Owed, hcurrent, hrdma] at howed
    | some r =>
      simp only [CommitBarrier.Owed, hcurrent, hrdma] at howed
      obtain ⟨-,hupto⟩ := hone r (by simp [hcurrent])
      refine ⟨CommitBarrier.region_list ..,?_⟩
      change n.thr.listed = n.sent.length
      omega
  · cases hu

theorem reply_level {n m : Net Bytes} (h : Filled n) (hv : Level n) (hone : Single n)
    (hs : CommitBarrier.step .reply n = some m) : Level m := by
  have howed := h.sound.owed
  obtain ⟨u,hu,rfl⟩ := Option.map_eq_some_iff.mp hs
  simp only [ServerThreads.step] at hu
  split at hu
  · next immData hrdma =>
    obtain rfl := Option.some.inj hu
    cases hcurrent : n.current with
    | none => simp [CommitBarrier.Owed, hcurrent, hrdma] at howed
    | some r =>
      obtain ⟨-,hupto⟩ := hone r (by simp [hcurrent])
      simp only [Level, hrdma] at hv
      change n.thr.listed = r.upto+n.thr.srv.commitList.length
      rw [hv.1, hv.2, hupto, List.length_nil, Nat.add_zero]
  · cases hu

theorem pick_level {n m : Net Bytes} (hv : Level n) (ht : n.thr.srv.commitList ≠ [])
    (hs : CommitBarrier.step .pick n = some m) : Level m := by
  simp only [CommitBarrier.step] at hs
  split at hs
  · obtain ⟨u,hu,rfl⟩ := Option.map_eq_some_iff.mp hs
    obtain ⟨⟨hidle,-⟩,hu⟩ := Option.ite_none_right_eq_some.mp hu
    obtain rfl := Option.some.inj hu
    have hrdma : n.thr.rdma = .idle := hidle
    unfold Level at hv ⊢
    simp only [hrdma] at hv
    dsimp only
    rw [if_neg ht]
    exact hv
  · cases hs

theorem pass_level {n m : Net Bytes} (hv : Level n) (hs : CommitBarrier.step .pass n = some m) :
    Level m := by
  obtain ⟨u,hu,rfl⟩ := Option.map_eq_some_iff.mp hs
  simp only [ServerThreads.step] at hu
  split at hu
  · next immData hrdma =>
    obtain ⟨-,hu⟩ := Option.ite_none_right_eq_some.mp hu
    obtain rfl := Option.some.inj hu
    unfold Level at hv ⊢
    simp only [hrdma] at hv
    exact hv
  · cases hu

theorem level_step {n m : Net Bytes} {l : CommitBarrier.Label Bytes} (h : Filled n)
    (hv : Level n) (hone : Single n) (hl : isClient l = false) (ht : Timely l n)
    (hs : CommitBarrier.step l n = some m) : Level m := by
  cases l with
  | send header payload => cases hl
  | request immData => cases hl
  | deliver w =>
    simp only [CommitBarrier.step] at hs
    split at hs
    · next header payload rest hch =>
      obtain ⟨u,hu,rfl⟩ := Option.map_eq_some_iff.mp hs
      obtain ⟨-,hu⟩ := Option.ite_none_right_eq_some.mp hu
      obtain rfl := Option.some.inj hu
      exact hv.keep rfl rfl (ServerThreads.arrive_listed header payload w n.thr) rfl rfl
    · cases hs
  | poll =>
    obtain ⟨u,hu,rfl⟩ := Option.map_eq_some_iff.mp hs
    obtain ⟨wc,cq,hno,-,hcq,rfl⟩ := ServerThreads.poll_cases hu
    exact hv.keep rfl rfl (by simp [Threads.listed, Threads.queue, hno, hcq]) rfl rfl
  | listAdd =>
    obtain ⟨u,hu,rfl⟩ := Option.map_eq_some_iff.mp hs
    obtain ⟨wc,htaken,rfl⟩ := Option.map_eq_some_iff.mp hu
    exact list_add_level h hv htaken
  | convey a =>
    obtain ⟨u,hu,rfl⟩ := Option.map_eq_some_iff.mp hs
    obtain ⟨wc,-,rfl⟩ := Option.map_eq_some_iff.mp hu
    exact hv.keep rfl (CommitBarrier.flow_convey_list a wc n.thr.srv) rfl rfl rfl
  | pick => exact pick_level hv ht hs
  | pass => exact pass_level hv hs
  | region alloc => exact region_level h hone hs
  | reply => exact reply_level h hv hone hs

def CanMove (n : Net Bytes) : Prop :=
  ∃ l, isClient l = false ∧ AllocSucceeds l ∧ Timely l n ∧ (CommitBarrier.step l n).isSome

theorem convey_moves {n : Net Bytes} {wc : ServerHandlers.Wc} (h : n.thr.mcast = some wc) :
    CanMove n := by
  refine ⟨.convey plenty,rfl,plenty_succeeds,trivial,?_⟩
  simp only [CommitBarrier.step, serverStep, ServerThreads.step, h, Option.map_some,
    Option.isSome_some]

theorem frame_moves {n : Net Bytes} (h : Stocked n)
    (hroom : n.thr.srv.commitList.length < mcmMaxRecvWr) (hflight : inFlight n ≠ 0) :
    CanMove n := by
  cases hmcast : n.thr.mcast with
  | some wc => exact convey_moves hmcast
  | none =>
    cases htaken : n.thr.taken with
    | some wc =>
      refine ⟨.listAdd,rfl,trivial,trivial,?_⟩
      simp only [CommitBarrier.step, serverStep, ServerThreads.step, htaken, Option.map_some,
        Option.isSome_some]
    | none =>
      cases hcq : n.thr.cq with
      | cons wc cq =>
        refine ⟨.poll,rfl,trivial,trivial,?_⟩
        simp only [CommitBarrier.step, serverStep, ServerThreads.step, hmcast, htaken, hcq,
          Option.map_some, Option.isSome_some]
      | nil =>
        have hqueue : n.thr.queue = [] := by simp [Threads.queue, htaken, hcq]
        cases hch : n.channel with
        | nil => simp [inFlight, inHand, hmcast, hqueue, hch] at hflight
        | cons e rest =>
          have hfull := h.full
          rw [hqueue, List.length_nil] at hfull
          cases hp : n.thr.srv.posted with
          | nil =>
            rw [hp, List.length_nil] at hfull
            omega
          | cons w ws =>
            obtain ⟨hflow,htable⟩ := h.flows e (by simp [hch])
            refine ⟨.deliver w,rfl,trivial,trivial,?_⟩
            simp only [CommitBarrier.step, hch, serverStep, ServerThreads.step]
            rw [if_pos ⟨hflow,htable,by simp [hp]⟩]
            rfl

theorem idle_moves {n : Net Bytes} (h : Filled n) (hstock : Stocked n) (hv : Level n)
    (hrpc : ∀ r ∈ n.rpc, IsCommit r.immData ∧ n.rpc = [r]) (hidle : n.thr.rdma = .idle)
    (hbusy : n.rpc ≠ [] ∨ n.current ≠ none) : CanMove n := by
  have howed := h.sound.owed
  have hkept := listed_eq h.replica.kept
  have hcurrent : n.current = none := by
    cases hc : n.current with
    | none => rfl
    | some r => simp [CommitBarrier.Owed, hc, hidle] at howed
  obtain ⟨r,rest,hr⟩ := List.exists_cons_of_ne_nil
    (hbusy.resolve_right (fun hne => hne hcurrent))
  obtain ⟨hcommit,hsingle⟩ := hrpc r (by simp [hr])
  by_cases hlist : n.thr.srv.commitList = []
  · refine frame_moves hstock (by simp [hlist, mcmMaxRecvWr]) fun hnone => ?_
    have hsince := (h.rpc r (by simp [hr])).since
    have hchain := h.sound.chain
    rw [hsingle, hcurrent] at hchain
    obtain ⟨hupto,hlast⟩ : r.upto = n.base+r.since ∧ r.upto = n.last := hchain
    have hle := h.sound.last
    simp only [Level, hidle, hlist, List.length_nil] at hv
    unfold configBatch at hsince
    unfold inFlight at hnone
    omega
  · refine ⟨.pick,rfl,trivial,hlist,?_⟩
    simp only [CommitBarrier.step, hr, serverStep, ServerThreads.step]
    rw [if_pos ⟨hidle,hcommit⟩]
    rfl

theorem waiting_moves {n : Net Bytes} {immData : U32} (h : Filled n) (hstock : Stocked n)
    (hv : Level n) (hone : Single n) (hrdma : n.thr.rdma = .waiting immData) : CanMove n := by
  have howed := h.sound.owed
  have hkept := listed_eq h.replica.kept
  have hneed := h.need immData hrdma
  by_cases hbatch : configBatch ≤ n.thr.srv.batch
  · refine ⟨.pass,rfl,trivial,trivial,?_⟩
    simp only [CommitBarrier.step, serverStep, ServerThreads.step, hrdma, hneed]
    rw [if_pos hbatch]
    rfl
  · have hlist := h.sound.ledger.batch
    have hhand : (if n.thr.mcast.isSome then 1 else 0) ≤ 1 := by split <;> omega
    unfold configBatch at hbatch
    refine frame_moves hstock (by unfold mcmMaxRecvWr; omega) fun hnone => ?_
    cases hcurrent : n.current with
    | none => simp [CommitBarrier.Owed, hcurrent, hrdma] at howed
    | some r =>
      simp only [CommitBarrier.Owed, hcurrent, hrdma] at howed
      obtain ⟨-,hupto⟩ := hone r (by simp [hcurrent])
      have hsince := (h.current r (by simp [hcurrent])).since
      unfold configBatch at hsince
      simp only [Level, hrdma] at hv
      unfold inFlight inHand at hnone
      omega

theorem server_busy {n : Net Bytes} (h : Filled n) (hstock : Stocked n) (hv : Level n)
    (hone : Single n) (hrpc : ∀ r ∈ n.rpc, IsCommit r.immData ∧ n.rpc = [r])
    (hbusy : n.rpc ≠ [] ∨ n.current ≠ none) : CanMove n := by
  cases hrdma : n.thr.rdma with
  | idle => exact idle_moves h hstock hv hrpc hrdma hbusy
  | waiting immData => exact waiting_moves h hstock hv hone hrdma
  | passed immData =>
    cases hmcast : n.thr.mcast with
    | some wc => exact convey_moves hmcast
    | none =>
      refine ⟨.region fun _ => plenty,rfl,fun _ => plenty_succeeds,hmcast,?_⟩
      simp only [CommitBarrier.step, serverStep, ServerThreads.step, hrdma, Option.map_some,
        Option.isSome_some]
  | replying immData =>
    refine ⟨.reply,rfl,trivial,trivial,?_⟩
    simp only [CommitBarrier.step, serverStep, ServerThreads.step, hrdma, Option.map_some,
      Option.isSome_some]

/-- What a step of the server does to the requests. -/
inductive Queue (n m : Net Bytes) : Prop where
  | same (hrpc : m.rpc = n.rpc) (hcurrent : m.current = n.current)
  | picked (r : Request) (hrpc : n.rpc = r::m.rpc) (hcurrent : m.current = some r)
  | replied (hrpc : m.rpc = n.rpc) (hcurrent : m.current = none)

theorem queue_step {n m : Net Bytes} {l : CommitBarrier.Label Bytes} (hl : isClient l = false)
    (hs : CommitBarrier.step l n = some m) : Queue n m := by
  cases l with
  | send header payload => cases hl
  | request immData => cases hl
  | deliver w =>
    simp only [CommitBarrier.step] at hs
    split at hs
    · obtain ⟨u,-,rfl⟩ := Option.map_eq_some_iff.mp hs
      exact .same rfl rfl
    · cases hs
  | pick =>
    simp only [CommitBarrier.step] at hs
    split at hs
    · next r rest hr =>
      obtain ⟨u,-,rfl⟩ := Option.map_eq_some_iff.mp hs
      exact .picked r hr rfl
    · cases hs
  | reply =>
    obtain ⟨u,-,rfl⟩ := Option.map_eq_some_iff.mp hs
    exact .replied rfl rfl
  | _ =>
    obtain ⟨u,-,rfl⟩ := Option.map_eq_some_iff.mp hs
    exact .same rfl rfl

end Maruswap.SingleRequests
