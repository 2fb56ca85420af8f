import Maruswap.GuardedRun
import Maruswap.ServerHandlers

/-!
# The multicast thread and the RDMA thread

The two threads of a connection meet in the commit list, the counter and the
flags. A frame is polled, put on the list, and copied under the lock, and a
commit may run between any two of these. Arrived frames are numbered, and the
log of the server tells which frame each copy was made for.
-/

set_option autoImplicit false

namespace Maruswap.ServerThreads
open WireFormat ServerHandlers GuardedRun

variable {Page : Type*}

/-- Where the RDMA thread stands in `__process_rdma_rpc_commit`. -/
inductive RdmaPc where
  | idle
  | waiting (immData : U32)
  | passed (immData : U32)
  | replying (immData : U32)
  deriving DecidableEq

/-- `taken` is the frame that has been polled and not listed, `mcast` the one between
the halves of its handler; `arrived` is a ghost, the frames in order of arrival. -/
structure Threads (Page : Type*) where
  srv : Server Page
  cq : List Wc
  taken : Option Wc
  mcast : Option Wc
  rdma : RdmaPc
  arrived : List (U32 × Page)

inductive Label (Page : Type*) where
  | arrive (header : U32) (payload : Page) (w : ℕ)
  | poll
  | listAdd
  | convey (a : AllocResult)
  | pick (immData : U32)
  | pass
  | region (alloc : ℕ → AllocResult)
  | reply

def IsCommit (immData : U32) : Prop :=
  ibGetOpcode immData = opcodeCommit ∨ ibGetOpcode immData = opcodeQcommit

instance (immData : U32) : Decidable (IsCommit immData) :=
  inferInstanceAs (Decidable (_ ∨ _))

def arrive (header : U32) (payload : Page) (w : ℕ) (t : Threads Page) : Threads Page :=
  { t with
    srv := deliver w payload t.srv
    cq := t.cq++[⟨header,w,t.arrived.length⟩]
    arrived := t.arrived++[(header,payload)] }

/-- The multicast thread lists the receive work of the completion in its hands. -/
def listFlow (wc : Wc) (t : Threads Page) : Threads Page :=
  { t with srv := flowListAdd wc t.srv, taken := none, mcast := some wc }

section Step
variable [Zero Page]

def step : Label Page → Threads Page → Option (Threads Page)
  | .arrive header payload w, t =>
    if ibGetOpcode header = multicastOpcodeFlow ∧ InTable header ∧ w ∈ t.srv.posted then
      some (arrive header payload w t)
    else none
  | .poll, t => match t.taken, t.mcast, t.cq with
    | none, none, wc::cq => some { t with cq := cq, taken := some wc }
    | _, _, _ => none
  | .listAdd, t => t.taken.map fun wc => listFlow wc t
  | .convey a, t => t.mcast.map fun wc => { t with srv := flowConvey a wc t.srv, mcast := none }
  | .pick immData, t =>
    if t.rdma = .idle ∧ IsCommit immData then
      some { t with rdma := if t.srv.commitList = [] then .replying immData
        else .waiting immData }
    else none
  | .pass, t => match t.rdma with
    | .waiting immData =>
      if commitNeed immData ≤ t.srv.batch then some { t with rdma := .passed immData } else none
    | _ => none
  | .region alloc, t => match t.rdma with
    | .passed immData => some { t with
        srv := commitRegion alloc t.srv, rdma := .replying immData }
    | _ => none
  | .reply, t => match t.rdma with
    | .replying immData => some { t with
        srv := t.srv.emit (.committed immData), rdma := .idle }
    | _ => none

def initThreads (buffer : ℕ) (rkey : U32) : Threads Page :=
  ⟨initServer buffer rkey,[],none,none,.idle,[]⟩

end Step

/-! Reading the log. -/

def isConvey (f : ℕ) : Event Page → Bool
  | .convey g _ _ _ => g == f
  | _ => false

def conveys (f : ℕ) (log : List (Event Page)) : ℕ := log.countP (isConvey f)

/-- The copies counted since the last reset of the counter. -/
def counted : List (Event Page) → ℕ
  | [] => 0
  | .reset::_ => 0
  | .convey _ _ _ _::log => counted log+1
  | _::log => counted log

def CopyFirst : List (Event Page) → Prop
  | [] => True
  | .repost f::log => 0 < conveys f log ∧ CopyFirst log
  | _::log => CopyFirst log

/-- The content and place of every copy are those of the frame it is made for. -/
def Placed (arrived : List (U32 × Page)) (log : List (Event Page)) : Prop :=
  ∀ f block byte content, .convey f block byte content ∈ log →
    ∃ header, arrived[f]? = some (header,content) ∧
      block = blockOf (pageOffset header) ∧ byte = byteOf (pageOffset header)

/-- The frames taken off the completion queue so far. -/
def Threads.polled (t : Threads Page) : ℕ := t.arrived.length-t.cq.length

def Threads.queue (t : Threads Page) : List Wc := t.taken.toList++t.cq

def Threads.listed (t : Threads Page) : ℕ := t.arrived.length-t.queue.length

def Threads.handling (t : Threads Page) (f : ℕ) : Prop :=
  ∃ wc, (t.taken = some wc ∨ t.mcast = some wc) ∧ wc.frame = f

/-- Every polled frame, save the one being handled, has been copied once to its
own page and counted once; the pages hold the copies, and the counter counts those
since its last reset. -/
structure ExactlyOnce [Zero Page] (t : Threads Page) : Prop where
  once : ∀ f < t.polled, ¬t.handling f → conveys f t.srv.log = 1
  atMostOnce : ∀ f, conveys f t.srv.log ≤ 1
  placed : Placed t.arrived t.srv.log
  replayed : Replayed t.srv
  copyFirst : CopyFirst t.srv.log
  tally : counted t.srv.log = t.srv.batch

@[simp] theorem conveys_nil (f : ℕ) : conveys f ([] : List (Event Page)) = 0 := rfl

@[simp] theorem conveys_cons (f : ℕ) (e : Event Page) (log : List (Event Page)) :
    conveys f (e::log) = conveys f log+if isConvey f e then 1 else 0 :=
  List.countP_cons

theorem conveys_single (f g block byte : ℕ) (content : Page) (log : List (Event Page)) :
    conveys f (.convey g block byte content::log) =
      conveys f log+if g = f then 1 else 0 := by
  simp [isConvey]

theorem conveys_reposts (f : ℕ) (gs : List ℕ) (log : List (Event Page)) :
    conveys f ((gs.map Event.repost).reverse++log) = conveys f log := by
  have h : (gs.map (Event.repost : ℕ → Event Page)).reverse.countP (isConvey f) = 0 := by
    rw [List.countP_eq_zero]
    intro e he
    obtain ⟨g,-,rfl⟩ := List.mem_map.mp (List.mem_reverse.mp he)
    simp [isConvey]
  rw [conveys, List.countP_append, h, Nat.zero_add]
  rfl

theorem copy_first_reposts (gs : List ℕ) (log : List (Event Page)) (hl : CopyFirst log)
    (hg : ∀ g ∈ gs, 0 < conveys g log) :
    CopyFirst ((gs.map Event.repost).reverse++log) := by
  induction gs using List.reverseRecOn with
  | nil => simpa using hl
  | append_singleton gs g ih =>
    have hrest := ih (fun v hv => hg v (by simp [hv]))
    simp only [List.map_append, List.map_cons, List.map_nil, List.reverse_append,
      List.reverse_cons, List.reverse_nil, List.nil_append, List.cons_append]
    refine ⟨?_,hrest⟩
    rw [conveys_reposts]
    exact hg g (by simp)

theorem placed_arrive {arrived : List (U32 × Page)} {log : List (Event Page)}
    (h : Placed arrived log) (more : List (U32 × Page)) : Placed (arrived++more) log := by
  intro f block byte content he
  obtain ⟨header,ha,hp⟩ := h f block byte content he
  exact ⟨header,List.getElem?_append_left (List.getElem?_eq_some_iff.mp ha).1 ▸ ha,hp⟩

/-- The facts that hold of both threads while no commit has split a frame. -/
structure Ledger [Zero Page] (t : Threads Page) : Prop where
  works : (t.srv.posted++t.queue.map Wc.wrId++t.srv.commitList).Nodup
  fits : t.queue.length ≤ t.arrived.length
  fifo : t.queue.map Wc.frame = List.range' t.listed t.queue.length
  alone : t.taken.isSome → t.mcast = none
  distinct : (t.srv.commitList.map (fun w => (t.srv.rw w).wc.frame)).Nodup
  down : ∀ w, w ∉ t.srv.commitList → (t.srv.rw w).convey = false
  queued : ∀ wc ∈ t.queue, t.arrived[wc.frame]? = some (wc.immData,(t.srv.rw wc.wrId).buffer)
  listed : ∀ w ∈ t.srv.commitList, (t.srv.rw w).wc.wrId = w ∧
    (t.srv.rw w).wc.frame < t.listed ∧
    t.arrived[(t.srv.rw w).wc.frame]? = some ((t.srv.rw w).wc.immData,(t.srv.rw w).buffer)
  split : ∀ wc, t.mcast = some wc → wc.wrId ∈ t.srv.commitList ∧
    (t.srv.rw wc.wrId).wc = wc ∧ (t.srv.rw wc.wrId).convey = false ∧
    wc.frame+1 = t.listed ∧ conveys wc.frame t.srv.log = 0
  whole : ∀ w ∈ t.srv.commitList, (∀ wc, t.mcast = some wc → wc.wrId ≠ w) →
    (t.srv.rw w).convey = true
  once : ∀ f < t.listed, (∀ wc, t.mcast = some wc → wc.frame ≠ f) → conveys f t.srv.log = 1
  fresh : ∀ f, t.listed ≤ f → conveys f t.srv.log = 0
  placed : Placed t.arrived t.srv.log
  replayed : Replayed t.srv
  copyFirst : CopyFirst t.srv.log
  tally : counted t.srv.log = t.srv.batch
  batch : t.srv.batch+(if t.mcast.isSome then 1 else 0) = t.srv.commitList.length

section Init
variable [Zero Page]

theorem Ledger.taken_frame {t : Threads Page} (h : Ledger t) {wc : Wc}
    (hwc : t.taken = some wc) : wc.frame = t.listed ∧ t.polled = t.listed+1 := by
  have hq : t.queue = wc::t.cq := by simp [Threads.queue, hwc]
  have hfits := h.fits
  have hfifo := h.fifo
  rw [hq, List.length_cons] at hfits
  rw [hq, List.map_cons, List.length_cons, List.range'_succ, List.cons.injEq] at hfifo
  refine ⟨hfifo.1,?_⟩
  rw [Threads.polled, Threads.listed, hq, List.length_cons]
  omega

omit [Zero Page] in
theorem Threads.polled_eq {t : Threads Page} (h : t.taken = none) : t.polled = t.listed := by
  simp [Threads.polled, Threads.listed, Threads.queue, h]

theorem Ledger.exactly_once {t : Threads Page} (h : Ledger t) : ExactlyOnce t where
  once := by
    intro f hf hn
    refine h.once f ?_ fun wc hwc he => hn ⟨wc,.inr hwc,he⟩
    cases hwc : t.taken with
    | none => exact hf.trans_eq (Threads.polled_eq hwc)
    | some wc =>
      obtain ⟨hframe,hpolled⟩ := h.taken_frame hwc
      have hne : wc.frame ≠ f := fun he => hn ⟨wc,.inl hwc,he⟩
      omega
  atMostOnce := by
    intro f
    by_cases hp : t.listed ≤ f
    · rw [h.fresh f hp]; omega
    · by_cases hs : ∃ wc, t.mcast = some wc ∧ wc.frame = f
      · obtain ⟨wc,hwc,rfl⟩ := hs
        rw [(h.split wc hwc).2.2.2.2]; omega
      · exact le_of_eq (h.once f (by omega) (fun wc hwc hf => hs ⟨wc,hwc,hf⟩))
  placed := h.placed
  replayed := h.replayed
  copyFirst := h.copyFirst
  tally := h.tally

theorem init_ledger (buffer : ℕ) (rkey : U32) :
    Ledger (initThreads buffer rkey : Threads Page) where
  works := by simpa [initThreads, initServer, Threads.queue] using List.nodup_range
  fits := by simp [initThreads, Threads.queue]
  fifo := by simp [initThreads, Threads.queue]
  alone := by simp [initThreads]
  distinct := by simp [initThreads, initServer]
  down := by simp [initThreads, initServer]
  queued := by simp [initThreads, Threads.queue]
  listed := by simp [initThreads, initServer]
  split := by simp [initThreads]
  whole := by simp [initThreads, initServer]
  once := by simp [initThreads, Threads.listed]
  fresh := by simp [initThreads, initServer]
  placed := by simp [initThreads, initServer, Placed]
  replayed := init_replayed buffer rkey
  copyFirst := trivial
  tally := rfl
  batch := by simp [initThreads, initServer]

/-- The ledger mentions neither where the RDMA thread stands nor whether the first frame
of the queue has been polled. -/
theorem Ledger.requeue {t u : Threads Page} (h : Ledger t) (hsrv : u.srv = t.srv)
    (hqueue : u.queue = t.queue) (harr : u.arrived = t.arrived) (hmcast : u.mcast = t.mcast)
    (halone : u.taken.isSome → u.mcast = none) : Ledger u := by
  have hlisted : u.listed = t.listed := by rw [Threads.listed, Threads.listed, hqueue, harr]
  refine ⟨?_,?_,?_,halone,?_,?_,?_,?_,?_,?_,?_,?_,?_,?_,?_,?_,?_⟩
  · rw [hsrv, hqueue]; exact h.works
  · rw [hqueue, harr]; exact h.fits
  · rw [hqueue, hlisted]; exact h.fifo
  · rw [hsrv]; exact h.distinct
  · rw [hsrv]; exact h.down
  · rw [hsrv, hqueue, harr]; exact h.queued
  · rw [hsrv, hlisted, harr]; exact h.listed
  · rw [hsrv, hlisted, hmcast]; exact h.split
  · rw [hsrv, hmcast]; exact h.whole
  · rw [hsrv, hlisted, hmcast]; exact h.once
  · rw [hsrv, hlisted]; exact h.fresh
  · rw [hsrv, harr]; exact h.placed
  · rw [hsrv]; exact h.replayed
  · rw [hsrv]; exact h.copyFirst
  · rw [hsrv]; exact h.tally
  · rw [hsrv, hmcast]; exact h.batch

theorem rdma_ledger (t : Threads Page) (h : Ledger t) (pc : RdmaPc) :
    Ledger { t with rdma := pc } :=
  h.requeue rfl rfl rfl rfl h.alone

theorem poll_ledger (wc : Wc) (cq : List Wc) (t : Threads Page) (h : Ledger t)
    (ht : t.taken = none) (hm : t.mcast = none) (hq : t.cq = wc::cq) :
    Ledger { t with cq := cq, taken := some wc } :=
  h.requeue rfl (by simp [Threads.queue, ht, hq]) rfl rfl fun _ => hm

end Init

theorem arrive_queue (header : U32) (payload : Page) (w : ℕ) (t : Threads Page) :
    (arrive header payload w t).queue = t.queue++[⟨header,w,t.arrived.length⟩] := by
  simp [Threads.queue, arrive]

theorem arrive_listed (header : U32) (payload : Page) (w : ℕ) (t : Threads Page) :
    (arrive header payload w t).listed = t.listed := by
  rw [Threads.listed, arrive_queue, Threads.listed]
  simp [arrive]

section Arrivals
variable [Zero Page]

theorem arrive_ledger (header : U32) (payload : Page) (w : ℕ) (t : Threads Page)
    (h : Ledger t) (hw : w ∈ t.srv.posted) :
    Ledger (arrive header payload w t) := by
  have hlisted := arrive_listed header payload w t
  have hqueue := arrive_queue header payload w t
  obtain ⟨hpc,hl,hd⟩ := List.nodup_append.mp h.works
  obtain ⟨hp,hc,hd'⟩ := List.nodup_append.mp hpc
  have hwl : w ∉ t.srv.commitList := fun hm => hd w (by simp [hw]) w hm rfl
  have hwc : ∀ wc ∈ t.queue, wc.wrId ≠ w :=
    fun wc hm he => hd' w hw wc.wrId (List.mem_map_of_mem hm) he.symm
  have hrw : ∀ v, v ≠ w → (deliver w payload t.srv).rw v = t.srv.rw v := by
    intro v hv; simp [deliver, hv]
  have hconvey : ∀ v, ((deliver w payload t.srv).rw v).convey = (t.srv.rw v).convey := by
    intro v
    by_cases hv : v = w
    · subst hv; simp [deliver]
    · rw [hrw v hv]
  have hold : ∀ (f : ℕ) (a : U32 × Page), t.arrived[f]? = some a →
      (t.arrived++[(header,payload)])[f]? = some a := fun f a ha =>
    List.getElem?_append_left (List.getElem?_eq_some_iff.mp ha).1 ▸ ha
  refine ⟨?_,?_,?_,h.alone,?_,?_,?_,?_,?_,?_,?_,?_,?_,h.replayed,h.copyFirst,h.tally,h.batch⟩
  · rw [hqueue]
    have hperm : (t.srv.posted.erase w++(t.queue.map Wc.wrId++[w])++t.srv.commitList).Perm
        (t.srv.posted++t.queue.map Wc.wrId++t.srv.commitList) := by
      refine List.Perm.append_right _ ?_
      have h1 := (List.perm_cons_erase hw).symm
      refine List.Perm.trans ?_ (h1.append_right (t.queue.map Wc.wrId))
      rw [← List.append_assoc]
      exact List.perm_append_singleton w _
    simpa [arrive, deliver] using hperm.nodup_iff.mpr h.works
  · have := h.fits
    rw [hqueue]
    simpa [arrive] using this
  · rw [hlisted, hqueue, List.map_append, h.fifo]
    have := h.fits
    simp only [List.map_cons, List.map_nil, List.length_append, List.length_cons,
      List.length_nil, List.range'_1_concat]
    congr 2
    unfold Threads.listed
    omega
  · have heq : (deliver w payload t.srv).commitList.map
        (fun v => ((deliver w payload t.srv).rw v).wc.frame) =
        t.srv.commitList.map (fun v => (t.srv.rw v).wc.frame) := by
      apply List.map_congr_left
      intro v hv
      rw [hrw v (fun he => hwl (he ▸ hv))]
    exact heq ▸ h.distinct
  · intro v hv
    exact (hconvey v).trans (h.down v hv)
  · intro wc hm
    rw [hqueue] at hm
    rcases List.mem_append.mp hm with hm | hm
    · change (t.arrived++[(header,payload)])[wc.frame]? =
        some (wc.immData,((deliver w payload t.srv).rw wc.wrId).buffer)
      rw [hrw wc.wrId (hwc wc hm)]
      exact hold _ _ (h.queued wc hm)
    · obtain rfl := List.mem_singleton.mp hm
      simp [arrive, deliver]
  · intro v hv
    rw [hlisted]
    change ((deliver w payload t.srv).rw v).wc.wrId = v ∧
      ((deliver w payload t.srv).rw v).wc.frame < t.listed ∧
      (t.arrived++[(header,payload)])[((deliver w payload t.srv).rw v).wc.frame]? =
        some (((deliver w payload t.srv).rw v).wc.immData,((deliver w payload t.srv).rw v).buffer)
    rw [hrw v (fun he => hwl (he ▸ hv))]
    obtain ⟨h1,h2,h3⟩ := h.listed v hv
    exact ⟨h1,h2,hold _ _ h3⟩
  · intro wc hm
    have hs := h.split wc hm
    rw [hlisted]
    change wc.wrId ∈ t.srv.commitList ∧ ((deliver w payload t.srv).rw wc.wrId).wc = wc ∧
      ((deliver w payload t.srv).rw wc.wrId).convey = false ∧ wc.frame+1 = t.listed ∧
      conveys wc.frame t.srv.log = 0
    rw [hrw wc.wrId (fun he => hwl (he ▸ hs.1))]
    exact hs
  · intro v hv hs
    exact (hconvey v).trans (h.whole v hv hs)
  · rw [hlisted]; exact h.once
  · rw [hlisted]; exact h.fresh
  · exact placed_arrive h.placed _

theorem list_flow_listed {wc : Wc} {t : Threads Page} (h : Ledger t)
    (ht : t.taken = some wc) : (listFlow wc t).listed = t.listed+1 := by
  have hq : t.queue = wc::t.cq := by simp [Threads.queue, ht]
  have hfits := h.fits
  simp only [Threads.listed, hq, List.length_cons] at hfits ⊢
  simp only [Threads.queue, listFlow, Option.toList_none, List.nil_append]
  omega

theorem list_flow_ledger (wc : Wc) (t : Threads Page) (h : Ledger t)
    (ht : t.taken = some wc) : Ledger (listFlow wc t) := by
  have hm : t.mcast = none := h.alone (by simp [ht])
  have hq : t.queue = wc::t.cq := by simp [Threads.queue, ht]
  have hfits : t.cq.length+1 ≤ t.arrived.length := by simpa [hq] using h.fits
  have hlisted := list_flow_listed h ht
  unfold listFlow at hlisted ⊢
  have hfifo := h.fifo
  rw [hq, List.map_cons, List.length_cons, List.range'_succ, List.cons.injEq] at hfifo
  obtain ⟨hframe,hrest⟩ := hfifo
  have hworks := h.works
  rw [hq, List.map_cons] at hworks
  have hperm : (t.srv.posted++wc.wrId::t.cq.map Wc.wrId++t.srv.commitList).Perm
      (t.srv.posted++t.cq.map Wc.wrId++wc.wrId::t.srv.commitList) := by
    rw [List.append_assoc, List.append_assoc, List.cons_append]
    exact List.Perm.append_left _ (List.perm_middle.symm)
  have hw' := hperm.nodup_iff.mp hworks
  obtain ⟨-,hwl,hd⟩ := List.nodup_append.mp hw'
  have hnl : wc.wrId ∉ t.srv.commitList := (List.nodup_cons.mp hwl).1
  have hcq : ∀ v ∈ t.cq, v.wrId ≠ wc.wrId := fun v hv he =>
    hd v.wrId (by simp; exact Or.inr ⟨v,hv,rfl⟩) wc.wrId (by simp) he
  have hrw : ∀ v, v ≠ wc.wrId → (flowListAdd wc t.srv).rw v = t.srv.rw v := by
    intro v hv; simp [flowListAdd, hv]
  have hself : (flowListAdd wc t.srv).rw wc.wrId = { t.srv.rw wc.wrId with wc := wc } := by
    simp [flowListAdd]
  refine ⟨hw',?_,?_,?_,?_,?_,?_,?_,?_,?_,?_,?_,h.placed,h.replayed,h.copyFirst,h.tally,?_⟩
  · exact (Nat.le_succ _).trans hfits
  · rw [hlisted]; exact hrest
  · simp
  · have heq : t.srv.commitList.map (fun v => ((flowListAdd wc t.srv).rw v).wc.frame) =
        t.srv.commitList.map (fun v => (t.srv.rw v).wc.frame) := by
      apply List.map_congr_left
      intro v hv
      rw [hrw v (fun he => hnl (he ▸ hv))]
    change ((wc.wrId::t.srv.commitList).map
      (fun v => ((flowListAdd wc t.srv).rw v).wc.frame)).Nodup
    rw [List.map_cons, heq, hself, List.nodup_cons]
    refine ⟨fun hmem => ?_,h.distinct⟩
    obtain ⟨v,hv,hf⟩ := List.mem_map.mp hmem
    have := (h.listed v hv).2.1
    have hf' : (t.srv.rw v).wc.frame = wc.frame := hf
    omega
  · intro v hv
    have hv' : v ≠ wc.wrId ∧ v ∉ t.srv.commitList := by simpa [flowListAdd] using hv
    rw [hrw v hv'.1]
    exact h.down v hv'.2
  · intro v hv
    change v ∈ t.cq at hv
    rw [hrw v.wrId (hcq v hv)]
    exact h.queued v (by simp [hq, hv])
  · intro v hv
    rw [hlisted]
    by_cases he : v = wc.wrId
    · subst he
      rw [hself]
      refine ⟨rfl,?_,h.queued wc (by simp [hq])⟩
      change wc.frame < _
      omega
    · rw [hrw v he]
      obtain ⟨h1,h2,h3⟩ := h.listed v (by simpa [flowListAdd, he] using hv)
      exact ⟨h1,by omega,h3⟩
  · intro v hv
    obtain rfl := Option.some.inj hv
    rw [hself]
    exact ⟨by simp [flowListAdd],rfl,h.down _ hnl,by omega,h.fresh _ (by omega)⟩
  · intro v hv hs
    have he : v ≠ wc.wrId := fun he => hs wc rfl he.symm
    rw [hrw v he]
    exact h.whole v (by simpa [flowListAdd, he] using hv) (by simp [hm])
  · intro f hf hs
    rw [hlisted] at hf
    have hne : wc.frame ≠ f := hs wc rfl
    exact h.once f (by omega) (by simp [hm])
  · intro f hf
    rw [hlisted] at hf
    exact h.fresh f (by omega)
  · have := h.batch
    simp only [hm] at this
    simp only [flowListAdd, List.length_cons, Option.isSome_some, if_true]
    simpa using this

end Arrivals

section Regions
variable [Zero Page]

theorem convey_ledger (a : AllocResult) (wc : Wc) (t : Threads Page) (h : Ledger t)
    (hm : t.mcast = some wc) (ha : a.Succeeds) :
    Ledger { t with srv := flowConvey a wc t.srv, mcast := none } := by
  obtain ⟨hwl,hwc,hflag,-,hzero⟩ := h.split wc hm
  have hc := flow_convey_conveyed a wc t.srv hflag ha
  generalize flowConvey a wc t.srv = s at hc ⊢
  have hself : s.rw wc.wrId = { t.srv.rw wc.wrId with convey := true } := by
    simp [hc.rw_eq]
  have hrw : ∀ v, v ≠ wc.wrId → s.rw v = t.srv.rw v := by
    intro v hv; simp [hc.rw_eq, hv]
  have hkeep : ∀ v, (s.rw v).wc = (t.srv.rw v).wc ∧ (s.rw v).buffer = (t.srv.rw v).buffer := by
    intro v
    by_cases hv : v = wc.wrId
    · subst hv; simp [hself]
    · simp [hrw v hv]
  have hlisted : Threads.listed { t with srv := s, mcast := none } = t.listed := rfl
  obtain ⟨-,hlt,harr⟩ := h.listed wc.wrId hwl
  rw [hwc] at hlt harr
  refine ⟨?_,h.fits,h.fifo,fun _ => rfl,?_,?_,?_,?_,?_,?_,?_,?_,?_,hc.replayed h.replayed,?_,?_,?_⟩
  · rw [hc.posted, hc.commitList]; exact h.works
  · have heq : s.commitList.map (fun v => (s.rw v).wc.frame) =
        t.srv.commitList.map (fun v => (t.srv.rw v).wc.frame) := by
      rw [hc.commitList]
      exact List.map_congr_left (fun v _ => by rw [(hkeep v).1])
    exact heq ▸ h.distinct
  · intro v hv
    change v ∉ s.commitList at hv
    rw [hc.commitList] at hv
    change (s.rw v).convey = false
    rw [hrw v (fun he => hv (he ▸ hwl))]
    exact h.down v hv
  · intro v hv
    rw [(hkeep v.wrId).2]
    exact h.queued v hv
  · intro v hv
    change v ∈ s.commitList at hv
    rw [hc.commitList] at hv
    rw [(hkeep v).1, (hkeep v).2, hlisted]
    exact h.listed v hv
  · intro v hv
    exact absurd hv (by simp)
  · intro v hv _
    change v ∈ s.commitList at hv
    rw [hc.commitList] at hv
    change (s.rw v).convey = true
    by_cases he : v = wc.wrId
    · rw [he, hself]
    · rw [hrw v he]
      refine h.whole v hv (fun u hu hne => he ?_)
      rw [hm] at hu
      exact hne.symm.trans (congrArg Wc.wrId (Option.some.inj hu).symm)
  · intro f hf _
    rw [hc.log, conveys_single]
    by_cases he : wc.frame = f
    · subst he; simp [hzero]
    · rw [if_neg he, Nat.add_zero]
      refine h.once f hf (fun u hu => ?_)
      rw [hm] at hu
      exact (Option.some.inj hu) ▸ he
  · intro f hf
    rw [hlisted] at hf
    rw [hc.log, conveys_single, if_neg (by omega), Nat.add_zero]
    exact h.fresh f hf
  · intro f block byte content he
    rw [hc.log] at he
    rcases List.mem_cons.mp he with he | he
    · injection he with h1 h2 h3 h4
      subst h1 h2 h3 h4
      exact ⟨wc.immData,harr,rfl,rfl⟩
    · exact h.placed f block byte content he
  · rw [hc.log]; exact h.copyFirst
  · rw [hc.log, hc.batch]
    exact congrArg (·+1) h.tally
  · have := h.batch
    rw [hm] at this
    rw [hc.batch, hc.commitList]
    simpa using this

theorem region_ledger (alloc : ℕ → AllocResult) (t : Threads Page) (h : Ledger t)
    (hm : t.mcast = none) (pc : RdmaPc) :
    Ledger { t with srv := commitRegion alloc t.srv, rdma := pc } := by
  have hup : ∀ w ∈ t.srv.commitList, (t.srv.rw w).convey = true :=
    fun w hw => h.whole w hw (by simp [hm])
  have hmap : t.srv.commitList.map (fun w => (t.srv.rw w).wc.wrId) = t.srv.commitList :=
    (List.map_congr_left (fun w hw => (h.listed w hw).1)).trans (List.map_id _)
  have hlog : t.srv.commitList.map (fun w => (.repost (t.srv.rw w).wc.frame : Event Page)) =
      (t.srv.commitList.map (fun w => (t.srv.rw w).wc.frame)).map Event.repost := by
    simp [List.map_map, Function.comp_def]
  have hcon : ∀ f, conveys f (commitRegion alloc t.srv).log = conveys f t.srv.log := by
    intro f
    rw [commitRegion, walk_conveyed alloc _ _ hup, drain_eq _ _ rfl, hlog]
    refine (conveys_cons f .reset _).trans ?_
    rw [conveys_reposts]
    simp [isConvey]
  rw [commitRegion, walk_conveyed alloc _ _ hup, drain_eq _ _ rfl, hmap, hlog] at hcon ⊢
  refine ⟨?_,h.fits,h.fifo,h.alone,?_,?_,?_,?_,?_,?_,?_,?_,?_,?_,?_,rfl,?_⟩
  · have hperm : (t.srv.posted++t.srv.commitList++t.queue.map Wc.wrId).Perm
        (t.srv.posted++t.queue.map Wc.wrId++t.srv.commitList) := by
      rw [List.append_assoc, List.append_assoc]
      exact List.Perm.append_left _ List.perm_append_comm
    simpa [resetBatch, Threads.queue] using hperm.nodup_iff.mpr h.works
  · simp [resetBatch]
  · intro v _
    by_cases hv : v ∈ t.srv.commitList
    · simp [resetBatch, cleared, hv]
    · simpa [resetBatch, cleared, hv] using h.down v hv
  · intro v hv
    have hb : (cleared t.srv.commitList t.srv.rw v.wrId).buffer = (t.srv.rw v.wrId).buffer := by
      unfold cleared; split <;> rfl
    exact hb ▸ h.queued v hv
  · simp [resetBatch]
  · intro v hv
    exact absurd hv (by simp [hm])
  · simp [resetBatch]
  · intro f hf hs
    rw [hcon f]
    exact h.once f hf hs
  · intro f hf
    rw [hcon f]
    exact h.fresh f hf
  · intro f block byte content he
    refine h.placed f block byte content ?_
    simpa [resetBatch] using he
  · refine h.replayed.quiet rfl (.reset::_) rfl fun e he => ?_
    rcases List.mem_cons.mp he with rfl | he
    · rfl
    · obtain ⟨f,-,rfl⟩ := List.mem_map.mp (List.mem_reverse.mp he)
      rfl
  · refine copy_first_reposts _ _ h.copyFirst (fun g hg => ?_)
    obtain ⟨w,hw,rfl⟩ := List.mem_map.mp hg
    rw [h.once _ (h.listed w hw).2.1 (by simp [hm])]
    decide
  · simp [resetBatch, hm]

/-- A commit reaches its locked region while no frame stands between the list
insertion and the locked half of its handler; FLOW finds memory for its block. -/
def Unsplit : Label Page → Threads Page → Prop
  | .convey a, _ => a.Succeeds
  | .region _, t => t.mcast = none
  | _, _ => True

theorem poll_cases {t u : Threads Page} (hs : step .poll t = some u) : ∃ wc cq,
    t.taken = none ∧ t.mcast = none ∧ t.cq = wc::cq ∧
      u = { t with cq := cq, taken := some wc } := by
  simp only [step] at hs
  split at hs
  · next wc cq ht hm hq => exact ⟨wc,cq,ht,hm,hq,(Option.some.inj hs).symm⟩
  · cases hs

theorem step_ledger (l : Label Page) (t u : Threads Page) (h : Ledger t)
    (hg : Unsplit l t) (hs : step l t = some u) : Ledger u := by
  cases l with
  | arrive header payload w =>
    simp only [step, Option.ite_none_right_eq_some] at hs
    obtain ⟨⟨-,-,hw⟩,hu⟩ := hs
    exact Option.some.inj hu ▸ arrive_ledger header payload w t h hw
  | poll =>
    obtain ⟨wc,cq,ht,hm,hq,rfl⟩ := poll_cases hs
    exact poll_ledger wc cq t h ht hm hq
  | listAdd =>
    obtain ⟨wc,ht,rfl⟩ := Option.map_eq_some_iff.mp hs
    exact list_flow_ledger wc t h ht
  | convey a =>
    simp only [step, Option.map_eq_some_iff] at hs
    obtain ⟨wc,hm,rfl⟩ := hs
    exact convey_ledger a wc t h hm hg
  | pick immData =>
    simp only [step, Option.ite_none_right_eq_some] at hs
    exact Option.some.inj hs.2 ▸ rdma_ledger t h _
  | pass =>
    simp only [step] at hs
    split at hs
    · simp only [Option.ite_none_right_eq_some] at hs
      exact Option.some.inj hs.2 ▸ rdma_ledger t h _
    · exact absurd hs (by simp)
  | region alloc =>
    simp only [step] at hs
    split at hs
    · exact Option.some.inj hs ▸ region_ledger alloc t h hg _
    · exact absurd hs (by simp)
  | reply =>
    simp only [step] at hs
    split at hs
    · obtain rfl := Option.some.inj hs
      refine ⟨h.works,h.fits,h.fifo,h.alone,h.distinct,h.down,h.queued,h.listed,?_,h.whole,?_,?_,
        ?_,h.replayed.quiet rfl [_] rfl (by simp [Event.written]),h.copyFirst,h.tally,h.batch⟩
      · intro wc hwc
        have := h.split wc hwc
        simpa [Server.emit, isConvey, Threads.listed, Threads.queue] using this
      · intro f hf hn
        have := h.once f hf hn
        simpa [Server.emit, isConvey] using this
      · intro f hf
        have := h.fresh f hf
        simpa [Server.emit, isConvey] using this
      · intro f block byte content he
        exact h.placed f block byte content (by simpa [Server.emit] using he)
    · exact absurd hs (by simp)

theorem run_ledger {ls : List (Label Page)} {t u : Threads Page} (h : Ledger t)
    (hg : Meets step Unsplit ls t) (hr : run step ls t = some u) : Ledger u :=
  run_invariant step_ledger h hg hr

/-- Exactly-once conveyance over every run in which no commit splits a frame. -/
theorem conveyed_exactly_once (buffer : ℕ) (rkey : U32) (ls : List (Label Page))
    (t : Threads Page) (hg : Meets step Unsplit ls (initThreads buffer rkey))
    (h : run step ls (initThreads buffer rkey) = some t) : ExactlyOnce t :=
  (run_ledger (init_ledger buffer rkey) hg h).exactly_once

/-- The converse for one frame: a commit that runs through its region while the
frame is split drains it, and the second half copies and counts it again. -/
theorem split_conveyed_twice (t : Threads Page) (h : Ledger t) (wc : Wc)
    (hm : t.mcast = some wc) (immData : U32) (hp : t.rdma = .passed immData)
    (alloc : ℕ → AllocResult) (halloc : ∀ w, (alloc w).Succeeds) (a : AllocResult)
    (ha : a.Succeeds) : ∃ u, run step [.region alloc,.convey a] t = some u ∧
      conveys wc.frame u.srv.log = 2 := by
  obtain ⟨hwl,hwc,hflag,-,hzero⟩ := h.split wc hm
  have hmap : ∀ v ∈ t.srv.commitList, v ≠ wc.wrId → (t.srv.rw v).convey = true := by
    intro v hv hne
    refine h.whole v hv (fun u hu he => hne ?_)
    rw [hm] at hu
    rw [Option.some.inj hu, he]
  have hc := walk_one alloc t.srv.commitList t.srv wc.wrId
    (List.nodup_append.mp h.works).2.1 hwl (by rw [hwc]) hflag hmap (halloc _)
  rw [hwc] at hc
  generalize hs : commitWalk alloc t.srv.commitList t.srv = s at hc
  have hone : conveys wc.frame s.log = 1 := by
    rw [hc.log, conveys_single, hzero, if_pos rfl]
  -- the region drains the frame, and with it the flag its second half will test
  have hlog : conveys wc.frame (commitRegion alloc t.srv).log = 1 := by
    have hmaps : s.commitList.map (fun w => (.repost (s.rw w).wc.frame : Event Page)) =
        (s.commitList.map (fun w => (s.rw w).wc.frame)).map Event.repost := by
      simp [List.map_map, Function.comp_def]
    rw [commitRegion, hs, drain_eq _ _ rfl, hmaps]
    refine (conveys_cons wc.frame .reset _).trans ?_
    rw [conveys_reposts, hone]
    simp [isConvey]
  have hdown : ((commitRegion alloc t.srv).rw wc.wrId).convey = false := by
    rw [commitRegion, hs, drain_eq _ _ rfl]
    simp [resetBatch, cleared, hc.commitList, hwl]
  have hagain := flow_convey_conveyed a wc (commitRegion alloc t.srv) hdown ha
  refine ⟨{ t with
    srv := flowConvey a wc (commitRegion alloc t.srv), mcast := none,
    rdma := .replying immData },by simp [run, step, hp, hm],?_⟩
  rw [hagain.log, conveys_single, hlog, if_pos rfl]

def allocated : AllocResult := ⟨some 0,some 1#32⟩

def flowLabels (w : ℕ) : List (Label ℕ) :=
  [.arrive (flowHeader 0#32) w w,.poll,.listAdd,.convey allocated]

def floodLabels (n : ℕ) : List (Label ℕ) := (List.range n).flatMap flowLabels

structure Flooded (n : ℕ) (t : Threads ℕ) : Prop where
  ledger : Ledger t
  posted : t.srv.posted = List.range' n (mcmMaxRecvWr-n)
  cq : t.cq = []
  taken : t.taken = none
  mcast : t.mcast = none
  rdma : t.rdma = .idle
  batch : t.srv.batch = n
  arrived : t.arrived.length = n

theorem flow_posted (n : ℕ) (h : n < mcmMaxRecvWr) :
    List.range' n (mcmMaxRecvWr-n) = n::List.range' (n+1) (mcmMaxRecvWr-(n+1)) := by
  rw [show mcmMaxRecvWr-n = mcmMaxRecvWr-(n+1)+1 by omega, List.range'_succ]

theorem arrive_flooded (n : ℕ) (t : Threads ℕ) (h : Flooded n t) (hn : n < mcmMaxRecvWr) :
    ∃ u, run step [.arrive (flowHeader 0#32) n n,.poll,.listAdd] t = some u ∧ Ledger u ∧
      u.srv.posted = List.range' (n+1) (mcmMaxRecvWr-(n+1)) ∧ u.cq = [] ∧ u.taken = none ∧
      u.mcast = some ⟨flowHeader 0#32,n,t.arrived.length⟩ ∧ u.rdma = .idle ∧
      u.srv.batch = n ∧ u.arrived.length = n+1 := by
  have hp := h.posted
  rw [flow_posted n hn] at hp
  have hen : ibGetOpcode (flowHeader 0#32) = multicastOpcodeFlow ∧
      InTable (flowHeader 0#32) ∧ n ∈ t.srv.posted := ⟨by decide,by decide,by simp [hp]⟩
  have harrived := arrive_ledger (flowHeader 0#32) n n t h.ledger hen.2.2
  have hpolled := poll_ledger ⟨flowHeader 0#32,n,t.arrived.length⟩ [] _ harrived h.taken h.mcast
    (by simp [arrive, h.cq])
  refine ⟨listFlow ⟨flowHeader 0#32,n,t.arrived.length⟩ { arrive (flowHeader 0#32) n n t with
    cq := [], taken := some ⟨flowHeader 0#32,n,t.arrived.length⟩ },?_,
    list_flow_ledger _ _ hpolled rfl,?_⟩
  · simp [run, step, hen.1, hen.2.1, hen.2.2, arrive, h.taken, h.mcast, h.cq]
  · simp [listFlow, arrive, flowListAdd, deliver, hp, h.rdma, h.batch, h.arrived]

theorem flow_flooded (n : ℕ) (t : Threads ℕ) (h : Flooded n t) (hn : n < mcmMaxRecvWr) :
    ∃ u, run step (flowLabels n) t = some u ∧ Flooded (n+1) u := by
  obtain ⟨u,hu,hl,hp,hq,ht,hm,hr,hb,harr⟩ := arrive_flooded n t h hn
  have ha : allocated.Succeeds := ⟨rfl,rfl⟩
  obtain ⟨hwl,hwc,hflag,-⟩ := hl.split _ hm
  have hc := flow_convey_conveyed allocated ⟨flowHeader 0#32,n,t.arrived.length⟩ u.srv hflag ha
  have hlast : run step [.convey allocated] u = some { u with
      srv := flowConvey allocated ⟨flowHeader 0#32,n,t.arrived.length⟩ u.srv
      mcast := none } := by
    simp [run, step, hm]
  exact ⟨_,run_trans hu hlast,convey_ledger allocated _ u hl hm ha,hc.posted.trans hp,hq,ht,rfl,
    hr,hc.batch.trans (congrArg (·+1) hb),harr⟩

theorem flood_run (n : ℕ) (hn : n ≤ mcmMaxRecvWr) :
    ∃ t, run step (floodLabels n) (initThreads 0 1#32) = some t ∧ Flooded n t := by
  induction n with
  | zero =>
    exact ⟨_,rfl,init_ledger 0 1#32,by simp [initThreads, initServer, List.range_eq_range'],
      rfl,rfl,rfl,rfl,rfl,rfl⟩
  | succ n ih =>
    obtain ⟨t,ht,hf⟩ := ih (by omega)
    obtain ⟨u,hu,hg⟩ := flow_flooded n t hf (by omega)
    refine ⟨u,?_,hg⟩
    rw [floodLabels, List.range_succ, List.flatMap_append]
    exact run_trans ht (by simpa using hu)

/-- A driver batch is 1024 frames and the server commits after 512: frame 512 is
on the list, not yet handled, when the COMMIT drains it. -/
theorem commit_splits_frame : ¬ ∀ (ls : List (Label ℕ)) (t : Threads ℕ),
    run step ls (initThreads 0 1#32) = some t → ExactlyOnce t := by
  intro hall
  obtain ⟨t,ht,hf⟩ := flood_run 512 (by decide)
  obtain ⟨u,hu,hl,-,-,-,hm,hr,hb,-⟩ := arrive_flooded 512 t hf (by decide)
  obtain ⟨hwl,-⟩ := hl.split _ hm
  have hne : u.srv.commitList ≠ [] := List.ne_nil_of_mem hwl
  have hpass : run step [.pick commitWord,.pass] u =
      some { u with rdma := .passed commitWord } := by
    have hc : IsCommit commitWord := by decide
    have hneed : commitNeed commitWord ≤ u.srv.batch := by rw [hb]; decide
    simp [run, step, hr, hc, hne, hneed]
  obtain ⟨v,hv,htwo⟩ := split_conveyed_twice { u with rdma := .passed commitWord }
    (rdma_ledger u hl _) _ hm commitWord rfl (fun _ => allocated) (fun _ => ⟨rfl,rfl⟩)
    allocated ⟨rfl,rfl⟩
  have honce := (hall _ v (run_trans ht (run_trans hu (run_trans hpass hv)))).atMostOnce
  exact absurd (honce _) (by rw [htwo]; decide)

def sampleLabels : List (Label ℕ) :=
  flowLabels 0++[.pick (qcommitWord 1#32),.pass,.region (fun _ => allocated),.reply]

theorem conveyed_exactly_once_sample : ∃ t : Threads ℕ,
    run step sampleLabels (initThreads 0 1#32) = some t ∧ t.rdma = .idle ∧ ExactlyOnce t := by
  have hrun : (run step sampleLabels (initThreads 0 1#32)).map (fun t => t.rdma) =
      some .idle := by decide +kernel
  obtain ⟨t,ht,hidle⟩ := Option.map_eq_some_iff.mp hrun
  have hsplit : (run step (flowLabels 0++[.pick (qcommitWord 1#32),.pass])
      (initThreads 0 1#32)).map (fun t => t.mcast.isNone) = some true := by decide +kernel
  have hg : Meets step Unsplit sampleLabels (initThreads 0 1#32) := by
    change Meets step Unsplit ((flowLabels 0++[.pick (qcommitWord 1#32),.pass])++
      [.region (fun _ => allocated),.reply]) _
    refine meets_append (meets_of_forall ?_ _) (fun u hu => ?_)
    · simp [flowLabels, Unsplit, allocated, AllocResult.Succeeds]
    · rw [hu] at hsplit
      refine ⟨by simpa [Unsplit] using hsplit,fun v _ => ⟨trivial,fun _ _ => trivial⟩⟩
  exact ⟨t,ht,hidle,conveyed_exactly_once 0 1#32 sampleLabels t hg ht⟩

end Regions

end Maruswap.ServerThreads
