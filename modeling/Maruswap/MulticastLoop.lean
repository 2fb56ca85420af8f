import Maruswap.GuardedRun
import Maruswap.ServerHandlers

/-!
# The multicast receive loop

Every opcode of the multicast dispatch, with the COMMIT frame handled on the
multicast side. The loop polls one completion at a time and leaves it to the
handlers to post the receive work again. A receive work is posted, waits in an
unprocessed completion, or is on the commit list; the ones a handler forgets
are counted in a list of their own, which never shrinks.
-/

set_option autoImplicit false

namespace Maruswap.MulticastLoop
open WireFormat ServerHandlers GuardedRun

variable {Page : Type*}

def multicastOpcodeCheck : U32 := 0x2#32
def multicastOpcodeCommit : U32 := 0x3#32
def multicastOpcodeNone : U32 := 0xf#32

/-- The second walk of `__process_multicast_rpc_commit`. The flag of an entry
stays as it is. -/
def multicastDrain : List ℕ → Server Page → Server Page
  | [], s => s
  | w::ws, s => multicastDrain ws { s with
      commitList := s.commitList.erase w
      posted := s.posted++[(s.rw w).wc.wrId]
      log := .repost (s.rw w).wc.frame::s.log }

section Handlers
variable [Zero Page]

/-- The first walk: every entry is conveyed, whether its flag is up or not. -/
def multicastWalk (alloc : ℕ → AllocResult) : List ℕ → Server Page → Server Page
  | [], s => s
  | w::ws, s =>
    let r := ibConveyPage (alloc w) (s.rw w).wc s
    if r.1 then multicastWalk alloc ws r.2 else r.2

/-- The second component is the word answered on the multicast queue pair. An
empty list is answered on the RDMA queue pair. -/
def processMulticastRpcCommit (alloc : ℕ → AllocResult) (wc : Wc) (s : Server Page) :
    Server Page × Option U32 :=
  if s.commitList = [] then (s.emit (.committed wc.immData),none)
  else
    let t := multicastWalk alloc s.commitList s
    (multicastDrain t.commitList t,some wc.immData)

def processMulticastRpcCheck (_ : Wc) (s : Server Page) : Server Page := s

/-- The dispatch on the opcode. A FLOW frame for a block past the table has no
defined outcome. -/
def ibProcessMulticastCompletion (alloc : ℕ → AllocResult) (wc : Wc) (s : Server Page) :
    Option (Server Page × Option U32) :=
  if ibGetOpcode wc.immData = multicastOpcodeFlow then
    if InTable wc.immData then some (processMulticastRpcFlow (alloc wc.wrId) wc s,none)
    else none
  else if ibGetOpcode wc.immData = multicastOpcodeCheck then
    some (processMulticastRpcCheck wc s,none)
  else if ibGetOpcode wc.immData = multicastOpcodeCommit then
    some (processMulticastRpcCommit alloc wc s)
  else if ibGetOpcode wc.immData = multicastOpcodeNone then some (s,none)
  else some (s,none)

end Handlers

/-- One connection with its multicast completion queue, oldest first, and the
words answered by multicast, latest first. -/
structure Loop (Page : Type*) extends Server Page where
  recvCq : List Wc
  answers : List U32

inductive Label (Page : Type*) where
  | arrive (header : U32) (payload : Page) (w : ℕ)
  | handle (alloc : ℕ → AllocResult)
  | commit (immData : U32) (alloc : ℕ → AllocResult)

section Steps
variable [Zero Page]

/-- One iteration of `multicast_memory_thread`: the polled completion is
handled, and its receive work is the handler's affair. -/
def multicastMemoryThread (alloc : ℕ → AllocResult) (s : Loop Page) : Option (Loop Page) :=
  match s.recvCq with
  | [] => none
  | wc::rest => (ibProcessMulticastCompletion alloc wc s.toServer).map fun r =>
      { s with toServer := r.1, recvCq := rest, answers := r.2.toList++s.answers }

def step : Label Page → Loop Page → Option (Loop Page)
  | .arrive header payload w, s =>
    if w ∈ s.posted then
      some { s with
        toServer := deliver w payload s.toServer
        recvCq := s.recvCq++[⟨header,w,0⟩] }
    else none
  | .handle alloc, s => multicastMemoryThread alloc s
  | .commit immData alloc, s =>
    if ibGetOpcode immData = opcodeCommit ∨ ibGetOpcode immData = opcodeQcommit then
      (processRdmaRpcCommit alloc immData s.toServer).map fun t => { s with toServer := t }
    else none

def initLoop (buffer : ℕ) (rkey : U32) : Loop Page where
  toServer := initServer buffer rkey
  recvCq := []
  answers := []

end Steps

/-- Each receive work posted at the start is in exactly one of the three places. -/
def Conserved (s : Loop Page) : Prop :=
  (s.posted++s.recvCq.map Wc.wrId++s.commitList).Perm (List.range mcmMaxRecvWr)

def FlowOnly : Label Page → Loop Page → Prop
  | .handle _, s => ∀ wc ∈ s.recvCq.head?, ibGetOpcode wc.immData = multicastOpcodeFlow
  | _, _ => True

def dropped : Label Page → Loop Page → List ℕ
  | .handle _, s => match s.recvCq with
    | [] => []
    | wc::_ => if ibGetOpcode wc.immData = multicastOpcodeFlow then [] else [wc.wrId]
  | _, _ => []

theorem dropped_eq_nil (l : Label Page) (s : Loop Page) : dropped l s = [] ↔ FlowOnly l s := by
  cases l with
  | arrive => simp [dropped, FlowOnly]
  | handle =>
    cases h : s.recvCq with
    | nil => simp [dropped, FlowOnly, h]
    | cons wc rest => simp [dropped, FlowOnly, h]
  | commit => simp [dropped, FlowOnly]

structure Unmoved (s t : Server Page) : Prop where
  posted : t.posted = s.posted
  commitList : t.commitList = s.commitList
  wc : ∀ w, (t.rw w).wc = (s.rw w).wc

theorem Unmoved.refl (s : Server Page) : Unmoved s s := ⟨rfl,rfl,fun _ => rfl⟩

theorem Unmoved.trans {s t u : Server Page} (h : Unmoved s t) (k : Unmoved t u) :
    Unmoved s u :=
  ⟨k.posted.trans h.posted,k.commitList.trans h.commitList,fun w => (k.wc w).trans (h.wc w)⟩

section Walks
variable [Zero Page]

theorem Conveyed.unmoved {wc : Wc} {s t : Server Page} (h : Conveyed wc s t) :
    Unmoved s t := by
  refine ⟨h.posted,h.commitList,?_⟩
  intro w
  rw [h.rw_eq]
  by_cases hw : w = wc.wrId
  · subst hw; simp
  · simp [hw]

theorem ib_convey_page_unmoved (a : AllocResult) (wc : Wc) (s : Server Page) :
    Unmoved s (ibConveyPage a wc s).2 := by
  rcases ib_convey_page_cases a wc s with ⟨-,h⟩ | ⟨h,-,-⟩
  · exact Conveyed.unmoved h
  · rw [h]
    exact Unmoved.refl s

theorem flow_convey_unmoved (a : AllocResult) (wc : Wc) (s : Server Page) :
    Unmoved s (flowConvey a wc s) := by
  unfold flowConvey
  split
  · exact Unmoved.refl s
  · exact ib_convey_page_unmoved a wc s

theorem commit_walk_unmoved (alloc : ℕ → AllocResult) (ws : List ℕ) (s : Server Page) :
    Unmoved s (commitWalk alloc ws s) := by
  induction ws generalizing s with
  | nil => exact Unmoved.refl s
  | cons w ws ih =>
    have hone := ib_convey_page_unmoved (alloc w) (s.rw w).wc s
    simp only [commitWalk]
    split_ifs
    · exact ih s
    · exact hone.trans (ih _)
    · exact hone

theorem multicast_walk_unmoved (alloc : ℕ → AllocResult) (ws : List ℕ) (s : Server Page) :
    Unmoved s (multicastWalk alloc ws s) := by
  induction ws generalizing s with
  | nil => exact Unmoved.refl s
  | cons w ws ih =>
    have hone := ib_convey_page_unmoved (alloc w) (s.rw w).wc s
    simp only [multicastWalk]
    split_ifs
    · exact hone.trans (ih _)
    · exact hone

end Walks

theorem multicast_drain_eq (ws : List ℕ) (s : Server Page) (h : s.commitList = ws) :
    multicastDrain ws s = { s with
      posted := s.posted++ws.map (fun w => (s.rw w).wc.wrId)
      commitList := []
      log := (ws.map (fun w => Event.repost (s.rw w).wc.frame)).reverse++s.log } := by
  induction ws generalizing s with
  | nil =>
    obtain ⟨⟨memblocks,blocks,batch,commitList,log⟩,rw,posted⟩ := s
    subst h
    simp [multicastDrain]
  | cons w ws ih =>
    rw [multicastDrain, ih _ (by simp [h])]
    simp

/-- An entry of the commit list was put there by its own completion. -/
def Named (s : Server Page) : Prop := ∀ w ∈ s.commitList, (s.rw w).wc.wrId = w

theorem Named.map_wr_id {s t : Server Page} (hs : Named s) (h : Unmoved s t) :
    t.commitList.map (fun w => (t.rw w).wc.wrId) = s.commitList := by
  rw [h.commitList]
  refine (List.map_congr_left ?_).trans (List.map_id s.commitList)
  intro w hw
  rw [h.wc]
  exact hs w hw

structure Accounted (lost : List ℕ) (s : Loop Page) : Prop where
  places : (s.posted++s.recvCq.map Wc.wrId++s.commitList++lost).Perm (List.range mcmMaxRecvWr)
  named : Named s.toServer

theorem Accounted.conserved_iff {lost : List ℕ} {s : Loop Page} (h : Accounted lost s) :
    Conserved s ↔ lost = [] := by
  constructor
  · intro hc
    have h1 := h.places.length_eq
    have h2 := hc.length_eq
    rw [List.length_append] at h1
    exact List.length_eq_zero_iff.mp (by omega)
  · intro hl
    simpa [Conserved, hl] using h.places

section Account
variable [Zero Page]

theorem init_accounted (buffer : ℕ) (rkey : U32) :
    Accounted [] (initLoop buffer rkey : Loop Page) :=
  ⟨by simp [initLoop, initServer],by simp [Named, initLoop, initServer]⟩

theorem rdma_commit_moves (alloc : ℕ → AllocResult) (immData : U32) (s t : Server Page)
    (hs : Named s) (h : processRdmaRpcCommit alloc immData s = some t) :
    t.posted = s.posted++s.commitList ∧ t.commitList = [] := by
  unfold processRdmaRpcCommit at h
  split_ifs at h with hl
  · obtain rfl := Option.some.inj h
    simp [Server.emit, hl]
  · obtain rfl := Option.some.inj h
    have hw := commit_walk_unmoved alloc s.commitList s
    have hmap := hs.map_wr_id hw
    rw [commitRegion, drain_eq _ _ rfl]
    exact ⟨congrArg₂ (·++·) hw.posted hmap,rfl⟩

theorem multicast_commit_moves (alloc : ℕ → AllocResult) (wc : Wc) (s : Server Page)
    (hs : Named s) :
    (processMulticastRpcCommit alloc wc s).1.posted = s.posted++s.commitList ∧
      (processMulticastRpcCommit alloc wc s).1.commitList = [] := by
  unfold processMulticastRpcCommit
  split
  · next hl => simp [Server.emit, hl]
  · have hw := multicast_walk_unmoved alloc s.commitList s
    have hmap := hs.map_wr_id hw
    dsimp only
    rw [multicast_drain_eq _ _ rfl]
    exact ⟨congrArg₂ (·++·) hw.posted hmap,rfl⟩

theorem flow_moves (a : AllocResult) (wc : Wc) (s : Server Page) (hs : Named s) :
    (processMulticastRpcFlow a wc s).posted = s.posted ∧
      (processMulticastRpcFlow a wc s).commitList = wc.wrId::s.commitList ∧
      Named (processMulticastRpcFlow a wc s) := by
  have h := flow_convey_unmoved a wc (flowListAdd wc s)
  refine ⟨h.posted,h.commitList,?_⟩
  intro w hw
  rw [processMulticastRpcFlow, h.commitList] at hw
  rw [processMulticastRpcFlow, h.wc]
  by_cases hwc : w = wc.wrId
  · subst hwc; simp [flowListAdd]
  · have hm : w ∈ s.commitList := by simpa [flowListAdd, hwc] using hw
    simpa [flowListAdd, hwc] using hs w hm

/-- The dispatch puts the receive work of a FLOW frame on the commit list and
the receive work of any other frame nowhere; what was listed stays or is posted. -/
theorem completion_moves (alloc : ℕ → AllocResult) (wc : Wc) (s : Server Page)
    (r : Server Page × Option U32) (hs : Named s)
    (h : ibProcessMulticastCompletion alloc wc s = some r) :
    Named r.1 ∧ (r.1.posted++r.1.commitList).Perm
      (s.posted++(if ibGetOpcode wc.immData = multicastOpcodeFlow then [wc.wrId] else [])++
        s.commitList) := by
  unfold ibProcessMulticastCompletion at h
  split_ifs at h with hflow hin hcheck hcommit hnone
  · obtain rfl := Option.some.inj h
    obtain ⟨hp,hl,hn⟩ := flow_moves (alloc wc.wrId) wc s hs
    refine ⟨hn,?_⟩
    rw [hp, hl, if_pos hflow]
    simp
  · obtain rfl := Option.some.inj h
    simpa [processMulticastRpcCheck, hflow] using hs
  · obtain ⟨hp,hl⟩ := multicast_commit_moves alloc wc s hs
    obtain rfl := Option.some.inj h
    refine ⟨?_,?_⟩
    · simp [Named, hl]
    · simp [hp, hl, hflow]
  · obtain rfl := Option.some.inj h
    simpa [hflow] using hs
  · obtain rfl := Option.some.inj h
    simpa [hflow] using hs

theorem step_accounted (lost : List ℕ) (l : Label Page) (s t : Loop Page)
    (hs : Accounted lost s) (h : step l s = some t) : Accounted (dropped l s++lost) t := by
  cases l with
  | arrive header payload w =>
    simp only [step, Option.ite_none_right_eq_some] at h
    obtain ⟨hw,ht⟩ := h
    obtain rfl := Option.some.inj ht
    refine ⟨?_,?_⟩
    · refine List.Perm.trans ?_ hs.places
      have hp : (w::s.posted.erase w).Perm s.posted := (List.perm_cons_erase hw).symm
      have hq := hp.append_right (s.recvCq.map Wc.wrId++s.commitList++lost)
      refine List.Perm.trans ?_ (by simpa using hq)
      simp only [deliver, List.map_append, List.map_cons, List.map_nil, dropped,
        List.nil_append, List.append_assoc]
      exact (List.Perm.append_left _ List.perm_middle).trans List.perm_middle
    · intro v hv
      by_cases hvw : v = w
      · subst hvw
        simpa [deliver] using hs.named v hv
      · simpa [deliver, hvw] using hs.named v hv
  | handle alloc =>
    simp only [step, multicastMemoryThread] at h
    cases hq : s.recvCq with
    | nil => simp [hq] at h
    | cons wc rest =>
      rw [hq] at h
      obtain ⟨r,hr,rfl⟩ := Option.map_eq_some_iff.mp h
      obtain ⟨hn,hp⟩ := completion_moves alloc wc s.toServer r hs.named hr
      refine ⟨?_,hn⟩
      refine List.Perm.trans ?_ hs.places
      have hcons : (wc::rest).map Wc.wrId = [wc.wrId]++rest.map Wc.wrId := rfl
      rw [List.perm_iff_count] at hp ⊢
      intro v
      have hv := hp v
      by_cases hflow : ibGetOpcode wc.immData = multicastOpcodeFlow
      · simp only [dropped, hq, hcons, if_pos hflow, List.count_append, List.count_nil] at hv ⊢
        omega
      · simp only [dropped, hq, hcons, if_neg hflow, List.count_append, List.count_nil] at hv ⊢
        omega
  | commit immData alloc =>
    simp only [step, Option.ite_none_right_eq_some] at h
    obtain ⟨-,ht⟩ := h
    obtain ⟨u,hu,rfl⟩ := Option.map_eq_some_iff.mp ht
    obtain ⟨hp,hl⟩ := rdma_commit_moves alloc immData s.toServer u hs.named hu
    refine ⟨?_,?_⟩
    · refine List.Perm.trans ?_ hs.places
      rw [List.perm_iff_count]
      intro v
      simp only [hp, hl, dropped, List.count_append, List.count_nil]
      omega
    · simp [Named, hl]

theorem run_accounted (lost : List ℕ) (ls : List (Label Page)) (s t : Loop Page)
    (hs : Accounted lost s) (h : run step ls s = some t) :
    ∃ more, Accounted (more++lost) t ∧ (more = [] ↔ Meets step FlowOnly ls s) := by
  induction ls generalizing lost s with
  | nil =>
    obtain rfl := Option.some.inj h
    exact ⟨[],hs,by simp [Meets]⟩
  | cons l ls ih =>
    obtain ⟨u,hu,hrest⟩ := run_cons.mp h
    obtain ⟨more,hm,hiff⟩ := ih _ u (step_accounted lost l s u hs hu) hrest
    refine ⟨more++dropped l s,by simpa using hm,?_⟩
    rw [List.append_eq_nil_iff, dropped_eq_nil, hiff]
    constructor
    · rintro ⟨hmeets,hflow⟩
      exact ⟨hflow,fun v hv => Option.some.inj (hu.symm.trans hv) ▸ hmeets⟩
    · rintro ⟨hflow,hmeets⟩
      exact ⟨hmeets u hu,hflow⟩

/-- Once lost, a receive work stays lost: the receive works are conserved in
exactly the runs that handle FLOW frames only. In these a drained commit list
leaves every receive work posted that no completion holds. -/
theorem receive_works_conserved (buffer : ℕ) (rkey : U32) (ls : List (Label Page))
    (t : Loop Page) (h : run step ls (initLoop buffer rkey) = some t) :
    (Conserved t ↔ Meets step FlowOnly ls (initLoop buffer rkey)) ∧
    (Meets step FlowOnly ls (initLoop buffer rkey) → t.commitList = [] →
      ∀ w < mcmMaxRecvWr, w ∉ t.recvCq.map Wc.wrId → w ∈ t.posted) := by
  obtain ⟨more,hm,hiff⟩ := run_accounted [] ls _ t (init_accounted buffer rkey) h
  rw [List.append_nil] at hm
  have hc : Conserved t ↔ Meets step FlowOnly ls (initLoop buffer rkey) :=
    hm.conserved_iff.trans hiff
  refine ⟨hc,?_⟩
  intro hmeets hl w hw hq
  have hplaces : (t.posted++t.recvCq.map Wc.wrId++t.commitList).Perm _ := hc.mpr hmeets
  have hin := hplaces.mem_iff.mpr (List.mem_range.mpr hw)
  rw [hl, List.append_nil, List.mem_append] at hin
  exact hin.resolve_right hq

def sampleFlow : List (Label ℕ) :=
  [.arrive (flowHeader 5#32) 7 0,.handle (fun _ => ⟨some 0,some 1#32⟩),
    .commit (qcommitWord 1#32) (fun _ => ⟨some 0,some 1#32⟩)]

theorem receive_works_conserved_sample : ∃ t : Loop ℕ,
    run step sampleFlow (initLoop 0 1#32) = some t ∧ Conserved t := by
  have hsome : (run step sampleFlow (initLoop 0 1#32)).isSome := by decide +kernel
  obtain ⟨t,ht⟩ := Option.isSome_iff_exists.mp hsome
  have hmeets : Meets step FlowOnly sampleFlow (initLoop 0 1#32) := by
    refine ⟨trivial,fun u hu => ⟨?_,fun v _ => ⟨trivial,fun _ _ => trivial⟩⟩⟩
    simp only [step, Option.ite_none_right_eq_some] at hu
    obtain rfl := Option.some.inj hu.2
    simp only [FlowOnly, initLoop, List.nil_append, List.head?_cons, Option.mem_some_iff,
      forall_eq']
    decide
  exact ⟨t,ht,(receive_works_conserved 0 1#32 sampleFlow t ht).1.mpr hmeets⟩

def sampleCheck : List (Label ℕ) :=
  [.arrive (multicastOpcodeCheck <<< 28) 7 0,.handle (fun _ => ⟨none,none⟩)]

theorem check_frame_lost : ∃ t : Loop ℕ,
    run step sampleCheck (initLoop 0 1#32) = some t ∧ ¬ Conserved t := by
  have hsome : (run step sampleCheck (initLoop 0 1#32)).isSome := by decide +kernel
  obtain ⟨t,ht⟩ := Option.isSome_iff_exists.mp hsome
  refine ⟨t,ht,fun hc => ?_⟩
  obtain ⟨more,hm,hiff⟩ := run_accounted [] sampleCheck _ t (init_accounted 0 1#32) ht
  have hmeets := hiff.mp (List.append_eq_nil_iff.mp (hm.conserved_iff.mp hc)).1
  obtain ⟨u,hu,-⟩ := run_cons.mp ht
  have hflow := (hmeets.2 u hu).1
  simp only [step, Option.ite_none_right_eq_some] at hu
  obtain rfl := Option.some.inj hu.2
  simp only [FlowOnly, initLoop, List.nil_append, List.head?_cons, Option.mem_some_iff,
    forall_eq'] at hflow
  revert hflow
  decide

end Account

end Maruswap.MulticastLoop
