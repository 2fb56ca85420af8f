import Maruswap.GuardedRun
import Maruswap.ServerHandlers
import Mathlib.Data.List.Nodup

/-!
# Connections on one multicast queue pair

`init_handlers` gives every client a handler pair of its own, and all of them
poll the one multicast queue pair: receive works, completion queue and group
are shared, and the header of a frame does not name its sender. Every iteration
of a receive loop is one step here. Frames are numbered as they arrive, and a
ghost records whose thread polled each of them.
-/

set_option autoImplicit false

namespace Maruswap.SharedGroup
open WireFormat ServerHandlers GuardedRun

variable {Page : Type*}

structure Frame (Page : Type*) where
  sender : ℕ
  header : U32
  payload : Page
  deriving DecidableEq

/-- `arrived` and `poller` are ghosts. -/
structure Group (Page : Type*) where
  handlers : ℕ → Option (Handler Page)
  rw : ℕ → RecvWork Page
  posted : List ℕ
  cq : List Wc
  arrived : List (Frame Page)
  poller : ℕ → Option ℕ

inductive Label (Page : Type*) where
  | connect (c buffer : ℕ) (rkey : U32)
  | send (c : ℕ) (header : U32) (payload : Page) (w : ℕ)
  | poll (c : ℕ) (a : AllocResult)
  | openBlock (c : ℕ) (header : U32) (a : AllocResult)
  | commit (c : ℕ) (immData : U32) (alloc : ℕ → AllocResult)

/-- The connection whose threads take the step. -/
def Label.thread : Label Page → Option ℕ
  | .connect _ _ _ => none
  | .send _ _ _ _ => none
  | .poll c _ => some c
  | .openBlock c _ _ => some c
  | .commit c _ _ => some c

def Group.server (n : Group Page) (h : Handler Page) : Server Page :=
  { h with rw := n.rw, posted := n.posted }

def Group.put (n : Group Page) (c : ℕ) (s : Server Page) : Group Page :=
  { n with
    handlers := Function.update n.handlers c (some s.toHandler)
    rw := s.rw
    posted := s.posted }

@[simp] theorem put_handlers (n : Group Page) (c : ℕ) (s : Server Page) :
    (n.put c s).handlers = Function.update n.handlers c (some s.toHandler) := rfl

def arrive (c : ℕ) (header : U32) (payload : Page) (w : ℕ) (n : Group Page) : Group Page :=
  { n with
    rw := Function.update n.rw w { n.rw w with buffer := payload }
    posted := n.posted.erase w
    cq := n.cq++[⟨header,w,n.arrived.length⟩]
    arrived := n.arrived++[⟨c,header,payload⟩] }

/-- The receive works `alloc_multicast_memory_handler` posts for a connection. -/
def works (c : ℕ) : List ℕ := (List.range mcmMaxRecvWr).map (fun i => mcmMaxRecvWr*c+i)

variable [Zero Page]

def connect (c buffer : ℕ) (rkey : U32) (n : Group Page) : Group Page :=
  { n with
    handlers := Function.update n.handlers c (some (initServer buffer rkey).toHandler)
    posted := n.posted++works c }

/-- One iteration of `multicast_memory_thread`. -/
def poll (c : ℕ) (a : AllocResult) (h : Handler Page) (wc : Wc) (cq : List Wc)
    (n : Group Page) : Group Page :=
  { n.put c (processMulticastRpcFlow a wc (n.server h)) with
    cq := cq
    poller := Function.update n.poller wc.frame (some c) }

def step : Label Page → Group Page → Option (Group Page)
  | .connect c buffer rkey, n =>
    if n.handlers c = none then some (connect c buffer rkey n) else none
  | .send c header payload w, n =>
    if (n.handlers c).isSome ∧ ibGetOpcode header = multicastOpcodeFlow ∧ InTable header ∧
      w ∈ n.posted then some (arrive c header payload w n)
    else none
  | .poll c a, n => match n.handlers c, n.cq with
    | some h, wc::cq => some (poll c a h wc cq n)
    | _, _ => none
  | .openBlock c header a, n => match n.handlers c with
    | some h =>
      if ibGetOpcode header = opcodeOpen ∧ InTable header then
        (processRdmaRpcOpen a header (n.server h)).map (n.put c)
      else none
    | none => none
  | .commit c immData alloc, n => match n.handlers c with
    | some h =>
      if ibGetOpcode immData = opcodeCommit ∨ ibGetOpcode immData = opcodeQcommit then
        (processRdmaRpcCommit alloc immData (n.server h)).map (n.put c)
      else none
    | none => none

@[simp] theorem connect_handlers (c buffer : ℕ) (rkey : U32) (n : Group Page) :
    (connect c buffer rkey n).handlers =
      Function.update n.handlers c (some (initServer buffer rkey).toHandler) := rfl

def initGroup : Group Page := ⟨fun _ => none,fun w => ⟨0,⟨0,w,0⟩,false⟩,[],[],[],fun _ => none⟩

/-- Every copy into the memblocks of `c` is of a frame `c` has multicast. -/
def SenderIsolated (n : Group Page) : Prop :=
  ∀ c h f block byte content fr, n.handlers c = some h →
    .convey f block byte content ∈ h.log → n.arrived[f]? = some fr → fr.sender = c

/-- Frame `f` was polled by the thread of `c`; it names page `P` and carries
`content`. -/
structure PolledFrame (n : Group Page) (c f P : ℕ) (content : Page) : Prop where
  poller : n.poller f = some c
  arrived : ∃ sender header, n.arrived[f]? = some ⟨sender,header,content⟩ ∧
    pageOffset header = P

/-- Every copy into the memblocks of a connection is of a frame its own thread
polled, and every page it reads back is zero or such a frame's. -/
structure PollerIsolated (n : Group Page) (c : ℕ) (h : Handler Page) : Prop where
  conveyed : ∀ f block byte content, .convey f block byte content ∈ h.log →
    ∃ P, PolledFrame n c f P content ∧ block = blockOf P ∧ byte = byteOf P
  pages : ∀ P, h.pageAt P = 0 ∨ ∃ f, PolledFrame n c f P (h.pageAt P)

/-! Conveyances from a known source, composed. -/

/-- Between `s` and `t` lie only copies whose completion and content are in
`src`. -/
structure Conveys (src : Wc → Page → Prop) (s t : Server Page) : Prop where
  wc : ∀ w, (t.rw w).wc = (s.rw w).wc
  buffer : ∀ w, (t.rw w).buffer = (s.rw w).buffer
  posted : t.posted = s.posted
  commitList : t.commitList = s.commitList
  log : ∀ f block byte content, .convey f block byte content ∈ t.log →
    .convey f block byte content ∈ s.log ∨ ∃ wc, src wc content ∧ f = wc.frame ∧
      block = blockOf (pageOffset wc.immData) ∧ byte = byteOf (pageOffset wc.immData)
  pages : ∀ P, t.pageAt P = s.pageAt P ∨
    ∃ wc, src wc (t.pageAt P) ∧ pageOffset wc.immData = P

theorem Conveys.refl (src : Wc → Page → Prop) (s : Server Page) : Conveys src s s :=
  ⟨fun _ => rfl,fun _ => rfl,rfl,rfl,fun _ _ _ _ h => Or.inl h,fun _ => Or.inl rfl⟩

theorem Conveys.trans {src : Wc → Page → Prop} {s t u : Server Page} (h : Conveys src s t)
    (k : Conveys src t u) : Conveys src s u := by
  constructor
  · exact fun w => (k.wc w).trans (h.wc w)
  · exact fun w => (k.buffer w).trans (h.buffer w)
  · exact k.posted.trans h.posted
  · exact k.commitList.trans h.commitList
  · intro f block byte content he
    rcases k.log f block byte content he with ht | hw
    · exact h.log f block byte content ht
    · exact Or.inr hw
  · intro P
    rcases k.pages P with ht | hw
    · rw [ht]
      exact h.pages P
    · exact Or.inr hw

theorem Conveyed.conveys {src : Wc → Page → Prop} {wc : Wc} {s t : Server Page}
    (h : Conveyed wc s t) (hsrc : src wc (s.rw wc.wrId).buffer) : Conveys src s t := by
  constructor
  · intro w
    rw [h.rw_eq]
    by_cases hw : w = wc.wrId
    · subst hw; simp
    · simp [hw]
  · intro w
    rw [h.rw_eq]
    by_cases hw : w = wc.wrId
    · subst hw; simp
    · simp [hw]
  · exact h.posted
  · exact h.commitList
  · intro f block byte content he
    rw [h.log, List.mem_cons] at he
    rcases he with he | he
    · obtain ⟨rfl,rfl,rfl,rfl⟩ := Event.convey.inj he
      exact Or.inr ⟨wc,hsrc,rfl,rfl,rfl⟩
    · exact Or.inl he
  · intro P
    rw [h.pages]
    by_cases hP : P = pageOffset wc.immData
    · subst hP
      rw [KeyedLog.write_self]
      exact Or.inr ⟨wc,hsrc,rfl⟩
    · exact Or.inl (KeyedLog.write_ne _ hP)

theorem convey_conveys (src : Wc → Page → Prop) (a : AllocResult) (wc : Wc) (s : Server Page)
    (hsrc : src wc (s.rw wc.wrId).buffer) : Conveys src s (ibConveyPage a wc s).2 := by
  rcases ib_convey_page_cases a wc s with ⟨-,hc⟩ | ⟨he,-,-⟩
  · exact Conveyed.conveys hc hsrc
  · rw [he]
    exact Conveys.refl src s

theorem flow_conveys (src : Wc → Page → Prop) (a : AllocResult) (wc : Wc) (s : Server Page)
    (hsrc : src wc (s.rw wc.wrId).buffer) : Conveys src s (flowConvey a wc s) := by
  unfold flowConvey
  split
  · exact Conveys.refl src s
  · exact convey_conveys src a wc s hsrc

theorem walk_conveys (src : Wc → Page → Prop) (alloc : ℕ → AllocResult) (ws : List ℕ)
    (s : Server Page)
    (hsrc : ∀ w ∈ ws, (s.rw w).wc.wrId = w ∧ src (s.rw w).wc (s.rw w).buffer) :
    Conveys src s (commitWalk alloc ws s) := by
  induction ws generalizing s with
  | nil => exact Conveys.refl src s
  | cons w ws ih =>
    have hrest : ∀ v ∈ ws, (s.rw v).wc.wrId = v ∧ src (s.rw v).wc (s.rw v).buffer :=
      fun v hv => hsrc v (by simp [hv])
    rw [commitWalk]
    split
    · exact ih s hrest
    · obtain ⟨hid,hw⟩ := hsrc w (by simp)
      have hc := convey_conveys src (alloc w) (s.rw w).wc s (by rw [hid]; exact hw)
      dsimp only
      split
      · refine hc.trans (ih _ (fun v hv => ?_))
        rw [hc.wc, hc.buffer]
        exact hrest v hv
      · exact hc

/-! Where a receive work is, and what it holds there. -/

inductive Place where
  | idle
  | posted
  | completed (f : ℕ)
  | listed (c : ℕ)

/-- `place` tells apart the works of the queue pair, of the completion queue
and of the commit lists of all the connections. -/
structure Routed (place : ℕ → Place) (n : Group Page) : Prop where
  fresh : ∀ w, n.handlers (w/mcmMaxRecvWr) = none → place w = .idle
  postedNodup : n.posted.Nodup
  posted : ∀ w ∈ n.posted, place w = .posted
  cqNodup : (n.cq.map Wc.frame).Nodup
  cq : ∀ wc ∈ n.cq, place wc.wrId = .completed wc.frame ∧ n.poller wc.frame = none ∧
    ∃ sender, n.arrived[wc.frame]? = some ⟨sender,wc.immData,(n.rw wc.wrId).buffer⟩
  unarrived : ∀ f, n.arrived.length ≤ f → n.poller f = none
  listNodup : ∀ c h, n.handlers c = some h → h.commitList.Nodup
  listed : ∀ c h, n.handlers c = some h → ∀ w ∈ h.commitList,
    place w = .listed c ∧ (n.rw w).wc.wrId = w ∧
      PolledFrame n c (n.rw w).wc.frame (pageOffset (n.rw w).wc.immData) (n.rw w).buffer
  isolated : ∀ c h, n.handlers c = some h → PollerIsolated n c h

/-- Arrivals and polls are never taken back. -/
structure Grows (n m : Group Page) : Prop where
  arrived : ∀ (f : ℕ) (fr : Frame Page), n.arrived[f]? = some fr → m.arrived[f]? = some fr
  poller : ∀ f c, n.poller f = some c → m.poller f = some c

omit [Zero Page] in
theorem PolledFrame.grows {n m : Group Page} {c f P : ℕ} {content : Page}
    (h : PolledFrame n c f P content) (g : Grows n m) : PolledFrame m c f P content := by
  obtain ⟨sender,header,ha,hP⟩ := h.arrived
  exact ⟨g.poller f c h.poller,sender,header,g.arrived f _ ha,hP⟩

theorem PollerIsolated.grows {n m : Group Page} {c : ℕ} {h : Handler Page}
    (hi : PollerIsolated n c h) (g : Grows n m) : PollerIsolated m c h := by
  constructor
  · intro f block byte content he
    obtain ⟨P,hp,hb⟩ := hi.conveyed f block byte content he
    exact ⟨P,hp.grows g,hb⟩
  · intro P
    rcases hi.pages P with h0 | ⟨f,hf⟩
    · exact Or.inl h0
    · exact Or.inr ⟨f,hf.grows g⟩

/-- Copies of frames that `c` polled keep `c` isolated. -/
theorem PollerIsolated.conveys {src : Wc → Page → Prop} {n m : Group Page} {c : ℕ}
    {s t : Server Page} (hi : PollerIsolated n c s.toHandler) (g : Grows n m)
    (hc : Conveys src s t)
    (hsrc : ∀ wc content, src wc content →
      PolledFrame m c wc.frame (pageOffset wc.immData) content) :
    PollerIsolated m c t.toHandler := by
  constructor
  · intro f block byte content he
    rcases hc.log f block byte content he with hs | ⟨wc,hw,rfl,hb,ho⟩
    · exact (hi.grows g).conveyed f block byte content hs
    · exact ⟨_,hsrc wc content hw,hb,ho⟩
  · intro P
    rcases hc.pages P with hs | ⟨wc,hw,hP⟩
    · rw [hs]
      exact (hi.grows g).pages P
    · subst hP
      exact Or.inr ⟨wc.frame,hsrc wc _ hw⟩

theorem init_routed : Routed (fun _ => .idle) (initGroup : Group Page) where
  fresh := fun _ _ => rfl
  postedNodup := List.nodup_nil
  posted := by simp [initGroup]
  cqNodup := List.nodup_nil
  cq := by simp [initGroup]
  unarrived := fun _ _ => rfl
  listNodup := by simp [initGroup]
  listed := by simp [initGroup]
  isolated := by simp [initGroup]

theorem mem_works {c w : ℕ} (h : w ∈ works c) : w/mcmMaxRecvWr = c := by
  obtain ⟨i,hi,rfl⟩ := List.mem_map.mp h
  rw [List.mem_range] at hi
  rw [Nat.mul_add_div (by decide), Nat.div_eq_of_lt hi, Nat.add_zero]

theorem works_nodup (c : ℕ) : (works c).Nodup :=
  List.nodup_range.map (fun i j h => by omega)

theorem init_isolated (n : Group Page) (c buffer : ℕ) (rkey : U32) :
    PollerIsolated n c (initServer buffer rkey : Server Page).toHandler := by
  constructor
  · simp [initServer]
  · intro P
    apply Or.inl
    by_cases hb : blockOf P = 0 <;> simp [Handler.pageAt, initServer, hb]

open Classical in
theorem connect_routed (c buffer : ℕ) (rkey : U32) (place : ℕ → Place) (n : Group Page)
    (h : Routed place n) (hn : n.handlers c = none) :
    Routed (fun w => if w ∈ works c then .posted else place w) (connect c buffer rkey n) := by
  have hidle : ∀ w ∈ works c, place w = .idle := fun w hw =>
    h.fresh w (by rw [mem_works hw]; exact hn)
  have hold : ∀ w, place w ≠ .idle → w ∉ works c := fun w hw hmem => hw (hidle w hmem)
  have hother : ∀ d k, (connect c buffer rkey n).handlers d = some k →
      (d = c ∧ k = (initServer buffer rkey : Server Page).toHandler) ∨ n.handlers d = some k := by
    intro d k hk
    by_cases hd : d = c
    · subst hd
      rw [connect_handlers, Function.update_self] at hk
      exact Or.inl ⟨rfl,(Option.some.inj hk).symm⟩
    · rw [connect_handlers, Function.update_of_ne hd] at hk
      exact Or.inr hk
  have g : Grows n (connect c buffer rkey n) := ⟨fun _ _ hf => hf,fun _ _ hf => hf⟩
  constructor
  · intro w hw
    have hwc : w/mcmMaxRecvWr ≠ c := by
      intro he
      simp [he] at hw
    rw [connect_handlers, Function.update_of_ne hwc] at hw
    rw [if_neg (fun hmem => hwc (mem_works hmem))]
    exact h.fresh w hw
  · refine List.nodup_append.mpr ⟨h.postedNodup,works_nodup c,fun v hv w hw he => ?_⟩
    have := hidle w hw
    rw [← he, h.posted v hv] at this
    cases this
  · intro w hw
    rcases List.mem_append.mp hw with hw | hw
    · rw [if_neg (hold w (by rw [h.posted w hw]; simp))]
      exact h.posted w hw
    · exact if_pos hw
  · exact h.cqNodup
  · intro wc hwc
    obtain ⟨hp,hrest⟩ := h.cq wc hwc
    exact ⟨by rw [if_neg (hold _ (by rw [hp]; simp))]; exact hp,hrest⟩
  · exact h.unarrived
  · intro d k hk
    rcases hother d k hk with ⟨-,rfl⟩ | hk
    · exact List.nodup_nil
    · exact h.listNodup d k hk
  · intro d k hk w hw
    rcases hother d k hk with ⟨-,rfl⟩ | hk
    · simp [initServer] at hw
    · obtain ⟨hp,hid,hf⟩ := h.listed d k hk w hw
      exact ⟨by rw [if_neg (hold _ (by rw [hp]; simp))]; exact hp,hid,hf.grows g⟩
  · intro d k hk
    rcases hother d k hk with ⟨rfl,rfl⟩ | hk
    · exact init_isolated _ d buffer rkey
    · exact (h.isolated d k hk).grows g

theorem arrive_routed (c : ℕ) (header : U32) (payload : Page) (w : ℕ) (place : ℕ → Place)
    (n : Group Page) (h : Routed place n) (hw : w ∈ n.posted) :
    Routed (Function.update place w (.completed n.arrived.length))
      (arrive c header payload w n) := by
  have hold : ∀ v, place v ≠ .posted → v ≠ w := fun v hv he => hv (he ▸ h.posted w hw)
  have hlt : ∀ wc ∈ n.cq, wc.frame < n.arrived.length := fun wc hwc =>
    (List.getElem?_eq_some_iff.mp (h.cq wc hwc).2.2.choose_spec).1
  have g : Grows n (arrive c header payload w n) :=
    ⟨fun f fr hf => (List.getElem?_append_left (List.getElem?_eq_some_iff.mp hf).1).trans hf,
      fun _ _ hf => hf⟩
  constructor
  · intro v hv
    have hp := h.fresh v hv
    rw [Function.update_of_ne (hold v (by rw [hp]; simp))]
    exact hp
  · exact h.postedNodup.erase w
  · intro v hv
    have hne : v ≠ w := fun he => List.Nodup.not_mem_erase h.postedNodup (he ▸ hv)
    rw [Function.update_of_ne hne]
    exact h.posted v (List.mem_of_mem_erase hv)
  · simp only [arrive, List.map_append, List.map_cons, List.map_nil]
    refine List.nodup_append.mpr ⟨h.cqNodup,List.nodup_singleton _,fun f hf k hk he => ?_⟩
    obtain ⟨wc,hwc,rfl⟩ := List.mem_map.mp hf
    rw [List.mem_singleton] at hk
    have := hlt wc hwc
    omega
  · intro wc hwc
    rcases List.mem_append.mp hwc with hwc | hwc
    · obtain ⟨hp,hn,sender,ha⟩ := h.cq wc hwc
      have hne : wc.wrId ≠ w := hold _ (by rw [hp]; simp)
      have hrw : (arrive c header payload w n).rw wc.wrId = n.rw wc.wrId := by
        simp [arrive, hne]
      rw [hrw, Function.update_of_ne hne]
      exact ⟨hp,hn,sender,g.arrived _ _ ha⟩
    · rw [List.mem_singleton] at hwc
      subst hwc
      exact ⟨by simp,h.unarrived _ (Nat.le_refl _),c,by simp [arrive]⟩
  · intro f hf
    simp only [arrive, List.length_append, List.length_singleton] at hf
    exact h.unarrived f (by omega)
  · exact h.listNodup
  · intro d k hk v hv
    obtain ⟨hp,hid,hf⟩ := h.listed d k hk v hv
    have hne : v ≠ w := hold v (by rw [hp]; simp)
    have hrw : (arrive c header payload w n).rw v = n.rw v := by simp [arrive, hne]
    rw [hrw, Function.update_of_ne hne]
    exact ⟨hp,hid,hf.grows g⟩
  · exact fun d k hk => (h.isolated d k hk).grows g

omit [Zero Page] in
theorem put_cases {n : Group Page} {c d : ℕ} {s : Server Page} {k : Handler Page}
    (hk : (n.put c s).handlers d = some k) :
    (d = c ∧ k = s.toHandler) ∨ (d ≠ c ∧ n.handlers d = some k) := by
  rw [put_handlers] at hk
  by_cases hd : d = c
  · subst hd
    rw [Function.update_self] at hk
    exact Or.inl ⟨rfl,(Option.some.inj hk).symm⟩
  · rw [Function.update_of_ne hd] at hk
    exact Or.inr ⟨hd,hk⟩

omit [Zero Page] in
theorem put_none {n : Group Page} {c d : ℕ} {s : Server Page} {h : Handler Page}
    (hc : n.handlers c = some h) (hk : (n.put c s).handlers d = none) : n.handlers d = none := by
  rw [put_handlers] at hk
  by_cases hd : d = c
  · subst hd
    simp at hk
  · rwa [Function.update_of_ne hd] at hk

/-- What a poll leaves: the frame is the handler's, and its work on the handler's list. -/
structure Polls (c : ℕ) (h : Handler Page) (wc : Wc) (n m : Group Page) : Prop where
  posted : m.posted = n.posted
  buffer : ∀ v, (m.rw v).buffer = (n.rw v).buffer
  others : ∀ v, v ≠ wc.wrId → (m.rw v).wc = (n.rw v).wc
  own : (m.rw wc.wrId).wc = wc
  list : ∀ k, m.handlers c = some k → k.commitList = wc.wrId::h.commitList
  grows : Grows n m
  frame : PolledFrame m c wc.frame (pageOffset wc.immData) (n.rw wc.wrId).buffer

theorem poll_conveys (a : AllocResult) (h : Handler Page) (wc : Wc) (n : Group Page) :
    Conveys (fun v content => v = wc ∧ content = (n.rw wc.wrId).buffer)
      (flowListAdd wc (n.server h)) (processMulticastRpcFlow a wc (n.server h)) :=
  flow_conveys _ a wc _ ⟨rfl,by simp [flowListAdd, Group.server]⟩

theorem poll_polls (c : ℕ) (a : AllocResult) (h : Handler Page) (wc : Wc) (cq : List Wc)
    {place : ℕ → Place} {n : Group Page} (hr : Routed place n) (hcq : n.cq = wc::cq) :
    Polls c h wc n (poll c a h wc cq n) := by
  obtain ⟨-,hpoller,sender,harr⟩ := hr.cq wc (by simp [hcq])
  have hc := poll_conveys a h wc n
  refine ⟨hc.posted,fun v => (hc.buffer v).trans ?_,
    fun v hv => (hc.wc v).trans (by simp [flowListAdd, Group.server, hv]),
    (hc.wc wc.wrId).trans (by simp [flowListAdd]),fun k hk => ?_,⟨fun _ _ hf => hf,
    fun f d hf => ?_⟩,by simp [poll],sender,wc.immData,harr,rfl⟩
  · by_cases hv : v = wc.wrId
    · subst hv; simp [flowListAdd, Group.server]
    · simp [flowListAdd, Group.server, hv]
  · rcases put_cases hk with ⟨-,rfl⟩ | ⟨hd,-⟩
    · exact hc.commitList
    · exact absurd rfl hd
  · have hne : f ≠ wc.frame := fun he => by simp [he, hpoller] at hf
    exact (Function.update_of_ne hne _ _).trans hf

theorem poll_listed {c d v : ℕ} {h k : Handler Page} {wc : Wc} {cq : List Wc}
    {place : ℕ → Place} {n m : Group Page} (hr : Routed place n) (hh : n.handlers c = some h)
    (hcq : n.cq = wc::cq) (hp : Polls c h wc n m)
    (hother : d ≠ c → n.handlers d = some k) (hk : m.handlers d = some k)
    (hv : v ∈ k.commitList) :
    Function.update place wc.wrId (.listed c) v = .listed d ∧ (m.rw v).wc.wrId = v ∧
      PolledFrame m d (m.rw v).wc.frame (pageOffset (m.rw v).wc.immData) (m.rw v).buffer := by
  obtain ⟨hplace,-⟩ := hr.cq wc (by simp [hcq])
  have hkept : ∀ e j, n.handlers e = some j → v ∈ j.commitList →
      Function.update place wc.wrId (.listed c) v = .listed e ∧ (m.rw v).wc.wrId = v ∧
        PolledFrame m e (m.rw v).wc.frame (pageOffset (m.rw v).wc.immData) (m.rw v).buffer := by
    intro e j hj hmem
    obtain ⟨hlisted,hid,hf⟩ := hr.listed e j hj v hmem
    have hne : v ≠ wc.wrId := by
      rintro rfl
      simp [hplace] at hlisted
    rw [hp.others v hne, hp.buffer, Function.update_of_ne hne]
    exact ⟨hlisted,hid,hf.grows hp.grows⟩
  by_cases hd : d = c
  · subst hd
    rw [hp.list k hk] at hv
    rcases List.mem_cons.mp hv with rfl | hv
    · rw [hp.own, hp.buffer, Function.update_self]
      exact ⟨rfl,rfl,hp.frame⟩
    · exact hkept d h hh hv
  · exact hkept d k (hother hd) hv

theorem poll_routed (c : ℕ) (a : AllocResult) (h : Handler Page) (wc : Wc) (cq : List Wc)
    (place : ℕ → Place) (n : Group Page) (hr : Routed place n) (hh : n.handlers c = some h)
    (hcq : n.cq = wc::cq) :
    Routed (Function.update place wc.wrId (.listed c)) (poll c a h wc cq n) := by
  have hp := poll_polls c a h wc cq hr hcq
  have hnodup : wc.frame ∉ cq.map Wc.frame ∧ (cq.map Wc.frame).Nodup := by
    simpa [hcq] using hr.cqNodup
  obtain ⟨hplace,-,sender,harr⟩ := hr.cq wc (by simp [hcq])
  have hold : ∀ v, place v ≠ .completed wc.frame → v ≠ wc.wrId :=
    fun v hv he => hv (he ▸ hplace)
  constructor
  · intro v hv
    have hidle := hr.fresh v (put_none hh hv)
    rw [Function.update_of_ne (hold v (by rw [hidle]; simp))]
    exact hidle
  · rw [hp.posted]
    exact hr.postedNodup
  · intro v hv
    rw [hp.posted] at hv
    have hposted := hr.posted v hv
    rw [Function.update_of_ne (hold v (by rw [hposted]; simp))]
    exact hposted
  · exact hnodup.2
  · intro v hv
    obtain ⟨hdone,hn,sender,ha⟩ := hr.cq v (by simp [hcq, show v ∈ cq from hv])
    have hne : v.frame ≠ wc.frame := fun he => hnodup.1 (he ▸ List.mem_map_of_mem hv)
    rw [hp.buffer, Function.update_of_ne (hold _ (by rw [hdone]; simpa using hne))]
    exact ⟨hdone,(Function.update_of_ne hne _ _).trans hn,sender,ha⟩
  · intro f hf
    have hlt := (List.getElem?_eq_some_iff.mp harr).1
    have hne : f ≠ wc.frame := by
      have : n.arrived.length ≤ f := hf
      omega
    exact (Function.update_of_ne hne _ _).trans (hr.unarrived f hf)
  · intro d k hk
    by_cases hd : d = c
    · subst hd
      rw [hp.list k hk]
      refine List.nodup_cons.mpr ⟨fun hmem => ?_,hr.listNodup d h hh⟩
      have := (hr.listed d h hh _ hmem).1
      simp [hplace] at this
    · exact hr.listNodup d k ((put_cases hk).resolve_left fun he => hd he.1).2
  · exact fun d k hk v hv => poll_listed hr hh hcq hp
      (fun hd => ((put_cases hk).resolve_left fun he => hd he.1).2) hk hv
  · intro d k hk
    rcases put_cases hk with ⟨rfl,rfl⟩ | ⟨hd,hk⟩
    · have hi : PollerIsolated n d (flowListAdd wc (n.server h)).toHandler :=
        ⟨(hr.isolated d h hh).conveyed,(hr.isolated d h hh).pages⟩
      refine hi.conveys hp.grows (poll_conveys a h wc n) (fun v content hv => ?_)
      obtain ⟨rfl,rfl⟩ := hv
      exact hp.frame
    · exact (hr.isolated d k hk).grows hp.grows

theorem put_routed (c : ℕ) (h : Handler Page) (s : Server Page) (place : ℕ → Place)
    (n : Group Page) (hr : Routed place n) (hh : n.handlers c = some h) (hrw : s.rw = n.rw)
    (hposted : s.posted = n.posted) (hlist : s.commitList = h.commitList)
    (hi : PollerIsolated n c s.toHandler) : Routed place (n.put c s) := by
  have g : Grows n (n.put c s) := ⟨fun _ _ hf => hf,fun _ _ hf => hf⟩
  constructor
  · exact fun v hv => hr.fresh v (put_none hh hv)
  · exact (congrArg List.Nodup hposted).mpr hr.postedNodup
  · exact fun v hv => hr.posted v ((congrArg (v ∈ ·) hposted).mp hv)
  · exact hr.cqNodup
  · intro wc hwc
    have hrw' : (n.put c s).rw = n.rw := hrw
    rw [hrw']
    exact hr.cq wc hwc
  · exact hr.unarrived
  · intro d k hk
    rcases put_cases hk with ⟨rfl,rfl⟩ | ⟨-,hk⟩
    · exact (congrArg List.Nodup hlist).mpr (hr.listNodup d h hh)
    · exact hr.listNodup d k hk
  · intro d k hk v hv
    have hv' : ∃ j, n.handlers d = some j ∧ v ∈ j.commitList := by
      rcases put_cases hk with ⟨rfl,rfl⟩ | ⟨-,hk⟩
      · exact ⟨h,hh,(congrArg (v ∈ ·) hlist).mp hv⟩
      · exact ⟨k,hk,hv⟩
    obtain ⟨j,hj,hv⟩ := hv'
    obtain ⟨hp,hid,hf⟩ := hr.listed d j hj v hv
    change place v = _ ∧ (s.rw v).wc.wrId = v ∧
      PolledFrame _ d (s.rw v).wc.frame (pageOffset (s.rw v).wc.immData) (s.rw v).buffer
    rw [hrw]
    exact ⟨hp,hid,hf.grows g⟩
  · intro d k hk
    rcases put_cases hk with ⟨rfl,rfl⟩ | ⟨-,hk⟩
    · exact hi.grows g
    · exact (hr.isolated d k hk).grows g

theorem PollerIsolated.of_log {n : Group Page} {c : ℕ} {h k : Handler Page}
    (hi : PollerIsolated n c h) (hp : k.pageAt = h.pageAt)
    (hl : ∀ f block byte content, .convey f block byte content ∈ k.log →
      .convey f block byte content ∈ h.log) : PollerIsolated n c k := by
  constructor
  · exact fun f block byte content he => hi.conveyed f block byte content (hl f _ _ _ he)
  · rw [hp]
    exact hi.pages

theorem region_effect (alloc : ℕ → AllocResult) (immData : U32) (src : Wc → Page → Prop)
    (s : Server Page)
    (hsrc : ∀ w ∈ s.commitList, (s.rw w).wc.wrId = w ∧ src (s.rw w).wc (s.rw w).buffer) :
    ∃ t u : Server Page, Conveys src s t ∧
      (commitRegion alloc s).emit (.committed immData) = u ∧
      (∀ w, (u.rw w).wc = (s.rw w).wc ∧ (u.rw w).buffer = (s.rw w).buffer) ∧
      u.posted = s.posted++s.commitList ∧ u.commitList = [] ∧ u.pageAt = t.pageAt ∧
      ∀ f block byte content, .convey f block byte content ∈ u.log →
        .convey f block byte content ∈ t.log := by
  have hc := walk_conveys src alloc s.commitList s hsrc
  generalize ht : commitWalk alloc s.commitList s = t at hc
  have hmap : t.commitList.map (fun w => (t.rw w).wc.wrId) = s.commitList := by
    rw [hc.commitList]
    exact (List.map_congr_left (fun w hw => by rw [hc.wc]; exact (hsrc w hw).1)).trans
      (List.map_id _)
  refine ⟨t,_,hc,rfl,?_,?_,?_,?_,?_⟩
  · intro w
    have hw : (cleared t.commitList t.rw w).wc = (t.rw w).wc ∧
        (cleared t.commitList t.rw w).buffer = (t.rw w).buffer := by
      unfold cleared
      split <;> exact ⟨rfl,rfl⟩
    rw [commitRegion, ht, drain_eq _ t rfl]
    exact ⟨hw.1.trans (hc.wc w),hw.2.trans (hc.buffer w)⟩
  · rw [commitRegion, ht, drain_eq _ t rfl, hmap]
    exact congrArg (·++s.commitList) hc.posted
  · rw [commitRegion, ht, drain_eq _ t rfl]
    rfl
  · rw [commitRegion, ht, drain_eq _ t rfl]
    rfl
  · intro f block byte content he
    rw [commitRegion, ht, drain_eq _ t rfl] at he
    simpa [Server.emit, resetBatch] using he

open Classical in
theorem region_routed (c : ℕ) (alloc : ℕ → AllocResult) (immData : U32) (h : Handler Page)
    (place : ℕ → Place) (n : Group Page) (hr : Routed place n) (hh : n.handlers c = some h) :
    Routed (fun w => if w ∈ h.commitList then .posted else place w)
      (n.put c ((commitRegion alloc (n.server h)).emit (.committed immData))) := by
  have hlisted := hr.listed c h hh
  obtain ⟨t,u,hc,hu,hrw,hposted,hlist,hpages,hlog⟩ := region_effect alloc immData
    (fun wc content => PolledFrame n c wc.frame (pageOffset wc.immData) content)
    (n.server h) (fun w hw => (hlisted w hw).2)
  rw [hu]
  have g : Grows n (n.put c u) := ⟨fun _ _ hf => hf,fun _ _ hf => hf⟩
  have hold : ∀ w, (∀ d, place w = .listed d → d ≠ c) → w ∉ h.commitList :=
    fun w hw hmem => hw c (hlisted w hmem).1 rfl
  constructor
  · intro v hv
    have hp := hr.fresh v (put_none hh hv)
    rw [if_neg (hold v (by rw [hp]; simp))]
    exact hp
  · refine (congrArg List.Nodup hposted).mpr
      (List.nodup_append.mpr ⟨hr.postedNodup,hr.listNodup c h hh,fun v hv w hw he => ?_⟩)
    have := (hlisted w hw).1
    rw [← he, hr.posted v hv] at this
    cases this
  · intro v hv
    rcases List.mem_append.mp ((congrArg (v ∈ ·) hposted).mp hv) with hv | hv
    · have hp := hr.posted v hv
      rw [if_neg (hold v (by rw [hp]; simp))]
      exact hp
    · exact if_pos hv
  · exact hr.cqNodup
  · intro wc hwc
    obtain ⟨hp,hn,sender,ha⟩ := hr.cq wc hwc
    rw [if_neg (hold _ (by rw [hp]; simp))]
    exact ⟨hp,hn,sender,(hrw wc.wrId).2.symm ▸ ha⟩
  · exact hr.unarrived
  · intro d k hk
    rcases put_cases hk with ⟨rfl,rfl⟩ | ⟨-,hk⟩
    · exact (congrArg List.Nodup hlist).mpr List.nodup_nil
    · exact hr.listNodup d k hk
  · intro d k hk v hv
    rcases put_cases hk with ⟨rfl,rfl⟩ | ⟨hd,hk⟩
    · rw [hlist] at hv
      cases hv
    · obtain ⟨hp,hid,hf⟩ := hr.listed d k hk v hv
      change (if v ∈ h.commitList then Place.posted else place v) = _ ∧
        (u.rw v).wc.wrId = v ∧
        PolledFrame _ d (u.rw v).wc.frame (pageOffset (u.rw v).wc.immData) (u.rw v).buffer
      rw [if_neg (hold v (by rw [hp]; rintro e he; cases he; exact hd)), (hrw v).1, (hrw v).2]
      exact ⟨hp,hid,hf.grows g⟩
  · intro d k hk
    rcases put_cases hk with ⟨rfl,rfl⟩ | ⟨-,hk⟩
    · have hi : PollerIsolated n d (n.server h).toHandler := hr.isolated d h hh
      exact (hi.conveys g hc (fun _ _ hf => hf.grows g)).of_log hpages hlog
    · exact (hr.isolated d k hk).grows g

/-! What the thread of a connection does. -/

theorem poll_step {c : ℕ} {a : AllocResult} {n m : Group Page} (hs : step (.poll c a) n = some m) :
    ∃ h wc cq, n.handlers c = some h ∧ n.cq = wc::cq ∧ m = poll c a h wc cq n := by
  cases hh : n.handlers c with
  | none => simp [step, hh] at hs
  | some h =>
    cases hcq : n.cq with
    | nil => simp [step, hh, hcq] at hs
    | cons wc cq =>
      simp only [step, hh, hcq] at hs
      exact ⟨h,wc,cq,rfl,rfl,(Option.some.inj hs).symm⟩

theorem open_step {c : ℕ} {header : U32} {a : AllocResult} {n m : Group Page}
    (hs : step (.openBlock c header a) n = some m) : ∃ h t, n.handlers c = some h ∧
      processRdmaRpcOpen a header (n.server h) = some t ∧ m = n.put c t := by
  cases hh : n.handlers c with
  | none => simp [step, hh] at hs
  | some h =>
    simp only [step, hh, Option.ite_none_right_eq_some, Option.map_eq_some_iff] at hs
    obtain ⟨-,t,ht,rfl⟩ := hs
    exact ⟨h,t,rfl,ht,rfl⟩

theorem commit_step {c : ℕ} {immData : U32} {alloc : ℕ → AllocResult} {n m : Group Page}
    (hs : step (.commit c immData alloc) n = some m) : ∃ h t, n.handlers c = some h ∧
      processRdmaRpcCommit alloc immData (n.server h) = some t ∧ m = n.put c t := by
  cases hh : n.handlers c with
  | none => simp [step, hh] at hs
  | some h =>
    simp only [step, hh, Option.ite_none_right_eq_some, Option.map_eq_some_iff] at hs
    obtain ⟨-,t,ht,rfl⟩ := hs
    exact ⟨h,t,rfl,ht,rfl⟩

theorem step_routed (l : Label Page) (n m : Group Page) (hn : ∃ place, Routed place n)
    (hs : step l n = some m) : ∃ place, Routed place m := by
  obtain ⟨place,hr⟩ := hn
  cases l with
  | connect c buffer rkey =>
    simp only [step, Option.ite_none_right_eq_some] at hs
    exact ⟨_,Option.some.inj hs.2 ▸ connect_routed c buffer rkey place n hr hs.1⟩
  | send c header payload w =>
    simp only [step, Option.ite_none_right_eq_some] at hs
    exact ⟨_,Option.some.inj hs.2 ▸ arrive_routed c header payload w place n hr hs.1.2.2.2⟩
  | poll c a =>
    obtain ⟨h,wc,cq,hh,hcq,rfl⟩ := poll_step hs
    exact ⟨_,poll_routed c a h wc cq place n hr hh hcq⟩
  | openBlock c header a =>
    obtain ⟨h,t,hh,ht,rfl⟩ := open_step hs
    obtain ⟨hpages,hrw,hposted,-,hlist,_,_,hlog⟩ := open_effect header a _ t ht
    have hi : PollerIsolated n c (n.server h).toHandler := hr.isolated c h hh
    exact ⟨place,put_routed c h t place n hr hh hrw hposted hlist
      (hi.of_log hpages (fun f _ _ _ he => by simpa [hlog] using he))⟩
  | commit c immData alloc =>
    obtain ⟨h,t,hh,ht,rfl⟩ := commit_step hs
    have hi : PollerIsolated n c (n.server h).toHandler := hr.isolated c h hh
    unfold processRdmaRpcCommit at ht
    split_ifs at ht
    · obtain rfl := Option.some.inj ht
      exact ⟨place,put_routed c h _ place n hr hh rfl rfl rfl
        (hi.of_log rfl (fun f _ _ _ he => by simpa [Server.emit] using he))⟩
    · obtain rfl := Option.some.inj ht
      exact ⟨_,region_routed c alloc immData h place n hr hh⟩

/-- A step of nobody's thread, or of another connection's, leaves the memory of
a connection as it is. -/
theorem step_other (c : ℕ) (l : Label Page) (n m : Group Page) (hc : (n.handlers c).isSome)
    (hl : l.thread ≠ some c) (hs : step l n = some m) : m.handlers c = n.handlers c := by
  have hput : ∀ d (t : Server Page), d ≠ c → (n.put d t).handlers c = n.handlers c :=
    fun d t hd => Function.update_of_ne (Ne.symm hd) _ _
  cases l with
  | connect d buffer rkey =>
    simp only [step, Option.ite_none_right_eq_some] at hs
    have hd : c ≠ d := fun he => by simp [he, hs.1] at hc
    exact Option.some.inj hs.2 ▸ Function.update_of_ne hd _ _
  | send d header payload w =>
    simp only [step, Option.ite_none_right_eq_some] at hs
    exact Option.some.inj hs.2 ▸ rfl
  | poll d a =>
    obtain ⟨h,wc,cq,-,-,rfl⟩ := poll_step hs
    exact hput d _ fun he => hl (congrArg some he)
  | openBlock d header a =>
    obtain ⟨h,t,-,-,rfl⟩ := open_step hs
    exact hput d t fun he => hl (congrArg some he)
  | commit d immData alloc =>
    obtain ⟨h,t,-,-,rfl⟩ := commit_step hs
    exact hput d t fun he => hl (congrArg some he)

theorem run_other (c : ℕ) {ls : List (Label Page)} {n m : Group Page}
    (hc : (n.handlers c).isSome) (hl : ∀ l ∈ ls, l.thread ≠ some c)
    (h : run step ls n = some m) : m.handlers c = n.handlers c := by
  have hstep : ∀ l k u, k.handlers c = n.handlers c → Label.thread l ≠ some c →
      step l k = some u → u.handlers c = n.handlers c := fun l k u hk hg hs =>
    (step_other c l k u (hk ▸ hc) hg hs).trans hk
  exact @run_invariant _ _ step (fun l _ => Label.thread l ≠ some c) _ hstep ls n m rfl
    (meets_of_forall (fun l hm _ => hl l hm) n) h

def allocated : AllocResult := ⟨some 0,some 1#32⟩

/-- Two clients are connected and client 0 has opened block 0. -/
def connectLabels : List (Label ℕ) :=
  [.connect 0 4096 1#32,.connect 1 8192 2#32,.openBlock 0 (openWord 0#32) allocated]

/-- Client 1 multicasts a frame, and the thread of client 0 polls it. -/
def foreignLabels : List (Label ℕ) := [.send 1 (flowHeader 3#32) 9 0,.poll 0 allocated]

end Maruswap.SharedGroup
