import Maruswap.GuardedRun
import Maruswap.WireFormat
import Mathlib.Data.List.Count

/-!
# Teardown of the server

What the connection managers and the handlers of the library point to, as
connections come in and memblocks are added, and the calls `stop_handlers`
issues. Pointers are numbers, `none` is null; what is created is given a fresh
one. Locks, lists of memblocks and work lists are left out, as nothing of them
is released.
-/

set_option autoImplicit false

namespace Maruswap.Teardown
open WireFormat GuardedRun

structure Memblock where
  buffer : ℕ
  mr : ℕ

structure RdmaMemoryHandler where
  eventChannel : Option ℕ
  rdma : Option ℕ
  memblocks : ℕ → Option Memblock
  rpcBuffer : ℕ
  rpcMr : ℕ

structure MulticastMemoryHandler where
  multicastEventChannel : Option ℕ
  multicast : Option ℕ
  multicastBuffer : Option ℕ
  multicastMr : Option ℕ

structure RdmaConnectionManager where
  eventChannel : Option ℕ
  rdma : Option ℕ
  alive : Bool
  handlers : List RdmaMemoryHandler

structure MulticastConnectionManager where
  multicastEventChannel : Option ℕ
  multicast : Option ℕ
  handler : Option MulticastMemoryHandler

structure Lib where
  rcm : RdmaConnectionManager
  mcm : MulticastConnectionManager
  next : ℕ

/-- The calls that release something, in the order they are issued. -/
inductive Op where
  | destroyEventChannel (p : Option ℕ)
  | destroyId (p : Option ℕ)
  | deregMr (p : Option ℕ)
  | munmap (p : Option ℕ)
  deriving DecidableEq

/-- `if(p) f(p);` -/
def unlessNull (f : Option ℕ → Op) (p : Option ℕ) : List Op := if p.isSome then [f p] else []

/-- The mapping is taken from `mb->mr`. -/
def memblockDie (mb : Memblock) : List Op := [.deregMr (some mb.mr),.munmap (some mb.mr)]

def memblocksDie (rmh : RdmaMemoryHandler) : List Op :=
  (List.range maxMemblock).flatMap fun i => match rmh.memblocks i with
    | some mb => memblockDie mb
    | none => []

/-- The fields set to null here are freed with the handler. -/
def rdmaMemoryHandlerDie (rmh : RdmaMemoryHandler) : List Op :=
  memblocksDie rmh++[.deregMr (some rmh.rpcMr)]++unlessNull .destroyId rmh.rdma++
    unlessNull .destroyEventChannel rmh.eventChannel++[.munmap (some rmh.rpcBuffer)]

def multicastMemoryHandlerDie (mmh : MulticastMemoryHandler) : List Op :=
  unlessNull .deregMr mmh.multicastMr++unlessNull .munmap mmh.multicastBuffer++
    unlessNull .destroyId mmh.multicast++
    unlessNull .destroyEventChannel mmh.multicastEventChannel

def rdmaConnectionDie (s : Lib) : List Op × Lib :=
  (s.rcm.handlers.flatMap rdmaMemoryHandlerDie++unlessNull .destroyId s.rcm.rdma++
    unlessNull .destroyEventChannel s.rcm.eventChannel,
    { s with rcm := ⟨none,none,false,[]⟩ })

def multicastConnectionDie (s : Lib) : List Op × Lib :=
  ([.destroyEventChannel s.mcm.multicastEventChannel,.destroyId s.mcm.multicast]++
    match s.mcm.handler with
      | some mmh => multicastMemoryHandlerDie mmh
      | none => [],
    { s with
      rcm := { s.rcm with alive := false }
      mcm := { s.mcm with multicastEventChannel := none, multicast := none } })

def stopHandlers (s : Lib) : List Op × Lib :=
  let r := rdmaConnectionDie s
  let m := multicastConnectionDie r.2
  (r.1++m.1,m.2)

/-- The id came with the event; memblock 0 is allocated at once. -/
def allocRdmaMemoryHandler (s : Lib) : RdmaMemoryHandler where
  eventChannel := s.rcm.eventChannel
  rdma := some s.next
  memblocks := Function.update (fun _ => none) 0 (some ⟨s.next+1,s.next+2⟩)
  rpcBuffer := s.next+3
  rpcMr := s.next+4

def allocMulticastMemoryHandler (s : Lib) : MulticastMemoryHandler where
  multicastEventChannel := s.mcm.multicastEventChannel
  multicast := s.mcm.multicast
  multicastBuffer := some (s.next+5)
  multicastMr := some (s.next+6)

def initHandlers (s : Lib) : Lib where
  rcm := { s.rcm with handlers := s.rcm.handlers++[allocRdmaMemoryHandler s] }
  mcm := { s.mcm with handler := some (allocMulticastMemoryHandler s) }
  next := s.next+7

/-- `allocated` if both the mapping and the registration succeed. -/
def addMemblock (allocated : Bool) (id n : ℕ) (rmh : RdmaMemoryHandler) : RdmaMemoryHandler :=
  if (rmh.memblocks id).isSome then rmh
  else if allocated then
    { rmh with memblocks := Function.update rmh.memblocks id (some ⟨n,n+1⟩) }
  else rmh

inductive Label where
  | connect
  | add (i id : ℕ) (allocated : Bool)

/-- The calls that succeed; `add` is for the blocks allocated in advance, for
OPEN and for the first page of a block. -/
def step : Label → Lib → Option Lib
  | .connect, s => some (initHandlers s)
  | .add i id allocated, s =>
    if id < maxMemblock then (s.rcm.handlers[i]?).map fun rmh =>
      { s with
        rcm := { s.rcm with
          handlers := s.rcm.handlers.set i (addMemblock allocated id s.next rmh) }
        next := s.next+2 }
    else none

/-- After `ib_rdma_server_connect` and `ib_connect_multicast`. -/
def initServer : Lib := ⟨⟨some 0,some 1,true,[]⟩,⟨some 2,some 3,none⟩,4⟩

/-- Nothing is destroyed twice, and every memblock is unmapped once. -/
structure ReleasesOnce (s : Lib) (ops : List Op) : Prop where
  channels : ∀ p, ops.count (.destroyEventChannel (some p)) ≤ 1
  ids : ∀ p, ops.count (.destroyId (some p)) ≤ 1
  mrs : ∀ p, ops.count (.deregMr (some p)) ≤ 1
  buffers : ∀ rmh ∈ s.rcm.handlers, ∀ i mb, rmh.memblocks i = some mb →
    ops.count (.munmap (some mb.buffer)) = 1

/-- The event channel goes once with every handler and once more, the multicast
id and its channel go twice, and no memblock is unmapped. -/
structure ReleasesTwice (s : Lib) (ops : List Op) : Prop where
  channel : ops.count (.destroyEventChannel s.rcm.eventChannel) = s.rcm.handlers.length+1
  multicastChannel : ops.count (.destroyEventChannel s.mcm.multicastEventChannel) = 2
  multicast : ops.count (.destroyId s.mcm.multicast) = 2
  buffers : ∀ rmh ∈ s.rcm.handlers, ∀ i mb, rmh.memblocks i = some mb →
    ops.count (.munmap (some mb.buffer)) = 0

def RdmaMemoryHandler.Maps (rmh : RdmaMemoryHandler) (p : ℕ) : Prop :=
  ∃ i mb, rmh.memblocks i = some mb ∧ mb.buffer = p

/-- The addresses `rdma_memory_handler_die` unmaps. -/
def RdmaMemoryHandler.Unmaps (rmh : RdmaMemoryHandler) (p : ℕ) : Prop :=
  rmh.rpcBuffer = p ∨ ∃ i mb, rmh.memblocks i = some mb ∧ mb.mr = p

def Maps (s : Lib) (p : ℕ) : Prop := ∃ rmh ∈ s.rcm.handlers, rmh.Maps p

def Unmaps (s : Lib) (p : ℕ) : Prop :=
  (∃ rmh ∈ s.rcm.handlers, rmh.Unmaps p) ∨
    ∃ mmh, s.mcm.handler = some mmh ∧ mmh.multicastBuffer = some p

/-- Which pointers are copies of each other, and which are not. -/
structure Connected (s : Lib) : Prop where
  eventChannel : s.rcm.eventChannel ≠ none
  multicastEventChannel : s.mcm.multicastEventChannel ≠ none
  multicast : s.mcm.multicast ≠ none
  channelsApart : s.rcm.eventChannel ≠ s.mcm.multicastEventChannel
  listenerApart : s.rcm.rdma ≠ s.mcm.multicast
  channels : ∀ rmh ∈ s.rcm.handlers, rmh.eventChannel = s.rcm.eventChannel
  idsApart : ∀ rmh ∈ s.rcm.handlers, rmh.rdma ≠ s.mcm.multicast
  handler : s.rcm.handlers ≠ [] → ∃ mmh, s.mcm.handler = some mmh ∧
    mmh.multicast = s.mcm.multicast ∧ mmh.multicastEventChannel = s.mcm.multicastEventChannel
  mapsApart : ∀ p, Maps s p → ¬Unmaps s p

/-- What is not yet given out. -/
structure Fresh (s : Lib) : Prop where
  multicast : ∀ p, s.mcm.multicast = some p → p < s.next
  maps : ∀ p, Maps s p → p < s.next
  unmaps : ∀ p, Unmaps s p → p < s.next

theorem init_connected : Connected initServer := by
  constructor <;> simp [initServer, Maps]

theorem init_fresh : Fresh initServer := by
  constructor <;> simp [initServer, Maps, Unmaps]

theorem connect_maps {s : Lib} {p : ℕ} (h : Maps (initHandlers s) p) : Maps s p ∨ p = s.next+1 := by
  obtain ⟨rmh,hmem,hp⟩ := h
  rcases List.mem_append.mp hmem with hmem | hmem
  · exact .inl ⟨rmh,hmem,hp⟩
  · rw [List.mem_singleton] at hmem
    subst hmem
    obtain ⟨i,mb,hmb,rfl⟩ := hp
    by_cases hi : i = 0
    · subst hi
      obtain rfl : mb = ⟨s.next+1,s.next+2⟩ := by simpa [allocRdmaMemoryHandler] using hmb.symm
      exact .inr rfl
    · simp [allocRdmaMemoryHandler, hi] at hmb

theorem connect_unmaps {s : Lib} {p : ℕ} (h : Unmaps (initHandlers s) p) :
    Unmaps s p ∨ p = s.next+2 ∨ p = s.next+3 ∨ p = s.next+5 := by
  rcases h with ⟨rmh,hmem,hp⟩ | ⟨mmh,hmmh,hp⟩
  · rcases List.mem_append.mp hmem with hmem | hmem
    · exact .inl (.inl ⟨rmh,hmem,hp⟩)
    · rw [List.mem_singleton] at hmem
      subst hmem
      rcases hp with hp | ⟨i,mb,hmb,rfl⟩
      · exact .inr (.inr (.inl hp.symm))
      · by_cases hi : i = 0
        · subst hi
          obtain rfl : mb = ⟨s.next+1,s.next+2⟩ := by
            simpa [allocRdmaMemoryHandler] using hmb.symm
          exact .inr (.inl rfl)
        · simp [allocRdmaMemoryHandler, hi] at hmb
  · obtain rfl := Option.some.inj hmmh
    exact .inr (.inr (.inr (Option.some.inj hp).symm))

theorem connect_connected {s : Lib} (h : Connected s) (hf : Fresh s) :
    Connected (initHandlers s) := by
  constructor
  · exact h.eventChannel
  · exact h.multicastEventChannel
  · exact h.multicast
  · exact h.channelsApart
  · exact h.listenerApart
  · intro rmh hmem
    rcases List.mem_append.mp hmem with hmem | hmem
    · exact h.channels rmh hmem
    · rw [List.mem_singleton] at hmem
      exact hmem ▸ rfl
  · intro rmh hmem
    rcases List.mem_append.mp hmem with hmem | hmem
    · exact h.idsApart rmh hmem
    · rw [List.mem_singleton] at hmem
      subst hmem
      intro he
      exact absurd (hf.multicast s.next he.symm) (Nat.lt_irrefl _)
  · exact fun _ => ⟨_,rfl,rfl,rfl⟩
  · intro p hm hu
    rcases connect_maps hm with hm | rfl
    · have hlt := hf.maps p hm
      rcases connect_unmaps hu with hu | hp
      · exact h.mapsApart p hm hu
      · omega
    · rcases connect_unmaps hu with hu | hp
      · have hlt := hf.unmaps _ hu
        omega
      · omega

theorem connect_fresh {s : Lib} (hf : Fresh s) : Fresh (initHandlers s) := by
  constructor
  · intro p hp
    have hlt := hf.multicast p hp
    show p < s.next+7
    omega
  · intro p hp
    show p < s.next+7
    rcases connect_maps hp with hp | hp
    · have hlt := hf.maps p hp
      omega
    · omega
  · intro p hp
    show p < s.next+7
    rcases connect_unmaps hp with hp | hp
    · have hlt := hf.unmaps p hp
      omega
    · omega

theorem add_memblocks {allocated : Bool} {id n i : ℕ} {rmh : RdmaMemoryHandler} {mb : Memblock}
    (h : (addMemblock allocated id n rmh).memblocks i = some mb) :
    rmh.memblocks i = some mb ∨ mb = ⟨n,n+1⟩ := by
  unfold addMemblock at h
  split_ifs at h
  · exact .inl h
  · by_cases hi : i = id
    · subst hi
      exact .inr (by simpa using h.symm)
    · exact .inl (by simpa [hi] using h)
  · exact .inl h

theorem add_keeps (allocated : Bool) (id n : ℕ) (rmh : RdmaMemoryHandler) :
    (addMemblock allocated id n rmh).eventChannel = rmh.eventChannel ∧
    (addMemblock allocated id n rmh).rdma = rmh.rdma ∧
    (addMemblock allocated id n rmh).rpcBuffer = rmh.rpcBuffer := by
  unfold addMemblock
  split_ifs <;> exact ⟨rfl,rfl,rfl⟩

theorem add_maps {s : Lib} {rmh : RdmaMemoryHandler} {i id p : ℕ} {allocated : Bool}
    (hmem : rmh ∈ s.rcm.handlers)
    (h : ∃ r ∈ s.rcm.handlers.set i (addMemblock allocated id s.next rmh), r.Maps p) :
    Maps s p ∨ p = s.next := by
  obtain ⟨r,hr,j,mb,hmb,rfl⟩ := h
  rcases List.mem_or_eq_of_mem_set hr with hr | rfl
  · exact .inl ⟨r,hr,j,mb,hmb,rfl⟩
  · rcases add_memblocks hmb with hmb | rfl
    · exact .inl ⟨rmh,hmem,j,mb,hmb,rfl⟩
    · exact .inr rfl

theorem add_unmaps {s : Lib} {rmh : RdmaMemoryHandler} {i id p : ℕ} {allocated : Bool}
    (hmem : rmh ∈ s.rcm.handlers)
    (h : (∃ r ∈ s.rcm.handlers.set i (addMemblock allocated id s.next rmh), r.Unmaps p) ∨
      ∃ mmh, s.mcm.handler = some mmh ∧ mmh.multicastBuffer = some p) :
    Unmaps s p ∨ p = s.next+1 := by
  rcases h with ⟨r,hr,hp⟩ | hp
  · rcases List.mem_or_eq_of_mem_set hr with hr | rfl
    · exact .inl (.inl ⟨r,hr,hp⟩)
    · rcases hp with hp | ⟨j,mb,hmb,rfl⟩
      · exact .inl (.inl ⟨rmh,hmem,.inl ((add_keeps allocated id s.next rmh).2.2 ▸ hp)⟩)
      · rcases add_memblocks hmb with hmb | rfl
        · exact .inl (.inl ⟨rmh,hmem,.inr ⟨j,mb,hmb,rfl⟩⟩)
        · exact .inr rfl
  · exact .inl (.inr hp)

theorem add_connected {s : Lib} {rmh : RdmaMemoryHandler} (i id : ℕ) (allocated : Bool)
    (h : Connected s) (hf : Fresh s) (hmem : rmh ∈ s.rcm.handlers) :
    Connected { s with
      rcm := { s.rcm with
        handlers := s.rcm.handlers.set i (addMemblock allocated id s.next rmh) }
      next := s.next+2 } := by
  obtain ⟨hchannel,hid,-⟩ := add_keeps allocated id s.next rmh
  constructor
  · exact h.eventChannel
  · exact h.multicastEventChannel
  · exact h.multicast
  · exact h.channelsApart
  · exact h.listenerApart
  · intro r hr
    rcases List.mem_or_eq_of_mem_set hr with hr | rfl
    · exact h.channels r hr
    · exact hchannel.trans (h.channels rmh hmem)
  · intro r hr
    rcases List.mem_or_eq_of_mem_set hr with hr | rfl
    · exact h.idsApart r hr
    · exact hid ▸ h.idsApart rmh hmem
  · exact fun _ => h.handler (List.ne_nil_of_mem hmem)
  · intro p hm hu
    rcases add_maps hmem hm with hm | rfl
    · have hlt := hf.maps p hm
      rcases add_unmaps hmem hu with hu | rfl
      · exact h.mapsApart p hm hu
      · omega
    · rcases add_unmaps hmem hu with hu | hp
      · have hlt := hf.unmaps _ hu
        omega
      · omega

theorem add_fresh {s : Lib} {rmh : RdmaMemoryHandler} (i id : ℕ) (allocated : Bool)
    (hf : Fresh s) (hmem : rmh ∈ s.rcm.handlers) :
    Fresh { s with
      rcm := { s.rcm with
        handlers := s.rcm.handlers.set i (addMemblock allocated id s.next rmh) }
      next := s.next+2 } := by
  constructor
  · intro p hp
    have hlt := hf.multicast p hp
    show p < s.next+2
    omega
  · intro p hp
    show p < s.next+2
    rcases add_maps hmem hp with hp | hp
    · have hlt := hf.maps p hp
      omega
    · omega
  · intro p hp
    show p < s.next+2
    rcases add_unmaps hmem hp with hp | hp
    · have hlt := hf.unmaps p hp
      omega
    · omega

theorem step_connected (l : Label) (s t : Lib) (h : Connected s ∧ Fresh s)
    (hs : step l s = some t) : Connected t ∧ Fresh t := by
  cases l with
  | connect =>
    exact Option.some.inj hs ▸ ⟨connect_connected h.1 h.2,connect_fresh h.2⟩
  | add i id allocated =>
    obtain ⟨-,hs⟩ := Option.ite_none_right_eq_some.mp hs
    obtain ⟨rmh,hrmh,rfl⟩ := Option.map_eq_some_iff.mp hs
    have hmem : rmh ∈ s.rcm.handlers := List.mem_of_getElem? hrmh
    exact ⟨add_connected i id allocated h.1 h.2 hmem,add_fresh i id allocated h.2 hmem⟩

theorem run_connected {ls : List Label} {s : Lib} (h : run step ls initServer = some s) :
    Connected s :=
  (run_induction step_connected ⟨init_connected,init_fresh⟩ h).1

theorem flat_map_count {α β : Type*} [DecidableEq β] (l : List α) (f : α → List β) (b : β)
    (k : ℕ) (h : ∀ a ∈ l, (f a).count b = k) : (l.flatMap f).count b = l.length*k := by
  induction l with
  | nil => simp
  | cons a l ih =>
    rw [List.flatMap_cons, List.count_append, h a (by simp), ih fun c hc => h c (by simp [hc]),
      List.length_cons, Nat.succ_mul, Nat.add_comm]

theorem unless_null_count (f : Option ℕ → Op) (p : Option ℕ) (op : Op) :
    (unlessNull f p).count op = if p.isSome ∧ f p = op then 1 else 0 := by
  unfold unlessNull
  by_cases hp : p.isSome
  · by_cases hf : f p = op
    · simp [hp, hf]
    · simp [hp, hf]
  · simp [hp]

theorem memblocks_die_mem {rmh : RdmaMemoryHandler} {op : Op} (h : op ∈ memblocksDie rmh) :
    ∃ i mb, rmh.memblocks i = some mb ∧
      (op = .deregMr (some mb.mr) ∨ op = .munmap (some mb.mr)) := by
  obtain ⟨i,-,hi⟩ := List.mem_flatMap.mp h
  cases hmb : rmh.memblocks i with
  | none => simp [hmb] at hi
  | some mb => exact ⟨i,mb,hmb,by simpa [hmb, memblockDie] using hi⟩

theorem memblocks_die_count {rmh : RdmaMemoryHandler} {op : Op} (hm : ∀ p, op ≠ .deregMr p)
    (hu : ∀ p, op ≠ .munmap p) : (memblocksDie rmh).count op = 0 := by
  refine List.count_eq_zero.mpr fun h => ?_
  obtain ⟨i,mb,-,hop | hop⟩ := memblocks_die_mem h
  · exact hm _ hop
  · exact hu _ hop

theorem rmh_die_destroys (rmh : RdmaMemoryHandler) {op : Op} (hm : ∀ p, op ≠ .deregMr p)
    (hu : ∀ p, op ≠ .munmap p) : (rdmaMemoryHandlerDie rmh).count op =
      (if rmh.rdma.isSome ∧ .destroyId rmh.rdma = op then 1 else 0)+
        if rmh.eventChannel.isSome ∧ .destroyEventChannel rmh.eventChannel = op then 1 else 0 := by
  have hmem := @memblocks_die_count rmh op hm hu
  have hmr : Op.deregMr (some rmh.rpcMr) ≠ op := (hm _).symm
  have hbuffer : Op.munmap (some rmh.rpcBuffer) ≠ op := (hu _).symm
  unfold rdmaMemoryHandlerDie
  simp [hmem, unless_null_count, hmr, hbuffer]

theorem rmh_die_unmaps {rmh : RdmaMemoryHandler} {p : ℕ} (h : ¬rmh.Unmaps p) :
    (rdmaMemoryHandlerDie rmh).count (.munmap (some p)) = 0 := by
  have hmem : (memblocksDie rmh).count (.munmap (some p)) = 0 := by
    refine List.count_eq_zero.mpr fun hm => ?_
    obtain ⟨i,mb,hmb,hop⟩ := memblocks_die_mem hm
    exact h (.inr ⟨i,mb,hmb,by simpa [eq_comm] using hop⟩)
  have hbuffer : rmh.rpcBuffer ≠ p := fun hp => h (.inl hp)
  unfold rdmaMemoryHandlerDie
  simp [hmem, unless_null_count, hbuffer]

theorem stop_handlers_ops {s : Lib} {mmh : MulticastMemoryHandler}
    (h : s.mcm.handler = some mmh) : (stopHandlers s).1 =
      s.rcm.handlers.flatMap rdmaMemoryHandlerDie++unlessNull .destroyId s.rcm.rdma++
        unlessNull .destroyEventChannel s.rcm.eventChannel++
        ([.destroyEventChannel s.mcm.multicastEventChannel,.destroyId s.mcm.multicast]++
          multicastMemoryHandlerDie mmh) := by
  simp only [stopHandlers, rdmaConnectionDie, multicastConnectionDie, h]

theorem Connected.releases_twice {s : Lib} (h : Connected s) (hn : s.rcm.handlers ≠ []) :
    ReleasesTwice s (stopHandlers s).1 := by
  obtain ⟨mmh,hmmh,hmulticast,hchannel⟩ := h.handler hn
  obtain ⟨ch,hch⟩ := Option.ne_none_iff_exists'.mp h.eventChannel
  obtain ⟨mc,hmc⟩ := Option.ne_none_iff_exists'.mp h.multicastEventChannel
  obtain ⟨id,hid⟩ := Option.ne_none_iff_exists'.mp h.multicast
  rw [stop_handlers_ops hmmh]
  constructor
  · have hrmh : ∀ rmh ∈ s.rcm.handlers,
        (rdmaMemoryHandlerDie rmh).count (.destroyEventChannel (some ch)) = 1 := by
      intro rmh hmem
      rw [rmh_die_destroys rmh (by simp) (by simp), h.channels rmh hmem, hch]
      simp
    have hne : ch ≠ mc := fun he => h.channelsApart (by rw [hch, hmc, he])
    rw [hch, List.count_append, List.count_append, List.count_append,
      flat_map_count _ _ _ 1 hrmh]
    simp [multicastMemoryHandlerDie, unless_null_count, hchannel, hmc, hne.symm]
  · have hrmh : ∀ rmh ∈ s.rcm.handlers,
        (rdmaMemoryHandlerDie rmh).count (.destroyEventChannel (some mc)) = 0 := by
      intro rmh hmem
      rw [rmh_die_destroys rmh (by simp) (by simp), h.channels rmh hmem]
      have hne : s.rcm.eventChannel ≠ some mc := fun he => h.channelsApart (he.trans hmc.symm)
      simp [hne]
    have hne : ch ≠ mc := fun he => h.channelsApart (by rw [hch, hmc, he])
    rw [hmc, List.count_append, List.count_append, List.count_append,
      flat_map_count _ _ _ 0 hrmh]
    simp [multicastMemoryHandlerDie, unless_null_count, hchannel, hmc, hch, hne]
  · have hrmh : ∀ rmh ∈ s.rcm.handlers,
        (rdmaMemoryHandlerDie rmh).count (.destroyId (some id)) = 0 := by
      intro rmh hmem
      rw [rmh_die_destroys rmh (by simp) (by simp)]
      have hne : rmh.rdma ≠ some id := fun he => h.idsApart rmh hmem (he.trans hid.symm)
      simp [hne]
    have hne : s.rcm.rdma ≠ some id := fun he => h.listenerApart (he.trans hid.symm)
    rw [hid, List.count_append, List.count_append, List.count_append,
      flat_map_count _ _ _ 0 hrmh]
    simp [multicastMemoryHandlerDie, unless_null_count, hmulticast, hid, hne]
  · intro rmh hmem i mb hmb
    have hunmaps := h.mapsApart mb.buffer ⟨rmh,hmem,i,mb,hmb,rfl⟩
    have hrmh : ∀ r ∈ s.rcm.handlers,
        (rdmaMemoryHandlerDie r).count (.munmap (some mb.buffer)) = 0 :=
      fun r hr => rmh_die_unmaps fun hu => hunmaps (.inl ⟨r,hr,hu⟩)
    have hne : mmh.multicastBuffer ≠ some mb.buffer := fun he => hunmaps (.inr ⟨mmh,hmmh,he⟩)
    rw [List.count_append, List.count_append, List.count_append, flat_map_count _ _ _ 0 hrmh]
    simp [multicastMemoryHandlerDie, unless_null_count, hne]

/-- With any number of handlers, but none, and any memblocks `stop_handlers`
releases what they share again and again. -/
theorem teardown_repeats (ls : List Label) (s : Lib) (h : run step ls initServer = some s)
    (hn : s.rcm.handlers ≠ []) :
    ¬ReleasesOnce s (stopHandlers s).1 ∧ ReleasesTwice s (stopHandlers s).1 := by
  have hc := run_connected h
  have ht := hc.releases_twice hn
  refine ⟨fun ho => ?_,ht⟩
  obtain ⟨mc,hmc⟩ := Option.ne_none_iff_exists'.mp hc.multicastEventChannel
  have hle := ho.channels mc
  rw [← hmc, ht.multicastChannel] at hle
  omega

/-- Two handlers, one of them with a second memblock. -/
def twoHandlers : List Label := [.connect,.connect,.add 1 5 true]

theorem teardown_repeats_sample : ∃ s, run step twoHandlers initServer = some s ∧
    s.rcm.handlers.length = 2 ∧ ReleasesTwice s (stopHandlers s).1 := by
  obtain ⟨s,hs⟩ : ∃ s, run step twoHandlers initServer = some s := ⟨_,rfl⟩
  have hlen : s.rcm.handlers.length = 2 := Option.some.inj hs ▸ rfl
  have hn : s.rcm.handlers ≠ [] := fun he => by simp [he] at hlen
  exact ⟨s,hs,hlen,(teardown_repeats twoHandlers s hs hn).2⟩

/-- One handler with its first memblock: both event channels and the multicast
id go twice, and the memblock's own address is not unmapped. -/
theorem torn_down_twice :
    (¬ ∀ ls s, run step ls initServer = some s → s.rcm.handlers ≠ [] →
      ReleasesOnce s (stopHandlers s).1) ∧
    ∃ s, run step [.connect] initServer = some s ∧
      (stopHandlers s).1 = [.deregMr (some 6),.munmap (some 6),.deregMr (some 8),
        .destroyId (some 4),.destroyEventChannel (some 0),.munmap (some 7),
        .destroyId (some 1),.destroyEventChannel (some 0),.destroyEventChannel (some 2),
        .destroyId (some 3),.deregMr (some 10),.munmap (some 9),.destroyId (some 3),
        .destroyEventChannel (some 2)] := by
  have hops : (stopHandlers (initHandlers initServer)).1 =
      [.deregMr (some 6),.munmap (some 6),.deregMr (some 8),.destroyId (some 4),
        .destroyEventChannel (some 0),.munmap (some 7),.destroyId (some 1),
        .destroyEventChannel (some 0),.destroyEventChannel (some 2),.destroyId (some 3),
        .deregMr (some 10),.munmap (some 9),.destroyId (some 3),
        .destroyEventChannel (some 2)] := by decide +kernel
  refine ⟨fun h => ?_,initHandlers initServer,rfl,hops⟩
  have hle := (h [.connect] _ rfl (by simp [initHandlers])).channels 0
  rw [hops] at hle
  exact absurd hle (by decide)

end Maruswap.Teardown
