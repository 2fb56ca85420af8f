import Maruswap.GuardedRun
import Maruswap.ServerHandlers

/-!
# Publishing a memblock

`add_memblock` tests an entry of `memblocks` and assigns it later. OPEN runs it
under `memblock_lock`, FLOW and COMMIT under `mmh->lock`; each test and each
assignment is a step of its own here. The assignments made, the replies of OPEN
and the buffers pages were copied to are ghosts.
-/

set_option autoImplicit false

namespace Maruswap.PublishedBlocks
open WireFormat ServerHandlers GuardedRun

variable {Page : Type*}

/-- `rdma_memory_thread` and `multicast_memory_thread`, one of each. -/
inductive Thread where
  | rdma
  | multicast
  deriving DecidableEq

/-- What a thread needs the block for: the reply of an OPEN, the page of a FLOW
frame, or a page that a commit found unconveyed. -/
inductive Job where
  | opening (header : U32)
  | flow (wc : Wc) (byte : ℕ)
  | commit (immData : U32) (wc : Wc) (byte : ℕ) (todo : List ℕ)

/-- The next thing a thread does. From `test` to `finish` it provides block `n`:
the test of the caller, the test, the allocation and the assignment of
`add_memblock`, and the use of the entry. -/
inductive Pc where
  | idle
  | received (wc : Wc)
  | waiting (immData : U32)
  | locking (immData : U32)
  | walking (immData : U32) (todo : List ℕ)
  | draining (immData : U32)
  | test (j : Job) (n : ℕ)
  | add (j : Job) (n : ℕ)
  | alloc (j : Job) (n : ℕ)
  | assign (j : Job) (n buffer : ℕ) (rkey : U32)
  | finish (j : Job) (n : ℕ)

def Pc.isIdle : Pc → Bool
  | .idle => true
  | _ => false

/-- An address and a key that stand for a block. -/
structure Entry where
  block : ℕ
  buffer : ℕ
  rkey : U32
  deriving DecidableEq

structure Handlers (Page : Type*) extends Server Page where
  pc : Thread → Pc
  lock : Option Thread
  assigned : List Entry
  opened : List Entry
  copies : List (ℕ × ℕ)

inductive Label (Page : Type*) where
  | flow (header : U32) (payload : Page) (w : ℕ)
  | openBlock (header : U32)
  | commit (immData : U32)
  | run (t : Thread) (a : AllocResult)

namespace Handlers

def goto (s : Handlers Page) (t : Thread) (p : Pc) : Handlers Page :=
  { s with pc := Function.update s.pc t p }

end Handlers

/-- The header is decoded, which never fails, and the block is tested first. -/
def beginJob (header : U32) (j : ℕ → Job) : Option Pc :=
  (interpretHeader header).map fun hd => .test (j (byteOffset hd.offset)) hd.nrBlock

/-- Without memory an OPEN goes on to read the entry, a FLOW handler returns, and
a commit unlocks and leaves its walk. -/
def failJob (t : Thread) (n : ℕ) (s : Handlers Page) : Job → Handlers Page
  | .opening header => s.goto t (.finish (.opening header) n)
  | .flow _ _ => { s.goto t .idle with lock := none }
  | .commit immData _ _ _ => { s.goto t (.draining immData) with lock := none }

section Step
variable [Zero Page]

def assignBlock (e : Entry) (s : Handlers Page) : Handlers Page :=
  { s with
    memblocks := Function.update s.memblocks e.block
      (some ⟨e.block,e.buffer,e.rkey,fun _ => 0⟩)
    memblockList := s.memblockList++[e.block]
    assigned := e::s.assigned }

/-- The entry is read; there is no outcome while it is NULL. -/
def finishJob (t : Thread) (n : ℕ) (s : Handlers Page) (j : Job) : Option (Handlers Page) :=
  (s.memblocks n).map fun mb => match j with
    | .opening header => Handlers.goto { s with
        toServer := s.emit (.opened header mb.buffer mb.rkey)
        opened := ⟨n,mb.buffer,mb.rkey⟩::s.opened } t .idle
    | .flow wc byte => Handlers.goto { s with
        toServer := copyPage wc n byte s.toServer
        copies := (n,mb.buffer)::s.copies
        lock := none } t .idle
    | .commit immData wc byte todo => Handlers.goto { s with
        toServer := copyPage wc n byte s.toServer
        copies := (n,mb.buffer)::s.copies } t (.walking immData todo)

def advance (t : Thread) (a : AllocResult) (s : Handlers Page) : Option (Handlers Page) :=
  match s.pc t with
  | .idle => none
  | .received wc =>
    if s.lock = none then
      if (s.rw wc.wrId).convey then some (s.goto t .idle)
      else (beginJob wc.immData (.flow wc)).map fun p => { s.goto t p with lock := some t }
    else none
  | .waiting immData =>
    if commitNeed immData ≤ s.batch then some (s.goto t (.locking immData)) else none
  | .locking immData =>
    if s.lock = none then some { s.goto t (.walking immData s.commitList) with lock := some t }
    else none
  | .walking immData [] => some (s.goto t (.draining immData))
  | .walking immData (w::ws) =>
    if (s.rw w).convey then some (s.goto t (.walking immData ws))
    else (beginJob (s.rw w).wc.immData
      (fun byte => .commit immData (s.rw w).wc byte ws)).map (s.goto t)
  | .draining immData => some (Handlers.goto { s with
      toServer := (resetBatch (drain s.commitList s.toServer)).emit (.committed immData)
      lock := none } t .idle)
  | .test j n => some (s.goto t (if (s.memblocks n).isSome then .finish j n else .add j n))
  | .add j n => some (s.goto t (if (s.memblocks n).isSome then .finish j n else .alloc j n))
  | .alloc j n => match a.mmap, a.regMr with
    | some buffer, some rkey => some (s.goto t (.assign j n buffer rkey))
    | _, _ => some (failJob t n s j)
  | .assign j n buffer rkey => some ((assignBlock ⟨n,buffer,rkey⟩ s).goto t (.finish j n))
  | .finish j n => finishJob t n s j

def step : Label Page → Handlers Page → Option (Handlers Page)
  | .flow header payload w, s =>
    if (s.pc .multicast).isIdle ∧ ibGetOpcode header = multicastOpcodeFlow ∧ InTable header ∧
        w ∈ s.posted then
      some (Handlers.goto { s with
        toServer := flowListAdd ⟨header,w,0⟩ (deliver w payload s.toServer) }
        .multicast (.received ⟨header,w,0⟩))
    else none
  | .openBlock header, s =>
    if (s.pc .rdma).isIdle ∧ ibGetOpcode header = opcodeOpen ∧ InTable header then
      (beginJob header fun _ => .opening header).map (s.goto .rdma)
    else none
  | .commit immData, s =>
    if (s.pc .rdma).isIdle ∧
        (ibGetOpcode immData = opcodeCommit ∨ ibGetOpcode immData = opcodeQcommit) then
      some (if s.commitList = [] then { s with toServer := s.emit (.committed immData) }
        else s.goto .rdma (.waiting immData))
    else none
  | .run t a, s => advance t a s

/-- Block 0 has been assigned by `alloc_rdma_memory_handler`. -/
def initHandlers (buffer : ℕ) (rkey : U32) : Handlers Page where
  toServer := initServer buffer rkey
  pc := fun _ => .idle
  lock := none
  assigned := [⟨0,buffer,rkey⟩]
  opened := []
  copies := []

end Step

def published (s : Server Page) (n : ℕ) : Option (ℕ × U32) :=
  (s.memblocks n).map fun mb => (mb.buffer,mb.rkey)

/-- Between the test of `add_memblock` and the assignment of block `n`. -/
def Adding (n : ℕ) : Pc → Prop
  | .alloc _ m => m = n
  | .assign _ m _ _ => m = n
  | _ => False

def Pc.testing : Pc → Option ℕ
  | .add _ n => some n
  | _ => none

def Thread.other : Thread → Thread
  | .rdma => .multicast
  | .multicast => .rdma

/-- A thread's `add_memblock` does not find a block missing while the other
thread is between its own test and its assignment of that block. -/
def Apart : Label Page → Handlers Page → Prop
  | .run t _, s => ∀ n ∈ (s.pc t).testing, s.memblocks n = none →
    ¬ Adding n (s.pc t.other)
  | _, _ => True

instance (n : ℕ) (p : Pc) : Decidable (Adding n p) := by
  cases p <;> first | exact Nat.decEq _ _ | exact .isFalse id

instance (l : Label Page) (s : Handlers Page) : Decidable (Apart l s) :=
  match l with
  | .run t _ => inferInstanceAs (Decidable (∀ n ∈ (s.pc t).testing, s.memblocks n = none →
      ¬ Adding n (s.pc t.other)))
  | .flow _ _ _ => .isTrue trivial
  | .openBlock _ => .isTrue trivial
  | .commit _ => .isTrue trivial

theorem published_eq {s u : Server Page} (h : u.memblocks = s.memblocks) :
    published u = published s := by
  funext n
  rw [published, published, h]

theorem copy_published [Zero Page] (wc : Wc) (n byte : ℕ) (s : Server Page) :
    published (copyPage wc n byte s) = published s := by
  funext m
  by_cases h : m = n
  · subst h
    simp [published, copyPage, Option.map_map, Function.comp_def]
  · simp [published, copyPage, h]

theorem drain_published (s : Server Page) :
    published (drain s.commitList s) = published s := by
  rw [drain_eq s.commitList s rfl]
  exact published_eq rfl

/-- A block has been assigned as often as it is published, and everything sent or
copied is what is published. -/
structure Fixed (s : Handlers Page) : Prop where
  once : ∀ n, s.assigned.filter (fun e => e.block = n) =
    ((published s.toServer n).map fun b => (⟨n,b.1,b.2⟩ : Entry)).toList
  opened : ∀ e ∈ s.opened, published s.toServer e.block = some (e.buffer,e.rkey)
  copied : ∀ e ∈ s.copies, ∃ rkey, published s.toServer e.1 = some (e.2,rkey)
  adding : ∀ t n, Adding n (s.pc t) → published s.toServer n = none
  apart : ∀ t n, Adding n (s.pc t) → ¬ Adding n (s.pc t.other)

theorem init_fixed [Zero Page] (buffer : ℕ) (rkey : U32) :
    Fixed (initHandlers buffer rkey : Handlers Page) := by
  refine ⟨?_,by simp [initHandlers],by simp [initHandlers],?_,?_⟩
  · intro n
    by_cases hn : n = 0
    · subst hn
      simp [initHandlers, published, initServer]
    · simp [initHandlers, published, initServer, hn, Ne.symm hn]
  · exact fun _ _ h => h.elim
  · exact fun _ _ h => h.elim

theorem other_ne (t : Thread) : t.other ≠ t := by cases t <;> decide

theorem Fixed.quiet {s u : Handlers Page} (h : Fixed s)
    (hp : published u.toServer = published s.toServer) (ha : u.assigned = s.assigned)
    (ho : ∀ e ∈ u.opened, e ∈ s.opened ∨
      published s.toServer e.block = some (e.buffer,e.rkey))
    (hc : ∀ e ∈ u.copies, e ∈ s.copies ∨ ∃ rkey, published s.toServer e.1 = some (e.2,rkey))
    (hadd : ∀ t n, Adding n (u.pc t) → Adding n (s.pc t)) : Fixed u := by
  refine ⟨?_,?_,?_,?_,?_⟩
  · rw [ha, hp]
    exact h.once
  · intro e he
    rw [hp]
    exact (ho e he).elim (h.opened e) id
  · intro e he
    rw [hp]
    exact (hc e he).elim (h.copied e) id
  · intro t n hn
    rw [hp]
    exact h.adding t n (hadd t n hn)
  · intro t n hn hn'
    exact h.apart t n (hadd t n hn) (hadd t.other n hn')

theorem adding_goto {s : Handlers Page} {t : Thread} {p : Pc}
    (hp : ∀ n, Adding n p → Adding n (s.pc t)) (u : Thread) (n : ℕ)
    (hn : Adding n (Function.update s.pc t p u)) : Adding n (s.pc u) := by
  by_cases hu : u = t
  · subst hu
    rw [Function.update_self] at hn
    exact hp n hn
  · rwa [Function.update_of_ne hu] at hn

theorem Fixed.move {s u : Handlers Page} (h : Fixed s) {t : Thread} {p : Pc}
    (hpc : u.pc = Function.update s.pc t p) (hp : ∀ n, Adding n p → Adding n (s.pc t))
    (hpub : published u.toServer = published s.toServer) (ha : u.assigned = s.assigned)
    (ho : u.opened = s.opened) (hc : u.copies = s.copies) : Fixed u := by
  refine h.quiet hpub ha (fun e he => Or.inl (ho ▸ he)) (fun e he => Or.inl (hc ▸ he)) ?_
  rw [hpc]
  exact adding_goto hp

theorem Fixed.enter {s : Handlers Page} (h : Fixed s) (t : Thread) (j : Job) (n : ℕ)
    (hn : s.memblocks n = none) (hother : ¬ Adding n (s.pc t.other)) :
    Fixed (s.goto t (.alloc j n)) := by
  have self : ∀ m, Adding m (Function.update s.pc t (.alloc j n) t) ↔ n = m := by
    intro m
    rw [Function.update_self]
    exact Iff.rfl
  have others : ∀ u, u ≠ t → Function.update s.pc t (.alloc j n) u = s.pc u :=
    fun u hu => Function.update_of_ne hu _ _
  refine ⟨h.once,h.opened,h.copied,fun u m hm => ?_,fun u m hm hm' => ?_⟩
  · change Adding m (Function.update s.pc t (.alloc j n) u) at hm
    by_cases hu : u = t
    · subst hu
      obtain rfl := (self m).mp hm
      simp [Handlers.goto, published, hn]
    · rw [others u hu] at hm
      exact h.adding u m hm
  · change Adding m (Function.update s.pc t (.alloc j n) u) at hm
    change Adding m (Function.update s.pc t (.alloc j n) u.other) at hm'
    by_cases hu : u = t
    · subst hu
      obtain rfl := (self m).mp hm
      rw [others _ (other_ne u)] at hm'
      exact hother hm'
    · have hut : u.other = t := by
        cases u <;> cases t <;> first | rfl | exact absurd rfl hu
      rw [others u hu] at hm
      rw [hut] at hm'
      obtain rfl := (self m).mp hm'
      have hu' : u = t.other := by rw [← hut]; cases u <;> rfl
      exact hother (hu' ▸ hm)

theorem begin_not_adding {header : U32} {j : ℕ → Job} {p : Pc}
    (h : beginJob header j = some p) (n : ℕ) : ¬ Adding n p := by
  obtain ⟨hd,-,rfl⟩ := Option.map_eq_some_iff.mp h
  exact id

theorem Fixed.fail {s : Handlers Page} (h : Fixed s) (t : Thread) (n : ℕ) (j : Job) :
    Fixed (failJob t n s j) := by
  cases j with
  | opening header => exact h.move rfl (fun _ hm => hm.elim) rfl rfl rfl rfl
  | flow wc byte => exact h.move rfl (fun _ hm => hm.elim) rfl rfl rfl rfl
  | commit immData wc byte todo => exact h.move rfl (fun _ hm => hm.elim) rfl rfl rfl rfl

section Publish
variable [Zero Page]

theorem assign_published (e : Entry) (s : Handlers Page) :
    published (assignBlock e s).toServer =
      Function.update (published s.toServer) e.block (some (e.buffer,e.rkey)) := by
  funext m
  by_cases h : m = e.block
  · subst h
    simp [published, assignBlock]
  · simp [published, assignBlock, h]

theorem Fixed.assign {s : Handlers Page} (h : Fixed s) (t : Thread) (j : Job) (n buffer : ℕ)
    (rkey : U32) (hpc : s.pc t = .assign j n buffer rkey) :
    Fixed ((assignBlock ⟨n,buffer,rkey⟩ s).goto t (.finish j n)) := by
  have hadd : Adding n (s.pc t) := by
    rw [hpc]
    exact rfl
  have hnone := h.adding t n hadd
  have hpub : published (Handlers.goto (assignBlock ⟨n,buffer,rkey⟩ s) t (.finish j n)).toServer =
      Function.update (published s.toServer) n (some (buffer,rkey)) :=
    assign_published ⟨n,buffer,rkey⟩ s
  have kept : ∀ m b, published s.toServer m = some b →
      Function.update (published s.toServer) n (some (buffer,rkey)) m = some b := by
    intro m b hm
    have hne : m ≠ n := by
      rintro rfl
      rw [hnone] at hm
      cases hm
    rwa [Function.update_of_ne hne]
  have still : ∀ u m, Adding m (Function.update s.pc t (.finish j n) u) → Adding m (s.pc u) :=
    adding_goto (fun _ hm => hm.elim)
  refine ⟨fun m => ?_,fun e he => ?_,fun e he => ?_,fun u m hm => ?_,fun u m hm hm' => ?_⟩
  · rw [hpub]
    change (⟨n,buffer,rkey⟩::s.assigned).filter (fun e => e.block = m) = _
    have hold := h.once m
    by_cases hm : m = n
    · subst hm
      rw [hnone] at hold
      simpa using hold
    · rw [Function.update_of_ne hm, List.filter_cons_of_neg (by simpa using Ne.symm hm)]
      exact hold
  · rw [hpub]
    exact kept _ _ (h.opened e he)
  · obtain ⟨k,hk⟩ := h.copied e he
    exact ⟨k,by rw [hpub]; exact kept _ _ hk⟩
  · have hm' := still u m hm
    have hne : m ≠ n := by
      rintro rfl
      by_cases hu : u = t
      · subst hu
        change Adding m (Function.update s.pc u (.finish j m) u) at hm
        rw [Function.update_self] at hm
        exact hm
      · have hut : u = t.other := by
          cases u <;> cases t <;> first | rfl | exact absurd rfl hu
        exact h.apart t m hadd (hut ▸ hm')
    rw [hpub, Function.update_of_ne hne]
    exact h.adding u m hm'
  · exact h.apart u m (still u m hm) (still u.other m hm')

theorem Fixed.finish {s u : Handlers Page} (h : Fixed s) (t : Thread) (n : ℕ) (j : Job)
    (hu : finishJob t n s j = some u) : Fixed u := by
  obtain ⟨mb,hmb,rfl⟩ := Option.map_eq_some_iff.mp hu
  have hpub : published s.toServer n = some (mb.buffer,mb.rkey) := by
    rw [published, hmb]
    rfl
  have still : ∀ p : Pc, (∀ m, ¬ Adding m p) → ∀ v m,
      Adding m (Function.update s.pc t p v) → Adding m (s.pc v) :=
    fun p hp => adding_goto (fun m hm => (hp m hm).elim)
  cases j with
  | opening header =>
    refine h.quiet rfl rfl (fun e he => ?_) (fun e he => Or.inl he) (still .idle fun _ => id)
    rcases List.mem_cons.mp he with rfl | he
    · exact Or.inr hpub
    · exact Or.inl he
  | flow wc byte =>
    refine h.quiet (copy_published wc n byte s.toServer) rfl (fun e he => Or.inl he)
      (fun e he => ?_) (still .idle fun _ => id)
    rcases List.mem_cons.mp he with rfl | he
    · exact Or.inr ⟨mb.rkey,hpub⟩
    · exact Or.inl he
  | commit immData wc byte todo =>
    refine h.quiet (copy_published wc n byte s.toServer) rfl (fun e he => Or.inl he)
      (fun e he => ?_) (still (.walking immData todo) fun _ => id)
    rcases List.mem_cons.mp he with rfl | he
    · exact Or.inr ⟨mb.rkey,hpub⟩
    · exact Or.inl he

theorem advance_fixed (t : Thread) (a : AllocResult) (s u : Handlers Page) (h : Fixed s)
    (hg : Apart (.run t a) s) (hu : advance t a s = some u) : Fixed u := by
  have move : ∀ p, (∀ n, ¬ Adding n p) → Fixed (s.goto t p) :=
    fun p hp => h.move rfl (fun n hn => (hp n hn).elim) rfl rfl rfl rfl
  unfold advance at hu
  split at hu
  · cases hu
  · next wc hpc =>
    split_ifs at hu
    · exact Option.some.inj hu ▸ move _ fun _ => id
    · obtain ⟨p,hp,rfl⟩ := Option.map_eq_some_iff.mp hu
      exact h.move rfl (fun n hn => (begin_not_adding hp n hn).elim) rfl rfl rfl rfl
  · next immData hpc =>
    split_ifs at hu
    exact Option.some.inj hu ▸ move _ fun _ => id
  · next immData hpc =>
    split_ifs at hu
    exact Option.some.inj hu ▸ h.move rfl (fun _ hn => hn.elim) rfl rfl rfl rfl
  · next immData hpc => exact Option.some.inj hu ▸ move _ fun _ => id
  · next immData w ws hpc =>
    split_ifs at hu
    · exact Option.some.inj hu ▸ move _ fun _ => id
    · obtain ⟨p,hp,rfl⟩ := Option.map_eq_some_iff.mp hu
      exact move p (begin_not_adding hp)
  · next immData hpc =>
    exact Option.some.inj hu ▸ h.move rfl (fun _ hn => hn.elim) (drain_published s.toServer)
      rfl rfl rfl
  · next j n hpc =>
    obtain rfl := Option.some.inj hu
    split
    · exact move _ fun _ => id
    · exact move _ fun _ => id
  · next j n hpc =>
    obtain rfl := Option.some.inj hu
    split
    · exact move _ fun _ => id
    · next hn =>
      have hnone : s.memblocks n = none := by simpa using hn
      exact h.enter t j n hnone (hg n (by rw [hpc]; rfl) hnone)
  · next j n hpc =>
    split at hu
    · next buffer rkey _ _ =>
      refine Option.some.inj hu ▸ h.move rfl (fun m hm => ?_) rfl rfl rfl rfl
      rw [hpc]
      exact hm
    · exact Option.some.inj hu ▸ h.fail t n j
  · next j n buffer rkey hpc => exact Option.some.inj hu ▸ h.assign t j n buffer rkey hpc
  · next j n hpc => exact h.finish t n j hu

theorem step_fixed (l : Label Page) (s u : Handlers Page) (h : Fixed s) (hg : Apart l s)
    (hu : step l s = some u) : Fixed u := by
  cases l with
  | flow header payload w =>
    obtain ⟨-,hu⟩ := Option.ite_none_right_eq_some.mp hu
    exact Option.some.inj hu ▸ h.move rfl (fun _ hn => hn.elim) (published_eq rfl) rfl rfl rfl
  | openBlock header =>
    obtain ⟨-,hu⟩ := Option.ite_none_right_eq_some.mp hu
    obtain ⟨p,hp,rfl⟩ := Option.map_eq_some_iff.mp hu
    exact h.move rfl (fun n hn => (begin_not_adding hp n hn).elim) rfl rfl rfl rfl
  | commit immData =>
    obtain ⟨-,hu⟩ := Option.ite_none_right_eq_some.mp hu
    obtain rfl := Option.some.inj hu
    split
    · exact h.quiet rfl rfl (fun _ => Or.inl) (fun _ => Or.inl) (fun _ _ => id)
    · exact h.move rfl (fun _ hn => hn.elim) rfl rfl rfl rfl
  | run t a => exact advance_fixed t a s u h hg hu

/-- In every interleaving in which no `add_memblock` overtakes another on the same
block, a block is assigned at most once, and what an OPEN sends for it is the buffer
every page for it is copied to. -/
theorem block_published_once (buffer : ℕ) (rkey : U32) (ls : List (Label Page))
    (s : Handlers Page) (hg : Meets step Apart ls (initHandlers buffer rkey))
    (h : run step ls (initHandlers buffer rkey) = some s) :
    (∀ n, (s.assigned.filter (fun e => e.block = n)).length ≤ 1) ∧
    ∀ e ∈ s.opened, published s.toServer e.block = some (e.buffer,e.rkey) ∧
      ∀ c ∈ s.copies, c.1 = e.block → c.2 = e.buffer := by
  have hf := run_invariant step_fixed (init_fixed buffer rkey) hg h
  refine ⟨fun n => ?_,fun e he => ⟨hf.opened e he,fun c hc hce => ?_⟩⟩
  · rw [hf.once n]
    cases published s.toServer n <;> simp
  · obtain ⟨k,hk⟩ := hf.copied c hc
    rw [hce, hf.opened e he] at hk
    exact (congrArg Prod.fst (Option.some.inj hk)).symm

end Publish

def openThenFlow : List (Label ℕ) :=
  [.openBlock (openWord 0x40000#32)]++List.replicate 5 (.run .rdma ⟨some 100,some 1#32⟩)++
    [.flow (flowHeader 0x40000#32) 7 0]++List.replicate 3 (.run .multicast ⟨some 200,some 2#32⟩)

theorem block_published_once_sample : ∃ s : Handlers ℕ,
    run step openThenFlow (initHandlers 0 9#32) = some s ∧
      s.opened = [⟨1,100,1#32⟩] ∧ ∀ c ∈ s.copies, c.1 = 1 → c.2 = 100 := by
  have hrun : (run step openThenFlow (@initHandlers ℕ _ 0 9#32)).map (fun s => s.opened) =
      some [⟨1,100,1#32⟩] := by decide +kernel
  have hmeets : Meets step Apart openThenFlow (@initHandlers ℕ _ 0 9#32) := by decide +kernel
  obtain ⟨s,hs,ho⟩ := Option.map_eq_some_iff.mp hrun
  have honce := (block_published_once 0 9#32 openThenFlow s hmeets hs).2 ⟨1,100,1#32⟩
    (by rw [ho]; exact List.mem_singleton.mpr rfl)
  exact ⟨s,hs,ho,honce.2⟩

/-- The FLOW frame tests the block before the OPEN assigns it. -/
def flowBesideOpen : List (Label ℕ) :=
  [.openBlock (openWord 0x40000#32),.run .rdma ⟨none,none⟩,.run .rdma ⟨none,none⟩,
    .flow (flowHeader 0x40000#32) 7 0]++List.replicate 3 (.run .multicast ⟨none,none⟩)++
    List.replicate 3 (.run .rdma ⟨some 100,some 1#32⟩)++
    List.replicate 3 (.run .multicast ⟨some 200,some 2#32⟩)

/-- The client is told one buffer and the page goes to another. -/
theorem block_published_twice : ∃ s : Handlers ℕ,
    run step flowBesideOpen (initHandlers 0 9#32) = some s ∧
      (s.assigned.filter (fun e => e.block = 1)).length = 2 ∧
      s.opened = [⟨1,100,1#32⟩] ∧ s.copies = [(1,200)] := by
  have hrun : (run step flowBesideOpen (@initHandlers ℕ _ 0 9#32)).map (fun s =>
      ((s.assigned.filter (fun e => e.block = 1)).length,s.opened,s.copies)) =
      some (2,[⟨1,100,1#32⟩],[(1,200)]) := by decide +kernel
  obtain ⟨s,hs,he⟩ := Option.map_eq_some_iff.mp hrun
  obtain ⟨h1,h2⟩ := Prod.mk.inj he
  obtain ⟨h2,h3⟩ := Prod.mk.inj h2
  exact ⟨s,hs,h1,h2,h3⟩

end Maruswap.PublishedBlocks
