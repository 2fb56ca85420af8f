import Maruswap.WireFormat
import Maruswap.RingWindow

/-!
# The stage buffer and the commit of all servers

The driver keeps a copy of every page it has multicast since the last commit.
`stage_buffer_store` and `ib_rpc_commit_all` of `sib.c`, each as one function of
the driver's shared state; the concurrent system takes their parts one by one.
A pointer into the ring is the number of its slot.
-/

set_option autoImplicit false

namespace Maruswap.DriverStage
open WireFormat RingWindow

variable {Page : Type*}

/-- `CONFIG_BATCH` of drive/ib.h. -/
def configBatch : ℕ := 2^10

structure StageBuffer (Page : Type*) where
  buffer : ℕ → Page
  index : ℕ
  checkList : U32 → Option ℕ
  count : ℕ

def stageBufferFull (b : StageBuffer Page) : Bool := configBatch ≤ b.count

def stageBufferCountAdd (b : StageBuffer Page) : StageBuffer Page := { b with count := b.count+1 }

def stageBufferCountReset (b : StageBuffer Page) : StageBuffer Page := { b with count := 0 }

def xaErase (offset : U32) (b : StageBuffer Page) : StageBuffer Page :=
  { b with checkList := Function.update b.checkList offset none }

/-- `xa` tells whether `__xa_store` finds the memory it needs. -/
def stageBufferStore (xa : Bool) (page : Page) (offset : U32) (b : StageBuffer Page) :
    StageBuffer Page :=
  if stageBufferFull b then
    if (b.checkList offset).isSome then xaErase offset b else b
  else
    stageBufferCountAdd { b with
      buffer := Function.update b.buffer b.index page
      index := (b.index+1) % configBatch
      checkList := if xa then Function.update b.checkList offset (some b.index)
        else b.checkList }

def stageBufferLoad (offset : U32) (b : StageBuffer Page) : Option Page :=
  (b.checkList offset).map b.buffer

def clearStageBufferAddr (b : StageBuffer Page) : StageBuffer Page :=
  { b with checkList := fun _ => none }

/-- The base of a memblock, or an address inside one. -/
structure Ptr where
  block : ℕ
  byte : ℕ
  deriving DecidableEq

structure RdmaInfo where
  remoteAddr : Ptr
  rkey : U32
  deriving DecidableEq

structure RdmaCtrl where
  alive : Bool
  rdmaInfo : ℕ → RdmaInfo

/-- The shared state of the driver: the controllers, the list they are on, and
what all of them point to. -/
structure Driver (Page : Type*) where
  ctrl : ℕ → RdmaCtrl
  rdmaCtrlList : List ℕ
  mainRdmaCtrl : ℕ
  batch : ℕ
  stageBuffer : StageBuffer Page

/-- `ret |= tret` over the live controllers of the list. -/
def commitRet (alive : ℕ → Bool) (results : ℕ → U32) : List ℕ → U32 → U32
  | [], ret => ret
  | c::cs, ret => commitRet alive results cs (if alive c then ret ||| results c else ret)

/-- `results` are the outcomes of `ib_rpc_commit_unlocked`. What follows the loop
does not look at them. -/
def ibRpcCommitAll (results : ℕ → U32) (d : Driver Page) : U32 × Driver Page :=
  (commitRet (fun c => (d.ctrl c).alive) results d.rdmaCtrlList 0,
    { d with
      batch := 0
      stageBuffer := stageBufferCountReset (clearStageBufferAddr d.stageBuffer) })

def Windowed (b : StageBuffer Page) : Prop :=
  Window configBatch b.index b.count b.checkList

theorem not_full {b : StageBuffer Page} (h : stageBufferFull b = false) :
    b.count < configBatch := by
  simpa [stageBufferFull] using h

theorem store_room {b : StageBuffer Page} (h : stageBufferFull b = false) (page : Page)
    (offset : U32) : stageBufferStore true page offset b =
      ⟨Function.update b.buffer b.index page,(b.index+1) % configBatch,
        Function.update b.checkList offset (some b.index),b.count+1⟩ := by
  simp [stageBufferStore, h, stageBufferCountAdd]

theorem store_windowed (xa : Bool) (page : Page) (offset : U32) (b : StageBuffer Page)
    (h : Windowed b) : Windowed (stageBufferStore xa page offset b) := by
  unfold stageBufferStore
  split
  · split
    · exact window_mono h (fun _ _ hk => erase_le hk)
    · exact h
  · next hf =>
    have hc := not_full (Bool.eq_false_of_not_eq_true hf)
    cases xa
    · exact window_skip h hc
    · exact window_store h hc offset

theorem clear_windowed (b : StageBuffer Page) (h : Windowed b) :
    Windowed (clearStageBufferAddr b) :=
  window_mono h nofun

theorem reset_windowed (b : StageBuffer Page) (h : Windowed b)
    (hc : ∀ offset, b.checkList offset = none) : Windowed (stageBufferCountReset b) := by
  obtain ⟨next,pos,hi,-⟩ := h
  have hlt : b.index < configBatch := hi ▸ Nat.mod_lt _ (by decide)
  exact empty_window hlt hc

/-- The list, the count and the batch are as before, so that every staged page is
still loaded with its content. -/
structure NothingLost (d e : Driver Page) : Prop where
  loads : ∀ offset page, stageBufferLoad offset d.stageBuffer = some page →
    stageBufferLoad offset e.stageBuffer = some page
  checkList : e.stageBuffer.checkList = d.stageBuffer.checkList
  count : e.stageBuffer.count = d.stageBuffer.count
  batch : e.batch = d.batch

structure NothingStaged (d : Driver Page) : Prop where
  checkList : ∀ offset, d.stageBuffer.checkList offset = none
  count : d.stageBuffer.count = 0
  batch : d.batch = 0

theorem commit_ret_zero (alive : ℕ → Bool) (results : ℕ → U32) (cs : List ℕ) (ret : U32) :
    commitRet alive results cs ret = 0#32 ↔
      ret = 0#32 ∧ ∀ c ∈ cs, alive c → results c = 0#32 := by
  induction cs generalizing ret with
  | nil => simp [commitRet]
  | cons c cs ih =>
    rw [commitRet, ih]
    cases hc : alive c with
    | false => simp [hc]
    | true => simp [hc, and_assoc]

/-- A commit that fails loses what was staged unless there was nothing: the
reset follows whatever the servers answered. -/
theorem failed_commit_keeps_iff (results : ℕ → U32) (d : Driver Page) :
    ((ibRpcCommitAll results d).1 ≠ 0#32 → NothingLost d (ibRpcCommitAll results d).2) ↔
    (∀ c ∈ d.rdmaCtrlList, (d.ctrl c).alive → results c = 0#32) ∨ NothingStaged d := by
  have hzero := commit_ret_zero (fun c => (d.ctrl c).alive) results d.rdmaCtrlList 0#32
  constructor
  · intro h
    by_cases hret : (ibRpcCommitAll results d).1 = 0#32
    · exact Or.inl (hzero.mp hret).2
    · have hl := h hret
      exact Or.inr ⟨fun offset => (congrFun hl.checkList offset).symm,hl.count.symm,
        hl.batch.symm⟩
  · intro h hret
    rcases h with h | h
    · exact absurd (hzero.mpr ⟨rfl,h⟩) hret
    · refine ⟨fun offset page hp => ?_,?_,h.count.symm,h.batch.symm⟩
      · simp [stageBufferLoad, h.checkList] at hp
      · funext offset
        exact (h.checkList offset).symm

def stagedDriver : Driver ℕ where
  ctrl := fun _ => ⟨true,fun _ => ⟨⟨0,0⟩,1#32⟩⟩
  rdmaCtrlList := [1,0]
  mainRdmaCtrl := 0
  batch := 1
  stageBuffer := stageBufferStore true 7 5#32 ⟨fun _ => 0,0,fun _ => none,0⟩

theorem failed_commit_loses : ¬ ∀ (results : ℕ → U32) (d : Driver ℕ),
    (ibRpcCommitAll results d).1 ≠ 0#32 → NothingLost d (ibRpcCommitAll results d).2 := by
  intro h
  have hl := h (fun c => if c = 0 then 1#32 else 0#32) stagedDriver (by decide)
  exact absurd (hl.loads 5#32 7 (by decide)) (by decide)

end Maruswap.DriverStage
