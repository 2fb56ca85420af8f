import Maruswap.DriverStage

/-!
# Concurrent writers

Any number of threads run `maruswap_multicast_write`. The open check, the commit
and the increment of the batch are under the spinlock; the post, the store into
the stage buffer and the wait for the completion are not. Each RPC, each region
under the lock of the stage list and each assignment is a step of its own. The
accepted frames, the number of commits started, the stores made and the writes
that returned zero are ghosts.
-/

set_option autoImplicit false

namespace Maruswap.WriterThreads
open WireFormat DriverStage

variable {Page : Type*}

/-- The next thing a thread does. -/
inductive Pc where
  | idle
  | entered
  | checking
  | openSub
  | openMain (tret : U32)
  | testing
  | committing (todo : List ℕ) (ret : U32)
  | clearing (ret : U32)
  | resetting (ret : U32)
  | counting
  | posting
  | storing
  | polling
  | returned (ret : U32)
  deriving DecidableEq

/-- The arguments of a call, and the number of commits started when its frame
was posted. -/
structure Call (Page : Type*) where
  offset : U32
  page : Page
  postedAt : ℕ

structure Writers (Page : Type*) extends Driver Page where
  lock : Option ℕ
  pc : ℕ → Pc
  call : ℕ → Call Page
  frames : List (U32 × Page)
  commits : ℕ
  stores : List (U32 × Page)
  staged : List (U32 × ℕ)
  finished : List (U32 × ℕ)

inductive Label (Page : Type*) where
  | connect (c : ℕ)
  | call (i : ℕ) (offset : U32) (page : Page) (ret : U32)
  | lock (i : ℕ)
  | check (i : ℕ)
  | openRpc (i : ℕ) (outcome : Option RdmaInfo)
  | test (i : ℕ)
  | commitRpc (i : ℕ) (tret : U32)
  | resetBatch (i : ℕ)
  | clear (i : ℕ)
  | resetCount (i : ℕ)
  | count (i : ℕ)
  | post (i : ℕ) (ret : U32)
  | store (i : ℕ) (xa : Bool)
  | complete (i : ℕ) (success : Bool)

/-- `-EINVAL` -/
def einval : U32 := BitVec.ofInt 32 (-22)

def checkRdmaInfo (nrMemblock : ℕ) (d : Driver Page) : Bool :=
  d.rdmaCtrlList.any (fun c => ((d.ctrl c).rdmaInfo nrMemblock).rkey == 0#32)

/-- The first controller of the list that is not the main one. -/
def subRdmaCtrl (d : Driver Page) : Option ℕ :=
  d.rdmaCtrlList.find? (fun c => c != d.mainRdmaCtrl)

def setRdmaInfo (c n : ℕ) (info : RdmaInfo) (d : Driver Page) : Driver Page :=
  { d with
    ctrl := Function.update d.ctrl c
      { d.ctrl c with rdmaInfo := Function.update (d.ctrl c).rdmaInfo n info } }

/-- `outcome` is what `__ib_rpc` copies into `rdma_info`, none if it fails. -/
def ibRpcOpenUnlocked (c : ℕ) (offset : U32) (outcome : Option RdmaInfo) (d : Driver Page) :
    U32 × Driver Page :=
  if ((d.ctrl c).rdmaInfo (getNumMemblock offset)).rkey ≠ 0#32 then (0#32,d)
  else match outcome with
    | some info => (0#32,setRdmaInfo c (getNumMemblock offset) info d)
    | none => (1#32,d)

namespace Writers

def move (w : Writers Page) (i : ℕ) (p : Pc) : Writers Page :=
  { w with pc := Function.update w.pc i p }

/-- `out_error`: the spinlock is released and the write fails. -/
def fail (w : Writers Page) (i : ℕ) : Writers Page :=
  { w.move i (.returned 1#32) with lock := none }

def withDriver (w : Writers Page) (d : Driver Page) : Writers Page := { w with toDriver := d }

end Writers

open Writers

def enter (i : ℕ) (offset : U32) (page : Page) (ret : U32) (w : Writers Page) : Writers Page :=
  { w.move i (if ret = 0#32 then .entered else .returned ret) with
    call := Function.update w.call i ⟨offset,page,0⟩ }

/-- The second half of `ib_rpc_open_all`: `tret` of the first is kept if the main
controller is not alive. -/
def openMain (i : ℕ) (tret : U32) (outcome : Option RdmaInfo) (w : Writers Page) :
    Writers Page :=
  let c := w.mainRdmaCtrl
  let r := if (w.ctrl c).alive then ibRpcOpenUnlocked c (w.call i).offset outcome w.toDriver
    else (tret,w.toDriver)
  if tret ||| r.1 = 0#32 then (w.withDriver r.2).move i .testing else (w.withDriver r.2).fail i

def openSub (i c : ℕ) (outcome : Option RdmaInfo) (w : Writers Page) : Writers Page :=
  let r := if (w.ctrl c).alive then ibRpcOpenUnlocked c (w.call i).offset outcome w.toDriver
    else (0#32,w.toDriver)
  (w.withDriver r.2).move i (.openMain r.1)

def test (i : ℕ) (w : Writers Page) : Writers Page :=
  if configBatch ≤ w.batch then
    { w.move i (.committing w.rdmaCtrlList 0#32) with commits := w.commits+1 }
  else w.move i .counting

def count (i : ℕ) (w : Writers Page) : Writers Page :=
  { w.move i .posting with batch := w.batch+1, lock := none }

/-- A refused post leaves `__ib_multicast_send` before the page is stored. -/
def post (i : ℕ) (ret : U32) (w : Writers Page) : Writers Page :=
  if ret = 0#32 then
    { w.move i .storing with
      call := Function.update w.call i { w.call i with postedAt := w.commits }
      frames := w.frames++[(flowHeader (w.call i).offset,(w.call i).page)] }
  else w.move i (.returned ret)

def store (i : ℕ) (xa : Bool) (w : Writers Page) : Writers Page :=
  let recorded := !stageBufferFull w.stageBuffer && xa
  { w.move i .polling with
    stageBuffer := stageBufferStore xa (w.call i).page (w.call i).offset w.stageBuffer
    stores := if recorded then w.stores++[((w.call i).offset,(w.call i).page)] else w.stores
    staged := if recorded then w.staged++[((w.call i).offset,(w.call i).postedAt)]
      else w.staged }

def complete (i : ℕ) (success : Bool) (w : Writers Page) : Writers Page :=
  if success then
    { w.move i (.returned 0#32) with
      finished := w.finished++[((w.call i).offset,(w.call i).postedAt)] }
  else w.move i (.returned einval)

def Pc.Resting : Pc → Prop
  | .idle => True
  | .returned _ => True
  | _ => False

instance (p : Pc) : Decidable p.Resting := by
  cases p <;> first | exact .isTrue trivial | exact .isFalse id

/-- A block number past `rdma_info` has no defined outcome. -/
def step : Label Page → Writers Page → Option (Writers Page)
  | .connect c, w => some (w.withDriver
      { w.toDriver with ctrl := Function.update w.ctrl c { w.ctrl c with alive := true } })
  | .call i offset page ret, w =>
    if (w.pc i).Resting ∧ getNumMemblock offset < maxMemblock then
      some (enter i offset page ret w)
    else none
  | .lock i, w =>
    if w.pc i = .entered ∧ w.lock = none then some { w.move i .checking with lock := some i }
    else none
  | .check i, w =>
    if w.pc i = .checking then some (w.move i
      (if checkRdmaInfo (getNumMemblock (w.call i).offset) w.toDriver then .openSub
        else .testing))
    else none
  | .openRpc i outcome, w => match w.pc i with
    | .openSub => (subRdmaCtrl w.toDriver).map fun c => openSub i c outcome w
    | .openMain tret => some (openMain i tret outcome w)
    | _ => none
  | .test i, w => if w.pc i = .testing then some (test i w) else none
  | .commitRpc i tret, w => match w.pc i with
    | .committing (c::todo) ret => some (w.move i
        (.committing todo (if (w.ctrl c).alive then ret ||| tret else ret)))
    | _ => none
  | .resetBatch i, w => match w.pc i with
    | .committing [] ret => some { w.move i (.clearing ret) with batch := 0 }
    | _ => none
  | .clear i, w => match w.pc i with
    | .clearing ret => some { w.move i (.resetting ret) with
        stageBuffer := clearStageBufferAddr w.stageBuffer }
    | _ => none
  | .resetCount i, w => match w.pc i with
    | .resetting ret =>
      let u := { w with stageBuffer := stageBufferCountReset w.stageBuffer }
      some (if ret = 0#32 then u.move i .counting else u.fail i)
    | _ => none
  | .count i, w => if w.pc i = .counting then some (count i w) else none
  | .post i ret, w => if w.pc i = .posting then some (post i ret w) else none
  | .store i xa, w => if w.pc i = .storing then some (store i xa w) else none
  | .complete i success, w =>
    if w.pc i = .polling then some (complete i success w) else none

/-- After `init_ib`, whatever the controllers are. -/
def initWriters (ctrl : ℕ → RdmaCtrl) (rdmaCtrlList : List ℕ) (mainRdmaCtrl : ℕ)
    (buffer : ℕ → Page) (call : ℕ → Call Page) : Writers Page where
  ctrl := ctrl
  rdmaCtrlList := rdmaCtrlList
  mainRdmaCtrl := mainRdmaCtrl
  batch := 0
  stageBuffer := ⟨buffer,0,fun _ => none,0⟩
  lock := none
  pc := fun _ => .idle
  call := call
  frames := []
  commits := 0
  stores := []
  staged := []
  finished := []

/-- What each label does where it is enabled, a branch of the source a case. -/
inductive Effect : Label Page → Writers Page → Writers Page → Prop where
  | connect (c : ℕ) (w : Writers Page) : Effect (.connect c) w (w.withDriver
      { w.toDriver with ctrl := Function.update w.ctrl c { w.ctrl c with alive := true } })
  | call {i : ℕ} {offset : U32} {w : Writers Page} (page : Page) (ret : U32)
      (hpc : (w.pc i).Resting) (ho : getNumMemblock offset < maxMemblock) :
      Effect (.call i offset page ret) w (enter i offset page ret w)
  | lock {i : ℕ} {w : Writers Page} (hpc : w.pc i = .entered) (hlock : w.lock = none) :
      Effect (.lock i) w { w.move i .checking with lock := some i }
  | check {i : ℕ} {w : Writers Page} (hpc : w.pc i = .checking) :
      Effect (.check i) w (w.move i
        (if checkRdmaInfo (getNumMemblock (w.call i).offset) w.toDriver then .openSub
          else .testing))
  | openSub {i c : ℕ} {w : Writers Page} (outcome : Option RdmaInfo) (hpc : w.pc i = .openSub)
      (hc : subRdmaCtrl w.toDriver = some c) :
      Effect (.openRpc i outcome) w (openSub i c outcome w)
  | openMain {i : ℕ} {tret : U32} {w : Writers Page} (outcome : Option RdmaInfo)
      (hpc : w.pc i = .openMain tret) :
      Effect (.openRpc i outcome) w (openMain i tret outcome w)
  | start {i : ℕ} {w : Writers Page} (hpc : w.pc i = .testing) (hb : configBatch ≤ w.batch) :
      Effect (.test i) w
        { w.move i (.committing w.rdmaCtrlList 0#32) with commits := w.commits+1 }
  | pass {i : ℕ} {w : Writers Page} (hpc : w.pc i = .testing) (hb : ¬ configBatch ≤ w.batch) :
      Effect (.test i) w (w.move i .counting)
  | commitRpc {i c : ℕ} {todo : List ℕ} {ret : U32} {w : Writers Page} (tret : U32)
      (hpc : w.pc i = .committing (c::todo) ret) :
      Effect (.commitRpc i tret) w
        (w.move i (.committing todo (if (w.ctrl c).alive then ret ||| tret else ret)))
  | resetBatch {i : ℕ} {ret : U32} {w : Writers Page} (hpc : w.pc i = .committing [] ret) :
      Effect (.resetBatch i) w { w.move i (.clearing ret) with batch := 0 }
  | clear {i : ℕ} {ret : U32} {w : Writers Page} (hpc : w.pc i = .clearing ret) :
      Effect (.clear i) w { w.move i (.resetting ret) with
        stageBuffer := clearStageBufferAddr w.stageBuffer }
  | resetCount {i : ℕ} {w : Writers Page} (hpc : w.pc i = .resetting 0#32) :
      Effect (.resetCount i) w
        (Writers.move { w with stageBuffer := stageBufferCountReset w.stageBuffer } i .counting)
  | abort {i : ℕ} {ret : U32} {w : Writers Page} (hpc : w.pc i = .resetting ret)
      (hret : ret ≠ 0#32) :
      Effect (.resetCount i) w
        (Writers.fail { w with stageBuffer := stageBufferCountReset w.stageBuffer } i)
  | count {i : ℕ} {w : Writers Page} (hpc : w.pc i = .counting) :
      Effect (.count i) w (count i w)
  | post {i : ℕ} {w : Writers Page} (hpc : w.pc i = .posting) :
      Effect (.post i 0#32) w
        { w.move i .storing with
          call := Function.update w.call i { w.call i with postedAt := w.commits }
          frames := w.frames++[(flowHeader (w.call i).offset,(w.call i).page)] }
  | refuse {i : ℕ} {ret : U32} {w : Writers Page} (hpc : w.pc i = .posting)
      (hret : ret ≠ 0#32) : Effect (.post i ret) w (w.move i (.returned ret))
  | store {i : ℕ} {w : Writers Page} (xa : Bool) (hpc : w.pc i = .storing) :
      Effect (.store i xa) w (store i xa w)
  | complete {i : ℕ} {w : Writers Page} (hpc : w.pc i = .polling) :
      Effect (.complete i true) w
        { w.move i (.returned 0#32) with
          finished := w.finished++[((w.call i).offset,(w.call i).postedAt)] }
  | incomplete {i : ℕ} {w : Writers Page} (hpc : w.pc i = .polling) :
      Effect (.complete i false) w (w.move i (.returned einval))

theorem step_effect {l : Label Page} {w u : Writers Page} (h : step l w = some u) :
    Effect l w u := by
  cases l with
  | connect c => exact Option.some.inj h ▸ .connect c w
  | call i offset page ret =>
    obtain ⟨⟨hpc,ho⟩,h⟩ := Option.ite_none_right_eq_some.mp h
    exact Option.some.inj h ▸ .call page ret hpc ho
  | lock i =>
    obtain ⟨⟨hpc,hlock⟩,h⟩ := Option.ite_none_right_eq_some.mp h
    exact Option.some.inj h ▸ .lock hpc hlock
  | check i =>
    obtain ⟨hpc,h⟩ := Option.ite_none_right_eq_some.mp h
    exact Option.some.inj h ▸ .check hpc
  | openRpc i outcome =>
    simp only [step] at h
    split at h
    · next hpc =>
      obtain ⟨c,hc,rfl⟩ := Option.map_eq_some_iff.mp h
      exact .openSub outcome hpc hc
    · next hpc => exact Option.some.inj h ▸ .openMain outcome hpc
    · cases h
  | test i =>
    obtain ⟨hpc,h⟩ := Option.ite_none_right_eq_some.mp h
    obtain rfl := Option.some.inj h
    unfold test
    split
    · next hb => exact .start hpc hb
    · next hb => exact .pass hpc hb
  | commitRpc i tret =>
    simp only [step] at h
    split at h
    · next hpc => exact Option.some.inj h ▸ .commitRpc tret hpc
    · cases h
  | resetBatch i =>
    simp only [step] at h
    split at h
    · next hpc => exact Option.some.inj h ▸ .resetBatch hpc
    · cases h
  | clear i =>
    simp only [step] at h
    split at h
    · next hpc => exact Option.some.inj h ▸ .clear hpc
    · cases h
  | resetCount i =>
    simp only [step] at h
    split at h
    · next ret hpc =>
      obtain rfl := Option.some.inj h
      split
      · next hret =>
        subst hret
        exact .resetCount hpc
      · next hret => exact .abort hpc hret
    · cases h
  | count i =>
    obtain ⟨hpc,h⟩ := Option.ite_none_right_eq_some.mp h
    exact Option.some.inj h ▸ .count hpc
  | post i ret =>
    obtain ⟨hpc,h⟩ := Option.ite_none_right_eq_some.mp h
    obtain rfl := Option.some.inj h
    unfold post
    split
    · next hret =>
      subst hret
      exact .post hpc
    · next hret => exact .refuse hpc hret
  | store i xa =>
    obtain ⟨hpc,h⟩ := Option.ite_none_right_eq_some.mp h
    exact Option.some.inj h ▸ .store xa hpc
  | complete i success =>
    obtain ⟨hpc,h⟩ := Option.ite_none_right_eq_some.mp h
    obtain rfl := Option.some.inj h
    cases success
    · exact .incomplete hpc
    · exact .complete hpc

def Pc.Locked : Pc → Prop
  | .checking => True
  | .openSub => True
  | .openMain _ => True
  | .testing => True
  | .committing _ _ => True
  | .clearing _ => True
  | .resetting _ => True
  | .counting => True
  | .idle => False
  | .entered => False
  | .posting => False
  | .storing => False
  | .polling => False
  | .returned _ => False

def Pc.InFlight : Pc → Prop
  | .posting => True
  | .storing => True
  | _ => False

def Pc.Draining : Pc → Prop
  | .clearing _ => True
  | .resetting _ => True
  | _ => False

/-- Before the counters and the stage buffer are touched, or after. -/
def Pc.Plain : Pc → Prop
  | .entered => True
  | .checking => True
  | .openSub => True
  | .openMain _ => True
  | .testing => True
  | .committing _ _ => True
  | .idle => True
  | .returned _ => True
  | .clearing _ => False
  | .resetting _ => False
  | .counting => False
  | .posting => False
  | .storing => False
  | .polling => False

theorem Pc.Plain.not_inFlight {p : Pc} (h : p.Plain) : ¬ p.InFlight := by
  cases p <;> first | exact id | exact h.elim

theorem Pc.Plain.not_draining {p : Pc} (h : p.Plain) : ¬ p.Draining := by
  cases p <;> first | exact id | exact h.elim

theorem Pc.Resting.plain {p : Pc} (h : p.Resting) : p.Plain := by
  cases p <;> first | exact h | exact h.elim

/-- Thread `i` moves, and perhaps takes or releases the lock; nothing else that
the writers share changes. -/
structure Quietly (i : ℕ) (w u : Writers Page) : Prop where
  batch : u.batch = w.batch
  stageBuffer : u.stageBuffer = w.stageBuffer
  frames : u.frames = w.frames
  commits : u.commits = w.commits
  stores : u.stores = w.stores
  staged : u.staged = w.staged
  finished : u.finished = w.finished
  call : ∀ j, j ≠ i → u.call j = w.call j
  pc : ∀ j, j ≠ i → u.pc j = w.pc j
  before : (w.pc i).Plain
  after : (u.pc i).Plain
  lock : (u.lock = w.lock ∧ ((u.pc i).Locked → (w.pc i).Locked)) ∨
    (w.lock = none ∧ u.lock = some i) ∨ ((w.pc i).Locked ∧ u.lock = none ∧ ¬ (u.pc i).Locked)

theorem quietly_move (i : ℕ) (p : Pc) (d : Driver Page) (w : Writers Page)
    (hb : d.batch = w.batch) (hs : d.stageBuffer = w.stageBuffer) (hw : (w.pc i).Plain)
    (hp : p.Plain) (hl : p.Locked → (w.pc i).Locked) :
    Quietly i w ((w.withDriver d).move i p) := by
  refine ⟨hb,hs,rfl,rfl,rfl,rfl,rfl,fun _ _ => rfl,fun j hj => ?_,hw,?_,Or.inl ⟨rfl,?_⟩⟩
  · simp [move, withDriver, hj]
  · simpa [move, withDriver] using hp
  · simpa [move, withDriver] using hl

theorem quietly_fail (i : ℕ) (d : Driver Page) (w : Writers Page) (hb : d.batch = w.batch)
    (hs : d.stageBuffer = w.stageBuffer) (hw : (w.pc i).Plain) (hl : (w.pc i).Locked) :
    Quietly i w ((w.withDriver d).fail i) := by
  refine ⟨hb,hs,rfl,rfl,rfl,rfl,rfl,fun _ _ => rfl,fun j hj => ?_,hw,?_,
    Or.inr (Or.inr ⟨hl,rfl,?_⟩)⟩
  · simp [fail, move, withDriver, hj]
  · simp [fail, move, withDriver, Pc.Plain]
  · simp [fail, move, withDriver, Pc.Locked]

theorem open_shared (c : ℕ) (offset : U32) (outcome : Option RdmaInfo) (d : Driver Page) :
    (ibRpcOpenUnlocked c offset outcome d).2.batch = d.batch ∧
      (ibRpcOpenUnlocked c offset outcome d).2.stageBuffer = d.stageBuffer := by
  unfold ibRpcOpenUnlocked
  split
  · exact ⟨rfl,rfl⟩
  · cases outcome <;> exact ⟨rfl,rfl⟩

/-- The thread of a label that neither counts nor stages. -/
def Label.quiet : Label Page → Option ℕ
  | .call i _ _ _ => some i
  | .lock i => some i
  | .check i => some i
  | .openRpc i _ => some i
  | .commitRpc i _ => some i
  | _ => none

theorem quiet_step (l : Label Page) (i : ℕ) (w u : Writers Page) (hl : l.quiet = some i)
    (h : step l w = some u) : Quietly i w u := by
  cases step_effect h with
  | @call j offset _ page ret hpc ho =>
    obtain rfl : j = i := by simpa [Label.quiet] using hl
    have hp : Pc.Plain (if ret = 0#32 then .entered else .returned ret) := by
      split <;> trivial
    have hn : ¬ Pc.Locked (if ret = 0#32 then .entered else .returned ret) := by
      split <;> exact id
    refine ⟨rfl,rfl,rfl,rfl,rfl,rfl,rfl,fun k hk => ?_,fun k hk => ?_,hpc.plain,?_,
      Or.inl ⟨rfl,fun hlk => ?_⟩⟩
    · simp [enter, hk]
    · simp [enter, move, hk]
    · simpa [enter, move] using hp
    · exact absurd (by simpa [enter, move] using hlk) hn
  | @lock j _ hpc hlock =>
    obtain rfl : j = i := by simpa [Label.quiet] using hl
    refine ⟨rfl,rfl,rfl,rfl,rfl,rfl,rfl,fun _ _ => rfl,fun k hk => ?_,by rw [hpc]; trivial,?_,
      Or.inr (Or.inl ⟨hlock,rfl⟩)⟩
    · simp [move, hk]
    · simp [move, Pc.Plain]
  | @check j _ hpc =>
    obtain rfl : j = i := by simpa [Label.quiet] using hl
    refine quietly_move j _ w.toDriver w rfl rfl (by rw [hpc]; trivial) ?_
      (fun _ => by rw [hpc]; trivial)
    split <;> trivial
  | @openSub j c _ outcome hpc hc =>
    obtain rfl : j = i := by simpa [Label.quiet] using hl
    have hd : ∀ d : Driver Page, d.batch = w.batch → d.stageBuffer = w.stageBuffer →
        ∀ tret, Quietly j w ((w.withDriver d).move j (.openMain tret)) :=
      fun d hb hs tret => quietly_move j _ d w hb hs (by rw [hpc]; trivial) trivial
        (fun _ => by rw [hpc]; trivial)
    unfold openSub
    dsimp only
    split
    · exact hd _ (open_shared c _ outcome w.toDriver).1 (open_shared c _ outcome _).2 _
    · exact hd w.toDriver rfl rfl _
  | @openMain j tret _ outcome hpc =>
    obtain rfl : j = i := by simpa [Label.quiet] using hl
    have hd : ∀ d : Driver Page, d.batch = w.batch → d.stageBuffer = w.stageBuffer →
        ∀ ret : U32, Quietly j w (if tret ||| ret = 0#32 then
          (w.withDriver d).move j .testing else (w.withDriver d).fail j) := by
      intro d hb hs ret
      split
      · exact quietly_move j _ d w hb hs (by rw [hpc]; trivial) trivial
          (fun _ => by rw [hpc]; trivial)
      · exact quietly_fail j d w hb hs (by rw [hpc]; trivial) (by rw [hpc]; trivial)
    unfold openMain
    by_cases ha : (w.ctrl w.mainRdmaCtrl).alive
    · simp only [ha, if_true]
      exact hd _ (open_shared _ _ outcome w.toDriver).1 (open_shared _ _ outcome _).2 _
    · simp only [ha]
      exact hd w.toDriver rfl rfl tret
  | @commitRpc j c todo ret _ tret hpc =>
    obtain rfl : j = i := by simpa [Label.quiet] using hl
    exact quietly_move j _ w.toDriver w rfl rfl (by rw [hpc]; trivial) trivial
      (fun _ => by rw [hpc]; trivial)
  | _ => cases hl

end Maruswap.WriterThreads
