import Maruswap.GuardedRun
import Maruswap.ReaderThreads

/-!
# Calls of the driver, one after the other

The entry points of `sib.c`, each as one function of the driver's state and of what
its environment answers: the mapping, the RPCs, the post, the polls. A call has no
value while it spins, and where the source leaves the objects it may touch: a sub
controller that is not there, a reply written behind `rdma_info`. What is read behind
`rdma_info` is whatever lies there. The log records what a call does to the outside,
latest first.
-/

set_option autoImplicit false

namespace Maruswap.DriverCalls
open WireFormat DriverStage
open WriterThreads (einval subRdmaCtrl setRdmaInfo)
open ReaderThreads (pickCtrl)

variable {Page : Type*}

def enomem : U32 := BitVec.ofInt 32 (-12)

/-- A poll of a send queue, none or a negative number of completions, or one: failed,
or with the address of this call's `done` or another. In between another thread may
have polled the completion of this call. -/
inductive Poll where
  | miss
  | failed
  | got (own : Bool)
  | woken
  deriving DecidableEq

/-- What a call does: mappings by their DMA address, accesses to entry `n` of the
`rdma_info` of controller `c`, requests, entries filled by an OPEN, frames, stores
into the stage buffer and its full branch, pages delivered, RDMA reads, and the
result of a write. -/
inductive Event (Page : Type*) where
  | map (dma : ℕ)
  | unmap (dma : ℕ)
  | touch (c n : ℕ)
  | request (c : ℕ) (word : U32)
  | opened (c n : ℕ) (info : RdmaInfo)
  | frame (header : U32) (page : Page)
  | stored (offset : U32) (page : Page)
  | full
  | loaded (page : Page)
  | fetch (c : ℕ) (info : RdmaInfo) (byte : ℕ)
  | wrote (offset ret : U32)
  deriving DecidableEq

structure Calls (Page : Type*) extends Driver Page where
  log : List (Event Page)

namespace Calls

def emit (e : Event Page) (s : Calls Page) : Calls Page := { s with log := e::s.log }

def emits (es : List (Event Page)) (s : Calls Page) : Calls Page := { s with log := es++s.log }

def withDriver (d : Driver Page) (s : Calls Page) : Calls Page := { s with toDriver := d }

end Calls

open Calls

/-- What the environment of a write answers. `xa` tells whether `__xa_store` finds
memory. -/
structure WriteEnv where
  dma : ℕ
  mapError : Bool
  openSub : Option RdmaInfo
  openMain : Option RdmaInfo
  commits : ℕ → U32
  post : U32
  xa : Bool
  polls : List Poll

structure ReadEnv where
  dma : ℕ
  mapError : Bool
  post : U32
  polls : List Poll

/-! RPCs. -/

/-- All entries are looked at, also behind the first that is empty. -/
def checkRdmaInfo (n : ℕ) (s : Calls Page) : Bool × Calls Page :=
  (WriterThreads.checkRdmaInfo n s.toDriver,
    s.emits (s.rdmaCtrlList.map fun c => .touch c n).reverse)

/-- `outcome` is what `__ib_rpc` copies into `rdma_info`, none if it fails. -/
def ibRpcOpenUnlocked (c : ℕ) (offset : U32) (outcome : Option RdmaInfo) (s : Calls Page) :
    Option (U32 × Calls Page) :=
  let n := getNumMemblock offset
  let touched := s.emit (.touch c n)
  if ((s.ctrl c).rdmaInfo n).rkey ≠ 0#32 then some (0#32,touched)
  else
    let asked := touched.emit (.request c (openWord offset))
    match outcome with
    | none => some (1#32,asked)
    | some info =>
      if n < maxMemblock then
        some (0#32,(asked.withDriver (setRdmaInfo c n info asked.toDriver)).emit
          (.opened c n info))
      else none

/-- The main controller is asked even if the sub controller failed, and `tret` keeps
its value if one of them is not alive. -/
def ibRpcOpenAll (offset : U32) (openSub openMain : Option RdmaInfo) (s : Calls Page) :
    Option (U32 × Calls Page) :=
  (subRdmaCtrl s.toDriver).bind fun sub =>
    (if (s.ctrl sub).alive then ibRpcOpenUnlocked sub offset openSub s
      else some (0#32,s)).bind fun r =>
        (if (r.2.ctrl s.mainRdmaCtrl).alive then
          ibRpcOpenUnlocked s.mainRdmaCtrl offset openMain r.2
          else some r).map fun u => (r.1 ||| u.1,u.2)

def requests (word : U32) (s : Calls Page) : List (Event Page) :=
  (s.rdmaCtrlList.filter fun c => (s.ctrl c).alive).map fun c => .request c word

theorem requests_are {word : U32} {s : Calls Page} {e : Event Page}
    (h : e ∈ (requests word s).reverse) : ∃ c, e = .request c word := by
  obtain ⟨c,-,rfl⟩ := List.mem_map.mp (List.mem_reverse.mp h)
  exact ⟨c,rfl⟩

/-- `ib_rpc_commit_all` and `ib_rpc_qcommit_all` differ in the word they send. -/
def commitAllWith (word : U32) (results : ℕ → U32) (s : Calls Page) : U32 × Calls Page :=
  let r := DriverStage.ibRpcCommitAll results s.toDriver
  (r.1,(s.emits (requests word s).reverse).withDriver r.2)

def ibRpcCommitAll (results : ℕ → U32) (s : Calls Page) : U32 × Calls Page :=
  commitAllWith commitWord results s

def ibRpcQcommitAll (count : U32) (results : ℕ → U32) (s : Calls Page) : U32 × Calls Page :=
  commitAllWith (qcommitWord count) results s

/-- So do `ib_rpc_commit` and `ib_rpc_qcommit`; neither count nor batch is reset. -/
def commitOneWith (word : U32) (c : ℕ) (ret : U32) (s : Calls Page) : U32 × Calls Page :=
  (ret,(s.emit (.request c word)).withDriver
    { s.toDriver with stageBuffer := clearStageBufferAddr s.stageBuffer })

def ibRpcCommit (c : ℕ) (ret : U32) (s : Calls Page) : U32 × Calls Page :=
  commitOneWith commitWord c ret s

def ibRpcQcommit (c : ℕ) (count ret : U32) (s : Calls Page) : U32 × Calls Page :=
  commitOneWith (qcommitWord count) c ret s

/-! Pages. -/

def getReqForPage (dma : ℕ) (mapError : Bool) (s : Calls Page) : U32 × Calls Page :=
  if mapError then (enomem,s) else (0#32,s.emit (.map dma))

/-- The loop on `done` of the two sends: whether it ends, or returns `-EINVAL`. -/
def pollLoop : List Poll → Option Bool
  | [] => none
  | .miss::ps => pollLoop ps
  | .failed::_ => some false
  | .got own::ps => if own then some true else pollLoop ps
  | .woken::_ => some true

def storePage (xa : Bool) (page : Page) (offset : U32) (s : Calls Page) : Calls Page :=
  let stored := s.withDriver
    { s.toDriver with stageBuffer := stageBufferStore xa page offset s.stageBuffer }
  stored.emit (if stageBufferFull s.stageBuffer then .full else .stored offset page)

/-- A refused post leaves the function at once. -/
def ibMulticastSend (header : U32) (page : Page) (offset : U32) (e : WriteEnv)
    (s : Calls Page) : Option (U32 × Calls Page) :=
  if e.post ≠ 0#32 then some (e.post,s)
  else
    let stored := storePage e.xa page offset (s.emit (.frame header page))
    (pollLoop e.polls).map fun done =>
      if done then (0#32,stored.emit (.unmap e.dma)) else (einval,stored)

/-- A refused post is only reported; the loop is entered all the same. -/
def ibRdmaSend (c : ℕ) (info : RdmaInfo) (byte : ℕ) (e : ReadEnv) (s : Calls Page) :
    Option (U32 × Calls Page) :=
  let posted := if e.post = 0#32 then s.emit (.fetch c info byte) else s
  (pollLoop e.polls).map fun done =>
    if done then (e.post,posted.emit (.unmap e.dma)) else (einval,posted)

def maruswapMulticastWrite (page : Page) (offset : U32) (e : WriteEnv) (s : Calls Page) :
    Option (U32 × Calls Page) :=
  let m := getReqForPage e.dma e.mapError s
  if m.1 ≠ 0#32 then some m
  else
    let k := checkRdmaInfo (getNumMemblock offset) m.2
    (if k.1 then ibRpcOpenAll offset e.openSub e.openMain k.2
      else some (0#32,k.2)).bind fun o =>
        if o.1 ≠ 0#32 then some (1#32,o.2)
        else
          let c := if configBatch ≤ o.2.batch then ibRpcCommitAll e.commits o.2 else (0#32,o.2)
          if c.1 ≠ 0#32 then some (1#32,c.2)
          else ibMulticastSend (flowHeader offset) page offset e { c.2 with batch := c.2.batch+1 }

/-- `odd` is the parity of the processor. -/
def maruswapRdmaRead (odd : Bool) (offset : U32) (e : ReadEnv) (s : Calls Page) :
    Option (U32 × Calls Page) :=
  (pickCtrl odd s.toDriver).bind fun c =>
    let n := getNumMemblock offset
    let picked := s.emit (.touch c n)
    match stageBufferLoad offset s.stageBuffer with
    | some page => some (0#32,picked.emit (.loaded page))
    | none =>
      let m := getReqForPage e.dma e.mapError picked
      if m.1 ≠ 0#32 then some m
      else ibRdmaSend c ((s.ctrl c).rdmaInfo n) (byteOffset (offset &&& 0x3ffff#32)) e m.2

/-! What a call that returns has come to, a branch of the source a case. -/

inductive Asked (c : ℕ) (offset : U32) (s : Calls Page) :
    Option RdmaInfo → U32 → Calls Page → Prop where
  | known {outcome : Option RdmaInfo}
      (hr : ((s.ctrl c).rdmaInfo (getNumMemblock offset)).rkey ≠ 0#32) :
      Asked c offset s outcome 0#32 (s.emit (.touch c (getNumMemblock offset)))
  | refused (hr : ((s.ctrl c).rdmaInfo (getNumMemblock offset)).rkey = 0#32) :
      Asked c offset s none 1#32
        ((s.emit (.touch c (getNumMemblock offset))).emit (.request c (openWord offset)))
  | opened {info : RdmaInfo}
      (hr : ((s.ctrl c).rdmaInfo (getNumMemblock offset)).rkey = 0#32)
      (hn : getNumMemblock offset < maxMemblock) :
      Asked c offset s (some info) 0#32
        ((((s.emit (.touch c (getNumMemblock offset))).emit
          (.request c (openWord offset))).withDriver
            (setRdmaInfo c (getNumMemblock offset) info s.toDriver)).emit
              (.opened c (getNumMemblock offset) info))

theorem open_unlocked_asked {c : ℕ} {offset : U32} {outcome : Option RdmaInfo}
    {s t : Calls Page} {ret : U32} (h : ibRpcOpenUnlocked c offset outcome s = some (ret,t)) :
    Asked c offset s outcome ret t := by
  unfold ibRpcOpenUnlocked at h
  dsimp only at h
  by_cases hr : ((s.ctrl c).rdmaInfo (getNumMemblock offset)).rkey = 0#32
  · rw [if_neg (not_not.mpr hr)] at h
    cases outcome with
    | none =>
      cases h
      exact .refused hr
    | some info =>
      obtain ⟨hn,heq⟩ := Option.ite_none_right_eq_some.mp h
      cases heq
      exact .opened hr hn
  · rw [if_pos hr] at h
    cases h
    exact .known hr

theorem asked_driver {c : ℕ} {offset : U32} {outcome : Option RdmaInfo} {s t : Calls Page}
    {ret : U32} (h : Asked c offset s outcome ret t) :
    WriterThreads.ibRpcOpenUnlocked c offset outcome s.toDriver = (ret,t.toDriver) := by
  cases h with
  | known hr => exact if_pos hr
  | refused hr => exact if_neg (not_not.mpr hr)
  | opened hr hn => exact if_neg (not_not.mpr hr)

/-- A controller is asked if it is alive; `tret` is kept if it is not. -/
inductive AskedLive (c : ℕ) (offset : U32) (outcome : Option RdmaInfo) (tret : U32)
    (s : Calls Page) : U32 → Calls Page → Prop where
  | dead (hd : (s.ctrl c).alive = false) : AskedLive c offset outcome tret s tret s
  | live {ret : U32} {t : Calls Page} (ha : (s.ctrl c).alive = true)
      (hask : Asked c offset s outcome ret t) : AskedLive c offset outcome tret s ret t

theorem open_all_asked {offset : U32} {openSub openMain : Option RdmaInfo} {s t : Calls Page}
    {ret : U32} (h : ibRpcOpenAll offset openSub openMain s = some (ret,t)) :
    ∃ sub rs u rm, subRdmaCtrl s.toDriver = some sub ∧ AskedLive sub offset openSub 0#32 s rs u ∧
      AskedLive s.mainRdmaCtrl offset openMain rs u rm t ∧ ret = rs ||| rm := by
  obtain ⟨sub,hsub,h⟩ := Option.bind_eq_some_iff.mp h
  obtain ⟨⟨rs,u⟩,hu,h⟩ := Option.bind_eq_some_iff.mp h
  obtain ⟨⟨rm,v⟩,hv,heq⟩ := Option.map_eq_some_iff.mp h
  obtain ⟨hret,rfl⟩ := Prod.mk.inj heq
  refine ⟨sub,rs,u,rm,hsub,?_,?_,hret.symm⟩
  · split_ifs at hu with ha
    · exact .live ha (open_unlocked_asked hu)
    · cases hu
      exact .dead (Bool.eq_false_of_not_eq_true ha)
  · dsimp only at hv
    split_ifs at hv with ha
    · exact .live ha (open_unlocked_asked hv)
    · cases hv
      exact .dead (Bool.eq_false_of_not_eq_true ha)

/-- The mapped page waits while the block is opened, if some entry is empty. -/
inductive Opening (offset : U32) (e : WriteEnv) (s : Calls Page) : U32 → Calls Page → Prop where
  | known (hk : WriterThreads.checkRdmaInfo (getNumMemblock offset) s.toDriver = false) :
      Opening offset e s 0#32 (checkRdmaInfo (getNumMemblock offset) (s.emit (.map e.dma))).2
  | asked {ret : U32} {t : Calls Page}
      (hk : WriterThreads.checkRdmaInfo (getNumMemblock offset) s.toDriver = true)
      (ho : ibRpcOpenAll offset e.openSub e.openMain
        (checkRdmaInfo (getNumMemblock offset) (s.emit (.map e.dma))).2 = some (ret,t)) :
      Opening offset e s ret t

inductive Committing (e : WriteEnv) (s : Calls Page) : U32 → Calls Page → Prop where
  | room (hb : ¬configBatch ≤ s.batch) : Committing e s 0#32 s
  | full (hb : configBatch ≤ s.batch) :
      Committing e s (ibRpcCommitAll e.commits s).1 (ibRpcCommitAll e.commits s).2

inductive Sending (page : Page) (offset : U32) (e : WriteEnv) (s : Calls Page) :
    U32 → Calls Page → Prop where
  | refused (hp : e.post ≠ 0#32) : Sending page offset e s e.post s
  | ended (hp : e.post = 0#32) (hd : pollLoop e.polls = some true) :
      Sending page offset e s 0#32
        ((storePage e.xa page offset (s.emit (.frame (flowHeader offset) page))).emit
          (.unmap e.dma))
  | failed (hp : e.post = 0#32) (hd : pollLoop e.polls = some false) :
      Sending page offset e s einval
        (storePage e.xa page offset (s.emit (.frame (flowHeader offset) page)))

def counted (s : Calls Page) : Calls Page := { s with batch := s.batch+1 }

inductive Writing (page : Page) (offset : U32) (e : WriteEnv) (s : Calls Page) :
    U32 → Calls Page → Prop where
  | unmapped (he : e.mapError = true) : Writing page offset e s enomem s
  | unopened {ret : U32} {t : Calls Page} (he : e.mapError = false)
      (ho : Opening offset e s ret t) (hret : ret ≠ 0#32) : Writing page offset e s 1#32 t
  | uncommitted {ret : U32} {u t : Calls Page} (he : e.mapError = false)
      (ho : Opening offset e s 0#32 u) (hc : Committing e u ret t) (hret : ret ≠ 0#32) :
      Writing page offset e s 1#32 t
  | sent {ret : U32} {u v t : Calls Page} (he : e.mapError = false)
      (ho : Opening offset e s 0#32 u) (hc : Committing e u 0#32 v)
      (hs : Sending page offset e (counted v) ret t) : Writing page offset e s ret t

theorem multicast_send_sending {page : Page} {offset : U32} {e : WriteEnv} {s t : Calls Page}
    {ret : U32} (h : ibMulticastSend (flowHeader offset) page offset e s = some (ret,t)) :
    Sending page offset e s ret t := by
  unfold ibMulticastSend at h
  dsimp only at h
  split_ifs at h with hp
  · cases h
    exact .refused hp
  · have hp := not_not.mp hp
    obtain ⟨done,hd,heq⟩ := Option.map_eq_some_iff.mp h
    cases done with
    | false =>
      cases heq
      exact .failed hp hd
    | true =>
      cases heq
      exact .ended hp hd

theorem write_writing {page : Page} {offset : U32} {e : WriteEnv} {s t : Calls Page} {ret : U32}
    (h : maruswapMulticastWrite page offset e s = some (ret,t)) :
    Writing page offset e s ret t := by
  unfold maruswapMulticastWrite getReqForPage at h
  cases he : e.mapError with
  | true =>
    simp only [he, if_true, ne_eq, show enomem ≠ 0#32 by decide, not_false_eq_true,
      Option.some.injEq, Prod.mk.injEq] at h
    obtain ⟨rfl,rfl⟩ := h
    exact .unmapped he
  | false =>
    simp only [he, Bool.false_eq_true, if_false, ne_eq, not_true_eq_false] at h
    obtain ⟨⟨ro,u⟩,ho,h⟩ := Option.bind_eq_some_iff.mp h
    have hopening : Opening offset e s ro u := by
      split_ifs at ho with hk
      · exact .asked hk ho
      · cases ho
        exact .known (Bool.eq_false_of_not_eq_true hk)
    dsimp only at h
    by_cases hro : ro = 0#32
    · subst hro
      rw [if_neg (not_not.mpr rfl)] at h
      by_cases hb : configBatch ≤ u.batch
      · rw [if_pos hb] at h
        by_cases hrc : (ibRpcCommitAll e.commits u).1 = 0#32
        · rw [if_neg (not_not.mpr hrc)] at h
          exact .sent he hopening (hrc ▸ .full hb) (multicast_send_sending h)
        · rw [if_pos hrc] at h
          cases h
          exact .uncommitted he hopening (.full hb) hrc
      · rw [if_neg hb, if_neg (not_not.mpr rfl)] at h
        exact .sent he hopening (.room hb) (multicast_send_sending h)
    · rw [if_pos hro] at h
      cases h
      exact .unopened he hopening hro

def fetching (c : ℕ) (offset : U32) (e : ReadEnv) (s : Calls Page) : Calls Page :=
  let mapped := (s.emit (.touch c (getNumMemblock offset))).emit (.map e.dma)
  if e.post = 0#32 then
    mapped.emit (.fetch c ((s.ctrl c).rdmaInfo (getNumMemblock offset))
      (byteOffset (offset &&& 0x3ffff#32)))
  else mapped

inductive Reading (c : ℕ) (offset : U32) (e : ReadEnv) (s : Calls Page) :
    U32 → Calls Page → Prop where
  | staged {page : Page} (hl : stageBufferLoad offset s.stageBuffer = some page) :
      Reading c offset e s 0#32
        ((s.emit (.touch c (getNumMemblock offset))).emit (.loaded page))
  | unmapped (hl : stageBufferLoad offset s.stageBuffer = none) (he : e.mapError = true) :
      Reading c offset e s enomem (s.emit (.touch c (getNumMemblock offset)))
  | ended (hl : stageBufferLoad offset s.stageBuffer = none) (he : e.mapError = false)
      (hd : pollLoop e.polls = some true) :
      Reading c offset e s e.post ((fetching c offset e s).emit (.unmap e.dma))
  | failed (hl : stageBufferLoad offset s.stageBuffer = none) (he : e.mapError = false)
      (hd : pollLoop e.polls = some false) :
      Reading c offset e s einval (fetching c offset e s)

theorem read_reading {odd : Bool} {offset : U32} {e : ReadEnv} {s t : Calls Page} {ret : U32}
    (h : maruswapRdmaRead odd offset e s = some (ret,t)) :
    ∃ c, pickCtrl odd s.toDriver = some c ∧ Reading c offset e s ret t := by
  obtain ⟨c,hc,h⟩ := Option.bind_eq_some_iff.mp h
  refine ⟨c,hc,?_⟩
  dsimp only at h
  cases hl : stageBufferLoad offset s.stageBuffer with
  | some page =>
    rw [hl] at h
    cases h
    exact .staged hl
  | none =>
    rw [hl] at h
    cases he : e.mapError with
    | true =>
      simp only [getReqForPage, he, if_true, ne_eq, show enomem ≠ 0#32 by decide,
        not_false_eq_true, Option.some.injEq, Prod.mk.injEq] at h
      obtain ⟨rfl,rfl⟩ := h
      exact .unmapped hl he
    | false =>
      simp only [getReqForPage, he, Bool.false_eq_true, if_false, ne_eq, not_true_eq_false] at h
      obtain ⟨done,hd,heq⟩ := Option.map_eq_some_iff.mp h
      cases done with
      | false =>
        cases heq
        exact .failed hl he hd
      | true =>
        cases heq
        exact .ended hl he hd

/-- The call's own completion is polled, by this thread or another, before a failed
one is polled here. -/
def Completes (polls : List Poll) : Prop :=
  ∃ pre r post, polls = pre++r::post ∧ (r = .got true ∨ r = .woken) ∧
    ∀ q ∈ pre, q = .miss ∨ q = .got false

theorem poll_loop_ends (polls : List Poll) : pollLoop polls = some true ↔ Completes polls := by
  have hloop : ∀ ps, pollLoop ps = ps.findSome? fun p => match p with
      | .miss => none
      | .failed => some false
      | .got own => if own then some true else none
      | .woken => some true := by
    intro ps
    induction ps with
    | nil => rfl
    | cons p ps ih =>
      cases p with
      | miss => simpa [pollLoop] using ih
      | failed => rfl
      | got own => cases own <;> simp [pollLoop, ih]
      | woken => rfl
  rw [hloop, List.findSome?_eq_some_iff]
  constructor
  · rintro ⟨pre,r,post,rfl,hr,hpre⟩
    refine ⟨pre,r,post,rfl,?_,fun q hq => ?_⟩
    · cases r with
      | miss => simp at hr
      | failed => simp at hr
      | got own => cases own <;> simp at hr ⊢
      | woken => exact .inr rfl
    · have hquiet := hpre q hq
      cases q with
      | miss => exact .inl rfl
      | failed => simp at hquiet
      | got own => cases own <;> simp at hquiet ⊢
      | woken => simp at hquiet
  · rintro ⟨pre,r,post,rfl,hr,hpre⟩
    refine ⟨pre,r,post,rfl,?_,fun q hq => ?_⟩
    · rcases hr with rfl | rfl <;> rfl
    · rcases hpre q hq with rfl | rfl <;> rfl

/-! What opening a block leaves alone. -/

def Event.Asks (n : ℕ) : Event Page → Prop
  | .touch _ m => m = n
  | .request _ _ => True
  | .opened _ m _ => m = n
  | _ => False

structure Asks (n : ℕ) (s t : Calls Page) : Prop where
  alive : ∀ c, (t.ctrl c).alive = (s.ctrl c).alive
  rdmaCtrlList : t.rdmaCtrlList = s.rdmaCtrlList
  mainRdmaCtrl : t.mainRdmaCtrl = s.mainRdmaCtrl
  batch : t.batch = s.batch
  stageBuffer : t.stageBuffer = s.stageBuffer
  log : ∃ new, t.log = new++s.log ∧ ∀ e ∈ new, e.Asks n

theorem Asks.refl (n : ℕ) (s : Calls Page) : Asks n s s :=
  ⟨fun _ => rfl,rfl,rfl,rfl,rfl,[],rfl,by simp⟩

theorem Asks.trans {n : ℕ} {s t u : Calls Page} (h : Asks n s t) (k : Asks n t u) :
    Asks n s u := by
  obtain ⟨new,hnew,hasks⟩ := h.log
  obtain ⟨more,hmore,hasks'⟩ := k.log
  refine ⟨fun c => (k.alive c).trans (h.alive c),k.rdmaCtrlList.trans h.rdmaCtrlList,
    k.mainRdmaCtrl.trans h.mainRdmaCtrl,k.batch.trans h.batch,
    k.stageBuffer.trans h.stageBuffer,more++new,?_,fun e he => ?_⟩
  · rw [hmore, hnew, List.append_assoc]
  · exact (List.mem_append.mp he).elim (hasks' e) (hasks e)

theorem asks_emits {n : ℕ} (s : Calls Page) (es : List (Event Page)) (h : ∀ e ∈ es, e.Asks n) :
    Asks n s (s.emits es) :=
  ⟨fun _ => rfl,rfl,rfl,rfl,rfl,es,rfl,h⟩

theorem asks_set (c n : ℕ) (info : RdmaInfo) (s : Calls Page) :
    Asks n s (s.withDriver (setRdmaInfo c n info s.toDriver)) := by
  refine ⟨fun d => ?_,rfl,rfl,rfl,rfl,[],rfl,by simp⟩
  by_cases hd : d = c
  · subst hd; simp [withDriver, setRdmaInfo]
  · simp [withDriver, setRdmaInfo, hd]

theorem asked_asks {c : ℕ} {offset : U32} {outcome : Option RdmaInfo} {s t : Calls Page}
    {ret : U32} (h : Asked c offset s outcome ret t) : Asks (getNumMemblock offset) s t := by
  have htouch : ∀ e ∈ ([.touch c (getNumMemblock offset)] : List (Event Page)),
      e.Asks (getNumMemblock offset) := by simp [Event.Asks]
  have hrequest : ∀ e ∈ ([.request c (openWord offset)] : List (Event Page)),
      e.Asks (getNumMemblock offset) := by simp [Event.Asks]
  cases h with
  | known hr => exact asks_emits s _ htouch
  | refused hr => exact (asks_emits s _ htouch).trans (asks_emits _ _ hrequest)
  | @opened info hr hn =>
    have hopened : ∀ e ∈ ([.opened c (getNumMemblock offset) info] : List (Event Page)),
        e.Asks (getNumMemblock offset) := by simp [Event.Asks]
    exact (((asks_emits s _ htouch).trans (asks_emits _ _ hrequest)).trans
      (asks_set c _ info _)).trans (asks_emits _ _ hopened)

theorem asked_live_asks {c : ℕ} {offset : U32} {outcome : Option RdmaInfo} {tret ret : U32}
    {s t : Calls Page} (h : AskedLive c offset outcome tret s ret t) :
    Asks (getNumMemblock offset) s t := by
  cases h with
  | dead hd => exact Asks.refl _ s
  | live ha hask => exact asked_asks hask

theorem check_asks (n : ℕ) (s : Calls Page) : Asks n s (checkRdmaInfo n s).2 := by
  refine asks_emits s _ fun e he => ?_
  obtain ⟨c,-,rfl⟩ := List.mem_map.mp (List.mem_reverse.mp he)
  exact rfl

theorem open_all_asks {offset : U32} {openSub openMain : Option RdmaInfo} {s t : Calls Page}
    {ret : U32} (h : ibRpcOpenAll offset openSub openMain s = some (ret,t)) :
    Asks (getNumMemblock offset) s t := by
  obtain ⟨sub,rs,u,rm,-,hs,hm,-⟩ := open_all_asked h
  exact (asked_live_asks hs).trans (asked_live_asks hm)

theorem opening_asks {offset : U32} {e : WriteEnv} {s t : Calls Page} {ret : U32}
    (h : Opening offset e s ret t) : Asks (getNumMemblock offset) (s.emit (.map e.dma)) t := by
  cases h with
  | known hk => exact check_asks _ _
  | asked hk ho => exact (check_asks _ _).trans (open_all_asks ho)

/-! When opening and committing succeed. -/

/-- Controller `c` has an entry for the block, or answers the OPEN. -/
def Answers (n c : ℕ) (outcome : Option RdmaInfo) (s : Calls Page) : Prop :=
  (s.ctrl c).alive = true → ((s.ctrl c).rdmaInfo n).rkey ≠ 0#32 ∨ outcome.isSome

/-- If some entry for the block is empty, the two controllers that are asked answer. -/
def OpensAnswered (offset : U32) (e : WriteEnv) (s : Calls Page) : Prop :=
  WriterThreads.checkRdmaInfo (getNumMemblock offset) s.toDriver = true →
    (∀ sub, subRdmaCtrl s.toDriver = some sub →
      Answers (getNumMemblock offset) sub e.openSub s) ∧
    Answers (getNumMemblock offset) s.mainRdmaCtrl e.openMain s

/-- If the batch is full, every live controller of the list answers the COMMIT. -/
def CommitsAnswered (e : WriteEnv) (s : Calls Page) : Prop :=
  configBatch ≤ s.batch → ∀ c ∈ s.rdmaCtrlList, (s.ctrl c).alive → e.commits c = 0#32

theorem sub_ne_main {s : Calls Page} {sub : ℕ} (h : subRdmaCtrl s.toDriver = some sub) :
    sub ≠ s.mainRdmaCtrl := by
  simpa using List.find?_some h

theorem asked_others {c : ℕ} {offset : U32} {outcome : Option RdmaInfo} {s t : Calls Page}
    {ret : U32} (h : Asked c offset s outcome ret t) {d : ℕ} (hd : d ≠ c) :
    t.ctrl d = s.ctrl d := by
  cases h with
  | known hr => rfl
  | refused hr => rfl
  | opened hr hn => simp [emit, withDriver, setRdmaInfo, hd]

theorem asked_zero_iff {c : ℕ} {offset : U32} {outcome : Option RdmaInfo} {s t : Calls Page}
    {ret : U32} (h : Asked c offset s outcome ret t) :
    ret = 0#32 ↔
      ((s.ctrl c).rdmaInfo (getNumMemblock offset)).rkey ≠ 0#32 ∨ outcome.isSome := by
  cases h with
  | known hr => exact iff_of_true rfl (.inl hr)
  | refused hr => simp [hr]
  | opened hr hn => simp

theorem asked_live_zero_iff {c : ℕ} {offset : U32} {outcome : Option RdmaInfo} {tret ret : U32}
    {s t : Calls Page} (h : AskedLive c offset outcome tret s ret t) (htret : tret = 0#32) :
    ret = 0#32 ↔ Answers (getNumMemblock offset) c outcome s := by
  cases h with
  | dead hd => exact iff_of_true htret fun ha => by simp [hd] at ha
  | live ha hask =>
    rw [asked_zero_iff hask, Answers, ha]
    simp

theorem open_all_zero_iff {offset : U32} {openSub openMain : Option RdmaInfo} {s t : Calls Page}
    {ret : U32} (h : ibRpcOpenAll offset openSub openMain s = some (ret,t)) :
    ret = 0#32 ↔
      (∀ sub, subRdmaCtrl s.toDriver = some sub →
        Answers (getNumMemblock offset) sub openSub s) ∧
      Answers (getNumMemblock offset) s.mainRdmaCtrl openMain s := by
  obtain ⟨sub,rs,u,rm,hsub,hs,hm,rfl⟩ := open_all_asked h
  have hmain : u.ctrl s.mainRdmaCtrl = s.ctrl s.mainRdmaCtrl := by
    cases hs with
    | dead hd => rfl
    | live ha hask => exact asked_others hask (sub_ne_main hsub).symm
  have hanswers : Answers (getNumMemblock offset) s.mainRdmaCtrl openMain u ↔
      Answers (getNumMemblock offset) s.mainRdmaCtrl openMain s := by
    rw [Answers, Answers, hmain]
  have hsubs : (∀ sub, subRdmaCtrl s.toDriver = some sub →
      Answers (getNumMemblock offset) sub openSub s) ↔ rs = 0#32 := by
    rw [asked_live_zero_iff hs rfl, hsub]
    simp
  rw [hsubs, ← hanswers, BitVec.or_eq_zero_iff]
  constructor
  · rintro ⟨hrs,hrm⟩
    exact ⟨hrs,(asked_live_zero_iff hm hrs).mp hrm⟩
  · rintro ⟨hrs,ha⟩
    exact ⟨hrs,(asked_live_zero_iff hm hrs).mpr ha⟩

theorem opening_zero_iff {offset : U32} {e : WriteEnv} {s t : Calls Page} {ret : U32}
    (h : Opening offset e s ret t) : ret = 0#32 ↔ OpensAnswered offset e s := by
  cases h with
  | known hk => exact iff_of_true rfl fun hk' => by simp [hk] at hk'
  | asked hk ho =>
    rw [open_all_zero_iff ho, OpensAnswered, hk]
    exact ⟨fun h _ => h,fun h => h rfl⟩

theorem committing_zero_iff {offset : U32} {e : WriteEnv} {s u t : Calls Page} {ret : U32}
    (ho : Opening offset e s 0#32 u) (h : Committing e u ret t) :
    ret = 0#32 ↔ CommitsAnswered e s := by
  have hu := opening_asks ho
  have hb : u.batch = s.batch := hu.batch
  have hlist : u.rdmaCtrlList = s.rdmaCtrlList := hu.rdmaCtrlList
  have halive : ∀ c, (u.ctrl c).alive = (s.ctrl c).alive := hu.alive
  cases h with
  | room hroom =>
    rw [hb] at hroom
    exact iff_of_true rfl fun hfull => absurd hfull hroom
  | full hfull =>
    rw [hb] at hfull
    refine (commit_ret_zero (fun c => (u.ctrl c).alive) e.commits u.rdmaCtrlList 0#32).trans ?_
    simp only [halive, hlist, true_and, CommitsAnswered]
    exact ⟨fun h _ => h,fun h => h hfull⟩

/-! Runs. -/

inductive Op (Page : Type*) where
  | connect (c : ℕ)
  | write (page : Page) (offset : U32) (e : WriteEnv)
  | read (odd : Bool) (offset : U32) (e : ReadEnv)
  | commit (c : ℕ) (ret : U32)
  | qcommit (c : ℕ) (count ret : U32)
  | commitAll (results : ℕ → U32)
  | qcommitAll (count : U32) (results : ℕ → U32)

def step : Op Page → Calls Page → Option (Calls Page)
  | .connect c, s => some (s.withDriver
      { s.toDriver with ctrl := Function.update s.ctrl c { s.ctrl c with alive := true } })
  | .write page offset e, s =>
    (maruswapMulticastWrite page offset e s).map fun r => r.2.emit (.wrote offset r.1)
  | .read odd offset e, s => (maruswapRdmaRead odd offset e s).map Prod.snd
  | .commit c ret, s => some (ibRpcCommit c ret s).2
  | .qcommit c count ret, s => some (ibRpcQcommit c count ret s).2
  | .commitAll results, s => some (ibRpcCommitAll results s).2
  | .qcommitAll count results, s => some (ibRpcQcommitAll count results s).2

/-- After `init_ib`: `rdma_info` is empty, what lies behind it is not, and any of the
controllers may be alive. -/
def initCalls (alive : ℕ → Bool) (behind : ℕ → ℕ → RdmaInfo) (rdmaCtrlList : List ℕ)
    (mainRdmaCtrl : ℕ) (buffer : ℕ → Page) : Calls Page where
  ctrl := fun c => ⟨alive c,fun n => if n < maxMemblock then ⟨⟨0,0⟩,0#32⟩ else behind c n⟩
  rdmaCtrlList := rdmaCtrlList
  mainRdmaCtrl := mainRdmaCtrl
  batch := 0
  stageBuffer := ⟨buffer,0,fun _ => none,0⟩
  log := []

end Maruswap.DriverCalls
