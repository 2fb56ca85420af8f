import Maruswap.GuardedRun
import Mathlib.Data.Int.Notation

/-!
# Loading the driver

`init_ib` in one thread and the connection manager handlers of the main, the sub
and the multicast connection in others. Events come in any order and number, a
wait may end because it was completed, timed out or was interrupted, and every
allocation and every call into the verbs may fail. A handler has set its state
and may have completed the wait before it stores its error. A fault ends the
thread it happens in.
-/

set_option autoImplicit false

namespace Maruswap.ModuleInit
open GuardedRun

def einval : ℤ := 22
def enomem : ℤ := 12
def econnreset : ℤ := 104
def nrRecv : ℕ := 32

/-- A handler of the connection manager; `running` holds its local `cm_error`. -/
inductive Handler where
  | idle
  | running (cmError : ℤ)
  | faulted
  deriving DecidableEq

/-- What all control blocks share. `created` says that the id exists and its
address is being resolved; `cmDone` counts the completions not yet waited for. -/
structure Cm where
  created : Bool
  cmError : ℤ
  cmDone : ℕ
  handler : Handler

structure RdmaCtrl where
  alive : Bool
  qp : Bool
  cm : Cm

structure MulticastCtrl where
  udPackage : Bool
  cm : Cm

/-- Which of the calls made by `rdma_addr_resolved` succeed. -/
structure AddrResolved where
  allocPd : Bool
  allocMr : Bool
  allocSndCq : Bool
  allocRcvCq : Bool
  createQp : Bool
  resolveRoute : Bool

inductive Posted where
  | noMemory
  | refused
  | posted

structure Established where
  rcvBuffer : Bool
  mapRcvBuffer : Bool
  mapBuffer : Bool
  recvWork : ℕ → Posted

structure Joined where
  allocUd : Bool
  createAh : Bool
  allocSndCq : Bool
  allocRcvCq : Bool

inductive CmEvent where
  | addrResolved (o : AddrResolved)
  | routeResolved (connect : Bool)
  | established (o : Established)
  | rejected
  | addrError
  | routeError
  | connectError
  | unreachable
  | disconnected
  | addrChange
  | timewaitExit
  | deviceRemoval
  | other

inductive MulticastEvent where
  | addrResolved (allocPd join : Bool)
  | routeResolved (join : Bool)
  | established
  | rejected
  | addrError
  | routeError
  | connectError
  | unreachable
  | disconnected
  | addrChange
  | timewaitExit
  | deviceRemoval
  | join (o : Joined)
  | multicastError
  | other

/-- A completion queue that cannot be allocated is freed as an error pointer. -/
def rdmaAddrResolved (o : AddrResolved) (r : RdmaCtrl) : Handler × RdmaCtrl :=
  if !o.allocPd then (.running (-einval),r)
  else if !o.allocMr then (.running (-einval),r)
  else if !o.allocSndCq then (.faulted,r)
  else if !o.allocRcvCq then (.faulted,r)
  else if !o.createQp then (.running (-einval),r)
  else if !o.resolveRoute then (.running (-einval),{ r with qp := true })
  else (.running 0,{ r with qp := true })

def rdmaRouteResolved (connect : Bool) (r : RdmaCtrl) : Handler :=
  if !r.qp then .faulted
  else if connect then .running 0 else .running (-einval)

/-- The loop over the receive works; `*rw` is written without a check. -/
def postRecvWorks : List Posted → Handler
  | [] => .running 0
  | .noMemory::_ => .faulted
  | .refused::_ => .running (-einval)
  | .posted::os => postRecvWorks os

def rdmaConnectEstablished (o : Established) (r : RdmaCtrl) : Handler × RdmaCtrl :=
  if !r.qp then (.faulted,r)
  else if !o.rcvBuffer then (.running 1,r)
  else if !o.mapRcvBuffer then (.running (-enomem),r)
  else if !o.mapBuffer then (.running (-enomem),r)
  else match postRecvWorks ((List.range nrRecv).map o.recvWork) with
    | .running 0 => (.running 0,{ r with alive := true })
    | h => (h,r)

def Cm.complete (cm : Cm) : Cm := { cm with cmDone := cm.cmDone+1 }

def RdmaCtrl.setHandler (r : RdmaCtrl) (h : Handler) : RdmaCtrl :=
  { r with cm := { r.cm with handler := h } }

/-- The `switch` of `ib_rdma_cm_handler`. ESTABLISHED completes the wait whether
it failed or not. -/
def ibRdmaCmHandler (r : RdmaCtrl) : CmEvent → RdmaCtrl
  | .addrResolved o => (rdmaAddrResolved o r).2.setHandler (rdmaAddrResolved o r).1
  | .routeResolved connect => r.setHandler (rdmaRouteResolved connect r)
  | .established o => match rdmaConnectEstablished o r with
    | (.faulted,r) => r.setHandler .faulted
    | (h,r) => { r.setHandler h with cm := (r.setHandler h).cm.complete }
  | .rejected => r.setHandler (.running (-einval))
  | .addrError => r.setHandler (.running (-econnreset))
  | .routeError => r.setHandler (.running (-econnreset))
  | .connectError => r.setHandler (.running (-econnreset))
  | .unreachable => r.setHandler (.running (-econnreset))
  | .disconnected => r.setHandler (.running 0)
  | .addrChange => r.setHandler (.running 0)
  | .timewaitExit => r.setHandler (.running 0)
  | .deviceRemoval => r.setHandler (.running 0)
  | .other => r.setHandler (.running 0)

def multicastAddrResolved (allocPd join : Bool) : ℤ :=
  if !allocPd then -einval else if join then 0 else -einval

def multicastRouteResolved (join : Bool) : ℤ := if join then 0 else -einval

/-- The package is stored before the queues are allocated; a queue pair that
cannot be created is only logged. -/
def multicastCtrlJoined (o : Joined) (m : MulticastCtrl) : Handler × MulticastCtrl :=
  if !o.allocUd then (.running (-einval),m)
  else if !o.createAh then (.running (-einval),m)
  else if !o.allocSndCq then (.faulted,{ m with udPackage := true })
  else if !o.allocRcvCq then (.faulted,{ m with udPackage := true })
  else (.running 0,{ m with udPackage := true })

def MulticastCtrl.setHandler (m : MulticastCtrl) (h : Handler) : MulticastCtrl :=
  { m with cm := { m.cm with handler := h } }

def ibMulticastCmHandler (m : MulticastCtrl) : MulticastEvent → MulticastCtrl
  | .addrResolved allocPd join => m.setHandler (.running (multicastAddrResolved allocPd join))
  | .routeResolved join => m.setHandler (.running (multicastRouteResolved join))
  | .join o => match multicastCtrlJoined o m with
    | (.faulted,m) => m.setHandler .faulted
    | (h,m) => { m.setHandler h with cm := (m.setHandler h).cm.complete }
  | .addrError => m.setHandler (.running (-econnreset))
  | .routeError => m.setHandler (.running (-econnreset))
  | .connectError => m.setHandler (.running (-econnreset))
  | .unreachable => m.setHandler (.running (-econnreset))
  | .multicastError => m.setHandler (.running (-econnreset))
  | .established => m.setHandler (.running 0)
  | .rejected => m.setHandler (.running 0)
  | .disconnected => m.setHandler (.running 0)
  | .addrChange => m.setHandler (.running 0)
  | .timewaitExit => m.setHandler (.running 0)
  | .deviceRemoval => m.setHandler (.running 0)
  | .other => m.setHandler (.running 0)

/-- The rest of both handlers. -/
def Cm.finish (cm : Cm) : Option Cm := match cm.handler with
  | .running 0 => some { cm with handler := .idle }
  | .running e => some { cm with handler := .idle, cmError := e, cmDone := cm.cmDone+1 }
  | _ => none

inductive Waited where
  | completed
  | timeout
  | interrupted

def Cm.wait (cm : Cm) : Waited → Option Cm
  | .completed => if cm.cmDone = 0 then none else some { cm with cmDone := cm.cmDone-1 }
  | .timeout => some cm
  | .interrupted => some cm

structure InitRdma where
  allocCtrl : Bool
  allocBuffer : Bool
  createId : Bool
  parseDst : Bool
  parseSrc : Bool
  resolveAddr : Bool

structure InitMulticast where
  createId : Bool
  parseMulticast : Bool
  parseSrc : Bool
  resolveAddr : Bool

inductive Conn where
  | main
  | sub
  deriving DecidableEq

inductive Pc where
  | initRdma (c : Conn)
  | waiting (c : Conn)
  | initMulticast
  | waitingMulticast
  | initStage
  | finish
  | returned (ret : ℤ)
  | oops
  deriving DecidableEq

structure Driver where
  pc : Pc
  rdma : Conn → RdmaCtrl
  multicast : MulticastCtrl
  stageBuffer : Bool

def newCm (created : Bool) : Cm := ⟨created,0,0,.idle⟩

def Driver.setRdma (s : Driver) (c : Conn) (r : RdmaCtrl) : Driver :=
  { s with rdma := Function.update s.rdma c r }

/-- Up to the wait. An id that could not be created is tested through the wrong
pointer and then used; of the control block that is not returned `init_ib`
prints the name: every failure is a fault. -/
def initRdmaCtrl (c : Conn) (o : InitRdma) (s : Driver) : Driver :=
  if o.allocCtrl && o.allocBuffer && o.createId && o.parseDst && o.parseSrc && o.resolveAddr then
    { s.setRdma c ⟨false,false,newCm true⟩ with pc := .waiting c }
  else { s with pc := .oops }

def initMulticastCtrl (o : InitMulticast) (s : Driver) : Driver :=
  if o.createId && o.parseMulticast && o.parseSrc && o.resolveAddr then
    { s with multicast := ⟨false,newCm true⟩, pc := .waitingMulticast }
  else { s with multicast := ⟨false,newCm false⟩, pc := .returned (-einval) }

/-- The result of `init_stage_buffer` is 0 in both cases. -/
def initStageBuffer (alloc : Bool) (s : Driver) : Driver :=
  { s with stageBuffer := alloc, pc := .finish }

def next : Conn → Pc
  | .main => .initRdma .sub
  | .sub => .initMulticast

inductive Label where
  | initRdma (o : InitRdma)
  | wait (w : Waited)
  | initMulticast (o : InitMulticast)
  | initStage (alloc : Bool)
  | finish
  | event (c : Conn) (ev : CmEvent)
  | eventEnd (c : Conn)
  | multicastEvent (ev : MulticastEvent)
  | multicastEnd

def step : Label → Driver → Option Driver
  | .initRdma o, s => match s.pc with
    | .initRdma c => some (initRdmaCtrl c o s)
    | _ => none
  | .wait w, s => match s.pc with
    | .waiting c => ((s.rdma c).cm.wait w).map fun cm =>
        { s.setRdma c { s.rdma c with cm := cm } with pc := next c }
    | .waitingMulticast => (s.multicast.cm.wait w).map fun cm =>
        { s with multicast := { s.multicast with cm := cm }, pc := .initStage }
    | _ => none
  | .initMulticast o, s => match s.pc with
    | .initMulticast => some (initMulticastCtrl o s)
    | _ => none
  | .initStage alloc, s => match s.pc with
    | .initStage => some (initStageBuffer alloc s)
    | _ => none
  | .finish, s => match s.pc with
    | .finish => some { s with pc := .returned (s.rdma .sub).cm.cmError }
    | _ => none
  | .event c ev, s =>
    if (s.rdma c).cm.created ∧ (s.rdma c).cm.handler = .idle then
      some (s.setRdma c (ibRdmaCmHandler (s.rdma c) ev))
    else none
  | .eventEnd c, s => (s.rdma c).cm.finish.map fun cm =>
      s.setRdma c { s.rdma c with cm := cm }
  | .multicastEvent ev, s =>
    if s.multicast.cm.created ∧ s.multicast.cm.handler = .idle then
      some { s with multicast := ibMulticastCmHandler s.multicast ev }
    else none
  | .multicastEnd, s => s.multicast.cm.finish.map fun cm =>
      { s with multicast := { s.multicast with cm := cm } }

def initDriver : Driver :=
  ⟨.initRdma .main,fun _ => ⟨false,false,newCm false⟩,⟨false,newCm false⟩,false⟩

structure Usable (s : Driver) : Prop where
  alive : ∀ c, (s.rdma c).alive = true
  udPackage : s.multicast.udPackage = true
  stageBuffer : s.stageBuffer = true

/-! What the events bring. -/

def AddrResolved.Creates (o : AddrResolved) : Prop :=
  o.allocPd = true ∧ o.allocMr = true ∧ o.allocSndCq = true ∧ o.allocRcvCq = true ∧
    o.createQp = true

def Established.Succeeds (o : Established) : Prop :=
  o.rcvBuffer = true ∧ o.mapRcvBuffer = true ∧ o.mapBuffer = true ∧
    ∀ i < nrRecv, o.recvWork i = .posted

def CmEvent.Fails : CmEvent → Prop
  | .addrResolved o => ¬o.Creates ∨ o.resolveRoute = false
  | .routeResolved connect => connect = false
  | .established o => ¬o.Succeeds
  | .rejected => True
  | .addrError => True
  | .routeError => True
  | .connectError => True
  | .unreachable => True
  | _ => False

def Resolves (c : Conn) (ls : List Label) : Prop :=
  ∃ o : AddrResolved, o.Creates ∧ .event c (.addrResolved o) ∈ ls

def Connects (c : Conn) (ls : List Label) : Prop :=
  ∃ o : Established, o.Succeeds ∧ .event c (.established o) ∈ ls

/-- An event of the connection fails and its handler has ended. -/
def Fails (c : Conn) (ls : List Label) : Prop :=
  ∃ front back ev, ls = front++.event c ev::back ∧ ev.Fails ∧ .eventEnd c ∈ back

def Joins (ls : List Label) : Prop :=
  ∃ o : Joined, (o.allocUd = true ∧ o.createAh = true) ∧ .multicastEvent (.join o) ∈ ls

/-- Both connections have been established on a queue pair, the group has been joined
and the stage buffer allocated. -/
structure ComesUp (ls : List Label) : Prop where
  resolves : ∀ c, Resolves c ls
  connects : ∀ c, Connects c ls
  joins : Joins ls
  stage : .initStage true ∈ ls

/-! What one event does. -/

theorem addr_resolved_effect (o : AddrResolved) (r : RdmaCtrl) :
    ((rdmaAddrResolved o r).2.qp = true ↔ r.qp = true ∨ o.Creates) ∧
      (rdmaAddrResolved o r).2.alive = r.alive ∧ (rdmaAddrResolved o r).2.cm = r.cm ∧
      (¬o.Creates ∨ o.resolveRoute = false → (rdmaAddrResolved o r).1 = .faulted ∨
        ∃ e ≠ 0, (rdmaAddrResolved o r).1 = .running e) := by
  unfold rdmaAddrResolved AddrResolved.Creates
  split_ifs <;> simp_all [einval]

theorem post_recv_works_cases (os : List Posted) :
    (postRecvWorks os = .running 0 ∧ ∀ o ∈ os, o = .posted) ∨
      (∃ o ∈ os, o ≠ .posted) ∧ (postRecvWorks os = .faulted ∨
        ∃ e ≠ 0, postRecvWorks os = .running e) := by
  induction os with
  | nil => exact .inl ⟨rfl,nofun⟩
  | cons o os ih =>
    cases o with
    | noMemory => exact .inr ⟨⟨_,List.mem_cons_self ..,nofun⟩,.inl rfl⟩
    | refused => exact .inr ⟨⟨_,List.mem_cons_self ..,nofun⟩,.inr ⟨-einval,by decide,rfl⟩⟩
    | posted =>
      refine ih.imp (And.imp_right fun h o ho => ?_) (And.imp_left fun ⟨o,ho,hne⟩ => ?_)
      · exact (List.mem_cons.mp ho).elim id (h o)
      · exact ⟨o,List.mem_cons_of_mem _ ho,hne⟩

theorem established_effect (o : Established) (r : RdmaCtrl) :
    (rdmaConnectEstablished o r).2.qp = r.qp ∧ (rdmaConnectEstablished o r).2.cm = r.cm ∧
      ((rdmaConnectEstablished o r).2.alive = true ↔
        r.alive = true ∨ r.qp = true ∧ o.Succeeds) ∧
      (r.qp = false → (rdmaConnectEstablished o r).1 = .faulted) ∧
      (¬o.Succeeds → (rdmaConnectEstablished o r).1 = .faulted ∨
        ∃ e ≠ 0, (rdmaConnectEstablished o r).1 = .running e) := by
  have hall : (∀ x ∈ (List.range nrRecv).map o.recvWork, x = .posted) ↔
      ∀ i < nrRecv, o.recvWork i = .posted := by simp
  unfold rdmaConnectEstablished Established.Succeeds
  split_ifs with hqp hbuf hrcv hmap
  · simp_all
  · simp_all
  · simp_all [enomem]
  · simp_all [enomem]
  · rcases post_recv_works_cases ((List.range nrRecv).map o.recvWork) with ⟨hp,ho⟩ | ⟨hno,hp⟩
    · rw [hp]
      simp_all
    · have hnot : ¬∀ i < nrRecv, o.recvWork i = .posted := by
        rw [← hall]
        exact fun h => hno.elim fun x hx => hx.2 (h x hx.1)
      rcases hp with hp | ⟨e,he,hp⟩
      · rw [hp]
        simp only [hnot, and_false, or_false]
        simp
      · rw [hp]
        have hmatch : (match Handler.running e with
          | .running 0 => (.running 0,{ r with alive := true })
          | h => (h,r)) = (Handler.running e,r) := by
          split
          · next h0 => exact absurd (Handler.running.inj h0) he
          · rfl
        rw [hmatch]
        simp only [hnot, and_false, or_false]
        simp_all

structure Handled (r : RdmaCtrl) (ev : CmEvent) (t : RdmaCtrl) : Prop where
  qp : t.qp = true ↔ r.qp = true ∨ ∃ o, ev = .addrResolved o ∧ o.Creates
  alive : t.alive = true ↔ r.alive = true ∨ r.qp = true ∧ ∃ o, ev = .established o ∧ o.Succeeds
  lost : r.qp = false → (∃ o, ev = .established o) → t.qp = false ∧ t.cm.handler = .faulted
  fails : ev.Fails → t.cm.handler = .faulted ∨ ∃ e ≠ 0, t.cm.handler = .running e
  created : t.cm.created = r.cm.created
  cmError : t.cm.cmError = r.cm.cmError

theorem cm_handler_handled (r : RdmaCtrl) (ev : CmEvent) : Handled r ev (ibRdmaCmHandler r ev) := by
  cases ev with
  | addrResolved o =>
    obtain ⟨hqp,halive,hcm,hfails⟩ := addr_resolved_effect o r
    constructor
    · simpa [ibRdmaCmHandler, RdmaCtrl.setHandler] using hqp
    · simp [ibRdmaCmHandler, RdmaCtrl.setHandler, halive]
    · simp
    · exact hfails
    · simp [ibRdmaCmHandler, RdmaCtrl.setHandler, hcm]
    · simp [ibRdmaCmHandler, RdmaCtrl.setHandler, hcm]
  | established o =>
    obtain ⟨hqp,hcm,halive,hlost,hfails⟩ := established_effect o r
    simp only [ibRdmaCmHandler]
    generalize rdmaConnectEstablished o r = x at hqp hcm halive hlost hfails
    obtain ⟨h,t⟩ := x
    cases h <;> constructor <;>
      simp_all [RdmaCtrl.setHandler, Cm.complete, CmEvent.Fails]
  | routeResolved connect =>
    constructor
    · simp [ibRdmaCmHandler, RdmaCtrl.setHandler]
    · simp [ibRdmaCmHandler, RdmaCtrl.setHandler]
    · simp
    · intro hf
      have hc : connect = false := hf
      simp only [ibRdmaCmHandler, RdmaCtrl.setHandler, rdmaRouteResolved, hc]
      split_ifs <;> simp_all [einval]
    · rfl
    · rfl
  | _ =>
    constructor <;> simp [ibRdmaCmHandler, RdmaCtrl.setHandler, CmEvent.Fails, einval, econnreset]

theorem resolves_snoc {c : Conn} {ls : List Label} {l : Label} : Resolves c (ls++[l]) ↔
    Resolves c ls ∨ ∃ o : AddrResolved, o.Creates ∧ l = .event c (.addrResolved o) := by
  simp [Resolves, and_or_left, exists_or, eq_comm]

theorem connects_snoc {c : Conn} {ls : List Label} {l : Label} : Connects c (ls++[l]) ↔
    Connects c ls ∨ ∃ o : Established, o.Succeeds ∧ l = .event c (.established o) := by
  simp [Connects, and_or_left, exists_or, eq_comm]

theorem fails_snoc {c : Conn} {ls : List Label} {l : Label} (h : Fails c (ls++[l])) :
    Fails c ls ∨ l = .eventEnd c ∧ ∃ ev, ev.Fails ∧ .event c ev ∈ ls := by
  obtain ⟨front,back,ev,heq,hf,hend⟩ := h
  rcases List.eq_nil_or_concat back with rfl | ⟨back,m,rfl⟩
  · cases hend
  · rw [List.concat_eq_append, ← List.cons_append, ← List.append_assoc] at heq
    obtain ⟨hls,hl⟩ := List.append_inj' heq rfl
    rw [List.concat_eq_append] at hend
    rcases List.mem_append.mp hend with hend | hend
    · exact .inl ⟨front,back,ev,hls,hf,hend⟩
    · obtain rfl := List.mem_singleton.mp hend
      exact .inr ⟨(List.singleton_inj.mp hl),ev,hf,by simp [hls]⟩

/-- What a connection's control block shows of the labels `ls`. -/
structure Seen (c : Conn) (ls : List Label) (r : RdmaCtrl) : Prop where
  unborn : r.cm.created = false → ∀ ev, .event c ev ∉ ls
  qp : r.qp = true ↔ Resolves c ls
  alive : r.alive = true → r.qp = true ∧ Connects c ls
  connected : Connects c ls → r.alive = true ∨ r.qp = false ∧ r.cm.handler = .faulted
  failing : ∀ ev, ev.Fails → .event c ev ∈ ls → r.cm.cmError ≠ 0 ∨
    r.cm.handler = .faulted ∨ ∃ e ≠ 0, r.cm.handler = .running e
  failed : Fails c ls → r.cm.cmError ≠ 0

theorem Seen.other {c : Conn} {ls : List Label} {l : Label} {r t : RdmaCtrl} (h : Seen c ls r)
    (hl : ∀ ev, l ≠ .event c ev) (hend : l ≠ .eventEnd c)
    (ht : t.alive = r.alive ∧ t.qp = r.qp ∧ t.cm.created = r.cm.created ∧
      t.cm.cmError = r.cm.cmError ∧ t.cm.handler = r.cm.handler) : Seen c (ls++[l]) t := by
  obtain ⟨halive,hqp,hcreated,herror,hhandler⟩ := ht
  have hresolves : Resolves c (ls++[l]) ↔ Resolves c ls := by simp [resolves_snoc, hl]
  have hconnects : Connects c (ls++[l]) ↔ Connects c ls := by simp [connects_snoc, hl]
  have hmem : ∀ ev, Label.event c ev ∈ ls++[l] ↔ .event c ev ∈ ls := fun ev => by
    simp [Ne.symm (hl ev)]
  constructor
  · simpa only [hcreated, hmem] using h.unborn
  · rw [hqp, hresolves]
    exact h.qp
  · rw [halive, hqp, hconnects]
    exact h.alive
  · rw [halive, hqp, hconnects, hhandler]
    exact h.connected
  · simpa only [herror, hhandler, hmem] using h.failing
  · rw [herror]
    exact fun hf => h.failed ((fails_snoc hf).resolve_right fun he => hend he.1)

theorem Seen.set_up {c : Conn} {ls : List Label} {l : Label} {r t : RdmaCtrl} (h : Seen c ls r)
    (hr : r.cm.created = false) (hl : ∀ ev, l ≠ .event c ev)
    (ht : t = ⟨false,false,newCm true⟩) : Seen c (ls++[l]) t := by
  have hno := h.unborn hr
  have hmem : ∀ ev, Label.event c ev ∉ ls++[l] := fun ev => by
    simpa [Ne.symm (hl ev)] using hno ev
  subst ht
  constructor
  · exact nofun
  · exact iff_of_false Bool.false_ne_true fun ⟨_,_,ho⟩ => hmem _ ho
  · exact fun hf => absurd hf Bool.false_ne_true
  · exact fun ⟨_,_,ho⟩ => absurd ho (hmem _)
  · exact fun ev _ hev => absurd hev (hmem ev)
  · intro hf
    obtain ⟨front,back,ev,heq,-,-⟩ := hf
    exact absurd (by rw [heq]; simp) (hmem ev)

theorem Seen.event {c : Conn} {ls : List Label} {ev : CmEvent} {r t : RdmaCtrl} (h : Seen c ls r)
    (hborn : r.cm.created = true) (hidle : r.cm.handler = .idle) (ht : Handled r ev t) :
    Seen c (ls++[.event c ev]) t := by
  have hresolves : Resolves c (ls++[.event c ev]) ↔
      Resolves c ls ∨ ∃ o, ev = .addrResolved o ∧ o.Creates := by
    simp [resolves_snoc, and_comm]
  have hconnects : Connects c (ls++[.event c ev]) ↔
      Connects c ls ∨ ∃ o, ev = .established o ∧ o.Succeeds := by
    simp [connects_snoc, and_comm]
  -- the handler was idle, so an earlier fault is ruled out
  have hwas : Connects c ls → r.alive = true := fun hc =>
    (h.connected hc).resolve_right fun hf => by simp [hidle] at hf
  constructor
  · exact fun hf => absurd (ht.created.symm.trans hf) (by simp [hborn])
  · rw [ht.qp, hresolves, h.qp]
  · intro ha
    rcases ht.alive.mp ha with ha | ⟨hq,ho⟩
    · obtain ⟨hq,hc⟩ := h.alive ha
      exact ⟨ht.qp.mpr (.inl hq),hconnects.mpr (.inl hc)⟩
    · exact ⟨ht.qp.mpr (.inl hq),hconnects.mpr (.inr ho)⟩
  · intro hc
    rcases hconnects.mp hc with hc | ⟨o,rfl,ho⟩
    · exact .inl (ht.alive.mpr (.inl (hwas hc)))
    · cases hq : r.qp with
      | true => exact .inl (ht.alive.mpr (.inr ⟨hq,o,rfl,ho⟩))
      | false => exact .inr (ht.lost hq ⟨o,rfl⟩)
  · intro x hx hmem
    rcases List.mem_append.mp hmem with hmem | hmem
    · rw [ht.cmError]
      refine .inl ((h.failing x hx hmem).resolve_right ?_)
      simp [hidle]
    · obtain rfl : x = ev := by simpa using hmem
      exact .inr (ht.fails hx)
  · rw [ht.cmError]
    exact fun hf => h.failed ((fails_snoc hf).resolve_right fun he => by simp at he)

theorem finish_effect {cm cm' : Cm} (h : cm.finish = some cm') :
    cm'.created = cm.created ∧ cm'.handler = .idle ∧
      ∃ e, cm.handler = .running e ∧ cm'.cmError = if e = 0 then cm.cmError else e := by
  unfold Cm.finish at h
  split at h
  · next hh => exact Option.some.inj h ▸ ⟨rfl,rfl,0,hh,rfl⟩
  · next e hne hh => exact Option.some.inj h ▸ ⟨rfl,rfl,e,hh,(if_neg hne).symm⟩
  · cases h

theorem Seen.finish {c : Conn} {ls : List Label} {r : RdmaCtrl} {cm : Cm} (h : Seen c ls r)
    (hcm : r.cm.finish = some cm) : Seen c (ls++[.eventEnd c]) { r with cm := cm } := by
  obtain ⟨hcreated,hidle,e,he,herror⟩ := finish_effect hcm
  have hresolves : Resolves c (ls++[.eventEnd c]) ↔ Resolves c ls := by simp [resolves_snoc]
  have hconnects : Connects c (ls++[.eventEnd c]) ↔ Connects c ls := by simp [connects_snoc]
  have hmem : ∀ ev, Label.event c ev ∈ ls++[.eventEnd c] ↔ .event c ev ∈ ls := fun ev => by simp
  have hstored : ∀ ev, ev.Fails → .event c ev ∈ ls → cm.cmError ≠ 0 := by
    intro ev hev hls
    rw [herror]
    have hf := h.failing ev hev hls
    split
    · simp_all
    · assumption
  constructor
  · simpa only [hcreated, hmem] using h.unborn
  · rw [hresolves]
    exact h.qp
  · rw [hconnects]
    exact h.alive
  · rw [hconnects]
    exact fun hc => .inl ((h.connected hc).resolve_right fun hf => by simp [he] at hf)
  · exact fun ev hev hls => .inl (hstored ev hev ((hmem ev).mp hls))
  · intro hf
    rcases fails_snoc hf with hf | ⟨-,ev,hev,hls⟩
    · show cm.cmError ≠ 0
      rw [herror]
      split
      · exact h.failed hf
      · assumption
    · exact hstored ev hev hls

theorem multicast_handler_effect (m : MulticastCtrl) (ev : MulticastEvent) :
    ((ibMulticastCmHandler m ev).udPackage = true ↔ m.udPackage = true ∨
      ∃ o, ev = .join o ∧ o.allocUd = true ∧ o.createAh = true) ∧
    (ibMulticastCmHandler m ev).cm.created = m.cm.created := by
  cases ev with
  | join o =>
    have hj : ((multicastCtrlJoined o m).2.udPackage = true ↔
        m.udPackage = true ∨ o.allocUd = true ∧ o.createAh = true) ∧
        (multicastCtrlJoined o m).2.cm = m.cm := by
      unfold multicastCtrlJoined
      split_ifs <;> simp_all
    simp only [ibMulticastCmHandler]
    generalize multicastCtrlJoined o m = x at hj
    obtain ⟨h,t⟩ := x
    cases h <;> simp_all [MulticastCtrl.setHandler, Cm.complete]
  | _ => simp [ibMulticastCmHandler, MulticastCtrl.setHandler]

def rank : Pc → ℕ
  | .initRdma .main => 0
  | .waiting .main => 1
  | .initRdma .sub => 2
  | .waiting .sub => 3
  | .initMulticast => 4
  | .waitingMulticast => 5
  | .initStage => 6
  | .finish => 7
  | .returned _ => 8
  | .oops => 8

def Conn.turn : Conn → ℕ
  | .main => 0
  | .sub => 2

theorem turn_lt (c : Conn) : c.turn < 4 := by
  cases c <;> decide

structure Recorded (ls : List Label) (s : Driver) : Prop where
  rdma : ∀ c, Seen c ls (s.rdma c)
  born : ∀ c, (s.rdma c).cm.created = true → c.turn < rank s.pc
  joined : s.multicast.udPackage = true ↔ Joins ls
  unjoined : s.multicast.cm.created = false → ∀ ev, .multicastEvent ev ∉ ls
  group : s.multicast.cm.created = true → 4 < rank s.pc
  early : rank s.pc ≤ 6 → ∀ alloc, .initStage alloc ∉ ls
  stage : s.stageBuffer = true ↔ .initStage true ∈ ls

theorem init_recorded : Recorded [] initDriver where
  rdma := fun c => ⟨fun _ _ => nofun,by simp [initDriver, Resolves],by simp [initDriver],
    by simp [Connects],fun _ _ => nofun,by simp [Fails]⟩
  born := by simp [initDriver, newCm]
  joined := by simp [initDriver, Joins]
  unjoined := fun _ _ => nofun
  group := by simp [initDriver, newCm]
  early := fun _ _ => nofun
  stage := by simp [initDriver]

theorem set_rdma_rdma (s : Driver) (c d : Conn) (r : RdmaCtrl) :
    (s.setRdma c r).rdma d = if d = c then r else s.rdma d := by
  by_cases h : d = c
  · subst h
    simp [Driver.setRdma]
  · simp [Driver.setRdma, h]

def Label.Quiet (l : Label) : Prop :=
  (∀ c ev, l ≠ .event c ev) ∧ (∀ c, l ≠ .eventEnd c) ∧ ∀ ev, l ≠ .multicastEvent ev

theorem Seen.quiet {c : Conn} {ls : List Label} {l : Label} {r : RdmaCtrl} (h : Seen c ls r)
    (hl : l.Quiet) : Seen c (ls++[l]) r :=
  h.other (hl.1 c) (hl.2.1 c) ⟨rfl,rfl,rfl,rfl,rfl⟩

theorem joins_quiet {ls : List Label} {l : Label} (hl : ∀ ev, l ≠ .multicastEvent ev) :
    Joins (ls++[l]) ↔ Joins ls := by
  simp [Joins, Ne.symm (hl _)]

theorem Recorded.connection {ls : List Label} {l : Label} {s : Driver} {c : Conn}
    {r : RdmaCtrl} {p : Pc} (h : Recorded ls s) (hr : Seen c (ls++[l]) r)
    (hother : ∀ d, d ≠ c → (∀ ev, l ≠ .event d ev) ∧ l ≠ .eventEnd d)
    (hm : ∀ ev, l ≠ .multicastEvent ev) (hst : ∀ alloc, l ≠ .initStage alloc)
    (hborn : r.cm.created = true → c.turn < rank p) (hpc : rank s.pc ≤ rank p) :
    Recorded (ls++[l]) { s.setRdma c r with pc := p } where
  rdma := fun d => by
    show Seen d (ls++[l]) ((s.setRdma c r).rdma d)
    rw [set_rdma_rdma]
    split
    · next hd => exact hd ▸ hr
    · next hd =>
      exact (h.rdma d).other (hother d hd).1 (hother d hd).2 ⟨rfl,rfl,rfl,rfl,rfl⟩
  born := fun d => by
    show ((s.setRdma c r).rdma d).cm.created = true → d.turn < rank p
    rw [set_rdma_rdma]
    split
    · next hd => exact hd ▸ hborn
    · exact fun hd => Nat.lt_of_lt_of_le (h.born d hd) hpc
  joined := h.joined.trans (joins_quiet hm).symm
  unjoined := fun hc ev hmem => by
    rcases List.mem_append.mp hmem with hmem | hmem
    · exact h.unjoined hc ev hmem
    · exact hm ev (List.mem_singleton.mp hmem).symm
  group := fun hc => Nat.lt_of_lt_of_le (h.group hc) hpc
  early := fun hp alloc hmem => by
    rcases List.mem_append.mp hmem with hmem | hmem
    · exact h.early (Nat.le_trans hpc hp) alloc hmem
    · exact hst alloc (List.mem_singleton.mp hmem).symm
  stage := by
    show s.stageBuffer = true ↔ _
    rw [h.stage, List.mem_append, List.mem_singleton]
    simp [Ne.symm (hst true)]

theorem not_staged {ls : List Label} {l : Label} (hl : ∀ alloc, l ≠ .initStage alloc)
    {alloc : Bool} : .initStage alloc ∈ ls++[l] ↔ .initStage alloc ∈ ls := by
  simp [Ne.symm (hl alloc)]

theorem Recorded.ahead {ls : List Label} {l : Label} {s t : Driver} (h : Recorded ls s)
    (hl : l.Quiet) (hst : ∀ alloc, l ≠ .initStage alloc) (hrdma : t.rdma = s.rdma)
    (hm : t.multicast.udPackage = s.multicast.udPackage ∧
      t.multicast.cm.created = s.multicast.cm.created)
    (hstage : t.stageBuffer = s.stageBuffer) (hpc : rank s.pc ≤ rank t.pc) :
    Recorded (ls++[l]) t where
  rdma := fun c => hrdma ▸ (h.rdma c).quiet hl
  born := fun c hc => Nat.lt_of_lt_of_le (h.born c (hrdma ▸ hc)) hpc
  joined := by
    rw [hm.1, joins_quiet hl.2.2]
    exact h.joined
  unjoined := fun hc ev hmem => by
    rcases List.mem_append.mp hmem with hmem | hmem
    · exact h.unjoined (hm.2 ▸ hc) ev hmem
    · exact hl.2.2 ev (List.mem_singleton.mp hmem).symm
  group := fun hc => Nat.lt_of_lt_of_le (h.group (hm.2 ▸ hc)) hpc
  early := fun hp alloc hmem =>
    h.early (Nat.le_trans hpc hp) alloc ((not_staged hst).mp hmem)
  stage := by
    rw [hstage, not_staged hst]
    exact h.stage

theorem wait_effect {cm cm' : Cm} {w : Waited} (h : cm.wait w = some cm') :
    cm'.created = cm.created ∧ cm'.cmError = cm.cmError ∧ cm'.handler = cm.handler := by
  cases w with
  | completed =>
    obtain ⟨-,h⟩ := Option.ite_none_left_eq_some.mp h
    exact Option.some.inj h ▸ ⟨rfl,rfl,rfl⟩
  | timeout => exact Option.some.inj h ▸ ⟨rfl,rfl,rfl⟩
  | interrupted => exact Option.some.inj h ▸ ⟨rfl,rfl,rfl⟩

theorem init_rdma_recorded {ls : List Label} {s : Driver} {c : Conn} (o : InitRdma)
    (h : Recorded ls s) (hpc : s.pc = .initRdma c) :
    Recorded (ls++[.initRdma o]) (initRdmaCtrl c o s) := by
  have hrank : rank s.pc = c.turn := by rw [hpc]; cases c <;> rfl
  have hunborn : (s.rdma c).cm.created = false := by
    by_contra hc
    exact absurd (h.born c (by simpa using hc)) (by omega)
  unfold initRdmaCtrl
  split
  · refine h.connection ((h.rdma c).set_up hunborn (by simp) rfl) (by simp) (by simp) (by simp)
      ?_ ?_
    · intro _
      cases c <;> decide
    · rw [hrank]
      cases c <;> decide
  · refine h.ahead ⟨by simp,by simp,by simp⟩ (by simp) rfl ⟨rfl,rfl⟩ rfl ?_
    rw [hrank]
    exact Nat.le_trans (Nat.le_of_lt (turn_lt c)) (by simp [rank])

theorem wait_recorded {ls : List Label} {s : Driver} {c : Conn} {w : Waited} {cm : Cm}
    (h : Recorded ls s) (hpc : s.pc = .waiting c) (hcm : (s.rdma c).cm.wait w = some cm) :
    Recorded (ls++[.wait w]) { s.setRdma c { s.rdma c with cm := cm } with pc := next c } := by
  obtain ⟨hcreated,herror,hhandler⟩ := wait_effect hcm
  refine h.connection ?_ (by simp) (by simp) (by simp) ?_ ?_
  · exact (h.rdma c).other (by simp) (by simp) ⟨rfl,rfl,hcreated,herror,hhandler⟩
  · intro _
    cases c <;> decide
  · rw [hpc]
    cases c <;> decide

theorem init_multicast_recorded {ls : List Label} {s : Driver} (o : InitMulticast)
    (h : Recorded ls s) (hpc : s.pc = .initMulticast) :
    Recorded (ls++[.initMulticast o]) (initMulticastCtrl o s) := by
  have hno : ∀ ev, .multicastEvent ev ∉ ls := by
    refine h.unjoined (Bool.eq_false_iff.mpr fun hc => ?_)
    have := h.group hc
    simp [hpc, rank] at this
  have hearly : ∀ alloc, .initStage alloc ∉ ls := h.early (by simp [hpc, rank])
  have hjoins : ¬Joins (ls++[.initMulticast o]) := by
    rintro ⟨j,-,hj⟩
    simpa using hno _ (by simpa using hj)
  have hstage : s.stageBuffer = false := by
    have := h.stage
    simpa [hearly true] using this
  unfold initMulticastCtrl
  split
  · refine ⟨fun c => (h.rdma c).quiet ⟨by simp,by simp,by simp⟩,fun c hc => ?_,
      iff_of_false Bool.false_ne_true hjoins,by simp [newCm],by simp [rank],by simp [hearly],
      by simp [hearly, hstage]⟩
    exact Nat.lt_trans (turn_lt c) (by simp [rank])
  · refine ⟨fun c => (h.rdma c).quiet ⟨by simp,by simp,by simp⟩,fun c hc => ?_,
      iff_of_false Bool.false_ne_true hjoins,fun _ => by simpa using hno,by simp [newCm],
      by simp [hearly],by simp [hearly, hstage]⟩
    exact Nat.lt_trans (turn_lt c) (by simp [rank])

theorem init_stage_recorded {ls : List Label} {s : Driver} (alloc : Bool) (h : Recorded ls s)
    (hpc : s.pc = .initStage) : Recorded (ls++[.initStage alloc]) (initStageBuffer alloc s) where
  rdma := fun c => (h.rdma c).quiet ⟨by simp,by simp,by simp⟩
  born := fun c _ => Nat.lt_trans (turn_lt c) (by simp [initStageBuffer, rank])
  joined := h.joined.trans (joins_quiet (by simp)).symm
  unjoined := by simpa [initStageBuffer] using h.unjoined
  group := by simp [initStageBuffer, rank]
  early := by simp [initStageBuffer, rank]
  stage := by
    have hearly := h.early (by simp [hpc, rank]) true
    simp [initStageBuffer, hearly]

theorem event_recorded {ls : List Label} {s : Driver} {c : Conn} (ev : CmEvent)
    (h : Recorded ls s) (hborn : (s.rdma c).cm.created = true)
    (hidle : (s.rdma c).cm.handler = .idle) :
    Recorded (ls++[.event c ev]) (s.setRdma c (ibRdmaCmHandler (s.rdma c) ev)) := by
  have hhandled := cm_handler_handled (s.rdma c) ev
  refine h.connection (p := s.pc) ((h.rdma c).event hborn hidle hhandled) ?_ (by simp) (by simp)
    (fun hc => h.born c (hhandled.created ▸ hc)) (Nat.le_refl _)
  exact fun d hd => ⟨by simp [Ne.symm hd],by simp⟩

theorem event_end_recorded {ls : List Label} {s : Driver} {c : Conn} {cm : Cm}
    (h : Recorded ls s) (hcm : (s.rdma c).cm.finish = some cm) :
    Recorded (ls++[.eventEnd c]) (s.setRdma c { s.rdma c with cm := cm }) := by
  refine h.connection (p := s.pc) ((h.rdma c).finish hcm) ?_ (by simp) (by simp)
    (fun hc => h.born c ((finish_effect hcm).1 ▸ hc)) (Nat.le_refl _)
  exact fun d hd => ⟨by simp,by simp [Ne.symm hd]⟩

theorem multicast_event_recorded {ls : List Label} {s : Driver} (ev : MulticastEvent)
    (h : Recorded ls s) (hborn : s.multicast.cm.created = true) :
    Recorded (ls++[.multicastEvent ev])
      { s with multicast := ibMulticastCmHandler s.multicast ev } := by
  obtain ⟨hud,hcreated⟩ := multicast_handler_effect s.multicast ev
  have hjoins : Joins (ls++[.multicastEvent ev]) ↔
      Joins ls ∨ ∃ o, ev = .join o ∧ o.allocUd = true ∧ o.createAh = true := by
    simp only [Joins, List.mem_append, List.mem_singleton, Label.multicastEvent.injEq, and_or_left,
      exists_or, eq_comm (b := ev), and_comm]
  refine ⟨fun c => (h.rdma c).other (by simp) (by simp) ⟨rfl,rfl,rfl,rfl,rfl⟩,h.born,?_,?_,?_,
    ?_,?_⟩
  · rw [hud, hjoins, h.joined]
  · exact fun hc => absurd (hcreated.symm.trans hc) (by simp [hborn])
  · exact fun hc => h.group hborn
  · exact fun hp alloc hmem => h.early hp alloc ((not_staged (by simp)).mp hmem)
  · exact h.stage.trans (not_staged (by simp)).symm

theorem step_recorded (ls : List Label) (l : Label) (s t : Driver) (h : Recorded ls s)
    (hs : step l s = some t) : Recorded (ls++[l]) t := by
  cases l with
  | initRdma o =>
    simp only [step] at hs
    split at hs
    · next c hpc => exact Option.some.inj hs ▸ init_rdma_recorded o h hpc
    · cases hs
  | wait w =>
    simp only [step] at hs
    split at hs
    · next c hpc =>
      obtain ⟨cm,hcm,rfl⟩ := Option.map_eq_some_iff.mp hs
      exact wait_recorded h hpc hcm
    · next hpc =>
      obtain ⟨cm,hcm,rfl⟩ := Option.map_eq_some_iff.mp hs
      exact h.ahead ⟨by simp,by simp,by simp⟩ (by simp) rfl ⟨rfl,(wait_effect hcm).1⟩ rfl
        (by simp [hpc, rank])
    · cases hs
  | initMulticast o =>
    simp only [step] at hs
    split at hs
    · next hpc => exact Option.some.inj hs ▸ init_multicast_recorded o h hpc
    · cases hs
  | initStage alloc =>
    simp only [step] at hs
    split at hs
    · next hpc => exact Option.some.inj hs ▸ init_stage_recorded alloc h hpc
    · cases hs
  | finish =>
    simp only [step] at hs
    split at hs
    · next hpc =>
      exact Option.some.inj hs ▸ h.ahead ⟨by simp,by simp,by simp⟩ (by simp) rfl ⟨rfl,rfl⟩ rfl
        (by simp [hpc, rank])
    · cases hs
  | event c ev =>
    obtain ⟨⟨hborn,hidle⟩,hs⟩ := Option.ite_none_right_eq_some.mp hs
    exact Option.some.inj hs ▸ event_recorded ev h hborn hidle
  | eventEnd c =>
    obtain ⟨cm,hcm,rfl⟩ := Option.map_eq_some_iff.mp hs
    exact event_end_recorded h hcm
  | multicastEvent ev =>
    obtain ⟨⟨hborn,-⟩,hs⟩ := Option.ite_none_right_eq_some.mp hs
    exact Option.some.inj hs ▸ multicast_event_recorded ev h hborn
  | multicastEnd =>
    obtain ⟨cm,hcm,rfl⟩ := Option.map_eq_some_iff.mp hs
    exact ⟨fun c => (h.rdma c).other (by simp) (by simp) ⟨rfl,rfl,rfl,rfl,rfl⟩,h.born,
      h.joined.trans (joins_quiet (by simp)).symm,
      fun hc ev hmem => h.unjoined ((finish_effect hcm).1 ▸ hc) ev (by simpa using hmem),
      fun hc => h.group ((finish_effect hcm).1 ▸ hc),
      fun hp alloc hmem => h.early hp alloc ((not_staged (by simp)).mp hmem),
      h.stage.trans (not_staged (by simp)).symm⟩

theorem step_returned {r : ℤ} (l : Label) (s t : Driver) (h : s.pc = .returned r)
    (hs : step l s = some t) : t.pc = .returned r := by
  cases l with
  | event c ev => exact Option.some.inj (Option.ite_none_right_eq_some.mp hs).2 ▸ h
  | eventEnd c =>
    obtain ⟨cm,-,rfl⟩ := Option.map_eq_some_iff.mp hs
    exact h
  | multicastEvent ev => exact Option.some.inj (Option.ite_none_right_eq_some.mp hs).2 ▸ h
  | multicastEnd =>
    obtain ⟨cm,-,rfl⟩ := Option.map_eq_some_iff.mp hs
    exact h
  | _ => simp [step, h] at hs

theorem Recorded.usable_iff {ls : List Label} {s : Driver} (h : Recorded ls s) :
    Usable s ↔ ComesUp ls := by
  constructor
  · intro hu
    exact ⟨fun c => (h.rdma c).qp.mp ((h.rdma c).alive (hu.alive c)).1,
      fun c => ((h.rdma c).alive (hu.alive c)).2,h.joined.mp hu.udPackage,
      h.stage.mp hu.stageBuffer⟩
  · intro hup
    refine ⟨fun c => ((h.rdma c).connected (hup.connects c)).resolve_right fun hf => ?_,
      h.joined.mpr hup.joins,h.stage.mpr hup.stage⟩
    have hqp := (h.rdma c).qp.mpr (hup.resolves c)
    rw [hf.1] at hqp
    cases hqp

/-- Whatever `init_ib` returns, the driver is usable exactly if its connections have come up.
Of the failures it reports those of the sub connection, if they are stored in time. -/
theorem init_usable (ls : List Label) (s : Driver) (h : run step ls initDriver = some s) :
    (Usable s ↔ ComesUp ls) ∧
      ∀ front back, ls = front++.finish::back → Fails .sub front → s.pc ≠ .returned 0 := by
  refine ⟨(run_history step_recorded init_recorded h).usable_iff,?_⟩
  rintro front back rfl hf hret
  rw [run_append] at h
  obtain ⟨u,hu,h⟩ := Option.bind_eq_some_iff.mp h
  obtain ⟨v,hv,h⟩ := run_cons.mp h
  have herror := ((run_history step_recorded init_recorded hu).rdma .sub).failed hf
  simp only [step] at hv
  split at hv
  · obtain rfl := Option.some.inj hv
    have hpc := run_induction (step_returned (r := (u.rdma .sub).cm.cmError)) rfl h
    rw [hret] at hpc
    exact herror (Pc.returned.inj hpc).symm
  · cases hv

def everyAddr : AddrResolved := ⟨true,true,true,true,true,true⟩
def everyRdma : InitRdma := ⟨true,true,true,true,true,true⟩

def connectLabels (c : Conn) : List Label :=
  [.initRdma everyRdma,.event c (.addrResolved everyAddr),.eventEnd c,
    .event c (.routeResolved true),.eventEnd c,
    .event c (.established ⟨true,true,true,fun _ => .posted⟩),.eventEnd c,.wait .completed]

def multicastLabels : List Label :=
  [.initMulticast ⟨true,true,true,true⟩,.multicastEvent (.addrResolved true true),.multicastEnd,
    .multicastEvent (.join ⟨true,true,true,true⟩),.multicastEnd,.wait .completed]

theorem init_usable_sample : ∃ s, run step (connectLabels .main++connectLabels .sub++
    multicastLabels++[.initStage true,.finish]) initDriver = some s ∧
      s.pc = .returned 0 ∧ Usable s := by
  have hret : ∀ s ∈ run step (connectLabels .main++connectLabels .sub++multicastLabels++
      [.initStage true,.finish]) initDriver, s.pc = .returned 0 := by decide +kernel
  have hup : ComesUp (connectLabels .main++connectLabels .sub++multicastLabels++
      [.initStage true,.finish]) := by
    refine ⟨fun c => ⟨everyAddr,⟨rfl,rfl,rfl,rfl,rfl⟩,?_⟩,
      fun c => ⟨⟨true,true,true,fun _ => .posted⟩,⟨rfl,rfl,rfl,fun _ _ => rfl⟩,?_⟩,
      ⟨⟨true,true,true,true⟩,⟨rfl,rfl⟩,by simp [multicastLabels]⟩,by simp⟩
    · cases c <;> simp [connectLabels]
    · cases c <;> simp [connectLabels]
  have hsome : (run step (connectLabels .main++connectLabels .sub++multicastLabels++
      [.initStage true,.finish]) initDriver).isSome := by decide +kernel
  obtain ⟨s,hs⟩ := Option.isSome_iff_exists.mp hsome
  exact ⟨s,hs,hret s hs,(init_usable _ s hs).1.mpr hup⟩

/-- No event is ever delivered and the stage buffer cannot be allocated. -/
def silentLabels : List Label :=
  [.initRdma everyRdma,.wait .timeout,.initRdma everyRdma,.wait .timeout,
    .initMulticast ⟨true,true,true,true⟩,.wait .timeout,.initStage false,.finish]

/-- All waits time out, and the driver is loaded with nothing there. -/
theorem loaded_unusable :
    (¬ ∀ ls s, run step ls initDriver = some s → s.pc = .returned 0 → Usable s) ∧
    ∃ s, run step silentLabels initDriver = some s ∧ s.pc = .returned 0 ∧
      (∀ c, (s.rdma c).alive = false) ∧ s.multicast.udPackage = false ∧
      s.stageBuffer = false := by
  obtain ⟨s,hs⟩ : ∃ s, run step silentLabels initDriver = some s := ⟨_,rfl⟩
  have hend : s.pc = .returned 0 ∧ (∀ c, (s.rdma c).alive = false) ∧
      s.multicast.udPackage = false ∧ s.stageBuffer = false := by
    obtain rfl := Option.some.inj hs
    refine ⟨rfl,fun c => ?_,rfl,rfl⟩
    cases c <;> rfl
  refine ⟨fun h => ?_,s,hs,hend⟩
  have hu := (h silentLabels s hs hend.1).stageBuffer
  rw [hend.2.2.2] at hu
  cases hu

end Maruswap.ModuleInit
