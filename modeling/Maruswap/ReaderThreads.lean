import Maruswap.OneWriter
import Maruswap.KeyedLog

/-!
# Readers beside the writer

The writer's frames go to every server and wait there until they are handled, in
any order that keeps the frames of a page in theirs. `maruswap_rdma_read` takes a
page from the stage buffer or by RDMA from the server it picked. The number of a
frame and the page a read expects are ghosts.
-/

set_option autoImplicit false

namespace Maruswap.ReaderThreads
open WireFormat DriverStage WriterThreads OneWriter

variable {Page : Type*}

def pageOf (offset : U32) : ℕ := offset.toNat % 2^28

structure Frame (Page : Type*) where
  number : ℕ
  header : U32
  page : Page

/-- The memblocks of a server, and the frames posted and not handled. -/
structure Server (Page : Type*) where
  memory : Ptr → Page
  pending : List (Frame Page)

inductive ReadPc where
  | idle
  | loading
  | missed
  | issued (addr : Ptr)
  | returned (ret : U32)
  deriving DecidableEq

/-- `page` is what was copied to the caller. `expect` is the content of the latest
write to the offset, if that returned 0 before the read and none has begun since. -/
structure Reader (Page : Type*) where
  pc : ReadPc
  offset : U32
  ctrl : ℕ
  page : Option Page
  expect : Option Page

/-- `latest` is the content of the latest write to an offset, if that returned 0
and no other that names the same page has begun since. -/
structure Cluster (Page : Type*) extends Writers Page where
  server : ℕ → Server Page
  reader : ℕ → Reader Page
  latest : U32 → Option Page

/-- `lost` are the servers that a frame whose completion failed does not reach. -/
inductive Label (Page : Type*) where
  | driver (l : WriterThreads.Label Page) (lost : ℕ → Bool)
  | deliver (c k : ℕ)
  | read (r : ℕ) (offset : U32) (odd : Bool)
  | load (r : ℕ)
  | issue (r : ℕ) (ret : U32)
  | rdmaRead (r : ℕ) (ret : U32)

namespace Server

def post (f : Frame Page) (s : Server Page) : Server Page := { s with pending := s.pending++[f] }

def lose (number : ℕ) (s : Server Page) : Server Page :=
  { s with pending := s.pending.filter (fun f => f.number != number) }

/-- Frame `k` of the queue is copied to the page its header names. -/
def deliver (k : ℕ) (s : Server Page) : Option (Server Page) :=
  s.pending[k]?.bind fun f =>
    if (s.pending.take k).all (fun g => pageOffset g.header != pageOffset f.header) then
      (interpretHeader f.header).map fun hd =>
        { memory := Function.update s.memory ⟨hd.nrBlock,byteOffset hd.offset⟩ f.page
          pending := s.pending.take k++s.pending.drop (k+1) }
    else none

end Server

def served (l : WriterThreads.Label Page) (lost : ℕ → Bool) (w : Cluster Page) (c : ℕ) :
    Server Page :=
  match l with
  | .post i ret =>
    if ret = 0#32 then
      (w.server c).post ⟨w.frames.length,flowHeader (w.call i).offset,(w.call i).page⟩
    else w.server c
  | .complete _ success =>
    if !success && lost c then (w.server c).lose (w.frames.length-1) else w.server c
  | _ => w.server c

def ReadPc.done : ReadPc → Bool
  | .returned _ => true
  | _ => false

def Reader.overlapped (l : WriterThreads.Label Page) (rd : Reader Page) : Reader Page :=
  match l with
  | .call _ offset _ _ =>
    if pageOf rd.offset = pageOf offset ∧ rd.pc.done = false then { rd with expect := none }
    else rd
  | _ => rd

def written (l : WriterThreads.Label Page) (w : Cluster Page) : U32 → Option Page :=
  match l with
  | .call _ offset _ _ => fun o => if pageOf o = pageOf offset then none else w.latest o
  | .complete i success =>
    if success then Function.update w.latest (w.call i).offset (some (w.call i).page)
    else w.latest
  | _ => w.latest

namespace Cluster

def drive (l : WriterThreads.Label Page) (lost : ℕ → Bool) (u : Writers Page)
    (w : Cluster Page) : Cluster Page where
  toWriters := u
  server := served l lost w
  reader := fun r => (w.reader r).overlapped l
  latest := written l w

def setReader (w : Cluster Page) (r : ℕ) (rd : Reader Page) : Cluster Page :=
  { w with reader := Function.update w.reader r rd }

theorem reader_self (w : Cluster Page) (r : ℕ) (rd : Reader Page) :
    (w.setReader r rd).reader r = rd := Function.update_self ..

end Cluster

/-- `smp_processor_id()%2` -/
def pickCtrl (odd : Bool) (d : Driver Page) : Option ℕ :=
  if odd then some d.mainRdmaCtrl else subRdmaCtrl d

def stageLoad (b : StageBuffer Page) (rd : Reader Page) : Reader Page :=
  match stageBufferLoad rd.offset b with
  | some page => { rd with pc := .returned 0#32, page := some page }
  | none => { rd with pc := .missed }

/-- `rdma_info->remote_addr + (send_offset << PAGE_SHIFT)` -/
def readAddr (d : Driver Page) (rd : Reader Page) : Ptr :=
  let info := (d.ctrl rd.ctrl).rdmaInfo (getNumMemblock rd.offset)
  { info.remoteAddr with
    byte := info.remoteAddr.byte+byteOffset (rd.offset &&& 0x3ffff#32) }

def step : Label Page → Cluster Page → Option (Cluster Page)
  | .driver l lost, w => (WriterThreads.step l w.toWriters).map fun u => w.drive l lost u
  | .deliver c k, w => ((w.server c).deliver k).map fun s =>
    { w with server := Function.update w.server c s }
  | .read r offset odd, w =>
    if ((w.reader r).pc = .idle ∨ (w.reader r).pc.done) ∧
        getNumMemblock offset < maxMemblock then
      (pickCtrl odd w.toDriver).map fun c =>
        w.setReader r ⟨.loading,offset,c,none,w.latest offset⟩
    else none
  | .load r, w =>
    if (w.reader r).pc = .loading then
      some (w.setReader r (stageLoad w.stageBuffer (w.reader r)))
    else none
  | .issue r ret, w =>
    if (w.reader r).pc = .missed then
      some (w.setReader r { w.reader r with
        pc := if ret = 0#32 then .issued (readAddr w.toDriver (w.reader r)) else .returned ret })
    else none
  | .rdmaRead r ret, w => match (w.reader r).pc with
    | .issued addr => some (w.setReader r (if ret = 0#32 then
        { w.reader r with
          pc := .returned 0#32
          page := some ((w.server (w.reader r).ctrl).memory addr) }
        else { w.reader r with pc := .returned ret }))
    | _ => none

/-- A commit is answered by a server that has handled every frame posted before
it: the writer that waits for the answer is the only one, so these are all. -/
def Committed : WriterThreads.Label Page → Cluster Page → Prop
  | .commitRpc i _, w => ∀ c todo ret, w.pc i = .committing (c::todo) ret →
    (w.server c).pending = []
  | _, _ => True

/-- One writer, servers that answer, and RDMA reads that succeed. -/
def Reliable : Label Page → Cluster Page → Prop
  | .driver l _, w => thread l = some 0 ∧ Answered l w.toWriters ∧ Committed l w
  | .issue _ ret, _ => ret = 0#32
  | .rdmaRead _ ret, _ => ret = 0#32
  | _, _ => True

def initCluster (buffer : ℕ → Page) (call : ℕ → Call Page) (memory : ℕ → Ptr → Page) :
    Cluster Page where
  toWriters := initWriters (fun _ => ⟨true,fun _ => ⟨⟨0,0⟩,0#32⟩⟩) [1,0] 0 buffer call
  server := fun c => ⟨memory c,[]⟩
  reader := fun _ => ⟨.idle,0#32,0,none,none⟩
  latest := fun _ => none

def Server.pageAt (s : Server Page) (P : ℕ) : Page := s.memory ⟨blockOf P,byteOf P⟩

def Frame.entry (f : Frame Page) : ℕ × Page := (pageOffset f.header,f.page)

def Server.eventual (s : Server Page) : ℕ → Page :=
  KeyedLog.replay (s.pending.map Frame.entry) s.pageAt

theorem Server.eventual_post (f : Frame Page) (s : Server Page) :
    (s.post f).eventual = KeyedLog.write s.eventual f.entry := by
  rw [eventual, post, List.map_append, KeyedLog.replay_append]
  rfl

theorem Server.eventual_lose (number P : ℕ) (s : Server Page)
    (h : ∀ f ∈ s.pending, f.number = number → pageOffset f.header ≠ P) :
    (s.lose number).eventual P = s.eventual P :=
  KeyedLog.replay_filter Frame.entry _ s.pending s.pageAt
    (fun f hf hn => h f hf (by simpa using hn))

theorem Server.deliver_spec {k : ℕ} {s t : Server Page} (h : s.deliver k = some t) :
    t.eventual = s.eventual ∧ ∀ f ∈ t.pending, f ∈ s.pending := by
  simp only [deliver, Option.bind_eq_some_iff] at h
  obtain ⟨f,hf,h⟩ := h
  split at h
  · next hall =>
    obtain ⟨off,hoff,hbyte⟩ := interpret_header_eq f.header
    rw [hoff] at h
    obtain rfl := Option.some.inj h
    have hk : k < s.pending.length := (List.getElem?_eq_some_iff.mp hf).1
    have hpending : s.pending.take k++f::s.pending.drop (k+1) = s.pending := by
      rw [← (List.getElem?_eq_some_iff.mp hf).2, ← List.drop_eq_getElem_cons hk,
        List.take_append_drop]
    have hpage : Server.pageAt ⟨Function.update s.memory
        ⟨blockOf (pageOffset f.header),byteOffset off⟩ f.page,
        s.pending.take k++s.pending.drop (k+1)⟩ = KeyedLog.write s.pageAt f.entry := by
      funext P
      rw [pageAt, hbyte]
      dsimp only
      by_cases hP : P = pageOffset f.header
      · subst hP
        rw [Function.update_self]
        exact (KeyedLog.write_self s.pageAt f.entry).symm
      · rw [Function.update_of_ne]
        · exact (KeyedLog.write_ne s.pageAt hP).symm
        · intro he
          have hb := Ptr.mk.inj he
          exact hP (location_injective P _ hb.1 hb.2)
    refine ⟨?_,fun g hg => ?_⟩
    · have hpre : ∀ e ∈ (s.pending.take k).map Frame.entry, e.1 ≠ f.entry.1 := by
        intro e he
        obtain ⟨g,hg,rfl⟩ := List.mem_map.mp he
        simpa [Frame.entry] using List.all_eq_true.mp hall g hg
      have hhoist := KeyedLog.replay_hoist _ ((s.pending.drop (k+1)).map Frame.entry) s.pageAt
        f.entry hpre
      rw [← List.map_append, ← List.map_cons, ← List.map_append, hpending] at hhoist
      rw [eventual, eventual, hpage]
      exact hhoist
    · rcases List.mem_append.mp hg with hg | hg
      · exact List.mem_of_mem_take hg
      · exact List.mem_of_mem_drop hg
  · cases h

theorem Server.settled {s : Server Page} {P : ℕ}
    (h : ∀ f ∈ s.pending, pageOffset f.header ≠ P) : s.eventual P = s.pageAt P := by
  refine KeyedLog.replay_absent _ fun e he => ?_
  obtain ⟨f,hf,rfl⟩ := List.mem_map.mp he
  exact h f hf

end Maruswap.ReaderThreads
