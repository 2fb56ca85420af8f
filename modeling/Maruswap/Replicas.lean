import Maruswap.Deployment

/-!
# The servers as replicas

Any number of writers. The frames that were posted are one sequence, and every
server has copied a first part of it, in that order; what it stores is what this
part comes to.
-/

set_option autoImplicit false

namespace Maruswap.Replicas
open WireFormat DriverStage WriterThreads ReaderThreads GuardedRun Deployment
open CommitBarrier (Net)
open ServerHandlers (AllocResult)

variable {Page : Type*}

def entry (e : U32 × Page) : ℕ × Page := (pageOffset e.1,e.2)

theorem deliver_first {s t : ReaderThreads.Server Page} (h : s.deliver 0 = some t) :
    ∃ f, s.pending = f::t.pending ∧ t.pageAt = KeyedLog.write s.pageAt f.entry := by
  simp only [Server.deliver, Option.bind_eq_some_iff] at h
  obtain ⟨f,hf,h⟩ := h
  obtain ⟨off,hoff,hbyte⟩ := interpret_header_eq f.header
  simp only [List.take_zero, List.all_nil, if_true, hoff, Option.map_some, Option.some.injEq] at h
  subst h
  obtain ⟨hlt,hget⟩ := List.getElem?_eq_some_iff.mp hf
  refine ⟨f,?_,?_⟩
  · rw [List.nil_append, ← hget]
    exact (List.cons_getElem_drop_succ (n := 0)).symm
  · funext P
    rw [Server.pageAt, hbyte]
    dsimp only
    by_cases hP : P = pageOffset f.header
    · subst hP
      rw [Function.update_self]
      exact (KeyedLog.write_self s.pageAt f.entry).symm
    · rw [Function.update_of_ne]
      · exact (KeyedLog.write_ne s.pageAt hP).symm
      · intro he
        have hb := Ptr.mk.inj he
        exact hP (location_injective P _ hb.1 hb.2)

theorem pending_cons {n : Net Page} {f : Frame Page} {fs : List (Frame Page)}
    (h : pending n = f::fs) : n.sent[copied n.thr]? = some (f.header,f.page) := by
  have hget := congrArg (fun l => l[0]?) h
  simp only [pending, List.getElem?_map, List.getElem?_zipIdx, List.getElem?_drop,
    List.getElem?_cons_zero, Nat.add_zero, Option.map_map, Option.map_eq_some_iff] at hget
  obtain ⟨e,he,rfl⟩ := hget
  exact he

section Steps
variable [Zero Page]

theorem delivered_copied {n m : Net Page} (hn : Kept n) (hm : Kept m) (hs : m.sent = n.sent)
    {f : Frame Page} (h : pending n = f::pending m) : copied m.thr = copied n.thr+1 := by
  have hpending := congrArg List.length h
  rw [List.length_cons, pending_length, pending_length, hs] at hpending
  have hcn := copied_le hn
  have hcm := copied_le hm
  rw [hs] at hcm
  omega

/-- Every frame reaches every server, memory is had for it, and no commit comes between
the halves of a FLOW handler. The blocks of an OPEN may be refused. -/
def Steady : Deployment.Label Page → System Page → Prop
  | .driver _ lost, _ => ∀ c, lost c = false
  | .server c l, d => Calm l (d.net c)
  | _, _ => True

def stored (n : Net Page) : ℕ → Page := (seen n).pageAt

/-- The first frames, as far as they have been copied, are all there is in memory. -/
structure Replica (frames : List (U32 × Page)) (n : Net Page) : Prop where
  kept : Kept n
  sent : n.sent = frames
  pages : stored n = KeyedLog.replay ((frames.take (copied n.thr)).map entry) fun _ => 0

theorem seen_copied {n m : Net Page} (hn : Kept n) (hm : Kept m) (hs : m.sent = n.sent)
    (h : seen m = seen n) : copied m.thr = copied n.thr := by
  have hpending : (pending m).length = (pending n).length :=
    congrArg (fun s => s.pending.length) h
  rw [pending_length, pending_length, hs] at hpending
  have hcn := copied_le hn
  have hcm := copied_le hm
  rw [hs] at hcm
  omega

theorem server_replica {l : CommitBarrier.Label Page} {frames : List (U32 × Page)}
    {n m : Net Page} (h : Replica frames n) (hl : isClient l = false) (hc : Calm l n)
    (hs : CommitBarrier.step l n = some m) : Replica frames m := by
  have hv := server_step h.kept hl hc hs
  refine ⟨hv.kept,hv.sent.trans h.sent,?_⟩
  rcases hv.seen with hsame | hdeliver
  · rw [seen_copied h.kept hv.kept hv.sent hsame, ← h.pages, stored, stored, hsame]
  · obtain ⟨f,hpending,hpage⟩ := deliver_first hdeliver
    have hnext : frames[copied n.thr]? = some (f.header,f.page) := h.sent ▸ pending_cons hpending
    have hwrite : stored m = KeyedLog.write (stored n) f.entry := hpage
    rw [delivered_copied h.kept hv.kept hv.sent hpending, List.take_add_one, hnext,
      List.map_append, KeyedLog.replay_append, hwrite, h.pages]
    rfl

theorem multicast_replica {frames : List (U32 × Page)} (f : Option (U32 × Page))
    {n : Net Page} (h : Replica frames n) : Replica (frames++f.toList) (multicast f n) := by
  refine ⟨⟨h.kept.ledger,?_⟩,?_,?_⟩
  · simp [multicast, h.kept.sent]
  · simp [multicast, h.sent]
  · have hcopied := copied_le h.kept
    rw [h.sent] at hcopied
    have htake : (frames++f.toList).take (copied (multicast f n).thr) =
        frames.take (copied n.thr) := List.take_append_of_le_length hcopied
    rw [htake]
    exact h.pages

theorem open_replica {a : AllocResult} {header : U32} {info : RdmaInfo}
    {frames : List (U32 × Page)} {n m : Net Page} (h : Replica frames n)
    (hs : serveOpen a header n = some (m,info)) : Replica frames m := by
  have ho := serve_open h.kept hs
  refine ⟨ho.served.kept,ho.served.sent.trans h.sent,?_⟩
  rw [seen_copied h.kept ho.served.kept ho.served.sent ho.same, ← h.pages, stored, stored, ho.same]

theorem step_replica {l : Deployment.Label Page} {d e : System Page} {c : ℕ}
    (h : Replica d.frames (d.net c)) (hg : Steady l d) (hs : Deployment.step l d = some e) :
    Replica e.frames (e.net c) := by
  cases net_effect hs c with
  | @sent l lost _ _ f hframes hnet =>
    have hlost : lost c = false := hg c
    rw [hframes, hnet, hlost]
    exact multicast_replica f h
  | idle hframes hnet =>
    rw [hframes, hnet]
    exact h
  | opened hframes hnet =>
    rw [hframes]
    exact open_replica h hnet
  | asked hframes hnet =>
    simp only [CommitBarrier.step, Option.ite_none_right_eq_some] at hnet
    rw [hframes, ← Option.some.inj hnet.2]
    exact ⟨⟨h.kept.ledger,h.kept.sent⟩,h.sent,h.pages⟩
  | served hk hframes hnet =>
    rw [hframes]
    exact server_replica h hk hg hnet

theorem init_replica (buffer : ℕ) (rkey : U32) :
    Replica [] (CommitBarrier.initNet buffer rkey : Net Page) := by
  refine ⟨⟨ServerThreads.init_ledger buffer rkey,rfl⟩,rfl,?_⟩
  funext P
  change memory (ServerHandlers.initServer buffer rkey) ⟨blockOf P,byteOf P⟩ = 0
  by_cases hb : blockOf P = 0
  · simp [memory, ServerHandlers.initServer, hb]
  · simp [memory, ServerHandlers.initServer, hb]

structure Agreement (d : System Page) : Prop where
  behind : ∀ c, copied (d.net c).thr ≤ d.frames.length
  content : ∀ c P, stored (d.net c) P =
    (KeyedLog.lastOf P ((d.frames.take (copied (d.net c).thr)).map entry)).getD 0
  settled : ∀ c P, (∀ f ∈ pending (d.net c), pageOffset f.header ≠ P) →
    stored (d.net c) P = (KeyedLog.lastOf P (d.frames.map entry)).getD 0
  agree : ∀ c b P, (∀ f ∈ pending (d.net c), pageOffset f.header ≠ P) →
    (∀ f ∈ pending (d.net b), pageOffset f.header ≠ P) → stored (d.net c) P = stored (d.net b) P

theorem replica_settled {frames : List (U32 × Page)} {n : Net Page} (h : Replica frames n)
    {P : ℕ} (hp : ∀ f ∈ pending n, pageOffset f.header ≠ P) :
    stored n P = (KeyedLog.lastOf P (frames.map entry)).getD 0 := by
  have hrest : ∀ e ∈ (frames.drop (copied n.thr)).map entry, e.1 ≠ P := by
    intro e he
    obtain ⟨g,hg,rfl⟩ := List.mem_map.mp he
    rw [← h.sent] at hg
    obtain ⟨i,hi⟩ := List.getElem?_of_mem hg
    refine hp ⟨copied n.thr+i,g.1,g.2⟩ (List.mem_map.mpr ⟨(g,copied n.thr+i),?_,rfl⟩)
    refine List.mem_zipIdx_iff_le_and_getElem?_sub.mpr ⟨Nat.le_add_right _ _,?_⟩
    rw [Nat.add_sub_cancel_left]
    exact hi
  have hpages : stored n P =
      KeyedLog.replay ((frames.take (copied n.thr)).map entry) (fun _ => 0) P :=
    congrFun h.pages P
  calc stored n P
      = KeyedLog.replay ((frames.drop (copied n.thr)).map entry)
          (KeyedLog.replay ((frames.take (copied n.thr)).map entry) fun _ => 0) P := by
        rw [KeyedLog.replay_absent _ hrest, hpages]
    _ = KeyedLog.replay (frames.map entry) (fun _ => 0) P := by
        rw [← KeyedLog.replay_append, ← List.map_append, List.take_append_drop]
    _ = (KeyedLog.lastOf P (frames.map entry)).getD 0 := KeyedLog.replay_apply ..

/-- In every run of any number of writers and readers, each server stores what the
frames it has copied come to, which are the first of the one sequence that was posted;
on a page that nothing pending names, every two servers store the same. -/
theorem replicas_agree (stage : ℕ → Page) (call : ℕ → Call Page) (base : ℕ → ℕ)
    (rkey : ℕ → U32) (ls : List (Deployment.Label Page)) (d : System Page)
    (hg : Meets Deployment.step Steady ls (initDeployment stage call base rkey))
    (h : run Deployment.step ls (initDeployment stage call base rkey) = some d) :
    Agreement d := by
  have hstep : ∀ c (l : Deployment.Label Page) (s t : System Page),
      Replica s.frames (s.net c) → Steady l s → Deployment.step l s = some t →
        Replica t.frames (t.net c) :=
    fun c l s t hs hl ht => step_replica hs hl ht
  have hall : ∀ c, Replica d.frames (d.net c) := by
    intro c
    refine run_invariant (hstep c) ?_ hg h
    exact init_replica (base c) (rkey c)
  have hsettled : ∀ c P, (∀ f ∈ pending (d.net c), pageOffset f.header ≠ P) →
      stored (d.net c) P = (KeyedLog.lastOf P (d.frames.map entry)).getD 0 :=
    fun c P hp => replica_settled (hall c) hp
  refine ⟨fun c => ?_,fun c P => ?_,hsettled,fun c b P hc hb => ?_⟩
  · rw [← (hall c).sent]
    exact copied_le (hall c).kept
  · rw [(hall c).pages, KeyedLog.replay_apply]
  · rw [hsettled c P hc, hsettled b P hb]

end Steps

def oneAheadLabels : List (Deployment.Label ℕ) :=
  [.driver (.call 3 0x40000#32 7 0#32) (fun _ => false),.driver (.lock 3) (fun _ => false),
    .driver (.check 3) (fun _ => false),.openRpc 3 0 ⟨some 3,some 1#32⟩,
    .openRpc 3 1 ⟨some 4,some 2#32⟩,.driver (.test 3) (fun _ => false),
    .driver (.count 3) (fun _ => false),.driver (.post 3 0#32) (fun _ => false),
    .server 1 (.deliver 0),.server 1 .poll,.server 1 .listAdd,
    .server 1 (.convey ⟨some 5,some 1#32⟩)]

theorem replicas_agree_sample : ∃ d : System ℕ,
    run Deployment.step oneAheadLabels
      (initDeployment (fun _ => 0) (fun _ => ⟨0#32,0,0⟩) (fun _ => 0) (fun _ => 9#32)) =
        some d ∧ stored (d.net 0) 0x40000 = 0 ∧ stored (d.net 1) 0x40000 = 7 ∧
      Agreement d := by
  have hrun : (run Deployment.step oneAheadLabels (initDeployment (fun _ => 0)
      (fun _ => ⟨0#32,0,0⟩) (fun _ => 0) (fun _ => 9#32))).map
        (fun d => (stored (d.net 0) 0x40000,stored (d.net 1) 0x40000)) = some (0,7) := by
    decide +kernel
  obtain ⟨d,hd,hstored⟩ := Option.map_eq_some_iff.mp hrun
  obtain ⟨h0,h1⟩ := Prod.mk.inj hstored
  have hg : Meets Deployment.step Steady oneAheadLabels (initDeployment (fun _ => 0)
      (fun _ => ⟨0#32,0,0⟩) (fun _ => 0) fun _ => 9#32) :=
    meets_of_forall (by simp [oneAheadLabels, Steady, Calm, AllocResult.Succeeds]) _
  exact ⟨d,hd,h0,h1,replicas_agree _ _ _ _ oneAheadLabels d hg hd⟩

end Maruswap.Replicas
