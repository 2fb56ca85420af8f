import Maruswap.GuardedRun
import Maruswap.ServerHandlers

/-!
# Bookkeeping over message sequences

Messages are handled one at a time. The abstract server is a map from page
offsets to pages in which a FLOW frame is a keyed write and nothing else
matters; the handlers refine it as long as the four bookkeeping facts about
the commit list, the counter and the flags hold together.
-/

set_option autoImplicit false

namespace Maruswap.ServerBookkeeping
open WireFormat ServerHandlers GuardedRun

variable {Page : Type*} [Zero Page]

inductive Message (Page : Type*) where
  | openBlock (header : U32) (a : AllocResult)
  | flow (header : U32) (payload : Page) (w : ℕ) (a : AllocResult)
  | commit (immData : U32) (alloc : ℕ → AllocResult)

/-- The dispatch of the two receive loops on the opcode. A frame needs a posted
receive work, and a commit waits while its handler has no value. -/
def step : Message Page → Server Page → Option (Server Page)
  | .openBlock header a, s =>
    if ibGetOpcode header = opcodeOpen ∧ InTable header then processRdmaRpcOpen a header s
    else none
  | .flow header payload w a, s =>
    if ibGetOpcode header = multicastOpcodeFlow ∧ InTable header ∧ w ∈ s.posted then
      some (processMulticastRpcFlow a ⟨header,w,0⟩ (deliver w payload s))
    else none
  | .commit immData alloc, s =>
    if ibGetOpcode immData = opcodeCommit ∨ ibGetOpcode immData = opcodeQcommit then
      processRdmaRpcCommit alloc immData s
    else none

def AllocSucceeds : Message Page → Prop
  | .openBlock _ a => a.Succeeds
  | .flow _ _ _ a => a.Succeeds
  | .commit _ alloc => ∀ w, (alloc w).Succeeds

/-- The keyed writes a message stands for in the abstract server. -/
def frames : Message Page → List (ℕ × Page)
  | .flow header payload _ _ => [(pageOffset header,payload)]
  | _ => []

structure Bookkept (s : Server Page) : Prop where
  nodup : (s.posted++s.commitList).Nodup
  batch : s.batch = s.commitList.length
  listed : ∀ w ∈ s.commitList, (s.rw w).convey = true
  unlisted : ∀ w, w ∉ s.commitList → (s.rw w).convey = false
  wrId : ∀ w ∈ s.commitList, (s.rw w).wc.wrId = w

theorem init_bookkept (buffer : ℕ) (rkey : U32) :
    Bookkept (initServer buffer rkey : Server Page) where
  nodup := by simpa [initServer] using List.nodup_range
  batch := rfl
  listed := by simp [initServer]
  unlisted := by simp [initServer]
  wrId := by simp [initServer]

/-- A received frame is conveyed at once: its receive work was not on the list,
so its flag is down. -/
theorem flow_effect (header : U32) (payload : Page) (w : ℕ) (a : AllocResult)
    (s : Server Page) (hs : Bookkept s) (ha : a.Succeeds) (hw : w ∈ s.posted) :
    Conveyed ⟨header,w,0⟩ (flowListAdd ⟨header,w,0⟩ (deliver w payload s))
      (processMulticastRpcFlow a ⟨header,w,0⟩ (deliver w payload s)) := by
  have hc : (s.rw w).convey = false :=
    hs.unlisted w (fun hl => List.nodup_append.mp hs.nodup |>.2.2 w hw w hl rfl)
  have hf : ((flowListAdd ⟨header,w,0⟩ (deliver w payload s)).rw w).convey = false := by
    simp [flowListAdd, deliver, hc]
  exact flow_convey_conveyed a ⟨header,w,0⟩ _ hf ha

theorem flow_bookkept (header : U32) (payload : Page) (w : ℕ) (a : AllocResult)
    (s : Server Page) (hs : Bookkept s) (ha : a.Succeeds) (hw : w ∈ s.posted) :
    Bookkept (processMulticastRpcFlow a ⟨header,w,0⟩ (deliver w payload s)) := by
  have he := flow_effect header payload w a s hs ha hw
  generalize processMulticastRpcFlow a ⟨header,w,0⟩ (deliver w payload s) = t at he ⊢
  obtain ⟨hp,hl,hd⟩ := List.nodup_append.mp hs.nodup
  have hwl : w ∉ s.commitList := fun h => hd w hw w h rfl
  have hlist : t.commitList = w::s.commitList := he.commitList
  refine ⟨?_,?_,?_,?_,?_⟩
  · rw [he.posted, hlist]
    refine List.nodup_append.mpr ⟨hp.erase w,List.nodup_cons.mpr ⟨hwl,hl⟩,?_⟩
    intro v hv u hu huv
    subst huv
    rcases List.mem_cons.mp hu with rfl | hu
    · exact (List.Nodup.not_mem_erase hp) hv
    · exact hd v (List.mem_of_mem_erase hv) v hu rfl
  · rw [he.batch, hlist, List.length_cons]
    exact congrArg (·+1) hs.batch
  · intro v hv
    rw [he.rw_eq]
    by_cases h : v = w
    · subst h; simp
    · have hv' : v ∈ s.commitList := by simpa [hlist, h] using hv
      simp [flowListAdd, deliver, h, hs.listed v hv']
  · intro v hv
    rw [hlist] at hv
    have h : v ≠ w := fun h => hv (by simp [h])
    rw [he.rw_eq]
    simp [flowListAdd, deliver, h, hs.unlisted v (fun h' => hv (by simp [h']))]
  · intro v hv
    rw [he.rw_eq]
    by_cases h : v = w
    · subst h; simp [flowListAdd]
    · have hv' : v ∈ s.commitList := by simpa [hlist, h] using hv
      simp [flowListAdd, deliver, h, hs.wrId v hv']

theorem flow_pages (header : U32) (payload : Page) (w : ℕ) (a : AllocResult)
    (s : Server Page) (hs : Bookkept s) (ha : a.Succeeds) (hw : w ∈ s.posted) :
    (processMulticastRpcFlow a ⟨header,w,0⟩ (deliver w payload s)).pageAt =
      KeyedLog.write s.pageAt (pageOffset header,payload) := by
  have he := (flow_effect header payload w a s hs ha hw).pages
  have hb : ((flowListAdd ⟨header,w,0⟩ (deliver w payload s)).rw w).buffer = payload := by
    simp [flowListAdd, deliver]
  rw [hb] at he
  exact he

theorem region_effect (alloc : ℕ → AllocResult) (s : Server Page) (hs : Bookkept s) :
    (commitRegion alloc s).pageAt = s.pageAt ∧ Bookkept (commitRegion alloc s) := by
  have hwalk := walk_conveyed alloc s.commitList s hs.listed
  have hmap : s.commitList.map (fun w => (s.rw w).wc.wrId) = s.commitList :=
    (List.map_congr_left hs.wrId).trans (List.map_id _)
  rw [commitRegion, hwalk, drain_eq s.commitList s rfl, hmap]
  refine ⟨rfl,⟨?_,rfl,?_,?_,?_⟩⟩
  · simpa [resetBatch] using hs.nodup
  · simp [resetBatch]
  · intro v _
    by_cases hv : v ∈ s.commitList
    · simp [resetBatch, cleared, hv]
    · simpa [resetBatch, cleared, hv] using hs.unlisted v hv
  · simp [resetBatch]

theorem commit_effect (alloc : ℕ → AllocResult) (immData : U32) (s t : Server Page)
    (hs : Bookkept s) (h : processRdmaRpcCommit alloc immData s = some t) :
    t.pageAt = s.pageAt ∧ Bookkept t := by
  unfold processRdmaRpcCommit at h
  split_ifs at h
  · obtain rfl := Option.some.inj h
    exact ⟨rfl,⟨hs.nodup,hs.batch,hs.listed,hs.unlisted,hs.wrId⟩⟩
  · obtain rfl := Option.some.inj h
    obtain ⟨hp,hb⟩ := region_effect alloc s hs
    exact ⟨hp,⟨hb.nodup,hb.batch,hb.listed,hb.unlisted,hb.wrId⟩⟩

theorem step_bookkept (m : Message Page) (s t : Server Page) (hs : Bookkept s)
    (ha : AllocSucceeds m) (h : step m s = some t) : Bookkept t := by
  cases m with
  | openBlock header a =>
    simp only [step, Option.ite_none_right_eq_some] at h
    obtain ⟨-,hrw,hp,hb,hc,-⟩ := open_effect header a s t h.2
    refine ⟨?_,?_,?_,?_,?_⟩
    · rw [hp, hc]; exact hs.nodup
    · rw [hb, hc]; exact hs.batch
    · rw [hrw, hc]; exact hs.listed
    · rw [hrw, hc]; exact hs.unlisted
    · rw [hrw, hc]; exact hs.wrId
  | flow header payload w a =>
    simp only [step, Option.ite_none_right_eq_some] at h
    obtain ⟨⟨-,-,hw⟩,ht⟩ := h
    exact Option.some.inj ht ▸ flow_bookkept header payload w a s hs ha hw
  | commit immData alloc =>
    simp only [step, Option.ite_none_right_eq_some] at h
    exact (commit_effect alloc immData s t hs h.2).2

theorem step_pages (m : Message Page) (s t : Server Page) (hs : Bookkept s)
    (ha : AllocSucceeds m) (h : step m s = some t) :
    t.pageAt = (frames m).foldl KeyedLog.write s.pageAt := by
  cases m with
  | openBlock header a =>
    simp only [step, Option.ite_none_right_eq_some] at h
    exact (open_effect header a s t h.2).1
  | flow header payload w a =>
    simp only [step, Option.ite_none_right_eq_some] at h
    obtain ⟨⟨-,-,hw⟩,ht⟩ := h
    exact Option.some.inj ht ▸ flow_pages header payload w a s hs ha hw
  | commit immData alloc =>
    simp only [step, Option.ite_none_right_eq_some] at h
    exact (commit_effect alloc immData s t hs h.2).1

theorem run_bookkept {ms : List (Message Page)} {s t : Server Page} (hs : Bookkept s)
    (ha : Meets step (fun m _ => AllocSucceeds m) ms s) (h : run step ms s = some t) :
    Bookkept t :=
  run_invariant step_bookkept hs ha h

theorem run_pages {ms : List (Message Page)} {s t : Server Page} (hs : Bookkept s)
    (ha : Meets step (fun m _ => AllocSucceeds m) ms s) (h : run step ms s = some t) :
    t.pageAt = KeyedLog.replay (ms.flatMap frames) s.pageAt :=
  run_view (fun s : Server Page => s.pageAt) frames KeyedLog.write step_bookkept step_pages
    hs ha h

def lastFrame (P : ℕ) (ms : List (Message Page)) : Option Page :=
  KeyedLog.lastOf P (ms.flatMap frames)

/-- Over every sequence of OPEN, FLOW, COMMIT and QCOMMIT messages the commit
list, the counter and the flags stay in step, every page holds the last frame
for its offset, and memory depends only on the order of frames for one page. -/
theorem server_bookkeeping (buffer : ℕ) (rkey : U32) (ms : List (Message Page))
    (t : Server Page) (ha : ∀ m ∈ ms, AllocSucceeds m)
    (h : run step ms (initServer buffer rkey) = some t) :
    t.commitList.Nodup ∧
    (t.batch = t.commitList.length ∧ ∀ w ∈ t.commitList, (t.rw w).convey = true) ∧
    (∀ w, w ∉ t.commitList → (t.rw w).convey = false) ∧
    (∀ P, t.pageAt P = (lastFrame P ms).getD 0) ∧
    (∀ m u, frames m = [] → AllocSucceeds m → step m t = some u → u.pageAt = t.pageAt) ∧
    ∀ ns u, (∀ n ∈ ns, AllocSucceeds n) → run step ns (initServer buffer rkey) = some u →
      (∀ P, KeyedLog.entries P (ns.flatMap frames) = KeyedLog.entries P (ms.flatMap frames)) →
      u.pageAt = t.pageAt := by
  have hi : Bookkept (initServer buffer rkey : Server Page) := init_bookkept buffer rkey
  have hb := run_bookkept hi (meets_of_forall (fun m hm _ => ha m hm) _) h
  have hp := run_pages hi (meets_of_forall (fun m hm _ => ha m hm) _) h
  refine ⟨(List.nodup_append.mp hb.nodup).2.1,⟨hb.batch,hb.listed⟩,hb.unlisted,?_,?_,?_⟩
  · intro P
    rw [hp, KeyedLog.replay_apply, init_pages]
    rfl
  · intro m u hm hma hu
    rw [step_pages m t u hb hma hu, hm]
    rfl
  · intro ns u hna hu hk
    rw [run_pages hi (meets_of_forall (fun n hn _ => hna n hn) _) hu, hp]
    exact KeyedLog.replay_congr _ hk

def sampleMessages : List (Message ℕ) :=
  [.openBlock (openWord 0x40000#32) ⟨some 4096,some 9#32⟩,
    .flow (flowHeader 5#32) 7 0 ⟨some 0,some 1#32⟩,
    .flow (flowHeader 5#32) 8 1 ⟨some 0,some 1#32⟩,
    .commit (qcommitWord 2#32) (fun _ => ⟨some 0,some 1#32⟩)]

theorem server_bookkeeping_sample : ∃ t : Server ℕ,
    run step sampleMessages (initServer 0 1#32) = some t ∧
      t.batch = t.commitList.length ∧ t.pageAt 5 = 8 := by
  have hsome : (run step sampleMessages (initServer 0 1#32)).isSome := by decide +kernel
  obtain ⟨t,ht⟩ := Option.isSome_iff_exists.mp hsome
  have ha : ∀ m ∈ sampleMessages, AllocSucceeds m := by
    simp [sampleMessages, AllocSucceeds, AllocResult.Succeeds]
  obtain ⟨-,⟨hb,-⟩,-,hp,-⟩ := server_bookkeeping 0 1#32 sampleMessages t ha ht
  exact ⟨t,ht,hb,(hp 5).trans (by decide)⟩

end Maruswap.ServerBookkeeping
