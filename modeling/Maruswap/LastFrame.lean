import Maruswap.CommitWalk
import Maruswap.ServerBookkeeping

/-!
# Which frame a page holds after a commit

A frame for whose block there is no memory stays on the commit list and is copied
by the walk of the next commit. `list_add` puts it at the head of the list, so the
walk meets the frames for one page latest first, and the earliest is copied last.
-/

set_option autoImplicit false

namespace Maruswap.LastFrame
open WireFormat ServerHandlers ServerBookkeeping CommitWalk GuardedRun
open MulticastLoop (commit_walk_unmoved Unmoved Named)

variable {Page : Type*}

structure Frame (Page : Type*) where
  header : U32
  payload : Page
  work : ℕ
  alloc : AllocResult

def Frame.message (f : Frame Page) : Message Page := .flow f.header f.payload f.work f.alloc

def Frame.page (f : Frame Page) : ℕ := pageOffset f.header

def Frame.block (f : Frame Page) : ℕ := blockOf f.page

def Frame.write (f : Frame Page) : ℕ × Page := (f.page,f.payload)

def ofPage (P : ℕ) (fs : List (Frame Page)) : List (Frame Page) := fs.filter (·.page = P)

def firstFrame (P : ℕ) (fs : List (Frame Page)) : Option Page :=
  (ofPage P fs).head?.map Frame.payload

/-- The block was there, or memory was had for one of the frames. -/
def Had (s : Server Page) (fs : List (Frame Page)) (n : ℕ) : Prop :=
  (s.memblocks n).isSome ∨ ∃ f ∈ fs, f.block = n ∧ f.alloc.Succeeds

/-- A frame for the page came while there was no memory for its block. -/
def Missed (s : Server Page) (fs : List (Frame Page)) (P : ℕ) : Prop :=
  ∃ pre f, pre++[f] <+: fs ∧ f.page = P ∧ ¬Had s (pre++[f]) (blockOf P)

theorem had_snoc (s : Server Page) (fs : List (Frame Page)) (f : Frame Page) (n : ℕ) :
    Had s (fs++[f]) n ↔ Had s fs n ∨ f.block = n ∧ f.alloc.Succeeds := by
  simp only [Had, List.mem_append, List.mem_singleton, or_and_right, exists_or,
    exists_eq_left, or_assoc]

theorem missed_snoc (s : Server Page) (fs : List (Frame Page)) (f : Frame Page) (P : ℕ) :
    Missed s (fs++[f]) P ↔
      Missed s fs P ∨ f.page = P ∧ ¬Had s (fs++[f]) (blockOf P) := by
  constructor
  · rintro ⟨pre,g,hpre,hg⟩
    rcases List.prefix_concat_iff.mp hpre with he | hpre
    · obtain ⟨rfl,hlast⟩ := List.append_inj' he rfl
      obtain rfl := List.singleton_inj.mp hlast
      exact .inr hg
    · exact .inl ⟨pre,g,hpre,hg⟩
  · rintro (⟨pre,g,hpre,hg⟩ | hf)
    · exact ⟨pre,g,hpre.trans (List.prefix_append fs [f]),hg⟩
    · exact ⟨fs,f,List.prefix_rfl,hf⟩

theorem of_page_snoc (P : ℕ) (fs : List (Frame Page)) (f : Frame Page) :
    ofPage P (fs++[f]) = ofPage P fs++if f.page = P then [f] else [] := by
  by_cases h : f.page = P <;> simp [ofPage, h]

theorem entries_write (P : ℕ) (fs : List (Frame Page)) :
    KeyedLog.entries P (fs.map Frame.write) = (ofPage P fs).map Frame.payload := by
  rw [KeyedLog.entries, List.filter_map, List.map_map]
  rfl

theorem frames_message (fs : List (Frame Page)) :
    (fs.map Frame.message).flatMap frames = fs.map Frame.write := by
  induction fs with
  | nil => rfl
  | cons f fs ih =>
    rw [List.map_cons, List.flatMap_cons, ih]
    rfl

theorem last_frame_eq (P : ℕ) (fs : List (Frame Page)) :
    lastFrame P (fs.map Frame.message) = (ofPage P fs).getLast?.map Frame.payload := by
  rw [lastFrame, KeyedLog.lastOf, frames_message, entries_write, List.getLast?_map]

structure Clean (s : Server Page) : Prop where
  nodup : (s.posted++s.commitList).Nodup
  unlisted : ∀ w, w ∉ s.commitList → (s.rw w).convey = false
  named : Named s

theorem Clean.fresh {s : Server Page} (hs : Clean s) {w : ℕ} (hw : w ∈ s.posted) :
    w ∉ s.commitList :=
  fun hl => (List.nodup_append.mp hs.nodup).2.2 w hw w hl rfl

section Arrival
variable [Zero Page]

theorem init_clean (buffer : ℕ) (rkey : U32) : Clean (initServer buffer rkey : Server Page) :=
  have hi : Bookkept (initServer buffer rkey : Server Page) := init_bookkept buffer rkey
  ⟨hi.nodup,hi.unlisted,hi.wrId⟩

def arrived (f : Frame Page) (s : Server Page) : Server Page :=
  flowListAdd ⟨f.header,f.work,0⟩ (deliver f.work f.payload s)

omit [Zero Page] in
theorem arrived_rw (f : Frame Page) (s : Server Page) :
    (arrived f s).rw = Function.update s.rw f.work
      ⟨f.payload,⟨f.header,f.work,0⟩,(s.rw f.work).convey⟩ := by
  funext w
  by_cases hw : w = f.work
  · subst hw; simp [arrived, flowListAdd, deliver]
  · simp [arrived, flowListAdd, deliver, hw]

omit [Zero Page] in
theorem arrived_clean {f : Frame Page} {s : Server Page} (hs : Clean s)
    (hw : f.work ∈ s.posted) : Clean (arrived f s) := by
  obtain ⟨hp,hl,hd⟩ := List.nodup_append.mp hs.nodup
  have hfresh := hs.fresh hw
  refine ⟨?_,fun v hv => ?_,fun v hv => ?_⟩
  · refine List.nodup_append.mpr ⟨hp.erase f.work,List.nodup_cons.mpr ⟨hfresh,hl⟩,?_⟩
    rintro v hv u hu rfl
    rcases List.mem_cons.mp hu with rfl | hu
    · exact List.Nodup.not_mem_erase hp hv
    · exact hd v (List.mem_of_mem_erase hv) v hu rfl
  · obtain ⟨hne,hv⟩ := List.ne_and_not_mem_of_not_mem_cons hv
    rw [arrived_rw, Function.update_of_ne hne]
    exact hs.unlisted v hv
  · rw [arrived_rw]
    by_cases hne : v = f.work
    · subst hne; simp
    · rw [Function.update_of_ne hne]
      exact hs.named v ((List.mem_cons.mp hv).resolve_left hne)

theorem arrived_convey {f : Frame Page} {s : Server Page} (hs : Clean s)
    (hw : f.work ∈ s.posted) :
    processMulticastRpcFlow f.alloc ⟨f.header,f.work,0⟩ (deliver f.work f.payload s) =
      (ibConveyPage f.alloc ((arrived f s).rw f.work).wc (arrived f s)).2 := by
  have hflag : ((arrived f s).rw f.work).convey = false := by
    simp [arrived_rw, hs.unlisted f.work (hs.fresh hw)]
  have hwc : ((arrived f s).rw f.work).wc = ⟨f.header,f.work,0⟩ := by simp [arrived_rw]
  rw [processMulticastRpcFlow, flowConvey, hwc, if_neg]
  · rfl
  · change ¬((arrived f s).rw f.work).convey = true
    simp [hflag]

omit [Zero Page] in
theorem Clean.unmoved {s t : Server Page} (hs : Clean s) (h : Unmoved s t)
    (hflag : ∀ w, w ∉ s.commitList → (t.rw w).convey = (s.rw w).convey) : Clean t := by
  refine ⟨?_,fun w hw => ?_,fun w hw => ?_⟩
  · rw [h.posted, h.commitList]
    exact hs.nodup
  · rw [h.commitList] at hw
    exact (hflag w hw).trans (hs.unlisted w hw)
  · rw [h.commitList] at hw
    rw [h.wc]
    exact hs.named w hw

inductive Flow (f : Frame Page) (s t : Server Page) : Prop where
  | copied (hstep : Step f.work (arrived f s) t) (hlist : t.commitList = f.work::s.commitList)
      (hgot : (s.memblocks f.block).isSome ∨ f.alloc.Succeeds) : Flow f s t
  | left (ht : t = arrived f s) (hnone : s.memblocks f.block = none)
      (hfail : ¬f.alloc.Succeeds) : Flow f s t

theorem flow_cases (f : Frame Page) {s : Server Page} (hs : Clean s) (hw : f.work ∈ s.posted) :
    Clean (processMulticastRpcFlow f.alloc ⟨f.header,f.work,0⟩ (deliver f.work f.payload s)) ∧
      Flow f s (processMulticastRpcFlow f.alloc ⟨f.header,f.work,0⟩
        (deliver f.work f.payload s)) := by
  have hu := arrived_clean hs hw
  have hwc : ((arrived f s).rw f.work).wc = ⟨f.header,f.work,0⟩ := by simp [arrived_rw]
  have hmoved := MulticastLoop.ib_convey_page_unmoved f.alloc ((arrived f s).rw f.work).wc
    (arrived f s)
  have hiff := convey_iff f.alloc ((arrived f s).rw f.work).wc (arrived f s)
  rw [arrived_convey hs hw]
  cases hok : (ibConveyPage f.alloc ((arrived f s).rw f.work).wc (arrived f s)).1 with
  | true =>
    have hstep := convey_step f.alloc (arrived f s) (by rw [hwc]) hok
    refine ⟨hu.unmoved hmoved fun v hv => hstep.flags v ?_,.copied hstep hmoved.commitList ?_⟩
    · rintro rfl
      exact hv (List.mem_cons_self ..)
    · rw [hok, hwc] at hiff
      cases hm : s.memblocks f.block with
      | some mb => exact .inl rfl
      | none => exact .inr (hiff.mp rfl hm)
  | false =>
    rcases ib_convey_page_cases f.alloc ((arrived f s).rw f.work).wc (arrived f s) with
      ⟨htrue,-⟩ | ⟨he,hnone,hfail⟩
    · rw [hok] at htrue
      cases htrue
    · rw [he]
      rw [hwc] at hnone
      exact ⟨hu,.left rfl hnone hfail⟩

/-- Of the frames received since `base`, some have been copied and some left on the
commit list. -/
structure Received (base : Server Page) (fs copied left : List (Frame Page))
    (s : Server Page) : Prop where
  clean : Clean s
  pages : s.pageAt = KeyedLog.replay (copied.map Frame.write) base.pageAt
  waiting : (pending s s.commitList).map (entry s) = (left.map Frame.write).reverse
  had : ∀ n, (s.memblocks n).isSome ↔ Had base fs n
  order : ∀ P, ofPage P fs = ofPage P left++ofPage P copied
  late : ∀ f ∈ copied, Had base fs f.block
  missed : ∀ P, ofPage P left ≠ [] ↔ Missed base fs P

omit [Zero Page] in
theorem waiting_congr {s t : Server Page} {ws : List ℕ}
    (hflag : ∀ w ∈ ws, (t.rw w).convey = (s.rw w).convey)
    (hentry : ∀ w ∈ ws, entry t w = entry s w) :
    (pending t ws).map (entry t) = (pending s ws).map (entry s) := by
  have hp : pending t ws = pending s ws :=
    List.filter_congr fun w hw => by rw [hflag w hw]
  rw [hp]
  exact List.map_congr_left fun w hw => hentry w (List.mem_filter.mp hw).1

omit [Zero Page] in
theorem arrived_entry (f : Frame Page) (s : Server Page) :
    entry (arrived f s) f.work = f.write := by
  simp [entry, arrived_rw, Frame.write, Frame.page]

omit [Zero Page] in
theorem arrived_waiting {f : Frame Page} {s : Server Page} (hs : Clean s)
    (hw : f.work ∈ s.posted) :
    (pending (arrived f s) s.commitList).map (entry (arrived f s)) =
      (pending s s.commitList).map (entry s) := by
  have hrw : ∀ v ∈ s.commitList, (arrived f s).rw v = s.rw v := by
    intro v hv
    rw [arrived_rw, Function.update_of_ne]
    rintro rfl
    exact hs.fresh hw hv
  exact waiting_congr (fun v hv => by rw [hrw v hv]) fun v hv => by rw [entry, entry, hrw v hv]

variable {base s t : Server Page} {fs copied left : List (Frame Page)} {f : Frame Page}

theorem received_copied (h : Received base fs copied left s) (hw : f.work ∈ s.posted)
    (ht : Clean t) (hstep : Step f.work (arrived f s) t)
    (hlist : t.commitList = f.work::s.commitList)
    (hgot : (s.memblocks f.block).isSome ∨ f.alloc.Succeeds) :
    Received base (fs++[f]) (copied++[f]) left t := by
  have hown : Had base (fs++[f]) f.block := by
    rw [had_snoc, ← h.had]
    exact hgot.imp_right fun ha => ⟨rfl,ha⟩
  have hblock : blockIn (arrived f s) f.work = f.block := by
    simp [blockIn, arrived_rw, Frame.block, Frame.page]
  refine ⟨ht,?_,?_,fun n => ?_,fun P => ?_,fun g hg => ?_,fun P => ?_⟩
  · rw [hstep.pages, arrived_entry, List.map_append, KeyedLog.replay_append, ← h.pages]
    rfl
  · have hne : ∀ v ∈ s.commitList, v ≠ f.work := by
      rintro v hv rfl
      exact h.clean.fresh hw hv
    rw [hlist, pending_up _ hstep.flag, ← h.waiting, ← arrived_waiting h.clean hw]
    exact waiting_congr (fun v hv => hstep.flags v (hne v hv)) fun v _ => hstep.entry_eq v
  · by_cases hn : n = f.block
    · subst hn
      exact iff_of_true (hblock ▸ hstep.mapped) hown
    · have hother : t.memblocks n = s.memblocks n := hstep.others n (hblock.symm ▸ hn)
      rw [hother, h.had, had_snoc]
      simp [Ne.symm hn]
  · rw [of_page_snoc, of_page_snoc, h.order, List.append_assoc]
  · rcases List.mem_append.mp hg with hg | hg
    · exact (had_snoc ..).mpr (.inl (h.late g hg))
    · rwa [List.mem_singleton.mp hg]
  · rw [missed_snoc, h.missed]
    refine (or_iff_left ?_).symm
    rintro ⟨rfl,hno⟩
    exact hno hown

theorem received_left (h : Received base fs copied left s) (hw : f.work ∈ s.posted)
    (hnone : s.memblocks f.block = none) (hfail : ¬f.alloc.Succeeds) :
    Received base (fs++[f]) copied (left++[f]) (arrived f s) := by
  have hlack : ¬Had base fs f.block := by simp [← h.had, hnone]
  have hflag : ((arrived f s).rw f.work).convey = false := by
    simp [arrived_rw, h.clean.unlisted f.work (h.clean.fresh hw)]
  have hown : ¬Had base (fs++[f]) f.block := by
    rw [had_snoc]
    exact not_or.mpr ⟨hlack,fun ha => hfail ha.2⟩
  have hcopied : ofPage f.page copied = [] := by
    refine List.filter_eq_nil_iff.mpr fun g hg => ?_
    simp only [decide_eq_true_eq]
    intro hp
    have hb : g.block = f.block := congrArg blockOf hp
    exact hlack (hb ▸ h.late g hg)
  refine ⟨arrived_clean h.clean hw,h.pages,?_,fun n => ?_,fun P => ?_,fun g hg => ?_,fun P => ?_⟩
  · have hlist : (arrived f s).commitList = f.work::s.commitList := rfl
    rw [hlist, pending_down _ hflag, List.map_cons, arrived_entry, arrived_waiting h.clean hw,
      h.waiting]
    simp
  · have hother : (arrived f s).memblocks n = s.memblocks n := rfl
    rw [hother, h.had, had_snoc]
    simp [hfail]
  · rw [of_page_snoc, of_page_snoc, h.order]
    by_cases hp : f.page = P
    · subst hp
      simp [hcopied]
    · simp [hp]
  · exact (had_snoc ..).mpr (.inl (h.late g hg))
  · rw [missed_snoc, ← h.missed, of_page_snoc]
    by_cases hp : f.page = P
    · subst hp
      simp only [if_true, ne_eq, List.append_eq_nil_iff, List.cons_ne_self, and_false,
        not_false_eq_true, true_and, true_iff]
      exact .inr hown
    · simp [hp]

theorem received_nil (hs : Clean s) (hempty : s.commitList = []) : Received s [] [] [] s where
  clean := hs
  pages := rfl
  waiting := by simp [hempty, pending]
  had := by simp [Had]
  order := by simp [ofPage]
  late := by simp
  missed := by simp [ofPage, Missed]

theorem received_step (h : Received base fs copied left s) (ht : step f.message s = some t) :
    ∃ copied left, Received base (fs++[f]) copied left t := by
  simp only [Frame.message, step, Option.ite_none_right_eq_some] at ht
  obtain ⟨⟨-,-,hw⟩,ht⟩ := ht
  obtain rfl := Option.some.inj ht
  obtain ⟨hclean,hflow⟩ := flow_cases f h.clean hw
  cases hflow with
  | copied hstep hlist hgot =>
    exact ⟨_,_,received_copied h hw hclean hstep hlist hgot⟩
  | left ht hnone hfail =>
    rw [ht]
    exact ⟨_,_,received_left h hw hnone hfail⟩

theorem received_run (gs : List (Frame Page)) (h : Received base fs copied left s)
    (ht : run step (gs.map Frame.message) s = some t) :
    ∃ copied left, Received base (fs++gs) copied left t := by
  induction gs generalizing s fs copied left with
  | nil =>
    obtain rfl := Option.some.inj ht
    exact ⟨copied,left,by simpa using h⟩
  | cons g gs ih =>
    obtain ⟨u,hu,hrest⟩ := run_cons.mp ht
    obtain ⟨copied',left',hone⟩ := received_step h hu
    obtain ⟨copied'',left'',hall⟩ := ih hone hrest
    exact ⟨copied'',left'',by simpa using hall⟩

variable {alloc : ℕ → AllocResult} {immData : U32}

theorem commit_pages (hs : Clean s) (ha : ∀ w, (alloc w).Succeeds)
    (h : processRdmaRpcCommit alloc immData s = some t) :
    t.pageAt = KeyedLog.replay ((pending s s.commitList).map (entry s)) s.pageAt := by
  by_cases hne : s.commitList = []
  · rw [processRdmaRpcCommit, if_pos hne] at h
    obtain rfl := Option.some.inj h
    rw [hne]
    rfl
  · rw [processRdmaRpcCommit, if_neg hne] at h
    obtain ⟨-,h⟩ := Option.ite_none_left_eq_some.mp h
    obtain rfl := Option.some.inj h
    obtain ⟨complete,hwalk⟩ := commit_walk alloc s.commitList s hs.named
    have hcomplete : complete = true := hwalk.complete_iff.mpr fun _ w _ => ha w
    subst hcomplete
    rw [commitRegion, drain_eq _ _ rfl]
    exact hwalk.pages (List.nodup_append.mp hs.nodup).2.1

theorem commit_clean (hs : Clean s) (h : processRdmaRpcCommit alloc immData s = some t) :
    Clean t := by
  by_cases hne : s.commitList = []
  · rw [processRdmaRpcCommit, if_pos hne] at h
    obtain rfl := Option.some.inj h
    exact ⟨hs.nodup,hs.unlisted,hs.named⟩
  · rw [processRdmaRpcCommit, if_neg hne] at h
    obtain ⟨-,h⟩ := Option.ite_none_left_eq_some.mp h
    obtain rfl := Option.some.inj h
    have hmoved := commit_walk_unmoved alloc s.commitList s
    obtain ⟨complete,hwalk⟩ := commit_walk alloc s.commitList s hs.named
    rw [commitRegion, drain_eq _ _ rfl, hs.named.map_wr_id hmoved]
    refine ⟨?_,fun w _ => ?_,by simp [Named, resetBatch, Server.emit]⟩
    · simpa [resetBatch, Server.emit, hmoved.posted] using hs.nodup
    · by_cases hw : w ∈ s.commitList
      · simp [resetBatch, Server.emit, cleared, hmoved.commitList, hw]
      · simpa [resetBatch, Server.emit, cleared, hmoved.commitList, hw, hwalk.flags w hw]
          using hs.unlisted w hw

theorem step_clean (m : Message Page) (s t : Server Page) (hs : Clean s)
    (h : step m s = some t) : Clean t := by
  cases m with
  | openBlock header a =>
    simp only [step, Option.ite_none_right_eq_some] at h
    obtain ⟨-,hrw,hp,-,hc,-⟩ := open_effect header a s t h.2
    refine ⟨?_,?_,?_⟩
    · rw [hp, hc]; exact hs.nodup
    · rw [hrw, hc]; exact hs.unlisted
    · rw [Named, hrw, hc]; exact hs.named
  | flow header payload w a =>
    simp only [step, Option.ite_none_right_eq_some] at h
    obtain ⟨⟨-,-,hw⟩,ht⟩ := h
    exact Option.some.inj ht ▸ (flow_cases ⟨header,payload,w,a⟩ hs hw).1
  | commit immData alloc =>
    simp only [step, Option.ite_none_right_eq_some] at h
    exact commit_clean hs h.2

/-- After the commit a page holds its last frame, unless one was missed: then it
holds its first. -/
theorem committed_page (h : Received base fs copied left s) (ha : ∀ w, (alloc w).Succeeds)
    (ht : processRdmaRpcCommit alloc immData s = some t) (P : ℕ) :
    (Missed base fs P → t.pageAt P = (firstFrame P fs).getD (base.pageAt P)) ∧
      (¬Missed base fs P →
        t.pageAt P = (lastFrame P (fs.map Frame.message)).getD (base.pageAt P)) := by
  have hpages : t.pageAt =
      KeyedLog.replay (copied.map Frame.write++(left.map Frame.write).reverse) base.pageAt := by
    rw [commit_pages h.clean ha ht, h.waiting, h.pages, KeyedLog.replay_append]
  have hpage : t.pageAt P = (((ofPage P copied).map Frame.payload++
      ((ofPage P left).map Frame.payload).reverse).getLast?).getD (base.pageAt P) := by
    rw [hpages, KeyedLog.replay_apply, KeyedLog.lastOf, KeyedLog.entries_append,
      KeyedLog.entries_reverse, entries_write, entries_write]
  rw [hpage, firstFrame, last_frame_eq, h.order, ← h.missed]
  constructor
  · intro hleft
    obtain ⟨g,gs,hg⟩ := List.exists_cons_of_ne_nil hleft
    simp [hg]
  · intro hleft
    simp [not_not.mp hleft]

omit [Zero Page] in
theorem missed_first {P : ℕ} (h : Missed base fs P) : ∃ v, firstFrame P fs = some v := by
  obtain ⟨pre,g,hpre,hg,-⟩ := h
  have hmem : g ∈ ofPage P fs := by
    refine List.mem_filter.mpr ⟨hpre.subset (List.mem_append_right pre (List.mem_cons_self ..)),?_⟩
    simp [hg]
  obtain ⟨g',gs,hcons⟩ := List.exists_cons_of_ne_nil (List.ne_nil_of_mem hmem)
  exact ⟨g'.payload,by simp [firstFrame, hcons]⟩

/-- On a connection with an empty commit list any frames arrive, with any of the
allocations failing, and a commit follows in which none fails. The last frame wins
on every page exactly if, on each page one of whose frames came without memory for
its block, the first frame and the last have the same content. -/
theorem last_frame_wins_iff (buffer : ℕ) (rkey : U32) (before : List (Message Page))
    (fs : List (Frame Page)) (hbefore : run step before (initServer buffer rkey) = some s)
    (hempty : s.commitList = []) (ha : ∀ w, (alloc w).Succeeds)
    (h : run step (fs.map Frame.message++[.commit immData alloc]) s = some t) :
    (∀ P v, lastFrame P (fs.map Frame.message) = some v → t.pageAt P = v) ↔
      ∀ P, Missed s fs P → firstFrame P fs = lastFrame P (fs.map Frame.message) := by
  have hs : Clean s := run_induction step_clean (init_clean buffer rkey) hbefore
  rw [run_append, Option.bind_eq_some_iff] at h
  obtain ⟨u,hu,hcommit⟩ := h
  obtain ⟨v,hv,hv'⟩ := run_cons.mp hcommit
  obtain rfl := Option.some.inj hv'
  simp only [step, Option.ite_none_right_eq_some] at hv
  obtain ⟨copied,left,hr⟩ := received_run fs (received_nil hs hempty) hu
  have hpage := committed_page hr ha hv.2
  simp only [List.nil_append] at hpage
  constructor
  · intro hall P hm
    obtain ⟨first,hfirst⟩ := missed_first hm
    have hlast : ∃ last, lastFrame P (fs.map Frame.message) = some last := by
      rw [last_frame_eq]
      rw [firstFrame, Option.map_eq_some_iff] at hfirst
      obtain ⟨g,hg,-⟩ := hfirst
      obtain ⟨gs,hgs⟩ := List.head?_eq_some_iff.mp hg
      simp [hgs, List.getLast?_cons]
    obtain ⟨last,hlast⟩ := hlast
    have hp := (hpage P).1 hm
    rw [hall P last hlast, hfirst] at hp
    rw [hfirst, hlast]
    exact congrArg some hp.symm
  · intro hall P last hlast
    by_cases hm : Missed s fs P
    · rw [(hpage P).1 hm, hall P hm, hlast]
      rfl
    · rw [(hpage P).2 hm, hlast]
      rfl

end Arrival

/-- One client writes a page of block 1 twice, another two pages of block 0; the
commit of the first is let through by the frames of the second. -/
def rewritten (a : AllocResult) : List (Frame ℕ) :=
  [⟨flowHeader 0x40000#32,7,0,a⟩,⟨flowHeader 0x40000#32,8,1,a⟩,
    ⟨flowHeader 5#32,3,2,⟨some 0,some 1#32⟩⟩,⟨flowHeader 6#32,4,3,⟨some 0,some 1#32⟩⟩]

def rewrittenRun (a : AllocResult) : Option (Server ℕ) :=
  run step ((rewritten a).map Frame.message++
    [.commit (qcommitWord 2#32) fun _ => ⟨some 4096,some 9#32⟩]) (initServer 0 1#32)

theorem last_frame_wins_iff_sample : ∃ t, rewrittenRun ⟨some 4096,some 9#32⟩ = some t ∧
    t.pageAt 0x40000 = 8 := by
  have hsome : (rewrittenRun ⟨some 4096,some 9#32⟩).isSome := by decide +kernel
  obtain ⟨t,ht⟩ := Option.isSome_iff_exists.mp hsome
  have hno : ∀ P, ¬Missed (initServer 0 1#32) (rewritten ⟨some 4096,some 9#32⟩) P := by
    rintro P ⟨pre,g,hpre,rfl,hno⟩
    refine hno (.inr ⟨g,by simp,rfl,?_⟩)
    have hg := hpre.subset (List.mem_append_right pre (List.mem_cons_self ..))
    simp only [rewritten, List.mem_cons, List.not_mem_nil, or_false] at hg
    rcases hg with rfl | rfl | rfl | rfl <;> exact ⟨rfl,rfl⟩
  have hiff := last_frame_wins_iff 0 1#32 [] (rewritten ⟨some 4096,some 9#32⟩) rfl rfl
    (fun _ => ⟨rfl,rfl⟩) ht
  exact ⟨t,ht,hiff.mpr (fun P hm => absurd hm (hno P)) 0x40000 8 (by decide)⟩

theorem first_frame_wins : ∃ t, rewrittenRun ⟨none,none⟩ = some t ∧
    lastFrame 0x40000 ((rewritten ⟨none,none⟩).map Frame.message) = some 8 ∧
    t.pageAt 0x40000 = 7 := by
  have hrun : (rewrittenRun ⟨none,none⟩).map (·.pageAt 0x40000) = some 7 := by decide +kernel
  obtain ⟨t,ht,hpage⟩ := Option.map_eq_some_iff.mp hrun
  exact ⟨t,ht,by decide,hpage⟩

end Maruswap.LastFrame
