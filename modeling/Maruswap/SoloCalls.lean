import Maruswap.DriverCalls

/-!
# Calls with nobody beside them

`WriterThreads` and `ReaderThreads` take the source line by line. A write that no other
thread interrupts takes the lines of one call of `DriverCalls`: it leaves the driver as
the call does and returns what the call returns.
-/

set_option autoImplicit false

namespace Maruswap.SoloCalls
open WireFormat DriverStage GuardedRun
open DriverCalls (Calls WriteEnv ReadEnv AskedLive Opening Committing Sending Writing Reading)
open WriterThreads (Pc Writers Label subRdmaCtrl)
open ReaderThreads (Cluster stageLoad)
open OneWriter (thread)

variable {Page : Type*}

/-- Where a thread stands, with the spinlock and the driver it finds. -/
structure Spot (Page : Type*) where
  lock : Option ℕ
  pc : Pc
  driver : Driver Page

/-- Thread `i` stands there in a call with these arguments. -/
structure Stands (i : ℕ) (offset : U32) (page : Page) (a : Spot Page) (w : Writers Page) :
    Prop where
  driver : w.toDriver = a.driver
  lock : w.lock = a.lock
  pc : w.pc i = a.pc
  offset : (w.call i).offset = offset
  page : (w.call i).page = page

/-- Steps of the thread alone lead from one spot to the other. -/
def Leads (i : ℕ) (offset : U32) (page : Page) (a b : Spot Page) : Prop :=
  ∀ w, Stands i offset page a w → ∃ u,
    Reaches WriterThreads.step (fun l => thread l = some i) w u ∧ Stands i offset page b u

variable {i : ℕ} {offset : U32} {page : Page} {a b c : Spot Page}

theorem leads_refl (a : Spot Page) : Leads i offset page a a :=
  fun w hw => ⟨w,reaches_refl _ _ w,hw⟩

theorem Leads.trans (h : Leads i offset page a b) (k : Leads i offset page b c) :
    Leads i offset page a c := by
  intro w hw
  obtain ⟨u,hu,hb⟩ := h w hw
  obtain ⟨v,hv,hc⟩ := k u hb
  exact ⟨v,hu.trans hv,hc⟩

theorem leads_step (l : Label Page) (hl : thread l = some i)
    (h : ∀ w, Stands i offset page a w → ∃ u, WriterThreads.step l w = some u ∧
      Stands i offset page b u) : Leads i offset page a b := by
  intro w hw
  obtain ⟨u,hu,hb⟩ := h w hw
  exact ⟨u,reaches_step hl hu,hb⟩

/-- An OPEN or a COMMIT that failed takes the write to `out_error`. -/
def after (i : ℕ) (p : Pc) (ret : U32) (d : Driver Page) : Spot Page :=
  if ret = 0#32 then ⟨some i,p,d⟩ else ⟨none,.returned 1#32,d⟩

theorem check_leads (d : Driver Page) : Leads i offset page ⟨some i,.checking,d⟩
    ⟨some i,if WriterThreads.checkRdmaInfo (getNumMemblock offset) d then .openSub
      else .testing,d⟩ := by
  refine leads_step (.check i) rfl fun w hw => ?_
  obtain ⟨rfl,hlock,hpc,rfl,rfl⟩ := hw
  exact ⟨_,if_pos hpc,rfl,hlock,by simp [Writers.move],rfl,rfl⟩

/-- What `ib_rpc_open_all` gets of one controller. -/
def askCtrl (c : ℕ) (offset : U32) (outcome : Option RdmaInfo) (tret : U32) (d : Driver Page) :
    U32 × Driver Page :=
  if (d.ctrl c).alive then WriterThreads.ibRpcOpenUnlocked c offset outcome d else (tret,d)

theorem open_sub_leads {c : ℕ} {d : Driver Page} (hc : subRdmaCtrl d = some c)
    (outcome : Option RdmaInfo) : Leads i offset page ⟨some i,.openSub,d⟩
      ⟨some i,.openMain (askCtrl c offset outcome 0#32 d).1,
        (askCtrl c offset outcome 0#32 d).2⟩ := by
  refine leads_step (.openRpc i outcome) rfl fun w hw => ?_
  obtain ⟨rfl,hlock,hpc,rfl,rfl⟩ := hw
  refine ⟨WriterThreads.openSub i c outcome w,?_,rfl,hlock,?_,rfl,rfl⟩
  · simp only [WriterThreads.step, hpc, hc, Option.map_some]
  · exact Function.update_self ..

theorem open_main_leads (tret : U32) (outcome : Option RdmaInfo) (d : Driver Page) :
    Leads i offset page ⟨some i,.openMain tret,d⟩
      (after i .testing (tret ||| (askCtrl d.mainRdmaCtrl offset outcome tret d).1)
        (askCtrl d.mainRdmaCtrl offset outcome tret d).2) := by
  refine leads_step (.openRpc i outcome) rfl fun w hw => ?_
  obtain ⟨rfl,hlock,hpc,rfl,rfl⟩ := hw
  refine ⟨WriterThreads.openMain i tret outcome w,?_,?_⟩
  · simp only [WriterThreads.step, hpc]
  · have hopen : WriterThreads.openMain i tret outcome w =
        if tret ||| (askCtrl w.mainRdmaCtrl (w.call i).offset outcome tret w.toDriver).1 = 0#32
        then (w.withDriver
          (askCtrl w.mainRdmaCtrl (w.call i).offset outcome tret w.toDriver).2).move i .testing
        else (w.withDriver
          (askCtrl w.mainRdmaCtrl (w.call i).offset outcome tret w.toDriver).2).fail i := rfl
    rw [hopen, after]
    generalize askCtrl w.mainRdmaCtrl (w.call i).offset outcome tret w.toDriver = r
    by_cases hret : tret ||| r.1 = 0#32
    · rw [if_pos hret, if_pos hret]
      exact ⟨rfl,hlock,Function.update_self ..,rfl,rfl⟩
    · rw [if_neg hret, if_neg hret]
      exact ⟨rfl,rfl,Function.update_self ..,rfl,rfl⟩

theorem test_leads (d : Driver Page) : Leads i offset page ⟨some i,.testing,d⟩
    ⟨some i,if configBatch ≤ d.batch then .committing d.rdmaCtrlList 0#32 else .counting,d⟩ := by
  refine leads_step (.test i) rfl fun w hw => ?_
  obtain ⟨rfl,hlock,hpc,rfl,rfl⟩ := hw
  refine ⟨WriterThreads.test i w,if_pos hpc,?_⟩
  rw [WriterThreads.test]
  split_ifs with hb
  · exact ⟨rfl,hlock,Function.update_self ..,rfl,rfl⟩
  · exact ⟨rfl,hlock,Function.update_self ..,rfl,rfl⟩

theorem commit_loop_leads (results : ℕ → U32) (d : Driver Page) (todo : List ℕ) (ret : U32) :
    Leads i offset page ⟨some i,.committing todo ret,d⟩
      ⟨some i,.committing [] (commitRet (fun c => (d.ctrl c).alive) results todo ret),d⟩ := by
  induction todo generalizing ret with
  | nil => exact leads_refl _
  | cons c todo ih =>
    refine Leads.trans (leads_step (.commitRpc i (results c)) rfl fun w hw => ?_) (ih _)
    obtain ⟨rfl,hlock,hpc,rfl,rfl⟩ := hw
    refine ⟨w.move i (.committing todo (if (w.ctrl c).alive then ret ||| results c else ret)),?_,
      rfl,hlock,Function.update_self ..,rfl,rfl⟩
    simp only [WriterThreads.step, hpc]

def countReset (w : Writers Page) : Writers Page :=
  { w with stageBuffer := stageBufferCountReset w.stageBuffer }

theorem commit_end_leads (results : ℕ → U32) (ret : U32) (d : Driver Page) :
    Leads i offset page ⟨some i,.committing [] ret,d⟩
      (after i .counting ret (DriverStage.ibRpcCommitAll results d).2) := by
  have hbatch : Leads i offset page ⟨some i,.committing [] ret,d⟩
      ⟨some i,.clearing ret,{ d with batch := 0 }⟩ := by
    refine leads_step (.resetBatch i) rfl fun w hw => ?_
    obtain ⟨rfl,hlock,hpc,rfl,rfl⟩ := hw
    refine ⟨{ w.move i (.clearing ret) with batch := 0 },?_,rfl,hlock,Function.update_self ..,
      rfl,rfl⟩
    simp only [WriterThreads.step, hpc]
  have hclear : Leads i offset page ⟨some i,.clearing ret,{ d with batch := 0 }⟩
      ⟨some i,.resetting ret,{ d with
        batch := 0
        stageBuffer := clearStageBufferAddr d.stageBuffer }⟩ := by
    refine leads_step (.clear i) rfl fun w hw => ?_
    obtain ⟨hd,hlock,hpc,rfl,rfl⟩ := hw
    refine ⟨{ w.move i (.resetting ret) with
      stageBuffer := clearStageBufferAddr w.stageBuffer },?_,?_,hlock,Function.update_self ..,
      rfl,rfl⟩
    · simp only [WriterThreads.step, hpc]
    · simp [Writers.move, hd]
  refine (hbatch.trans hclear).trans (leads_step (.resetCount i) rfl fun w hw => ?_)
  obtain ⟨hd,hlock,hpc,rfl,rfl⟩ := hw
  refine ⟨if ret = 0#32 then (countReset w).move i .counting else (countReset w).fail i,?_,?_⟩
  · simp only [WriterThreads.step, hpc, countReset]
  · rw [after]
    by_cases hret : ret = 0#32
    · rw [if_pos hret, if_pos hret]
      refine ⟨?_,hlock,Function.update_self ..,rfl,rfl⟩
      simp [countReset, Writers.move, hd, DriverStage.ibRpcCommitAll]
    · rw [if_neg hret, if_neg hret]
      refine ⟨?_,rfl,Function.update_self ..,rfl,rfl⟩
      simp [countReset, Writers.fail, Writers.move, hd, DriverStage.ibRpcCommitAll]

theorem count_leads (d : Driver Page) : Leads i offset page ⟨some i,.counting,d⟩
    ⟨none,.posting,{ d with batch := d.batch+1 }⟩ := by
  refine leads_step (.count i) rfl fun w hw => ?_
  obtain ⟨rfl,hlock,hpc,rfl,rfl⟩ := hw
  exact ⟨WriterThreads.count i w,if_pos hpc,rfl,rfl,Function.update_self ..,rfl,rfl⟩

theorem refuse_leads {ret : U32} (hret : ret ≠ 0#32) (d : Driver Page) :
    Leads i offset page ⟨none,.posting,d⟩ ⟨none,.returned ret,d⟩ := by
  refine leads_step (.post i ret) rfl fun w hw => ?_
  obtain ⟨rfl,hlock,hpc,rfl,rfl⟩ := hw
  refine ⟨WriterThreads.post i ret w,if_pos hpc,?_⟩
  rw [WriterThreads.post, if_neg hret]
  exact ⟨rfl,hlock,Function.update_self ..,rfl,rfl⟩

theorem store_leads (xa : Bool) (d : Driver Page) : Leads i offset page ⟨none,.posting,d⟩
    ⟨none,.polling,{ d with stageBuffer := stageBufferStore xa page offset d.stageBuffer }⟩ := by
  have hpost : Leads i offset page ⟨none,.posting,d⟩ ⟨none,.storing,d⟩ := by
    refine leads_step (.post i 0#32) rfl fun w hw => ?_
    obtain ⟨rfl,hlock,hpc,rfl,rfl⟩ := hw
    refine ⟨WriterThreads.post i 0#32 w,if_pos hpc,rfl,hlock,Function.update_self ..,?_,?_⟩
    · simp [WriterThreads.post]
    · simp [WriterThreads.post]
  refine hpost.trans (leads_step (.store i xa) rfl fun w hw => ?_)
  obtain ⟨rfl,hlock,hpc,rfl,rfl⟩ := hw
  exact ⟨WriterThreads.store i xa w,if_pos hpc,rfl,hlock,Function.update_self ..,rfl,rfl⟩

theorem complete_leads (success : Bool) (d : Driver Page) :
    Leads i offset page ⟨none,.polling,d⟩
      ⟨none,.returned (if success then 0#32 else WriterThreads.einval),d⟩ := by
  refine leads_step (.complete i success) rfl fun w hw => ?_
  obtain ⟨rfl,hlock,hpc,rfl,rfl⟩ := hw
  refine ⟨WriterThreads.complete i success w,if_pos hpc,?_⟩
  cases success with
  | true => exact ⟨rfl,hlock,Function.update_self ..,rfl,rfl⟩
  | false => exact ⟨rfl,hlock,Function.update_self ..,rfl,rfl⟩

variable {e : WriteEnv} {s t : Calls Page} {ret : U32}

theorem asked_live_driver {c : ℕ} {outcome : Option RdmaInfo} {tret : U32}
    (h : AskedLive c offset outcome tret s ret t) :
    askCtrl c offset outcome tret s.toDriver = (ret,t.toDriver) := by
  cases h with
  | dead hd => exact if_neg (by simp [hd])
  | live ha hask => exact (if_pos ha).trans (DriverCalls.asked_driver hask)

theorem open_all_leads {openSub openMain : Option RdmaInfo}
    (h : DriverCalls.ibRpcOpenAll offset openSub openMain s = some (ret,t)) :
    Leads i offset page ⟨some i,.openSub,s.toDriver⟩ (after i .testing ret t.toDriver) := by
  obtain ⟨sub,rs,u,rm,hsub,hs,hm,rfl⟩ := DriverCalls.open_all_asked h
  have hfirst : Leads i offset page ⟨some i,.openSub,s.toDriver⟩
      ⟨some i,.openMain rs,u.toDriver⟩ := by
    have h := @open_sub_leads Page i offset page sub s.toDriver hsub openSub
    rwa [asked_live_driver hs] at h
  have hsecond : Leads i offset page ⟨some i,.openMain rs,u.toDriver⟩
      (after i .testing (rs ||| rm) t.toDriver) := by
    have h := @open_main_leads Page i offset page rs openMain u.toDriver
    rwa [(DriverCalls.asked_live_asks hs).mainRdmaCtrl, asked_live_driver hm] at h
  exact hfirst.trans hsecond

theorem opening_leads (h : Opening offset e s ret t) :
    Leads i offset page ⟨some i,.checking,s.toDriver⟩ (after i .testing ret t.toDriver) := by
  have hcheck := @check_leads Page i offset page s.toDriver
  cases h with
  | known hk =>
    rw [hk] at hcheck
    exact hcheck
  | asked hk ho =>
    rw [hk] at hcheck
    have hall := @open_all_leads Page i offset page _ _ _ _ _ ho
    exact hcheck.trans hall

theorem committing_leads (h : Committing e s ret t) :
    Leads i offset page ⟨some i,.testing,s.toDriver⟩ (after i .counting ret t.toDriver) := by
  have htest := @test_leads Page i offset page s.toDriver
  cases h with
  | room hb =>
    rw [if_neg hb] at htest
    exact htest
  | full hb =>
    rw [if_pos hb] at htest
    exact (htest.trans (commit_loop_leads e.commits s.toDriver s.rdmaCtrlList 0#32)).trans
      (commit_end_leads e.commits _ s.toDriver)

theorem sending_leads (h : Sending page offset e s ret t) :
    Leads i offset page ⟨none,.posting,s.toDriver⟩ ⟨none,.returned ret,t.toDriver⟩ := by
  have hstore := @store_leads Page i offset page e.xa s.toDriver
  cases h with
  | refused hp => exact refuse_leads hp s.toDriver
  | ended hp hd => exact hstore.trans (complete_leads true _)
  | failed hp hd => exact hstore.trans (complete_leads false _)

theorem lock_leads (d : Driver Page) : Leads i offset page ⟨none,.entered,d⟩
    ⟨some i,.checking,d⟩ := by
  refine leads_step (.lock i) rfl fun w hw => ?_
  obtain ⟨rfl,hlock,hpc,rfl,rfl⟩ := hw
  exact ⟨{ w.move i .checking with lock := some i },if_pos ⟨hpc,hlock⟩,rfl,rfl,
    Function.update_self ..,rfl,rfl⟩

theorem writing_leads (h : Writing page offset e s ret t) (he : e.mapError = false) :
    Leads i offset page ⟨none,.entered,s.toDriver⟩ ⟨none,.returned ret,t.toDriver⟩ := by
  have hopen : ∀ {r : U32} {u : Calls Page}, Opening offset e s r u →
      Leads i offset page ⟨none,.entered,s.toDriver⟩ (after i .testing r u.toDriver) :=
    fun ho => (lock_leads _).trans (opening_leads ho)
  have hcommit : ∀ {r : U32} {u v : Calls Page}, Opening offset e s 0#32 u →
      Committing e u r v →
      Leads i offset page ⟨none,.entered,s.toDriver⟩ (after i .counting r v.toDriver) :=
    fun ho hc => (hopen ho).trans (committing_leads hc)
  cases h with
  | unmapped he' => simp [he] at he'
  | unopened _ ho hret =>
    have h := @hopen _ _ ho
    rwa [after, if_neg hret] at h
  | uncommitted _ ho hc hret =>
    have h := hcommit ho hc
    rwa [after, if_neg hret] at h
  | @sent _ u v _ _ ho hc hsend =>
    exact ((hcommit ho hc).trans (count_leads v.toDriver)).trans (sending_leads hsend)

theorem write_is_run (h : DriverCalls.maruswapMulticastWrite page offset e s = some (ret,t))
    (ho : getNumMemblock offset < maxMemblock) (w : Writers Page) (hw : w.toDriver = s.toDriver)
    (hlock : w.lock = none) (hpc : (w.pc i).Resting) :
    ∃ u, Reaches WriterThreads.step (fun l => thread l = some i) w u ∧
      Stands i offset page ⟨none,.returned ret,t.toDriver⟩ u := by
  have hwriting := DriverCalls.write_writing h
  have henter : ∀ r, WriterThreads.step (.call i offset page r) w =
      some (WriterThreads.enter i offset page r w) := fun r => if_pos ⟨hpc,ho⟩
  have hstands : ∀ r, Stands i offset page
      ⟨none,if r = 0#32 then .entered else .returned r,s.toDriver⟩
      (WriterThreads.enter i offset page r w) := by
    intro r
    refine ⟨hw,hlock,Function.update_self ..,?_,?_⟩
    · simp [WriterThreads.enter]
    · simp [WriterThreads.enter]
  cases he : e.mapError with
  | true =>
    cases hwriting with
    | unmapped _ =>
      have hs := hstands DriverCalls.enomem
      exact ⟨_,reaches_step rfl (henter _),hs⟩
    | unopened he' => simp [he] at he'
    | uncommitted he' => simp [he] at he'
    | sent he' => simp [he] at he'
  | false =>
    obtain ⟨u,hu,hend⟩ := writing_leads hwriting he _ (hstands 0#32)
    exact ⟨u,Reaches.trans (reaches_step rfl (henter 0#32)) hu,hend⟩

/-- A line of writer `i`, or of reader `r`. -/
def Line (i r : ℕ) : ReaderThreads.Label Page → Prop
  | .driver l _ => thread l = some i
  | .deliver _ _ => False
  | .read q _ _ => q = r
  | .load q => q = r
  | .issue q _ => q = r
  | .rdmaRead q _ => q = r

/-- Reader `r` has picked its controller and looked into the stage buffer. -/
def looked (r : ℕ) (offset : U32) (c : ℕ) (w : Cluster Page) : Cluster Page :=
  (w.setReader r ⟨.loading,offset,c,none,w.latest offset⟩).setReader r
    (stageLoad w.stageBuffer ⟨.loading,offset,c,none,w.latest offset⟩)

theorem look_run (r : ℕ) (offset : U32) (c : ℕ) (odd : Bool) (w : Cluster Page)
    (hpc : (w.reader r).pc = .idle ∨ (w.reader r).pc.done)
    (ho : getNumMemblock offset < maxMemblock)
    (hc : ReaderThreads.pickCtrl odd w.toDriver = some c) :
    Reaches ReaderThreads.step (Line i r) w (looked r offset c w) := by
  refine ⟨[.read r offset odd,.load r],?_,by simp [Line]⟩
  simp [run, ReaderThreads.step, looked, hpc, ho, hc, Cluster.setReader]

theorem unmapped_run {r : ℕ} {w : Cluster Page} (hpc : (w.reader r).pc = .missed) {ret : U32}
    (hret : ret ≠ 0#32) : ∃ u, Reaches ReaderThreads.step (Line i r) w u ∧
      u.toWriters = w.toWriters ∧ (u.reader r).pc = .returned ret := by
  refine ⟨w.setReader r { w.reader r with pc := .returned ret },
    reaches_step (show Line i r (.issue r ret) from rfl) ?_,rfl,?_⟩
  · simp [ReaderThreads.step, hpc, hret]
  · rw [Cluster.reader_self]

theorem fetched_run {r : ℕ} {w : Cluster Page} (hpc : (w.reader r).pc = .missed) (ret : U32) :
    ∃ u, Reaches ReaderThreads.step (Line i r) w u ∧
      u.toWriters = w.toWriters ∧ (u.reader r).pc = .returned ret := by
  have hrun : ∃ u, run ReaderThreads.step [.issue r 0#32,.rdmaRead r ret] w = some u ∧
      u.toWriters = w.toWriters ∧ (u.reader r).pc = .returned ret := by
    by_cases hret : ret = 0#32
    · simp [run, ReaderThreads.step, hpc, hret, Cluster.setReader]
    · simp [run, ReaderThreads.step, hpc, hret, Cluster.setReader]
  obtain ⟨u,hu,hend⟩ := hrun
  exact ⟨u,⟨_,hu,by simp [Line]⟩,hend⟩

theorem reading_driver {c : ℕ} {e : ReadEnv} (h : Reading c offset e s ret t) :
    t.toDriver = s.toDriver := by
  have hfetch : (DriverCalls.fetching c offset e s).toDriver = s.toDriver := by
    rw [DriverCalls.fetching]
    split <;> rfl
  cases h with
  | staged hl => rfl
  | unmapped hl he => rfl
  | ended hl he hd => exact hfetch
  | failed hl he hd => exact hfetch

theorem read_is_run {odd : Bool} {e : ReadEnv} {r : ℕ}
    (h : DriverCalls.maruswapRdmaRead odd offset e s = some (ret,t))
    (ho : getNumMemblock offset < maxMemblock) (w : Cluster Page) (hw : w.toDriver = s.toDriver)
    (hpc : (w.reader r).pc = .idle ∨ (w.reader r).pc.done) :
    t.toDriver = s.toDriver ∧ ∃ u, Reaches ReaderThreads.step (Line i r) w u ∧
      u.toWriters = w.toWriters ∧ (u.reader r).pc = .returned ret ∧
      ∀ page, stageBufferLoad offset s.stageBuffer = some page →
        (u.reader r).page = some page := by
  obtain ⟨c,hc,hread⟩ := DriverCalls.read_reading h
  have hlook := @look_run Page i r offset c odd w hpc ho (hw ▸ hc)
  have hu : (looked r offset c w).reader r =
      stageLoad s.stageBuffer ⟨.loading,offset,c,none,w.latest offset⟩ := by
    rw [looked, Cluster.reader_self, ← hw]
  have hmissed : stageBufferLoad offset s.stageBuffer = none →
      ((looked r offset c w).reader r).pc = .missed := by
    intro hl
    simp [hu, stageLoad, hl]
  have hnomem : DriverCalls.enomem ≠ 0#32 := by decide
  refine ⟨reading_driver hread,?_⟩
  cases hread with
  | @staged page hl =>
    refine ⟨_,hlook,rfl,?_,fun page' hl' => ?_⟩
    · simp [hu, stageLoad, hl]
    · obtain rfl := Option.some.inj (hl.symm.trans hl')
      simp [hu, stageLoad, hl]
  | unmapped hl he =>
    obtain ⟨u',hrun,hwriters,hpc'⟩ := unmapped_run (hmissed hl) hnomem
    exact ⟨u',hlook.trans hrun,hwriters,hpc',by simp [hl]⟩
  | ended hl he hd =>
    obtain ⟨u',hrun,hwriters,hpc'⟩ := fetched_run (hmissed hl) e.post
    exact ⟨u',hlook.trans hrun,hwriters,hpc',by simp [hl]⟩
  | failed hl he hd =>
    obtain ⟨u',hrun,hwriters,hpc'⟩ := fetched_run (hmissed hl) WriterThreads.einval
    exact ⟨u',hlook.trans hrun,hwriters,hpc',by simp [hl]⟩

theorem writer_reaches {w : Cluster Page} {r : ℕ} {u : Writers Page}
    (h : Reaches WriterThreads.step (fun l => thread l = some i) w.toWriters u) :
    ∃ v, Reaches ReaderThreads.step (Line i r) w v ∧ v.toWriters = u ∧
      (v.reader r).pc = (w.reader r).pc := by
  obtain ⟨ls,hrun,hls⟩ := h
  induction ls generalizing w with
  | nil =>
    obtain rfl := Option.some.inj hrun
    exact ⟨w,reaches_refl _ _ w,rfl,rfl⟩
  | cons l ls ih =>
    obtain ⟨x,hx,hrest⟩ := run_cons.mp hrun
    have hstep : ReaderThreads.step (.driver l fun _ => false) w =
        some (w.drive l (fun _ => false) x) := by
      simp only [ReaderThreads.step, hx, Option.map_some]
    have hfirst : Reaches ReaderThreads.step (Line i r) w (w.drive l (fun _ => false) x) :=
      reaches_step (show Line i r (.driver l _) from hls l (by simp)) hstep
    obtain ⟨v,hv,hwriters,hpc⟩ := ih (w := w.drive l (fun _ => false) x) hrest
      fun k hk => hls k (by simp [hk])
    refine ⟨v,hfirst.trans hv,hwriters,hpc.trans ?_⟩
    simp only [Cluster.drive, ReaderThreads.Reader.overlapped]
    split
    · split <;> rfl
    · rfl

/-- A call of an entry point. -/
inductive Call (Page : Type*) where
  | write (page : Page) (offset : U32) (e : WriteEnv)
  | read (odd : Bool) (offset : U32) (e : ReadEnv)

def Call.target : Call Page → U32
  | .write _ offset _ => offset
  | .read _ offset _ => offset

def Call.made : Call Page → Calls Page → Option (U32 × Calls Page)
  | .write page offset e, s => DriverCalls.maruswapMulticastWrite page offset e s
  | .read odd offset e, s => DriverCalls.maruswapRdmaRead odd offset e s

/-- The calls one after another, with what they return. -/
def made : List (Call Page) → Calls Page → Option (List U32 × Calls Page)
  | [], s => some ([],s)
  | c::cs, s => (c.made s).bind fun a => (made cs a.2).map fun b => (a.1::b.1,b.2)

/-- Writer `i` and reader `r` make the calls in their turns and get these results; a page
that is staged is what a read delivers. -/
inductive Returns (i r : ℕ) : List (Call Page) → List U32 → Cluster Page → Cluster Page → Prop
  | nil (w : Cluster Page) : Returns i r [] [] w w
  | write {page : Page} {offset : U32} {e : WriteEnv} {cs : List (Call Page)} {ret : U32}
      {rets : List U32} {w u v : Cluster Page}
      (hrun : Reaches ReaderThreads.step (Line i r) w u) (hpc : u.pc i = .returned ret)
      (hcall : (u.call i).offset = offset ∧ (u.call i).page = page)
      (hrest : Returns i r cs rets u v) :
      Returns i r (.write page offset e::cs) (ret::rets) w v
  | read {odd : Bool} {offset : U32} {e : ReadEnv} {cs : List (Call Page)} {ret : U32}
      {rets : List U32} {w u v : Cluster Page}
      (hrun : Reaches ReaderThreads.step (Line i r) w u) (hpc : (u.reader r).pc = .returned ret)
      (hwriters : u.toWriters = w.toWriters)
      (hpage : ∀ page, stageBufferLoad offset w.stageBuffer = some page →
        (u.reader r).page = some page)
      (hrest : Returns i r cs rets u v) :
      Returns i r (.read odd offset e::cs) (ret::rets) w v

/-- Nobody holds the spinlock, and the two threads are between their calls. -/
structure Between (i r : ℕ) (s : Calls Page) (w : Cluster Page) : Prop where
  driver : w.toDriver = s.toDriver
  lock : w.lock = none
  writer : (w.pc i).Resting
  reader : (w.reader r).pc = .idle ∨ (w.reader r).pc.done

def sampleCluster : Cluster ℕ :=
  ReaderThreads.initCluster (fun _ => 0) (fun _ => ⟨0#32,0,0⟩) fun _ _ => 0

def sampleCalls : Calls ℕ := ⟨sampleCluster.toDriver,[]⟩

def writeEnv : WriteEnv :=
  ⟨4096,false,some ⟨⟨0,0⟩,1#32⟩,some ⟨⟨0,0⟩,1#32⟩,fun _ => 0#32,0#32,true,[.got true]⟩

def readEnv : ReadEnv := ⟨4096,false,0#32,[.miss,.got true]⟩

end Maruswap.SoloCalls
