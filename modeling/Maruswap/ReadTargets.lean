import Maruswap.DriverCalls
import Maruswap.OpenCheck

/-!
# The server a read goes to

`maruswap_rdma_read` picks the main controller on odd processors and the first other
one of the list on even processors. It does not look at `alive`, nor at the entry of
the block, while writes pass over a server that is not alive.
-/

set_option autoImplicit false

namespace Maruswap.ReadTargets
open WireFormat DriverStage DriverCalls DriverCalls.Calls GuardedRun
open OpenCheck (Filled Grows grows_same grows_connect open_grows)
open WriterThreads (subRdmaCtrl setRdmaInfo)
open ReaderThreads (pickCtrl)

variable {Page : Type*}

/-- The controller that a read on such a processor picks can serve the block. -/
def Usable (odd : Bool) (n : ℕ) (s : Calls Page) : Prop :=
  ∃ c, pickCtrl odd s.toDriver = some c ∧ c ∈ s.rdmaCtrlList ∧ (s.ctrl c).alive = true ∧
    Filled s.toDriver c n

def Keyed (c n : ℕ) (s : Calls Page) : Prop :=
  ∃ info, .opened c n info ∈ s.log ∧ info.rkey ≠ 0#32

/-- Behind the table a key lies there or not. -/
def HasKey (behind : ℕ → ℕ → RdmaInfo) (c n : ℕ) (s : Calls Page) : Prop :=
  Keyed c n s ∨ maxMemblock ≤ n ∧ (behind c n).rkey ≠ 0#32

/-- What is filled in the table has been filled by an OPEN. -/
def Told (behind : ℕ → ℕ → RdmaInfo) (s : Calls Page) : Prop :=
  ∀ c n, Filled s.toDriver c n ↔ HasKey behind c n s

structure Advances (s t : Calls Page) : Prop where
  grows : Grows s.toDriver t.toDriver
  log : ∃ new, t.log = new++s.log
  told : ∀ {behind : ℕ → ℕ → RdmaInfo}, Told behind s → Told behind t

variable {s t u : Calls Page}

theorem Advances.refl (s : Calls Page) : Advances s s :=
  ⟨grows_same rfl rfl rfl,⟨[],rfl⟩,id⟩

theorem Advances.trans (h : Advances s t) (k : Advances t u) : Advances s u := by
  obtain ⟨new,hnew⟩ := h.log
  obtain ⟨more,hmore⟩ := k.log
  refine ⟨⟨k.grows.list.trans h.grows.list,k.grows.main.trans h.grows.main,
    fun c hc => k.grows.alive c (h.grows.alive c hc),fun c n hf => ?_⟩,
    ⟨more++new,by rw [hmore, hnew, List.append_assoc]⟩,fun hs => k.told (h.told hs)⟩
  exact (k.grows.info c n (h.grows.filled hf)).trans (h.grows.info c n hf)

def fills : Event Page → Bool
  | .opened _ _ _ => true
  | _ => false

theorem advances_settled (new : List (Event Page))
    (hinfo : ∀ c, (t.ctrl c).rdmaInfo = (s.ctrl c).rdmaInfo)
    (hgrows : Grows s.toDriver t.toDriver) (hlog : t.log = new++s.log)
    (hno : ∀ e ∈ new, fills e = false) : Advances s t := by
  refine ⟨hgrows,⟨new,hlog⟩,fun hs c n => ?_⟩
  have hfilled : Filled t.toDriver c n ↔ Filled s.toDriver c n := by
    rw [Filled, Filled, hinfo]
  rw [hfilled, hs c n]
  refine or_congr_left (exists_congr fun info => and_congr_left fun _ => ?_)
  rw [hlog, List.mem_append, or_iff_right]
  intro hin
  have hf := hno _ hin
  cases hf

theorem advances_emits (s : Calls Page) (es : List (Event Page))
    (hno : ∀ e ∈ es, fills e = false) : Advances s (s.emits es) :=
  advances_settled es (fun _ => rfl) (grows_same rfl rfl rfl) rfl hno

theorem Advances.emit (h : Advances s t) (e : Event Page) (hno : fills e = false) :
    Advances s (t.emit e) :=
  h.trans (advances_emits t [e] (by simpa using hno))

theorem asked_advances {c : ℕ} {offset : U32} {outcome : Option RdmaInfo} {ret : U32}
    (h : Asked c offset s outcome ret t) : Advances s t := by
  have hgrows : Grows s.toDriver t.toDriver := by
    have hopen := open_grows c offset outcome s.toDriver
    rwa [asked_driver h] at hopen
  cases h with
  | known hr =>
    exact (Advances.refl s).emit _ rfl
  | refused hr =>
    exact ((Advances.refl s).emit _ rfl).emit _ rfl
  | @opened info hr hn =>
    refine ⟨hgrows,⟨[_,_,_],rfl⟩,fun hs d m => ?_⟩
    by_cases hdm : d = c ∧ m = getNumMemblock offset
    · obtain ⟨rfl,rfl⟩ := hdm
      -- the entry was empty, so no earlier OPEN had brought a key
      have hno : ¬Keyed d (getNumMemblock offset) s :=
        fun hk => ((hs d _).mpr (.inl hk)) hr
      constructor
      · intro hf
        refine .inl ⟨info,List.mem_cons_self ..,?_⟩
        simpa [Filled, Calls.emit, withDriver, setRdmaInfo] using hf
      · rintro (⟨info',hin,hkey⟩ | ⟨hle,-⟩)
        · simp only [Calls.emit, withDriver, List.mem_cons, Event.opened.injEq, true_and,
            reduceCtorEq, false_or] at hin
          rcases hin with rfl | hin
          · simpa [Filled, Calls.emit, withDriver, setRdmaInfo] using hkey
          · exact absurd ⟨info',hin,hkey⟩ hno
        · exact absurd hn (Nat.not_lt.mpr hle)
    · have hinfo : ∀ info', Event.opened d m info' ∈
          ((((s.emit (.touch c (getNumMemblock offset))).emit
            (.request c (openWord offset))).withDriver
              (setRdmaInfo c (getNumMemblock offset) info s.toDriver)).emit
                (.opened c (getNumMemblock offset) info)).log ↔
          Event.opened d m info' ∈ s.log := by
        intro info'
        simp only [Calls.emit, withDriver, List.mem_cons, Event.opened.injEq, reduceCtorEq,
          false_or]
        refine or_iff_right ?_
        rintro ⟨rfl,rfl,-⟩
        exact hdm ⟨rfl,rfl⟩
      have hsame : ((setRdmaInfo c (getNumMemblock offset) info s.toDriver).ctrl d).rdmaInfo m =
          (s.ctrl d).rdmaInfo m := by
        by_cases hd : d = c
        · subst hd
          have hm : m ≠ getNumMemblock offset := fun hm => hdm ⟨rfl,hm⟩
          simp [setRdmaInfo, hm]
        · simp [setRdmaInfo, hd]
      have hfilled : Filled (setRdmaInfo c (getNumMemblock offset) info s.toDriver) d m ↔
          Filled s.toDriver d m := by
        rw [Filled, Filled, hsame]
      refine hfilled.trans ((hs d m).trans (or_congr_left ?_))
      exact exists_congr fun info' => and_congr_left fun _ => (hinfo info').symm

theorem asked_live_advances {c : ℕ} {offset : U32} {outcome : Option RdmaInfo} {tret ret : U32}
    (h : AskedLive c offset outcome tret s ret t) : Advances s t := by
  cases h with
  | dead hd => exact Advances.refl s
  | live ha hask => exact asked_advances hask

theorem check_advances (n : ℕ) (s : Calls Page) : Advances s (checkRdmaInfo n s).2 := by
  refine advances_emits s _ fun e he => ?_
  obtain ⟨c,-,rfl⟩ := List.mem_map.mp (List.mem_reverse.mp he)
  rfl

theorem open_all_advances {offset : U32} {openSub openMain : Option RdmaInfo} {ret : U32}
    (h : ibRpcOpenAll offset openSub openMain s = some (ret,t)) : Advances s t := by
  obtain ⟨sub,rs,u,rm,-,hs,hm,-⟩ := open_all_asked h
  exact (asked_live_advances hs).trans (asked_live_advances hm)

theorem opening_advances {offset : U32} {e : WriteEnv} {ret : U32}
    (h : Opening offset e s ret t) : Advances s t := by
  have hmap : Advances s (s.emit (.map e.dma)) := (Advances.refl s).emit _ rfl
  cases h with
  | known hk => exact hmap.trans (check_advances _ _)
  | asked hk ho => exact (hmap.trans (check_advances _ _)).trans (open_all_advances ho)

theorem commit_all_advances (word : U32) (results : ℕ → U32) (s : Calls Page) :
    Advances s (commitAllWith word results s).2 := by
  refine advances_settled _ (fun _ => rfl) (grows_same rfl rfl rfl) rfl fun e he => ?_
  obtain ⟨c,rfl⟩ := requests_are he
  rfl

theorem commit_one_advances (word : U32) (c : ℕ) (ret : U32) (s : Calls Page) :
    Advances s (commitOneWith word c ret s).2 :=
  advances_settled [.request c word] (fun _ => rfl) (grows_same rfl rfl rfl) rfl
    (by simp [fills])

theorem committing_advances {e : WriteEnv} {ret : U32} (h : Committing e s ret t) :
    Advances s t := by
  cases h with
  | room hb => exact Advances.refl s
  | full hb => exact commit_all_advances commitWord e.commits s

theorem store_advances (xa : Bool) (page : Page) (offset : U32) (s : Calls Page) :
    Advances s (storePage xa page offset s) := by
  refine advances_settled [_] (fun _ => rfl) (grows_same rfl rfl rfl) rfl ?_
  intro e he
  rw [List.mem_singleton.mp he]
  split <;> rfl

theorem sending_advances {page : Page} {offset : U32} {e : WriteEnv} {ret : U32}
    (h : Sending page offset e s ret t) : Advances s t := by
  have hstore := ((Advances.refl s).emit (.frame (flowHeader offset) page) rfl).trans
    (store_advances e.xa page offset _)
  cases h with
  | refused hp => exact Advances.refl s
  | ended hp hd => exact hstore.emit _ rfl
  | failed hp hd => exact hstore

theorem counted_advances (s : Calls Page) : Advances s (counted s) :=
  advances_settled [] (fun _ => rfl) (grows_same rfl rfl rfl) rfl (by simp)

theorem write_advances {page : Page} {offset : U32} {e : WriteEnv} {ret : U32}
    (h : maruswapMulticastWrite page offset e s = some (ret,t)) : Advances s t := by
  cases write_writing h with
  | unmapped he => exact Advances.refl s
  | unopened he ho hret => exact opening_advances ho
  | uncommitted he ho hc hret => exact (opening_advances ho).trans (committing_advances hc)
  | @sent _ u v _ he ho hc hsend =>
    exact (((opening_advances ho).trans (committing_advances hc)).trans (counted_advances v)).trans
      (sending_advances hsend)

theorem read_advances {odd : Bool} {offset : U32} {e : ReadEnv} {ret : U32}
    (h : maruswapRdmaRead odd offset e s = some (ret,t)) : Advances s t := by
  obtain ⟨c,-,hread⟩ := read_reading h
  have htouch : Advances s (s.emit (.touch c (getNumMemblock offset))) :=
    (Advances.refl s).emit _ rfl
  have hfetch : Advances s (fetching c offset e s) := by
    rw [fetching]
    split
    · exact (htouch.emit _ rfl).emit _ rfl
    · exact htouch.emit _ rfl
  cases hread with
  | staged hl => exact htouch.emit _ rfl
  | unmapped hl he => exact htouch
  | ended hl he hd => exact hfetch.emit _ rfl
  | failed hl he hd => exact hfetch

theorem step_advances (l : Op Page) (s t : Calls Page) (h : step l s = some t) :
    Advances s t := by
  cases l with
  | connect c =>
    obtain rfl := Option.some.inj h
    refine advances_settled [] (fun d => ?_) (grows_connect s.toDriver c) rfl (by simp)
    by_cases hd : d = c
    · subst hd; simp [withDriver]
    · simp [withDriver, hd]
  | write page offset e =>
    obtain ⟨⟨ret,u⟩,hu,rfl⟩ := Option.map_eq_some_iff.mp h
    exact (write_advances hu).emit _ rfl
  | read odd offset e =>
    obtain ⟨⟨ret,u⟩,hu,rfl⟩ := Option.map_eq_some_iff.mp h
    exact read_advances hu
  | commit c ret => exact Option.some.inj h ▸ commit_one_advances commitWord c ret s
  | qcommit c count ret =>
    exact Option.some.inj h ▸ commit_one_advances (qcommitWord count) c ret s
  | commitAll results => exact Option.some.inj h ▸ commit_all_advances commitWord results s
  | qcommitAll count results =>
    exact Option.some.inj h ▸ commit_all_advances (qcommitWord count) results s

theorem run_advances {ls : List (Op Page)} (h : run step ls s = some t) : Advances s t := by
  induction ls generalizing s with
  | nil => exact Option.some.inj h ▸ Advances.refl s
  | cons l ls ih =>
    obtain ⟨u,hu,hrest⟩ := run_cons.mp h
    exact (step_advances l s u hu).trans (ih hrest)

def IsCall : Op Page → Prop
  | .connect _ => False
  | _ => True

theorem write_alive {page : Page} {offset : U32} {e : WriteEnv} {ret : U32}
    (h : maruswapMulticastWrite page offset e s = some (ret,t)) (c : ℕ) :
    (t.ctrl c).alive = (s.ctrl c).alive := by
  have hcommit : ∀ {u v : Calls Page} {ret : U32}, Committing e u ret v → v.ctrl = u.ctrl := by
    intro u v ret hc
    cases hc <;> rfl
  cases write_writing h with
  | unmapped he => rfl
  | unopened he ho hret => exact (opening_asks ho).alive c
  | uncommitted he ho hc hret =>
    rw [hcommit hc]
    exact (opening_asks ho).alive c
  | @sent _ u v _ he ho hc hsend =>
    have hsent : t.ctrl = v.ctrl := by cases hsend <;> rfl
    rw [hsent, hcommit hc]
    exact (opening_asks ho).alive c

theorem read_alive {odd : Bool} {offset : U32} {e : ReadEnv} {ret : U32}
    (h : maruswapRdmaRead odd offset e s = some (ret,t)) : t.ctrl = s.ctrl := by
  obtain ⟨c,-,hread⟩ := read_reading h
  have hfetch : (fetching c offset e s).ctrl = s.ctrl := by
    rw [fetching]
    split <;> rfl
  cases hread with
  | staged hl => rfl
  | unmapped hl he => rfl
  | ended hl he hd => exact hfetch
  | failed hl he hd => exact hfetch

theorem step_alive {l : Op Page} (hl : IsCall l) (h : step l s = some t) (c : ℕ) :
    (t.ctrl c).alive = (s.ctrl c).alive := by
  cases l with
  | connect c => exact absurd hl id
  | write page offset e =>
    obtain ⟨⟨ret,u⟩,hu,rfl⟩ := Option.map_eq_some_iff.mp h
    exact write_alive hu c
  | read odd offset e =>
    obtain ⟨⟨ret,u⟩,hu,rfl⟩ := Option.map_eq_some_iff.mp h
    exact congrArg (fun ctrl => (ctrl c).alive) (read_alive hu)
  | commit c ret => exact Option.some.inj h ▸ rfl
  | qcommit c count ret => exact Option.some.inj h ▸ rfl
  | commitAll results => exact Option.some.inj h ▸ rfl
  | qcommitAll count results => exact Option.some.inj h ▸ rfl

theorem run_alive {ls : List (Op Page)} (hls : ∀ l ∈ ls, IsCall l)
    (h : run step ls s = some t) (c : ℕ) : (t.ctrl c).alive = (s.ctrl c).alive := by
  induction ls generalizing s with
  | nil => exact Option.some.inj h ▸ rfl
  | cons l ls ih =>
    obtain ⟨u,hu,hrest⟩ := run_cons.mp h
    exact (ih (fun m hm => hls m (by simp [hm])) hrest).trans (step_alive (hls l (by simp)) hu c)

def Keys (s : Calls Page) : Prop := ∀ c n info, .opened c n info ∈ s.log → info.rkey ≠ 0#32

theorem Advances.keys (h : Advances s t) (hk : Keys t) : Keys s := by
  obtain ⟨new,hnew⟩ := h.log
  intro c n info hin
  refine hk c n info ?_
  rw [hnew]
  exact List.mem_append_right new hin

theorem pick_mem {odd : Bool} {c : ℕ} (hmain : s.mainRdmaCtrl ∈ s.rdmaCtrlList)
    (hc : pickCtrl odd s.toDriver = some c) : c ∈ s.rdmaCtrlList := by
  cases odd with
  | true => exact Option.some.inj hc ▸ hmain
  | false => exact List.mem_of_find?_eq_some hc

theorem asked_fills {c : ℕ} {offset : U32} {outcome : Option RdmaInfo} {ret : U32}
    (h : Asked c offset s outcome ret t) (hret : ret = 0#32) (hk : Keys t) :
    Filled t.toDriver c (getNumMemblock offset) := by
  cases h with
  | known hr => exact hr
  | refused hr => cases hret
  | @opened info hr hn =>
    have hkey := hk c (getNumMemblock offset) info (List.mem_cons_self ..)
    simpa [Filled, Calls.emit, withDriver, setRdmaInfo] using hkey

theorem asked_live_fills {c : ℕ} {offset : U32} {outcome : Option RdmaInfo} {tret ret : U32}
    (h : AskedLive c offset outcome tret s ret t) (ha : (s.ctrl c).alive = true)
    (hret : ret = 0#32) (hk : Keys t) : Filled t.toDriver c (getNumMemblock offset) := by
  cases h with
  | dead hd => simp [hd] at ha
  | live _ hask => exact asked_fills hask hret hk

theorem open_all_fills {offset : U32} {openSub openMain : Option RdmaInfo}
    (h : ibRpcOpenAll offset openSub openMain s = some (0#32,t)) (hk : Keys t) {odd : Bool}
    {c : ℕ} (hc : pickCtrl odd s.toDriver = some c) (ha : (s.ctrl c).alive = true) :
    Filled t.toDriver c (getNumMemblock offset) := by
  obtain ⟨sub,rs,u,rm,hsub,hs,hm,hret⟩ := open_all_asked h
  obtain ⟨hrs,hrm⟩ := BitVec.or_eq_zero_iff.mp hret.symm
  have hmu := asked_live_advances hm
  cases odd with
  | true =>
    obtain rfl := Option.some.inj hc
    refine asked_live_fills hm ?_ hrm hk
    exact ((asked_live_asks hs).alive s.mainRdmaCtrl).trans ha
  | false =>
    obtain rfl : c = sub := Option.some.inj (hc.symm.trans hsub)
    exact hmu.grows.filled (asked_live_fills hs ha hrs (hmu.keys hk))

theorem opening_fills {offset : U32} {e : WriteEnv} (h : Opening offset e s 0#32 t)
    (hk : Keys t) (hmain : s.mainRdmaCtrl ∈ s.rdmaCtrlList) {odd : Bool} {c : ℕ}
    (hc : pickCtrl odd s.toDriver = some c) (ha : (s.ctrl c).alive = true) :
    Filled t.toDriver c (getNumMemblock offset) := by
  cases h with
  | known hknown =>
    have hall := List.any_eq_false.mp hknown c (pick_mem hmain hc)
    have hne : ¬((s.ctrl c).rdmaInfo (getNumMemblock offset)).rkey = 0#32 := by simpa using hall
    exact hne
  | asked hasked ho => exact open_all_fills ho hk hc ha

/-- A write that returns 0 leaves an entry in each server that is alive and that reads
may pick. -/
theorem write_fills {page : Page} {offset : U32} {e : WriteEnv}
    (h : maruswapMulticastWrite page offset e s = some (0#32,t)) (hk : Keys t)
    (hmain : s.mainRdmaCtrl ∈ s.rdmaCtrlList) {odd : Bool} {c : ℕ}
    (hc : pickCtrl odd s.toDriver = some c) (ha : (s.ctrl c).alive = true) :
    Filled t.toDriver c (getNumMemblock offset) := by
  have hfills : ∀ {u : Calls Page}, Opening offset e s 0#32 u → Advances u t →
      Filled t.toDriver c (getNumMemblock offset) := by
    intro u ho hut
    exact hut.grows.filled (opening_fills ho (hut.keys hk) hmain hc ha)
  generalize hret : 0#32 = ret at h
  cases write_writing h with
  | unmapped he => cases hret
  | unopened he ho hret' => cases hret
  | uncommitted he ho hc hret' => cases hret
  | @sent _ u v _ he ho hcommit hsend =>
    exact hfills ho (((committing_advances hcommit).trans (counted_advances v)).trans
      (sending_advances hsend))

theorem init_told (alive : ℕ → Bool) (behind : ℕ → ℕ → RdmaInfo) (rdmaCtrlList : List ℕ)
    (mainRdmaCtrl : ℕ) (buffer : ℕ → Page) :
    Told behind (initCalls alive behind rdmaCtrlList mainRdmaCtrl buffer) := by
  intro c n
  by_cases hn : n < maxMemblock
  · simp [Filled, HasKey, Keyed, initCalls, hn]
  · simp [Filled, HasKey, Keyed, initCalls, hn, Nat.not_lt.mp hn]

/-- In any run with a write to the block that returned 0, a read can be served by the
server it goes to exactly if there is one to pick, it is alive and it has answered an
OPEN for the block with a key. If no OPEN is answered without a key and no server
connects after the write, it is enough that there is one to pick and it is alive. -/
theorem read_target_iff (alive : ℕ → Bool) (behind : ℕ → ℕ → RdmaInfo)
    (rdmaCtrlList : List ℕ) (mainRdmaCtrl : ℕ) (buffer : ℕ → Page)
    (hmain : mainRdmaCtrl ∈ rdmaCtrlList) (before after : List (Op Page)) (page : Page)
    (offset : U32) (e : WriteEnv) (u v t : Calls Page)
    (hu : run step before (initCalls alive behind rdmaCtrlList mainRdmaCtrl buffer) = some u)
    (hw : maruswapMulticastWrite page offset e u = some (0#32,v))
    (ht : run step after (v.emit (.wrote offset 0#32)) = some t) (odd : Bool) :
    (Usable odd (getNumMemblock offset) t ↔ ∃ c, pickCtrl odd t.toDriver = some c ∧
      (t.ctrl c).alive = true ∧ HasKey behind c (getNumMemblock offset) t) ∧
    ((∀ l ∈ after, IsCall l) → Keys t →
      (Usable odd (getNumMemblock offset) t ↔ ∃ c, pickCtrl odd t.toDriver = some c ∧
        (t.ctrl c).alive = true)) := by
  have hbefore := run_advances hu
  have hafter : Advances v t := ((Advances.refl v).emit _ rfl).trans (run_advances ht)
  have hwrite := write_advances hw
  have hall := (hbefore.trans hwrite).trans hafter
  have htold : Told behind t :=
    hall.told (init_told alive behind rdmaCtrlList mainRdmaCtrl buffer)
  have hmainu : u.mainRdmaCtrl ∈ u.rdmaCtrlList := by
    rw [hbefore.grows.main, hbefore.grows.list]
    exact hmain
  have hut : Advances u t := hwrite.trans hafter
  have hmaint : t.mainRdmaCtrl ∈ t.rdmaCtrlList := by
    rw [hut.grows.main, hut.grows.list]
    exact hmainu
  have hpick : pickCtrl odd t.toDriver = pickCtrl odd u.toDriver := by
    simp only [pickCtrl, subRdmaCtrl, hut.grows.main, hut.grows.list]
  refine ⟨⟨?_,?_⟩,fun hcalls hk => ⟨?_,?_⟩⟩
  · rintro ⟨c,hc,-,ha,hf⟩
    exact ⟨c,hc,ha,(htold c _).mp hf⟩
  · rintro ⟨c,hc,ha,hkeyed⟩
    exact ⟨c,hc,pick_mem hmaint hc,ha,(htold c _).mpr hkeyed⟩
  · rintro ⟨c,hc,-,ha,-⟩
    exact ⟨c,hc,ha⟩
  · rintro ⟨c,hc,ha⟩
    have hau : (u.ctrl c).alive = true := by
      rw [← write_alive hw c]
      exact (run_alive hcalls ht c).symm.trans ha
    refine ⟨c,hc,pick_mem hmaint hc,ha,hafter.grows.filled ?_⟩
    exact write_fills hw (hafter.keys hk) hmainu (hpick ▸ hc) hau

def sampleEnv : WriteEnv :=
  ⟨4096,false,some ⟨⟨0,0⟩,1#32⟩,some ⟨⟨0,0⟩,1#32⟩,fun _ => 0#32,0#32,true,[.got true]⟩

def blank (_ _ : ℕ) : RdmaInfo := ⟨⟨0,0⟩,0#32⟩

def twoServers (alive : ℕ → Bool) : Calls ℕ := initCalls alive blank [1,0] 0 fun _ => 0

theorem read_target_iff_sample : ∃ t,
    run step [.write 7 5#32 sampleEnv] (twoServers fun _ => true) = some t ∧
      Usable false 0 t := by
  have hret : (maruswapMulticastWrite 7 5#32 sampleEnv (twoServers fun _ => true)).map
      Prod.fst = some 0#32 := by decide +kernel
  obtain ⟨⟨ret,v⟩,hv,rfl⟩ := Option.map_eq_some_iff.mp hret
  have hrun : run step [.write 7 5#32 sampleEnv] (twoServers fun _ => true) =
      some (v.emit (.wrote 5#32 0#32)) := run_cons.mpr ⟨_,by rw [step, hv]; rfl,rfl⟩
  have hfacts : (run step [.write 7 5#32 sampleEnv] (twoServers fun _ => true)).map
      (fun t => (subRdmaCtrl t.toDriver,(t.ctrl 1).alive,
        decide (.opened 1 0 ⟨⟨0,0⟩,1#32⟩ ∈ t.log))) = some (some 1,true,true) := by
    decide +kernel
  rw [hrun, Option.map_some, Option.some.injEq, Prod.mk.injEq, Prod.mk.injEq] at hfacts
  obtain ⟨hsub,halive,hin⟩ := hfacts
  have hiff := (read_target_iff (fun _ => true) blank [1,0] 0 (fun _ => 0) (by decide) [] [] 7
    5#32 sampleEnv _ v _ rfl hv rfl false).1
  exact ⟨_,hrun,hiff.mpr ⟨1,hsub,halive,.inl ⟨_,of_decide_eq_true hin,by decide⟩⟩⟩

/-- The other server never came up. The write passes over it and returns 0, and a read
on an even processor goes to it; with a single server such a read has none to go to. -/
theorem dead_target :
    (∃ t, run step [.write 7 5#32 sampleEnv] (twoServers fun c => c = 0) = some t ∧
      .wrote 5#32 0#32 ∈ t.log ∧ (t.ctrl 0).alive = true ∧
      pickCtrl false t.toDriver = some 1 ∧ ¬Usable false 0 t) ∧
    pickCtrl false (initCalls (fun _ => true) blank [0] 0 fun _ => 0 : Calls ℕ).toDriver =
      none := by
  refine ⟨?_,by decide⟩
  have hfacts : (run step [.write 7 5#32 sampleEnv] (twoServers fun c => c = 0)).map
      (fun t => (decide (.wrote 5#32 0#32 ∈ t.log),(t.ctrl 0).alive,
        pickCtrl false t.toDriver,(t.ctrl 1).alive)) = some (true,true,some 1,false) := by
    decide +kernel
  obtain ⟨t,ht,heq⟩ := Option.map_eq_some_iff.mp hfacts
  simp only [Prod.mk.injEq, decide_eq_true_eq] at heq
  obtain ⟨hwrote,hmain,hpick,hdead⟩ := heq
  refine ⟨t,ht,hwrote,hmain,hpick,?_⟩
  rintro ⟨c,hc,-,ha,-⟩
  obtain rfl : c = 1 := Option.some.inj (hc.symm.trans hpick)
  simp [hdead] at ha

end Maruswap.ReadTargets
