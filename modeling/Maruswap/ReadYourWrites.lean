import Maruswap.ReaderThreads

/-!
# A read sees the last write

The content of a page whose last write returned 0 is what every server comes to
hold. While the page is listed the ring has it as well; once a clear has taken it
off the list, both servers have handled its frames, because a commit asks them
before it clears.
-/

set_option autoImplicit false

namespace Maruswap.ReadYourWrites
open WireFormat DriverStage WriterThreads WriterThreads.Writers GuardedRun StageSoundness
open StageCompleteness SoloWrites OneWriter ReaderThreads ReaderThreads.Cluster

variable {Page : Type*}

def Sent (p : Pc) : Prop := p = .storing ∨ p = .polling

/-- What holds of an offset whose latest write returned 0 with content `v`. -/
structure Promise (w : Cluster Page) (o : U32) (v : Page) : Prop where
  eventual : ∀ c, (w.server c).eventual (pageOf o) = v
  stored : lastStored w.toWriters o = some v
  handled : w.stageBuffer.checkList o = none → ∀ c, c < 2 →
    ∀ f ∈ (w.server c).pending, pageOffset f.header ≠ pageOf o
  based : ∀ c, c < 2 → Based w.toDriver c (getNumMemblock o)

structure Held (w : Cluster Page) : Prop where
  alone : Alone w.toWriters
  busy : ¬ (w.pc 0).Resting → ∀ o, pageOf o = pageOf (w.call 0).offset → w.latest o = none
  sent : Sent (w.pc 0) → ∀ c,
    (w.server c).eventual (pageOf (w.call 0).offset) = (w.call 0).page
  stored : w.pc 0 = .polling → lastStored w.toWriters (w.call 0).offset = some (w.call 0).page ∧
    w.stageBuffer.checkList (w.call 0).offset ≠ none
  synced : ∀ todo ret, w.pc 0 = .committing todo ret → ∀ c, c < 2 → c ∉ todo →
    (w.server c).pending = []
  drained : ∀ ret, w.pc 0 = .clearing ret → ∀ c, c < 2 → (w.server c).pending = []
  numbered : ∀ c, ∀ f ∈ (w.server c).pending, f.number < w.frames.length
  own : Sent (w.pc 0) → ∀ c, ∀ f ∈ (w.server c).pending, f.number+1 = w.frames.length →
    pageOffset f.header = pageOf (w.call 0).offset
  latest : ∀ o v, w.latest o = some v → Promise w o v

def Expected (w : Cluster Page) (rd : Reader Page) (v : Page) : Prop :=
  rd.ctrl < 2 ∧ match rd.pc with
    | .idle => False
    | .loading => w.latest rd.offset = some v
    | .missed => w.latest rd.offset = some v ∧ w.stageBuffer.checkList rd.offset = none
    | .issued addr => w.latest rd.offset = some v ∧ w.stageBuffer.checkList rd.offset = none ∧
      addr = ⟨blockOf (pageOf rd.offset),byteOf (pageOf rd.offset)⟩
    | .returned ret => ret = 0#32 ∧ rd.page = some v

structure Faithful (w : Cluster Page) : Prop where
  held : Held w
  reads : ∀ r v, (w.reader r).expect = some v → Expected w (w.reader r) v

/-! The writer's steps. -/

/-- What the servers, the list and the writer's call come to is as before. -/
structure SameContent (w u : Cluster Page) : Prop where
  server : u.server = w.server
  latest : u.latest = w.latest
  call : u.call 0 = w.call 0
  frames : u.frames = w.frames
  stores : u.stores = w.stores
  checkList : u.stageBuffer.checkList = w.stageBuffer.checkList

theorem Promise.same {w u : Cluster Page} {o : U32} {v : Page} (h : Promise w o v)
    (hserver : u.server = w.server) (hstores : u.stores = w.stores)
    (hlist : u.stageBuffer.checkList = w.stageBuffer.checkList)
    (hb : ∀ c n, Based w.toDriver c n → Based u.toDriver c n) : Promise u o v := by
  refine ⟨?_,?_,?_,fun c hc => hb c _ (h.based c hc)⟩
  · rw [hserver]
    exact h.eventual
  · rw [lastStored, hstores]
    exact h.stored
  · rw [hserver, hlist]
    exact h.handled

theorem Held.same {w u : Cluster Page} (h : Held w) (hs : SameContent w u)
    (ha : Alone u.toWriters) (hb : ∀ c n, Based w.toDriver c n → Based u.toDriver c n)
    (hbusy : ¬ (u.pc 0).Resting → ¬ (w.pc 0).Resting) (hsent : ¬ Sent (u.pc 0))
    (hsync : ∀ todo ret, u.pc 0 = .committing todo ret → ∀ c, c < 2 → c ∉ todo →
      (w.server c).pending = [])
    (hdrain : ∀ ret, u.pc 0 = .clearing ret → ∀ c, c < 2 → (w.server c).pending = []) :
    Held u where
  alone := ha
  busy := fun hp o ho => by
    rw [hs.call] at ho
    rw [hs.latest]
    exact h.busy (hbusy hp) o ho
  sent := fun hp => absurd hp hsent
  stored := fun hp => absurd (Or.inr hp) hsent
  synced := hs.server ▸ hsync
  drained := hs.server ▸ hdrain
  numbered := by
    rw [hs.server, hs.frames]
    exact h.numbered
  own := fun hp => absurd hp hsent
  latest := fun o v ho =>
    (h.latest o v (hs.latest ▸ ho)).same hs.server hs.stores hs.checkList hb

theorem Held.offset_ne {w : Cluster Page} (h : Held w) (hp : ¬ (w.pc 0).Resting) {o : U32}
    {v : Page} (ho : w.latest o = some v) : pageOf o ≠ pageOf (w.call 0).offset := by
  intro he
  rw [h.busy hp o he] at ho
  cases ho

theorem call_held (offset : U32) (page : Page) (ret : U32) (lost : ℕ → Bool) (w : Cluster Page)
    (h : Held w) (ha : Alone (enter 0 offset page ret w.toWriters))
    (hb : ∀ c n, Based w.toDriver c n →
      Based (enter 0 offset page ret w.toWriters).toDriver c n) :
    Held (w.drive (.call 0 offset page ret) lost (enter 0 offset page ret w.toWriters)) := by
  have hpc : (enter 0 offset page ret w.toWriters).pc 0 = .entered ∨
      (enter 0 offset page ret w.toWriters).pc 0 = .returned ret := by
    by_cases hret : ret = 0#32
    · simp [enter, move, hret]
    · simp [enter, move, hret]
  have hsent : ¬ Sent ((enter 0 offset page ret w.toWriters).pc 0) := by
    rcases hpc with hpc | hpc <;> simp [Sent, hpc]
  refine ⟨ha,fun _ o ho => ?_,fun hp => absurd hp hsent,fun hp => absurd (Or.inr hp) hsent,?_,?_,
    h.numbered,fun hp => absurd hp hsent,fun o v ho => ?_⟩
  · have hcall : ((enter 0 offset page ret w.toWriters).call 0).offset = offset := by
      simp [enter]
    change pageOf o = pageOf ((enter 0 offset page ret w.toWriters).call 0).offset at ho
    rw [hcall] at ho
    exact if_pos ho
  · intro todo t hp
    change (enter 0 offset page ret w.toWriters).pc 0 = _ at hp
    rcases hpc with hpc | hpc <;> simp [hpc] at hp
  · intro t hp
    change (enter 0 offset page ret w.toWriters).pc 0 = _ at hp
    rcases hpc with hpc | hpc <;> simp [hpc] at hp
  · have ho : (if pageOf o = pageOf offset then none else w.latest o) = some v := ho
    split at ho
    · cases ho
    · exact (h.latest o v ho).same rfl rfl rfl hb

theorem post_held (lost : ℕ → Bool) (w : Cluster Page) (h : Held w)
    (hpc : w.pc 0 = .posting) (ha : Alone (post 0 0#32 w.toWriters)) :
    Held (w.drive (.post 0 0#32) lost (post 0 0#32 w.toWriters)) := by
  have hbusy : ¬ (w.pc 0).Resting := by
    rw [hpc]
    exact id
  have hpage : pageOffset (flowHeader (w.call 0).offset) = pageOf (w.call 0).offset :=
    flow_header_page _
  have hserver : ∀ c, served (.post 0 0#32) lost w c =
      (w.server c).post ⟨w.frames.length,flowHeader (w.call 0).offset,(w.call 0).page⟩ :=
    fun c => by simp [served]
  have hoffset : ((post 0 0#32 w.toWriters).call 0).offset = (w.call 0).offset := by
    simp [post]
  have hcontent : ((post 0 0#32 w.toWriters).call 0).page = (w.call 0).page := by
    simp [post]
  have hframes : (post 0 0#32 w.toWriters).frames.length = w.frames.length+1 := by
    simp [post]
  have hpending : ∀ c, ∀ f ∈ (served (.post 0 0#32) lost w c).pending,
      f ∈ (w.server c).pending ∨
        f = ⟨w.frames.length,flowHeader (w.call 0).offset,(w.call 0).page⟩ := by
    intro c f hf
    rw [hserver] at hf
    simpa [Server.post] using hf
  refine ⟨ha,fun _ o ho => ?_,fun _ c => ?_,?_,?_,?_,fun c f hf => ?_,fun _ c f hf hn => ?_,
    fun o v ho => ?_⟩
  · exact h.busy hbusy o (ho.trans (congrArg pageOf hoffset))
  · change (served _ _ w c).eventual (pageOf ((post 0 0#32 w.toWriters).call 0).offset) =
      ((post 0 0#32 w.toWriters).call 0).page
    rw [hoffset, hcontent, hserver, Server.eventual_post, ← hpage]
    exact KeyedLog.write_self _ _
  · simp [drive, post, move]
  · simp [drive, post, move]
  · simp [drive, post, move]
  · change f.number < (post 0 0#32 w.toWriters).frames.length
    rw [hframes]
    rcases hpending c f hf with hf | rfl
    · exact Nat.lt_succ_of_lt (h.numbered c f hf)
    · exact Nat.lt_succ_self _
  · change f.number+1 = (post 0 0#32 w.toWriters).frames.length at hn
    change _ = pageOf ((post 0 0#32 w.toWriters).call 0).offset
    rw [hframes] at hn
    rw [hoffset]
    rcases hpending c f hf with hf | rfl
    · have := h.numbered c f hf
      omega
    · exact hpage
  · have hp := h.latest o v ho
    have hne := h.offset_ne hbusy ho
    refine ⟨fun c => ?_,hp.stored,fun hl c hc f hf => ?_,hp.based⟩
    · change (served _ _ w c).eventual _ = v
      rw [hserver, Server.eventual_post, KeyedLog.write_ne _ (by simpa [Frame.entry, hpage])]
      exact hp.eventual c
    · rcases hpending c f hf with hf | rfl
      · exact hp.handled hl c hc f hf
      · rw [hpage]
        exact hne.symm

theorem store_held (lost : ℕ → Bool) (w : Cluster Page) (h : Held w)
    (hpc : w.pc 0 = .storing) (ha : Alone (store 0 true w.toWriters)) :
    Held (w.drive (.store 0 true) lost (store 0 true w.toWriters)) := by
  have hbusy : ¬ (w.pc 0).Resting := by
    rw [hpc]
    exact id
  have hf := h.alone.counted.room_of 0 hpc
  have hlast : ∀ o, lastStored (store 0 true w.toWriters) o =
      if o = (w.call 0).offset then some (w.call 0).page else lastStored w.toWriters o := by
    intro o
    by_cases ho : o = (w.call 0).offset
    · subst ho
      simp [lastStored, store, hf, KeyedLog.lastOf, KeyedLog.entries_single_self]
    · simp [lastStored, store, hf, KeyedLog.lastOf, ho,
        KeyedLog.entries_single_ne (Ne.symm ho)]
  have hlist : (store 0 true w.toWriters).stageBuffer.checkList =
      Function.update w.stageBuffer.checkList (w.call 0).offset
        (some w.stageBuffer.index) := by
    simp [store, store_room hf]
  refine ⟨ha,fun _ => h.busy hbusy,fun _ => h.sent (Or.inl hpc),fun _ => ⟨?_,?_⟩,?_,?_,
    h.numbered,fun _ => h.own (Or.inl hpc),fun o v ho => ?_⟩
  · exact (hlast _).trans (if_pos rfl)
  · change (store 0 true w.toWriters).stageBuffer.checkList (w.call 0).offset ≠ none
    simp [hlist]
  · simp [drive, store, move]
  · simp [drive, store, move]
  · have hp := h.latest o v ho
    have hne : o ≠ (w.call 0).offset := fun he => h.offset_ne hbusy ho (congrArg pageOf he)
    refine ⟨hp.eventual,?_,fun hl => hp.handled ?_,hp.based⟩
    · exact ((hlast o).trans (if_neg hne)).trans hp.stored
    · change (store 0 true w.toWriters).stageBuffer.checkList o = none at hl
      rwa [hlist, Function.update_of_ne hne] at hl

theorem complete_held (lost : ℕ → Bool) (w : Cluster Page) (h : Held w)
    (hpc : w.pc 0 = .polling) (ha : Alone (complete 0 true w.toWriters)) :
    Held (w.drive (.complete 0 true) lost (complete 0 true w.toWriters)) := by
  have hserver : ∀ c, served (.complete 0 true) lost w c = w.server c :=
    fun c => by simp [served]
  have hready := h.alone.linked.ready (by rw [hpc]; trivial)
  obtain ⟨hstored,hlisted⟩ := h.stored hpc
  refine ⟨ha,?_,?_,?_,?_,?_,fun c => ?_,?_,fun o v ho => ?_⟩
  · simp [drive, complete, move, Pc.Resting]
  · simp [drive, complete, move, Sent]
  · simp [drive, complete, move]
  · simp [drive, complete, move]
  · simp [drive, complete, move]
  · change ∀ f ∈ (served _ lost w c).pending, _
    rw [hserver]
    exact h.numbered c
  · simp [drive, complete, move, Sent]
  · have ho : Function.update w.latest (w.call 0).offset (some (w.call 0).page) o = some v := ho
    have hp : Promise w o v := by
      by_cases hoc : o = (w.call 0).offset
      · subst hoc
        rw [Function.update_self] at ho
        obtain rfl := Option.some.inj ho
        refine ⟨h.sent (Or.inr hpc),hstored,fun hl => absurd hl hlisted,fun c hc => ?_⟩
        obtain rfl | rfl : c = 0 ∨ c = 1 := by omega
        · exact hready.1
        · exact hready.2
      · rw [Function.update_of_ne hoc] at ho
        exact h.latest o v ho
    exact hp.same (funext hserver) rfl rfl (fun _ _ hb => hb)

theorem incomplete_held (lost : ℕ → Bool) (w : Cluster Page) (h : Held w)
    (hpc : w.pc 0 = .polling) (ha : Alone (complete 0 false w.toWriters)) :
    Held (w.drive (.complete 0 false) lost (complete 0 false w.toWriters)) := by
  have hbusy : ¬ (w.pc 0).Resting := by
    rw [hpc]
    exact id
  have hserver : ∀ c, served (.complete 0 false) lost w c =
      if lost c then (w.server c).lose (w.frames.length-1) else w.server c :=
    fun c => by simp [served]
  have hpending : ∀ c, ∀ f ∈ (served (.complete 0 false) lost w c).pending,
      f ∈ (w.server c).pending := by
    intro c f hf
    rw [hserver] at hf
    split at hf
    · exact List.mem_of_mem_filter hf
    · exact hf
  refine ⟨ha,?_,?_,?_,?_,?_,fun c f hf => h.numbered c f (hpending c f hf),?_,fun o v ho => ?_⟩
  · simp [drive, complete, move, Pc.Resting]
  · simp [drive, complete, move, Sent]
  · simp [drive, complete, move]
  · simp [drive, complete, move]
  · simp [drive, complete, move]
  · simp [drive, complete, move, Sent]
  · have hp := h.latest o v ho
    have hne := h.offset_ne hbusy ho
    refine ⟨fun c => ?_,hp.stored,fun hl c hc f hf => hp.handled hl c hc f (hpending c f hf),
      hp.based⟩
    change (served _ lost w c).eventual _ = v
    rw [hserver]
    split
    · rw [Server.eventual_lose _ _ _ (fun f hf hn => ?_)]
      · exact hp.eventual c
      · have hlt := h.numbered c f hf
        rw [h.own (Or.inr hpc) c f hf (by omega)]
        exact hne.symm
    · exact hp.eventual c

theorem clear_held (ret : U32) (lost : ℕ → Bool) (w : Cluster Page) (h : Held w)
    (hpc : w.pc 0 = .clearing ret) (ha : Alone { w.toWriters.move 0 (.resetting ret) with
      stageBuffer := clearStageBufferAddr w.stageBuffer }) :
    Held (w.drive (.clear 0) lost { w.toWriters.move 0 (.resetting ret) with
      stageBuffer := clearStageBufferAddr w.stageBuffer }) := by
  have hbusy : ¬ (w.pc 0).Resting := by
    rw [hpc]
    exact id
  refine ⟨ha,fun _ => h.busy hbusy,?_,?_,?_,?_,h.numbered,?_,fun o v ho => ?_⟩
  · simp [drive, move, Sent]
  · simp [drive, move]
  · simp [drive, move]
  · simp [drive, move]
  · simp [drive, move, Sent]
  · have hp := h.latest o v ho
    refine ⟨hp.eventual,hp.stored,fun _ c hc f hf => ?_,hp.based⟩
    change f ∈ (w.server c).pending at hf
    rw [h.drained ret hpc c hc] at hf
    cases hf

theorem open_main_leads (tret : U32) (outcome : Option RdmaInfo) (w : Writers Page) :
    (openMain 0 tret outcome w).call = w.call ∧
      ((openMain 0 tret outcome w).pc 0 = .testing ∨
        (openMain 0 tret outcome w).pc 0 = .returned 1#32) := by
  have hd : ∀ (d : Driver Page) (v : Writers Page),
      v = (w.withDriver d).move 0 .testing ∨ v = (w.withDriver d).fail 0 →
      v.call = w.call ∧ (v.pc 0 = .testing ∨ v.pc 0 = .returned 1#32) := by
    rintro d v (rfl | rfl)
    · exact ⟨rfl,Or.inl (by simp [move])⟩
    · exact ⟨rfl,Or.inr (by simp [fail, move])⟩
  exact hd _ (openMain 0 tret outcome w) (ite_eq_or_eq _ _ _)

theorem open_held (outcome : Option RdmaInfo) (lost : ℕ → Bool) (w : Cluster Page)
    (u : Writers Page) (h : Held w) (ha : Alone u)
    (hb : ∀ c n, Based w.toDriver c n → Based u.toDriver c n)
    (hs : WriterThreads.step (.openRpc 0 outcome) w.toWriters = some u)
    (hcall : u.call = w.call) (hpc : ¬ (w.pc 0).Resting)
    (hp : (∃ tret, u.pc 0 = .openMain tret) ∨ u.pc 0 = .testing ∨ u.pc 0 = .returned 1#32) :
    Held (w.drive (.openRpc 0 outcome) lost u) := by
  have hq := quiet_step _ 0 w.toWriters u rfl hs
  refine h.same ⟨rfl,rfl,congrFun hcall 0,hq.frames,hq.stores,
    congrArg StageBuffer.checkList hq.stageBuffer⟩ ha hb (fun _ => hpc) ?_ ?_ ?_
  all_goals
    simp only [drive]
    rcases hp with ⟨tret,hp⟩ | hp | hp <;> simp [hp, Sent]

theorem commit_rpc_held (tret : U32) (lost : ℕ → Bool) (w : Cluster Page) (h : Held w)
    (hc : Committed (.commitRpc 0 tret) w) {c : ℕ} {todo : List ℕ} {ret new : U32}
    (hpc : w.pc 0 = .committing (c::todo) ret)
    (ha : Alone (w.toWriters.move 0 (.committing todo new))) :
    Held (w.drive (.commitRpc 0 tret) lost (w.toWriters.move 0 (.committing todo new))) := by
  refine h.same ⟨rfl,rfl,rfl,rfl,rfl,rfl⟩ ha (fun _ _ hb => hb)
    (fun _ => by rw [hpc]; exact id) (by simp [drive, move, Sent])
    (fun rest t hp b hb hbt => ?_) (by simp [drive, move])
  simp only [drive, move, Function.update_self, Pc.committing.injEq] at hp
  obtain ⟨rfl,-⟩ := hp
  by_cases hbc : b = c
  · subst hbc
    exact hc b todo ret hpc
  · exact h.synced _ ret hpc b hb (by simp [hbc, hbt])

theorem start_held (lost : ℕ → Bool) (w : Cluster Page) (h : Held w) (hpc : w.pc 0 = .testing)
    (ha : Alone { w.toWriters.move 0 (.committing w.rdmaCtrlList 0#32) with
      commits := w.commits+1 }) :
    Held (w.drive (.test 0) lost { w.toWriters.move 0 (.committing w.rdmaCtrlList 0#32) with
      commits := w.commits+1 }) := by
  refine h.same ⟨rfl,rfl,rfl,rfl,rfl,rfl⟩ ha (fun _ _ hb => hb)
    (fun _ => by rw [hpc]; exact id) (by simp [drive, move, Sent])
    (fun todo t hp c hc hct => ?_) (by simp [drive, move])
  simp only [drive, move, Function.update_self, Pc.committing.injEq] at hp
  obtain ⟨rfl,-⟩ := hp
  rw [h.alone.linked.connected.list] at hct
  simp at hct
  omega

theorem driver_held (l : WriterThreads.Label Page) (lost : ℕ → Bool) (w : Cluster Page)
    (u : Writers Page) (h : Held w) (hl : thread l = some 0) (ha : Answered l w.toWriters)
    (hc : Committed l w) (hs : WriterThreads.step l w.toWriters = some u) :
    Held (w.drive l lost u) := by
  have halone := step_alone l w.toWriters u h.alone hl ha hs
  have hbased := (step_linked l w.toWriters u h.alone.linked hl ha hs).2
  cases WriterThreads.step_effect hs with
  | connect c => cases hl
  | @call i offset _ page ret hpc ho =>
    obtain rfl := Option.some.inj hl
    exact call_held offset page ret lost w h halone hbased
  | lock hpc hlock =>
    obtain rfl := Option.some.inj hl
    exact h.same ⟨rfl,rfl,rfl,rfl,rfl,rfl⟩ halone hbased (fun _ => by rw [hpc]; exact id)
      (by simp [drive, move, Sent]) (by simp [drive, move]) (by simp [drive, move])
  | check hpc =>
    obtain rfl := Option.some.inj hl
    refine h.same ⟨rfl,rfl,rfl,rfl,rfl,rfl⟩ halone hbased (fun _ => by rw [hpc]; exact id)
      ?_ ?_ ?_
    all_goals
      simp only [drive, move, Function.update_self]
      split <;> simp [Sent]
  | openSub outcome hpc hsub =>
    obtain rfl := Option.some.inj hl
    exact open_held outcome lost w _ h halone hbased hs rfl (by rw [hpc]; exact id)
      (.inl ⟨_,by simp [openSub, move]; rfl⟩)
  | @openMain i tret _ outcome hpc =>
    obtain rfl := Option.some.inj hl
    have hleads := open_main_leads tret outcome w.toWriters
    exact open_held outcome lost w _ h halone hbased hs hleads.1 (by rw [hpc]; exact id)
      (.inr hleads.2)
  | start hpc hb =>
    obtain rfl := Option.some.inj hl
    exact start_held lost w h hpc halone
  | pass hpc hb =>
    obtain rfl := Option.some.inj hl
    exact h.same ⟨rfl,rfl,rfl,rfl,rfl,rfl⟩ halone hbased (fun _ => by rw [hpc]; exact id)
      (by simp [drive, move, Sent]) (by simp [drive, move]) (by simp [drive, move])
  | commitRpc tret hpc =>
    obtain rfl := Option.some.inj hl
    exact commit_rpc_held tret lost w h hc hpc halone
  | resetBatch hpc =>
    obtain rfl := Option.some.inj hl
    exact h.same ⟨rfl,rfl,rfl,rfl,rfl,rfl⟩ halone hbased (fun _ => by rw [hpc]; exact id)
      (by simp [drive, move, Sent]) (by simp [drive, move])
      (fun _ _ c hc => h.synced [] _ hpc c hc (by simp))
  | clear hpc =>
    obtain rfl := Option.some.inj hl
    exact clear_held _ lost w h hpc halone
  | resetCount hpc =>
    obtain rfl := Option.some.inj hl
    exact h.same ⟨rfl,rfl,rfl,rfl,rfl,rfl⟩ halone hbased (fun _ => by rw [hpc]; exact id)
      (by simp [drive, move, Sent]) (by simp [drive, move]) (by simp [drive, move])
  | abort hpc hret =>
    obtain rfl := Option.some.inj hl
    exact h.same ⟨rfl,rfl,rfl,rfl,rfl,rfl⟩ halone hbased (fun _ => by rw [hpc]; exact id)
      (by simp [drive, fail, move, Sent]) (by simp [drive, fail, move])
      (by simp [drive, fail, move])
  | count hpc =>
    obtain rfl := Option.some.inj hl
    exact h.same ⟨rfl,rfl,rfl,rfl,rfl,rfl⟩ halone hbased (fun _ => by rw [hpc]; exact id)
      (by simp [drive, count, move, Sent]) (by simp [drive, count, move])
      (by simp [drive, count, move])
  | post hpc =>
    obtain rfl := Option.some.inj hl
    exact post_held lost w h hpc halone
  | @refuse i ret _ hpc hret =>
    obtain rfl := Option.some.inj hl
    have hserver : served (.post 0 ret) lost w = w.server := by
      funext c
      simp [served, hret]
    exact h.same ⟨hserver,rfl,rfl,rfl,rfl,rfl⟩ halone hbased (fun _ => by rw [hpc]; exact id)
      (by simp [drive, move, Sent]) (by simp [drive, move]) (by simp [drive, move])
  | store xa hpc =>
    obtain rfl := Option.some.inj hl
    obtain rfl : xa = true := ha
    exact store_held lost w h hpc halone
  | complete hpc =>
    obtain rfl := Option.some.inj hl
    exact complete_held lost w h hpc halone
  | incomplete hpc =>
    obtain rfl := Option.some.inj hl
    exact incomplete_held lost w h hpc halone

theorem deliver_held (c k : ℕ) (s : Server Page) (w : Cluster Page) (h : Held w)
    (hs : (w.server c).deliver k = some s) :
    Held { w with server := Function.update w.server c s } := by
  obtain ⟨heventual,hpending⟩ := Server.deliver_spec hs
  have hev : ∀ b, (Function.update w.server c s b).eventual = (w.server b).eventual := by
    intro b
    by_cases hb : b = c
    · subst hb
      rw [Function.update_self, heventual]
    · rw [Function.update_of_ne hb]
  have hpd : ∀ b, ∀ f ∈ (Function.update w.server c s b).pending, f ∈ (w.server b).pending := by
    intro b
    by_cases hb : b = c
    · subst hb
      rw [Function.update_self]
      exact hpending
    · rw [Function.update_of_ne hb]
      exact fun _ hf => hf
  have hnil : ∀ b, (w.server b).pending = [] →
      (Function.update w.server c s b).pending = [] := by
    intro b hb
    refine List.eq_nil_iff_forall_not_mem.mpr fun f hf => ?_
    have := hpd b f hf
    rw [hb] at this
    cases this
  refine ⟨h.alone,h.busy,fun hp b => ?_,h.stored,fun todo ret hp b hb hbt => ?_,
    fun ret hp b hb => hnil b (h.drained ret hp b hb),fun b f hf => h.numbered b f (hpd b f hf),
    fun hp b f hf => h.own hp b f (hpd b f hf),fun o v ho => ?_⟩
  · rw [hev]
    exact h.sent hp b
  · exact hnil b (h.synced todo ret hp b hb hbt)
  · have hp := h.latest o v ho
    refine ⟨fun b => ?_,hp.stored,fun hl b hb f hf => hp.handled hl b hb f (hpd b f hf),hp.based⟩
    rw [hev]
    exact hp.eventual b

theorem Held.set_reader {w : Cluster Page} (h : Held w) (r : ℕ) (rd : Reader Page) :
    Held (w.setReader r rd) where
  alone := h.alone
  busy := h.busy
  sent := h.sent
  stored := h.stored
  synced := h.synced
  drained := h.drained
  numbered := h.numbered
  own := h.own
  latest := fun o v ho =>
    have hp := h.latest o v ho
    ⟨hp.eventual,hp.stored,hp.handled,hp.based⟩

/-! The readers' steps. -/

theorem Expected.frame {w u : Cluster Page} {rd : Reader Page} {v : Page}
    (h : Expected w rd v) (hk : rd.pc.done = false → w.latest rd.offset = some v →
      u.latest rd.offset = some v ∧ (w.stageBuffer.checkList rd.offset = none →
        u.stageBuffer.checkList rd.offset = none)) : Expected u rd v := by
  obtain ⟨hctrl,h⟩ := h
  refine ⟨hctrl,?_⟩
  cases hpc : rd.pc with
  | idle =>
    rw [hpc] at h
    exact h
  | loading =>
    rw [hpc] at h hk
    exact (hk rfl h).1
  | missed =>
    rw [hpc] at h hk
    have hu := hk rfl h.1
    exact ⟨hu.1,hu.2 h.2⟩
  | issued addr =>
    rw [hpc] at h hk
    have hu := hk rfl h.1
    exact ⟨hu.1,hu.2 h.2.1,h.2.2⟩
  | returned ret =>
    rw [hpc] at h
    exact h

/-- A step of the writer on other pages keeps a promise, and lists nothing that
was off the list. -/
theorem driver_keeps (l : WriterThreads.Label Page) (w : Cluster Page) (u : Writers Page)
    (h : Held w) (hl : thread l = some 0) (ha : Answered l w.toWriters)
    (hs : WriterThreads.step l w.toWriters = some u) (o : U32) (v : Page)
    (ho : w.latest o = some v)
    (hcall : ∀ i offset page ret, l = .call i offset page ret → pageOf o ≠ pageOf offset) :
    written l w o = some v ∧
      (w.stageBuffer.checkList o = none → u.stageBuffer.checkList o = none) := by
  have hother : ¬ (w.pc 0).Resting → o ≠ (w.call 0).offset := fun hp he =>
    h.offset_ne hp ho (congrArg pageOf he)
  cases WriterThreads.step_effect hs with
  | connect c => cases hl
  | @call i offset _ page ret hpc hn =>
    exact ⟨(if_neg (hcall i offset page ret rfl)).trans ho,id⟩
  | lock hpc hlock => exact ⟨ho,id⟩
  | check hpc => exact ⟨ho,id⟩
  | @openSub i c _ outcome hpc hsub =>
    have hq := quiet_step _ i w.toWriters _ rfl hs
    exact ⟨ho,fun hn => by rwa [hq.stageBuffer]⟩
  | @openMain i tret _ outcome hpc =>
    have hq := quiet_step _ i w.toWriters _ rfl hs
    exact ⟨ho,fun hn => by rwa [hq.stageBuffer]⟩
  | start hpc hb => exact ⟨ho,id⟩
  | pass hpc hb => exact ⟨ho,id⟩
  | commitRpc tret hpc => exact ⟨ho,id⟩
  | resetBatch hpc => exact ⟨ho,id⟩
  | clear hpc => exact ⟨ho,fun _ => rfl⟩
  | resetCount hpc => exact ⟨ho,id⟩
  | abort hpc hret => exact ⟨ho,id⟩
  | count hpc => exact ⟨ho,id⟩
  | post hpc => exact ⟨ho,id⟩
  | refuse hpc hret => exact ⟨ho,id⟩
  | store xa hpc =>
    obtain rfl := Option.some.inj hl
    obtain rfl : xa = true := ha
    have hne := hother (by rw [hpc]; exact id)
    refine ⟨ho,fun hn => ?_⟩
    simpa [store, store_room (h.alone.counted.room_of 0 hpc), hne] using hn
  | complete hpc =>
    obtain rfl := Option.some.inj hl
    have hne := hother (by rw [hpc]; exact id)
    exact ⟨(Function.update_of_ne hne _ _).trans ho,id⟩
  | incomplete hpc => exact ⟨ho,id⟩

theorem driver_reads (l : WriterThreads.Label Page) (lost : ℕ → Bool) (w : Cluster Page)
    (u : Writers Page) (h : Faithful w) (hl : thread l = some 0) (ha : Answered l w.toWriters)
    (hs : WriterThreads.step l w.toWriters = some u) (r : ℕ) (v : Page)
    (he : ((w.reader r).overlapped l).expect = some v) :
    Expected (w.drive l lost u) ((w.reader r).overlapped l) v := by
  have keep : (∀ i offset page ret, l = .call i offset page ret →
        ¬ (pageOf (w.reader r).offset = pageOf offset ∧ (w.reader r).pc.done = false)) →
      (w.reader r).expect = some v → Expected (w.drive l lost u) (w.reader r) v := by
    intro hcall he
    refine (h.reads r v he).frame fun hdone ho => ?_
    exact driver_keeps l w u h.held hl ha hs _ v ho
      (fun i offset page ret hlc hp => hcall i offset page ret hlc ⟨hp,hdone⟩)
  cases l with
  | call i offset page ret =>
    simp only [Reader.overlapped] at he ⊢
    split at he
    · cases he
    · next hc =>
      rw [if_neg hc]
      refine keep (fun j o p t hlc => ?_) he
      cases hlc
      exact hc
  | _ => exact keep nofun he

theorem Faithful.set_reader {w : Cluster Page} (h : Faithful w) (r : ℕ) (rd : Reader Page)
    (hrd : ∀ v, rd.expect = some v → Expected w rd v) : Faithful (w.setReader r rd) := by
  refine ⟨h.held.set_reader r rd,fun q v he => ?_⟩
  change (Function.update w.reader r rd q).expect = some v at he
  change Expected _ (Function.update w.reader r rd q) v
  by_cases hq : q = r
  · subst hq
    rw [Function.update_self] at he ⊢
    exact (hrd v he).frame fun _ ho => ⟨ho,id⟩
  · rw [Function.update_of_ne hq] at he ⊢
    exact (h.reads q v he).frame fun _ ho => ⟨ho,id⟩

theorem pick_ctrl_lt {d : Driver Page} (h : Connected d) (odd : Bool) {c : ℕ}
    (hc : pickCtrl odd d = some c) : c < 2 := by
  cases odd <;> simp [pickCtrl, subRdmaCtrl, h.list, h.main] at hc <;> omega

theorem load_expected {w : Cluster Page} (h : Held w) {rd : Reader Page} {v : Page}
    (hpc : rd.pc = .loading) (he : Expected w rd v) :
    Expected w (stageLoad w.stageBuffer rd) v := by
  obtain ⟨hctrl,ho⟩ := he
  rw [hpc] at ho
  unfold stageLoad
  split
  · next page hp =>
    refine ⟨hctrl,rfl,?_⟩
    have hs := (h.latest _ v ho).stored
    rw [h.alone.staged.sound.loads _ page hp] at hs
    exact hs
  · next hn =>
    exact ⟨hctrl,ho,by simpa [stageBufferLoad] using hn⟩

theorem issue_expected {w : Cluster Page} (h : Held w) {rd : Reader Page} {v : Page}
    (hpc : rd.pc = .missed) (he : Expected w rd v) :
    Expected w { rd with pc := .issued (readAddr w.toDriver rd) } v := by
  obtain ⟨hctrl,ho⟩ := he
  rw [hpc] at ho
  refine ⟨hctrl,ho.1,ho.2,?_⟩
  have hbase : ((w.ctrl rd.ctrl).rdmaInfo (getNumMemblock rd.offset)).remoteAddr =
      ⟨getNumMemblock rd.offset,0⟩ := (h.latest _ v ho.1).based rd.ctrl hctrl
  rw [readAddr, hbase, get_num_memblock_eq, send_offset_byte, Nat.zero_add]
  rfl

theorem rdma_expected {w : Cluster Page} (h : Held w) {rd : Reader Page} {v : Page} {addr : Ptr}
    (hpc : rd.pc = .issued addr) (he : Expected w rd v) :
    Expected w { rd with
      pc := .returned 0#32
      page := some ((w.server rd.ctrl).memory addr) } v := by
  obtain ⟨hctrl,ho⟩ := he
  rw [hpc] at ho
  obtain ⟨ho,hl,rfl⟩ := ho
  have hp := h.latest _ v ho
  refine ⟨hctrl,rfl,congrArg some ?_⟩
  exact (Server.settled (hp.handled hl rd.ctrl hctrl)).symm.trans (hp.eventual rd.ctrl)

theorem step_faithful (l : ReaderThreads.Label Page) (w u : Cluster Page) (h : Faithful w)
    (hg : Reliable l w) (hs : ReaderThreads.step l w = some u) : Faithful u := by
  cases l with
  | driver l lost =>
    obtain ⟨t,ht,rfl⟩ := Option.map_eq_some_iff.mp hs
    obtain ⟨hl,ha,hc⟩ := hg
    exact ⟨driver_held l lost w t h.held hl ha hc ht,driver_reads l lost w t h hl ha ht⟩
  | deliver c k =>
    obtain ⟨s,ht,rfl⟩ := Option.map_eq_some_iff.mp hs
    exact ⟨deliver_held c k s w h.held ht,
      fun r v he => (h.reads r v he).frame fun _ ho => ⟨ho,id⟩⟩
  | read r offset odd =>
    simp only [ReaderThreads.step, Option.ite_none_right_eq_some] at hs
    obtain ⟨c,hc,rfl⟩ := Option.map_eq_some_iff.mp hs.2
    exact h.set_reader r _ fun v he => ⟨pick_ctrl_lt h.held.alone.linked.connected odd hc,he⟩
  | load r =>
    simp only [ReaderThreads.step, Option.ite_none_right_eq_some] at hs
    obtain ⟨hpc,hs⟩ := hs
    obtain rfl := Option.some.inj hs
    refine h.set_reader r _ fun v he => load_expected h.held hpc (h.reads r v ?_)
    rw [← he, stageLoad]
    split <;> rfl
  | issue r ret =>
    simp only [ReaderThreads.step, Option.ite_none_right_eq_some] at hs
    obtain ⟨hpc,hs⟩ := hs
    obtain rfl := Option.some.inj hs
    have hret : ret = 0#32 := hg
    subst hret
    exact h.set_reader r _ fun v he => issue_expected h.held hpc (h.reads r v he)
  | rdmaRead r ret =>
    simp only [ReaderThreads.step] at hs
    split at hs
    · next addr hpc =>
      obtain rfl := Option.some.inj hs
      have hret : ret = 0#32 := hg
      subst hret
      exact h.set_reader r _ fun v he => rdma_expected h.held hpc (h.reads r v he)
    · cases hs

theorem init_faithful (buffer : ℕ → Page) (call : ℕ → Call Page) (memory : ℕ → Ptr → Page) :
    Faithful (initCluster buffer call memory) where
  held :=
    { alone :=
        { idle := fun _ _ => rfl
          linked := ⟨⟨rfl,rfl,fun _ => rfl,fun _ _ hr => absurd rfl hr⟩,nofun,fun hr => hr.elim⟩
          staged := init_staged _ _ _ buffer call
          counted := init_counted _ _ _ buffer call }
      busy := fun _ _ _ => rfl
      sent := fun hp => by simp [initCluster, initWriters, Sent] at hp
      stored := nofun
      synced := nofun
      drained := nofun
      numbered := nofun
      own := fun _ _ _ hf => by cases hf
      latest := nofun }
  reads := nofun

def Returns (w : Cluster Page) (r : ℕ) (v : Page) : Prop :=
  ∃ ls u, run ReaderThreads.step ls w = some u ∧ (u.reader r).pc = .returned 0#32 ∧
    (u.reader r).page = some v

theorem returns_of_step {l : ReaderThreads.Label Page} {w t : Cluster Page} {r : ℕ} {v : Page}
    (hs : ReaderThreads.step l w = some t) (ht : Returns t r v) : Returns w r v := by
  obtain ⟨ls,u,hrun,hu⟩ := ht
  exact ⟨l::ls,u,run_cons.mpr ⟨t,hs,hrun⟩,hu⟩

theorem returned_returns {w : Cluster Page} {r : ℕ} {v : Page} {ret : U32}
    (he : Expected w (w.reader r) v) (hpc : (w.reader r).pc = .returned ret) :
    Returns w r v := by
  obtain ⟨-,he⟩ := he
  rw [hpc] at he
  exact ⟨[],w,rfl,he.1 ▸ hpc,he.2⟩

theorem issued_returns {w : Cluster Page} (h : Faithful w) {r : ℕ} {v : Page} {addr : Ptr}
    (he : (w.reader r).expect = some v) (hpc : (w.reader r).pc = .issued addr) :
    Returns w r v := by
  have hs : ReaderThreads.step (.rdmaRead r 0#32) w = some (w.setReader r { w.reader r with
      pc := .returned 0#32
      page := some ((w.server (w.reader r).ctrl).memory addr) }) := by
    simp [ReaderThreads.step, hpc]
  have ht := step_faithful (.rdmaRead r 0#32) w _ h rfl hs
  exact returns_of_step hs (returned_returns (ht.reads r v (by rw [reader_self]; exact he))
    (congrArg Reader.pc (reader_self ..)))

theorem missed_returns {w : Cluster Page} (h : Faithful w) {r : ℕ} {v : Page}
    (he : (w.reader r).expect = some v) (hpc : (w.reader r).pc = .missed) : Returns w r v := by
  have hs : ReaderThreads.step (.issue r 0#32) w = some (w.setReader r { w.reader r with
      pc := .issued (readAddr w.toDriver (w.reader r)) }) := by
    simp [ReaderThreads.step, hpc]
  have ht := step_faithful (.issue r 0#32) w _ h rfl hs
  exact returns_of_step hs (issued_returns ht (by rw [reader_self]; exact he)
    (congrArg Reader.pc (reader_self ..)))

theorem loading_returns {w : Cluster Page} (h : Faithful w) {r : ℕ} {v : Page}
    (he : (w.reader r).expect = some v) (hpc : (w.reader r).pc = .loading) : Returns w r v := by
  have hs : ReaderThreads.step (.load r) w =
      some (w.setReader r (stageLoad w.stageBuffer (w.reader r))) := by
    simp [ReaderThreads.step, hpc]
  have ht := step_faithful (.load r) w _ h trivial hs
  have hself : (w.setReader r (stageLoad w.stageBuffer (w.reader r))).reader r =
      stageLoad w.stageBuffer (w.reader r) := reader_self ..
  refine returns_of_step hs ?_
  cases hl : stageBufferLoad (w.reader r).offset w.stageBuffer with
  | some page =>
    have hself := hself.trans (by rw [stageLoad, hl])
    exact returned_returns (ht.reads r v (by rw [hself]; exact he)) (by rw [hself])
  | none =>
    have hself := hself.trans (by rw [stageLoad, hl])
    exact missed_returns ht (by rw [hself]; exact he) (by rw [hself])

/-- A read that expects `v` returns with nothing else and can always return. -/
structure ReadsBack (w : Cluster Page) (r : ℕ) (v : Page) : Prop where
  returned : ∀ ret, (w.reader r).pc = .returned ret → ret = 0#32 ∧ (w.reader r).page = some v
  returns : Returns w r v

theorem Faithful.reads_back {w : Cluster Page} (h : Faithful w) {r : ℕ} {v : Page}
    (he : (w.reader r).expect = some v) : ReadsBack w r v := by
  have hr := h.reads r v he
  constructor
  · intro ret hpc
    obtain ⟨-,hr⟩ := hr
    rw [hpc] at hr
    exact hr
  · cases hpc : (w.reader r).pc with
    | idle =>
      obtain ⟨-,hr⟩ := hr
      rw [hpc] at hr
      exact hr.elim
    | loading => exact loading_returns h he hpc
    | missed => exact missed_returns h he hpc
    | issued addr => exact issued_returns h he hpc
    | returned ret => exact returned_returns hr hpc

/-- In every run of one writer and any number of readers against servers that
answer, a read whose offset was last written by a write that returned 0, and is not
written while it runs, delivers the content of that write. -/
theorem read_your_writes (buffer : ℕ → Page) (call : ℕ → Call Page) (memory : ℕ → Ptr → Page)
    (ls : List (ReaderThreads.Label Page)) (w : Cluster Page)
    (hg : Meets ReaderThreads.step Reliable ls (initCluster buffer call memory))
    (h : run ReaderThreads.step ls (initCluster buffer call memory) = some w) (r : ℕ) (v : Page)
    (he : (w.reader r).expect = some v) : ReadsBack w r v :=
  (run_invariant step_faithful (init_faithful buffer call memory) hg h).reads_back he

/-! A batch of writes, its commit and a read of one of its pages from a server. -/

def solo (l : WriterThreads.Label ℕ) : ReaderThreads.Label ℕ := .driver l fun _ => false

theorem drive_run (ls : List (WriterThreads.Label ℕ)) (w : Cluster ℕ) (u : Writers ℕ)
    (h : run WriterThreads.step ls w.toWriters = some u) :
    ∃ x : Cluster ℕ, run ReaderThreads.step (ls.map solo) w = some x ∧ x.toWriters = u ∧
      ∀ r, (x.reader r).pc = (w.reader r).pc := by
  induction ls generalizing w with
  | nil => exact ⟨w,rfl,Option.some.inj h,fun _ => rfl⟩
  | cons l ls ih =>
    obtain ⟨v,hv,hrest⟩ := run_cons.mp h
    obtain ⟨x,hx,hu,hr⟩ := ih (w.drive l (fun _ => false) v) hrest
    refine ⟨x,run_cons.mpr ⟨_,by simp [solo, ReaderThreads.step, hv],hx⟩,hu,fun r => ?_⟩
    rw [hr r]
    show ((w.reader r).overlapped l).pc = (w.reader r).pc
    cases l with
    | call i offset page ret =>
      rw [Reader.overlapped]
      split <;> rfl
    | _ => rfl

theorem complete_run (ls : List (WriterThreads.Label ℕ)) (w : Cluster ℕ) (u : Writers ℕ)
    (h : run WriterThreads.step (ls++[.complete 0 true]) w.toWriters = some u) :
    ∃ x : Cluster ℕ,
      run ReaderThreads.step (ls.map solo++[solo (.complete 0 true)]) w = some x ∧
      x.toWriters = u ∧
      (∀ r, (x.reader r).pc = (w.reader r).pc) ∧
      x.latest (u.call 0).offset = some (u.call 0).page := by
  rw [run_append] at h
  obtain ⟨v,hv,h⟩ := Option.bind_eq_some_iff.mp h
  rw [run_single] at h
  obtain ⟨y,hy,rfl,hpc⟩ := drive_run ls w v hv
  have hcall : u.call = y.call := by
    cases step_effect h with
    | complete hpc => rfl
  refine ⟨y.drive (.complete 0 true) (fun _ => false) u,?_,rfl,fun r => hpc r,?_⟩
  · refine run_trans hy ?_
    rw [run_single]
    simp [solo, ReaderThreads.step, h]
  · rw [hcall]
    exact Function.update_self _ _ _

def Idles (o : U32) : WriterThreads.Label ℕ → Prop
  | .call _ offset _ _ => pageOf o ≠ pageOf offset
  | .complete _ _ => False
  | _ => True

theorem drive_latest {o : U32} {ls : List (WriterThreads.Label ℕ)} {w x : Cluster ℕ}
    (hls : ∀ l ∈ ls, Idles o l) (h : run ReaderThreads.step (ls.map solo) w = some x) :
    x.latest o = w.latest o := by
  induction ls generalizing w with
  | nil => exact congrArg (fun y => Cluster.latest y o) (Option.some.inj h).symm
  | cons l ls ih =>
    obtain ⟨y,hy,hrest⟩ := run_cons.mp h
    rw [ih (fun m hm => hls m (List.mem_cons_of_mem _ hm)) hrest]
    obtain ⟨v,-,rfl⟩ := Option.map_eq_some_iff.mp hy
    have hl := hls l (List.mem_cons_self ..)
    show written l w o = w.latest o
    cases l with
    | call i offset page ret => exact if_neg hl
    | complete i success => exact hl.elim
    | _ => rfl

def Unposted : WriterThreads.Label ℕ → Prop
  | .post _ _ => False
  | .complete _ _ => False
  | _ => True

theorem drive_server {ls : List (WriterThreads.Label ℕ)} {w x : Cluster ℕ}
    (hls : ∀ l ∈ ls, Unposted l) (h : run ReaderThreads.step (ls.map solo) w = some x) :
    x.server = w.server := by
  induction ls generalizing w with
  | nil => exact congrArg Cluster.server (Option.some.inj h).symm
  | cons l ls ih =>
    obtain ⟨y,hy,hrest⟩ := run_cons.mp h
    rw [ih (fun m hm => hls m (List.mem_cons_of_mem _ hm)) hrest]
    obtain ⟨v,-,rfl⟩ := Option.map_eq_some_iff.mp hy
    have hl := hls l (List.mem_cons_self ..)
    funext c
    show served l (fun _ => false) w c = w.server c
    cases l with
    | post i ret => exact hl.elim
    | complete i success => exact hl.elim
    | _ => rfl

theorem flush_run (c n : ℕ) (w : Cluster ℕ) (hn : (w.server c).pending.length = n) :
    ∃ x : Cluster ℕ, run ReaderThreads.step (List.replicate n (.deliver c 0)) w = some x ∧
      x.toWriters = w.toWriters ∧ x.reader = w.reader ∧ x.latest = w.latest ∧
      (x.server c).pending = [] ∧ ∀ d, d ≠ c → x.server d = w.server d := by
  induction n generalizing w with
  | zero => exact ⟨w,rfl,rfl,rfl,rfl,List.eq_nil_of_length_eq_zero hn,fun _ _ => rfl⟩
  | succ n ih =>
    obtain ⟨f,fs,hf⟩ := List.exists_cons_of_length_eq_add_one hn
    obtain ⟨off,hd,-⟩ := interpret_header_eq f.header
    obtain ⟨s,hs,hp⟩ : ∃ s : Server ℕ, (w.server c).deliver 0 = some s ∧ s.pending = fs :=
      ⟨⟨Function.update (w.server c).memory ⟨blockOf (pageOffset f.header),byteOffset off⟩ f.page,
        fs⟩,by simp [Server.deliver, hf, hd],rfl⟩
    obtain ⟨x,hx,h1,h2,h3,h4,h5⟩ := ih { w with server := Function.update w.server c s } (by
      rw [hf] at hn
      simpa [hp] using hn)
    refine ⟨x,run_cons.mpr ⟨_,by simp [ReaderThreads.step, hs],hx⟩,h1,h2,h3,h4,fun d hd => ?_⟩
    rw [h5 d hd]
    exact Function.update_of_ne hd _ _

/-- A write that finds the batch full, up to its first COMMIT, and on to its store. -/
def fullLabels (o : U32) (page : ℕ) : List (WriterThreads.Label ℕ) :=
  [.call 0 o page 0#32,.lock 0,.check 0,.test 0]

def restLabels : List (WriterThreads.Label ℕ) :=
  [.resetBatch 0,.clear 0,.resetCount 0,.count 0,.post 0 0#32,.store 0 true]

theorem full_run (o : U32) (page : ℕ) (w : Writers ℕ) (hl : w.lock = none)
    (hr : (w.pc 0).Resting) (hb : configBatch ≤ w.batch) (ho : getNumMemblock o < maxMemblock)
    (hopen : checkRdmaInfo (getNumMemblock o) w.toDriver = false) (hlist : w.rdmaCtrlList = [1,0]) :
    ∃ u, run WriterThreads.step (fullLabels o page) w = some u ∧
      u.pc 0 = .committing [1,0] 0#32 ∧ (u.call 0).offset = o ∧ u.ctrl = w.ctrl := by
  refine ⟨?u,?r,?_,?_,?_⟩
  case r =>
    simp [run, fullLabels, WriterThreads.step, enter, move, test, hl, hr, hb, ho, hopen, hlist]
    rfl
  · simp
  · simp
  · rfl

theorem rest_run (w : Writers ℕ) (hpc : w.pc 0 = .committing [] 0#32) :
    ∃ u, run WriterThreads.step restLabels w = some u ∧
      ∀ o, o ≠ (w.call 0).offset → u.stageBuffer.checkList o = none := by
  have hroom : stageBufferFull (stageBufferCountReset (clearStageBufferAddr w.stageBuffer)) =
      false := by simp [stageBufferFull, stageBufferCountReset, configBatch]
  refine ⟨?u,?r,?_⟩
  case r =>
    simp [run, restLabels, WriterThreads.step, move, count, post, store, hpc]
    rfl
  · intro o ho
    simp only [store_room hroom]
    simp [ho, stageBufferCountReset, clearStageBufferAddr]

theorem commit_rpc {c : ℕ} {todo : List ℕ} {w : Cluster ℕ}
    (hpc : w.pc 0 = .committing (c::todo) 0#32) (hp : (w.server c).pending = []) :
    ∃ x : Cluster ℕ, ReaderThreads.step (solo (.commitRpc 0 0#32)) w = some x ∧
      Reliable (solo (.commitRpc 0 0#32)) w ∧ x.pc 0 = .committing todo 0#32 ∧
      x.server = w.server ∧ x.call = w.call ∧ x.reader = w.reader ∧ x.latest = w.latest := by
  refine ⟨w.drive (.commitRpc 0 0#32) (fun _ => false)
    (w.toWriters.move 0 (.committing todo 0#32)),?_,⟨rfl,rfl,?_⟩,?_,rfl,rfl,rfl,rfl⟩
  · simp [solo, ReaderThreads.step, WriterThreads.step, hpc]
  · intro d rest ret h
    rw [hpc] at h
    cases h
    exact hp
  · simp [drive, move]

theorem read_run {o : U32} {w : Cluster ℕ} (hpc : (w.reader 0).pc = .idle)
    (ho : getNumMemblock o < maxMemblock) (hnone : w.stageBuffer.checkList o = none) :
    ∃ x : Cluster ℕ,
      run ReaderThreads.step [.read 0 o true,.load 0,.issue 0 0#32,.rdmaRead 0 0#32] w = some x ∧
      (x.reader 0).pc = .returned 0#32 ∧ (x.reader 0).expect = w.latest o := by
  refine ⟨?x,?r,?_,?_⟩
  case r =>
    simp [run, ReaderThreads.step, hpc, ho, pickCtrl, setReader, stageLoad, stageBufferLoad, hnone]
    rfl
  · simp
  · simp

def openingLabels : List (WriterThreads.Label ℕ) :=
  [.call 0 5000#32 70 0#32,.lock 0,.check 0,.openRpc 0 (some ⟨⟨0,0⟩,1#32⟩),
    .openRpc 0 (some ⟨⟨0,0⟩,2#32⟩),.test 0,.count 0,.post 0 0#32,.store 0 true,.complete 0 true]

def emptyCluster : Cluster ℕ := initCluster (fun _ => 0) (fun _ => ⟨0#32,0,0⟩) (fun _ _ => 0)

theorem opening_run : ∃ w : Cluster ℕ,
    (run ReaderThreads.step (openingLabels.map solo) emptyCluster = some w ∧
      Meets ReaderThreads.step Reliable (openingLabels.map solo) emptyCluster) ∧
    Room 0 1023 w.toWriters ∧ w.stageBuffer.index = 1 ∧ w.rdmaCtrlList = [1,0] ∧
    w.batch = 1 ∧ (w.reader 0).pc = .idle ∧
    ∀ o : U32, o.toNat < 2^18 → checkRdmaInfo (getNumMemblock o) w.toDriver = false := by
  refine ⟨_,guarded_cons rfl ⟨rfl,trivial,trivial⟩ <|
    guarded_cons rfl ⟨rfl,trivial,trivial⟩ <| guarded_cons rfl ⟨rfl,trivial,trivial⟩ <|
    guarded_cons rfl ⟨rfl,⟨1#32,rfl⟩,trivial⟩ <| guarded_cons rfl ⟨rfl,⟨2#32,rfl⟩,trivial⟩ <|
    guarded_cons rfl ⟨rfl,trivial,trivial⟩ <| guarded_cons rfl ⟨rfl,trivial,trivial⟩ <|
    guarded_cons rfl ⟨rfl,trivial,trivial⟩ <| guarded_cons rfl ⟨rfl,rfl,trivial⟩ <|
    guarded_cons rfl ⟨rfl,trivial,trivial⟩ ⟨rfl,trivial⟩,⟨rfl,trivial,by decide,by decide⟩,rfl,rfl,
    rfl,rfl,fun o ho => ?_⟩
  have hblock : getNumMemblock o = 0 := by
    rw [get_num_memblock_eq, blockOf]
    omega
  rw [hblock]
  rfl

def Plain : WriterThreads.Label ℕ → Prop
  | .openRpc _ _ => False
  | .commitRpc _ _ => False
  | .store _ xa => xa = true
  | _ => True

theorem plain_reliable {ls : List (WriterThreads.Label ℕ)}
    (h : ∀ l ∈ ls, thread l = some 0 ∧ Plain l) (w : Cluster ℕ) :
    Meets ReaderThreads.step Reliable (ls.map solo) w := by
  refine meets_of_forall (fun l hl _ => ?_) w
  obtain ⟨m,hm,rfl⟩ := List.mem_map.mp hl
  obtain ⟨ht,hp⟩ := h m hm
  cases m with
  | openRpc i outcome => exact hp.elim
  | commitRpc i tret => exact hp.elim
  | store i xa => exact ⟨ht,hp,trivial⟩
  | _ => exact ⟨ht,trivial,trivial⟩

/-- A full batch and its COMMITs, and meanwhile a read of the last page of the batch,
which the servers deliver. -/
theorem read_your_writes_sample : ∃ ls w,
    run ReaderThreads.step ls emptyCluster = some w ∧ solo (.commitRpc 0 0#32) ∈ ls ∧
      .rdmaRead 0 0#32 ∈ ls ∧ (w.reader 0).pc = .returned 0#32 ∧ ReadsBack w 0 77 := by
  obtain ⟨w1,⟨e1,g1⟩,room1,index1,list1,batch1,idle1,open1⟩ := opening_run
  have hlow : ∀ m, m < 1022 → (BitVec.ofNat 32 (0+m)).toNat < 2^18 := by
    intro m hm
    rw [BitVec.toNat_ofNat]
    omega
  obtain ⟨u,hu,hrow⟩ := row_run 0 0 1022 w1.toWriters ⟨room1.lock,room1.resting,
    Nat.le_trans (Nat.add_le_add_left (by decide) _) room1.batch,
    Nat.le_trans (Nat.add_le_add_left (by decide) _) room1.count⟩ (by rw [index1]; decide)
    (by decide) fun m hm => open1 _ (hlow m hm)
  have grow : ∀ l ∈ rowLabels 0 0 1022, thread l = some 0 ∧ Plain l :=
    row_forall (by simp [writeLabels, thread, Plain]) 0 1022
  generalize rowLabels 0 0 1022 = row at hu grow
  obtain ⟨w2,e2,rfl,idle2⟩ := drive_run row w1 u hu
  -- the last page of the batch
  have hopen2 : ∀ m, checkRdmaInfo m w1.toDriver = false → checkRdmaInfo m w2.toDriver = false := by
    intro m h
    unfold checkRdmaInfo at h ⊢
    rwa [hrow.ctrl, hrow.rdmaCtrlList]
  have hbatch2 : w2.batch = 1023 := by rw [hrow.batch, batch1]
  have hcount2 : w2.stageBuffer.count+1 ≤ configBatch := by
    rw [hrow.count]
    exact room1.count
  have e3 := solo_write 0 1022#32 77 0 w2.toWriters
    ⟨hrow.lock,hrow.resting,by rw [hbatch2]; decide,hcount2⟩ (by decide)
    (hopen2 _ (open1 1022#32 (by decide)))
  obtain ⟨w3,e3,hw3,idle3,latest3⟩ := complete_run (countLabels 0 1022#32 77++
    [.post 0 0#32,.store 0 true]) w2 _ e3
  have g3 : Meets ReaderThreads.step Reliable ((writeLabels 0 1022#32 77).map solo) w2 :=
    plain_reliable (by simp [writeLabels, thread, Plain]) w2
  -- the servers handle the frames
  obtain ⟨w4,e4,hw4,reader4,latest4,empty4,-⟩ := flush_run 0 _ w3 rfl
  obtain ⟨w5,e5,hw5,reader5,latest5,empty5,others5⟩ := flush_run 1 _ w4 rfl
  have hdriver : w5.toWriters = wrote 0 1022#32 77 w2.toWriters :=
    hw5.trans (hw4.trans hw3)
  have hlatest : w5.latest 1022#32 = some 77 := by
    rw [latest5, latest4]
    simpa [wrote] using latest3
  -- the commit, up to the store of the write that makes it
  obtain ⟨u6,hu6,pc6,call6,-⟩ := full_run 5001#32 78 w5.toWriters (by rw [hdriver]; rfl)
    (by rw [hdriver]; simp [wrote, move, Pc.Resting])
    (by rw [hdriver]; simp [wrote, hbatch2, configBatch])
    (by decide) (by rw [hdriver]; exact hopen2 _ (open1 5001#32 (by decide)))
    (by rw [hdriver]; exact hrow.rdmaCtrlList.trans list1)
  obtain ⟨w6,e6,rfl,idle6⟩ := drive_run (fullLabels 5001#32 78) w5 u6 hu6
  have server6 := drive_server (by simp [fullLabels, Unposted]) e6
  have latest6 := drive_latest (o := 1022#32) (by simp [fullLabels, Idles]; decide) e6
  obtain ⟨w7,e7,g7,pc7,server7,call7,reader7,latest7⟩ := commit_rpc pc6
    (by rw [server6]; exact empty5)
  obtain ⟨w8,e8,g8,pc8,-,call8,reader8,latest8⟩ := commit_rpc pc7 (by
    rw [server7, server6, others5 0 (by decide)]
    exact empty4)
  obtain ⟨u9,hu9,none9⟩ := rest_run w8.toWriters pc8
  obtain ⟨w9,e9,rfl,idle9⟩ := drive_run restLabels w8 u9 hu9
  have latest9 := drive_latest (o := 1022#32) (by simp [restLabels, Idles]) e9
  have hidle : (w9.reader 0).pc = .idle := by
    rw [idle9, reader8, reader7, idle6, reader5, reader4, idle3, idle2]
    exact idle1
  obtain ⟨w10,e10,pc10,expect10⟩ := read_run hidle (o := 1022#32) (by decide) (none9 _ (by
    rw [call8, call7, call6]
    decide))
  have hexpect : (w10.reader 0).expect = some 77 := by
    rw [expect10, latest9, latest8, latest7, latest6]
    exact hlatest
  have hall := guarded_append ⟨e1,g1⟩ <| guarded_append ⟨e2,plain_reliable grow w1⟩ <|
    guarded_append ⟨e3,g3⟩ <| guarded_append ⟨e4,meets_of_forall (by simp [Reliable]) w3⟩ <|
    guarded_append ⟨e5,meets_of_forall (by simp [Reliable]) w4⟩ <|
    guarded_append ⟨e6,plain_reliable (by simp [fullLabels, thread, Plain]) w5⟩ <|
    guarded_cons e7 g7 <| guarded_cons e8 g8 <|
    guarded_append ⟨e9,plain_reliable (by simp [restLabels, thread, Plain]) w8⟩
      ⟨e10,meets_of_forall (by simp [Reliable]) w9⟩
  exact ⟨_,w10,hall.1,by simp,by simp,pc10,
    read_your_writes _ _ _ _ w10 hall.2 hall.1 0 77 hexpect⟩

end Maruswap.ReadYourWrites
