import Maruswap.DriverCalls

/-!
# The staging ring between the calls

Whatever the calls of the driver come to, every page stored since the last reset was
counted in the batch before, so the ring is never full when a page is stored, and no
slot that the list still points to is written again.
-/

set_option autoImplicit false

namespace Maruswap.StageRing
open WireFormat DriverStage RingWindow DriverCalls DriverCalls.Calls GuardedRun

variable {Page : Type*}

def storedAt (offset : U32) : Event Page → Option Page
  | .stored o page => if o = offset then some page else none
  | _ => none

/-- The page last stored for an offset. -/
def lastStored (log : List (Event Page)) (offset : U32) : Option Page :=
  log.findSome? (storedAt offset)

/-- An event that is neither a store nor the full branch. -/
def Silent : Event Page → Prop
  | .stored _ _ => False
  | .full => False
  | _ => True

theorem silent_stored {e : Event Page} (h : Silent e) (offset : U32) :
    storedAt offset e = none := by
  cases e with
  | stored o page => exact absurd h id
  | _ => rfl

theorem silent_full {e : Event Page} (h : Silent e) : e ≠ .full := by
  rintro rfl
  exact h

theorem asks_silent {n : ℕ} {e : Event Page} (h : e.Asks n) : Silent e := by
  cases e <;> trivial

theorem last_stored_silent {new : List (Event Page)} (log : List (Event Page))
    (h : ∀ e ∈ new, Silent e) : lastStored (new++log) = lastStored log := by
  funext offset
  have hnew : new.findSome? (storedAt offset) = none :=
    List.findSome?_eq_none_iff.mpr fun e he => silent_stored (h e he) offset
  rw [lastStored, List.findSome?_append, hnew]
  rfl

theorem last_stored_cons (log : List (Event Page)) (offset : U32) (page : Page) :
    lastStored (.stored offset page::log) =
      Function.update (lastStored log) offset (some page) := by
  funext o
  by_cases h : offset = o
  · subst h; simp [lastStored, storedAt]
  · simp [lastStored, storedAt, h, Ne.symm h]

/-- The invariant of the ring: the count is below the batch and the batch below the
size of the ring, the entries of the list are among the last writes, and each slot
holds what was last stored for its offset. -/
structure Ring (s : Calls Page) : Prop where
  count_le : s.stageBuffer.count ≤ s.batch
  batch_le : s.batch ≤ configBatch
  windowed : Windowed s.stageBuffer
  holds : Holds s.stageBuffer.buffer s.stageBuffer.checkList (lastStored s.log)
  room : .full ∉ s.log

variable {s t : Calls Page}

theorem Ring.silent (hs : Ring s) (hb : t.batch = s.batch)
    (hstage : t.stageBuffer = s.stageBuffer)
    (hlog : ∃ new, t.log = new++s.log ∧ ∀ e ∈ new, Silent e) : Ring t := by
  obtain ⟨new,hnew,hsilent⟩ := hlog
  refine ⟨?_,?_,?_,?_,?_⟩
  · rw [hstage, hb]; exact hs.count_le
  · rw [hb]; exact hs.batch_le
  · rw [hstage]; exact hs.windowed
  · rw [hstage, hnew, last_stored_silent s.log hsilent]
    exact hs.holds
  · rw [hnew]
    intro hfull
    rcases List.mem_append.mp hfull with h | h
    · exact silent_full (hsilent _ h) rfl
    · exact hs.room h

theorem Ring.emit (hs : Ring s) (e : Event Page) (he : Silent e) : Ring (s.emit e) :=
  hs.silent rfl rfl ⟨[e],rfl,by simpa using he⟩

theorem Ring.asks (hs : Ring s) {n : ℕ} (h : Asks n s t) : Ring t := by
  obtain ⟨new,hnew,hasks⟩ := h.log
  exact hs.silent h.batch h.stageBuffer ⟨new,hnew,fun e he => asks_silent (hasks e he)⟩

theorem Ring.cleared (hs : Ring s) (hlist : t.stageBuffer.checkList = fun _ => none)
    (hindex : t.stageBuffer.index = s.stageBuffer.index)
    (hcount : t.stageBuffer.count ≤ s.stageBuffer.count ∧ t.stageBuffer.count ≤ t.batch)
    (hb : t.batch ≤ s.batch) (hlog : ∃ new, t.log = new++s.log ∧ ∀ e ∈ new, Silent e) :
    Ring t := by
  obtain ⟨new,hnew,hsilent⟩ := hlog
  refine ⟨hcount.2,hb.trans hs.batch_le,?_,?_,?_⟩
  · obtain ⟨next,pos,hi,hat⟩ := hs.windowed
    refine ⟨next,pos,hindex.trans hi,hcount.1.trans hat.bound,?_,?_,?_,?_⟩ <;> simp [hlist]
  · simp [Holds, hlist]
  · rw [hnew]
    intro hfull
    rcases List.mem_append.mp hfull with h | h
    · exact silent_full (hsilent _ h) rfl
    · exact hs.room h

theorem requests_silent (word : U32) (s : Calls Page) :
    ∀ e ∈ (requests word s).reverse, Silent e := by
  intro e he
  obtain ⟨c,rfl⟩ := requests_are he
  trivial

theorem Ring.commit_all (hs : Ring s) (word : U32) (results : ℕ → U32) :
    Ring (commitAllWith word results s).2 :=
  hs.cleared rfl rfl ⟨Nat.zero_le _,Nat.zero_le _⟩ (Nat.zero_le _)
    ⟨_,rfl,requests_silent word s⟩

theorem Ring.commit_one (hs : Ring s) (word : U32) (c : ℕ) (ret : U32) :
    Ring (commitOneWith word c ret s).2 :=
  hs.cleared rfl rfl ⟨Nat.le_refl _,hs.count_le⟩ (Nat.le_refl _)
    ⟨[.request c word],rfl,by simp [Silent]⟩

theorem Ring.store (hs : Ring s) (hroom : s.stageBuffer.count < s.batch) (page : Page)
    (offset : U32) : Ring (storePage true page offset s) := by
  have hlt : s.stageBuffer.count < configBatch := Nat.lt_of_lt_of_le hroom hs.batch_le
  have hfull : stageBufferFull s.stageBuffer = false := by
    simpa [stageBufferFull] using hlt
  have hstage : (storePage true page offset s).stageBuffer =
      stageBufferStore true page offset s.stageBuffer := rfl
  have hlog : (storePage true page offset s).log = .stored offset page::s.log := by
    simp [storePage, Calls.emit, withDriver, hfull]
  refine ⟨?_,hs.batch_le,?_,?_,?_⟩
  · rw [hstage, store_room hfull]
    exact hroom
  · rw [hstage]
    exact store_windowed true page offset s.stageBuffer hs.windowed
  · rw [hstage, store_room hfull, hlog, last_stored_cons]
    exact holds_store hs.holds hs.windowed hlt offset page
  · rw [hlog]
    intro h
    rcases List.mem_cons.mp h with h | h
    · cases h
    · exact hs.room h

theorem Ring.opening (hs : Ring s) {offset : U32} {e : WriteEnv} {ret : U32}
    (h : Opening offset e s ret t) : Ring t :=
  (hs.emit (.map e.dma) trivial).asks (opening_asks h)

theorem Ring.committing (hs : Ring s) {e : WriteEnv} {ret : U32}
    (h : Committing e s ret t) : Ring t := by
  cases h with
  | room hb => exact hs
  | full hb => exact hs.commit_all commitWord e.commits

theorem committing_room {e : WriteEnv} {ret : U32} (h : Committing e s ret t) :
    t.batch < configBatch := by
  cases h with
  | room hb => exact Nat.lt_of_not_le hb
  | full hb => exact (by decide : 0 < configBatch)

theorem counted_ring (hs : Ring s) (hb : s.batch < configBatch) :
    Ring (counted s) ∧ (counted s).stageBuffer.count < (counted s).batch :=
  ⟨⟨Nat.le_succ_of_le hs.count_le,hb,hs.windowed,hs.holds,hs.room⟩,
    Nat.lt_succ_of_le hs.count_le⟩

theorem Ring.sending (hs : Ring s) (hroom : s.stageBuffer.count < s.batch) {page : Page}
    {offset : U32} {e : WriteEnv} {ret : U32} (hxa : e.xa = true)
    (h : Sending page offset e s ret t) : Ring t := by
  have hstored : Ring (storePage e.xa page offset (s.emit (.frame (flowHeader offset) page))) := by
    rw [hxa]
    exact (hs.emit (.frame (flowHeader offset) page) trivial).store hroom page offset
  cases h with
  | refused hp => exact hs
  | ended hp hd => exact hstored.emit _ trivial
  | failed hp hd => exact hstored

theorem Ring.write (hs : Ring s) {page : Page} {offset : U32} {e : WriteEnv} {ret : U32}
    (hxa : e.xa = true) (h : maruswapMulticastWrite page offset e s = some (ret,t)) : Ring t := by
  cases write_writing h with
  | unmapped he => exact hs
  | unopened he ho hret => exact hs.opening ho
  | uncommitted he ho hc hret => exact (hs.opening ho).committing hc
  | sent he ho hc hsend =>
    have hv := (hs.opening ho).committing hc
    obtain ⟨hcounted,hroom⟩ := counted_ring hv (committing_room hc)
    exact hcounted.sending hroom hxa hsend

theorem Ring.read (hs : Ring s) {odd : Bool} {offset : U32} {e : ReadEnv} {ret : U32}
    (h : maruswapRdmaRead odd offset e s = some (ret,t)) : Ring t := by
  obtain ⟨c,-,hread⟩ := read_reading h
  have htouch : Ring (s.emit (.touch c (getNumMemblock offset))) := hs.emit _ trivial
  have hmap : Ring ((s.emit (.touch c (getNumMemblock offset))).emit (.map e.dma)) :=
    htouch.emit _ trivial
  have hfetch : Ring (fetching c offset e s) := by
    rw [fetching]
    split
    · exact hmap.emit _ trivial
    · exact hmap
  cases hread with
  | staged hl => exact htouch.emit _ trivial
  | unmapped hl he => exact htouch
  | ended hl he hd => exact hfetch.emit _ trivial
  | failed hl he hd => exact hfetch

/-- `__xa_store` finds its memory. -/
def XaStores : Op Page → Prop
  | .write _ _ e => e.xa = true
  | _ => True

theorem step_ring (l : Op Page) (s t : Calls Page) (hs : Ring s) (hxa : XaStores l)
    (h : step l s = some t) : Ring t := by
  cases l with
  | connect c =>
    obtain rfl := Option.some.inj h
    exact hs.silent rfl rfl ⟨[],rfl,by simp⟩
  | write page offset e =>
    obtain ⟨⟨ret,u⟩,hu,rfl⟩ := Option.map_eq_some_iff.mp h
    exact (hs.write hxa hu).emit _ trivial
  | read odd offset e =>
    obtain ⟨⟨ret,u⟩,hu,rfl⟩ := Option.map_eq_some_iff.mp h
    exact hs.read hu
  | commit c ret => exact Option.some.inj h ▸ hs.commit_one commitWord c ret
  | qcommit c count ret => exact Option.some.inj h ▸ hs.commit_one (qcommitWord count) c ret
  | commitAll results => exact Option.some.inj h ▸ hs.commit_all commitWord results
  | qcommitAll count results =>
    exact Option.some.inj h ▸ hs.commit_all (qcommitWord count) results

theorem init_ring (alive : ℕ → Bool) (behind : ℕ → ℕ → RdmaInfo) (rdmaCtrlList : List ℕ)
    (mainRdmaCtrl : ℕ) (buffer : ℕ → Page) :
    Ring (initCalls alive behind rdmaCtrlList mainRdmaCtrl buffer) where
  count_le := Nat.le_refl 0
  batch_le := Nat.zero_le _
  windowed := empty_window (show 0 < configBatch by decide) fun _ => rfl
  holds := by simp [Holds, initCalls]
  room := by simp [initCalls]

/-- An entry of the list is one of the last `count` slots written. -/
theorem windowed_recent {b : StageBuffer Page} (h : Windowed b) {offset : U32} {slot : ℕ}
    (hs : b.checkList offset = some slot) :
    slot < configBatch ∧ ∃ j, 1 ≤ j ∧ j ≤ b.count ∧ (slot+j) % configBatch = b.index := by
  obtain ⟨next,pos,hi,hat⟩ := h
  have hslot := hat.slot offset slot hs
  have hpast := hat.past offset slot hs
  have hrecent := hat.recent offset slot hs
  refine ⟨hslot ▸ Nat.mod_lt _ (by decide),next-pos offset,by omega,by omega,?_⟩
  rw [hslot, hi, Nat.mod_add_mod]
  congr 1
  omega

/-- Between the calls of any run the count is at most the batch and the batch at most
the size of the ring; no store has found the ring full; and the entries of the list
are distinct slots among the last `count` written, each with the page last stored. -/
theorem stage_ring (alive : ℕ → Bool) (behind : ℕ → ℕ → RdmaInfo) (rdmaCtrlList : List ℕ)
    (mainRdmaCtrl : ℕ) (buffer : ℕ → Page) (ls : List (Op Page)) (t : Calls Page)
    (hxa : ∀ l ∈ ls, XaStores l)
    (h : run step ls (initCalls alive behind rdmaCtrlList mainRdmaCtrl buffer) = some t) :
    (t.stageBuffer.count ≤ t.batch ∧ t.batch ≤ configBatch) ∧ .full ∉ t.log ∧
      (∀ o p slot, t.stageBuffer.checkList o = some slot →
        t.stageBuffer.checkList p = some slot → o = p) ∧
      ∀ o slot, t.stageBuffer.checkList o = some slot →
        (slot < configBatch ∧
          ∃ j, 1 ≤ j ∧ j ≤ t.stageBuffer.count ∧
            (slot+j) % configBatch = t.stageBuffer.index) ∧
        lastStored t.log o = some (t.stageBuffer.buffer slot) := by
  have ht : Ring t :=
    run_invariant step_ring (init_ring alive behind rdmaCtrlList mainRdmaCtrl buffer)
      (meets_of_forall (fun l hl _ => hxa l hl) _) h
  exact ⟨⟨ht.count_le,ht.batch_le⟩,ht.room,fun o p slot ho hp => window_injective ht.windowed ho hp,
    fun o slot ho => ⟨windowed_recent ht.windowed ho,ht.holds o slot ho⟩⟩

/-- Two writes of one page, the second with a failed completion, and a commit of one
server in between. -/
def sampleOps : List (Op ℕ) :=
  [.write 7 5#32 ⟨0,false,some ⟨⟨0,0⟩,1#32⟩,some ⟨⟨0,0⟩,1#32⟩,fun _ => 0#32,0#32,true,[.got true]⟩,
    .commit 1 1#32,
    .write 8 5#32 ⟨0,false,none,none,fun _ => 0#32,0#32,true,[.miss,.failed]⟩]

def sampleInit : Calls ℕ :=
  initCalls (fun _ => true) (fun _ _ => ⟨⟨0,0⟩,0#32⟩) [1,0] 0 fun _ => 0

theorem stage_ring_sample : ∃ t : Calls ℕ,
    run step sampleOps sampleInit = some t ∧
      t.stageBuffer.checkList 5#32 = some 1 ∧
      lastStored t.log 5#32 = some (t.stageBuffer.buffer 1) := by
  have hrun : (run step sampleOps sampleInit).map (·.stageBuffer.checkList 5#32) =
      some (some 1) := by decide +kernel
  obtain ⟨t,ht,hlist⟩ := Option.map_eq_some_iff.mp hrun
  have hxa : ∀ l ∈ sampleOps, XaStores l := by simp [sampleOps, XaStores]
  obtain ⟨-,-,-,hentries⟩ := stage_ring _ _ _ _ _ sampleOps t hxa ht
  exact ⟨t,ht,hlist,(hentries 5#32 1 hlist).2⟩

end Maruswap.StageRing
