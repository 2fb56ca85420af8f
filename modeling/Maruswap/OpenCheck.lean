import Maruswap.OneWriter

/-!
# The open check

Any number of writers against servers that may answer an OPEN or not and may
come alive at any time. What a thread saw alive at its open check and the OPEN
requests issued so far are ghosts. A block may stay half opened for any number
of writes; the thread that gets past the check has all it saw.
-/

set_option autoImplicit false

namespace Maruswap.OpenCheck
open WireFormat DriverStage WriterThreads WriterThreads.Writers GuardedRun OneWriter

variable {Page : Type*}

def Filled (d : Driver Page) (c n : ℕ) : Prop := ((d.ctrl c).rdmaInfo n).rkey ≠ 0#32

/-- `requests` has the server and the block of every OPEN, latest first. -/
structure Observed (Page : Type*) extends Writers Page where
  seen : ℕ → ℕ → Bool
  requests : List (ℕ × ℕ)

/-- `ib_rpc_open_all` asks a live server for a block it has no key of. -/
def ask (c n : ℕ) (d : Driver Page) : List (ℕ × ℕ) :=
  if (d.ctrl c).alive ∧ ((d.ctrl c).rdmaInfo n).rkey = 0#32 then [(c,n)] else []

def asked : Label Page → Writers Page → List (ℕ × ℕ)
  | .openRpc i _, w => match w.pc i with
    | .openSub => (subRdmaCtrl w.toDriver).toList.flatMap
        fun c => ask c (getNumMemblock (w.call i).offset) w.toDriver
    | .openMain _ => ask w.mainRdmaCtrl (getNumMemblock (w.call i).offset) w.toDriver
    | _ => []
  | _, _ => []

def saw : Label Page → Observed Page → ℕ → ℕ → Bool
  | .check i, o => Function.update o.seen i (fun c => (o.ctrl c).alive)
  | _, o => o.seen

def step (l : Label Page) (o : Observed Page) : Option (Observed Page) :=
  (WriterThreads.step l o.toWriters).map fun u => ⟨u,saw l o,asked l o.toWriters++o.requests⟩

def initObserved (ctrl : ℕ → RdmaCtrl) (rdmaCtrlList : List ℕ) (mainRdmaCtrl : ℕ)
    (buffer : ℕ → Page) (call : ℕ → Call Page) : Observed Page where
  toWriters := initWriters ctrl rdmaCtrlList mainRdmaCtrl buffer call
  seen := fun _ _ => false
  requests := []

def Answers : Label Page → Observed Page → Prop
  | .openRpc _ outcome, _ => ∀ info ∈ outcome, info.rkey ≠ 0#32
  | _, _ => True

structure Grows (d e : Driver Page) : Prop where
  list : e.rdmaCtrlList = d.rdmaCtrlList
  main : e.mainRdmaCtrl = d.mainRdmaCtrl
  alive : ∀ c, (d.ctrl c).alive = true → (e.ctrl c).alive = true
  info : ∀ c n, Filled d c n → (e.ctrl c).rdmaInfo n = (d.ctrl c).rdmaInfo n

theorem Grows.filled {d e : Driver Page} (h : Grows d e) {c n : ℕ} (hf : Filled d c n) :
    Filled e c n := by
  rw [Filled, h.info c n hf]
  exact hf

theorem grows_same {d e : Driver Page} (hc : e.ctrl = d.ctrl)
    (hl : e.rdmaCtrlList = d.rdmaCtrlList) (hm : e.mainRdmaCtrl = d.mainRdmaCtrl) :
    Grows d e := by
  refine ⟨hl,hm,?_,?_⟩
  · rw [hc]
    exact fun _ h => h
  · rw [hc]
    exact fun _ _ _ => rfl

theorem grows_connect (d : Driver Page) (c : ℕ) :
    Grows d { d with ctrl := Function.update d.ctrl c { d.ctrl c with alive := true } } := by
  refine ⟨rfl,rfl,fun b hb => ?_,fun b n _ => ?_⟩
  · by_cases h : b = c
    · subst h; simp
    · simpa [h] using hb
  · by_cases h : b = c
    · subst h; simp
    · simp [h]

theorem open_grows (c : ℕ) (offset : U32) (outcome : Option RdmaInfo) (d : Driver Page) :
    Grows d (ibRpcOpenUnlocked c offset outcome d).2 := by
  unfold ibRpcOpenUnlocked
  split_ifs with hr
  · exact grows_same rfl rfl rfl
  · cases outcome with
    | none => exact grows_same rfl rfl rfl
    | some info =>
      refine ⟨rfl,rfl,fun b hb => ?_,fun b n hf => ?_⟩
      · by_cases h : b = c
        · subst h
          simpa [setRdmaInfo] using hb
        · simpa [setRdmaInfo, h] using hb
      · by_cases h : b = c
        · subst h
          have hn : n ≠ getNumMemblock offset := fun hn => hr (hn ▸ hf)
          simp [setRdmaInfo, hn]
        · simp [setRdmaInfo, h]

theorem open_filled (c : ℕ) (offset : U32) (outcome : Option RdmaInfo) (d : Driver Page)
    (ha : ∀ info ∈ outcome, info.rkey ≠ 0#32)
    (h : (ibRpcOpenUnlocked c offset outcome d).1 = 0#32) :
    Filled (ibRpcOpenUnlocked c offset outcome d).2 c (getNumMemblock offset) := by
  unfold ibRpcOpenUnlocked at h ⊢
  split_ifs at h ⊢ with hr
  · exact hr
  · cases outcome with
    | none => simp at h
    | some info => simpa [Filled, setRdmaInfo] using ha info rfl

theorem step_grows (l : Label Page) (w u : Writers Page) (h : WriterThreads.step l w = some u) :
    Grows w.toDriver u.toDriver := by
  cases step_effect h with
  | connect c => exact grows_connect w.toDriver c
  | openSub outcome hpc hc =>
    unfold openSub
    dsimp only
    split
    · exact open_grows _ _ outcome w.toDriver
    · exact grows_same rfl rfl rfl
  | @openMain i tret _ outcome hpc =>
    have hd : Grows w.toDriver (if (w.ctrl w.mainRdmaCtrl).alive then
        ibRpcOpenUnlocked w.mainRdmaCtrl (w.call i).offset outcome w.toDriver
        else (tret,w.toDriver)).2 := by
      split
      · exact open_grows _ _ outcome w.toDriver
      · exact grows_same rfl rfl rfl
    unfold openMain
    dsimp only
    generalize (if (w.ctrl w.mainRdmaCtrl).alive then
        ibRpcOpenUnlocked w.mainRdmaCtrl (w.call i).offset outcome w.toDriver
        else (tret,w.toDriver)) = r at hd ⊢
    split
    · exact hd
    · exact hd
  | _ => exact grows_same rfl rfl rfl

theorem asked_unfilled (l : Label Page) (w : Writers Page) (c n : ℕ)
    (h : (c,n) ∈ asked l w) : ¬ Filled w.toDriver c n := by
  have hask : ∀ b m, (c,n) ∈ ask b m w.toDriver → ¬ Filled w.toDriver c n := by
    intro b m hm
    unfold ask at hm
    split at hm
    · next hr =>
      obtain ⟨rfl,rfl⟩ := Prod.mk.inj (List.mem_singleton.mp hm)
      exact not_not_intro hr.2
    · cases hm
  unfold asked at h
  split at h
  · split at h
    · obtain ⟨b,-,hb⟩ := List.mem_flatMap.mp h
      exact hask b _ hb
    · exact hask _ _ h
    · cases h
  · cases h

theorem run_fixed (ls : List (Label Page)) (o u : Observed Page) (h : run step ls o = some u)
    (c n : ℕ) (hf : Filled o.toDriver c n) :
    (u.ctrl c).rdmaInfo n = (o.ctrl c).rdmaInfo n ∧
      ∃ new, u.requests = new++o.requests ∧ (c,n) ∉ new := by
  induction ls generalizing o with
  | nil => exact Option.some.inj h ▸ ⟨rfl,[],rfl,by simp⟩
  | cons l ls ih =>
    obtain ⟨v,hv,hrest⟩ := run_cons.mp h
    obtain ⟨w,hw,rfl⟩ := Option.map_eq_some_iff.mp hv
    have hgrow := step_grows l o.toWriters w hw
    obtain ⟨hinfo,new,hnew,hnot⟩ := ih _ hrest (hgrow.filled hf)
    refine ⟨hinfo.trans (hgrow.info c n hf),new++asked l o.toWriters,?_,?_⟩
    · rw [hnew, List.append_assoc]
    · rw [List.mem_append, not_or]
      exact ⟨hnot,fun ha => asked_unfilled l o.toWriters c n ha hf⟩

def blockOfCall (w : Writers Page) (i : ℕ) : ℕ := getNumMemblock (w.call i).offset

/-- Between the two opens a thread has what it saw of `sub`, after them all it saw. -/
structure Kept (sub : ℕ) (o : Observed Page) (i : ℕ) : Prop where
  half : o.pc i = .openMain 0#32 → o.seen i sub = true →
    Filled o.toDriver sub (blockOfCall o.toWriters i)
  ready : Ready (o.pc i) → ∀ c ∈ o.rdmaCtrlList, o.seen i c = true →
    Filled o.toDriver c (blockOfCall o.toWriters i)

structure Opened (sub : ℕ) (o : Observed Page) : Prop where
  list : ∀ c, c ∈ o.rdmaCtrlList ↔ c = o.mainRdmaCtrl ∨ c = sub
  distinct : sub ≠ o.mainRdmaCtrl
  seen : ∀ i c, o.seen i c = true → (o.ctrl c).alive = true
  kept : ∀ i, Kept sub o i

theorem init_opened (ctrl : ℕ → RdmaCtrl) (rdmaCtrlList : List ℕ) (main sub : ℕ)
    (buffer : ℕ → Page) (call : ℕ → Call Page)
    (hlist : ∀ c, c ∈ rdmaCtrlList ↔ c = main ∨ c = sub) (hne : sub ≠ main) :
    Opened sub (initObserved ctrl rdmaCtrlList main buffer call) where
  list := hlist
  distinct := hne
  seen := by simp [initObserved]
  kept := by
    intro i
    exact ⟨by simp [initObserved],by simp [initObserved]⟩

theorem Kept.grow {sub : ℕ} {o v : Observed Page} {i : ℕ} (h : Kept sub o i)
    (hgrow : Grows o.toDriver v.toDriver) (hseen : v.seen i = o.seen i)
    (hopen : v.pc i = .openMain 0#32 → o.pc i = .openMain 0#32)
    (hready : Ready (v.pc i) → Ready (o.pc i))
    (hblock : blockOfCall v.toWriters i = blockOfCall o.toWriters i) : Kept sub v i := by
  refine ⟨fun hp hs => ?_,fun hp c hc hs => ?_⟩
  · rw [hseen] at hs
    rw [hblock]
    exact hgrow.filled (h.half (hopen hp) hs)
  · rw [hseen] at hs
    rw [hgrow.list] at hc
    rw [hblock]
    exact hgrow.filled (h.ready (hready hp) c hc hs)

theorem kept_aside {sub : ℕ} {v : Observed Page} {i : ℕ} (hopen : v.pc i ≠ .openMain 0#32)
    (hready : ¬ Ready (v.pc i)) : Kept sub v i :=
  ⟨fun hp _ => absurd hp hopen,fun hp _ _ _ => absurd hp hready⟩

theorem step_calls (l : Label Page) (k : ℕ) (w u : Writers Page) (hl : thread l = some k)
    (h : WriterThreads.step l w = some u) (j : ℕ) (hj : j ≠ k) : u.call j = w.call j := by
  cases hq : l.quiet with
  | some i =>
    have hi : i = k := by
      cases l <;> simp_all [Label.quiet, thread]
    exact (quiet_step l i w u hq h).call j (hi ▸ hj)
  | none =>
    cases step_effect h with
    | post hpc =>
      obtain rfl := Option.some.inj hl
      exact Function.update_of_ne hj _ _
    | call _ _ _ _ => cases hq
    | openMain _ _ => cases hq
    | _ => rfl

theorem saw_others (l : Label Page) (k : ℕ) (o : Observed Page) (hl : thread l = some k)
    (j : ℕ) (hj : j ≠ k) : saw l o j = o.seen j := by
  cases l with
  | check i =>
    obtain rfl := Option.some.inj hl
    exact Function.update_of_ne hj _ _
  | _ => rfl

section Steps
variable {sub : ℕ} {o : Observed Page}

theorem Opened.sub_ctrl (h : Opened sub o) {c : ℕ} (hc : subRdmaCtrl o.toDriver = some c) :
    c = sub := by
  have hmem := List.mem_of_find?_eq_some hc
  have hne := List.find?_some hc
  exact ((h.list c).mp hmem).resolve_left (by simpa using hne)

theorem check_kept (i : ℕ) : Kept sub
    ⟨o.move i (if checkRdmaInfo (blockOfCall o.toWriters i) o.toDriver then .openSub
      else .testing),saw (.check i) o,o.requests⟩ i := by
  refine ⟨fun hp => ?_,fun hp c hc _ => ?_⟩
  · simp only [move, Function.update_self] at hp
    split at hp <;> cases hp
  · cases hcheck : checkRdmaInfo (blockOfCall o.toWriters i) o.toDriver with
    | true => simp [move, hcheck, Ready] at hp
    | false =>
      simp only [checkRdmaInfo, List.any_eq_false, beq_iff_eq] at hcheck
      exact hcheck c hc

theorem open_sub_kept (h : Opened sub o) (i : ℕ) (outcome : Option RdmaInfo)
    (ha : ∀ info ∈ outcome, info.rkey ≠ 0#32) (requests : List (ℕ × ℕ)) :
    Kept sub ⟨openSub i sub outcome o.toWriters,o.seen,requests⟩ i := by
  refine ⟨fun hp hs => ?_,fun hp => ?_⟩
  · have halive : (o.ctrl sub).alive = true := h.seen i sub hs
    simp only [openSub, halive, if_true, move, withDriver, Function.update_self,
      Pc.openMain.injEq] at hp ⊢
    exact open_filled sub _ outcome o.toDriver ha hp
  · simp [openSub, move, Ready] at hp

theorem open_main_kept (h : Opened sub o) (i : ℕ) (tret : U32) (hpc : o.pc i = .openMain tret)
    (outcome : Option RdmaInfo) (ha : ∀ info ∈ outcome, info.rkey ≠ 0#32)
    (requests : List (ℕ × ℕ)) :
    Kept sub ⟨openMain i tret outcome o.toWriters,o.seen,requests⟩ i := by
  have result : ∀ (d : Driver Page) (ret : U32), Grows o.toDriver d →
      (ret = 0#32 → (o.ctrl o.mainRdmaCtrl).alive = true →
        Filled d o.mainRdmaCtrl (blockOfCall o.toWriters i)) →
      Kept sub ⟨if tret ||| ret = 0#32 then (o.withDriver d).move i .testing
        else (o.withDriver d).fail i,o.seen,requests⟩ i := by
    intro d ret hgrow hfill
    split
    · next hzero =>
      obtain ⟨rfl,hret⟩ := BitVec.or_eq_zero_iff.mp hzero
      refine ⟨fun hp _ => ?_,fun _ c hc hs => ?_⟩
      · simp [move, withDriver] at hp
      · rcases (h.list c).mp (hgrow.list ▸ hc) with rfl | rfl
        · exact hfill hret (h.seen i _ hs)
        · exact hgrow.filled ((h.kept i).half hpc hs)
    · refine kept_aside ?_ ?_ <;> simp [fail, move, withDriver, Ready]
  unfold openMain
  by_cases hmain : (o.ctrl o.mainRdmaCtrl).alive
  · simp only [hmain, if_true]
    exact result _ _ (open_grows _ _ outcome o.toDriver)
      (fun hret _ => open_filled _ _ outcome o.toDriver ha hret)
  · simp only [hmain]
    exact result o.toDriver tret (grows_same rfl rfl rfl) (fun _ halive => absurd halive hmain)

theorem thread_kept (h : Opened sub o) (l : Label Page) (i : ℕ) (u : Writers Page)
    (hl : thread l = some i) (ha : Answers l o)
    (hs : WriterThreads.step l o.toWriters = some u) :
    Kept sub ⟨u,saw l o,asked l o.toWriters++o.requests⟩ i := by
  have hgrow := step_grows l o.toWriters u hs
  -- past the check a thread only moves on, with the same offset
  have past : ∀ (v : Observed Page) (p : Pc), v.pc = Function.update o.pc i p →
      p ≠ .openMain 0#32 → Ready (o.pc i) → v.seen = o.seen → Grows o.toDriver v.toDriver →
      blockOfCall v.toWriters i = blockOfCall o.toWriters i → Kept sub v i := by
    intro v p hv hopen hready hseen hg hblock
    refine (h.kept i).grow hg (by rw [hseen]) (fun hp => ?_) (fun _ => hready) hblock
    rw [hv, Function.update_self] at hp
    exact absurd hp hopen
  have aside : ∀ (v : Observed Page) (p : Pc), v.pc = Function.update o.pc i p →
      p ≠ .openMain 0#32 → ¬ Ready p → Kept sub v i := by
    intro v p hv hopen hready
    refine kept_aside ?_ ?_ <;> rwa [hv, Function.update_self]
  cases step_effect hs with
  | connect c => cases hl
  | @call k offset _ page ret hpc ho =>
    obtain rfl := Option.some.inj hl
    refine aside _ _ rfl ?_ ?_
    · split <;> simp
    · split <;> exact id
  | lock hpc hlock =>
    obtain rfl := Option.some.inj hl
    exact aside _ _ rfl (by simp) id
  | check hpc =>
    obtain rfl := Option.some.inj hl
    exact check_kept _
  | openSub outcome hpc hc =>
    obtain rfl := Option.some.inj hl
    obtain rfl := h.sub_ctrl hc
    exact open_sub_kept h _ outcome ha _
  | openMain outcome hpc =>
    obtain rfl := Option.some.inj hl
    exact open_main_kept h _ _ hpc outcome ha _
  | start hpc hb =>
    obtain rfl := Option.some.inj hl
    exact past _ _ rfl (by simp) (by rw [hpc]; trivial) rfl hgrow rfl
  | pass hpc hb =>
    obtain rfl := Option.some.inj hl
    exact past _ _ rfl (by simp) (by rw [hpc]; trivial) rfl hgrow rfl
  | commitRpc tret hpc =>
    obtain rfl := Option.some.inj hl
    exact past _ _ rfl (by simp) (by rw [hpc]; trivial) rfl hgrow rfl
  | resetBatch hpc =>
    obtain rfl := Option.some.inj hl
    exact past _ _ rfl (by simp) (by rw [hpc]; trivial) rfl hgrow rfl
  | clear hpc =>
    obtain rfl := Option.some.inj hl
    exact past _ _ rfl (by simp) (by rw [hpc]; trivial) rfl hgrow rfl
  | resetCount hpc =>
    obtain rfl := Option.some.inj hl
    exact past _ .counting rfl (by simp) (by rw [hpc]; trivial) rfl hgrow rfl
  | abort hpc hret =>
    obtain rfl := Option.some.inj hl
    exact aside _ (.returned 1#32) rfl (by simp) id
  | count hpc =>
    obtain rfl := Option.some.inj hl
    exact past _ _ rfl (by simp) (by rw [hpc]; trivial) rfl hgrow rfl
  | post hpc =>
    obtain rfl := Option.some.inj hl
    exact past _ _ rfl (by simp) (by rw [hpc]; trivial) rfl hgrow (by simp [blockOfCall])
  | refuse hpc hret =>
    obtain rfl := Option.some.inj hl
    exact aside _ _ rfl (by simp) id
  | store xa hpc =>
    obtain rfl := Option.some.inj hl
    exact past _ _ rfl (by simp) (by rw [hpc]; trivial) rfl hgrow rfl
  | complete hpc =>
    obtain rfl := Option.some.inj hl
    exact aside _ _ rfl (by simp) id
  | incomplete hpc =>
    obtain rfl := Option.some.inj hl
    exact aside _ _ rfl (by simp) id

theorem saw_alive (h : Opened sub o) (l : Label Page) (i c : ℕ) (hs : saw l o i c = true) :
    (o.ctrl c).alive = true := by
  cases l with
  | check k =>
    by_cases hi : i = k
    · subst hi
      simpa [saw] using hs
    · exact h.seen i c (by simpa [saw, hi] using hs)
  | _ => exact h.seen i c hs

end Steps

theorem step_opened (sub : ℕ) (l : Label Page) (o v : Observed Page) (h : Opened sub o)
    (ha : Answers l o) (hv : step l o = some v) : Opened sub v := by
  obtain ⟨u,hu,rfl⟩ := Option.map_eq_some_iff.mp hv
  have hgrow := step_grows l o.toWriters u hu
  refine ⟨?_,?_,?_,?_⟩
  · intro c
    rw [hgrow.list, hgrow.main]
    exact h.list c
  · rw [hgrow.main]
    exact h.distinct
  · intro i c hs
    exact hgrow.alive c (saw_alive h l i c hs)
  · intro i
    cases hl : thread l with
    | none =>
      cases step_effect hu with
      | connect c => exact (h.kept i).grow hgrow rfl id id rfl
      | _ => cases hl
    | some k =>
      by_cases hi : i = k
      · subst hi
        exact thread_kept h l i u hl ha hu
      · have hpc := step_others l k o.toWriters u hl hu i hi
        have hcall := step_calls l k o.toWriters u hl hu i hi
        refine (h.kept i).grow hgrow (saw_others l k o hl i hi) ?_ ?_ ?_
        · exact fun hp => hpc.symm.trans hp
        · exact fun hp => hpc ▸ hp
        · simp only [blockOfCall, hcall]

/-- When a frame is posted, every server that was alive at the write's open check
has its block, and a block that a server has is neither requested nor changed
in anything that follows. -/
theorem open_before_flow (ctrl : ℕ → RdmaCtrl) (rdmaCtrlList : List ℕ) (main sub : ℕ)
    (buffer : ℕ → Page) (call : ℕ → Call Page)
    (hlist : ∀ c, c ∈ rdmaCtrlList ↔ c = main ∨ c = sub) (hne : sub ≠ main)
    (ls : List (Label Page)) (o : Observed Page)
    (ha : Meets step Answers ls (initObserved ctrl rdmaCtrlList main buffer call))
    (h : run step ls (initObserved ctrl rdmaCtrlList main buffer call) = some o) :
    (∀ i u, step (.post i 0#32) o = some u → ∀ c ∈ o.rdmaCtrlList, o.seen i c = true →
      Filled o.toDriver c (getNumMemblock (o.call i).offset)) ∧
    ∀ ms u, run step ms o = some u → ∀ c n, Filled o.toDriver c n →
      (u.ctrl c).rdmaInfo n = (o.ctrl c).rdmaInfo n ∧
      ∃ new, u.requests = new++o.requests ∧ (c,n) ∉ new := by
  have hopened : Opened sub o := run_invariant (step_opened sub)
    (init_opened ctrl rdmaCtrlList main sub buffer call hlist hne) ha h
  refine ⟨?_,fun ms u hu c n hf => run_fixed ms o u hu c n hf⟩
  intro i u hu c hc hs
  obtain ⟨v,hv,-⟩ := Option.map_eq_some_iff.mp hu
  obtain ⟨hpc,-⟩ := Option.ite_none_right_eq_some.mp hv
  exact (hopened.kept i).ready (by rw [hpc]; trivial) c hc hs

def closedCtrl : ℕ → RdmaCtrl := fun _ => ⟨false,fun n => ⟨⟨n,0⟩,0#32⟩⟩

def lateMain : List (Label ℕ) :=
  [.connect 1,.call 0 5#32 7 0#32,.lock 0,.check 0,.openRpc 0 (some ⟨⟨0,0⟩,9#32⟩),
    .openRpc 0 none,.test 0,.count 0,.connect 0,.call 1 6#32 8 0#32,.lock 1,.check 1,
    .openRpc 1 none,.openRpc 1 (some ⟨⟨0,0⟩,3#32⟩),.test 1,.count 1]

theorem open_before_flow_sample : ∃ o : Observed ℕ,
    run step lateMain (initObserved closedCtrl [1,0] 0 (fun _ => 0) (fun _ => ⟨0#32,0,0⟩)) =
      some o ∧ Filled o.toDriver 0 0 ∧ o.requests = [(0,0),(1,0)] := by
  refine ⟨_,rfl,?_,rfl⟩
  have ha : ∀ l ∈ lateMain, ∀ o, Answers l o := by
    simp [lateMain, Answers]
  have hopen := open_before_flow closedCtrl [1,0] 0 1 (fun _ => 0) (fun _ => ⟨0#32,0,0⟩)
    (by simp [or_comm]) (by decide) lateMain _ (meets_of_forall ha _) rfl
  exact hopen.1 1 _ rfl 0 (List.mem_cons_of_mem 1 (List.mem_singleton.mpr rfl)) rfl

end Maruswap.OpenCheck
