import Maruswap.RpcBinders

/-!
# Where the receive works are

A receive work is posted, or waits in the completion queue, or is in the hands of one
call: of the one that has polled it, or of the one under whose binder it is marked. A
binder that no call owns is free. So no work is put back twice or lost, and no call
leaves a binder behind.
-/

set_option autoImplicit false

namespace Maruswap.RpcWorks
open WireFormat RpcCalls RpcBinders GuardedRun

variable {P : Type*}

/-- The binder of a call that has not put its reply back. -/
def owed : Pc → Option ℕ
  | .putBack _ => none
  | .checked _ => none
  | p => p.binder

def markedWork (v : Binder) : List ℕ := if v.flags = 2 then [v.priv] else []

/-- The work of a reply that the call has polled, and that of the reply marked for it. -/
def inHands (s : Rpc P) (c : ℕ) : List ℕ :=
  ((carries (s.pc c)).map fun e => e.1.wrId).toList++
    (owed (s.pc c)).toList.flatMap fun b => markedWork (s.binders b)

def Works (n : ℕ) (s : Rpc P) : Prop :=
  ∃ cs : List ℕ, cs.Nodup ∧ (∀ c, c ∉ cs → s.pc c = .idle) ∧
    (s.posted++(s.recvCq.map Completion.wrId++cs.flatMap (inHands s))).Perm (List.range n)

structure Settled (n : ℕ) (s : Rpc P) : Prop where
  free : ∀ b, (∀ c, (s.pc c).binder ≠ some b) → (s.binders b).flags = 0
  works : Works n s

theorem init_settled (n : ℕ) (buffer : ℕ → P) : Settled n (initRpc n buffer) where
  free := fun _ _ => rfl
  works := ⟨[],List.nodup_nil,fun _ _ => rfl,by simp [initRpc]⟩

theorem hands_congr {s t : Rpc P} {d : ℕ} (hcarries : carries (t.pc d) = carries (s.pc d))
    (howed : owed (t.pc d) = owed (s.pc d))
    (hmarked : ∀ b, owed (s.pc d) = some b →
      markedWork (t.binders b) = markedWork (s.binders b)) : inHands t d = inHands s d := by
  rw [inHands, inHands, hcarries, howed]
  congr 1
  refine List.flatMap_congr fun b hb => hmarked b ?_
  simpa using hb

theorem owed_binder {p : Pc} {b : ℕ} (h : owed p = some b) : p.binder = some b := by
  cases p <;> first | exact h | cases h

theorem Works.shift {n : ℕ} {s t : Rpc P} (h : Works n s) (ds : List ℕ) (hds : ds.Nodup)
    (hlive : ∀ d ∈ ds, s.pc d ≠ .idle) (hidle : ∀ d, s.pc d = .idle → t.pc d = .idle)
    (hother : ∀ d, d ∉ ds → inHands t d = inHands s d)
    (hperm : (t.posted++(t.recvCq.map Completion.wrId++ds.flatMap (inHands t))).Perm
      (s.posted++(s.recvCq.map Completion.wrId++ds.flatMap (inHands s)))) : Works n t := by
  obtain ⟨cs,hcs,hout,hworks⟩ := h
  have hin : ∀ d ∈ ds, d ∈ cs := fun d hd => by
    by_contra hn
    exact hlive d hd (hout d hn)
  have hsplit : cs.Perm (ds++cs.filter fun d => d ∉ ds) := by
    refine (List.perm_ext_iff_of_nodup hcs (List.nodup_append.mpr
      ⟨hds,hcs.filter _,fun x hx y hy he => ?_⟩)).mpr fun d => ?_
    · have hy' := (List.mem_filter.mp hy).2
      simp [← he, hx] at hy'
    · by_cases hd : d ∈ ds
      · simp [hd, hin d hd]
      · simp [hd]
  have hpart : ∀ u : Rpc P,
      (u.posted++(u.recvCq.map Completion.wrId++cs.flatMap (inHands u))).Perm
      ((u.posted++(u.recvCq.map Completion.wrId++ds.flatMap (inHands u)))++
        (cs.filter fun d => d ∉ ds).flatMap (inHands u)) := by
    intro u
    rw [List.append_assoc, List.append_assoc, ← List.flatMap_append]
    exact List.Perm.append_left _ (List.Perm.append_left _ (hsplit.flatMap_right _))
  have hrest : (cs.filter fun d => d ∉ ds).flatMap (inHands t) =
      (cs.filter fun d => d ∉ ds).flatMap (inHands s) :=
    List.flatMap_congr fun d hd => hother d (by simpa using (List.mem_filter.mp hd).2)
  refine ⟨cs,hcs,fun d hd => hidle d (hout d hd),((hpart t).trans ?_).trans hworks⟩
  rw [hrest]
  exact (hperm.append_right _).trans (hpart s).symm

theorem idle_update {pc : ℕ → Pc} {c : ℕ} (p : Pc) (h : pc c ≠ .idle) (d : ℕ)
    (hd : pc d = .idle) : Function.update pc c p d = .idle := by
  have hdc : d ≠ c := fun he => h (he ▸ hd)
  rwa [Function.update_of_ne hdc]

theorem move_settled {n c : ℕ} {p : Pc} {s : Rpc P} (h : Settled n s) (hlive : s.pc c ≠ .idle)
    (hbinder : p.binder = (s.pc c).binder) (howed : owed p = owed (s.pc c))
    (hcarries : carries p = carries (s.pc c)) : Settled n (s.move c p) := by
  refine ⟨fun b hb => h.free b fun d => ?_,h.works.shift [] List.nodup_nil (by simp)
    (idle_update p hlive) (fun d _ => ?_) (List.Perm.refl _)⟩
  · rw [← binder_update hbinder d]
    exact hb d
  · by_cases hd : d = c
    · subst hd
      exact hands_congr (by simpa [Rpc.move] using hcarries) (by simpa [Rpc.move] using howed)
        fun _ _ => rfl
    · exact hands_congr (by simp [Rpc.move, hd]) (by simp [Rpc.move, hd]) fun _ _ => rfl

theorem acquire_settled {n : ℕ} (c b : ℕ) {s : Rpc P} (h : Settled n s) (hpc : s.pc c = .idle) :
    Settled n (getBinder c b s) := by
  unfold getBinder
  split
  · next hfree =>
    obtain ⟨cs,hcs,hout,hworks⟩ := h.works
    have hnone : inHands s c = [] := by simp [inHands, hpc, carries, owed, Pc.binder]
    obtain ⟨ds,hds,hin,hflat⟩ : ∃ ds : List ℕ, ds.Nodup ∧ (∀ d, d ∉ ds → d ≠ c ∧ d ∉ cs) ∧
        ds.flatMap (inHands s) = cs.flatMap (inHands s) := by
      by_cases hc : c ∈ cs
      · exact ⟨cs,hcs,fun d hd => ⟨fun he => hd (he ▸ hc),hd⟩,rfl⟩
      · exact ⟨c::cs,hcs.cons hc,fun d hd => by simpa using hd,by simp [hnone]⟩
    have hhands : ∀ d, inHands ((s.setBinder b { s.binders b with flags := 1 }).move c
        (.bound b)) d = inHands s d := by
      intro d
      by_cases hd : d = c
      · subst hd
        rw [hnone]
        simp [inHands, Rpc.move, Rpc.setBinder, carries, owed, Pc.binder, markedWork]
      · refine hands_congr (by simp [Rpc.move, Rpc.setBinder, hd])
          (by simp [Rpc.move, Rpc.setBinder, hd]) fun v _ => ?_
        by_cases hv : v = b
        · subst hv
          simp [Rpc.move, Rpc.setBinder, markedWork, hfree]
        · simp [Rpc.move, Rpc.setBinder, hv]
    refine ⟨fun v hv => ?_,ds,hds,fun d hd => ?_,?_⟩
    · have hvb : v ≠ b := by
        rintro rfl
        exact hv c (by simp [Rpc.move, Pc.binder])
      have hfree' : (s.binders v).flags = 0 := h.free v fun d hd => by
        have hdc : d ≠ c := by
          rintro rfl
          simp [hpc, Pc.binder] at hd
        exact hv d (by simpa [Rpc.move, Rpc.setBinder, hdc] using hd)
      simpa [Rpc.move, Rpc.setBinder, hvb] using hfree'
    · obtain ⟨hdc,hd⟩ := hin d hd
      simpa [Rpc.move, Rpc.setBinder, hdc] using hout d hd
    · rw [List.flatMap_congr fun d _ => hhands d, hflat]
      exact hworks
  · exact h

theorem answer_settled {n : ℕ} (q : Request) (payload : P) (w : ℕ) {s : Rpc P}
    (h : Settled n s) (hw : w ∈ s.posted) : Settled n (answer q payload w s) := by
  refine ⟨h.free,h.works.shift [] List.nodup_nil (by simp) (fun _ hd => hd) (fun _ _ => rfl) ?_⟩
  have hmove : (s.posted.erase w++(s.recvCq.map Completion.wrId++[w])).Perm
      (s.posted++s.recvCq.map Completion.wrId) := by
    rw [← List.append_assoc]
    refine (List.perm_append_singleton _ _).trans ?_
    rw [← List.cons_append]
    exact (List.perm_cons_erase hw).symm.append_right _
  simpa [answer] using hmove

theorem polled_settled {n c b : ℕ} {wc : Completion} {cq : List Completion} {s : Rpc P}
    (h : Settled n s) (hpc : s.pc c = .polling b) (hcq : s.recvCq = wc::cq) :
    Settled n { s.move c (.polled b wc) with recvCq := cq } := by
  have hb : ∀ d, (Function.update s.pc c (.polled b wc) d).binder = (s.pc d).binder :=
    binder_update (by simp [hpc, Pc.binder])
  refine ⟨fun v hv => h.free v fun d => ?_,h.works.shift [c] (List.nodup_singleton c) ?_
    (idle_update _ (by simp [hpc])) (fun d hd => ?_) ?_⟩
  · rw [← hb d]
    exact hv d
  · simp [hpc]
  · have hdc : d ≠ c := by simpa using hd
    exact hands_congr (by simp [Rpc.move, hdc]) (by simp [Rpc.move, hdc]) fun _ _ => rfl
  · have hold : inHands s c = markedWork (s.binders b) := by
      simp [inHands, hpc, carries, owed, Pc.binder]
    have hnew : inHands { s.move c (.polled b wc) with recvCq := cq } c =
        wc.wrId::markedWork (s.binders b) := by
      simp [inHands, Rpc.move, carries, owed, Pc.binder]
    simp only [List.flatMap_cons, List.flatMap_nil, List.append_nil, hold, hnew, hcq]
    exact List.Perm.append_left _ List.perm_middle

theorem store_settled {k : Client} {n c b : ℕ} {wc : Completion} {stage : ℕ → Stage} {s : Rpc P}
    (h : Settled n s) (hm : Matched k stage s) (hpc : s.pc c = .polled b wc) :
    Settled n ((s.setBinder (replyBinder wc.immData)
      { s.binders (replyBinder wc.immData) with priv := wc.wrId }).move c (.marking b wc)) := by
  obtain ⟨hcar,hqb⟩ := hm.carried c wc false (by simp [hpc, carries])
  have hflag : (s.binders (replyBinder wc.immData)).flags = 1 := by
    rw [hm.flags wc.call _ hqb, hcar]
    rfl
  have hb : ∀ d, (Function.update s.pc c (.marking b wc) d).binder = (s.pc d).binder :=
    binder_update (by simp [hpc, Pc.binder])
  have hmarked : ∀ v, markedWork (Function.update s.binders (replyBinder wc.immData)
      { s.binders (replyBinder wc.immData) with priv := wc.wrId } v) =
        markedWork (s.binders v) := by
    intro v
    by_cases hv : v = replyBinder wc.immData
    · subst hv
      simp [markedWork, hflag]
    · rw [Function.update_of_ne hv]
  refine ⟨fun v hv => ?_,h.works.shift [] List.nodup_nil (by simp)
    (idle_update _ (by simp [hpc])) (fun d _ => ?_) (List.Perm.refl _)⟩
  · have hfree := h.free v fun d => by
      rw [← hb d]
      exact hv d
    by_cases hvb : v = replyBinder wc.immData
    · subst hvb
      rw [hflag] at hfree
      cases hfree
    · simpa [Rpc.move, Rpc.setBinder, hvb] using hfree
  · by_cases hd : d = c
    · subst hd
      rw [inHands, inHands, hpc]
      simp [Rpc.move, Rpc.setBinder, carries, owed, Pc.binder, hmarked]
    · exact hands_congr (by simp [Rpc.move, Rpc.setBinder, hd])
        (by simp [Rpc.move, Rpc.setBinder, hd]) fun v _ => hmarked v

theorem mark_settled {k : Client} {n c b : ℕ} {wc : Completion} {stage : ℕ → Stage} {s : Rpc P}
    (h : Settled n s) (hm : Matched k stage s) (hpc : s.pc c = .marking b wc) :
    Settled n ((s.setBinder (replyBinder wc.immData)
      { s.binders (replyBinder wc.immData) with flags := 2 }).move c (.waiting b)) := by
  obtain ⟨hcar,hqb⟩ := hm.carried c wc true (by simp [hpc, carries])
  have hflag : (s.binders (replyBinder wc.immData)).flags = 1 := by
    rw [hm.flags wc.call _ hqb, hcar]
    rfl
  have hpriv : (s.binders (replyBinder wc.immData)).priv = wc.wrId :=
    hm.priv wc.call _ wc.wrId hqb (by rw [hcar]; rfl)
  have howed : owed (s.pc wc.call) = some (replyBinder wc.immData) := by
    have hphase := hm.phase wc.call
    rw [hcar] at hphase
    generalize s.pc wc.call = p at hphase hqb
    cases p with
    | putBack v => cases hphase
    | checked v => cases hphase
    | _ => exact hqb
  have hb : ∀ d, (Function.update s.pc c (.waiting b) d).binder = (s.pc d).binder :=
    binder_update (by simp [hpc, Pc.binder])
  have hother : ∀ d v, d ≠ wc.call → owed (s.pc d) = some v → v ≠ replyBinder wc.immData := by
    rintro d v hd hv rfl
    exact hd (hm.exclusive d wc.call _ (owed_binder hv) hqb)
  have hkeep : ∀ d, d ≠ c → d ≠ wc.call → inHands ((s.setBinder (replyBinder wc.immData)
      { s.binders (replyBinder wc.immData) with flags := 2 }).move c (.waiting b)) d =
        inHands s d := fun d hd hdw =>
    hands_congr (by simp [Rpc.move, Rpc.setBinder, hd]) (by simp [Rpc.move, Rpc.setBinder, hd])
      fun v hv => by simp [Rpc.move, Rpc.setBinder, hother d v hdw hv]
  have hfree : ∀ v, (∀ d, (Function.update s.pc c (.waiting b) d).binder ≠ some v) →
      (Function.update s.binders (replyBinder wc.immData)
        { s.binders (replyBinder wc.immData) with flags := 2 } v).flags = 0 := by
    intro v hv
    have hold := h.free v fun d => by
      rw [← hb d]
      exact hv d
    have hvb : v ≠ replyBinder wc.immData := by
      rintro rfl
      rw [hflag] at hold
      cases hold
    rwa [Function.update_of_ne hvb]
  by_cases hc : wc.call = c
  · have hcb : b = replyBinder wc.immData := by
      rw [hc, hpc] at hqb
      exact Option.some.inj hqb
    refine ⟨hfree,h.works.shift [c] (List.nodup_singleton c) (by simp [hpc])
      (idle_update _ (by simp [hpc])) (fun d hd => ?_) ?_⟩
    · have hdc : d ≠ c := by simpa using hd
      exact hkeep d hdc (hc ▸ hdc)
    · have hsame : inHands ((s.setBinder (replyBinder wc.immData)
          { s.binders (replyBinder wc.immData) with flags := 2 }).move c (.waiting b)) c =
            inHands s c := by
        simp [inHands, Rpc.move, Rpc.setBinder, hpc, carries, owed, Pc.binder, markedWork, hcb,
          hflag, hpriv]
      simp only [List.flatMap_cons, List.flatMap_nil, hsame]
      exact List.Perm.refl _
  · refine ⟨hfree,h.works.shift [c,wc.call] (by simp [Ne.symm hc]) ?_
      (idle_update _ (by simp [hpc])) (fun d hd => ?_) ?_⟩
    · intro d hd
      rcases List.mem_pair.mp hd with rfl | rfl
      · simp [hpc]
      · intro he
        simp [he, owed, Pc.binder] at howed
    · have hd' : d ≠ c ∧ d ≠ wc.call := by simpa using hd
      exact hkeep d hd'.1 hd'.2
    · have hcb : ∀ v, v = b → v ≠ replyBinder wc.immData := by
        rintro v rfl
        exact hother c v (Ne.symm hc) (by rw [hpc]; rfl)
      have hold : inHands s c = wc.wrId::markedWork (s.binders b) := by
        simp [inHands, hpc, carries, owed, Pc.binder]
      have hnew : inHands ((s.setBinder (replyBinder wc.immData)
          { s.binders (replyBinder wc.immData) with flags := 2 }).move c (.waiting b)) c =
            markedWork (s.binders b) := by
        simp [inHands, Rpc.move, Rpc.setBinder, carries, owed, Pc.binder, hcb b rfl]
      have hto : inHands ((s.setBinder (replyBinder wc.immData)
          { s.binders (replyBinder wc.immData) with flags := 2 }).move c (.waiting b)) wc.call =
            inHands s wc.call++[wc.wrId] := by
        simp [inHands, Rpc.move, Rpc.setBinder, hc, howed, markedWork, hflag, hpriv]
      simp only [List.flatMap_cons, List.flatMap_nil, List.append_nil, hold, hnew, hto]
      refine List.Perm.append_left _ (List.Perm.append_left _ ?_)
      rw [← List.append_assoc]
      exact List.perm_append_singleton _ _

theorem put_back_settled {k : Client} {n c b w : ℕ} {stage : ℕ → Stage} {s : Rpc P}
    (h : Settled n s) (hm : Matched k stage s) (hpc : s.pc c = .copied b w) :
    Settled n (putBack c b w s) := by
  have hmark : stage c = .marked w := by simpa [hpc, Phase] using hm.phase c
  have hown : (s.pc c).binder = some b := by simp [hpc, Pc.binder]
  have hflag : (s.binders b).flags = 2 := by rw [hm.flags c b hown, hmark]; rfl
  have hpriv : (s.binders b).priv = w := hm.priv c b w hown (by rw [hmark]; rfl)
  have hb := @binder_update s.pc c (.putBack b) (by simp [hpc, Pc.binder])
  refine ⟨fun v hv => h.free v fun d => ?_,h.works.shift [c] (List.nodup_singleton c)
    (by simp [hpc]) (idle_update _ (by simp [hpc])) (fun d hd => ?_) ?_⟩
  · rw [← hb d]
    exact hv d
  · have hdc : d ≠ c := by simpa using hd
    exact hands_congr (by simp [putBack, Rpc.move, hdc]) (by simp [putBack, Rpc.move, hdc])
      fun _ _ => rfl
  · have hold : inHands s c = [w] := by
      simp [inHands, hpc, carries, owed, Pc.binder, markedWork, hflag, hpriv]
    have hnew : inHands (putBack c b w s) c = [] := by
      simp [inHands, putBack, Rpc.move, carries, owed]
    simp only [List.flatMap_cons, List.flatMap_nil, List.append_nil, hold, hnew]
    change (s.posted++[w]++s.recvCq.map Completion.wrId).Perm _
    rw [List.append_assoc]
    exact List.Perm.append_left _ (List.perm_append_comm)

theorem release_settled {k : Client} {n c b : ℕ} {stage : ℕ → Stage} {s : Rpc P}
    (h : Settled n s) (hm : Matched k stage s) (hpc : s.pc c = .checked b) :
    Settled n (release k c b s) := by
  obtain ⟨p,hp,hbinder,hcarries⟩ : ∃ p, p = (if k.driver then .returned true else .released) ∧
      p.binder = none ∧ carries p = none := by
    cases k.driver
    · exact ⟨_,rfl,rfl,rfl⟩
    · exact ⟨_,rfl,rfl,rfl⟩
  have howed : owed p = none := by
    cases ho : owed p with
    | none => rfl
    | some v => exact absurd (owed_binder ho) (by simp [hbinder])
  have hown : (s.pc c).binder = some b := by simp [hpc, Pc.binder]
  unfold release
  rw [← hp]
  refine ⟨fun v hv => ?_,h.works.shift [] List.nodup_nil (by simp) (idle_update _ (by simp [hpc]))
    (fun d _ => ?_) (List.Perm.refl _)⟩
  · by_cases hvb : v = b
    · simp [Rpc.move, Rpc.setBinder, hvb]
    · have hfree := h.free v fun d hd => by
        have hdc : d ≠ c := by
          rintro rfl
          exact hvb (Option.some.inj (hd.symm.trans hown))
        exact hv d (by simpa [Rpc.move, Rpc.setBinder, hdc] using hd)
      simpa [Rpc.move, Rpc.setBinder, hvb] using hfree
  · by_cases hd : d = c
    · subst hd
      have hnone : owed (s.pc d) = none ∧ carries (s.pc d) = none := by
        rw [hpc]
        exact ⟨rfl,rfl⟩
      rw [inHands, inHands, hnone.1, hnone.2]
      simp [Rpc.move, hcarries, howed]
    · refine hands_congr (by simp [Rpc.move, Rpc.setBinder, hd])
        (by simp [Rpc.move, Rpc.setBinder, hd]) fun v hv => ?_
      have hvb : v ≠ b := by
        rintro rfl
        exact hd (hm.exclusive d c v (owed_binder hv) hown)
      simp [Rpc.move, Rpc.setBinder, hvb]

theorem poll_settled {k : Client} {n c b : ℕ} {r : RecvResult} {s t : Rpc P} (h : Settled n s)
    (hpc : s.pc c = .polling b) (hr : r ≠ .negative ∧ ∀ immData w, r ≠ .failed immData w)
    (ht : RecvPoll k c b r s t) : Settled n t := by
  cases ht with
  | empty =>
    exact move_settled h (by simp [hpc]) (by rw [hpc]; rfl) (by rw [hpc]; rfl) (by rw [hpc]; rfl)
  | goOn hk => exact absurd rfl hr.1
  | giveUp hk => exact absurd rfl hr.1
  | failed hk hw => exact absurd rfl (hr.2 _ _)
  | mistaken hk hw => exact absurd rfl (hr.2 _ _)
  | taken hcq => exact polled_settled h hpc hcq

theorem poll_send_settled {n c : ℕ} {onNegative onFailed : Pc} {r : PollResult} {s t : Rpc P}
    (h : Settled n s) (hr : r ≠ .negative ∧ r ≠ .failed)
    (ht : SendPoll c onNegative onFailed r s t) : Settled n t := by
  cases ht with
  | empty => exact h
  | negative => exact absurd rfl hr.1
  | failed hcq => exact absurd rfl hr.2
  | got hcq => exact ⟨h.free,h.works⟩

theorem step_settled (k : Client) (n : ℕ) (l : Label P) (s t : Rpc P)
    (h : (∃ stage, Matched k stage s) ∧ Settled n s) (hg : Accepted l ∧ Acquires k l)
    (hs : step k l s = some t) : (∃ stage, Matched k stage t) ∧ Settled n t := by
  refine ⟨step_matched k l s t h.1 hg hs,?_⟩
  obtain ⟨⟨stage,hm⟩,h⟩ := h
  -- a move between two points of one call's life with its binder
  have hmove : ∀ (c : ℕ) (p : Pc), s.pc c ≠ .idle → p.binder = (s.pc c).binder →
      owed p = owed (s.pc c) → carries p = carries (s.pc c) → Settled n (s.move c p) :=
    fun c p => move_settled h
  cases step_effect hs with
  | acquire hpc hb => exact acquire_settled _ _ h hpc
  | @post c b _ hpc =>
    have hp : Settled n (s.move c (if k.driver then .sending b else .waiting b)) := by
      cases k.driver
      · exact hmove c _ (by simp [hpc]) (by rw [hpc]; rfl) (by rw [hpc]; rfl) (by rw [hpc]; rfl)
      · exact hmove c _ (by simp [hpc]) (by rw [hpc]; rfl) (by rw [hpc]; rfl) (by rw [hpc]; rfl)
    exact ⟨hp.free,hp.works⟩
  | refuse hpc hk => exact absurd hg.1 (by simp [Accepted])
  | answer hq hw => exact answer_settled _ _ _ h hw
  | complete hc => exact ⟨h.free,h.works⟩
  | pollSend hpc ht => exact poll_send_settled h hg.1 ht
  | pollLate hpc ht => exact poll_send_settled h hg.1 ht
  | sent hpc =>
    exact hmove _ _ (by simp [hpc]) (by rw [hpc]; rfl) (by rw [hpc]; rfl) (by rw [hpc]; rfl)
  | finished hpc =>
    exact hmove _ _ (by simp [hpc]) (by rw [hpc]; rfl) (by rw [hpc]; rfl) (by rw [hpc]; rfl)
  | readFlags hpc =>
    split
    · exact hmove _ _ (by simp [hpc]) (by rw [hpc]; rfl) (by rw [hpc]; rfl) (by rw [hpc]; rfl)
    · exact hmove _ _ (by simp [hpc]) (by rw [hpc]; rfl) (by rw [hpc]; rfl) (by rw [hpc]; rfl)
  | pollRecv hpc ht => exact poll_settled h hpc hg.1 ht
  | storePrivate hpc => exact store_settled h hm hpc
  | setFlags hpc => exact mark_settled h hm hpc
  | loadPrivate hpc =>
    exact hmove _ _ (by simp [hpc]) (by rw [hpc]; rfl) (by rw [hpc]; rfl) (by rw [hpc]; rfl)
  | @copy c b w _ hpc =>
    have hp := hmove c (.copied b w) (by simp [hpc]) (by rw [hpc]; rfl) (by rw [hpc]; rfl)
      (by rw [hpc]; rfl)
    exact ⟨hp.free,hp.works⟩
  | putBack hpc => exact put_back_settled h hm hpc
  | checkBinder hpc hf =>
    exact hmove _ _ (by simp [hpc]) (by rw [hpc]; rfl) (by rw [hpc]; rfl) (by rw [hpc]; rfl)
  | @skipBinder c b _ hpc hf hk =>
    have hback : stage c = .putBack := by simpa [hpc, Phase] using hm.phase c
    have hflag := hm.flags c b (by simp [hpc, Pc.binder])
    rw [hback] at hflag
    exact absurd hflag hf
  | release hpc => exact release_settled h hm hpc

/-- What the callers rely on: binders are exclusive, a returned call has the
payload of the reply to its own request, no call logs anything but the copy,
the put-back and the release of its own reply in that order, and the check of
`__put_binder` passes. Exactly the binders that calls own are not free, and each of
the `n` receive works is in one place. -/
structure RepliesMatched (n : ℕ) (s : Rpc P) : Prop where
  exclusive : ∀ c d b, (s.pc c).binder = some b → (s.pc d).binder = some b → c = d
  delivered : ∀ c success, s.pc c = .returned success →
    success = true ∧ ∃ payload, s.answered c = some payload ∧ s.res c = some payload
  inOrder : ∀ c, trace c s.log <:+ fullTrace c
  complete : ∀ c success, s.pc c = .returned success → trace c s.log = fullTrace c
  check : ∀ c b, s.pc c = .putBack b → (s.binders b).flags = 2
  free : ∀ b, (s.binders b).flags = 0 ↔ ∀ c, (s.pc c).binder ≠ some b
  works : Works n s

theorem Settled.replies_matched {k : Client} {n : ℕ} {stage : ℕ → Stage} {s : Rpc P}
    (h : Settled n s) (hm : Matched k stage s) : RepliesMatched n s := by
  refine ⟨hm.exclusive,?_,?_,?_,?_,fun b => ⟨fun hf c hc => ?_,h.free b⟩,h.works⟩
  · intro c success hpc
    have hphase := hm.phase c
    rw [hpc] at hphase
    obtain ⟨hans,hres⟩ := hm.res c (by simp [hpc, logged, fullTrace])
    obtain ⟨payload,hp⟩ := Option.ne_none_iff_exists'.mp hans
    exact ⟨hphase.1,payload,hp,hres.trans hp⟩
  · intro c
    rw [hm.trace]
    cases s.pc c <;> simp [logged, fullTrace, List.suffix_cons_iff]
  · intro c success hpc
    rw [hm.trace, hpc]
    rfl
  · intro c b hpc
    have hback : stage c = .putBack := by simpa [hpc, Phase] using hm.phase c
    rw [hm.flags c b (by simp [hpc, Pc.binder]), hback]
    rfl
  · exact flag_pos (stage c) ((hm.flags c b hc).symm.trans hf)

/-- For every number of concurrent calls, every choice of binders and every
interleaving with the peer's answers. -/
theorem rpc_replies_matched (k : Client) (n : ℕ) (buffer : ℕ → P) (ls : List (Label P))
    (s : Rpc P) (hk : ∀ c, k.opcode c &&& 0xff#32 = 0#32) (hls : ∀ l ∈ ls, Accepted l)
    (h : run (step k) ls (initRpc n buffer) = some s) : RepliesMatched n s := by
  have hg : ∀ l ∈ ls, Accepted l ∧ Acquires k l := by
    intro l hl
    refine ⟨hls l hl,?_⟩
    cases l with
    | acquire c b => exact fits_of_low_bits k c b (hk c)
    | _ => trivial
  obtain ⟨⟨stage,hm⟩,hs⟩ := run_invariant (step_settled k n)
    ⟨⟨_,init_matched k n buffer⟩,init_settled n buffer⟩
    (meets_of_forall (fun l hl _ => hg l hl) _) h
  exact hs.replies_matched hm

/-- Call 0 polls the reply to call 1, which then returns. -/
def sampleLabels : List (Label ℕ) :=
  [.acquire 0 3,.acquire 1 7,.post 0 true,.post 1 true,
    .answer ⟨rpcImm commitWord 7,1,7⟩ 50 0,.readFlags 0,.pollRecv 0 .got,.storePrivate 0,
    .setFlags 0,.readFlags 1,.loadPrivate 1,.copy 1,.putBack 1,.checkBinder 1,.release 1,
    .complete 0,.complete 1,.pollSend 1 .got,.pollSend 1 .got,.sent 1]

theorem rpc_replies_matched_sample : ∃ s : Rpc ℕ,
    run (step ⟨false,fun _ => commitWord,fun _ => true⟩) sampleLabels (initRpc 4 id) = some s ∧
      s.pc 1 = .returned true ∧ s.res 1 = some 50 ∧ RepliesMatched 4 s := by
  have hsome : (run (step ⟨false,fun _ => commitWord,fun _ => true⟩) sampleLabels
      (initRpc 4 id)).isSome := by decide +kernel
  obtain ⟨s,hs⟩ := Option.isSome_iff_exists.mp hsome
  have hend : ∀ t ∈ run (step ⟨false,fun _ => commitWord,fun _ => true⟩) sampleLabels
      (initRpc 4 id), t.pc 1 = .returned true ∧ t.res 1 = some 50 := by decide +kernel
  have ha : ∀ l ∈ sampleLabels, Accepted l := by simp [sampleLabels, Accepted]
  exact ⟨s,hs,(hend s hs).1,(hend s hs).2,rpc_replies_matched _ 4 id sampleLabels s
    (fun _ => show commitWord &&& 0xff#32 = 0#32 by decide) ha hs⟩

end Maruswap.RpcWorks
