import Maruswap.SendQueue

/-!
# Waiting for one request

A call of `__ib_rdma_send` or `__ib_multicast_send` from the outcome of its post on,
under any schedule of what the completion queue yields. An accepted request
completes once, and the call that polls the completion need not be its own; a
refused request never completes. The loop is the same text in both functions, and it
is left through `done` or through a failed completion only.
-/

set_option autoImplicit false

namespace Maruswap.SendWaits
open WireFormat GuardedRun
open SendQueue (Pc)
open WriterThreads (einval)

/-- The test of `done`, a poll that yields nothing, a poll that yields the completion
of this call or another, and a poll of another call that takes this one's. -/
inductive Label where
  | test
  | miss
  | poll (own success : Bool)
  | taken (success : Bool)
  deriving DecidableEq

/-- `ret` is what `ib_post_send` has returned. Whether a completion is still to come
and what it was are ghosts. -/
structure Wait where
  pc : Pc
  done : Bool
  ret : U32
  owed : Bool
  status : Option Bool
  deriving DecidableEq

/-- A refused post is only reported; the loop is entered all the same. -/
def ibRdmaSend (post : U32) : Wait where
  pc := .testing
  done := false
  ret := post
  owed := post = 0#32
  status := none

/-- A refused post sets `bad_wr`, and the function returns. -/
def ibMulticastSend (post : U32) : Wait where
  pc := if post = 0#32 then .testing else .returned post
  done := false
  ret := post
  owed := post = 0#32
  status := none

/-- The completion of the request has been polled, by whatever call: `*pdone = 1` if
it is a success. -/
def settle (success : Bool) (s : Wait) : Wait :=
  { s with owed := false, status := some success, done := s.done || success }

def step : Label → Wait → Option Wait
  | .test, s =>
    if s.pc = .testing then
      some { s with pc := if s.done then .returned s.ret else .polling }
    else none
  | .miss, s => if s.pc = .polling then some { s with pc := .testing } else none
  | .poll own success, s =>
    if s.pc = .polling ∧ (own = true → s.owed = true) then
      some { (if own then settle success s else s) with
        pc := if success then .testing else .returned einval }
    else none
  | .taken success, s => if s.owed then some (settle success s) else none

/-- However the schedule goes on, `done` is tested no more than a number of times. -/
def Ends (s : Wait) : Prop := ∃ n, ∀ ls t, run step ls s = some t → ls.count .test ≤ n

/-- Once nothing is owed to the call its loop ends, and a call that returns reports
what has failed. -/
structure Waits (s : Wait) : Prop where
  ends : s.owed = false → Ends s
  reports : ∀ ret, s.pc = .returned ret → s.ret ≠ 0#32 ∨ s.status = some false → ret ≠ 0#32

def PollsFailure (ls : List Label) : Prop := ∃ own, .poll own false ∈ ls

/-- The call has left the loop, or leaves it at the next test. -/
def Leaving (s : Wait) : Prop := s.pc.gone = true ∨ s.done = true

theorem Leaving.done {s : Wait} (h : Leaving s) (hpc : s.pc.gone = false) : s.done = true :=
  h.resolve_left (by simp [hpc])

theorem step_leaving (l : Label) (s t : Wait) (hs : Leaving s) (h : step l s = some t) :
    Leaving t := by
  cases l with
  | test =>
    obtain ⟨hpc,ht⟩ := Option.ite_none_right_eq_some.mp h
    obtain rfl := Option.some.inj ht
    exact .inr (hs.done (by rw [hpc]; rfl))
  | miss =>
    obtain ⟨hpc,ht⟩ := Option.ite_none_right_eq_some.mp h
    obtain rfl := Option.some.inj ht
    exact .inr (hs.done (by rw [hpc]; rfl))
  | poll own success =>
    obtain ⟨⟨hpc,-⟩,ht⟩ := Option.ite_none_right_eq_some.mp h
    obtain rfl := Option.some.inj ht
    have hd : s.done = true := hs.done (by rw [hpc]; rfl)
    refine .inr ?_
    cases own <;> simp [settle, hd]
  | taken success =>
    obtain ⟨-,ht⟩ := Option.ite_none_right_eq_some.mp h
    obtain rfl := Option.some.inj ht
    exact hs.imp id fun hd => by simp [settle, hd]

def rank (s : Wait) : ℕ := if s.pc.gone then 0 else 1

theorem step_rank (l : Label) (s t : Wait) (hs : Leaving s) (h : step l s = some t) :
    rank t+(if l == .test then 1 else 0) ≤ rank s := by
  cases l with
  | test =>
    obtain ⟨hpc,ht⟩ := Option.ite_none_right_eq_some.mp h
    obtain rfl := Option.some.inj ht
    have hd : s.done = true := hs.done (by rw [hpc]; rfl)
    simp [rank, hd, hpc, Pc.gone]
  | miss =>
    obtain ⟨hpc,ht⟩ := Option.ite_none_right_eq_some.mp h
    obtain rfl := Option.some.inj ht
    simp [rank, hpc, Pc.gone]
  | poll own success =>
    obtain ⟨⟨hpc,-⟩,ht⟩ := Option.ite_none_right_eq_some.mp h
    obtain rfl := Option.some.inj ht
    cases success <;> simp [rank, hpc, Pc.gone]
  | taken success =>
    obtain ⟨-,ht⟩ := Option.ite_none_right_eq_some.mp h
    obtain rfl := Option.some.inj ht
    exact le_rfl

theorem leaving_ends {s : Wait} (hs : Leaving s) : Ends s :=
  ⟨rank s,fun _ _ h => run_count_le rank (· == Label.test) step_leaving step_rank hs h⟩

theorem testing_spins {s : Wait} (hpc : s.pc = .testing) (hd : s.done = false) (n : ℕ) :
    run step (List.replicate n [.test,.miss]).flatten s = some s := by
  obtain ⟨pc,done,ret,owed,status⟩ := s
  obtain rfl : pc = .testing := hpc
  obtain rfl : done = false := hd
  exact run_again rfl n

theorem count_tests (n : ℕ) :
    (List.replicate n [Label.test,Label.miss]).flatten.count .test = n := by
  induction n with
  | zero => rfl
  | succ n ih =>
    rw [List.replicate_succ, List.flatten_cons, List.count_append, ih]
    exact Nat.add_comm 1 n

theorem not_ends {s : Wait} (hpc : s.pc = .testing ∨ s.pc = .polling) (hd : s.done = false) :
    ¬Ends s := by
  rintro ⟨n,hn⟩
  rcases hpc with hpc | hpc
  · have hle := hn _ _ (testing_spins hpc hd (n+1))
    rw [count_tests] at hle
    omega
  · have hmiss : step .miss s = some { s with pc := .testing } := if_pos hpc
    have hspin := testing_spins (s := { s with pc := .testing }) rfl hd (n+1)
    have hle := hn _ _ (run_cons.mpr ⟨_,hmiss,hspin⟩)
    rw [List.count_cons_of_ne (by decide), count_tests] at hle
    omega

theorem ends_iff {s : Wait} (hidle : s.pc ≠ .idle) : Ends s ↔ Leaving s := by
  refine ⟨fun hends => ?_,leaving_ends⟩
  by_contra hno
  obtain ⟨hgone,hdone⟩ := not_or.mp hno
  refine not_ends ?_ (Bool.eq_false_of_not_eq_true hdone) hends
  cases hpc : s.pc with
  | idle => exact absurd hpc hidle
  | testing => exact .inl rfl
  | polling => exact .inr rfl
  | returned ret => simp [hpc, Pc.gone] at hgone

/-- A call from its post on. It may have left at once if the post was refused. -/
structure Begins (s : Wait) : Prop where
  pc : s.pc = .testing ∨ s.pc = .returned s.ret ∧ s.ret ≠ 0#32
  done : s.done = false
  owed : s.owed = true ↔ s.ret = 0#32
  status : s.status = none

theorem rdma_begins (post : U32) : Begins (ibRdmaSend post) where
  pc := .inl rfl
  done := rfl
  owed := by simp [ibRdmaSend]
  status := rfl

theorem multicast_begins (post : U32) : Begins (ibMulticastSend post) where
  pc := by
    by_cases hp : post = 0#32
    · exact .inl (if_pos hp)
    · exact .inr ⟨if_neg hp,hp⟩
  done := rfl
  owed := by simp [ibMulticastSend]
  status := rfl

structure Settles (b : Wait) (ls : List Label) (s : Wait) : Prop where
  ret : s.ret = b.ret
  done : s.done = true ↔ s.status = some true
  owed : s.owed = true ↔ b.ret = 0#32 ∧ s.status = none
  refused : b.ret ≠ 0#32 → s.status = none
  failed : s.status = some false ↔ .taken false ∈ ls ∨ .poll true false ∈ ls

structure Proceeds (b : Wait) (ls : List Label) (s : Wait) : Prop where
  busy : s.pc ≠ .idle
  polled : PollsFailure ls → s.pc.gone = true
  refused : b.pc.gone = true → s.pc.gone = true
  returned : ∀ ret, s.pc = .returned ret →
    ret = einval ∧ PollsFailure ls ∨ ret = b.ret ∧ (s.done = true ∨ b.pc.gone = true)

variable {b s t : Wait} {ls : List Label}

theorem Begins.settles (h : Begins b) : Settles b [] b where
  ret := rfl
  done := by simp [h.done, h.status]
  owed := by simp [h.owed, h.status]
  refused := fun _ => h.status
  failed := by simp [h.status]

theorem Begins.proceeds (h : Begins b) : Proceeds b [] b where
  busy := by
    rcases h.pc with hpc | ⟨hpc,-⟩
    · simp [hpc]
    · simp [hpc]
  polled := by simp [PollsFailure]
  refused := id
  returned := fun ret hret => by
    rcases h.pc with hpc | ⟨hpc,-⟩
    · simp [hpc] at hret
    · have hr : ret = b.ret := by simpa [hpc, eq_comm] using hret
      exact .inr ⟨hr,.inr (by simp [hpc, Pc.gone])⟩

theorem Settles.moves (h : Settles b ls s) {l : Label} (p : Pc) (htaken : l ≠ .taken false)
    (hpoll : l ≠ .poll true false) : Settles b (ls++[l]) { s with pc := p } where
  ret := h.ret
  done := h.done
  owed := h.owed
  refused := h.refused
  failed := by simpa [htaken.symm, hpoll.symm] using h.failed

theorem Settles.settles (h : Settles b ls s) {l : Label} {success : Bool} (p : Pc)
    (howed : s.owed = true) (hl : l = .taken success ∨ l = .poll true success) :
    Settles b (ls++[l]) { settle success s with pc := p } := by
  obtain ⟨hret,hnone⟩ := h.owed.mp howed
  have hno : ¬(.taken false ∈ ls ∨ .poll true false ∈ ls) := by
    rw [← h.failed, hnone]
    simp
  have hdone : s.done = false := by
    rw [← Bool.not_eq_true, h.done, hnone]
    simp
  refine ⟨h.ret,?_,?_,fun hb => absurd hret hb,?_⟩
  · simp [settle, hdone]
  · simp [settle]
  · rw [not_or] at hno
    rcases hl with rfl | rfl <;> simp [settle, hno, eq_comm]

theorem step_settles (l : Label) (h : Settles b ls s) (ht : step l s = some t) :
    Settles b (ls++[l]) t := by
  cases l with
  | test =>
    obtain ⟨-,ht⟩ := Option.ite_none_right_eq_some.mp ht
    exact Option.some.inj ht ▸ h.moves _ (by simp) (by simp)
  | miss =>
    obtain ⟨-,ht⟩ := Option.ite_none_right_eq_some.mp ht
    exact Option.some.inj ht ▸ h.moves _ (by simp) (by simp)
  | poll own success =>
    obtain ⟨⟨-,howed⟩,ht⟩ := Option.ite_none_right_eq_some.mp ht
    obtain rfl := Option.some.inj ht
    cases own with
    | true => exact h.settles _ (howed rfl) (.inr rfl)
    | false => exact h.moves _ (by simp) (by simp)
  | taken success =>
    obtain ⟨howed,ht⟩ := Option.ite_none_right_eq_some.mp ht
    exact Option.some.inj ht ▸ h.settles s.pc howed (.inl rfl)

theorem polls_failure_snoc (ls : List Label) (l : Label) :
    PollsFailure (ls++[l]) ↔ PollsFailure ls ∨ ∃ own, l = .poll own false := by
  simp only [PollsFailure, List.mem_append, List.mem_singleton, exists_or, eq_comm]

theorem Proceeds.moves (h : Proceeds b ls s) {l : Label} (hgone : s.pc.gone = false)
    (hl : ¬∃ own, l = .poll own false) (hbusy : t.pc ≠ .idle)
    (hreturned : ∀ ret, t.pc = .returned ret → ret = b.ret ∧ t.done = true) :
    Proceeds b (ls++[l]) t where
  busy := hbusy
  polled := fun hpoll => by
    rcases (polls_failure_snoc ls l).mp hpoll with hpoll | hpoll
    · simp [h.polled hpoll] at hgone
    · exact absurd hpoll hl
  refused := fun hb => by simp [h.refused hb] at hgone
  returned := fun ret hret => .inr ⟨(hreturned ret hret).1,.inl (hreturned ret hret).2⟩

theorem step_proceeds (l : Label) (h : Proceeds b ls s) (hret : s.ret = b.ret)
    (ht : step l s = some t) : Proceeds b (ls++[l]) t := by
  cases l with
  | test =>
    obtain ⟨hpc,ht⟩ := Option.ite_none_right_eq_some.mp ht
    obtain rfl := Option.some.inj ht
    cases hd : s.done with
    | true => exact h.moves (by simp [hpc, Pc.gone]) (by simp) (by simp) (by simp [hret])
    | false => exact h.moves (by simp [hpc, Pc.gone]) (by simp) (by simp) (by simp)
  | miss =>
    obtain ⟨hpc,ht⟩ := Option.ite_none_right_eq_some.mp ht
    obtain rfl := Option.some.inj ht
    exact h.moves (by simp [hpc, Pc.gone]) (by simp) (by simp) (by simp)
  | poll own success =>
    obtain ⟨⟨hpc,-⟩,ht⟩ := Option.ite_none_right_eq_some.mp ht
    obtain rfl := Option.some.inj ht
    cases success with
    | true => exact h.moves (by simp [hpc, Pc.gone]) (by simp) (by simp) (by simp)
    | false =>
      have hpoll : PollsFailure (ls++[.poll own false]) := ⟨own,by simp⟩
      refine ⟨by simp,fun _ => rfl,fun _ => rfl,fun ret hr => .inl ⟨?_,hpoll⟩⟩
      simpa [eq_comm] using hr
  | taken success =>
    obtain ⟨-,ht⟩ := Option.ite_none_right_eq_some.mp ht
    obtain rfl := Option.some.inj ht
    have hpoll : PollsFailure (ls++[.taken success]) ↔ PollsFailure ls := by
      rw [polls_failure_snoc]
      simp
    refine ⟨h.busy,fun hp => h.polled (hpoll.mp hp),h.refused,fun ret hr => ?_⟩
    refine (h.returned ret hr).imp (fun he => ⟨he.1,hpoll.mpr he.2⟩) fun he => ⟨he.1,?_⟩
    exact he.2.imp_left fun hd => by simp [settle, hd]

theorem run_tracks {pre : List Label} (hs : Settles b pre s) (hp : Proceeds b pre s)
    (h : run step ls s = some t) : Settles b (pre++ls) t ∧ Proceeds b (pre++ls) t := by
  induction ls generalizing pre s with
  | nil =>
    obtain rfl := Option.some.inj h
    rw [List.append_nil]
    exact ⟨hs,hp⟩
  | cons l ls ih =>
    obtain ⟨u,hu,hrest⟩ := run_cons.mp h
    rw [List.append_cons]
    exact ih (step_settles l hs hu) (step_proceeds l hp hs.ret hu) hrest

/-- A completion that failed leaves `done` alone, and who has left at once returns
what the post did. -/
theorem returned_reports (hb : Begins b) (hs : Settles b ls s) (hp : Proceeds b ls s) (ret : U32)
    (hret : s.pc = .returned ret) (hbad : s.ret ≠ 0#32 ∨ s.status = some false) : ret ≠ 0#32 := by
  rcases hp.returned ret hret with ⟨rfl,-⟩ | ⟨rfl,hleft⟩
  · decide
  · rcases hleft with hdone | hgone
    · rw [hs.done] at hdone
      rw [← hs.ret]
      exact hbad.resolve_right (by simp [hdone])
    · rcases hb.pc with hpc | ⟨-,hne⟩
      · simp [hpc, Pc.gone] at hgone
      · exact hne

/-- A call that neither polled a failure nor left at once has left the loop, or is
about to, exactly if its request has succeeded. -/
theorem leaving_iff (hp : Proceeds b ls s) (hs : Settles b ls s) :
    Leaving s ↔ PollsFailure ls ∨ b.pc.gone = true ∨ s.status = some true := by
  constructor
  · rintro (hgone | hdone)
    · cases hpc : s.pc with
      | returned ret =>
        rcases hp.returned ret hpc with ⟨-,hpoll⟩ | ⟨-,hdone | hb⟩
        · exact .inl hpoll
        · exact .inr (.inr (hs.done.mp hdone))
        · exact .inr (.inl hb)
      | _ => simp [hpc, Pc.gone] at hgone
    · exact .inr (.inr (hs.done.mp hdone))
  · rintro (hpoll | hb | htrue)
    · exact .inl (hp.polled hpoll)
    · exact .inl (hp.refused hb)
    · exact .inr (hs.done.mpr htrue)

theorem Settles.not_taken (h : Settles b ls s) (hret : b.ret ≠ 0#32) : .taken false ∉ ls := by
  intro ht
  have hfailed := h.failed.mpr (.inl ht)
  rw [h.refused hret] at hfailed
  cases hfailed

theorem waits_iff (hb : Begins b) (h : run step ls b = some s) :
    Waits s ↔
      PollsFailure ls ∨ b.pc.gone = true ∨ b.ret = 0#32 ∧ .taken false ∉ ls := by
  obtain ⟨hs,hp⟩ := run_tracks hb.settles hb.proceeds h
  rw [List.nil_append] at hs hp
  have hwaits : Waits s ↔ (s.owed = false → Leaving s) :=
    ⟨fun hw ho => (ends_iff hp.busy).mp (hw.ends ho),
      fun hl => ⟨fun ho => leaving_ends (hl ho),returned_reports hb hs hp⟩⟩
  rw [hwaits, leaving_iff hp hs]
  by_cases hpoll : PollsFailure ls
  · simp [hpoll]
  have htaken : .taken false ∈ ls ↔ s.status = some false := by
    rw [hs.failed, or_iff_left fun hpoll' => hpoll ⟨true,hpoll'⟩]
  have howed : s.owed = false ↔ ¬(b.ret = 0#32 ∧ s.status = none) := by
    rw [← hs.owed, Bool.not_eq_true]
  rw [htaken, howed]
  simp only [hpoll, false_or]
  by_cases hret : b.ret = 0#32
  · cases hstatus : s.status with
    | none => simp [hret]
    | some success => cases success <;> simp [hret]
  · simp [hret, hs.refused hret]

/-- Under every schedule a send whose request is settled ends, and reports what
failed, exactly if it polls a failed completion or its own completion is not a failed
one that another call has taken; and `__ib_rdma_send` only if its post was accepted. -/
theorem send_waits_iff (post : U32) (ls : List Label) (s : Wait) :
    (run step ls (ibRdmaSend post) = some s →
      (Waits s ↔ PollsFailure ls ∨ post = 0#32 ∧ .taken false ∉ ls)) ∧
    (run step ls (ibMulticastSend post) = some s →
      (Waits s ↔ PollsFailure ls ∨ .taken false ∉ ls)) := by
  constructor
  · intro h
    rw [waits_iff (rdma_begins post) h]
    simp [ibRdmaSend, Pc.gone]
  · intro h
    rw [waits_iff (multicast_begins post) h]
    by_cases hp : post = 0#32
    · simp [ibMulticastSend, hp, Pc.gone]
    · have hs := (run_tracks (multicast_begins post).settles (multicast_begins post).proceeds h).1
      have hnot : .taken false ∉ ls := hs.not_taken hp
      simp [ibMulticastSend, hp, Pc.gone, hnot]

/-- Another's completion is polled first, then the own one. -/
def mixedSchedule : List Label := [.test,.poll false true,.test,.poll true true,.test]

theorem send_waits_iff_sample :
    (∃ s, run step mixedSchedule (ibRdmaSend 0#32) = some s ∧ s.pc = .returned 0#32 ∧ Waits s) ∧
      Waits (ibMulticastSend einval) := by
  have hrun : run step mixedSchedule (ibRdmaSend 0#32) =
      some ⟨.returned 0#32,true,0#32,false,some true⟩ := by decide
  exact ⟨⟨_,hrun,rfl,((send_waits_iff 0#32 _ _).1 hrun).mpr (.inr (by decide))⟩,
    ((send_waits_iff einval [] _).2 rfl).mpr (.inr (by decide))⟩

/-- A read whose post is refused is owed nothing and goes round for ever; so does a
frame whose failed completion another call has polled. -/
theorem refused_send_spins :
    (∃ s, run step [.test,.miss] (ibRdmaSend einval) = some s ∧ s.owed = false ∧ ¬Ends s) ∧
      ∃ s, run step [.test,.taken false,.miss] (ibMulticastSend 0#32) = some s ∧
        s.owed = false ∧ ¬Ends s :=
  ⟨⟨_,rfl,by decide,not_ends (by decide) (by decide)⟩,_,rfl,rfl,not_ends (.inl rfl) rfl⟩

end Maruswap.SendWaits
