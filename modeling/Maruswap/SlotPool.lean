import Maruswap.GuardedRun
import Mathlib.Data.Finset.Card

/-!
# Slots claimed, marked and freed

Any number of claimants share slots. A claimant takes a free slot, asks for an
answer, and frees its slot once that is marked. Whoever picks an answer up may
mark any slot with it, and one nobody sent may be picked up as well. A slot is
lost exactly if its claimant drops it or if it is marked while it is free. The
latter never happens with the answers that were asked for: there are never more
answers and marked slots than claimants that may still free one, so that none is
left over in the end.
-/

set_option autoImplicit false

namespace SlotPool
open GuardedRun

variable {ι β : Type*} [DecidableEq ι]

inductive Slot where
  | free
  | taken
  | marked
  deriving DecidableEq

/-- `carrying b` claims slot `b` and has an answer in its hands. -/
inductive Claim (β : Type*) where
  | idle
  | taken (b : β)
  | asked (b : β)
  | carrying (b : β)
  | closing (b : β)

def Claim.slot : Claim β → Option β
  | .idle => none
  | .taken b => some b
  | .asked b => some b
  | .carrying b => some b
  | .closing b => some b

/-- A claimant that has asked and has no answer in its hands. -/
def Claim.Open : Claim β → Prop
  | .asked _ => True
  | .closing _ => True
  | _ => False

/-- `due` counts the answers nobody has picked up. -/
structure Pool (ι β : Type*) where
  claim : ι → Claim β
  slot : β → Slot
  due : ℕ

def Pool.set (s : Pool ι β) (c : ι) (p : Claim β) : Pool ι β :=
  { s with claim := Function.update s.claim c p }

def init : Pool ι β := ⟨fun _ => .idle,fun _ => .free,0⟩

theorem set_claim (s : Pool ι β) (c d : ι) (p : Claim β) :
    (s.set c p).claim d = if d = c then p else s.claim d := by
  by_cases h : d = c
  · subst h
    simp [Pool.set]
  · simp [Pool.set, h]

theorem set_slot {s : Pool ι β} {c : ι} {p : Claim β}
    (h : p.slot = (s.claim c).slot ∨ p.slot = none) {d : ι} {b : β}
    (hd : ((s.set c p).claim d).slot = some b) : (s.claim d).slot = some b := by
  rw [set_claim] at hd
  split at hd
  · next hdc =>
    subst hdc
    rcases h with h | h
    · exact h ▸ hd
    · rw [h] at hd
      cases hd
  · exact hd

theorem set_opened {s : Pool ι β} {A : Finset ι} (h : ∀ c, c ∈ A ↔ (s.claim c).Open) (c : ι)
    (p : Claim β) : (p.Open → ∀ d, d ∈ insert c A ↔ ((s.set c p).claim d).Open) ∧
      (¬p.Open → ∀ d, d ∈ A.erase c ↔ ((s.set c p).claim d).Open) := by
  constructor
  · intro hp d
    rw [set_claim]
    by_cases hd : d = c
    · simp [hd, hp]
    · simp [hd, h d]
  · intro hp d
    rw [set_claim]
    by_cases hd : d = c
    · simp [hd, hp]
    · simp [hd, h d]

theorem set_held {s : Pool ι β} {c : ι} {p : Claim β} (hp : p.slot = (s.claim c).slot) {b : β}
    (h : ∃ d, (s.claim d).slot = some b) : ∃ d, ((s.set c p).claim d).slot = some b := by
  obtain ⟨d,hd⟩ := h
  refine ⟨d,?_⟩
  rw [set_claim]
  split
  · next hdc =>
    rw [hp, ← hdc]
    exact hd
  · exact hd

/-- A claimed slot has one claimant, is not free, and is marked before it is freed. -/
structure Sole (s : Pool ι β) : Prop where
  exclusive : ∀ c d b, (s.claim c).slot = some b → (s.claim d).slot = some b → c = d
  taken : ∀ c b, (s.claim c).slot = some b → s.slot b ≠ .free
  closing : ∀ c b, s.claim c = .closing b → s.slot b = .marked

omit [DecidableEq ι] in
theorem init_sole : Sole (init : Pool ι β) where
  exclusive := fun _ _ _ h => by simp [init, Claim.slot] at h
  taken := fun _ _ h => by simp [init, Claim.slot] at h
  closing := fun _ _ h => by simp [init] at h

theorem Sole.move {s : Pool ι β} (h : Sole s) {c : ι} {p : Claim β} {slot : β → Slot} {n : ℕ}
    (hp : p.slot = (s.claim c).slot ∨ p.slot = none)
    (hslot : ∀ d b, ((s.set c p).claim d).slot = some b → slot b = s.slot b ∨ slot b = .marked)
    (hclosing : ∀ b, p = .closing b → s.slot b = .marked) :
    Sole { s.set c p with slot := slot, due := n } := by
  constructor
  · exact fun d e b hd he => h.exclusive d e b (set_slot hp hd) (set_slot hp he)
  · intro d b hd
    have ht := h.taken d b (set_slot hp hd)
    rcases hslot d b hd with hs | hs
    · exact fun hf => ht (hs ▸ hf)
    · simp [hs]
  · intro d b hd
    have hb := hslot d b (by rw [show (s.set c p).claim d = .closing b from hd]; rfl)
    have hm : s.slot b = .marked := by
      have hd : (s.set c p).claim d = .closing b := hd
      rw [set_claim] at hd
      split at hd
      · exact hclosing b hd
      · exact h.closing d b hd
    exact hb.elim (fun hs => hs.trans hm) id

variable [DecidableEq β]

inductive Act (ι β : Type*) where
  | take (c : ι) (b : β)
  | ask (c : ι)
  | pick (c : ι)
  | stray (c : ι)
  | mark (c : ι) (r : β)
  | close (c : ι)
  | free (c : ι)
  | drop (c : ι)

def step : Act ι β → Pool ι β → Option (Pool ι β)
  | .take c b, s => match s.claim c with
    | .idle =>
      if s.slot b = .free then
        some { s.set c (.taken b) with slot := Function.update s.slot b .taken }
      else none
    | _ => none
  | .ask c, s => match s.claim c with
    | .taken b => some { s.set c (.asked b) with due := s.due+1 }
    | _ => none
  | .pick c, s => match s.claim c with
    | .asked b => if s.due = 0 then none else some { s.set c (.carrying b) with due := s.due-1 }
    | _ => none
  | .stray c, s => match s.claim c with
    | .asked b => some (s.set c (.carrying b))
    | _ => none
  | .mark c r, s => match s.claim c with
    | .carrying b => some { s.set c (.asked b) with slot := Function.update s.slot r .marked }
    | _ => none
  | .close c, s => match s.claim c with
    | .asked b => if s.slot b = .marked then some (s.set c (.closing b)) else none
    | _ => none
  | .free c, s => match s.claim c with
    | .closing b => some { s.set c .idle with slot := Function.update s.slot b .free }
    | _ => none
  | .drop c, s => match (s.claim c).slot with
    | some _ => some (s.set c .idle)
    | none => none

inductive Effect : Act ι β → Pool ι β → Pool ι β → Prop where
  | take {c : ι} {b : β} {s : Pool ι β} (hc : s.claim c = .idle) (hb : s.slot b = .free) :
      Effect (.take c b) s
        { s.set c (.taken b) with slot := Function.update s.slot b .taken }
  | ask {c : ι} {b : β} {s : Pool ι β} (hc : s.claim c = .taken b) :
      Effect (.ask c) s { s.set c (.asked b) with due := s.due+1 }
  | pick {c : ι} {b : β} {s : Pool ι β} (hc : s.claim c = .asked b) (hd : s.due ≠ 0) :
      Effect (.pick c) s { s.set c (.carrying b) with due := s.due-1 }
  | stray {c : ι} {b : β} {s : Pool ι β} (hc : s.claim c = .asked b) :
      Effect (.stray c) s (s.set c (.carrying b))
  | mark {c : ι} {b r : β} {s : Pool ι β} (hc : s.claim c = .carrying b) :
      Effect (.mark c r) s
        { s.set c (.asked b) with slot := Function.update s.slot r .marked }
  | close {c : ι} {b : β} {s : Pool ι β} (hc : s.claim c = .asked b)
      (hb : s.slot b = .marked) : Effect (.close c) s (s.set c (.closing b))
  | free {c : ι} {b : β} {s : Pool ι β} (hc : s.claim c = .closing b) :
      Effect (.free c) s { s.set c .idle with slot := Function.update s.slot b .free }
  | drop {c : ι} {b : β} {s : Pool ι β} (hc : (s.claim c).slot = some b) :
      Effect (.drop c) s (s.set c .idle)

theorem step_effect {a : Act ι β} {s t : Pool ι β} (h : step a s = some t) : Effect a s t := by
  cases a with
  | take c b =>
    simp only [step] at h
    split at h
    · next hc =>
      obtain ⟨hb,h⟩ := Option.ite_none_right_eq_some.mp h
      exact Option.some.inj h ▸ .take hc hb
    · cases h
  | ask c =>
    simp only [step] at h
    split at h
    · next b hc => exact Option.some.inj h ▸ .ask hc
    · cases h
  | pick c =>
    simp only [step] at h
    split at h
    · next b hc =>
      split_ifs at h with hd
      exact Option.some.inj h ▸ .pick hc hd
    · cases h
  | stray c =>
    simp only [step] at h
    split at h
    · next b hc => exact Option.some.inj h ▸ .stray hc
    · cases h
  | mark c r =>
    simp only [step] at h
    split at h
    · next b hc => exact Option.some.inj h ▸ .mark hc
    · cases h
  | close c =>
    simp only [step] at h
    split at h
    · next b hc =>
      obtain ⟨hb,h⟩ := Option.ite_none_right_eq_some.mp h
      exact Option.some.inj h ▸ .close hc hb
    · cases h
  | free c =>
    simp only [step] at h
    split at h
    · next b hc => exact Option.some.inj h ▸ .free hc
    · cases h
  | drop c =>
    simp only [step] at h
    split at h
    · next b hc => exact Option.some.inj h ▸ .drop hc
    · cases h

theorem step_sole (a : Act ι β) (s t : Pool ι β) (h : Sole s) (hs : step a s = some t) :
    Sole t := by
  cases step_effect hs with
  | @take c b _ hc hb =>
    -- a free slot has no claimant
    have hnone : ∀ d, (s.claim d).slot ≠ some b := fun d hd => h.taken d b hd hb
    have hother : ∀ d v, ((s.set c (.taken b)).claim d).slot = some v →
        d = c ∧ v = b ∨ (s.claim d).slot = some v ∧ v ≠ b := by
      intro d v hd
      rw [set_claim] at hd
      split at hd
      · next hdc => exact .inl ⟨hdc,(Option.some.inj hd).symm⟩
      · exact .inr ⟨hd,fun hv => hnone d (hv ▸ hd)⟩
    constructor
    · intro d e v hd he
      rcases hother d v hd with ⟨hdc,hv⟩ | ⟨hd,hv⟩
      · rcases hother e v he with ⟨hec,-⟩ | ⟨-,hv'⟩
        · exact hdc.trans hec.symm
        · exact absurd hv hv'
      · rcases hother e v he with ⟨-,hv'⟩ | ⟨he,-⟩
        · exact absurd hv' hv
        · exact h.exclusive d e v hd he
    · intro d v hd
      rcases hother d v hd with ⟨-,rfl⟩ | ⟨hd,hv⟩
      · simp
      · simpa [hv] using h.taken d v hd
    · intro d v hd
      have hd : (s.set c (.taken b)).claim d = .closing v := hd
      rw [set_claim] at hd
      split at hd
      · cases hd
      · have hv : v ≠ b := fun hv => hnone d (by rw [hd, ← hv]; rfl)
        simpa [hv] using h.closing d v hd
  | ask hc => exact h.move (.inl (by rw [hc]; rfl)) (fun _ _ _ => .inl rfl) (by simp)
  | pick hc hd => exact h.move (.inl (by rw [hc]; rfl)) (fun _ _ _ => .inl rfl) (by simp)
  | stray hc => exact h.move (.inl (by rw [hc]; rfl)) (fun _ _ _ => .inl rfl) (by simp)
  | @mark c b r _ hc =>
    refine h.move (.inl (by rw [hc]; rfl)) (fun d v _ => ?_) (by simp)
    by_cases hv : v = r
    · exact .inr (by simp [hv])
    · exact .inl (by simp [hv])
  | @close c b _ hc hb =>
    refine h.move (.inl (by rw [hc]; rfl)) (fun _ _ _ => .inl rfl) (fun v hv => ?_)
    cases hv
    exact hb
  | @free c b _ hc =>
    refine h.move (.inr rfl) (fun d v hd => .inl ?_) (by simp)
    have hv : v ≠ b := by
      rintro rfl
      have hdc := h.exclusive d c v (set_slot (.inr rfl) hd) (by rw [hc]; rfl)
      rw [set_claim, if_pos hdc] at hd
      cases hd
    simp [hv]
  | drop hc => exact h.move (.inr rfl) (fun _ _ _ => .inl rfl) (by simp)

def Lost (b : β) (s : Pool ι β) : Prop := s.slot b ≠ .free ∧ ∀ c, (s.claim c).slot ≠ some b

/-- The step marks no free slot. -/
def Marks (a : Act ι β) (s : Pool ι β) : Prop := ∀ c r, a = .mark c r → s.slot r ≠ .free

def Keeps (a : Act ι β) (s : Pool ι β) : Prop := (∀ c, a ≠ .drop c) ∧ Marks a s

theorem drop_lost {c : ι} {s t : Pool ι β} (h : Sole s) (hs : step (.drop c) s = some t) :
    ∃ b, Lost b t := by
  cases step_effect hs with
  | @drop _ b _ hc =>
    refine ⟨b,h.taken c b hc,fun d hd => ?_⟩
    have hdc := h.exclusive d c b (set_slot (.inr rfl) hd) hc
    rw [set_claim, if_pos hdc] at hd
    cases hd

theorem mark_lost {c : ι} {r : β} {s t : Pool ι β} (h : Sole s) (hr : s.slot r = .free)
    (hs : step (.mark c r) s = some t) : Lost r t := by
  cases step_effect hs with
  | @mark _ b _ _ hc =>
    refine ⟨by simp,fun d hd => ?_⟩
    exact h.taken d r (set_slot (.inl (by rw [hc]; rfl)) hd) hr

theorem not_keeps_lost {a : Act ι β} {s t : Pool ι β} (h : Sole s) (ha : ¬Keeps a s)
    (hs : step a s = some t) : ∃ b, Lost b t := by
  by_cases hdrop : ∀ c, a ≠ .drop c
  · have hmarks : ¬Marks a s := fun hm => ha ⟨hdrop,hm⟩
    simp only [Marks, not_forall, not_not] at hmarks
    obtain ⟨c,r,rfl,hr⟩ := hmarks
    exact ⟨r,mark_lost h hr hs⟩
  · simp only [not_forall, not_not] at hdrop
    obtain ⟨c,rfl⟩ := hdrop
    exact drop_lost h hs

theorem step_lost (b : β) (a : Act ι β) (s t : Pool ι β) (h : Lost b s)
    (hs : step a s = some t) : Lost b t ∧ (t.slot b = s.slot b ∨ t.slot b = .marked) := by
  obtain ⟨hb,hnone⟩ := h
  cases step_effect hs with
  | @take c v _ hc hv =>
    have hbv : b ≠ v := fun he => hb (he ▸ hv)
    refine ⟨⟨by simpa [hbv] using hb,fun d hd => ?_⟩,.inl (by simp [hbv])⟩
    have hd : ((s.set c (.taken v)).claim d).slot = some b := hd
    rw [set_claim] at hd
    split at hd
    · exact hbv (Option.some.inj hd).symm
    · exact hnone d hd
  | ask hc => exact ⟨⟨hb,fun d hd => hnone d (set_slot (.inl (by rw [hc]; rfl)) hd)⟩,.inl rfl⟩
  | pick hc hd => exact ⟨⟨hb,fun d hd => hnone d (set_slot (.inl (by rw [hc]; rfl)) hd)⟩,.inl rfl⟩
  | stray hc => exact ⟨⟨hb,fun d hd => hnone d (set_slot (.inl (by rw [hc]; rfl)) hd)⟩,.inl rfl⟩
  | @mark c v r _ hc =>
    have hnone : ∀ d, ((s.set c (.asked v)).claim d).slot ≠ some b :=
      fun d hd => hnone d (set_slot (.inl (by rw [hc]; rfl)) hd)
    by_cases hbr : b = r
    · exact ⟨⟨by simp [hbr],hnone⟩,.inr (by simp [hbr])⟩
    · exact ⟨⟨by simpa [hbr] using hb,hnone⟩,.inl (by simp [hbr])⟩
  | close hc hv => exact ⟨⟨hb,fun d hd => hnone d (set_slot (.inl (by rw [hc]; rfl)) hd)⟩,.inl rfl⟩
  | @free c v _ hc =>
    have hbv : b ≠ v := by
      rintro rfl
      exact hnone c (by rw [hc]; rfl)
    exact ⟨⟨by simpa [hbv] using hb,fun d hd => hnone d (set_slot (.inr rfl) hd)⟩,
      .inl (by simp [hbv])⟩
  | drop hc => exact ⟨⟨hb,fun d hd => hnone d (set_slot (.inr rfl) hd)⟩,.inl rfl⟩

def Held (s : Pool ι β) : Prop := ∀ b, s.slot b ≠ .free → ∃ c, (s.claim c).slot = some b

omit [DecidableEq ι] [DecidableEq β] in
theorem init_held : Held (init : Pool ι β) := fun _ hb => (hb rfl).elim

theorem step_held {a : Act ι β} {s t : Pool ι β} (h : Held s) (ha : Keeps a s)
    (hs : step a s = some t) : Held t := by
  intro v hv
  cases step_effect hs with
  | @take c b _ hc hb =>
    by_cases hvb : v = b
    · subst hvb
      exact ⟨c,by rw [show _ = _ from set_claim s c c (.taken v), if_pos rfl]; rfl⟩
    · obtain ⟨d,hd⟩ := h v (by simpa [hvb] using hv)
      have hdc : d ≠ c := by
        rintro rfl
        rw [hc] at hd
        cases hd
      exact ⟨d,by rw [show _ = _ from set_claim s c d (.taken b), if_neg hdc]; exact hd⟩
  | ask hc => exact set_held (by rw [hc]; rfl) (h v hv)
  | pick hc hd => exact set_held (by rw [hc]; rfl) (h v hv)
  | stray hc => exact set_held (by rw [hc]; rfl) (h v hv)
  | @mark c b r _ hc =>
    by_cases hvr : v = r
    · subst hvr
      exact set_held (by rw [hc]; rfl) (h v (ha.2 c v rfl))
    · exact set_held (by rw [hc]; rfl) (h v (by simpa [hvr] using hv))
  | close hc hb => exact set_held (by rw [hc]; rfl) (h v hv)
  | @free c b _ hc =>
    have hvb : v ≠ b := by
      rintro rfl
      simp at hv
    obtain ⟨d,hd⟩ := h v (by simpa [hvb] using hv)
    have hdc : d ≠ c := by
      rintro rfl
      rw [hc] at hd
      exact hvb (Option.some.inj hd).symm
    exact ⟨d,by rw [show _ = _ from set_claim s c d .idle, if_neg hdc]; exact hd⟩
  | drop hc => exact absurd rfl (ha.1 _)

/-- Once every claim is given up, all slots are free exactly if none was dropped or
marked while it was free. -/
theorem all_free_iff {as : List (Act ι β)} {s : Pool ι β} (h : run step as init = some s)
    (hidle : ∀ c, s.claim c = .idle) : (∀ b, s.slot b = .free) ↔ Meets step Keeps as init := by
  have hgood : ∀ (a : Act ι β) (s t : Pool ι β), Sole s ∧ Held s → step a s = some t →
      Keeps a s ∧ Sole t ∧ Held t ∨ ¬Keeps a s ∧ ∃ b, Lost b t := by
    intro a s t hi hst
    by_cases ha : Keeps a s
    · exact .inl ⟨ha,step_sole a s t hi.1 hst,step_held hi.2 ha hst⟩
    · exact .inr ⟨ha,not_keeps_lost hi.1 ha hst⟩
  have hbad : ∀ (a : Act ι β) (s t : Pool ι β), (∃ b, Lost b s) → step a s = some t →
      ∃ b, Lost b t := fun a s t ⟨b,hb⟩ hst => ⟨b,(step_lost b a s t hb hst).1⟩
  rcases run_decides hgood hbad ⟨init_sole,init_held⟩ h with ⟨hm,-,hheld⟩ | ⟨hm,b,hb⟩
  · refine iff_of_true (fun b => by_contra fun hb => ?_) hm
    obtain ⟨c,hc⟩ := hheld b hb
    rw [hidle c] at hc
    cases hc
  · exact iff_of_false (fun hfree => hb.1 (hfree b)) hm

/-- `A` are the open claims and `M` the marked slots. -/
structure Tallied (A : Finset ι) (M : Finset β) (s : Pool ι β) : Prop where
  opened : ∀ c, c ∈ A ↔ (s.claim c).Open
  marked : ∀ b, b ∈ M ↔ s.slot b = .marked
  room : s.due+M.card ≤ A.card

omit [DecidableEq ι] [DecidableEq β] in
theorem init_tallied : Tallied ∅ ∅ (init : Pool ι β) where
  opened := fun _ => by simp [init, Claim.Open]
  marked := fun _ => by simp [init]
  room := le_rfl

theorem step_tallied (a : Act ι β) (s t : Pool ι β) (hs : Sole s)
    (h : ∃ A M, Tallied A M s) (hdrop : ∀ c, a ≠ .drop c) (hstray : ∀ c, a ≠ .stray c)
    (hst : step a s = some t) : ∃ A M, Tallied A M t := by
  obtain ⟨A,M,h⟩ := h
  cases step_effect hst with
  | @take c b _ hc hb =>
    have hcA : c ∉ A := fun hA => by simpa [hc, Claim.Open] using (h.opened c).mp hA
    have hbM : b ∉ M := fun hM => by simpa [hb] using (h.marked b).mp hM
    refine ⟨A,M,?_,fun v => ?_,h.room⟩
    · have ho := (set_opened h.opened c (.taken b)).2 id
      rwa [Finset.erase_eq_of_notMem hcA] at ho
    · by_cases hv : v = b
      · subst hv
        simpa using hbM
      · simpa [hv] using h.marked v
  | @ask c b _ hc =>
    have hcA : c ∉ A := fun hA => by simpa [hc, Claim.Open] using (h.opened c).mp hA
    refine ⟨insert c A,M,(set_opened h.opened c (.asked b)).1 trivial,h.marked,?_⟩
    have hr := h.room
    rw [Finset.card_insert_of_notMem hcA]
    show s.due+1+M.card ≤ A.card+1
    omega
  | @pick c b _ hc hd =>
    have hcA : c ∈ A := (h.opened c).mpr (by rw [hc]; trivial)
    refine ⟨A.erase c,M,(set_opened h.opened c (.carrying b)).2 id,h.marked,?_⟩
    have hr := h.room
    rw [Finset.card_erase_of_mem hcA]
    show s.due-1+M.card ≤ A.card-1
    omega
  | stray hc => exact absurd rfl (hstray _)
  | @mark c b r _ hc =>
    -- a slot that was marked before takes no more room
    have hcA : c ∉ A := fun hA => by simpa [hc, Claim.Open] using (h.opened c).mp hA
    refine ⟨insert c A,insert r M,(set_opened h.opened c (.asked b)).1 trivial,fun v => ?_,?_⟩
    · by_cases hv : v = r
      · simp [hv]
      · simpa [hv] using h.marked v
    · have hr := h.room
      have hm := Finset.card_insert_le r M
      rw [Finset.card_insert_of_notMem hcA]
      show s.due+(insert r M).card ≤ A.card+1
      omega
  | @close c b _ hc hb =>
    have hcA : c ∈ A := (h.opened c).mpr (by rw [hc]; trivial)
    have ho := (set_opened h.opened c (.closing b)).1 trivial
    rw [Finset.insert_eq_of_mem hcA] at ho
    exact ⟨A,M,ho,h.marked,h.room⟩
  | @free c b _ hc =>
    have hcA : c ∈ A := (h.opened c).mpr (by rw [hc]; trivial)
    have hbM : b ∈ M := (h.marked b).mpr (hs.closing c b hc)
    refine ⟨A.erase c,M.erase b,(set_opened h.opened c .idle).2 id,fun v => ?_,?_⟩
    · by_cases hv : v = b
      · simp [hv]
      · simpa [hv] using h.marked v
    · have hr := h.room
      rw [Finset.card_erase_of_mem hcA, Finset.card_erase_of_mem hbM]
      have hpos := Finset.card_pos.mpr ⟨b,hbM⟩
      show s.due+(M.card-1) ≤ A.card-1
      omega
  | drop hc => exact absurd rfl (hdrop _)

theorem none_marked {as : List (Act ι β)} {s : Pool ι β} (h : run step as init = some s)
    (hidle : ∀ c, s.claim c = .idle) (hdrop : ∀ c, .drop c ∉ as) (hstray : ∀ c, .stray c ∉ as)
    (b : β) : s.slot b ≠ .marked := by
  have hne : ∀ a ∈ as, ∀ _ : Pool ι β, (∀ c, a ≠ .drop c) ∧ ∀ c, a ≠ .stray c :=
    fun a ha _ => ⟨fun c he => hdrop c (he ▸ ha),fun c he => hstray c (he ▸ ha)⟩
  obtain ⟨-,A,M,ht⟩ := run_invariant
    (fun a s t (hi : Sole s ∧ ∃ A M, Tallied A M s)
      (ha : (∀ c, a ≠ .drop c) ∧ ∀ c, a ≠ .stray c) hst =>
      ⟨step_sole a s t hi.1 hst,step_tallied a s t hi.1 hi.2 ha.1 ha.2 hst⟩)
    ⟨init_sole,∅,∅,init_tallied⟩ (meets_of_forall hne init) h
  have hA : A = ∅ := Finset.eq_empty_of_forall_notMem fun c hc => by
    simpa [hidle c, Claim.Open] using (ht.opened c).mp hc
  have hM : M.card = 0 := by
    have hr := ht.room
    rw [hA, Finset.card_empty] at hr
    omega
  intro hb
  have hbM := (ht.marked b).mpr hb
  rw [Finset.card_eq_zero.mp hM] at hbM
  simp at hbM

/-- Answers that were asked for mark no free slot, if no claim is dropped and every claim
is given up in the end. -/
theorem keeps_of_asked {as : List (Act ι β)} {s : Pool ι β} (h : run step as init = some s)
    (hidle : ∀ c, s.claim c = .idle) (hdrop : ∀ c, .drop c ∉ as)
    (hstray : ∀ c, .stray c ∉ as) : Meets step Keeps as init := by
  have hgood : ∀ (a : Act ι β) (s t : Pool ι β), Sole s → step a s = some t →
      Marks a s ∧ Sole t ∨ ¬Marks a s ∧ ∃ b, Lost b t ∧ t.slot b = .marked := by
    intro a s t hi hst
    by_cases ha : Marks a s
    · exact .inl ⟨ha,step_sole a s t hi hst⟩
    · refine .inr ⟨ha,?_⟩
      simp only [Marks, not_forall, not_not] at ha
      obtain ⟨c,r,rfl,hr⟩ := ha
      refine ⟨r,mark_lost hi hr hst,?_⟩
      cases step_effect hst with
      | mark hc => simp
  have hbad : ∀ (a : Act ι β) (s t : Pool ι β), (∃ b, Lost b s ∧ s.slot b = .marked) →
      step a s = some t → ∃ b, Lost b t ∧ t.slot b = .marked := by
    rintro a s t ⟨b,hb,hm⟩ hst
    obtain ⟨hlost,hslot⟩ := step_lost b a s t hb hst
    exact ⟨b,hlost,hslot.elim (fun hs => hs.trans hm) id⟩
  rcases run_decides hgood hbad init_sole h with ⟨hm,-⟩ | ⟨-,b,-,hb⟩
  · have hdrops : ∀ a ∈ as, ∀ _ : Pool ι β, ∀ c, a ≠ .drop c :=
      fun a ha _ c he => hdrop c (he ▸ ha)
    exact (meets_of_forall hdrops init).and hm
  · exact absurd hb (none_marked h hidle hdrop hstray b)

end SlotPool
