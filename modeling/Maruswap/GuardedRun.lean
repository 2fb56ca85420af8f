import Mathlib.Tactic.Common
import Mathlib.Logic.Function.Basic

/-!
# Runs of a partial step function

A system is a partial step function on its states. A label whose step is
undefined is not enabled there. A guard singles out the runs in which every
step is taken from a state that satisfies it; an invariant may use the guard
of the step it is preserved by.
-/

set_option autoImplicit false

namespace GuardedRun

variable {σ ℓ α β : Type*}

def run (step : ℓ → σ → Option σ) : List ℓ → σ → Option σ
  | [], s => some s
  | l::ls, s => (step l s).bind (run step ls)

/-- Every step of the run is taken from a state that satisfies the guard. -/
def Meets (step : ℓ → σ → Option σ) (guard : ℓ → σ → Prop) : List ℓ → σ → Prop
  | [], _ => True
  | l::ls, s => guard l s ∧ ∀ t, step l s = some t → Meets step guard ls t

instance decidableMeets (step : ℓ → σ → Option σ) (guard : ℓ → σ → Prop)
    [∀ l s, Decidable (guard l s)] : (ls : List ℓ) → (s : σ) → Decidable (Meets step guard ls s)
  | [], _ => .isTrue trivial
  | l::ls, s => match h : step l s with
    | none => decidable_of_iff (guard l s)
        ⟨fun hg => ⟨hg,fun t ht => by simp [h] at ht⟩,And.left⟩
    | some t =>
      have := decidableMeets step guard ls t
      decidable_of_iff (guard l s ∧ Meets step guard ls t)
        ⟨fun hg => ⟨hg.1,fun u hu => Option.some.inj (h.symm.trans hu) ▸ hg.2⟩,
          fun hg => ⟨hg.1,hg.2 t h⟩⟩

theorem run_cons {step : ℓ → σ → Option σ} {l : ℓ} {ls : List ℓ} {s u : σ} :
    run step (l::ls) s = some u ↔ ∃ t, step l s = some t ∧ run step ls t = some u :=
  Option.bind_eq_some_iff

theorem meets_cons {step : ℓ → σ → Option σ} {guard : ℓ → σ → Prop} {l : ℓ} {ls : List ℓ}
    {s u : σ} (h : step l s = some u) :
    Meets step guard (l::ls) s ↔ guard l s ∧ Meets step guard ls u :=
  and_congr_right fun _ => ⟨fun hm => hm u h,fun hm _ hv => Option.some.inj (h.symm.trans hv) ▸ hm⟩

theorem run_single (step : ℓ → σ → Option σ) (l : ℓ) (s : σ) : run step [l] s = step l s := by
  cases h : step l s with
  | none => simp [run, h]
  | some t => simp [run, h]

theorem run_append (step : ℓ → σ → Option σ) (ls ms : List ℓ) (s : σ) :
    run step (ls++ms) s = (run step ls s).bind (run step ms) := by
  induction ls generalizing s with
  | nil => rfl
  | cons l ls ih =>
    cases h : step l s with
    | none => simp [run, h]
    | some t => simp [run, h, ih]

theorem run_trans {step : ℓ → σ → Option σ} {ls ms : List ℓ} {s t u : σ}
    (h : run step ls s = some t) (hm : run step ms t = some u) :
    run step (ls++ms) s = some u := by
  rw [run_append, h]
  exact hm

def Reaches (step : ℓ → σ → Option σ) (kind : ℓ → Prop) (s t : σ) : Prop :=
  ∃ ls, run step ls s = some t ∧ ∀ l ∈ ls, kind l

theorem reaches_refl (step : ℓ → σ → Option σ) (kind : ℓ → Prop) (s : σ) :
    Reaches step kind s s :=
  ⟨[],rfl,by simp⟩

theorem Reaches.trans {step : ℓ → σ → Option σ} {kind : ℓ → Prop} {s t u : σ}
    (h : Reaches step kind s t) (k : Reaches step kind t u) : Reaches step kind s u := by
  obtain ⟨ls,ht,hls⟩ := h
  obtain ⟨ms,hu,hms⟩ := k
  exact ⟨ls++ms,run_trans ht hu,fun l hl => (List.mem_append.mp hl).elim (hls l) (hms l)⟩

theorem reaches_step {step : ℓ → σ → Option σ} {kind : ℓ → Prop} {l : ℓ} {s t : σ}
    (hl : kind l) (h : step l s = some t) : Reaches step kind s t :=
  ⟨[l],run_cons.mpr ⟨t,h,rfl⟩,by simpa using hl⟩

theorem run_invariant {step : ℓ → σ → Option σ} {guard : ℓ → σ → Prop} {inv : σ → Prop}
    (hstep : ∀ l s t, inv s → guard l s → step l s = some t → inv t)
    {ls : List ℓ} {s t : σ} (hs : inv s) (hg : Meets step guard ls s)
    (h : run step ls s = some t) : inv t := by
  induction ls generalizing s with
  | nil => exact Option.some.inj h ▸ hs
  | cons l ls ih =>
    obtain ⟨u,hu,hrest⟩ := run_cons.mp h
    exact ih (hstep l s u hs hg.1 hu) (hg.2 u hu) hrest

theorem meets_true (step : ℓ → σ → Option σ) (ls : List ℓ) (s : σ) :
    Meets step (fun _ _ => True) ls s := by
  induction ls generalizing s with
  | nil => trivial
  | cons l ls ih => exact ⟨trivial,fun t _ => ih t⟩

theorem meets_of_forall {step : ℓ → σ → Option σ} {guard : ℓ → σ → Prop} {ls : List ℓ}
    (h : ∀ l ∈ ls, ∀ s, guard l s) (s : σ) : Meets step guard ls s := by
  induction ls generalizing s with
  | nil => trivial
  | cons l ls ih =>
    exact ⟨h l (by simp) s,fun t _ => ih (fun m hm => h m (by simp [hm])) t⟩

theorem meets_of_invariant {step : ℓ → σ → Option σ} {guard : ℓ → σ → Prop} {inv : σ → Prop}
    {k : ℓ → Prop} (hstep : ∀ l s t, inv s → k l → step l s = some t → inv t)
    (hguard : ∀ l s, inv s → k l → guard l s) {ls : List ℓ} {s : σ} (hs : inv s)
    (hls : ∀ l ∈ ls, k l) : Meets step guard ls s := by
  induction ls generalizing s with
  | nil => trivial
  | cons l ls ih =>
    have hl := hls l (List.mem_cons_self ..)
    exact ⟨hguard l s hs hl,fun t ht =>
      ih (hstep l s t hs hl ht) fun m hm => hls m (List.mem_cons_of_mem _ hm)⟩

theorem meets_append {step : ℓ → σ → Option σ} {guard : ℓ → σ → Prop} {ls ms : List ℓ} {s : σ}
    (h : Meets step guard ls s) (hm : ∀ t, run step ls s = some t → Meets step guard ms t) :
    Meets step guard (ls++ms) s := by
  induction ls generalizing s with
  | nil => exact hm s rfl
  | cons l ls ih =>
    exact ⟨h.1,fun t ht => ih (h.2 t ht) (fun u hu => hm u (run_cons.mpr ⟨t,ht,hu⟩))⟩

theorem guarded_cons {step : ℓ → σ → Option σ} {guard : ℓ → σ → Prop} {l : ℓ} {ls : List ℓ}
    {s t u : σ} (h : step l s = some t) (hg : guard l s)
    (hr : run step ls t = some u ∧ Meets step guard ls t) :
    run step (l::ls) s = some u ∧ Meets step guard (l::ls) s :=
  ⟨run_cons.mpr ⟨t,h,hr.1⟩,hg,fun _ hv => Option.some.inj (h.symm.trans hv) ▸ hr.2⟩

theorem guarded_append {step : ℓ → σ → Option σ} {guard : ℓ → σ → Prop} {ls ms : List ℓ}
    {s t u : σ} (h : run step ls s = some t ∧ Meets step guard ls s)
    (hr : run step ms t = some u ∧ Meets step guard ms t) :
    run step (ls++ms) s = some u ∧ Meets step guard (ls++ms) s :=
  ⟨run_trans h.1 hr.1,meets_append h.2 fun _ hv => Option.some.inj (h.1.symm.trans hv) ▸ hr.2⟩

theorem Meets.and {step : ℓ → σ → Option σ} {g k : ℓ → σ → Prop} {ls : List ℓ} {s : σ}
    (hg : Meets step g ls s) (hk : Meets step k ls s) :
    Meets step (fun l s => g l s ∧ k l s) ls s := by
  induction ls generalizing s with
  | nil => trivial
  | cons l ls ih => exact ⟨⟨hg.1,hk.1⟩,fun t ht => ih (hg.2 t ht) (hk.2 t ht)⟩

theorem run_induction {step : ℓ → σ → Option σ} {inv : σ → Prop}
    (hstep : ∀ l s t, inv s → step l s = some t → inv t)
    {ls : List ℓ} {s t : σ} (hs : inv s) (h : run step ls s = some t) : inv t :=
  run_invariant (fun l s t hi (_ : True) => hstep l s t hi) hs (meets_true step ls s) h

theorem run_history {step : ℓ → σ → Option σ} {inv : List ℓ → σ → Prop}
    (hstep : ∀ ps l s t, inv ps s → step l s = some t → inv (ps++[l]) t)
    {ps ls : List ℓ} {s t : σ} (hs : inv ps s) (h : run step ls s = some t) : inv (ps++ls) t := by
  induction ls generalizing ps s with
  | nil =>
    obtain rfl := Option.some.inj h
    rwa [List.append_nil]
  | cons l ls ih =>
    obtain ⟨u,hu,hrest⟩ := run_cons.mp h
    have hall := ih (hstep ps l s u hs hu) hrest
    rwa [List.append_assoc] at hall

theorem Meets.mono {step : ℓ → σ → Option σ} {g k : ℓ → σ → Prop}
    (hgk : ∀ l s, g l s → k l s) {ls : List ℓ} {s : σ} (h : Meets step g ls s) :
    Meets step k ls s := by
  induction ls generalizing s with
  | nil => trivial
  | cons l ls ih => exact ⟨hgk l s h.1, fun t ht => ih (h.2 t ht)⟩

theorem meets_congr {step : ℓ → σ → Option σ} {g k : ℓ → σ → Prop}
    (hgk : ∀ l s t, step l s = some t → (g l s ↔ k l s)) {ls : List ℓ} {s t : σ}
    (h : run step ls s = some t) : Meets step g ls s ↔ Meets step k ls s := by
  induction ls generalizing s with
  | nil => exact Iff.rfl
  | cons l ls ih =>
    obtain ⟨u,hu,hrest⟩ := run_cons.mp h
    refine and_congr (hgk l s u hu) (forall_congr' fun v => ?_)
    refine imp_congr_right fun hv => ih ?_
    exact Option.some.inj (hu.symm.trans hv) ▸ hrest

/-- If the guard decides on good states whether a step leads to a good one or a bad one,
and bad states stay bad, it decides how a run ends. -/
theorem run_decides {step : ℓ → σ → Option σ} {guard : ℓ → σ → Prop} {good bad : σ → Prop}
    (hgood : ∀ l s t, good s → step l s = some t → guard l s ∧ good t ∨ ¬guard l s ∧ bad t)
    (hbad : ∀ l s t, bad s → step l s = some t → bad t) {ls : List ℓ} {s t : σ} (hs : good s)
    (h : run step ls s = some t) :
    Meets step guard ls s ∧ good t ∨ ¬Meets step guard ls s ∧ bad t := by
  induction ls generalizing s with
  | nil => exact .inl ⟨trivial,Option.some.inj h ▸ hs⟩
  | cons l ls ih =>
    obtain ⟨u,hu,hrest⟩ := run_cons.mp h
    rcases hgood l s u hs hu with ⟨hg,hgu⟩ | ⟨hg,hbu⟩
    · refine (ih hgu hrest).imp (And.imp_left fun hm => ⟨hg,fun v hv => ?_⟩)
        (And.imp_left fun hm hall => hm (hall.2 u hu))
      exact Option.some.inj (hu.symm.trans hv) ▸ hm
    · exact .inr ⟨fun hall => hg hall.1,run_induction hbad hbu hrest⟩

/-- If no step adds to the rank and every step of a kind takes one off it, a run has no
more steps of that kind than the rank it starts with. -/
theorem run_count_le {step : ℓ → σ → Option σ} {inv : σ → Prop} (rank : σ → ℕ) (kind : ℓ → Bool)
    (hinv : ∀ l s t, inv s → step l s = some t → inv t)
    (hrank : ∀ l s t, inv s → step l s = some t → rank t+(if kind l then 1 else 0) ≤ rank s)
    {ls : List ℓ} {s t : σ} (hs : inv s) (h : run step ls s = some t) :
    ls.countP kind ≤ rank s := by
  induction ls generalizing s with
  | nil => exact Nat.zero_le _
  | cons l ls ih =>
    obtain ⟨u,hu,hrest⟩ := run_cons.mp h
    have hone := hrank l s u hs hu
    have hall := ih (hinv l s u hs hu) hrest
    rw [List.countP_cons]
    omega

theorem run_length_le {step : ℓ → σ → Option σ} {guard : ℓ → σ → Prop} {inv : σ → Prop}
    (rank : σ → ℕ) (hstep : ∀ l s t, inv s → guard l s → step l s = some t →
      inv t ∧ rank t+1 ≤ rank s) {ls : List ℓ} {s t : σ} (hs : inv s)
    (hg : Meets step guard ls s) (h : run step ls s = some t) : ls.length+rank t ≤ rank s := by
  induction ls generalizing s with
  | nil => exact Option.some.inj h ▸ Nat.le_of_eq (Nat.zero_add _)
  | cons l ls ih =>
    obtain ⟨u,hu,hrest⟩ := run_cons.mp h
    obtain ⟨hinv,hone⟩ := hstep l s u hs hg.1 hu
    have hall := ih hinv (hg.2 u hu) hrest
    rw [List.length_cons]
    omega

theorem run_to_goal {step : ℓ → σ → Option σ} {guard : ℓ → σ → Prop} {inv goal : σ → Prop}
    (rank : σ → ℕ) (hnear : ∀ s, inv s → goal s ∨
      ∃ l t, guard l s ∧ step l s = some t ∧ inv t ∧ rank t+1 ≤ rank s) {s : σ} (hs : inv s) :
    ∃ ls t, (run step ls s = some t ∧ Meets step guard ls s) ∧ goal t := by
  induction hn : rank s using Nat.strongRecOn generalizing s with
  | ind n ih =>
    rcases hnear s hs with hgoal | ⟨l,t,hg,ht,hinv,hlt⟩
    · exact ⟨[],s,⟨rfl,trivial⟩,hgoal⟩
    · obtain ⟨ls,u,hrun,hgoal⟩ := ih (rank t) (by omega) hinv rfl
      exact ⟨l::ls,u,guarded_cons ht hg hrun,hgoal⟩

theorem run_again {step : ℓ → σ → Option σ} {ls : List ℓ} {s : σ} (h : run step ls s = some s)
    (n : ℕ) : run step (List.replicate n ls).flatten s = some s := by
  induction n with
  | zero => rfl
  | succ n ih =>
    rw [List.replicate_succ, List.flatten_cons]
    exact run_trans h ih

theorem rel_map {τ : Type*} {r : α → β → Prop} {q : σ → τ → Prop} {x : Option α} {y : Option β}
    {f : α → σ} {g : β → τ} (h : Option.Rel r x y) (hq : ∀ a b, r a b → q (f a) (g b)) :
    Option.Rel q (x.map f) (y.map g) := by
  cases h with
  | none => exact .none
  | some hab => exact .some (hq _ _ hab)

theorem run_rel {τ : Type*} {step : ℓ → σ → Option σ} {step' : ℓ → τ → Option τ}
    {rel : σ → τ → Prop}
    (hstep : ∀ l s t, rel s t → Option.Rel rel (step l s) (step' l t)) (ls : List ℓ)
    {s : σ} {t : τ} (h : rel s t) : Option.Rel rel (run step ls s) (run step' ls t) := by
  induction ls generalizing s t with
  | nil => exact .some h
  | cons l ls ih =>
    have hone := hstep l s t h
    rw [run, run]
    cases hs : step l s with
    | none =>
      cases ht : step' l t with
      | none => exact .none
      | some v => rw [hs, ht] at hone; cases hone
    | some u =>
      cases ht : step' l t with
      | none => rw [hs, ht] at hone; cases hone
      | some v =>
        rw [hs, ht, Option.rel_some_some] at hone
        exact ih hone

/-- If what is seen of a guarded step is nothing or a guarded step of the system it is
seen as, then so with runs. -/
theorem run_simulates {κ τ : Type*} {step : ℓ → σ → Option σ} {guard : ℓ → σ → Prop}
    {inv : σ → Prop} {step' : κ → τ → Option τ} {guard' : κ → τ → Prop} (view : σ → τ)
    (hinv : ∀ l s t, inv s → guard l s → step l s = some t → inv t)
    (hstep : ∀ l s t, inv s → guard l s → step l s = some t → view t = view s ∨
      ∃ k, guard' k (view s) ∧ step' k (view s) = some (view t))
    {ls : List ℓ} {s t : σ} (hs : inv s) (hg : Meets step guard ls s)
    (h : run step ls s = some t) :
    ∃ ks, run step' ks (view s) = some (view t) ∧ Meets step' guard' ks (view s) := by
  induction ls generalizing s with
  | nil =>
    obtain rfl := Option.some.inj h
    exact ⟨[],rfl,trivial⟩
  | cons l ls ih =>
    obtain ⟨u,hu,hrest⟩ := run_cons.mp h
    obtain ⟨ks,hks⟩ := ih (hinv l s u hs hg.1 hu) (hg.2 u hu) hrest
    rcases hstep l s u hs hg.1 hu with hv | ⟨k,hk,hv⟩
    · exact ⟨ks,hv ▸ hks⟩
    · exact ⟨k::ks,guarded_cons hv hk hks⟩

theorem run_refines {κ τ : Type*} {step : ℓ → σ → Option σ} {guard : ℓ → σ → Prop}
    {step' : κ → τ → Option τ} {guard' : κ → τ → Prop} {rel : σ → τ → Prop}
    (hstep : ∀ l s t p, rel s p → guard l s → step l s = some t →
      ∃ ks q, (run step' ks p = some q ∧ Meets step' guard' ks p) ∧ rel t q)
    {ls : List ℓ} {s t : σ} {p : τ} (hr : rel s p) (hg : Meets step guard ls s)
    (h : run step ls s = some t) :
    ∃ ks q, (run step' ks p = some q ∧ Meets step' guard' ks p) ∧ rel t q := by
  induction ls generalizing s p with
  | nil => exact ⟨[],p,⟨rfl,trivial⟩,Option.some.inj h ▸ hr⟩
  | cons l ls ih =>
    obtain ⟨u,hu,hrest⟩ := run_cons.mp h
    obtain ⟨ks,q,⟨hks,hmeets⟩,hone⟩ := hstep l s u p hr hg.1 hu
    obtain ⟨ms,r,⟨hms,hmore⟩,hall⟩ := ih hone (hg.2 u hu) hrest
    refine ⟨ks++ms,r,⟨run_trans hks hms,meets_append hmeets fun v hv => ?_⟩,hall⟩
    rw [hks] at hv
    exact Option.some.inj hv ▸ hmore

/-- If every guarded step moves the view of a state by what the label shows,
a guarded run moves it by what its labels show, in order. -/
theorem run_view {step : ℓ → σ → Option σ} {guard : ℓ → σ → Prop} {inv : σ → Prop}
    (view : σ → α) (shows : ℓ → List β) (act : α → β → α)
    (hinv : ∀ l s t, inv s → guard l s → step l s = some t → inv t)
    (hview : ∀ l s t, inv s → guard l s → step l s = some t →
      view t = (shows l).foldl act (view s))
    {ls : List ℓ} {s t : σ} (hs : inv s) (hg : Meets step guard ls s)
    (h : run step ls s = some t) : view t = (ls.flatMap shows).foldl act (view s) := by
  induction ls generalizing s with
  | nil => exact congrArg view (Option.some.inj h).symm
  | cons l ls ih =>
    obtain ⟨u,hu,hrest⟩ := run_cons.mp h
    rw [ih (hinv l s u hs hg.1 hu) (hg.2 u hu) hrest, hview l s u hs hg.1 hu,
      List.flatMap_cons, List.foldl_append]

end GuardedRun
