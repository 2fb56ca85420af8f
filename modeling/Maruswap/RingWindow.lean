import Mathlib.Tactic.Common
import Mathlib.Logic.Function.Basic

/-!
# A keyed window over a ring

A ring of `N` slots is written slot after slot, and a table remembers under
each key the slot its value went to. As long as the table only mentions the
last `count` writes and `count` does not exceed `N`, no slot serves two keys
and the next write destroys nothing the table still needs.
-/

set_option autoImplicit false

namespace RingWindow

variable {κ α : Type*} [DecidableEq κ]

/-- `next` writes have been made, write `n` went to slot `n % N`, and the
entry of a key is one of the last `count` of them, a different one for each
key. -/
structure At (N next count : ℕ) (pos : κ → ℕ) (entries : κ → Option ℕ) : Prop where
  bound : count ≤ N
  slot : ∀ k s, entries k = some s → s = pos k % N
  past : ∀ k s, entries k = some s → pos k < next
  recent : ∀ k s, entries k = some s → next ≤ pos k+count
  injective : ∀ j k s t, entries j = some s → entries k = some t → pos j = pos k → j = k

def Window (N index count : ℕ) (entries : κ → Option ℕ) : Prop :=
  ∃ next pos, index = next % N ∧ At N next count pos entries

theorem mod_injective {N next count a b : ℕ} (hc : count ≤ N) (ha : a < next) (hb : b < next)
    (ha' : next ≤ a+count) (hb' : next ≤ b+count) (h : a % N = b % N) : a = b := by
  have hN : 0 < N := by omega
  rcases Nat.le_total a b with hab | hab
  · have hdvd : N ∣ b-a := Nat.dvd_of_mod_eq_zero (Nat.sub_mod_eq_zero_of_mod_eq h.symm)
    rcases Nat.eq_zero_or_pos (b-a) with hz | hz
    · omega
    · have := Nat.le_of_dvd hz hdvd
      omega
  · have hdvd : N ∣ a-b := Nat.dvd_of_mod_eq_zero (Nat.sub_mod_eq_zero_of_mod_eq h)
    rcases Nat.eq_zero_or_pos (a-b) with hz | hz
    · omega
    · have := Nat.le_of_dvd hz hdvd
      omega

variable {N index count : ℕ} {entries : κ → Option ℕ}

omit [DecidableEq κ] in
theorem window_injective (h : Window N index count entries) {j k : κ} {s : ℕ}
    (hj : entries j = some s) (hk : entries k = some s) : j = k := by
  obtain ⟨next,pos,-,h⟩ := h
  have hmod : pos j % N = pos k % N := (h.slot j s hj).symm.trans (h.slot k s hk)
  exact h.injective j k s s hj hk (mod_injective h.bound (h.past j s hj) (h.past k s hk)
    (h.recent j s hj) (h.recent k s hk) hmod)

omit [DecidableEq κ] in
theorem window_fresh (h : Window N index count entries) (hc : count < N) {k : κ} {s : ℕ}
    (hk : entries k = some s) : s ≠ index := by
  obtain ⟨next,pos,hi,h⟩ := h
  intro he
  have hlt := h.past k s hk
  have hge := h.recent k s hk
  have hmod : pos k % N = next % N := by rw [← h.slot k s hk, he, hi]
  have := @mod_injective N (next+1) (count+1) (pos k) next hc (by omega) (by omega) (by omega)
    (by omega) hmod
  omega

omit [DecidableEq κ] in
theorem empty_window (hN : index < N) (h : ∀ k, entries k = none) :
    Window N index 0 entries :=
  ⟨index,fun _ => 0,(Nat.mod_eq_of_lt hN).symm,Nat.zero_le N,fun k s hk => by simp [h k] at hk,
    fun k s hk => by simp [h k] at hk,fun k s hk => by simp [h k] at hk,
    fun k j s t hk => by simp [h k] at hk⟩

theorem window_store (h : Window N index count entries) (hc : count < N) (k : κ) :
    Window N ((index+1) % N) (count+1) (Function.update entries k (some index)) := by
  obtain ⟨next,pos,hi,h⟩ := h
  have hold : ∀ j s, Function.update entries k (some index) j = some s → j ≠ k →
      entries j = some s := fun j s hj hjk => by rwa [Function.update_of_ne hjk] at hj
  refine ⟨next+1,Function.update pos k next,?_,hc,?_,?_,?_,?_⟩
  · rw [hi, Nat.mod_add_mod]
  · intro j s hj
    by_cases hjk : j = k
    · subst hjk
      rw [Function.update_self, Option.some.injEq] at hj
      rw [Function.update_self, ← hj, hi]
    · rw [Function.update_of_ne hjk]
      exact h.slot j s (hold j s hj hjk)
  · intro j s hj
    by_cases hjk : j = k
    · subst hjk
      rw [Function.update_self]
      omega
    · rw [Function.update_of_ne hjk]
      have := h.past j s (hold j s hj hjk)
      omega
  · intro j s hj
    by_cases hjk : j = k
    · subst hjk
      rw [Function.update_self]
      omega
    · rw [Function.update_of_ne hjk]
      have := h.recent j s (hold j s hj hjk)
      omega
  · intro i j s t hi' hj he
    by_cases hik : i = k
    · subst hik
      by_cases hji : j = i
      · exact hji.symm
      · rw [Function.update_self, Function.update_of_ne hji] at he
        have := h.past j t (hold j t hj hji)
        omega
    · by_cases hjk : j = k
      · subst hjk
        rw [Function.update_self, Function.update_of_ne hik] at he
        have := h.past i s (hold i s hi' hik)
        omega
      · rw [Function.update_of_ne hik, Function.update_of_ne hjk] at he
        exact h.injective i j s t (hold i s hi' hik) (hold j t hj hjk) he

omit [DecidableEq κ] in
theorem window_skip (h : Window N index count entries) (hc : count < N) :
    Window N ((index+1) % N) (count+1) entries := by
  obtain ⟨next,pos,hi,h⟩ := h
  refine ⟨next+1,pos,?_,hc,h.slot,fun k s hk => ?_,fun k s hk => ?_,h.injective⟩
  · rw [hi, Nat.mod_add_mod]
  · have := h.past k s hk
    omega
  · have := h.recent k s hk
    omega

omit [DecidableEq κ] in
theorem window_mono (h : Window N index count entries) {fewer : κ → Option ℕ}
    (hf : ∀ k s, fewer k = some s → entries k = some s) : Window N index count fewer := by
  obtain ⟨next,pos,hi,h⟩ := h
  exact ⟨next,pos,hi,h.bound,fun k s hk => h.slot k s (hf k s hk),
    fun k s hk => h.past k s (hf k s hk),fun k s hk => h.recent k s (hf k s hk),
    fun j k s t hj hk => h.injective j k s t (hf j s hj) (hf k t hk)⟩

theorem erase_le {k j : κ} {s : ℕ} (h : Function.update entries k none j = some s) :
    entries j = some s := by
  by_cases hj : j = k
  · subst hj
    simp at h
  · rwa [Function.update_of_ne hj] at h

/-- The slot of every key holds the value `last` gives for it. -/
def Holds (slots : ℕ → α) (entries : κ → Option ℕ) (last : κ → Option α) : Prop :=
  ∀ k s, entries k = some s → last k = some (slots s)

variable {slots : ℕ → α} {last : κ → Option α}

omit [DecidableEq κ] in
theorem holds_skip (h : Holds slots entries last) (hw : Window N index count entries)
    (hc : count < N) (a : α) : Holds (Function.update slots index a) entries last := by
  intro k s hk
  rw [Function.update_of_ne (window_fresh hw hc hk)]
  exact h k s hk

theorem holds_store (h : Holds slots entries last) (hw : Window N index count entries)
    (hc : count < N) (k : κ) (a : α) :
    Holds (Function.update slots index a) (Function.update entries k (some index))
      (Function.update last k (some a)) := by
  intro j s hj
  by_cases hjk : j = k
  · subst hjk
    rw [Function.update_self, Option.some.injEq] at hj
    rw [Function.update_self, ← hj, Function.update_self]
  · rw [Function.update_of_ne hjk] at hj ⊢
    exact holds_skip h hw hc a j s hj

omit [DecidableEq κ] in
theorem holds_mono (h : Holds slots entries last) {fewer : κ → Option ℕ}
    (hf : ∀ k s, fewer k = some s → entries k = some s) : Holds slots fewer last :=
  fun k s hk => h k s (hf k s hk)

end RingWindow
