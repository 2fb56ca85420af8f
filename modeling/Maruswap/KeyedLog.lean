import Mathlib.Tactic.Common
import Mathlib.Data.List.Induction

/-!
# Replaying a log of keyed writes

Replaying a log on a map leaves under each key the last value written to it.
Two logs with the same entries for every key, in whatever order the entries of
different keys are interleaved, replay to the same map.
-/

set_option autoImplicit false

namespace KeyedLog

variable {κ α : Type*} [DecidableEq κ]

def write (m : κ → α) (e : κ × α) : κ → α := Function.update m e.1 e.2

def replay (log : List (κ × α)) (m : κ → α) : κ → α := log.foldl write m

def entries (k : κ) (log : List (κ × α)) : List α :=
  (log.filter (fun e => e.1 = k)).map Prod.snd

def lastOf (k : κ) (log : List (κ × α)) : Option α := (entries k log).getLast?

theorem replay_append (log rest : List (κ × α)) (m : κ → α) :
    replay (log++rest) m = replay rest (replay log m) :=
  List.foldl_append

@[simp] theorem entries_append (k : κ) (log rest : List (κ × α)) :
    entries k (log++rest) = entries k log++entries k rest := by
  simp [entries]

theorem entries_reverse (k : κ) (log : List (κ × α)) :
    entries k log.reverse = (entries k log).reverse := by
  rw [entries, List.filter_reverse, List.map_reverse, entries]

theorem entries_single_self (k : κ) (a : α) : entries k [(k,a)] = [a] := by
  simp [entries]

theorem entries_single_ne {k j : κ} (h : j ≠ k) (a : α) : entries k [(j,a)] = [] := by
  simp [entries, h]

theorem last_of_cons (k : κ) (e : κ × α) (log : List (κ × α)) :
    lastOf k (e::log) = (lastOf k log).or (if e.1 = k then some e.2 else none) := by
  by_cases h : e.1 = k
  · simp [lastOf, entries, h, List.getLast?_cons, Option.or_some]
  · simp [lastOf, entries, h]

theorem last_of_mem {k : κ} {a : α} {log : List (κ × α)} (h : lastOf k log = some a) :
    (k,a) ∈ log := by
  obtain ⟨e,he,rfl⟩ := List.mem_map.mp (List.mem_of_getLast? h)
  obtain ⟨hmem,hk⟩ := List.mem_filter.mp he
  obtain rfl := of_decide_eq_true hk
  exact hmem

theorem last_of_none {k : κ} {log : List (κ × α)} (h : lastOf k log = none) :
    ∀ e ∈ log, e.1 ≠ k := by
  intro e he hk
  have hmem : e.2 ∈ entries k log :=
    List.mem_map_of_mem (List.mem_filter.mpr ⟨he,decide_eq_true hk⟩)
  rw [List.getLast?_eq_none_iff.mp h] at hmem
  cases hmem

theorem write_self (m : κ → α) (e : κ × α) : write m e e.1 = e.2 := by
  simp [write]

theorem write_ne (m : κ → α) {k : κ} {e : κ × α} (h : k ≠ e.1) : write m e k = m k := by
  simp [write, h]

theorem replay_apply (log : List (κ × α)) (m : κ → α) (k : κ) :
    replay log m k = (lastOf k log).getD (m k) := by
  induction log using List.reverseRecOn with
  | nil => rfl
  | append_singleton log e ih =>
    obtain ⟨j,a⟩ := e
    rw [replay_append, lastOf, entries_append]
    change write (replay log m) (j,a) k = _
    by_cases h : j = k
    · subst h
      rw [write_self, entries_single_self]
      simp
    · rw [write_ne _ (fun hk => h hk.symm), entries_single_ne h, List.append_nil]
      exact ih

theorem replay_congr {log rest : List (κ × α)} (m : κ → α)
    (h : ∀ k, entries k log = entries k rest) : replay log m = replay rest m := by
  funext k
  rw [replay_apply, replay_apply, lastOf, lastOf, h k]

theorem replay_absent {log : List (κ × α)} (m : κ → α) {k : κ} (h : ∀ e ∈ log, e.1 ≠ k) :
    replay log m k = m k := by
  have hk : entries k log = [] := by
    rw [entries, List.map_eq_nil_iff, List.filter_eq_nil_iff]
    exact fun e he => by simpa using h e he
  rw [replay_apply, lastOf, hk]
  rfl

theorem replay_hoist (pre rest : List (κ × α)) (m : κ → α) (e : κ × α)
    (h : ∀ d ∈ pre, d.1 ≠ e.1) : replay (pre++rest) (write m e) = replay (pre++e::rest) m := by
  have hpre : replay pre (write m e) = write (replay pre m) e := by
    funext k
    by_cases hk : k = e.1
    · subst hk
      rw [replay_absent _ h, write_self, write_self]
    · rw [write_ne _ hk, replay_apply, replay_apply, write_ne _ hk]
  rw [replay_append, replay_append, hpre]
  rfl

theorem replay_filter {γ : Type*} (entry : γ → κ × α) (keep : γ → Bool) (log : List γ)
    (m : κ → α) {k : κ} (h : ∀ x ∈ log, keep x = false → (entry x).1 ≠ k) :
    replay ((log.filter keep).map entry) m k = replay (log.map entry) m k := by
  have hk : entries k ((log.filter keep).map entry) = entries k (log.map entry) := by
    rw [entries, entries, List.filter_map, List.filter_map, List.filter_filter]
    congr 2
    refine List.filter_congr fun x hx => ?_
    cases hkeep : keep x with
    | true => simp
    | false => simp [h x hx hkeep]
  rw [replay_apply, replay_apply, lastOf, lastOf, hk]

end KeyedLog
