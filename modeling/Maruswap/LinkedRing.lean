import Mathlib.Tactic.Common
import Mathlib.Logic.Function.Basic
import Mathlib.Data.List.Chain
import Mathlib.Data.List.Nodup

/-!
# Circular doubly linked lists

Every node has a successor and a predecessor. `join a b` makes two nodes
neighbours; what a path looks like after it depends on no more than where the two
stand on the path. A ring is a path from a head back to itself through distinct
nodes, and the operations on rings are one, two or three joins.
-/

set_option autoImplicit false

namespace LinkedRing

variable {α : Type*}

structure Links (α : Type*) where
  next : α → α
  prev : α → α

def Linked (h : Links α) (a b : α) : Prop := h.next a = b ∧ h.prev b = a

def Path (h : Links α) (xs : List α) : Prop := xs.IsChain (Linked h)

/-- The successors lead along the list, wherever the predecessors lead. -/
def Forward (h : Links α) (xs : List α) : Prop := xs.IsChain fun a b => h.next a = b

structure Ring (h : Links α) (head : α) (xs : List α) : Prop where
  nodup : (head::xs).Nodup
  path : Path h (head::xs++[head])

theorem Path.forward {h : Links α} {xs : List α} (hp : Path h xs) : Forward h xs :=
  List.IsChain.imp (fun _ _ hl => hl.1) hp

theorem Forward.next_first {h : Links α} {a head : α} {xs : List α}
    (hp : Forward h (a::xs++[head])) : h.next a = xs.head?.getD head := by
  cases xs with
  | nil => exact (List.isChain_cons_cons.mp hp).1
  | cons y ys => exact (List.isChain_cons_cons.mp hp).1

theorem last_mem (c : α) (xs : List α) : xs.getLast?.getD c ∈ c::xs := by
  cases hx : xs.getLast? with
  | none => exact .head xs
  | some x => exact .tail c (List.mem_of_getLast? hx)

theorem first_mem (ys : List α) (d : α) : ys.head?.getD d ∈ ys++[d] := by
  cases ys with
  | nil => exact .head []
  | cons y ys => exact .head (ys++[d])

section Join
variable [DecidableEq α] {h : Links α} {a b x y : α} {xs ys : List α}

def setNext (a b : α) (h : Links α) : Links α := { h with next := Function.update h.next a b }

def setPrev (b a : α) (h : Links α) : Links α := { h with prev := Function.update h.prev b a }

def join (a b : α) (h : Links α) : Links α := setPrev b a (setNext a b h)

theorem linked_join (a b : α) (h : Links α) : Linked (join a b h) a b :=
  ⟨Function.update_self ..,Function.update_self ..⟩

theorem Path.set_next (hp : Path h xs) (ha : a ∉ xs.dropLast) : Path (setNext a b h) xs := by
  induction xs with
  | nil => exact .nil
  | cons x xs ih =>
    cases xs with
    | nil => exact .singleton x
    | cons y xs =>
      obtain ⟨hl,hrest⟩ := List.isChain_cons_cons.mp hp
      rw [List.dropLast_cons_cons, List.mem_cons, not_or] at ha
      exact .cons_cons ⟨(Function.update_of_ne (Ne.symm ha.1) ..).trans hl.1,hl.2⟩ (ih hrest ha.2)

theorem Path.set_prev (hp : Path h xs) (hb : b ∉ xs.tail) : Path (setPrev b a h) xs := by
  induction xs with
  | nil => exact .nil
  | cons x xs ih =>
    cases xs with
    | nil => exact .singleton x
    | cons y xs =>
      obtain ⟨hl,hrest⟩ := List.isChain_cons_cons.mp hp
      rw [List.tail_cons, List.mem_cons, not_or] at hb
      have hy := Function.update_of_ne (Ne.symm hb.1) a h.prev
      exact .cons_cons ⟨hl.1,hy.trans hl.2⟩ (ih hrest hb.2)

theorem Path.join (hp : Path h xs) (ha : a ∉ xs.dropLast) (hb : b ∉ xs.tail) :
    Path (join a b h) xs :=
  (hp.set_next ha).set_prev hb

theorem Forward.set_next (hp : Forward h xs) (ha : a ∉ xs.dropLast) :
    Forward (setNext a b h) xs := by
  induction xs with
  | nil => exact .nil
  | cons x xs ih =>
    cases xs with
    | nil => exact .singleton x
    | cons y xs =>
      obtain ⟨hl,hrest⟩ := List.isChain_cons_cons.mp hp
      rw [List.dropLast_cons_cons, List.mem_cons, not_or] at ha
      exact .cons_cons ((Function.update_of_ne (Ne.symm ha.1) ..).trans hl) (ih hrest ha.2)

theorem path_bridge {c d : α} (hxs : Path h (c::xs)) (hys : Path h (ys++[d]))
    (hx : (c::xs).Nodup) (hy : (ys++[d]).Nodup) (ha : xs.getLast?.getD c ∉ ys)
    (hb : ys.head?.getD d ∉ xs) :
    Path (join (xs.getLast?.getD c) (ys.head?.getD d) h) (c::xs++(ys++[d])) := by
  have hlast : (c::xs).dropLast++[xs.getLast?.getD c] = c::xs :=
    List.dropLast_append_getLast? _ (by simp [List.getLast?_cons])
  have hfirst : ys.head?.getD d::(ys++[d]).tail = ys++[d] :=
    List.cons_head?_tail (by simp [List.head?_append])
  have ha' : xs.getLast?.getD c ∉ (c::xs).dropLast := fun hm =>
    (List.nodup_append.mp (hlast ▸ hx)).2.2 _ hm _ (by simp) rfl
  have hb' : ys.head?.getD d ∉ (ys++[d]).tail := (List.nodup_cons.mp (hfirst ▸ hy)).1
  refine (hxs.join ha' hb).append (hys.join (by rwa [List.dropLast_concat]) hb') ?_
  intro x hxm y hym
  obtain rfl : xs.getLast?.getD c = x := by simpa [List.getLast?_cons] using hxm
  obtain rfl : ys.head?.getD d = y := by simpa [List.head?_append, Option.getD_or] using hym
  exact linked_join ..

end Join

section Rings
variable {h : Links α} {head a b : α} {xs ys : List α}

theorem Path.left (hp : Path h (xs++ys)) : Path h xs := List.IsChain.left_of_append hp

theorem Path.right (hp : Path h (xs++ys)) : Path h ys := List.IsChain.right_of_append hp

theorem Path.linked (hp : Path h (xs++a::b::ys)) : Linked h a b :=
  (List.isChain_append_cons_cons.mp hp).2.1

theorem ring_nil_iff : Ring h head [] ↔ Linked h head head :=
  ⟨fun hr => List.isChain_pair.mp hr.path,
    fun hl => ⟨List.nodup_singleton head,List.isChain_pair.mpr hl⟩⟩

theorem Ring.head_not_mem (hr : Ring h head xs) : head ∉ xs := (List.nodup_cons.mp hr.nodup).1

theorem Path.next_first (hp : Path h (a::xs++[head])) : h.next a = xs.head?.getD head :=
  hp.forward.next_first

theorem Ring.next_head (hr : Ring h head xs) : h.next head = xs.head?.getD head :=
  Path.next_first hr.path

theorem Ring.prev_head (hr : Ring h head xs) : h.prev head = xs.getLast?.getD head := by
  induction xs using List.reverseRecOn with
  | nil => exact (ring_nil_iff.mp hr).2
  | append_singleton xs x ih =>
    have hp := hr.path
    rw [← List.cons_append, List.append_assoc] at hp
    rw [List.getLast?_concat, Option.getD_some]
    exact (Path.linked hp).2

theorem Ring.neighbours {e : α} (hr : Ring h head (xs++e::ys)) :
    h.prev e = xs.getLast?.getD head ∧ h.next e = ys.head?.getD head := by
  have hpath := hr.path
  rw [← List.cons_append, List.append_assoc] at hpath
  refine ⟨?_,Path.next_first hpath.right⟩
  obtain ⟨ps,hps⟩ : ∃ ps, head::xs = ps++[xs.getLast?.getD head] :=
    ⟨(head::xs).dropLast,(List.dropLast_append_getLast? _ (by simp [List.getLast?_cons])).symm⟩
  rw [hps, List.append_assoc] at hpath
  exact (Path.linked hpath).2

end Rings

section Operations
variable {h : Links α} {head a b new : α} {xs ys zs : List α}

structure Sides (h : Links α) (head : α) (xs ys : List α) : Prop where
  left : Path h (head::xs)
  right : Path h (ys++[head])
  leftNodup : (head::xs).Nodup
  rightNodup : (ys++[head]).Nodup
  last : xs.getLast?.getD head ∉ ys
  first : ys.head?.getD head ∉ xs

theorem Ring.sides (hr : Ring h head (xs++ys)) : Sides h head xs ys := by
  have hpath := hr.path
  rw [← List.cons_append, List.append_assoc] at hpath
  obtain ⟨hx,hy,hxy⟩ := List.nodup_append.mp (show (head::xs++ys).Nodup from hr.nodup)
  have hfirst := first_mem ys head
  refine ⟨hpath.left,hpath.right,hx,?_,fun hm => hxy _ (last_mem head xs) _ hm rfl,fun hm => ?_⟩
  · exact List.nodup_append.mpr ⟨hy,List.nodup_singleton head,fun y hym z hz he =>
      hxy z (List.mem_singleton.mp hz ▸ .head xs) y hym he.symm⟩
  · rcases List.mem_append.mp hfirst with hf | hf
    · exact hxy _ (.tail head hm) _ hf rfl
    · exact (List.nodup_cons.mp hx).1 (List.mem_singleton.mp hf ▸ hm)

theorem sides_of_between (hr : Ring h head (xs++zs++ys)) : Sides h head xs ys := by
  have hl := (show Ring h head (xs++(zs++ys)) by rwa [← List.append_assoc]).sides
  have hr' := hr.sides
  refine ⟨hl.left,hr'.right,hl.leftNodup,hr'.rightNodup,fun hm => ?_,fun hm => ?_⟩
  · exact hl.last (List.mem_append_right zs hm)
  · exact hr'.first (List.mem_append_left zs hm)

variable [DecidableEq α]

theorem Ring.set_next (hr : Ring h head xs) (ha : a ∉ head::xs) :
    Ring (setNext a b h) head xs :=
  ⟨hr.nodup,hr.path.set_next (by rwa [List.dropLast_concat])⟩

theorem Ring.set_prev (hr : Ring h head xs) (hb : b ∉ head::xs) :
    Ring (setPrev b a h) head xs := by
  refine ⟨hr.nodup,hr.path.set_prev ?_⟩
  simpa [and_comm] using hb

theorem Ring.join (hr : Ring h head xs) (ha : a ∉ head::xs) (hb : b ∉ head::xs) :
    Ring (join a b h) head xs :=
  (hr.set_next ha).set_prev hb

theorem ring_self (a : α) (h : Links α) : Ring (join a a h) a [] :=
  ring_nil_iff.mpr (linked_join a a h)

theorem Sides.close (hs : Sides h head xs ys) :
    Path (LinkedRing.join (xs.getLast?.getD head) (ys.head?.getD head) h)
      (head::xs++(ys++[head])) :=
  path_bridge hs.left hs.right hs.leftNodup hs.rightNodup hs.last hs.first

theorem Ring.remove (hr : Ring h head (xs++zs++ys)) :
    Ring (LinkedRing.join (xs.getLast?.getD head) (ys.head?.getD head) h) head (xs++ys) := by
  refine ⟨hr.nodup.sublist ?_,?_⟩
  · exact .cons_cons head ((List.sublist_append_left xs zs).append_right ys)
  · have hclose := (sides_of_between hr).close
    rwa [← List.append_assoc] at hclose

theorem Ring.insert (hr : Ring h head (xs++ys)) (hnew : new ∉ head::(xs++ys)) :
    Ring (LinkedRing.join (xs.getLast?.getD head) new
      (LinkedRing.join new (ys.head?.getD head) h)) head (xs++new::ys) := by
  have hs := hr.sides
  obtain ⟨hnx,hny⟩ := not_or.mp ((List.mem_append.not.mp (show ¬new ∈ head::xs++ys from hnew)))
  have hnh : new ≠ head := fun he => hnx (he ▸ .head xs)
  have hright : Path (LinkedRing.join new (ys.head?.getD head) h) ([new]++(ys++[head])) :=
    path_bridge (.singleton new) hs.right (List.nodup_singleton new) hs.rightNodup hny
      List.not_mem_nil
  have hleft : Path (LinkedRing.join new (ys.head?.getD head) h) (head::xs) :=
    hs.left.join (fun hm => hnx (List.dropLast_subset _ hm)) hs.first
  have hnodup : (new::ys++[head]).Nodup := by
    refine List.nodup_cons.mpr ⟨fun hm => ?_,hs.rightNodup⟩
    exact (List.mem_append.mp hm).elim hny fun hm => hnh (List.mem_singleton.mp hm)
  have hlast : xs.getLast?.getD head ∉ new::ys := fun hm => (List.mem_cons.mp hm).elim
    (fun he => hnx (he ▸ last_mem head xs)) hs.last
  have hpath : Path (LinkedRing.join (xs.getLast?.getD head) new
      (LinkedRing.join new (ys.head?.getD head) h)) (head::xs++(new::ys++[head])) :=
    path_bridge hleft hright hs.leftNodup hnodup hlast fun hm => hnx (.tail head hm)
  have hall : (head::xs++new::ys).Nodup :=
    List.nodup_middle.mpr (List.nodup_cons.mpr ⟨hnew,hr.nodup⟩)
  rw [← List.append_assoc] at hpath
  exact ⟨hall,hpath⟩

end Operations

section Loops
variable {σ : Type*} [DecidableEq α] (links : σ → Links α) (body : α → σ → Option (Bool × σ))
  (head : α)

/-- The successor is read before the body runs. The body tells whether to go on, and has
no value at a node it was not made for. -/
def walkSafe : ℕ → α → α → σ → Option σ
  | 0, _, _, _ => none
  | k+1, pos, n, s =>
    if pos = head then some s
    else (body pos s).bind fun r =>
      if r.1 then walkSafe k n ((links r.2).next n) r.2 else some r.2

def walk : ℕ → α → σ → Option σ
  | 0, _, _ => none
  | k+1, pos, s =>
    if pos = head then some s
    else (body pos s).bind fun r => if r.1 then walk k ((links r.2).next pos) r.2 else some r.2

def visit : List α → σ → Option σ
  | [], s => some s
  | x::xs, s => (body x s).bind fun r => if r.1 then visit xs r.2 else some r.2

/-- A walk that reads ahead visits the entries in order if the ones that are left stay
linked, whatever the body does with the others. -/
theorem walk_safe_visits (P : List α → σ → Prop)
    (hpath : ∀ xs s, P xs s → Path (links s) (xs++[head]) ∧ head ∉ xs)
    (hbody : ∀ x xs s t, P (x::xs) s → body x s = some (true,t) → P xs t)
    {xs : List α} {s : σ} {k : ℕ} (hs : P xs s) (hk : xs.length < k) :
    walkSafe links body head k (xs.head?.getD head) ((links s).next (xs.head?.getD head)) s =
      visit body xs s := by
  induction xs generalizing s k with
  | nil =>
    obtain ⟨k,rfl⟩ := Nat.exists_eq_succ_of_ne_zero (Nat.ne_of_gt hk)
    exact if_pos rfl
  | cons x xs ih =>
    obtain ⟨k,rfl⟩ := Nat.exists_eq_succ_of_ne_zero (Nat.ne_of_gt (Nat.zero_lt_of_lt hk))
    obtain ⟨hp,hhead⟩ := hpath _ s hs
    have hx : x ≠ head := fun he => hhead (he ▸ .head xs)
    rw [List.head?_cons, Option.getD_some, hp.next_first, walkSafe, if_neg hx, visit]
    refine Option.bind_congr fun r hr => ?_
    obtain ⟨go,t⟩ := r
    cases go with
    | true => exact ih (hbody x xs s t hs hr) (Nat.lt_of_succ_lt_succ hk)
    | false => rfl

theorem walk_visits (P : List α → σ → Prop) (hhead : ∀ xs s, P xs s → head ∉ xs)
    (hbody : ∀ x xs s t, P (x::xs) s → body x s = some (true,t) →
      (links t).next x = xs.head?.getD head ∧ P xs t)
    {xs : List α} {s : σ} {k : ℕ} (hs : P xs s) (hk : xs.length < k) :
    walk links body head k (xs.head?.getD head) s = visit body xs s := by
  induction xs generalizing s k with
  | nil =>
    obtain ⟨k,rfl⟩ := Nat.exists_eq_succ_of_ne_zero (Nat.ne_of_gt hk)
    exact if_pos rfl
  | cons x xs ih =>
    obtain ⟨k,rfl⟩ := Nat.exists_eq_succ_of_ne_zero (Nat.ne_of_gt (Nat.zero_lt_of_lt hk))
    have hx : x ≠ head := fun he => hhead _ s hs (he ▸ .head xs)
    rw [List.head?_cons, Option.getD_some, walk, if_neg hx, visit]
    refine Option.bind_congr fun r hr => ?_
    obtain ⟨go,t⟩ := r
    cases go with
    | true =>
      obtain ⟨hn,ht⟩ := hbody x xs s t hs hr
      simp only [if_true, hn]
      exact ih ht (Nat.lt_of_succ_lt_succ hk)
    | false => rfl

end Loops

end LinkedRing
