import Maruswap.GuardedRun
import Maruswap.LinkedRing

/-!
# list_head.h

The intrusive lists of both sides, store by store. An abstract state gives every
list head its entries; what the stores do to the links is what the operations do to
these lists, over any sequence of them and any number of lists.
-/

set_option autoImplicit false

namespace Maruswap.ListHead
open LinkedRing GuardedRun

variable {α : Type*} [DecidableEq α]

def initListHead (list : α) (h : Links α) : Links α :=
  setPrev list list (setNext list list h)

/-- `__list_add` -/
def listAddBetween (new prev next : α) (h : Links α) : Links α :=
  setNext prev new (setPrev new prev (setNext new next (setPrev next new h)))

def listAdd (new head : α) (h : Links α) : Links α := listAddBetween new head (h.next head) h

def listAddTail (new head : α) (h : Links α) : Links α :=
  listAddBetween new (h.prev head) head h

/-- `__list_del` -/
def listDelBetween (prev next : α) (h : Links α) : Links α :=
  setNext prev next (setPrev next prev h)

/-- `__list_del_entry` -/
def listDelEntry (entry : α) (h : Links α) : Links α :=
  listDelBetween (h.prev entry) (h.next entry) h

/-- The entry is left with `LIST_POISON1` and `LIST_POISON2`. -/
def listDel (poison1 poison2 entry : α) (h : Links α) : Links α :=
  setPrev entry poison2 (setNext entry poison1 (listDelEntry entry h))

def listDelInit (entry : α) (h : Links α) : Links α := initListHead entry (listDelEntry entry h)

def listEmpty (head : α) (h : Links α) : Bool := h.next head = head

/-- `list_for_each_entry`, collecting the entries. -/
def listForEachEntry (head : α) (k : ℕ) (h : Links α) : Option (List α) :=
  (walk Prod.fst (fun x s => some (true,(s.1,s.2++[x]))) head k (h.next head) (h,[])).map Prod.snd

section Rings
variable {h : Links α} {head a b e new : α} {xs ys as : List α}

theorem list_add_between_eq (new prev next : α) (h : Links α) :
    listAddBetween new prev next h = join prev new (join new next h) := rfl

theorem list_del_between_eq (prev next : α) (h : Links α) :
    listDelBetween prev next h = join prev next h := rfl

theorem init_list_head_ring (list : α) (h : Links α) : Ring (initListHead list h) list [] :=
  ring_self list h

theorem init_list_head_frame (ha : Ring h a as) (hl : e ∉ a::as) : Ring (initListHead e h) a as :=
  ha.join hl hl

theorem list_add_ring (hr : Ring h head xs) (hnew : new ∉ head::xs) :
    Ring (listAdd new head h) head (new::xs) := by
  rw [listAdd, list_add_between_eq, hr.next_head]
  exact (show Ring h head ([]++xs) from hr).insert hnew

theorem list_add_tail_ring (hr : Ring h head xs) (hnew : new ∉ head::xs) :
    Ring (listAddTail new head h) head (xs++[new]) := by
  rw [listAddTail, list_add_between_eq, hr.prev_head]
  rw [← List.append_nil xs] at hr hnew
  simpa using hr.insert hnew

theorem list_del_entry_ring (hr : Ring h head (xs++e::ys)) :
    Ring (listDelEntry e h) head (xs++ys) := by
  obtain ⟨hp,hn⟩ := hr.neighbours
  rw [listDelEntry, list_del_between_eq, hp, hn]
  rw [List.append_cons] at hr
  exact hr.remove

theorem list_del_init_ring (hr : Ring h head (xs++e::ys)) :
    Ring (listDelInit e h) head (xs++ys) ∧ Ring (listDelInit e h) e [] := by
  have he : e ∉ head::(xs++ys) :=
    (List.nodup_cons.mp (List.nodup_middle.mp (show (head::xs++e::ys).Nodup from hr.nodup))).1
  exact ⟨init_list_head_frame (list_del_entry_ring hr) he,init_list_head_ring e _⟩

theorem list_del_ring (poison1 poison2 : α) (hr : Ring h head (xs++e::ys)) :
    Ring (listDel poison1 poison2 e h) head (xs++ys) := by
  have he : e ∉ head::(xs++ys) :=
    (List.nodup_cons.mp (List.nodup_middle.mp (show (head::xs++e::ys).Nodup from hr.nodup))).1
  exact ((list_del_entry_ring hr).set_next he).set_prev he

theorem list_empty_iff (hr : Ring h head xs) : listEmpty head h = true ↔ xs = [] := by
  rw [listEmpty, decide_eq_true_iff, hr.next_head]
  cases xs with
  | nil => simp
  | cons x xs =>
    have hx : x ≠ head := fun he => hr.head_not_mem (he ▸ .head xs)
    simpa using hx

theorem list_add_frame (hr : Ring h head xs) (ha : Ring h a as) (hnew : new ∉ a::as)
    (hapart : (head::xs).Disjoint (a::as)) : Ring (listAdd new head h) a as := by
  have hn : h.next head ∉ a::as := by
    rw [hr.next_head]
    exact fun hm => hapart (by simpa [or_comm] using first_mem xs head) hm
  exact (ha.join hnew hn).join (hapart (.head xs)) hnew

theorem list_add_tail_frame (hr : Ring h head xs) (ha : Ring h a as) (hnew : new ∉ a::as)
    (hapart : (head::xs).Disjoint (a::as)) : Ring (listAddTail new head h) a as := by
  have hp : h.prev head ∉ a::as := by
    rw [hr.prev_head]
    exact hapart (last_mem head xs)
  exact (ha.join hnew (hapart (.head xs))).join hp hnew

theorem list_del_entry_frame (hr : Ring h head (xs++e::ys)) (ha : Ring h a as)
    (hapart : (head::(xs++e::ys)).Disjoint (a::as)) : Ring (listDelEntry e h) a as := by
  obtain ⟨hp,hn⟩ := hr.neighbours
  have hlast := last_mem head xs
  have hfirst := first_mem ys head
  refine ha.join (fun hm => hapart ?_ hm) (fun hm => hapart ?_ hm)
  · rw [hp]
    simp only [List.mem_cons, List.mem_append] at hlast ⊢
    tauto
  · rw [hn]
    simp only [List.mem_cons, List.mem_append] at hfirst ⊢
    tauto

end Rings

abbrev Lists (α : Type*) := α → Option (List α)

/-- The list of a deleted entry is not among the arguments in the source. -/
inductive Op (α : Type*) where
  | init (list : α)
  | add (new head : α)
  | addTail (new head : α)
  | del (entry head : α)
  | delInit (entry head : α)

def exec (poison1 poison2 : α) : Op α → Links α → Links α
  | .init list => initListHead list
  | .add new head => listAdd new head
  | .addTail new head => listAddTail new head
  | .del entry _ => listDel poison1 poison2 entry
  | .delInit entry _ => listDelInit entry

def change (head : α) (f : List α → List α) (L : Lists α) : Lists α :=
  Function.update L head ((L head).map f)

def effect : Op α → Lists α → Lists α
  | .init list, L => Function.update L list (some [])
  | .add new head, L => change head (new::·) (Function.update L new none)
  | .addTail new head, L => change head (·++[new]) (Function.update L new none)
  | .del entry head, L => change head (·.erase entry) L
  | .delInit entry head, L =>
    Function.update (change head (·.erase entry) L) entry (some [])

/-- On no list, and not the head of one with entries. -/
structure Loose (L : Lists α) (a : α) : Prop where
  head : ∀ xs, L a = some xs → xs = []
  entry : ∀ b xs, L b = some xs → a ∉ xs

def Allowed : Op α → Lists α → Prop
  | .init list, L => Loose L list
  | .add new head, L => Loose L new ∧ new ≠ head ∧ (L head).isSome
  | .addTail new head, L => Loose L new ∧ new ≠ head ∧ (L head).isSome
  | .del entry head, L => ∃ xs, L head = some xs ∧ entry ∈ xs
  | .delInit entry head, L => ∃ xs, L head = some xs ∧ entry ∈ xs

def Apart (L : Lists α) : Prop :=
  ∀ a b xs ys, a ≠ b → L a = some xs → L b = some ys → (a::xs).Disjoint (b::ys)

structure Represents (h : Links α) (L : Lists α) : Prop where
  ring : ∀ a xs, L a = some xs → Ring h a xs
  apart : Apart L

def step (poison1 poison2 : α) (op : Op α) (s : Links α × Lists α) :
    Option (Links α × Lists α) :=
  some (exec poison1 poison2 op s.1,effect op s.2)

section Represents
variable {poison1 poison2 : α} {h k : Links α} {L : Lists α} {head a e new list : α}
  {xs ys as : List α}

theorem represents_update (hhead : Ring k head xs) (hapart : Apart L)
    (hrest : ∀ b ys, b ≠ head → L b = some ys → Ring k b ys ∧ (head::xs).Disjoint (b::ys)) :
    Represents k (Function.update L head (some xs)) := by
  constructor
  · intro a as ha
    by_cases hah : a = head
    · subst hah
      obtain rfl : xs = as := by simpa using ha
      exact hhead
    · rw [Function.update_of_ne hah] at ha
      exact (hrest a as hah ha).1
  · intro a b as bs hab ha hb
    by_cases hah : a = head
    · subst hah
      obtain rfl : xs = as := by simpa using ha
      rw [Function.update_of_ne (Ne.symm hab)] at hb
      exact (hrest b bs (Ne.symm hab) hb).2
    · rw [Function.update_of_ne hah] at ha
      by_cases hbh : b = head
      · subst hbh
        obtain rfl : xs = bs := by simpa using hb
        exact List.disjoint_symm (hrest a as hah ha).2
      · rw [Function.update_of_ne hbh] at hb
        exact hapart a b as bs hab ha hb

theorem drop_some (hb : Function.update L new none a = some ys) : a ≠ new ∧ L a = some ys := by
  have ha : a ≠ new := by
    rintro rfl
    simp at hb
  exact ⟨ha,by rwa [Function.update_of_ne ha] at hb⟩

theorem Represents.drop (hr : Represents h L) (new : α) :
    Represents h (Function.update L new none) := by
  refine ⟨fun a xs ha => hr.ring a xs (drop_some ha).2,fun a b xs ys hab ha hb => ?_⟩
  exact hr.apart a b xs ys hab (drop_some ha).2 (drop_some hb).2

theorem init_represents (hr : Represents h L) (hl : Loose L list) :
    Represents (initListHead list h) (effect (.init list) L) := by
  refine represents_update (init_list_head_ring list h) hr.apart fun b ys hb hy => ?_
  have hm : list ∉ b::ys := by simpa [Ne.symm hb] using hl.entry b ys hy
  exact ⟨init_list_head_frame (hr.ring b ys hy) hm,by simpa using hm⟩

theorem insert_represents (hr : Represents h L) (hl : Loose L new) (hne : new ≠ head)
    (hhead : L head = some xs) (hys : ∀ y ∈ ys, y = new ∨ y ∈ xs)
    (hring : Ring k head ys)
    (hframe : ∀ b bs, Ring h b bs → new ∉ b::bs → (head::xs).Disjoint (b::bs) → Ring k b bs) :
    Represents k (Function.update (Function.update L new none) head (some ys)) := by
  refine represents_update hring (hr.drop new).apart fun b bs hb hbs => ?_
  obtain ⟨hbn,hbs⟩ := drop_some hbs
  have hm : new ∉ b::bs := by simpa [Ne.symm hbn] using hl.entry b bs hbs
  have hd := hr.apart head b xs bs (Ne.symm hb) hhead hbs
  refine ⟨hframe b bs (hr.ring b bs hbs) hm hd,fun x hx hxb => ?_⟩
  rcases List.mem_cons.mp hx with rfl | hx
  · exact hd (.head xs) hxb
  · rcases hys x hx with rfl | hx
    · exact hm hxb
    · exact hd (.tail head hx) hxb

theorem remove_represents (hr : Represents h L) (hhead : L head = some (xs++e::ys))
    (hring : Ring k head (xs++ys))
    (hframe : ∀ b bs, Ring h b bs → (head::(xs++e::ys)).Disjoint (b::bs) → Ring k b bs) :
    Represents k (Function.update L head (some (xs++ys))) := by
  refine represents_update hring hr.apart fun b bs hb hbs => ?_
  have hd := hr.apart head b _ bs (Ne.symm hb) hhead hbs
  refine ⟨hframe b bs (hr.ring b bs hbs) hd,fun x hx => hd ?_⟩
  simp only [List.mem_cons, List.mem_append] at hx ⊢
  tauto

theorem change_eq (f : List α → List α) (h : L head = some xs) :
    change head f L = Function.update L head (some (f xs)) := by
  rw [change, h, Option.map_some]

theorem add_eq (f : List α → List α) (hne : new ≠ head) (h : L head = some xs) :
    change head f (Function.update L new none) =
      Function.update (Function.update L new none) head (some (f xs)) :=
  change_eq f (by rwa [Function.update_of_ne (Ne.symm hne)])

theorem erase_eq (hm : e ∈ xs) (h : L head = some xs) : ∃ as bs, L head = some (as++e::bs) ∧
    change head (·.erase e) L = Function.update L head (some (as++bs)) := by
  obtain ⟨as,bs,-,rfl,herase⟩ := List.exists_erase_eq hm
  exact ⟨as,bs,h,by rw [change_eq _ h, herase]⟩

theorem step_represents (op : Op α) (hr : Represents h L) (hok : Allowed op L) :
    Represents (exec poison1 poison2 op h) (effect op L) := by
  cases op with
  | init list => exact init_represents hr hok
  | add new head =>
    obtain ⟨hl,hne,hhead⟩ := hok
    obtain ⟨xs,hx⟩ := Option.isSome_iff_exists.mp hhead
    have hring := hr.ring head xs hx
    have hnew : new ∉ head::xs := by simpa [hne] using hl.entry head xs hx
    rw [effect, add_eq _ hne hx]
    exact insert_represents hr hl hne hx (by simp) (list_add_ring hring hnew)
      fun b bs hb hm hd => list_add_frame hring hb hm hd
  | addTail new head =>
    obtain ⟨hl,hne,hhead⟩ := hok
    obtain ⟨xs,hx⟩ := Option.isSome_iff_exists.mp hhead
    have hring := hr.ring head xs hx
    have hnew : new ∉ head::xs := by simpa [hne] using hl.entry head xs hx
    rw [effect, add_eq _ hne hx]
    exact insert_represents hr hl hne hx (by simp [or_comm]) (list_add_tail_ring hring hnew)
      fun b bs hb hm hd => list_add_tail_frame hring hb hm hd
  | del entry head =>
    obtain ⟨xs,hx,hm⟩ := hok
    obtain ⟨as,bs,hx,he⟩ := erase_eq hm hx
    have hring := hr.ring head _ hx
    rw [effect, he]
    refine remove_represents hr hx (list_del_ring poison1 poison2 hring) fun b cs hb hd => ?_
    have hentry : entry ∉ b::cs := hd (by simp)
    exact ((list_del_entry_frame hring hb hd).set_next hentry).set_prev hentry
  | delInit entry head =>
    obtain ⟨xs,hx,hm⟩ := hok
    obtain ⟨as,bs,hx,he⟩ := erase_eq hm hx
    have hring := hr.ring head _ hx
    obtain ⟨hleft,hself⟩ := list_del_init_ring hring
    have hrest := remove_represents hr hx hleft fun b cs hb hd =>
      init_list_head_frame (list_del_entry_frame hring hb hd) (hd (by simp))
    rw [effect, he]
    refine represents_update hself hrest.apart fun b cs hb hcs => ⟨hrest.ring b cs hcs,?_⟩
    have hentry : entry ∉ b::cs := by
      by_cases hbh : b = head
      · subst hbh
        obtain rfl : as++bs = cs := by simpa using hcs
        exact (List.nodup_cons.mp (List.nodup_middle.mp
          (show (b::as++entry::bs).Nodup from hring.nodup))).1
      · rw [Function.update_of_ne hbh] at hcs
        exact hr.apart head b _ cs (Ne.symm hbh) hx hcs (by simp)
    simpa using hentry

/-- What can be read off the links of a list: its entries by a walk, and whether it
is empty. -/
structure ReadsOff (h : Links α) (head : α) (xs : List α) : Prop where
  entries : ∀ k, xs.length < k → listForEachEntry head k h = some xs
  empty : listEmpty head h = true ↔ xs = []

omit [DecidableEq α] in
theorem visit_collects (h : Links α) (xs ys : List α) :
    visit (fun x s => some (true,(s.1,s.2++[x]))) xs (h,ys) = some (h,ys++xs) := by
  induction xs generalizing ys with
  | nil => simp [visit]
  | cons x xs ih => simp [visit, ih]

theorem ring_reads_off (hr : Ring h head xs) : ReadsOff h head xs := by
  refine ⟨fun k hk => ?_,list_empty_iff hr⟩
  have hpath : Path h ([head]++(xs++[head])) := hr.path
  have hs : Path (h,([] : List α)).1 (xs++[head]) ∧ head ∉ xs := ⟨hpath.right,hr.head_not_mem⟩
  rw [listForEachEntry, hr.next_head, walk_visits Prod.fst _ head
    (fun ys s => Path s.1 (ys++[head]) ∧ head ∉ ys) (fun _ _ hs => hs.2) ?_ hs hk,
    visit_collects]
  · rfl
  · rintro x ys s t ⟨hp,hx⟩ ht
    obtain rfl : (s.1,s.2++[x]) = t := by simpa using ht
    have htail : Path s.1 ([x]++(ys++[head])) := hp
    exact ⟨hp.next_first,htail.right,fun hm => hx (.tail x hm)⟩

/-- Over any sequence of operations on any number of lists, each allowed where it is
made, the links are those of the abstract lists, and these can be read off them. -/
theorem lists_refined {ops : List (Op α)} {s t : Links α × Lists α}
    (hs : Represents s.1 s.2)
    (hok : Meets (step poison1 poison2) (fun op s => Allowed op s.2) ops s)
    (h : run (step poison1 poison2) ops s = some t) :
    Represents t.1 t.2 ∧ ∀ head xs, t.2 head = some xs → ReadsOff t.1 head xs := by
  have hstep : ∀ (op : Op α) (u v : Links α × Lists α), Represents u.1 u.2 → Allowed op u.2 →
      step poison1 poison2 op u = some v → Represents v.1 v.2 :=
    fun op u v hu hok hv => Option.some.inj hv ▸ step_represents op hu hok
  have ht : Represents t.1 t.2 := run_invariant hstep hs hok h
  exact ⟨ht,fun head xs hx => ring_reads_off (ht.ring head xs hx)⟩

end Represents

def sampleOps : List (Op ℕ) := [.init 0,.add 1 0,.addTail 2 0,.delInit 1 0]

theorem lists_refined_sample : ∃ t : Links ℕ × Lists ℕ,
    run (step 8 9) sampleOps (⟨fun _ => 0,fun _ => 0⟩,fun _ => none) = some t ∧
      ReadsOff t.1 0 [2] := by
  have hs : Represents (⟨fun _ => 0,fun _ => 0⟩ : Links ℕ) fun _ => none :=
    ⟨fun _ _ h => absurd h (by simp),fun _ _ _ _ _ h => absurd h (by simp)⟩
  have hok : Meets (step 8 9) (fun op s => Allowed op s.2) sampleOps
      ((⟨fun _ => 0,fun _ => 0⟩ : Links ℕ),fun _ => none) := by
    refine ⟨⟨by simp,by simp⟩,fun t ht => ?_⟩
    obtain rfl := Option.some.inj ht
    refine ⟨⟨⟨by simp [effect],fun b xs hb => ?_⟩,by decide,rfl⟩,fun t ht => ?_⟩
    · by_cases h0 : b = 0
      · subst h0
        obtain rfl : [] = xs := by simpa [effect] using hb
        decide
      · simp [effect, h0] at hb
    obtain rfl := Option.some.inj ht
    refine ⟨⟨⟨by simp [effect, change],fun b xs hb => ?_⟩,by decide,rfl⟩,fun t ht => ?_⟩
    · by_cases h0 : b = 0
      · subst h0
        obtain rfl : [1] = xs := by simpa [effect, change] using hb
        decide
      · by_cases h1 : b = 1 <;> simp [effect, change, h0, h1] at hb
    obtain rfl := Option.some.inj ht
    exact ⟨⟨[1,2],rfl,by decide⟩,fun _ _ => trivial⟩
  obtain ⟨-,hread⟩ := lists_refined hs hok rfl
  exact ⟨_,rfl,hread 0 [2] (by decide)⟩

end Maruswap.ListHead
