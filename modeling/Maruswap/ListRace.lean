import Maruswap.ListHead

/-!
# A list insertion against a drain

The FLOW handler puts a receive work on the commit list before it takes the lock, and
a commit drains the list under it. The five accesses of `list_add` fall between the seven
of each round of the drain in any way. What becomes of the new entry depends on no more
than how the first three of them stand to three accesses of a deletion.
-/

set_option autoImplicit false

namespace Maruswap.ListRace
open LinkedRing ListHead GuardedRun

variable {α : Type*} [DecidableEq α]

/-- The access of `list_add` that comes next; `n` is `head->next` as it was read. -/
inductive Insert (α : Type*) where
  | load
  | prevOfNext (n : α)
  | nextOfNew (n : α)
  | prevOfNew
  | nextOfHead
  | done

/-- How far the draining loop has come; `n` is the entry it has read ahead, `p` and `q` are
the neighbours of `pos` as `list_del_init` has read them. -/
inductive Drain (α : Type*) where
  | start
  | first (pos : α)
  | on (pos n : α)
  | prevRead (pos n p : α)
  | bothRead (pos n p q : α)
  | backed (pos n p q : α)
  | unlinked (pos n : α)
  | selfNext (pos n : α)
  | advance (n : α)
  | done

structure Race (α : Type*) where
  links : Links α
  insert : Insert α
  drain : Drain α

inductive Label where
  | insert
  | drain

def insertStep (new head : α) (s : Race α) : Option (Race α) :=
  match s.insert with
  | .load => some { s with insert := .prevOfNext (s.links.next head) }
  | .prevOfNext n => some { s with links := setPrev n new s.links, insert := .nextOfNew n }
  | .nextOfNew n => some { s with links := setNext new n s.links, insert := .prevOfNew }
  | .prevOfNew => some { s with links := setPrev new head s.links, insert := .nextOfHead }
  | .nextOfHead => some { s with links := setNext head new s.links, insert := .done }
  | .done => none

def drainStep (head : α) (s : Race α) : Option (Race α) :=
  match s.drain with
  | .start => some { s with drain := .first (s.links.next head) }
  | .first pos => some { s with drain := .on pos (s.links.next pos) }
  | .on pos n =>
    if pos = head then some { s with drain := .done }
    else some { s with drain := .prevRead pos n (s.links.prev pos) }
  | .prevRead pos n p => some { s with drain := .bothRead pos n p (s.links.next pos) }
  | .bothRead pos n p q => some { s with
      links := setPrev q p s.links, drain := .backed pos n p q }
  | .backed pos n p q => some { s with links := setNext p q s.links, drain := .unlinked pos n }
  | .unlinked pos n => some { s with links := setNext pos pos s.links, drain := .selfNext pos n }
  | .selfNext pos n => some { s with links := setPrev pos pos s.links, drain := .advance n }
  | .advance n => some { s with drain := .on n (s.links.next n) }
  | .done => none

def step (new head : α) : Label → Race α → Option (Race α)
  | .insert => insertStep new head
  | .drain => drainStep head

def initRace (h : Links α) : Race α := ⟨h,.load,.start⟩

/-! Left to themselves, the accesses are those of list_head.h. -/

example (new head : α) (h : Links α) (d : Drain α) :
    run (step new head) (List.replicate 5 .insert) ⟨h,.load,d⟩ =
      some ⟨listAdd new head h,.done,d⟩ := rfl

example (new head pos n : α) (h : Links α) (i : Insert α) :
    run (step new head) (List.replicate 5 .drain) ⟨h,i,.prevRead pos n (h.prev pos)⟩ =
      some ⟨listDelInit pos h,i,.advance n⟩ := rfl

def Insert.loads : Insert α → Bool
  | .load => true
  | _ => false

/-- `head->next` has been read, and nothing written. -/
def Insert.isRead : Insert α → Bool
  | .prevOfNext _ => true
  | _ => false

/-- The next entry points back to the new one, which does not point to it yet. -/
def Insert.isHalf : Insert α → Bool
  | .nextOfNew _ => true
  | _ => false

/-- The deletion of an entry begins, with the load of its predecessor. -/
def Drain.deletes (head : α) : Drain α → Bool
  | .on pos _ => pos ≠ head
  | _ => false

def Drain.takes : Drain α → Option α
  | .prevRead pos _ _ => some pos
  | .bothRead pos _ _ _ => some pos
  | .backed pos _ _ _ => some pos
  | _ => none

/-- The last entry is taken out, with the store to its predecessor. -/
def Drain.closes (head : α) : Drain α → Bool
  | .backed _ _ _ q => q = head
  | _ => false

/-- From the load of its predecessor to the store there, no deletion overlaps the insertion
from the load of `head->next` to the store to the entry it found; and the last store there
does not come between that and the store to the new entry. -/
def Careful (head : α) : Label → Race α → Prop
  | .insert, s => ¬(s.insert.loads ∧ s.drain.takes.isSome)
  | .drain, s => ¬(s.insert.isRead ∧ s.drain.deletes head) ∧
    ¬(s.insert.isHalf ∧ s.drain.closes head)

instance decidableCareful (head : α) : (l : Label) → (s : Race α) → Decidable (Careful head l s)
  | .insert, _ => inferInstanceAs (Decidable (¬_))
  | .drain, _ => inferInstanceAs (Decidable (_ ∧ _))

/-- The new entry is on the list, or the drain has had it. -/
def Sound (new head : α) (h : Links α) : Prop :=
  Ring h head [new] ∨ Ring h head [] ∧ Ring h new []

/-! The drain, wherever the first entry points back to. -/

/-- The entry that has been taken out and still points onwards. -/
def Drain.unlinks : Drain α → Option α
  | .unlinked pos _ => some pos
  | _ => none

/-- The one that has been taken out and still points back. -/
def Drain.selfs : Drain α → Option α
  | .selfNext pos _ => some pos
  | _ => none

/-- The drain has the entries `ys` before it. -/
def Stands (head : α) (ys : List α) : Drain α → Prop
  | .start => True
  | .first pos => pos = ys.head?.getD head
  | .on pos n => pos = ys.head?.getD head ∧ ∀ y zs, ys = y::zs → n = zs.head?.getD head
  | .prevRead pos n _ => ∃ zs, ys = pos::zs ∧ n = zs.head?.getD head
  | .bothRead pos n _ q => ∃ zs, ys = pos::zs ∧ n = zs.head?.getD head ∧ q = n
  | .backed pos n _ q => ∃ zs, ys = pos::zs ∧ n = zs.head?.getD head ∧ q = n
  | .unlinked pos n => n = ys.head?.getD head ∧ pos ∉ ys++[head]
  | .selfNext pos n => n = ys.head?.getD head ∧ pos ∉ ys++[head]
  | .advance n => n = ys.head?.getD head
  | .done => ys = []

/-- The first of them points back to `a`, or the drain has read that it did. -/
def Anchored (h : Links α) (a head : α) (ys : List α) : Drain α → Prop
  | .prevRead _ _ p => p = a
  | .bothRead _ _ p _ => p = a
  | .backed _ _ p q => p = a ∧ h.prev q = a
  | _ => h.prev (ys.head?.getD head) = a

structure Draining (h : Links α) (a head : α) (ys : List α) (d : Drain α) : Prop where
  nodup : (ys++[head]).Nodup
  forward : Forward h (ys++[head])
  stands : Stands head ys d
  anchored : Anchored h a head ys d

/-- A step of the drain that neither reads the predecessor of an entry nor takes it out. -/
structure Quiet (a head : α) (ys : List α) (s t : Race α) : Prop where
  draining : Draining t.links a head ys t.drain
  insert : t.insert = s.insert
  started : t.drain ≠ .start
  next : ∀ z, t.links.next z = if s.drain.unlinks = some z then z else s.links.next z
  prev : ∀ z, z ∉ ys++[head] →
    t.links.prev z = if s.drain.selfs = some z then z else s.links.prev z
  takes : t.drain.takes = s.drain.takes
  unlinks : t.drain.unlinks = none
  selfs : t.drain.selfs = s.drain.unlinks
  deletes : s.drain.deletes head = false
  closes : s.drain.closes head = false

structure Loads (a head y : α) (zs : List α) (s t : Race α) : Prop where
  drain : s.drain = .on y (zs.head?.getD head)
  eq : t = { s with drain := .prevRead y (zs.head?.getD head) a }
  deletes : s.drain.deletes head = true
  draining : Draining t.links a head (y::zs) t.drain

structure Removes (a head y : α) (zs : List α) (s t : Race α) : Prop where
  drain : s.drain = .backed y (zs.head?.getD head) a (zs.head?.getD head)
  eq : t = { s with
    links := setNext a (zs.head?.getD head) s.links, drain := .unlinked y (zs.head?.getD head) }
  draining : Draining t.links a head zs t.drain

section Stands
variable {h : Links α} {a head z : α} {ys : List α} {d : Drain α}

omit [DecidableEq α]

theorem Draining.head_not_mem (hd : Draining h a head ys d) : head ∉ ys := fun hm =>
  (List.nodup_append.mp hd.nodup).2.2 head hm head (by simp) rfl

theorem Draining.unlinks_ne (hd : Draining h a head ys d) (hz : z ∈ ys++[head]) :
    d.unlinks ≠ some z := by
  cases d with
  | unlinked pos n =>
    rintro he
    obtain rfl := Option.some.inj he
    exact hd.stands.2 hz
  | _ => simp [Drain.unlinks]

theorem Draining.takes_first (hd : Draining h a head ys d) (hz : d.takes = some z) :
    ∃ zs, ys = z::zs := by
  cases d with
  | prevRead pos n p =>
    obtain rfl := Option.some.inj hz
    exact hd.stands.imp fun zs hzs => hzs.1
  | bothRead pos n p q =>
    obtain rfl := Option.some.inj hz
    exact hd.stands.imp fun zs hzs => hzs.1
  | backed pos n p q =>
    obtain rfl := Option.some.inj hz
    exact hd.stands.imp fun zs hzs => hzs.1
  | _ => simp [Drain.takes] at hz

end Stands

section Drains
variable {h : Links α} {a b head y z v : α} {ys : List α} {s t : Race α} {d : Drain α}

theorem Draining.set_next (hd : Draining h a head ys d) (hz : z ∉ ys) :
    Draining (setNext z v h) a head ys d :=
  ⟨hd.nodup,hd.forward.set_next (by rwa [List.dropLast_concat]),hd.stands,by
    cases d <;> exact hd.anchored⟩

theorem Draining.set_prev (hd : Draining h a head ys d)
    (hz : z ∉ ys++[head] ∨ d.takes = some z) : Draining (setPrev z v h) a head ys d := by
  refine ⟨hd.nodup,hd.forward,hd.stands,?_⟩
  have hfirst := first_mem ys head
  have hout : d.takes = none → h.prev (ys.head?.getD head) = a →
      (LinkedRing.setPrev z v h).prev (ys.head?.getD head) = a := by
    intro hno ha
    rw [hno] at hz
    have hne : ys.head?.getD head ≠ z := fun he => hz.elim (· (he ▸ hfirst)) (by simp)
    exact (Function.update_of_ne hne ..).trans ha
  cases d with
  | prevRead pos n p => exact hd.anchored
  | bothRead pos n p q => exact hd.anchored
  | backed pos n p q =>
    obtain ⟨hp,hq⟩ := hd.anchored
    obtain ⟨zs,rfl,rfl,rfl⟩ := hd.stands
    have hmem := first_mem zs head
    have hpos : pos ∉ zs++[head] :=
      (List.nodup_cons.mp (show (pos::(zs++[head])).Nodup from hd.nodup)).1
    refine ⟨hp,(Function.update_of_ne (fun he => ?_) ..).trans hq⟩
    rcases hz with hz | hz
    · exact hz (.tail pos (he ▸ hmem))
    · obtain rfl := Option.some.inj hz
      exact hpos (he ▸ hmem)
  | _ => exact hout rfl hd.anchored

theorem Draining.move_anchor (hd : Draining h a head ys d) (hno : d.takes = none) :
    Draining (LinkedRing.setPrev (ys.head?.getD head) b h) b head ys d := by
  refine ⟨hd.nodup,hd.forward,hd.stands,?_⟩
  cases d with
  | prevRead pos n p => simp [Drain.takes] at hno
  | bothRead pos n p q => simp [Drain.takes] at hno
  | backed pos n p q => simp [Drain.takes] at hno
  | _ => exact Function.update_self ..

theorem quiet_still (hd : Draining s.links a head ys d) (hstarted : d ≠ .start)
    (htakes : d.takes = s.drain.takes) (hunlinks : s.drain.unlinks = none)
    (hselfs : s.drain.selfs = none) (hunlinks' : d.unlinks = none) (hselfs' : d.selfs = none)
    (hdeletes : s.drain.deletes head = false) (hcloses : s.drain.closes head = false) :
    Quiet a head ys s { s with drain := d } where
  draining := hd
  insert := rfl
  started := hstarted
  next := by simp [hunlinks]
  prev := by simp [hselfs]
  takes := htakes
  unlinks := hunlinks'
  selfs := hselfs'.trans hunlinks.symm
  deletes := hdeletes
  closes := hcloses

theorem unlinked_quiet {pos n : α} (hd : Draining s.links a head ys s.drain)
    (hs : s.drain = .unlinked pos n) :
    Quiet a head ys s { s with links := setNext pos pos s.links, drain := .selfNext pos n } := by
  have hst := hd.stands
  have ha := hd.anchored
  rw [hs] at hst ha
  have hpos : pos ∉ ys := fun hm => hst.2 (List.mem_append_left _ hm)
  refine ⟨⟨hd.nodup,hd.forward.set_next (by rwa [List.dropLast_concat]),hst,ha⟩,rfl,by simp,?_,?_,
    by simp [hs, Drain.takes],rfl,by simp [hs, Drain.unlinks, Drain.selfs],
    by simp [hs, Drain.deletes],by simp [hs, Drain.closes]⟩
  · intro z
    by_cases hz : z = pos
    · simp [hs, Drain.unlinks, setNext, hz]
    · simp [hs, Drain.unlinks, setNext, hz, Ne.symm hz]
  · intro z _
    simp [hs, Drain.selfs, setNext]

theorem self_next_quiet {pos n : α} (hd : Draining s.links a head ys s.drain)
    (hs : s.drain = .selfNext pos n) :
    Quiet a head ys s { s with links := setPrev pos pos s.links, drain := .advance n } := by
  have hst := hd.stands
  have ha := hd.anchored
  rw [hs] at hst ha
  have hfirst : ys.head?.getD head ≠ pos := fun he => hst.2 (he ▸ first_mem ys head)
  refine ⟨⟨hd.nodup,hd.forward,hst.1,(Function.update_of_ne hfirst ..).trans ha⟩,rfl,by simp,
    ?_,?_,by simp [hs, Drain.takes],rfl,by simp [hs, Drain.unlinks, Drain.selfs],
    by simp [hs, Drain.deletes],by simp [hs, Drain.closes]⟩
  · intro z
    simp [hs, Drain.unlinks, setPrev]
  · intro z _
    by_cases hz : z = pos
    · simp [hs, Drain.selfs, setPrev, hz]
    · simp [hs, Drain.selfs, setPrev, hz, Ne.symm hz]

theorem both_read_quiet {pos n p q : α} (hd : Draining s.links a head ys s.drain)
    (hs : s.drain = .bothRead pos n p q) :
    Quiet a head ys s { s with links := setPrev q p s.links, drain := .backed pos n p q } := by
  have hst := hd.stands
  have ha := hd.anchored
  rw [hs] at hst ha
  obtain ⟨zs,rfl,rfl,rfl⟩ := hst
  obtain rfl : p = a := ha
  refine ⟨⟨hd.nodup,hd.forward,⟨zs,rfl,rfl,rfl⟩,rfl,Function.update_self ..⟩,rfl,by simp,?_,?_,
    by simp [hs, Drain.takes],rfl,by simp [hs, Drain.unlinks, Drain.selfs],
    by simp [hs, Drain.deletes],by simp [hs, Drain.closes]⟩
  · intro z
    simp [hs, Drain.unlinks, setPrev]
  · intro z hz
    have hne : z ≠ zs.head?.getD head := fun he => hz (he ▸ .tail pos (first_mem zs head))
    simp [hs, Drain.selfs, setPrev, hne]

theorem backed_removes {pos n p q : α} (hd : Draining s.links a head ys s.drain) (ha : a ∉ ys)
    (hs : s.drain = .backed pos n p q) : ∃ zs, ys = pos::zs ∧ Removes a head pos zs s
      { s with links := setNext p q s.links, drain := .unlinked pos n } := by
  have hst := hd.stands
  have hanchored := hd.anchored
  rw [hs] at hst hanchored
  obtain ⟨zs,rfl,rfl,rfl⟩ := hst
  obtain ⟨rfl,hq⟩ := hanchored
  obtain ⟨hpos,hzs⟩ := List.nodup_cons.mp (show (pos::(zs++[head])).Nodup from hd.nodup)
  have hforward : Forward s.links (zs++[head]) :=
    List.IsChain.right_of_append (show Forward s.links ([pos]++(zs++[head])) from hd.forward)
  refine ⟨zs,rfl,hs,rfl,hzs,hforward.set_next ?_,⟨rfl,hpos⟩,hq⟩
  rw [List.dropLast_concat]
  exact fun hm => ha (.tail pos hm)

theorem on_cases {pos n : α} (hd : Draining s.links a head ys s.drain) (hs : s.drain = .on pos n)
    (h : drainStep head s = some t) :
    Quiet a head ys s t ∨ ∃ y zs, ys = y::zs ∧ Loads a head y zs s t := by
  have hst := hd.stands
  have hanchored := hd.anchored
  rw [hs] at hst hanchored
  obtain ⟨rfl,hn⟩ := hst
  simp only [drainStep, hs] at h
  split at h
  · next hpos =>
    obtain rfl := Option.some.inj h
    have hnil : ys = [] := by
      cases ys with
      | nil => rfl
      | cons y zs => exact absurd (List.mem_cons.mpr (.inl hpos.symm)) hd.head_not_mem
    subst hnil
    exact .inl (quiet_still ⟨hd.nodup,hd.forward,rfl,hanchored⟩ (by simp)
      (by simp [hs, Drain.takes]) (by simp [hs, Drain.unlinks]) (by simp [hs, Drain.selfs]) rfl
      rfl (by simp [hs, Drain.deletes]) (by simp [hs, Drain.closes]))
  · next hpos =>
    cases ys with
    | nil => exact absurd rfl hpos
    | cons y zs =>
      obtain rfl := hn y zs rfl
      obtain rfl := Option.some.inj h
      have hback : s.links.prev y = a := hanchored
      refine .inr ⟨y,zs,rfl,hs,by rw [← hback]; rfl,?_,?_⟩
      · simpa [hs, Drain.deletes] using hpos
      · exact ⟨hd.nodup,hd.forward,⟨zs,rfl,rfl⟩,hback⟩

theorem drain_cases (hd : Draining s.links a head ys s.drain) (hstarted : s.drain ≠ .start)
    (ha : a ∉ ys) (h : drainStep head s = some t) :
    Quiet a head ys s t ∨ (∃ y zs, ys = y::zs ∧ Loads a head y zs s t) ∨
      ∃ y zs, ys = y::zs ∧ Removes a head y zs s t := by
  have hst := hd.stands
  have hanchored := hd.anchored
  cases hs : s.drain with
  | start => exact absurd hs hstarted
  | first pos =>
    rw [drainStep, hs] at h
    rw [hs] at hst hanchored
    obtain rfl := Option.some.inj h
    obtain rfl : pos = ys.head?.getD head := hst
    refine .inl (quiet_still ⟨hd.nodup,hd.forward,⟨rfl,?_⟩,hanchored⟩ (by simp)
      (by simp [hs, Drain.takes]) (by simp [hs, Drain.unlinks]) (by simp [hs, Drain.selfs]) rfl rfl
      (by simp [hs, Drain.deletes]) (by simp [hs, Drain.closes]))
    rintro y zs rfl
    exact Forward.next_first hd.forward
  | on pos n => exact (on_cases hd hs (by rwa [drainStep])).imp_right .inl
  | prevRead pos n p =>
    rw [drainStep, hs] at h
    rw [hs] at hst hanchored
    obtain rfl := Option.some.inj h
    obtain ⟨zs,rfl,rfl⟩ := hst
    exact .inl (quiet_still
      ⟨hd.nodup,hd.forward,⟨zs,rfl,rfl,Forward.next_first hd.forward⟩,hanchored⟩ (by simp)
      (by simp [hs, Drain.takes]) (by simp [hs, Drain.unlinks]) (by simp [hs, Drain.selfs]) rfl rfl
      (by simp [hs, Drain.deletes]) (by simp [hs, Drain.closes]))
  | bothRead pos n p q =>
    rw [drainStep, hs] at h
    exact Option.some.inj h ▸ .inl (both_read_quiet hd hs)
  | backed pos n p q =>
    rw [drainStep, hs] at h
    exact Option.some.inj h ▸ .inr (.inr ⟨pos,backed_removes hd ha hs⟩)
  | unlinked pos n =>
    rw [drainStep, hs] at h
    exact Option.some.inj h ▸ .inl (unlinked_quiet hd hs)
  | selfNext pos n =>
    rw [drainStep, hs] at h
    exact Option.some.inj h ▸ .inl (self_next_quiet hd hs)
  | advance n =>
    rw [drainStep, hs] at h
    rw [hs] at hst hanchored
    obtain rfl := Option.some.inj h
    obtain rfl : n = ys.head?.getD head := hst
    refine .inl (quiet_still ⟨hd.nodup,hd.forward,⟨rfl,?_⟩,hanchored⟩ (by simp)
      (by simp [hs, Drain.takes]) (by simp [hs, Drain.unlinks]) (by simp [hs, Drain.selfs]) rfl rfl
      (by simp [hs, Drain.deletes]) (by simp [hs, Drain.closes]))
    rintro y zs rfl
    exact Forward.next_first hd.forward
  | done =>
    rw [drainStep, hs] at h
    cases h

end Drains

/-! What holds of the two between their steps. -/

def anchor (new head : α) : Insert α → α
  | .load => head
  | .prevOfNext _ => head
  | _ => new

/-- The first entry is `n`, or a deletion is to come that makes up for it. -/
def Ahead (h : Links α) (new head n : α) (ys : List α) (d : Drain α) : Prop :=
  n = ys.head?.getD head ∨ ys ≠ [] ∧ d ≠ .start ∧ n ∉ new::(ys++[head]) ∧
    (h.next n = n ∨ d.unlinks = some n)

def Startable (h : Links α) (head : α) (ys : List α) (d : Drain α) : Prop :=
  d = .start → h.next head = ys.head?.getD head

def Phase (new head : α) (ys : List α) (s : Race α) : Prop :=
  match s.insert with
  | .load => s.links.next head = ys.head?.getD head
  | .prevOfNext n => s.links.next head = ys.head?.getD head ∧ n = ys.head?.getD head ∧
    s.drain.takes = none
  | .nextOfNew n => Ahead s.links new head n ys s.drain ∧ Startable s.links head ys s.drain
  | .prevOfNew => Ahead s.links new head (s.links.next new) ys s.drain ∧
    Startable s.links head ys s.drain
  | .nextOfHead => Ahead s.links new head (s.links.next new) ys s.drain ∧
    Startable s.links head ys s.drain ∧ s.links.prev new = head
  | .done => Ahead s.links new head (s.links.next new) ys s.drain ∧
    s.links.prev new = head ∧ s.links.next head = new

structure Going (new head : α) (ys : List α) (s : Race α) : Prop where
  draining : Draining s.links (anchor new head s.insert) head ys s.drain
  fresh : new ∉ ys++[head]
  unlinks : s.drain.unlinks ≠ some new
  selfs : s.drain.selfs ≠ some new
  phase : Phase new head ys s

/-- The drain started late enough to have the new entry. -/
structure Late (new head : α) (ys : List α) (s : Race α) : Prop where
  draining : Draining s.links head head ys s.drain
  insert : s.insert = .done
  started : s.drain ≠ .start
  next : s.links.next head = ys.head?.getD head
  new : new ∈ ys ∨ new ∉ ys++[head] ∧ (s.drain.unlinks = some new ∨
    s.links.next new = new ∧ (s.drain.selfs = some new ∨ s.links.prev new = new))

def Good (new head : α) (s : Race α) : Prop :=
  (∃ ys, Going new head ys s) ∨ ∃ ys, Late new head ys s

/-- The entry the new one leads to is taken out, or has been and leads nowhere else. -/
def Leaves (h : Links α) (m : α) (ys : List α) (d : Drain α) : Prop :=
  d.takes = some m ∨ m ∉ ys ∧ (h.next m = m ∨ d.unlinks = some m)

/-- The insertion has hold of `m`, or has made the new entry lead there. -/
def Leads (h : Links α) (new head m : α) (ys : List α) : Insert α → Prop
  | .load => False
  | .prevOfNext n => n = m
  | .nextOfNew n => n = m
  | .prevOfNew => h.next new = m
  | .nextOfHead => h.next new = m
  | .done => h.next new = m ∧ (h.next head = new ∨ h.next head = ys.head?.getD head)

structure Torn (new head m a : α) (ys : List α) (s : Race α) : Prop where
  draining : Draining s.links a head ys s.drain
  anchor : a = head ∨ ys = []
  started : s.drain ≠ .start
  fresh : new ∉ ys++[head]
  unlinks : s.drain.unlinks ≠ some new
  selfs : s.drain.selfs ≠ some new
  other : m ≠ new ∧ m ≠ head
  leaves : Leaves s.links m ys s.drain
  leads : Leads s.links new head m ys s.insert

section Steps
variable {h k : Links α} {a head new n m y : α} {ys zs : List α} {s t : Race α} {d e : Drain α}

omit [DecidableEq α] in
theorem Going.anchor_not_mem (hs : Going new head ys s) : anchor new head s.insert ∉ ys := by
  have hhead := hs.draining.head_not_mem
  have hnew : new ∉ ys := fun hm => hs.fresh (List.mem_append_left _ hm)
  cases s.insert with
  | load => exact hhead
  | prevOfNext n => exact hhead
  | _ => exact hnew

omit [DecidableEq α] in
theorem Ahead.keep (ha : Ahead h new head n ys d)
    (hk : n ∉ new::(ys++[head]) → k.next n = h.next n) : Ahead k new head n ys d :=
  ha.imp_right fun ⟨hne,hd,hm,hself⟩ => ⟨hne,hd,hm,hself.imp_left (hk hm).trans⟩

theorem prev_of_next_going (hs : Going new head ys s) (hi : s.insert = .prevOfNext n) :
    Going new head ys { s with links := setPrev n new s.links, insert := .nextOfNew n } := by
  have hp := hs.phase
  simp only [Phase, hi] at hp
  obtain ⟨hnext,rfl,hno⟩ := hp
  exact ⟨hs.draining.move_anchor hno,hs.fresh,hs.unlinks,hs.selfs,.inl rfl,fun _ => hnext⟩

theorem next_of_new_going (hs : Going new head ys s) (hi : s.insert = .nextOfNew n) :
    Going new head ys { s with links := setNext new n s.links, insert := .prevOfNew } := by
  have hp := hs.phase
  have hd := hs.draining
  simp only [Phase, hi, anchor] at hp hd
  have hnew : new ∉ ys := fun hm => hs.fresh (List.mem_append_left _ hm)
  have hnh : head ≠ new := fun he => hs.fresh (he ▸ by simp)
  have hself : (setNext new n s.links).next new = n := Function.update_self ..
  refine ⟨hd.set_next hnew,hs.fresh,hs.unlinks,hs.selfs,?_,fun hst => ?_⟩
  · simp only [hself]
    exact hp.1.keep fun hm => Function.update_of_ne (fun he : n = new => hm (he ▸ .head _)) ..
  · exact (Function.update_of_ne hnh ..).trans (hp.2 hst)

theorem prev_of_new_going (hs : Going new head ys s) (hi : s.insert = .prevOfNew) :
    Going new head ys { s with links := setPrev new head s.links, insert := .nextOfHead } := by
  have hp := hs.phase
  have hd := hs.draining
  simp only [Phase, hi, anchor] at hp hd
  exact ⟨hd.set_prev (.inl hs.fresh),hs.fresh,hs.unlinks,hs.selfs,hp.1,hp.2,
    Function.update_self ..⟩

theorem next_of_head_going (hs : Going new head ys s) (hi : s.insert = .nextOfHead) :
    Going new head ys { s with links := setNext head new s.links, insert := .done } := by
  have hp := hs.phase
  have hd := hs.draining
  simp only [Phase, hi, anchor] at hp hd
  have hnh : new ≠ head := fun he => hs.fresh (he ▸ by simp)
  have hself : (setNext head new s.links).next new = s.links.next new :=
    Function.update_of_ne hnh ..
  refine ⟨hd.set_next hd.head_not_mem,hs.fresh,hs.unlinks,hs.selfs,?_,hp.2.2,
    Function.update_self ..⟩
  simp only [hself]
  exact hp.1.keep fun hm =>
    Function.update_of_ne (fun he : s.links.next new = head => hm (by simp [he])) ..

/-- An insertion that loads `head->next` while the first entry is being taken out has hold
of that one. -/
theorem insert_going (hs : Going new head ys s) (h : insertStep new head s = some t) :
    Careful head .insert s ∧ Going new head ys t ∨
      ¬Careful head .insert s ∧ ∃ m, Torn new head m head ys t := by
  have hkeep : s.insert ≠ .load → Careful head .insert s := by
    rintro hne ⟨hload,-⟩
    cases hi : s.insert <;> simp [hi, Insert.loads] at hne hload
  rw [insertStep] at h
  cases hi : s.insert with
  | load =>
    rw [hi] at h
    obtain rfl := Option.some.inj h
    have hp := hs.phase
    have hd := hs.draining
    simp only [Phase, hi, anchor] at hp hd
    cases htakes : s.drain.takes with
    | none =>
      exact .inl ⟨by simp [Careful, htakes],hd,hs.fresh,hs.unlinks,hs.selfs,hp,hp,htakes⟩
    | some m =>
      obtain ⟨zs,rfl⟩ := hd.takes_first htakes
      refine .inr ⟨by simp [Careful, hi, Insert.loads, htakes],m,hd,.inl rfl,?_,hs.fresh,
        hs.unlinks,hs.selfs,⟨?_,?_⟩,.inl htakes,hp⟩
      · intro hst
        have hst' : s.drain = .start := hst
        rw [hst'] at htakes
        cases htakes
      · exact fun he => hs.fresh (he ▸ by simp)
      · exact fun he => hd.head_not_mem (he ▸ .head zs)
  | prevOfNext n =>
    rw [hi] at h
    exact .inl ⟨hkeep (by simp [hi]),Option.some.inj h ▸ prev_of_next_going hs hi⟩
  | nextOfNew n =>
    rw [hi] at h
    exact .inl ⟨hkeep (by simp [hi]),Option.some.inj h ▸ next_of_new_going hs hi⟩
  | prevOfNew =>
    rw [hi] at h
    exact .inl ⟨hkeep (by simp [hi]),Option.some.inj h ▸ prev_of_new_going hs hi⟩
  | nextOfHead =>
    rw [hi] at h
    exact .inl ⟨hkeep (by simp [hi]),Option.some.inj h ▸ next_of_head_going hs hi⟩
  | done =>
    rw [hi] at h
    cases h

omit [DecidableEq α] in
theorem start_good (hs : Going new head ys s) (hst : s.drain = .start) :
    Good new head { s with drain := .first (s.links.next head) } := by
  obtain ⟨links,insert,drain⟩ := s
  obtain ⟨hd,hfresh,-,-,hp⟩ := hs
  obtain rfl : drain = .start := hst
  have hahead : ∀ {n}, Ahead links new head n ys .start → n = ys.head?.getD head :=
    fun ha => ha.resolve_right fun hno => hno.2.1 rfl
  have hgo : links.next head = ys.head?.getD head →
      Phase new head ys ⟨links,insert,.first (links.next head)⟩ →
      Good new head ⟨links,insert,.first (links.next head)⟩ :=
    fun hnext hphase => .inl ⟨ys,⟨hd.nodup,hd.forward,hnext,hd.anchored⟩,hfresh,
      by simp [Drain.unlinks],by simp [Drain.selfs],hphase⟩
  have hstart : Startable links head ys (.first (links.next head)) := fun hno => by cases hno
  cases insert with
  | load => exact hgo hp hp
  | prevOfNext n => exact hgo hp.1 ⟨hp.1,hp.2.1,rfl⟩
  | nextOfNew n => exact hgo (hp.2 rfl) ⟨.inl (hahead hp.1),hstart⟩
  | prevOfNew => exact hgo (hp.2 rfl) ⟨.inl (hahead hp.1),hstart⟩
  | nextOfHead => exact hgo (hp.2.1 rfl) ⟨.inl (hahead hp.1),hstart,hp.2.2⟩
  | done =>
    obtain ⟨ha,hprev,hnext⟩ := hp
    refine .inr ⟨new::ys,⟨List.nodup_cons.mpr ⟨hfresh,hd.nodup⟩,?_,hnext,hprev⟩,rfl,by simp,
      hnext,.inl (.head ys)⟩
    have hnew := hahead ha
    cases ys with
    | nil => exact List.isChain_pair.mpr hnew
    | cons y zs => exact .cons_cons hnew hd.forward

/-! The drain's steps. -/

theorem Quiet.next_keep (hq : Quiet a head ys s t) {z : α} (hz : s.drain.unlinks ≠ some z) :
    t.links.next z = s.links.next z := (hq.next z).trans (if_neg hz)

theorem Quiet.prev_keep (hq : Quiet a head ys s t) {z : α} (hm : z ∉ ys++[head])
    (hz : s.drain.selfs ≠ some z) : t.links.prev z = s.links.prev z :=
  (hq.prev z hm).trans (if_neg hz)

theorem Quiet.self (hq : Quiet a head ys s t) {z : α}
    (hz : s.links.next z = z ∨ s.drain.unlinks = some z) : t.links.next z = z := by
  rw [hq.next z]
  split
  · rfl
  · next hne => exact hz.resolve_right hne

theorem Quiet.ahead (hq : Quiet a head ys s t)
    (ha : Ahead s.links new head n ys s.drain) : Ahead t.links new head n ys t.drain :=
  ha.imp_right fun ⟨hne,_,hm,hself⟩ => ⟨hne,hq.started,hm,.inl (hq.self hself)⟩

theorem quiet_going (hs : Going new head ys s)
    (hq : Quiet (anchor new head s.insert) head ys s t) : Going new head ys t := by
  have hinsert := hq.insert
  have hhead := hq.next_keep (hs.draining.unlinks_ne (z := head) (by simp))
  have hnew := hq.next_keep hs.unlinks
  have hprev := hq.prev_keep hs.fresh hs.selfs
  have hstart : Startable t.links head ys t.drain := fun hst => absurd hst hq.started
  refine ⟨hinsert ▸ hq.draining,hs.fresh,by simp [hq.unlinks],hq.selfs ▸ hs.unlinks,?_⟩
  have hp := hs.phase
  unfold Phase at hp ⊢
  rw [hinsert]
  cases hi : s.insert with
  | load =>
    simp only [hi] at hp ⊢
    exact hhead.trans hp
  | prevOfNext n =>
    simp only [hi] at hp ⊢
    exact ⟨hhead.trans hp.1,hp.2.1,hq.takes.trans hp.2.2⟩
  | nextOfNew n =>
    simp only [hi] at hp ⊢
    exact ⟨hq.ahead hp.1,hstart⟩
  | prevOfNew =>
    simp only [hi] at hp ⊢
    exact ⟨hnew.symm ▸ hq.ahead hp.1,hstart⟩
  | nextOfHead =>
    simp only [hi] at hp ⊢
    exact ⟨hnew.symm ▸ hq.ahead hp.1,hstart,hprev.trans hp.2.2⟩
  | done =>
    simp only [hi] at hp ⊢
    exact ⟨hnew.symm ▸ hq.ahead hp.1,hprev.trans hp.2.1,hhead.trans hp.2.2⟩

theorem loads_going (hs : Going new head (y::zs) s)
    (hl : Loads (anchor new head s.insert) head y zs s t) :
    Careful head .drain s ∧ Going new head (y::zs) t ∨
      ¬Careful head .drain s ∧ ∃ m, Torn new head m head (y::zs) t := by
  obtain ⟨links,insert,drain⟩ := s
  obtain ⟨hd,hfresh,hunlinks,hselfs,hp⟩ := hs
  obtain ⟨hdrain,rfl,hdeletes,hdraining⟩ := hl
  obtain rfl : drain = .on y (zs.head?.getD head) := hdrain
  have hcareful : insert.isRead = false →
      Careful head .drain ⟨links,insert,.on y (zs.head?.getD head)⟩ := fun hno =>
    ⟨by simp [hno],by simp [Drain.closes]⟩
  have hahead : ∀ {n}, Ahead links new head n (y::zs) (.on y (zs.head?.getD head)) →
      Ahead links new head n (y::zs) (.prevRead y (zs.head?.getD head) new) :=
    fun ha => ha.imp_right fun ⟨hne,_,hm,hself⟩ =>
      ⟨hne,by simp,hm,.inl (hself.resolve_right (by simp [Drain.unlinks]))⟩
  have hstart : Startable links head (y::zs) (.prevRead y (zs.head?.getD head) new) :=
    fun hst => by cases hst
  have hgo : Phase new head (y::zs) ⟨links,insert,.prevRead y (zs.head?.getD head)
      (anchor new head insert)⟩ → Going new head (y::zs)
        ⟨links,insert,.prevRead y (zs.head?.getD head) (anchor new head insert)⟩ :=
    fun hphase => ⟨hdraining,hfresh,by simp [Drain.unlinks],by simp [Drain.selfs],hphase⟩
  cases insert with
  | load => exact .inl ⟨hcareful rfl,hgo hp⟩
  | prevOfNext n =>
    obtain ⟨hnext,rfl,-⟩ := hp
    refine .inr ⟨fun hc => hc.1 ⟨rfl,hdeletes⟩,_,hdraining,.inl rfl,by simp,hfresh,
      by simp [Drain.unlinks],by simp [Drain.selfs],⟨?_,?_⟩,.inl rfl,rfl⟩
    · exact fun he => hfresh (he ▸ by simp)
    · exact fun he => hd.head_not_mem (he ▸ .head zs)
  | nextOfNew n => exact .inl ⟨hcareful rfl,hgo ⟨hahead hp.1,hstart⟩⟩
  | prevOfNew => exact .inl ⟨hcareful rfl,hgo ⟨hahead hp.1,hstart⟩⟩
  | nextOfHead => exact .inl ⟨hcareful rfl,hgo ⟨hahead hp.1,hstart,hp.2.2⟩⟩
  | done => exact .inl ⟨hcareful rfl,hgo ⟨hahead hp.1,hp.2⟩⟩

/-- With the store that takes an entry out the new one leads past it, if it leads to the
first one by then; and if it does not, the store of the next deletion is to come. -/
theorem removes_going (hs : Going new head (y::zs) s)
    (hr : Removes (anchor new head s.insert) head y zs s t) :
    Careful head .drain s ∧ Going new head zs t ∨
      ¬Careful head .drain s ∧ ∃ m, Torn new head m new zs t := by
  obtain ⟨links,insert,drain⟩ := s
  obtain ⟨hd,hfresh,hunlinks,hselfs,hp⟩ := hs
  obtain ⟨hdrain,rfl,hdraining⟩ := hr
  obtain rfl : drain = .backed y (zs.head?.getD head) (anchor new head insert)
    (zs.head?.getD head) := hdrain
  obtain ⟨hy,hzs⟩ := List.nodup_cons.mp (show (y::(zs++[head])).Nodup from hd.nodup)
  have hny : y ≠ new := fun he => hfresh (he ▸ by simp)
  have hnh : new ≠ head := fun he => hfresh (he ▸ by simp)
  have hfresh' : new ∉ zs++[head] := fun hm => hfresh (.tail y hm)
  have hunlinks' : (Drain.unlinked y (zs.head?.getD head)).unlinks ≠ some new :=
    fun he => hny (Option.some.inj he)
  have hcareful : insert.isRead = false → insert.isHalf = false ∨ zs.head?.getD head ≠ head →
      Careful head .drain ⟨links,insert,.backed y (zs.head?.getD head) (anchor new head insert)
        (zs.head?.getD head)⟩ := fun hread hhalf =>
    ⟨by simp [hread],by rcases hhalf with hno | hno <;> simp [hno, Drain.closes]⟩
  have hstart : ∀ {k : Links α}, Startable k head zs (.unlinked y (zs.head?.getD head)) :=
    fun hst => by cases hst
  have hgo : Phase new head zs ⟨setNext (anchor new head insert) (zs.head?.getD head) links,insert,
      .unlinked y (zs.head?.getD head)⟩ → Going new head zs
        ⟨setNext (anchor new head insert) (zs.head?.getD head) links,insert,
          .unlinked y (zs.head?.getD head)⟩ :=
    fun hphase => ⟨hdraining,hfresh',hunlinks',by simp [Drain.selfs],hphase⟩
  have hself : (setNext new (zs.head?.getD head) links).next new = zs.head?.getD head :=
    Function.update_self ..
  have hhead : (setNext new (zs.head?.getD head) links).next head = links.next head :=
    Function.update_of_ne (Ne.symm hnh) ..
  cases insert with
  | load => exact .inl ⟨hcareful rfl (.inl rfl),hgo (Function.update_self ..)⟩
  | prevOfNext n => simp [Phase, Drain.takes] at hp
  | nextOfNew n =>
    -- the entry that was found has been taken out by now
    have hstale : n ∉ new::(zs++[head]) ∧
        ((setNext new (zs.head?.getD head) links).next n = n ∨ n = y) := by
      rcases hp.1 with rfl | ⟨-,-,hm,hn⟩
      · refine ⟨fun hm => ?_,.inr rfl⟩
        exact (List.mem_cons.mp hm).elim (fun he => hny he) fun hm => hy hm
      · have hnn : n ≠ new := fun he => hm (he ▸ .head _)
        refine ⟨fun hm' => hm ?_,.inl ((Function.update_of_ne hnn ..).trans
          (hn.resolve_right (by simp [Drain.unlinks])))⟩
        exact (List.mem_cons.mp hm').elim (fun he => absurd he hnn)
          fun hm => .tail _ (.tail y hm)
    have hleaves : (setNext new (zs.head?.getD head) links).next n = n ∨
        (Drain.unlinked y (zs.head?.getD head)).unlinks = some n :=
      hstale.2.imp_right fun he => by rw [he]; rfl
    by_cases hlast : zs = []
    · subst hlast
      refine .inr ⟨fun hc => hc.2 ⟨rfl,by simp [Drain.closes]⟩,n,hdraining,.inr rfl,by simp,
        hfresh',hunlinks',by simp [Drain.selfs],⟨?_,?_⟩,.inr ⟨by simp,hleaves⟩,rfl⟩
      · exact fun he => hstale.1 (by simp [he])
      · exact fun he => hstale.1 (by simp [he])
    · have hmore : zs.head?.getD head ≠ head := fun he => by
        obtain ⟨x,xs,rfl⟩ := List.exists_cons_of_ne_nil hlast
        exact (List.nodup_cons.mp hzs).1 (he ▸ by simp)
      exact .inl ⟨hcareful rfl (.inr hmore),
        hgo ⟨.inr ⟨hlast,by simp,hstale.1,hleaves⟩,hstart⟩⟩
  | prevOfNew => exact .inl ⟨hcareful rfl (.inl rfl),hgo ⟨.inl hself,hstart⟩⟩
  | nextOfHead => exact .inl ⟨hcareful rfl (.inl rfl),hgo ⟨.inl hself,hstart,hp.2.2⟩⟩
  | done =>
    exact .inl ⟨hcareful rfl (.inl rfl),hgo ⟨.inl hself,hp.2.1,hhead.trans hp.2.2⟩⟩

theorem drain_late (hs : Late new head ys s) (h : drainStep head s = some t) :
    ∃ zs, Late new head zs t := by
  have hhead := hs.draining.unlinks_ne (z := head) (by simp)
  rcases drain_cases hs.draining hs.started hs.draining.head_not_mem h with
    hq | ⟨y,zs,rfl,hl⟩ | ⟨y,zs,rfl,hr⟩
  · refine ⟨ys,hq.draining,hq.insert.trans hs.insert,hq.started,
      (hq.next_keep hhead).trans hs.next,hs.new.imp_right fun ⟨hm,hnew⟩ => ⟨hm,.inr ?_⟩⟩
    rcases hnew with hunlinks | ⟨hself,hnew⟩
    · exact ⟨hq.self (.inr hunlinks),.inl (hq.selfs.trans hunlinks)⟩
    · refine ⟨hq.self (.inl hself),.inr ?_⟩
      rw [hq.prev new hm]
      split
      · rfl
      · next hne => exact hnew.resolve_left hne
  · obtain ⟨hdrain,rfl,-,hdraining⟩ := hl
    refine ⟨y::zs,hdraining,hs.insert,by simp,hs.next,hs.new.imp_right fun ⟨hm,hnew⟩ =>
      ⟨hm,.inr ?_⟩⟩
    simpa [hdrain, Drain.unlinks, Drain.selfs] using hnew
  · obtain ⟨hdrain,rfl,hdraining⟩ := hr
    have hy := (List.nodup_cons.mp (show (y::(zs++[head])).Nodup from hs.draining.nodup)).1
    refine ⟨zs,hdraining,hs.insert,by simp,Function.update_self ..,?_⟩
    rcases hs.new with hm | ⟨hm,hnew⟩
    · rcases List.mem_cons.mp hm with rfl | hm
      · exact .inr ⟨hy,.inl rfl⟩
      · exact .inl hm
    · have hnew' : s.links.next new = new ∧ s.links.prev new = new := by
        simpa [hdrain, Drain.unlinks, Drain.selfs] using hnew
      have hnh : new ≠ head := fun he => hm (he ▸ by simp)
      exact .inr ⟨fun hm' => hm (.tail y hm'),
        .inr ⟨(Function.update_of_ne hnh ..).trans hnew'.1,.inr hnew'.2⟩⟩

/-! What is torn stays torn. -/

theorem insert_torn (hs : Torn new head m a ys s) (h : insertStep new head s = some t) :
    Torn new head m a ys t := by
  obtain ⟨links,insert,drain⟩ := s
  obtain ⟨hd,ha,hst,hfresh,hunlinks,hselfs,⟨hmn,hmh⟩,hleaves,hp⟩ := hs
  have hnew : new ∉ ys := fun hm => hfresh (List.mem_append_left _ hm)
  have hnh : new ≠ head := fun he => hfresh (he ▸ by simp)
  -- where the deleted entry stands does not depend on the successors of the two
  have hkeep : ∀ {k : Links α}, k.next m = links.next m → Leaves k m ys drain := fun hk =>
    hleaves.imp_right fun ⟨hm,hself⟩ => ⟨hm,hself.imp_left hk.trans⟩
  cases insert with
  | load => exact hp.elim
  | prevOfNext n =>
    obtain rfl := Option.some.inj h
    obtain rfl : n = m := hp
    have hout : n ∉ ys++[head] ∨ drain.takes = some n :=
      hleaves.symm.imp_left fun hm hin => (List.mem_append.mp hin).elim hm.1 (by simpa using hmh)
    exact ⟨hd.set_prev hout,ha,hst,hfresh,hunlinks,hselfs,⟨hmn,hmh⟩,hkeep rfl,rfl⟩
  | nextOfNew n =>
    obtain rfl := Option.some.inj h
    obtain rfl : n = m := hp
    exact ⟨hd.set_next hnew,ha,hst,hfresh,hunlinks,hselfs,⟨hmn,hmh⟩,
      hkeep (Function.update_of_ne hmn ..),Function.update_self ..⟩
  | prevOfNew =>
    obtain rfl := Option.some.inj h
    exact ⟨hd.set_prev (.inl hfresh),ha,hst,hfresh,hunlinks,hselfs,⟨hmn,hmh⟩,hkeep rfl,hp⟩
  | nextOfHead =>
    obtain rfl := Option.some.inj h
    exact ⟨hd.set_next hd.head_not_mem,ha,hst,hfresh,hunlinks,hselfs,⟨hmn,hmh⟩,
      hkeep (Function.update_of_ne hmh ..),(Function.update_of_ne hnh ..).trans hp,
      .inl (Function.update_self ..)⟩
  | done => cases h

omit [DecidableEq α] in
theorem Leads.keep {i : Insert α} (hl : Leads h new head m ys i)
    (hnew : k.next new = h.next new)
    (hhead : k.next head = zs.head?.getD head ∨ k.next head = h.next head ∧ zs = ys) :
    Leads k new head m zs i := by
  cases i with
  | load => exact hl
  | prevOfNext n => exact hl
  | nextOfNew n => exact hl
  | prevOfNew => exact hnew.trans hl
  | nextOfHead => exact hnew.trans hl
  | done =>
    refine ⟨hnew.trans hl.1,?_⟩
    rcases hhead with hfirst | ⟨hsame,rfl⟩
    · exact .inr hfirst
    · rw [hsame]
      exact hl.2

theorem drain_torn (hs : Torn new head m a ys s) (h : drainStep head s = some t) :
    ∃ zs, Torn new head m a zs t := by
  have ha : a ∉ ys := by
    rcases hs.anchor with he | he
    · exact he ▸ hs.draining.head_not_mem
    · exact he ▸ List.not_mem_nil
  have hhead := hs.draining.unlinks_ne (z := head) (by simp)
  rcases drain_cases hs.draining hs.started ha h with hq | ⟨y,zs,rfl,hl⟩ | ⟨y,zs,rfl,hr⟩
  · refine ⟨ys,hq.draining,hs.anchor,hq.started,hs.fresh,by simp [hq.unlinks],
      hq.selfs ▸ hs.unlinks,hs.other,?_,?_⟩
    · exact hs.leaves.imp hq.takes.trans fun ⟨hm,hself⟩ => ⟨hm,.inl (hq.self hself)⟩
    · rw [hq.insert]
      exact hs.leads.keep (hq.next_keep hs.unlinks) (.inr ⟨hq.next_keep hhead,rfl⟩)
  · obtain ⟨hdrain,rfl,-,hdraining⟩ := hl
    refine ⟨y::zs,hdraining,hs.anchor,by simp,hs.fresh,by simp [Drain.unlinks],
      by simp [Drain.selfs],hs.other,?_,hs.leads⟩
    have hleaves := hs.leaves
    simp only [Leaves, hdrain, Drain.takes, Drain.unlinks, reduceCtorEq, false_or,
      or_false] at hleaves
    exact .inr ⟨hleaves.1,.inl hleaves.2⟩
  · obtain rfl : a = head := hs.anchor.resolve_right (by simp)
    obtain ⟨hdrain,rfl,hdraining⟩ := hr
    have hy := (List.nodup_cons.mp (show (y::(zs++[a])).Nodup from hs.draining.nodup)).1
    have hfresh : new ∉ zs++[a] := fun hm => hs.fresh (.tail y hm)
    refine ⟨zs,hdraining,.inl rfl,by simp,hfresh,?_,by simp [Drain.selfs],hs.other,.inr ?_,?_⟩
    · exact fun he => hs.fresh (Option.some.inj he ▸ by simp)
    · rcases hs.leaves with htakes | ⟨hm,hself⟩
      · have hym : y = m := by simpa [hdrain, Drain.takes] using htakes
        exact ⟨fun hm => hy (hym ▸ List.mem_append_left _ hm),.inr (hym ▸ rfl)⟩
      · refine ⟨fun hin => hm (.tail y hin),.inl ?_⟩
        have hself' : s.links.next m = m := hself.resolve_right (by simp [hdrain, Drain.unlinks])
        exact (Function.update_of_ne hs.other.2 ..).trans hself'
    · have hnh : new ≠ a := fun he => hfresh (he ▸ by simp)
      exact hs.leads.keep (Function.update_of_ne hnh ..) (.inl (Function.update_self ..))

theorem drain_going (hs : Going new head ys s) (h : drainStep head s = some t) :
    Careful head .drain s ∧ Good new head t ∨
      ¬Careful head .drain s ∧ ∃ m a zs, Torn new head m a zs t := by
  by_cases hst : s.drain = .start
  · have ht : t = { s with drain := .first (s.links.next head) } := by
      simpa [drainStep, hst, eq_comm] using h
    exact .inl ⟨by simp [Careful, hst, Drain.deletes, Drain.closes],ht ▸ start_good hs hst⟩
  · rcases drain_cases hs.draining hst hs.anchor_not_mem h with
      hq | ⟨y,zs,rfl,hl⟩ | ⟨y,zs,rfl,hr⟩
    · exact .inl ⟨by simp [Careful, hq.deletes, hq.closes],.inl ⟨ys,quiet_going hs hq⟩⟩
    · exact (loads_going hs hl).imp (And.imp_right fun hg => .inl ⟨_,hg⟩)
        (And.imp_right fun ⟨m,ht⟩ => ⟨m,head,_,ht⟩)
    · exact (removes_going hs hr).imp (And.imp_right fun hg => .inl ⟨_,hg⟩)
        (And.imp_right fun ⟨m,ht⟩ => ⟨m,new,_,ht⟩)

theorem step_good (l : Label) (hs : Good new head s) (h : step new head l s = some t) :
    Careful head l s ∧ Good new head t ∨
      ¬Careful head l s ∧ ∃ m a ys, Torn new head m a ys t := by
  rcases hs with ⟨ys,hs⟩ | ⟨ys,hs⟩
  · cases l with
    | insert =>
      exact (insert_going hs h).imp (And.imp_right fun hg => .inl ⟨ys,hg⟩)
        (And.imp_right fun ⟨m,ht⟩ => ⟨m,head,ys,ht⟩)
    | drain => exact drain_going hs h
  · cases l with
    | insert =>
      have hnone : insertStep new head s = none := by rw [insertStep, hs.insert]
      exact absurd (hnone.symm.trans h) (by simp)
    | drain =>
      exact .inl ⟨by simp [Careful, hs.insert, Insert.isRead, Insert.isHalf],
        .inr (drain_late hs h)⟩

theorem step_torn (l : Label) (hs : ∃ m a ys, Torn new head m a ys s)
    (h : step new head l s = some t) : ∃ m a ys, Torn new head m a ys t := by
  obtain ⟨m,a,ys,hs⟩ := hs
  cases l with
  | insert => exact ⟨m,a,ys,insert_torn hs h⟩
  | drain => exact ⟨m,a,drain_torn hs h⟩

omit [DecidableEq α] in
theorem good_sound (hs : Good new head s) (hi : s.insert = .done) (hd : s.drain = .done) :
    Sound new head s.links := by
  rcases hs with ⟨ys,hs⟩ | ⟨ys,hs⟩
  · have hst := hs.draining.stands
    have hback := hs.draining.anchored
    have hp := hs.phase
    rw [hd] at hst hback
    obtain rfl : ys = [] := hst
    simp only [Phase, hi] at hp
    obtain ⟨ha,hprev,hnext⟩ := hp
    have hend : s.links.next new = head := ha.resolve_right fun hne => hne.1 rfl
    have hlast : s.links.prev head = new := by
      rw [hi] at hback
      exact hback
    have hnh : new ≠ head := fun he => hs.fresh (he ▸ by simp)
    exact .inl ⟨by simp [Ne.symm hnh],
      .cons_cons ⟨hnext,hprev⟩ (List.isChain_pair.mpr ⟨hend,hlast⟩)⟩
  · have hst := hs.draining.stands
    have hback := hs.draining.anchored
    rw [hd] at hst hback
    obtain rfl : ys = [] := hst
    have hnew : s.links.next new = new ∧ s.links.prev new = new := by
      simpa [hd, Drain.unlinks, Drain.selfs] using
        (hs.new.resolve_left List.not_mem_nil).2
    exact .inr ⟨ring_nil_iff.mpr ⟨hs.next,hback⟩,ring_nil_iff.mpr hnew⟩

theorem walk_endless {body : α → Links α × List α → Option (Bool × Links α × List α)}
    (hbody : ∀ x s, body x s = some (true,s.1,s.2++[x])) (hm : m ≠ head) (hself : h.next m = m)
    (k : ℕ) (seen : List α) : walk Prod.fst body head k m (h,seen) = none := by
  induction k generalizing seen with
  | zero => rfl
  | succ k ih =>
    rw [walk, if_neg hm, hbody, Option.bind_some]
    simp only [if_true, hself]
    exact ih (seen++[m])

theorem torn_endless (hnew : new ≠ head) (hm : m ≠ head) (hhead : h.next head = new)
    (hnext : h.next new = m) (hself : h.next m = m) (k : ℕ) :
    listForEachEntry head k h = none := by
  rw [listForEachEntry, hhead, Option.map_eq_none_iff]
  cases k with
  | zero => rfl
  | succ k =>
    rw [walk, if_neg hnew, Option.bind_some]
    simp only [if_true, hnext]
    exact walk_endless (fun _ _ => rfl) hm hself k [new]

theorem torn_unsound (hs : Torn new head m a ys s) (hi : s.insert = .done)
    (hd : s.drain = .done) : ¬Sound new head s.links ∧
      ((∀ k, listForEachEntry head k s.links = none) ∨ listEmpty head s.links = true) := by
  have hst := hs.draining.stands
  rw [hd] at hst
  obtain rfl : ys = [] := hst
  have hleads := hs.leads
  rw [hi] at hleads
  obtain ⟨hnext,hhead⟩ := hleads
  have hself : s.links.next m = m := by
    have hleaves := hs.leaves
    simpa [Leaves, hd, Drain.takes, Drain.unlinks] using hleaves
  have hnh : new ≠ head := fun he => hs.fresh (he ▸ by simp)
  obtain ⟨hmn,hmh⟩ := hs.other
  refine ⟨?_,hhead.imp (fun hh => torn_endless hnh hmh hh hnext hself) fun hh => ?_⟩
  · rintro (hr | ⟨-,hr⟩)
    · exact hmh (hnext.symm.trans (show Ring s.links head ([]++new::[]) from hr).neighbours.2)
    · exact hmn (hnext.symm.trans hr.next_head)
  · simpa [listEmpty] using hh

end Steps

/-- Whatever access falls between which: the entry ends up on the list or drained from it
exactly if no deletion overlaps the first accesses of the insertion where it matters.
Otherwise no walk of the list comes to its end, or the list reads empty and the entry is
lost. -/
theorem insert_race {h : Links α} {new head : α} {xs : List α} {ls : List Label} {t : Race α}
    (hr : Ring h head xs) (hnew : new ∉ head::xs)
    (ht : run (step new head) ls (initRace h) = some t) (hi : t.insert = .done)
    (hd : t.drain = .done) :
    (Sound new head t.links ↔ Meets (step new head) (Careful head) ls (initRace h)) ∧
      (¬Sound new head t.links →
        (∀ k, listForEachEntry head k t.links = none) ∨ listEmpty head t.links = true) := by
  have hgood : Good new head (initRace h) := by
    have hback : h.prev (xs.head?.getD head) = head := by
      cases xs with
      | nil => exact (ring_nil_iff.mp hr).2
      | cons x xs => exact (List.isChain_cons_cons.mp hr.path).1.2
    have hforward : Forward h (xs++[head]) := hr.path.forward.tail
    refine .inl ⟨xs,⟨?_,hforward,trivial,hback⟩,?_,by simp [initRace, Drain.unlinks],
      by simp [initRace, Drain.selfs],hr.next_head⟩
    · exact (List.perm_append_singleton head xs).nodup_iff.mpr hr.nodup
    · simpa [and_comm] using hnew
  rcases run_decides (fun l s t hs => step_good l hs) (fun l s t hs => step_torn l hs) hgood ht
    with ⟨hm,hg⟩ | ⟨hm,m,a,zs,htorn⟩
  · have hs := good_sound hg hi hd
    exact ⟨iff_of_true hs hm,fun hno => absurd hs hno⟩
  · obtain ⟨hs,hout⟩ := torn_unsound htorn hi hd
    exact ⟨iff_of_false hs hm,fun _ => hout⟩

def sampleLinks : Links ℕ := listAdd 1 0 (initListHead 0 ⟨fun _ => 0,fun _ => 0⟩)

/-- The deletion begins once the entry that was found points back to the new one. -/
def sampleOrder : List Label :=
  [.drain,.insert,.insert,.drain,.drain,.drain,.insert,.insert,.drain,.drain,.insert,.drain,
    .drain,.drain,.drain]

/-- The insertion loads `head->next` when the predecessor of the entry there has been read. -/
def tornOrder : List Label :=
  [.drain,.drain,.drain,.insert,.drain,.drain,.drain,.drain,.drain,.drain,.drain,.insert,.insert,
    .insert,.insert]

theorem sample_ring : Ring sampleLinks 0 [1] :=
  list_add_ring (init_list_head_ring 0 _) (by decide)

theorem insert_race_sample :
    (∃ t, run (step 2 0) sampleOrder (initRace sampleLinks) = some t ∧ Sound 2 0 t.links) ∧
      ∃ t, run (step 2 0) tornOrder (initRace sampleLinks) = some t ∧ ¬Sound 2 0 t.links := by
  have hmeets : Meets (step 2 0) (Careful 0) sampleOrder (initRace sampleLinks) := by decide
  have hnot : ¬Meets (step 2 0) (Careful 0) tornOrder (initRace sampleLinks) := by decide
  exact ⟨⟨_,rfl,(insert_race sample_ring (by decide) rfl rfl rfl).1.mpr hmeets⟩,
    _,rfl,fun hs => hnot ((insert_race sample_ring (by decide) rfl rfl rfl).1.mp hs)⟩

end Maruswap.ListRace
