import Maruswap.DriverCalls
import Mathlib.Algebra.Order.Group.Multiset

/-!
# The page mappings of a run

`get_req_for_page` maps the page of a call, and the two sends unmap it, once their
poll loop has ended. No other way out of a call unmaps, so a call keeps its mapping
whenever it returns early.
-/

set_option autoImplicit false

namespace Maruswap.PageMappings
open WireFormat DriverStage DriverCalls DriverCalls.Calls GuardedRun

variable {Page : Type*}

def mapping : Event Page → Bool
  | .map _ => true
  | .unmap _ => true
  | _ => false

/-- The mappings that are live after a log, latest event first. -/
def live : List (Event Page) → Multiset ℕ
  | [] => 0
  | .map dma::log => dma ::ₘ live log
  | .unmap dma::log => (live log).erase dma
  | _::log => live log

/-- Between the two states a page has been mapped and then unmapped once, or nothing
has been mapped or unmapped. -/
def Balanced (s t : Calls Page) : Prop := ∃ new, t.log = new++s.log ∧
  (new.filter mapping = [] ∨ ∃ dma, new.filter mapping = [.unmap dma,.map dma])

inductive Fate where
  | untouched
  | leaked (dma : ℕ)
  | released (dma : ℕ)

def Fate.events : Fate → List (Event Page)
  | .untouched => []
  | .leaked dma => [.map dma]
  | .released dma => [.unmap dma,.map dma]

def Fate.adds : Fate → Multiset ℕ
  | .leaked dma => {dma}
  | _ => 0

def Moves (f : Fate) (s t : Calls Page) : Prop :=
  ∃ new, t.log = new++s.log ∧ new.filter mapping = f.events

variable {f : Fate} {s t u : Calls Page}

theorem moves_refl (s : Calls Page) : Moves .untouched s s := ⟨[],rfl,rfl⟩

theorem Moves.still (h : Moves f s t)
    (ht : ∃ new, u.log = new++t.log ∧ ∀ e ∈ new, mapping e = false) : Moves f s u := by
  obtain ⟨new,hnew,hf⟩ := h
  obtain ⟨more,hmore,hstill⟩ := ht
  refine ⟨more++new,by rw [hmore, hnew, List.append_assoc],?_⟩
  have hnone : more.filter mapping = [] :=
    List.filter_eq_nil_iff.mpr fun e he => by simp [hstill e he]
  rw [List.filter_append, hnone, hf]
  rfl

theorem Moves.emit (h : Moves f s t) (e : Event Page) (he : mapping e = false) :
    Moves f s (t.emit e) :=
  h.still ⟨[e],rfl,by simpa using he⟩

theorem Moves.map (h : Moves .untouched s t) (dma : ℕ) :
    Moves (.leaked dma) s (t.emit (.map dma)) := by
  obtain ⟨new,hnew,hf⟩ := h
  refine ⟨.map dma::new,congrArg (_::·) hnew,?_⟩
  rw [List.filter_cons_of_pos rfl, hf]
  rfl

theorem Moves.unmap {dma : ℕ} (h : Moves (.leaked dma) s t) :
    Moves (.released dma) s (t.emit (.unmap dma)) := by
  obtain ⟨new,hnew,hf⟩ := h
  refine ⟨.unmap dma::new,congrArg (_::·) hnew,?_⟩
  rw [List.filter_cons_of_pos rfl, hf]
  rfl

theorem asks_still {n : ℕ} {e : Event Page} (h : e.Asks n) : mapping e = false := by
  cases e <;> first | rfl | exact absurd h id

theorem Moves.asks {n : ℕ} (h : Moves f s t) (hask : Asks n t u) : Moves f s u := by
  obtain ⟨new,hnew,hasks⟩ := hask.log
  exact h.still ⟨new,hnew,fun e he => asks_still (hasks e he)⟩

theorem Moves.commit_all (h : Moves f s t) (word : U32) (results : ℕ → U32) :
    Moves f s (commitAllWith word results t).2 := by
  refine h.still ⟨_,rfl,fun e he => ?_⟩
  obtain ⟨c,rfl⟩ := requests_are he
  rfl

theorem Moves.store (h : Moves f s t) (xa : Bool) (page : Page) (offset : U32) :
    Moves f s (storePage xa page offset t) := by
  refine Moves.emit (t := withDriver _ t) h _ ?_
  split <;> rfl

def Fate.Kept (f : Fate) : Prop := ∃ dma, f = .leaked dma

/-- The mapping fails, or everything up to the completion succeeds; a read may also
find its page staged. -/
def Releases : Op Page → Calls Page → Prop
  | .write _ offset e, s => e.mapError = true ∨
      OpensAnswered offset e s ∧ CommitsAnswered e s ∧ e.post = 0#32 ∧ Completes e.polls
  | .read _ offset e, s => (stageBufferLoad offset s.stageBuffer).isSome ∨
      e.mapError = true ∨ Completes e.polls
  | _, _ => True

theorem opening_moves {offset : U32} {e : WriteEnv} {ret : U32}
    (h : Opening offset e s ret t) : Moves (.leaked e.dma) s t :=
  ((moves_refl s).map e.dma).asks (opening_asks h)

theorem committing_moves {offset : U32} {e : WriteEnv} {ret : U32}
    (ho : Opening offset e s 0#32 t) (hc : Committing e t ret u) :
    Moves (.leaked e.dma) s u := by
  cases hc with
  | room hb => exact opening_moves ho
  | full hb => exact (opening_moves ho).commit_all commitWord e.commits

theorem poll_loop_fails {polls : List Poll} (h : pollLoop polls = some false) :
    ¬Completes polls := by
  rw [← poll_loop_ends, h]
  simp

theorem write_moves {page : Page} {offset : U32} {e : WriteEnv} {ret : U32}
    (h : maruswapMulticastWrite page offset e s = some (ret,t)) :
    ∃ f, Moves f s t ∧ (¬f.Kept ↔ Releases (.write page offset e) s) := by
  have hkept : ∀ dma, (Fate.leaked dma).Kept := fun dma => ⟨dma,rfl⟩
  cases write_writing h with
  | unmapped he =>
    exact ⟨.untouched,moves_refl s,iff_of_true (by simp [Fate.Kept]) (.inl he)⟩
  | unopened he ho hret =>
    refine ⟨_,opening_moves ho,iff_of_false (fun hk => hk (hkept _)) ?_⟩
    rintro (he' | ⟨hopens,-⟩)
    · simp [he] at he'
    · exact hret ((opening_zero_iff ho).mpr hopens)
  | uncommitted he ho hc hret =>
    refine ⟨_,committing_moves ho hc,iff_of_false (fun hk => hk (hkept _)) ?_⟩
    rintro (he' | ⟨-,hcommits,-⟩)
    · simp [he] at he'
    · exact hret ((committing_zero_iff ho hc).mpr hcommits)
  | @sent _ u v _ he ho hc hsend =>
    have hv : Moves (.leaked e.dma) s (counted v) :=
      (committing_moves ho hc).still ⟨[],rfl,by simp⟩
    have hopens := (opening_zero_iff ho).mp rfl
    have hcommits := (committing_zero_iff ho hc).mp rfl
    cases hsend with
    | refused hp =>
      refine ⟨_,hv,iff_of_false (fun hk => hk (hkept _)) ?_⟩
      rintro (he' | ⟨-,-,hp',-⟩)
      · simp [he] at he'
      · exact hp hp'
    | ended hp hd =>
      refine ⟨.released e.dma,?_,iff_of_true (by simp [Fate.Kept]) (.inr ?_)⟩
      · exact ((hv.emit _ rfl).store e.xa page offset).unmap
      · exact ⟨hopens,hcommits,hp,(poll_loop_ends e.polls).mp hd⟩
    | failed hp hd =>
      refine ⟨_,(hv.emit _ rfl).store e.xa page offset,
        iff_of_false (fun hk => hk (hkept _)) ?_⟩
      rintro (he' | ⟨-,-,-,hcompletes⟩)
      · simp [he] at he'
      · exact poll_loop_fails hd hcompletes

theorem read_moves {odd : Bool} {offset : U32} {e : ReadEnv} {ret : U32}
    (h : maruswapRdmaRead odd offset e s = some (ret,t)) :
    ∃ f, Moves f s t ∧ (¬f.Kept ↔ Releases (.read odd offset e) s) := by
  obtain ⟨c,-,hread⟩ := read_reading h
  have htouch : Moves .untouched s (s.emit (.touch c (getNumMemblock offset))) :=
    (moves_refl s).emit _ rfl
  have hfetch : Moves (.leaked e.dma) s (fetching c offset e s) := by
    rw [fetching]
    split
    · exact (htouch.map e.dma).emit _ rfl
    · exact htouch.map e.dma
  cases hread with
  | staged hl =>
    refine ⟨.untouched,htouch.emit _ rfl,iff_of_true (by simp [Fate.Kept]) (.inl ?_)⟩
    rw [hl]
    rfl
  | unmapped hl he =>
    exact ⟨.untouched,htouch,iff_of_true (by simp [Fate.Kept]) (.inr (.inl he))⟩
  | ended hl he hd =>
    exact ⟨.released e.dma,hfetch.unmap,
      iff_of_true (by simp [Fate.Kept]) (.inr (.inr ((poll_loop_ends e.polls).mp hd)))⟩
  | failed hl he hd =>
    refine ⟨_,hfetch,iff_of_false (fun hk => hk ⟨e.dma,rfl⟩) ?_⟩
    rintro (hstaged | he' | hcompletes)
    · simp [hl] at hstaged
    · simp [he] at he'
    · exact poll_loop_fails hd hcompletes

theorem step_moves (l : Op Page) (s t : Calls Page) (h : step l s = some t) :
    ∃ f, Moves f s t ∧ (¬f.Kept ↔ Releases l s) := by
  have huntouched : ¬(Fate.untouched).Kept := by simp [Fate.Kept]
  cases l with
  | connect c =>
    obtain rfl := Option.some.inj h
    exact ⟨.untouched,⟨[],rfl,rfl⟩,iff_of_true huntouched trivial⟩
  | write page offset e =>
    obtain ⟨⟨ret,u⟩,hu,rfl⟩ := Option.map_eq_some_iff.mp h
    obtain ⟨f,hf,hiff⟩ := write_moves hu
    exact ⟨f,hf.emit _ rfl,hiff⟩
  | read odd offset e =>
    obtain ⟨⟨ret,u⟩,hu,rfl⟩ := Option.map_eq_some_iff.mp h
    exact read_moves hu
  | commit c ret =>
    obtain rfl := Option.some.inj h
    exact ⟨.untouched,(moves_refl s).emit _ rfl,iff_of_true huntouched trivial⟩
  | qcommit c count ret =>
    obtain rfl := Option.some.inj h
    exact ⟨.untouched,(moves_refl s).emit _ rfl,iff_of_true huntouched trivial⟩
  | commitAll results =>
    obtain rfl := Option.some.inj h
    exact ⟨.untouched,(moves_refl s).commit_all _ results,iff_of_true huntouched trivial⟩
  | qcommitAll count results =>
    obtain rfl := Option.some.inj h
    exact ⟨.untouched,(moves_refl s).commit_all _ results,iff_of_true huntouched trivial⟩

theorem live_still {e : Event Page} (he : mapping e = false) (log : List (Event Page)) :
    live (e::log) = live log := by
  cases e with
  | map dma => cases he
  | unmap dma => cases he
  | _ => rfl

theorem live_filter (new log : List (Event Page)) :
    live (new++log) = live (new.filter mapping++log) := by
  induction new with
  | nil => rfl
  | cons e new ih =>
    cases he : mapping e with
    | false =>
      rw [List.cons_append, live_still he, ih, List.filter_cons_of_neg (by simp [he])]
    | true =>
      rw [List.filter_cons_of_pos he, List.cons_append, List.cons_append]
      cases e with
      | map dma => exact congrArg (dma ::ₘ ·) ih
      | unmap dma => exact congrArg (Multiset.erase · dma) ih
      | _ => cases he

/-- A call that keeps its mapping adds it to those that are live; another call leaves
them as they were. -/
theorem Moves.live_eq (h : Moves f s t) : live t.log = f.adds+live s.log := by
  obtain ⟨new,hnew,hf⟩ := h
  rw [hnew, live_filter, hf]
  cases f with
  | untouched => exact (zero_add _).symm
  | leaked dma => exact (Multiset.singleton_add dma _).symm
  | released dma => exact (Multiset.erase_cons_head dma _).trans (zero_add _).symm

theorem Fate.adds_zero (f : Fate) : f.adds = 0 ↔ ¬f.Kept := by
  cases f <;> simp [adds, Kept]

theorem Moves.live_le (h : Moves f s t) :
    live s.log ≤ live t.log ∧ (live t.log = live s.log ↔ ¬f.Kept) := by
  rw [h.live_eq, ← f.adds_zero]
  exact ⟨Multiset.le_add_left _ _,add_eq_right⟩

theorem Moves.balanced_iff (h : Moves f s t) : Balanced s t ↔ ¬f.Kept := by
  obtain ⟨new,hnew,hf⟩ := h
  have hall : Balanced s t ↔ (f.events : List (Event Page)) = [] ∨
      ∃ dma, (f.events : List (Event Page)) = [.unmap dma,.map dma] := by
    constructor
    · rintro ⟨new',hnew',hmoves⟩
      obtain rfl : new' = new := List.append_cancel_right (hnew'.symm.trans hnew)
      rwa [hf] at hmoves
    · intro hmoves
      exact ⟨new,hnew,by rwa [hf]⟩
  rw [hall]
  cases f with
  | untouched => exact iff_of_true (.inl rfl) (by simp [Fate.Kept])
  | released dma => exact iff_of_true (.inr ⟨dma,rfl⟩) (by simp [Fate.Kept])
  | leaked dma => exact iff_of_false (by simp [Fate.events]) (fun hk => hk ⟨dma,rfl⟩)

theorem run_live {ls : List (Op Page)} (h : run step ls s = some t) :
    live s.log ≤ live t.log ∧ (live t.log = live s.log ↔ Meets step Releases ls s) := by
  induction ls generalizing s with
  | nil =>
    obtain rfl := Option.some.inj h
    exact ⟨le_refl _,iff_of_true rfl trivial⟩
  | cons l ls ih =>
    obtain ⟨u,hu,hrest⟩ := run_cons.mp h
    obtain ⟨f,hf,hiff⟩ := step_moves l s u hu
    obtain ⟨hle,hone⟩ := hf.live_le
    obtain ⟨hle',hrun⟩ := ih hrest
    refine ⟨hle.trans hle',?_,?_⟩
    · intro he
      have hsu : live u.log = live s.log := le_antisymm (he ▸ hle') hle
      have hut : live t.log = live u.log := he.trans hsu.symm
      refine ⟨hiff.mp (hone.mp hsu),fun v hv => ?_⟩
      exact Option.some.inj (hu.symm.trans hv) ▸ hrun.mp hut
    · rintro ⟨hr,hmeets⟩
      exact (hrun.mpr (hmeets u hu)).trans (hone.mpr (hiff.mpr hr))

/-- In every run the calls balance their mappings one by one, and the live mappings
return to what they were, exactly if every call gets to its completion whose page has
been mapped. -/
theorem mappings_balanced_iff (ls : List (Op Page)) (s t : Calls Page)
    (h : run step ls s = some t) :
    (Meets step (fun l s => ∀ u, step l s = some u → Balanced s u) ls s ↔
      Meets step Releases ls s) ∧
    (live t.log = live s.log ↔ Meets step Releases ls s) := by
  refine ⟨meets_congr (fun l s u hu => ?_) h,(run_live h).2⟩
  obtain ⟨f,hf,hiff⟩ := step_moves l s u hu
  rw [← hiff, ← hf.balanced_iff]
  constructor
  · exact fun hall => hall u hu
  · intro hb v hv
    exact Option.some.inj (hu.symm.trans hv) ▸ hb

def freshCalls : Calls ℕ :=
  initCalls (fun _ => true) (fun _ _ => ⟨⟨0,0⟩,0#32⟩) [1,0] 0 fun _ => 0

/-- A write to a closed block whose completion comes at the second poll, and a read of
another page. -/
def sampleCalls : List (Op ℕ) :=
  [.write 7 5#32 ⟨4096,false,some ⟨⟨0,0⟩,1#32⟩,some ⟨⟨0,0⟩,1#32⟩,fun _ => 0#32,0#32,true,
      [.miss,.got true]⟩,
    .read true 6#32 ⟨8192,false,0#32,[.woken]⟩]

theorem mappings_balanced_iff_sample : ∃ t, run step sampleCalls freshCalls = some t ∧
    Meets step Releases sampleCalls freshCalls := by
  have hrun : (run step sampleCalls freshCalls).map (fun t => t.log.filter mapping) =
      some [.unmap 8192,.map 8192,.unmap 4096,.map 4096] := by decide +kernel
  obtain ⟨t,ht,hlog⟩ := Option.map_eq_some_iff.mp hrun
  refine ⟨t,ht,(mappings_balanced_iff sampleCalls freshCalls t ht).2.mp ?_⟩
  have hlive := live_filter t.log []
  rw [hlog, List.append_nil] at hlive
  exact hlive.trans (by decide)

theorem mapping_leaked : ∃ t,
    run step [.write 7 5#32 ⟨4096,false,none,none,fun _ => 0#32,0#32,true,[]⟩] freshCalls =
      some t ∧ live t.log = {4096} ∧ ¬Balanced freshCalls t := by
  have hrun : (run step [.write 7 5#32 ⟨4096,false,none,none,fun _ => 0#32,0#32,true,[]⟩]
      freshCalls).map (fun t => t.log.filter mapping) = some [.map 4096] := by decide +kernel
  obtain ⟨t,ht,hlog⟩ := Option.map_eq_some_iff.mp hrun
  have hmoves : Moves (.leaked 4096) freshCalls t := ⟨t.log,(List.append_nil _).symm,hlog⟩
  refine ⟨t,ht,hmoves.live_eq,fun hb => ?_⟩
  exact hmoves.balanced_iff.mp hb ⟨4096,rfl⟩

end Maruswap.PageMappings
