import Maruswap.ServerBookkeeping
import Maruswap.MulticastLoop

/-!
# Two commit paths

A COMMIT frame and a COMMIT request are handled by two functions over the same
commit list. The RDMA one conveys what is not yet conveyed and resets counter
and flags; the multicast one conveys every entry once more, latest frame first,
and resets neither. What each leaves behind is compared on the server states
that OPEN and FLOW messages lead to.
-/

set_option autoImplicit false

namespace Maruswap.CommitPaths
open WireFormat ServerHandlers ServerBookkeeping GuardedRun
open MulticastLoop hiding step

variable {Page : Type*} [Zero Page]

def IsFlow : Message Page → Prop
  | .flow _ _ _ _ => True
  | _ => False

/-- From `s`, the multicast path has led to `t` and the RDMA path to `u`. -/
structure Agree (s t u : Server Page) : Prop where
  contents : t.pageAt = u.pageAt
  list : t.commitList = [] ∧ u.commitList = []
  batch : t.batch = 0 ∧ u.batch = 0
  convey : ∀ w ∈ s.commitList, (t.rw w).convey = false ∧ (u.rw w).convey = false
  later : ∀ ms : List (Message Page), (∀ m ∈ ms, IsFlow m) → ∀ t' u',
    run step ms t = some t' → run step ms u = some u' → t'.pageAt = u'.pageAt

def viaMulticast (alloc : ℕ → AllocResult) (header : U32) (payload : Page) (w : ℕ)
    (s : Server Page) : Server Page :=
  (processMulticastRpcCommit alloc ⟨header,w,0⟩ (deliver w payload s)).1

theorem convey_page_grows (a : AllocResult) (wc : Wc) (s : Server Page) :
    s.batch ≤ (ibConveyPage a wc s).2.batch ∧
      ∀ w, (s.rw w).convey = true → ((ibConveyPage a wc s).2.rw w).convey = true := by
  rcases ib_convey_page_cases a wc s with ⟨-,h⟩ | ⟨h,-,-⟩
  · refine ⟨by rw [h.batch]; omega,?_⟩
    intro w hw
    rw [h.rw_eq]
    by_cases hwc : w = wc.wrId
    · subst hwc; simp
    · simpa [hwc] using hw
  · rw [h]
    exact ⟨le_refl _,fun _ hw => hw⟩

theorem multicast_walk_grows (alloc : ℕ → AllocResult) (ws : List ℕ) (s : Server Page) :
    s.batch ≤ (multicastWalk alloc ws s).batch ∧
      ∀ w, (s.rw w).convey = true → ((multicastWalk alloc ws s).rw w).convey = true := by
  induction ws generalizing s with
  | nil => exact ⟨le_refl _,fun _ hw => hw⟩
  | cons v ws ih =>
    have hone := convey_page_grows (alloc v) (s.rw v).wc s
    simp only [multicastWalk]
    split_ifs
    · have hrest := ih (ibConveyPage (alloc v) (s.rw v).wc s).2
      exact ⟨hone.1.trans hrest.1,fun w hw => hrest.2 w (hone.2 w hw)⟩
    · exact hone

theorem via_multicast_eq (alloc : ℕ → AllocResult) (header : U32) (payload : Page) (w : ℕ)
    (s : Server Page) (hl : s.commitList ≠ []) :
    viaMulticast alloc header payload w s =
      let t := multicastWalk alloc s.commitList (deliver w payload s)
      multicastDrain t.commitList t :=
  congrArg Prod.fst (if_neg hl)

theorem via_multicast_grows (alloc : ℕ → AllocResult) (header : U32) (payload : Page) (w : ℕ)
    (s : Server Page) (hl : s.commitList ≠ []) :
    s.batch ≤ (viaMulticast alloc header payload w s).batch ∧
      ∀ v, (s.rw v).convey = true →
        ((viaMulticast alloc header payload w s).rw v).convey = true := by
  have h := multicast_walk_grows alloc s.commitList (deliver w payload s)
  rw [via_multicast_eq alloc header payload w s hl]
  dsimp only
  rw [multicast_drain_eq _ _ rfl]
  refine ⟨h.1,fun v hv => h.2 v ?_⟩
  by_cases hvw : v = w
  · subst hvw
    simpa [deliver] using hv
  · simpa [deliver, hvw] using hv

theorem disagree_of_batch (alloc : ℕ → AllocResult) (header : U32) (payload : Page) (w : ℕ)
    (s u : Server Page) (hl : s.commitList ≠ []) (hb : 0 < s.batch) :
    ¬ Agree s (viaMulticast alloc header payload w s) u := by
  intro h
  have hgrow := (via_multicast_grows alloc header payload w s hl).1
  have hzero := h.batch.1
  omega

theorem commit_need_eq (immData : U32) (h : ibGetOpcode immData = opcodeCommit) :
    commitNeed immData = configBatch := by
  have hop : immData.toNat / 2^28 = 3 := (ib_get_opcode_eq immData).symm.trans (by rw [h]; rfl)
  have hne : immData >>> 28 ≠ opcodeQcommit := by
    intro hq
    have hn := congrArg BitVec.toNat hq
    rw [BitFields.toNat_high, hop] at hn
    exact absurd hn (by decide)
  rw [commitNeed, if_neg hne]

theorem rdma_commit_resets (alloc : ℕ → AllocResult) (immData : U32) (s : Server Page)
    (hl : s.commitList ≠ []) (hb : commitNeed immData ≤ s.batch) :
    ∃ u, processRdmaRpcCommit alloc immData s = some u ∧ u.commitList = [] ∧ u.batch = 0 ∧
      ∀ v ∈ s.commitList, (u.rw v).convey = false := by
  have hw := commit_walk_unmoved alloc s.commitList s
  refine ⟨(commitRegion alloc s).emit (.committed immData),?_,?_⟩
  · rw [processRdmaRpcCommit, if_neg hl, if_neg (by omega)]
  · rw [commitRegion, drain_eq _ _ rfl, hw.commitList]
    refine ⟨rfl,rfl,fun v hv => ?_⟩
    simp [Server.emit, resetBatch, cleared, hv]

/-- In no server state that is ready to commit do the two paths agree: the RDMA
one resets the counter and the flags of the list, the multicast one keeps the
counter and every raised flag. -/
theorem commit_paths_disagree (s : Server Page) (hl : s.commitList ≠ []) (immData : U32)
    (hrequest : ibGetOpcode immData = opcodeCommit) (hb : commitNeed immData ≤ s.batch)
    (header : U32) (payload : Page) (w : ℕ) (alloc allocRdma : ℕ → AllocResult) :
    ∃ u, processRdmaRpcCommit allocRdma immData s = some u ∧
      ¬ Agree s (viaMulticast alloc header payload w s) u ∧
      (u.batch = 0 ∧ ∀ v ∈ s.commitList, (u.rw v).convey = false) ∧
      configBatch ≤ (viaMulticast alloc header payload w s).batch ∧
      ∀ v, (s.rw v).convey = true →
        ((viaMulticast alloc header payload w s).rw v).convey = true := by
  have hneed := commit_need_eq immData hrequest
  have hpos : 0 < configBatch := by decide
  have hgrow := via_multicast_grows alloc header payload w s hl
  obtain ⟨u,hu,-,hreset⟩ := rdma_commit_resets allocRdma immData s hl hb
  refine ⟨u,hu,?_,hreset,?_,hgrow.2⟩
  · exact disagree_of_batch alloc header payload w s _ hl (by omega)
  · omega

def flood (ws : List ℕ) : List (Message ℕ) :=
  ws.map fun w => .flow (flowHeader 5#32) (w+1) w ⟨some 0,some 1#32⟩

theorem flood_run (ws : List ℕ) (s : Server ℕ) (hs : Bookkept s) (hn : ws.Nodup)
    (hw : ∀ w ∈ ws, w ∈ s.posted) :
    ∃ t, run step (flood ws) s = some t ∧ Bookkept t ∧
      t.commitList.length = s.commitList.length+ws.length ∧
      ∀ v ∈ s.posted, v ∉ ws → v ∈ t.posted := by
  induction ws generalizing s with
  | nil => exact ⟨s,rfl,hs,rfl,fun v hv _ => hv⟩
  | cons w ws ih =>
    obtain ⟨hnot,hn⟩ := List.nodup_cons.mp hn
    have ha : AllocResult.Succeeds ⟨some 0,some 1#32⟩ := ⟨rfl,rfl⟩
    have hmem := hw w (by simp)
    have hin : ibGetOpcode (flowHeader 5#32) = multicastOpcodeFlow ∧ InTable (flowHeader 5#32) := by
      decide
    have heff := flow_effect (flowHeader 5#32) (w+1) w _ s hs ha hmem
    have hbook := flow_bookkept (flowHeader 5#32) (w+1) w _ s hs ha hmem
    have hposted : ∀ v ∈ s.posted, v ≠ w → v ∈ (processMulticastRpcFlow ⟨some 0,some 1#32⟩
        ⟨flowHeader 5#32,w,0⟩ (deliver w (w+1) s)).posted := by
      intro v hv hvw
      rw [heff.posted]
      exact (List.mem_erase_of_ne hvw).mpr hv
    obtain ⟨t,ht,hb,hlen,hkeep⟩ := ih _ hbook hn (fun v hv =>
      hposted v (hw v (by simp [hv])) (fun h => hnot (h ▸ hv)))
    refine ⟨t,run_cons.mpr ⟨_,if_pos ⟨hin.1,hin.2,hmem⟩,ht⟩,hb,?_,?_⟩
    · rw [hlen, heff.commitList]
      simp only [flowListAdd, deliver, List.length_cons]
      omega
    · intro v hv hvw
      obtain ⟨hne,hnot⟩ := not_or.mp (fun h => hvw (List.mem_cons.mpr h))
      exact hkeep v (hposted v hv hne) hnot

theorem flood_ready : ∃ s, run step (flood (List.range configBatch)) (initServer 0 1#32) = some s ∧
    Bookkept s ∧ s.commitList ≠ [] ∧ commitNeed commitWord ≤ s.batch ∧ configBatch ∈ s.posted := by
  have hlt : configBatch < mcmMaxRecvWr := by decide
  obtain ⟨s,hs,hb,hlen,hkeep⟩ := flood_run (List.range configBatch) (initServer 0 1#32)
    (init_bookkept 0 1#32) List.nodup_range (by
      intro w hw
      have := List.mem_range.mp hw
      simp only [initServer, List.mem_range]
      omega)
  have hlen' : s.commitList.length = configBatch := by simpa [initServer] using hlen
  have hneed : commitNeed commitWord = configBatch := commit_need_eq _ (by decide)
  refine ⟨s,hs,hb,?_,?_,?_⟩
  · intro h
    rw [h] at hlen'
    exact absurd hlen' (by decide)
  · rw [hneed, hb.batch, hlen']
  · exact hkeep configBatch (by simp [initServer, hlt]) (by simp)

theorem commit_paths_disagree_sample : ∃ s u : Server ℕ,
    run step (flood (List.range configBatch)) (initServer 0 1#32) = some s ∧
      processRdmaRpcCommit (fun _ => ⟨none,none⟩) commitWord s = some u ∧
      ¬ Agree s (viaMulticast (fun _ => ⟨none,none⟩) (multicastOpcodeCommit <<< 28) 0
        configBatch s) u := by
  obtain ⟨s,hs,-,hl,hb,-⟩ := flood_ready
  obtain ⟨u,hu,hne,-⟩ := commit_paths_disagree s hl commitWord (by decide) hb
    (multicastOpcodeCommit <<< 28) 0 configBatch (fun _ => ⟨none,none⟩) (fun _ => ⟨none,none⟩)
  exact ⟨s,u,hs,hu,hne⟩

/-- A COMMIT frame after 512 frames, handled on the multicast side, leaves the
counter where the RDMA side waits for it. -/
theorem counter_survives_commit : ∃ s u : Server ℕ,
    run step (flood (List.range configBatch)) (initServer 0 1#32) = some s ∧
      s.commitList ≠ [] ∧ configBatch ∈ s.posted ∧
      processRdmaRpcCommit (fun _ => ⟨none,none⟩) commitWord s = some u ∧ u.batch = 0 ∧
      (viaMulticast (fun _ => ⟨none,none⟩) (multicastOpcodeCommit <<< 28) 0
        configBatch s).batch ≠ 0 ∧
      ¬ Agree s (viaMulticast (fun _ => ⟨none,none⟩) (multicastOpcodeCommit <<< 28) 0
        configBatch s) u := by
  obtain ⟨s,hs,-,hl,hb,hw⟩ := flood_ready
  have hneed : commitNeed commitWord = configBatch := commit_need_eq _ (by decide)
  have hpos : 0 < configBatch := by decide
  have hgrow := (via_multicast_grows (fun _ => ⟨none,none⟩) (multicastOpcodeCommit <<< 28) 0
    configBatch s hl).1
  obtain ⟨u,hu,-,hzero,-⟩ := rdma_commit_resets (fun _ => ⟨none,none⟩) commitWord s hl hb
  refine ⟨s,u,hs,hl,hw,hu,hzero,by omega,?_⟩
  exact disagree_of_batch _ _ 0 configBatch s _ hl (by omega)

end Maruswap.CommitPaths
