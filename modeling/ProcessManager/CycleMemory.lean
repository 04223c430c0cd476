import ProcessManager.CycleInvariant
import ProcessManager.MemoryMap

/-! Memory over a run of the loop: it stays tiled, and when no process holds a block it is one hole
of the whole capacity. -/
namespace ProcessManager

open Loop Tiling

variable {cfg : Config} {workload : List Record} {s s' : State} {p q : ProcId}
  {events : List Event} {n : ℕ} {st : Store}

theorem loadedProcs_getElem (h : p < workload.length) :
    loadedProcs workload p = createProcess workload[p] := by
  simp [loadedProcs, h]

/-- A process keeps the memory requirement of its record. -/
theorem Invariant.memRequirement (h : Invariant cfg workload s) (hp : p < workload.length) :
    (s.procs p).memRequirement = workload[p].memRequirement := by
  rw [(h.loaded p).memRequirement, loadedProcs_getElem hp]
  rfl

/-- All requirements are at least one byte. -/
def Positive (workload : List Record) : Prop := ∀ r ∈ workload, 1 ≤ r.memRequirement

theorem Invariant.waiting_positive (h : Invariant cfg workload s) (hpos : Positive workload)
    (hp : p ∈ s.inputQueue ++ s.arrived) : 1 ≤ (s.procs p).memRequirement := by
  have hlt := h.lt_of_waiting hp
  rw [h.memRequirement hlt]
  exact hpos _ (List.getElem_mem hlt)

theorem Charge.tiled (h : AtHead cfg workload s) (hc : Charge cfg s events s')
    (hb : cfg.memStrategy = .bestFit) (ht : s.store.Tiled) : s'.store.Tiled := by
  cases hc with
  | idle => exact ht
  | quantum => exact ht
  | finish hcur _ hfree =>
    have hrelease := h.release hb hcur hfree
    exact hrelease.tiled ht

theorem Admit.tiled (h : Invariant cfg workload s) (hpos : Positive workload)
    (ha : Admit cfg s events s') (hb : cfg.memStrategy = .bestFit) (ht : s.store.Tiled) :
    s'.store.Tiled := by
  cases ha with
  | @ofPass pass taken left hpass =>
    rw [hb] at hpass
    exact (hpass.tiled (h.indexed hb) h.waiting_nodup (h.waiting_unallocated hb)
      (fun _ hp => h.waiting_positive hpos hp) ht).2

theorem Schedule.tiled (hs : Schedule cfg s events s') (ht : s.store.Tiled) : s'.store.Tiled := by
  cases hs <;> exact ht

theorem run_tiled (hpos : Positive workload) (hb : cfg.memStrategy = .bestFit) :
    ∀ n s, run cfg workload n = .next s → s.store.Tiled := by
  intro n s h
  exact run_parts (I := fun s => s.store.Tiled) (initialiseMemory_tiled _) id
    (fun hhead ht hc => hc.tiled hhead hb ht) (fun hinv ht ha => ha.tiled hinv hpos hb ht)
    (fun _ ht hs => hs.tiled ht) id (congrArg Outcome.state? h)

/-- Neighbouring holes would have merged, so nothing is left but one hole. -/
theorem Store.single_hole (hi : st.Indexed) (ht : st.Tiled)
    (hfree : ∀ p, (st.procs p).blockNode = none) :
    ∃ node, st.memory = [node] ∧ st.holes = [node] ∧ st.getSize node = memCapacity := by
  have hholes : ∀ node ∈ st.memory, st.typeOf node = .hole := by
    intro node hnode
    by_contra hne
    have hprocess : st.typeOf node = .process := by
      cases htype : st.typeOf node
      · rfl
      · exact absurd htype hne
    obtain ⟨p, hp⟩ := (hi.owned node).mpr ⟨hnode, hprocess⟩
    simp [hfree p] at hp
  cases hm : st.memory with
  | nil =>
    rw [Store.Tiled, hm] at ht
    simp [memCapacity] at ht
  | cons node rest =>
    cases rest with
    | nil =>
      refine ⟨node, rfl, ?_, ?_⟩
      · have hperm := hi.holes_perm
        rw [hm, List.filter_cons_of_pos (by simp [hholes node, hm])] at hperm
        exact List.perm_singleton.mp hperm
      · rw [Store.Tiled, hm] at ht
        simp only [tiles_cons, tiles_nil] at ht
        omega
    | cons next rest =>
      have hboth := hi.not_both_holes (L := []) hm
      exact absurd ⟨hholes node (by simp [hm]), hholes next (by simp [hm])⟩ hboth

theorem Admission.none_taken {strategy : MemStrategy} {pass pass' : Pass}
    {input taken left : List ProcId} (h : Admission strategy pass input taken left pass')
    (ht : taken = []) :
    pass' = pass ∧ ∀ p ∈ input, strategy = .bestFit ∧
      ∀ node ∈ pass.store.holes, pass.store.getSize node < (pass.store.procs p).memRequirement := by
  induction h with
  | nil => exact ⟨rfl, by simp⟩
  | skip hs hsmall _ ih =>
    obtain ⟨hpass, hall⟩ := ih ht
    refine ⟨hpass, ?_⟩
    rintro q hq
    rcases List.mem_cons.mp hq with rfl | hq
    · exact ⟨hs, hsmall⟩
    · exact hall q hq
  | take => simp at ht

end ProcessManager
