import SschedSimulator.Scheduler.Throughput

namespace SschedSimulator

open Foundation

/-!
# How many pairs the schedulers find

A maximal matching is at least half as large as the largest one.  With fewer iterations than that
needs, iSLIP and QPS without replacement find a pair in each of them.

* `Islip.half_of_largest` and `Qps.half_of_sampled` — a slot with `k` iterations finds half of what
  there is, or `k` pairs.
-/

variable {n m : ℕ}

/-- A matching of VOQs that are not empty. -/
def Servable (sw : IQSwitch n m) (row : Fin n → Option (Fin m)) : Prop :=
  IsMatching row ∧ ∀ s d, row s = some d → 0 < sw.getQueueLength s d

/-- What is maximal or has `k` pairs. -/
theorem half_or_le_matchSize {sw : IQSwitch n m} {row : Fin n → Option (Fin m)}
    {column : Fin m → Option (Fin n)} {k : ℕ}
    (h : MaximalMatching (fun s d => 0 < sw.getQueueLength s d) row column ∨ k ≤ matchSize row) :
    (∀ row', Servable sw row' → matchSize row' ≤ 2 * matchSize row) ∨ k ≤ matchSize row :=
  h.imp_left (fun hmax row' hrow' => hmax.matchSize_le_two_mul hrow'.1 hrow'.2)

namespace Islip

variable {iterations : ℕ}

/-- In every slot of every run from an empty switch or from `init`, iSLIP serves at least half as
    many VOQs as any matching could, or as many as it has iterations. -/
theorem half_of_largest {gp : Fin m → ℕ} {ap : Fin n → ℕ} (hgp : ∀ o, gp o < n)
    (hap : ∀ i, ap i < m) {sys sys' : System (model n m iterations)} (hstart : Start gp ap sys)
    (hrun : Run (model n m iterations) sys sys') (channels : Fin n → List (Packet n m)) :
    ∃ next, switching (model n m iterations) () channels sys' = .ok next ∧
      Servable (sys'.switch.readInputs channels) next.scheduler.inMatch ∧
      ((∀ row, Servable (sys'.switch.readInputs channels) row →
          matchSize row ≤ 2 * matchSize next.scheduler.inMatch) ∨
        iterations ≤ matchSize next.scheduler.inMatch) := by
  obtain ⟨next, hok, -, hsafe, hmax⟩ :=
    ((hstart.synchronised hgp hap).run hrun).maximal_or_le_matchSize_slot channels
  exact ⟨next, hok, ⟨hsafe.inMatching, hsafe.backlogged⟩, half_or_le_matchSize hmax⟩

/-- Two inputs with packets for both outputs and one iteration. -/
theorem half_of_two :
    ∃ next, switching (model 2 2 1) () (fun s => [⟨s, 0, 0, 0⟩, ⟨s, 1, 0, 0⟩])
        ⟨IQSwitch.empty 2 2, initial (fun _ => 0) (fun _ => 0)⟩ = .ok next ∧
      1 ≤ matchSize next.scheduler.inMatch := by
  obtain ⟨next, hok, -, hhalf⟩ := @half_of_largest 2 2 1 (fun _ => 0) (fun _ => 0) (by decide)
    (by decide) _ _ (.empty (IQSwitch.empty_empty 2 2)) .refl
    (fun s => [⟨s, 0, 0, 0⟩, ⟨s, 1, 0, 0⟩])
  refine ⟨next, hok, hhalf.elim (fun hall => ?_) id⟩
  -- The straight matching could be served.
  have hstraight := hall (fun s => some s) ⟨by decide, by decide⟩
  rw [show matchSize (fun s : Fin 2 => some s) = 2 by decide] at hstraight
  omega

end Islip

namespace Qps

/-- The same for QPS without replacement, whatever is drawn. -/
theorem half_of_sampled {cfg : Config} (hcfg : cfg.withoutReplacement = true)
    {sys sys' : System (model n m cfg)} (hstart : Start cfg sys)
    (hrun : RunWhere (model n m cfg) (fun draws _ _ => Drawn draws) sys sys')
    {draws : ℕ → TreeDraws n m} (hdrawn : Drawn draws) (channels : Fin n → List (Packet n m)) :
    ∃ next, switching (model n m cfg) draws channels sys' = .ok next ∧
      Servable (sys'.switch.readInputs channels) next.scheduler.inMatch ∧
      ((∀ row, Servable (sys'.switch.readInputs channels) row →
          matchSize row ≤ 2 * matchSize next.scheduler.inMatch) ∨
        cfg.iterations ≤ matchSize next.scheduler.inMatch) := by
  obtain ⟨next, hok, -, hinverse, hserved, hmax⟩ :=
    maximal_or_le_matchSize_slot hcfg hdrawn.valid channels (mirror_run hstart.mirror hrun)
  exact ⟨next, hok, ⟨hinverse.isMatching, hserved⟩, half_or_le_matchSize hmax⟩

/-- Both inputs ask for the first output. -/
theorem half_of_two_sampled :
    ∃ next, switching (model 2 2 ⟨1, .longestFirst, true⟩) (fun _ => inOrderDraws 2 2 (1 / 4))
        (fun s => [⟨s, 0, 0, 0⟩, ⟨s, 1, 0, 0⟩]) ⟨IQSwitch.empty 2 2, initial⟩ = .ok next ∧
      1 ≤ matchSize next.scheduler.inMatch := by
  obtain ⟨next, hok, -, hhalf⟩ := @half_of_sampled 2 2 ⟨1, .longestFirst, true⟩ rfl _ _
    (.empty (IQSwitch.empty_empty 2 2)) .refl (fun _ => inOrderDraws 2 2 (1 / 4))
    (fun _ _ => ⟨1 / 4, by norm_num, by norm_num, rfl⟩) (fun s => [⟨s, 0, 0, 0⟩, ⟨s, 1, 0, 0⟩])
  refine ⟨next, hok, hhalf.elim (fun hall => ?_) id⟩
  have hstraight := hall (fun s => some s) ⟨by decide, by decide⟩
  rw [show matchSize (fun s : Fin 2 => some s) = 2 by decide] at hstraight
  omega

end Qps

end SschedSimulator
