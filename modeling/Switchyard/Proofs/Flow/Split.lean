import Mathlib.Data.List.Basic
import Switchyard.Flow.Split
import Switchyard.Proofs.Flow.Visits

/-
  Switchyard.Proofs.Flow.Split — which branches of a split are walked, and from where.

  Where no two branches have one name, `toRun_plan` gives the branches walked: each
  but those whose earlier outcome completed, from where that outcome stands or, without
  one, from its entry. `takenUp_eq_anew_iff` says when that is what a split does that
  knows of no earlier outcomes: when none of them completed and each stands where its
  branch begins.
-/

namespace Switchyard.Split

def anew (branches : List Graph) : List (Nat × Graph × FlowStart) :=
  branches.zipIdx.map fun (b, i) => (i, b, FlowStart.entry b)

/-- Where a branch is walked from, if it is, after its earlier outcome. -/
def begun? (branch : Graph) (previous : Option FlowOutcome) : Option FlowStart :=
  match previous with
  | none => some (FlowStart.entry branch)
  | some o => if o.status = .completed then none else some (FlowStart.resume branch o)

def takenUp (previous : String → Option FlowOutcome) (branches : List Graph) : List (Nat × Graph × FlowStart) :=
  branches.zipIdx.filterMap fun (b, i) => (begun? b (previous b.name)).map fun s => (i, b, s)

theorem planFrom_eq {branches : List Graph} (h : (branches.map (·.name)).Nodup) (prior : Dict FlowOutcome) :
    planFrom prior branches = branches.map fun b => planOne b (prior.get? b.name) := by
  induction branches generalizing prior with
  | nil => rfl
  | cons b rest ih =>
    obtain ⟨hb, hrest⟩ := List.nodup_cons.mp h
    rw [planFrom, ih hrest, List.map_cons]
    congr 1
    refine List.map_congr_left fun c hc => ?_
    have hne : c.name ≠ b.name := fun heq => hb (List.mem_map.mpr ⟨c, hc, heq⟩)
    rw [Dict.get?_erase_of_ne _ hne]

theorem toRun_map (plan : Graph → Plan) (branches : List Graph) :
    toRun branches (branches.map plan) = branches.zipIdx.filterMap fun (b, i) =>
      match plan b with
      | .run s => some (i, b, s)
      | .reuse _ => none := by
  have hzip : (branches.map id).zip (branches.map plan) = branches.map fun b => (b, plan b) := List.zip_map'
  rw [List.map_id] at hzip
  rw [toRun, hzip, List.zipIdx_map, List.filterMap_map]
  refine List.filterMap_congr fun x _ => ?_
  simp only [Function.comp, Prod.map]
  cases plan x.1 <;> rfl

theorem toRun_plan {branches : List Graph} (h : (branches.map (·.name)).Nodup) (prior : Option (List FlowOutcome)) :
    toRun branches (plan prior branches) = takenUp (byFlow (prior.getD [])).get? branches := by
  rw [plan, planFrom_eq h, toRun_map, takenUp]
  refine List.filterMap_congr fun x _ => ?_
  cases hprev : (byFlow (prior.getD [])).get? x.1.name with
  | none => simp [planOne, begun?, hprev]
  | some o => by_cases hcompleted : o.status = .completed <;> simp [planOne, begun?, hprev, hcompleted]

/-- No branch is walked twice. -/
theorem nodup_takenUp {branches : List Graph} (h : (branches.map (·.name)).Nodup)
    (previous : String → Option FlowOutcome) : ((takenUp previous branches).map (·.2.1.name)).Nodup := by
  have hsub : ((takenUp previous branches).map (·.2.1.name)).Sublist (branches.zipIdx.map (·.1.name)) := by
    rw [takenUp]
    generalize branches.zipIdx = l
    induction l with
    | nil => exact List.Sublist.refl _
    | cons x rest ih =>
      obtain ⟨b, i⟩ := x
      cases hbegun : begun? b (previous b.name) with
      | none => simpa [hbegun] using ih.cons _
      | some s => simpa [hbegun] using ih
  refine hsub.nodup ?_
  have hnames : branches.zipIdx.map (·.1.name) = (branches.zipIdx.map Prod.fst).map (·.name) := by
    rw [List.map_map]
    rfl
  rw [hnames, List.zipIdx_map_fst]
  exact h

theorem begun?_eq_entry_iff {branch : Graph} {previous : Option FlowOutcome} :
    begun? branch previous = some (FlowStart.entry branch) ↔
      ∀ o, previous = some o → o.status ≠ .completed ∧ FlowStart.resume branch o = FlowStart.entry branch := by
  cases previous with
  | none => simp [begun?]
  | some o => by_cases h : o.status = .completed <;> simp [begun?, h]

theorem takenUp_eq_anew_iff {previous : String → Option FlowOutcome} {branches : List Graph} :
    takenUp previous branches = anew branches ↔
      ∀ b ∈ branches, ∀ o, previous b.name = some o →
        o.status ≠ .completed ∧ FlowStart.resume b o = FlowStart.entry b := by
  rw [takenUp, anew, List.filterMap_eq_map_iff_forall_eq_some]
  have hone : ∀ x : Graph × Nat, ((begun? x.1 (previous x.1.name)).map fun s => (x.2, x.1, s))
      = some (x.2, x.1, FlowStart.entry x.1) ↔ begun? x.1 (previous x.1.name) = some (FlowStart.entry x.1) := by
    intro x
    cases begun? x.1 (previous x.1.name) <;> simp
  constructor
  · intro h b hb
    obtain ⟨i, hi⟩ := List.mem_iff_getElem?.mp hb
    exact begun?_eq_entry_iff.mp ((hone (b, i)).mp (h (b, i) (List.mk_mem_zipIdx_iff_getElem?.mpr hi)))
  · intro h x hx
    exact (hone x).mpr (begun?_eq_entry_iff.mpr (h x.1 (List.mem_of_getElem? (List.mem_zipIdx_iff_getElem?.mp hx))))

end Switchyard.Split
