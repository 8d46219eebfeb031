import Hfdl.Store.Model
import Hfdl.Tune.Controller
import Hfdl.Transition
import Mathlib.Algebra.Order.BigOperators.Group.List

/-! The split of the connection budget over the active files, oldest admission first, and the operations that change
the active set, its work and the budget. -/
namespace Hfdl
open Transition

structure ActiveFile where
  fileId : FileId
  blockSize : Int
  remaining : Int
  conns : Int
deriving DecidableEq

/-- The division is rounded up without a sum that could wrap. -/
def ActiveFile.blocks (af : ActiveFile) : Int :=
  if af.remaining.tmod af.blockSize ≠ 0 then af.remaining.tdiv af.blockSize + 1 else af.remaining.tdiv af.blockSize

/-- One connection for each remaining block, at least one and at most `lim`. -/
def usableConns (lim : Int) (af : ActiveFile) : Int :=
  if af.blockSize ≤ 0 then max lim 1 else min (max af.blocks 1) (max lim 1)

/-- The loop of `rebalanceLocked`: every newer file keeps one connection in reserve. -/
def splitConns : Int → List Int → List Int
  | _, [] => []
  | left, usable :: newer =>
    let conns := max (min usable (left - newer.length)) 1
    conns :: splitConns (left - conns) newer

/-- The active files are in admission order. -/
def rebalanceLocked (budget : Int) (active : List ActiveFile) : List ActiveFile :=
  (active.zip (splitConns budget (active.map (usableConns budget)))).map fun (af, conns) => { af with conns }

def spareConnsLocked (budget : Int) (active : List ActiveFile) : Int :=
  wrapInt64 (budget - wrapInt64 (active.map (usableConns budget)).sum)

/-- Between one connection and the usable ones, file by file. -/
def Allocation (conns usable : List Int) : Prop := List.Forall₂ (fun c u => 1 ≤ c ∧ c ≤ u) conns usable

theorem one_le_usableConns : 1 ≤ usableConns lim af := by
  simp only [usableConns]
  split <;> omega

theorem usableConns_le : usableConns lim af ≤ max lim 1 := by
  simp only [usableConns]
  split <;> omega

/-- A file that leaves a part of some budget idle cannot use more of any other. -/
theorem usableConns_of_idle (idle : usableConns lim af < lim) : usableConns other af ≤ usableConns lim af := by
  simp only [usableConns] at idle ⊢
  split at idle <;> split <;> omega

theorem ActiveFile.blocks_mono {af less : ActiveFile} (positive : 0 < af.blockSize) (size : less.blockSize = af.blockSize)
    (left : 0 ≤ less.remaining) (fewer : less.remaining ≤ af.remaining) : less.blocks ≤ af.blocks := by
  have right := left.trans fewer
  simp only [blocks, size, Int.tmod_eq_emod_of_nonneg left, Int.tmod_eq_emod_of_nonneg right, Int.tdiv_eq_ediv_of_nonneg left,
    Int.tdiv_eq_ediv_of_nonneg right]
  have quotients := Int.ediv_le_ediv positive fewer
  have lower := Int.emod_add_mul_ediv less.remaining af.blockSize
  have upper := Int.emod_add_mul_ediv af.remaining af.blockSize
  rcases quotients.lt_or_eq with smaller | same
  · split <;> split <;> omega
  · rw [same] at lower ⊢
    have floor := Int.emod_nonneg less.remaining positive.ne'
    split <;> split <;> omega

theorem usableConns_noteBlockDone {n : Nat} :
    usableConns lim { af with remaining := max (af.remaining - n) 0 } ≤ usableConns lim af := by
  simp only [usableConns]
  split
  · exact le_rfl
  rename_i positive
  by_cases work : af.remaining ≤ 0
  · have done : max (af.remaining - n) 0 = 0 := by omega
    rw [done]
    simp only [ActiveFile.blocks, Int.zero_tmod, Int.zero_tdiv, ne_eq, not_true_eq_false, if_false]
    omega
  · have fewer : ({ af with remaining := max (af.remaining - n) 0 } : ActiveFile).blocks ≤ af.blocks :=
      ActiveFile.blocks_mono (by omega) rfl (le_max_right ..) (by simp only; omega)
    omega

theorem splitConns_length : (splitConns left usable).length = usable.length := by
  induction usable generalizing left with
  | nil => rfl
  | cons u newer ih => simp only [splitConns, List.length_cons, ih]

theorem splitConns_allocation (positive : ∀ u ∈ usable, 1 ≤ u) : Allocation (splitConns left usable) usable := by
  induction usable generalizing left with
  | nil => exact .nil
  | cons u newer ih =>
    have here := positive u (List.mem_cons_self ..)
    refine .cons ⟨le_max_right .., ?_⟩ (ih fun u newer => positive u (List.mem_cons_of_mem _ newer))
    omega

theorem Allocation.length_le_sum (allocation : Allocation conns usable) : (conns.length : Int) ≤ conns.sum := by
  induction allocation with
  | nil => exact le_rfl
  | cons bounds _ ih =>
    simp only [List.length_cons, List.sum_cons]
    omega

theorem splitConns_sum_le : (splitConns left usable).sum ≤ max left usable.length := by
  induction usable generalizing left with
  | nil => exact le_max_right ..
  | cons u newer ih =>
    have rest := @ih (left - max (min u (left - newer.length)) 1)
    simp only [splitConns, List.sum_cons, List.length_cons]
    omega

theorem splitConns_sum (positive : ∀ u ∈ usable, 1 ≤ u) (enough : usable.length ≤ left) :
    (splitConns left usable).sum = min left usable.sum := by
  induction usable generalizing left with
  | nil => exact (min_eq_right enough).symm
  | cons u newer ih =>
    simp only [List.length_cons] at enough
    have later : ∀ u ∈ newer, 1 ≤ u := fun u known => positive u (List.mem_cons_of_mem _ known)
    have rest := @ih (left - max (min u (left - newer.length)) 1) later (by omega)
    have here := positive u (List.mem_cons_self ..)
    have floor : (newer.length : Int) ≤ newer.sum := by simpa using List.card_nsmul_le_sum newer 1 later
    simp only [splitConns, List.sum_cons]
    omega

/-- No other allocation gives more to an older file. -/
theorem splitConns_greatest (enough : usable.length ≤ left) (allocation : Allocation conns usable) (total : conns.sum ≤ left) :
    List.Lex (· < ·) conns (splitConns left usable) ∨ conns = splitConns left usable := by
  induction allocation generalizing left with
  | nil => exact .inr rfl
  | @cons c u conns newer bounds allocation ih =>
    simp only [List.length_cons, List.sum_cons] at enough total
    have floor := Allocation.length_le_sum allocation
    have length := allocation.length_eq
    simp only [splitConns]
    by_cases less : c < max (min u (left - newer.length)) 1
    · exact .inl (.rel less)
    · have same : c = max (min u (left - newer.length)) 1 := by omega
      rcases @ih (left - c) (by omega) (by omega) with smaller | equal
      · rw [← same]
        exact .inl (.cons smaller)
      · rw [← same, ← equal]
        exact .inr rfl

theorem conns_rebalanceLocked :
    (rebalanceLocked budget active).map (·.conns) = splitConns budget (active.map (usableConns budget)) := by
  rw [rebalanceLocked, List.map_map]
  exact List.map_snd_zip (by simp [splitConns_length])

theorem map_rebalanceLocked (blind : ∀ af conns, f { af with conns } = f af) :
    (rebalanceLocked budget active).map f = active.map f := by
  have first : (active.zip (splitConns budget (active.map (usableConns budget)))).map Prod.fst = active :=
    List.map_fst_zip (by simp [splitConns_length])
  rw [rebalanceLocked, List.map_map]
  conv_rhs => rw [← first, List.map_map]
  exact List.map_congr_left fun pair _ => blind pair.1 pair.2

theorem uses_rebalanceLocked :
    ((rebalanceLocked budget active).map (usableConns lim)).sum = (active.map (usableConns lim)).sum := by
  rw [map_rebalanceLocked fun _ _ => rfl]

theorem positive_usable {active : List ActiveFile} : ∀ u ∈ active.map (usableConns budget), 1 ≤ u := by
  intro u known
  obtain ⟨af, -, rfl⟩ := List.mem_map.mp known
  exact one_le_usableConns

theorem sum_conns_rebalanceLocked : ((rebalanceLocked budget active).map (·.conns)).sum ≤ max budget active.length := by
  rw [conns_rebalanceLocked]
  exact splitConns_sum_le.trans (by rw [List.length_map])

/-- The active set, with the limit and the two budgets that the tune loop publishes. -/
structure Allocator where
  maxWorkers : Int
  budget : Int
  committed : Int
  active : List ActiveFile
  ctrl : Controller
deriving DecidableEq

namespace Allocator

def connBudget (m : Allocator) : Int := min (max m.budget 1) (max m.maxWorkers 1)

def committedBudget (m : Allocator) : Int := min (max m.committed 1) (max m.maxWorkers 1)

def noteBlockDone (m : Allocator) (file : FileId) (n : Nat) : Allocator :=
  { m with active := m.active.map fun af => if af.fileId = file then { af with remaining := max (af.remaining - n) 0 } else af }

def admitFile (m : Allocator) (file : FileId) (blockSize remaining : Int) : Option Allocator :=
  if (∃ af ∈ m.active, af.fileId = file) ∨ spareConnsLocked m.committedBudget m.active < 1 then none
  else some { m with active := rebalanceLocked m.connBudget (m.active ++ [⟨file, blockSize, remaining, 0⟩]) }

def finish (m : Allocator) (file : FileId) : Allocator := { m with active := m.active.filter (·.fileId ≠ file) }

def assignedConns (m : Allocator) : Int := wrapInt64 (m.active.map (·.conns)).sum

def tuneTick (m : Allocator) (now : Int) (rate utilization : ℚ) (kills : Int) : Allocator :=
  let ctrl := m.ctrl.observe ⟨now, max m.maxWorkers 1, ⟨rate, utilization, m.assignedConns, kills⟩⟩
  { m with budget := ctrl.budget, committed := ctrl.committed, active := rebalanceLocked ctrl.budget m.active, ctrl }

/-- A lowered limit clamps both budgets at once. -/
def setLimits (m : Allocator) (maxWorkers : Int) : Allocator :=
  let lowered := { m with maxWorkers, budget := min m.budget (max maxWorkers 1), committed := min m.committed (max maxWorkers 1) }
  if max maxWorkers 1 < m.budget ∨ max maxWorkers 1 < m.committed then
    { lowered with active := rebalanceLocked lowered.connBudget m.active }
  else lowered

inductive Event where
  | admitFile (file : FileId) (blockSize remaining : Int)
  | noteBlockDone (file : FileId) (n : Nat)
  | finish (file : FileId)
  | tuneTick (now : Int) (rate utilization : ℚ) (kills : Int)
  | setLimits (maxWorkers : Int)

def next (m : Allocator) : Event → Option Allocator
  | .admitFile file blockSize remaining => some ((m.admitFile file blockSize remaining).getD m)
  | .noteBlockDone file n => some (m.noteBlockDone file n)
  | .finish file => some (m.finish file)
  | .tuneTick now rate utilization kills => some (m.tuneTick now rate utilization kills)
  | .setLimits maxWorkers => some (m.setLimits maxWorkers)

def initial (maxWorkers : Int) : Allocator := ⟨maxWorkers, 1, 1, [], .new ⟨0, 0, 0, 0, 0, 0, 0⟩⟩

/-- The controller computes with limits of this size without a wrap. -/
def Narrow (maxWorkers : Int) : Prop := maxWorkers * saturationNum ≤ maxInt64
deriving Decidable

/-- The limits that are set are narrow. -/
def Limited (_ : Allocator) : Event → Prop
  | .setLimits maxWorkers => Narrow maxWorkers
  | _ => True

instance : Decidable (Limited m e) := by
  unfold Limited
  split <;> infer_instance

/-- The published budgets are ordered, and the files that leave a part of a budget idle add up to less than a limit. -/
structure Sound (m : Allocator) : Prop where
  ctrl : m.ctrl.Sane
  ordered : m.committed ≤ m.budget
  narrow : Narrow m.maxWorkers
  older : 1 ≤ lim → Narrow ((m.active.map (usableConns lim)).sum - lim)

section
variable {m m' : Allocator}

theorem committedBudget_le (ordered : m.committed ≤ m.budget) : m.committedBudget ≤ m.connBudget := by
  simp only [committedBudget, connBudget]
  omega

theorem committedBudget_pos : 1 ≤ m.committedBudget := by
  simp only [committedBudget]
  omega

theorem committedBudget_narrow (narrow : Narrow m.maxWorkers) : Narrow m.committedBudget := by
  simp only [Narrow, committedBudget, saturationNum, maxInt64] at narrow ⊢
  omega

/-- The sum over the active set fits a machine integer, so the headroom is what it says. -/
theorem Sound.spare (sound : Sound m) :
    spareConnsLocked m.committedBudget m.active = m.committedBudget - (m.active.map (usableConns m.committedBudget)).sum := by
  have older := sound.older (committedBudget_pos (m := m))
  have narrow := committedBudget_narrow sound.narrow
  have positive := committedBudget_pos (m := m)
  have floor : 0 ≤ (m.active.map (usableConns m.committedBudget)).sum :=
    List.sum_nonneg fun u known => zero_le_one.trans (positive_usable u known)
  simp only [Narrow, saturationNum, maxInt64] at older narrow
  have sum : wrapInt64 (m.active.map (usableConns m.committedBudget)).sum = (m.active.map (usableConns m.committedBudget)).sum :=
    wrapInt64_eq (by omega) (by simp only [maxInt64]; omega)
  rw [spareConnsLocked, sum]
  exact wrapInt64_of_fits (by simp only [minInt64]; omega) (by simp only [maxInt64]; omega)

theorem Sound.admitted (sound : Sound m) (admitted : m.admitFile file blockSize remaining = some m') :
    (m.active.map (usableConns m.committedBudget)).sum < m.committedBudget ∧
      m' = { m with active := rebalanceLocked m.connBudget (m.active ++ [⟨file, blockSize, remaining, 0⟩]) } := by
  simp only [admitFile] at admitted
  split at admitted <;> cases admitted
  rename_i refused
  have spare := not_lt.mp fun less => refused (.inr less)
  rw [sound.spare] at spare
  exact ⟨by omega, rfl⟩

theorem Narrow.mono (narrow : Narrow y) (less : x ≤ y) : Narrow x := by
  simp only [Narrow, saturationNum] at narrow ⊢
  omega

/-- An operation after which the active files can use no more than before. -/
theorem Sound.shrink (sound : Sound m) (ctrl : m'.ctrl.Sane) (ordered : m'.committed ≤ m'.budget) (narrow : Narrow m'.maxWorkers)
    (uses : ∀ lim, (m'.active.map (usableConns lim)).sum ≤ (m.active.map (usableConns lim)).sum) : Sound m' :=
  ⟨ctrl, ordered, narrow, fun {lim} positive => (sound.older positive).mono (by have := uses lim; omega)⟩

theorem sound_next (sound : Sound m) (limited : Limited m e) (stepped : next m e = some m') : Sound m' := by
  cases e with
  | admitFile file blockSize remaining =>
    cases stepped
    cases result : m.admitFile file blockSize remaining with
    | none => exact sound
    | some admitted =>
      obtain ⟨below, rfl⟩ := sound.admitted result
      refine ⟨sound.ctrl, sound.ordered, sound.narrow, fun {lim} positive => ?_⟩
      -- no older file takes all of the budget, so none can take more of another one
      have idle : (m.active.map (usableConns lim)).sum ≤ (m.active.map (usableConns m.committedBudget)).sum := by
        refine List.sum_le_sum fun af known => usableConns_of_idle ?_
        refine lt_of_le_of_lt (List.single_le_sum (fun u known => ?_) _ (List.mem_map_of_mem known)) below
        exact zero_le_one.trans (positive_usable u known)
      have newest : usableConns lim ⟨file, blockSize, remaining, 0⟩ ≤ max lim 1 := usableConns_le
      refine (committedBudget_narrow sound.narrow).mono ?_
      simp only [Option.getD_some]
      rw [uses_rebalanceLocked, List.map_append, List.sum_append, List.map_singleton, List.sum_singleton]
      omega
  | noteBlockDone file n =>
    cases stepped
    refine sound.shrink sound.ctrl sound.ordered sound.narrow fun lim => ?_
    simp only [noteBlockDone, List.map_map]
    refine List.sum_le_sum fun af _ => ?_
    simp only [Function.comp]
    split
    · exact usableConns_noteBlockDone
    · exact le_rfl
  | finish file =>
    cases stepped
    refine sound.shrink sound.ctrl sound.ordered sound.narrow fun lim => ?_
    refine List.Sublist.sum_le_sum ((List.filter_sublist ..).map _) fun u known => ?_
    exact zero_le_one.trans (positive_usable u known)
  | tuneTick now rate utilization kills =>
    cases stepped
    have narrow : Narrow (max m.maxWorkers 1) := by
      have narrow := sound.narrow
      simp only [Narrow, saturationNum, maxInt64] at narrow ⊢
      omega
    obtain ⟨sane, -⟩ := sound.ctrl.observe (o := ⟨now, max m.maxWorkers 1, ⟨rate, utilization, m.assignedConns, kills⟩⟩) narrow
    exact sound.shrink sane sane.probed sound.narrow fun lim => uses_rebalanceLocked.le
  | setLimits maxWorkers =>
    cases stepped
    have ordered : min m.committed (max maxWorkers 1) ≤ min m.budget (max maxWorkers 1) := by
      have := sound.ordered
      omega
    simp only [setLimits]
    split
    · exact sound.shrink sound.ctrl ordered limited fun lim => uses_rebalanceLocked.le
    · exact sound.shrink sound.ctrl ordered limited fun lim => le_rfl

theorem sound_initial {n : Int} (narrow : Narrow n) : Sound (initial n) := by
  refine ⟨Controller.sane_new, le_rfl, narrow, fun {lim} positive => ?_⟩
  simp only [initial, Narrow, saturationNum, maxInt64, List.map_nil, List.sum_nil]
  omega

end

/-- The split gives every file between one connection and what it can use, never more than the budget or one each in
all, and with one each for certain it uses the budget up and is the lexicographically greatest split. Right after an
admission the connections are within the budget, and the budget within the limit. -/
theorem connections_allocated :
    (∀ (active : List ActiveFile) (budget : Int), 1 ≤ budget →
      let usable := active.map (usableConns budget)
      let conns := (rebalanceLocked budget active).map (·.conns)
      (rebalanceLocked budget active).map (·.fileId) = active.map (·.fileId) ∧ Allocation conns usable ∧
        conns.sum ≤ max budget active.length ∧
        (active.length ≤ budget → conns.sum = min budget usable.sum ∧
          ∀ other, Allocation other usable → other.sum ≤ max budget active.length → List.Lex (· < ·) other conns ∨
            other = conns)) ∧
    ∀ maxWorkers es m file blockSize remaining m', Narrow maxWorkers → Meets next Limited (initial maxWorkers) es →
      run next (initial maxWorkers) es = some m → m.admitFile file blockSize remaining = some m' →
        (m'.active.map (·.conns)).sum ≤ m'.connBudget ∧ m'.connBudget ≤ max m'.maxWorkers 1 := by
  refine ⟨fun active budget positive => ?_, fun maxWorkers es m file blockSize remaining m' narrow limited ran admitted => ?_⟩
  · have usable : ∀ u ∈ active.map (usableConns budget), 1 ≤ u := positive_usable
    have length : (active.map (usableConns budget)).length = active.length := List.length_map ..
    refine ⟨map_rebalanceLocked fun _ _ => rfl, ?_, sum_conns_rebalanceLocked, fun enough => ?_⟩
    · rw [conns_rebalanceLocked]
      exact splitConns_allocation usable
    · rw [conns_rebalanceLocked, max_eq_left enough]
      refine ⟨splitConns_sum usable (length ▸ enough), fun other allocation total => ?_⟩
      exact splitConns_greatest (length ▸ enough) allocation total
  · have sound : Sound m := invariant_meeting sound_next (sound_initial narrow) ran limited
    obtain ⟨below, rfl⟩ := sound.admitted admitted
    have count : (m.active.length : Int) ≤ (m.active.map (usableConns m.committedBudget)).sum := by
      simpa using List.card_nsmul_le_sum (m.active.map (usableConns m.committedBudget)) 1 positive_usable
    have budgets := committedBudget_le sound.ordered
    refine ⟨?_, min_le_right ..⟩
    refine sum_conns_rebalanceLocked.trans ?_
    rw [List.length_append, List.length_singleton]
    change max m.connBudget _ ≤ m.connBudget
    omega

/-- Under a limit of zero there is still a budget of one connection. -/
theorem budget_over_zero_limit : ∃ m m', run next (initial 4) [.setLimits 0] = some m ∧ m.admitFile 1 8 8 = some m' ∧
    (m'.active.map (·.conns)).sum = 1 ∧ m'.connBudget = 1 ∧ m'.maxWorkers = 0 :=
  ⟨_, _, rfl, rfl, rfl, rfl, rfl⟩

/-- A file of one block is active when a file of eight blocks comes. -/
def oneActive : Allocator := (run next (initial 4) [.tuneTick 0 1 0 0, .admitFile 1 8 8]).getD (initial 4)

theorem connections_allocated_twice :
    (∃ m', oneActive.admitFile 2 8 64 = some m' ∧ m'.active.map (·.conns) = [1, 1] ∧
        (m'.active.map (·.conns)).sum ≤ m'.connBudget) ∧
      (rebalanceLocked 5 [⟨1, 8, 16, 0⟩, ⟨2, 8, 64, 0⟩]).map (·.conns) = [2, 3] ∧
      ((rebalanceLocked 5 [⟨1, 8, 16, 0⟩, ⟨2, 8, 64, 0⟩]).map (·.conns)).sum ≤ 5 := by
  have ran : run next (initial 4) [.tuneTick 0 1 0 0, .admitFile 1 8 8] = some oneActive := by decide +kernel
  have admitted : oneActive.admitFile 2 8 64 = some ((oneActive.admitFile 2 8 64).getD oneActive) := by decide +kernel
  refine ⟨⟨_, admitted, by decide +kernel, ?_⟩, by decide +kernel, ?_⟩
  · exact (connections_allocated.2 4 _ oneActive 2 8 64 _ (by decide) (by decide) ran admitted).1
  · exact (connections_allocated.1 [⟨1, 8, 16, 0⟩, ⟨2, 8, 64, 0⟩] 5 (by decide)).2.2.1

end Allocator
end Hfdl
