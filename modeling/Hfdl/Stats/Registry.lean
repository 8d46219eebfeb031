import Hfdl.Relational.Weight
import Hfdl.Transition
import Mathlib.Algebra.Order.BigOperators.Group.List
import Mathlib.Algebra.Order.Group.Int
import Mathlib.Algebra.Ring.Int.Defs

/-! The connection gauges of the statistics registry: one for the process, one for each file with the live connections by
upstream, and one for each upstream. A call is one step; the order in which a removal walks the live connections is a
choice of the environment. -/
namespace Hfdl.Stats
open Relational Transition

/-- A map from names to counts. -/
abbrev Counts := Table (String × Int) Prod.fst

def count (t : Counts) (u : String) : Int := (t.get u).elim 0 Prod.snd

structure FileEntry where
  conns : Int
  live : Counts
deriving DecidableEq

def FileEntry.fresh : FileEntry := ⟨0, .empty⟩

abbrev Files := Table (Int × FileEntry) Prod.fst

structure Registry where
  conns : Int
  files : Files
  upstreams : Counts
deriving DecidableEq

def Registry.new : Registry := ⟨0, .empty, .empty⟩

def Registry.file (r : Registry) (fileID : Int) : FileEntry := (r.files.get fileID).elim .fresh Prod.snd

/-- The new value of a gauge, not below zero. -/
def subClamp (v delta : Int) : Int := if delta ≤ 0 then v else max (v - delta) 0

def subPlain (v delta : Int) : Int := if delta ≤ 0 then v else v - delta

/-- The calls of one registry. The last two stand for the calls that only create an entry. -/
inductive Call where
  | connStart (fileID : Int) (upstream : String)
  | connEnd (fileID : Int) (upstream : String)
  | removeFile (fileID : Int) (order : List (String × Int))
  | touchFile (fileID : Int)
  | touchUpstream (upstream : String)

def connStart (r : Registry) (fileID : Int) (upstream : String) : Registry :=
  let f := r.file fileID
  { conns := r.conns + 1
    files := r.files.assign (fileID, ⟨f.conns + 1, f.live.assign (upstream, count f.live upstream + 1)⟩)
    upstreams := r.upstreams.assign (upstream, count r.upstreams upstream + 1) }

/-- One live connection less; the last one takes its name with it. -/
def dropLive (live : Counts) (upstream : String) : Counts :=
  if count live upstream = 1 then live.delete fun l => l.1 = upstream
  else live.assign (upstream, count live upstream - 1)

section
variable (sub : Int → Int → Int)

def subUpstream (t : Counts) (l : String × Int) : Counts :=
  match t.get l.1 with
  | none => t
  | some up => t.assign (l.1, sub up.2 l.2)

def connEnd (r : Registry) (fileID : Int) (upstream : String) : Registry :=
  match r.files.get fileID with
  | none => r
  | some (_, f) =>
    if count f.live upstream ≤ 0 then r
    else
      { conns := sub r.conns 1
        files := r.files.assign (fileID, ⟨sub f.conns 1, dropLive f.live upstream⟩)
        upstreams := subUpstream sub r.upstreams (upstream, 1) }

/-- The live connections of the removed entry in the order of the walk. -/
def removeFile (r : Registry) (fileID : Int) (order : List (String × Int)) : Option Registry :=
  match r.files.get fileID with
  | none => if order = [] then some r else none
  | some (_, f) =>
    if order.Perm f.live.rows then
      some { conns := sub r.conns (order.map Prod.snd).sum
             files := r.files.delete fun e => e.1 = fileID
             upstreams := order.foldl (subUpstream sub) r.upstreams }
    else none

def next (r : Registry) : Call → Option Registry
  | .connStart fileID upstream => some (connStart r fileID upstream)
  | .connEnd fileID upstream => some (connEnd sub r fileID upstream)
  | .removeFile fileID order => removeFile sub r fileID order
  | .touchFile fileID => some { r with files := r.files.assign (fileID, r.file fileID) }
  | .touchUpstream upstream => some { r with upstreams := r.upstreams.assign (upstream, count r.upstreams upstream) }

end

structure Reconciled (r : Registry) : Prop where
  global : r.conns = r.files.total fun e => e.2.conns
  file : ∀ e ∈ r.files, e.2.conns = e.2.live.total Prod.snd
  upstream : ∀ u, count r.upstreams u = r.files.total fun e => count e.2.live u
  live : ∀ e ∈ r.files, ∀ l ∈ e.2.live, 0 < l.2

/-! ### Counts -/

theorem count_assign (t : Counts) (u : String) (n : Int) (u' : String) :
    count (t.assign (u, n)) u' = if u' = u then n else count t u' := by
  rw [count, Table.get_assign]
  split <;> rfl

theorem count_delete (t : Counts) (u u' : String) :
    count (t.delete fun l => l.1 = u) u' = if u' = u then 0 else count t u' := by
  rw [count, Table.get_delete]
  split <;> rfl

theorem total_assign_count (t : Counts) (u : String) (n : Int) :
    (t.assign (u, n)).total Prod.snd = t.total Prod.snd - count t u + n := by
  have sums : (t.assign (u, n)).total Prod.snd + count t u = t.total Prod.snd + n := Table.total_assign
  omega

theorem get_of_count (nonzero : count t u ≠ 0) : t.get u = some (u, count t u) := by
  unfold count at *
  cases found : t.get u with
  | none => rw [found] at nonzero; exact absurd rfl nonzero
  | some l =>
    obtain ⟨-, same⟩ := Table.get_eq_some.mp found
    rw [Option.elim_some, ← same]

theorem count_of_mem {t : Counts} (member : l ∈ t) : count t l.1 = l.2 := by
  rw [count, Table.get_eq_some.mpr ⟨member, rfl⟩, Option.elim_some]

theorem total_delete_count {t : Counts} (nonzero : count t u ≠ 0) :
    (t.delete fun l => l.1 = u).total Prod.snd = t.total Prod.snd - count t u := by
  obtain ⟨member, -⟩ := Table.get_eq_some.mp (get_of_count nonzero)
  have sums : (t.delete fun l => l.1 = u).total Prod.snd + count t u = t.total Prod.snd := Table.total_delete member
  omega

theorem total_eq_zero {t : Table α key} {g : α → Int} (zero : ∀ e ∈ t, g e = 0) : t.total g = 0 := by
  apply List.sum_eq_zero
  intro x member
  obtain ⟨e, inside, rfl⟩ := List.mem_map.mp member
  exact zero e inside

theorem total_nonneg {t : Table α key} {g : α → Int} (nonneg : ∀ e ∈ t, 0 ≤ g e) : 0 ≤ t.total g := by
  apply List.sum_nonneg
  intro x member
  obtain ⟨e, inside, rfl⟩ := List.mem_map.mp member
  exact nonneg e inside

theorem mem_le_total {t : Table α key} {g : α → Int} (nonneg : ∀ e ∈ t, 0 ≤ g e) (member : e ∈ t) : g e ≤ t.total g := by
  apply List.single_le_sum
  · intro x inside
    obtain ⟨e', inside', rfl⟩ := List.mem_map.mp inside
    exact nonneg e' inside'
  · exact List.mem_map_of_mem member

theorem total_at (t : Counts) (u : String) : t.total (fun l => if l.1 = u then l.2 else 0) = count t u := by
  cases found : t.get u with
  | none =>
    rw [count, found, Option.elim_none]
    exact total_eq_zero fun l member => if_neg (Table.get_eq_none.mp found l member)
  | some l =>
    obtain ⟨member, rfl⟩ := Table.get_eq_some.mp found
    have others : (t.delete fun l' => l'.1 = l.1).total (fun l' => if l'.1 = l.1 then l'.2 else 0) = 0 :=
      total_eq_zero fun l' member' => if_neg (Table.mem_delete.mp member').2
    rw [← Table.total_delete member, others, if_pos rfl, count_of_mem member, zero_add]

theorem count_nonneg {t : Counts} (positive : ∀ l ∈ t, 0 < l.2) (u : String) : 0 ≤ count t u := by
  rw [← total_at]
  refine total_nonneg fun l member => ?_
  split
  · exact (positive l member).le
  · exact Int.le_refl 0

theorem count_le_total {t : Counts} (positive : ∀ l ∈ t, 0 < l.2) (u : String) : count t u ≤ t.total Prod.snd := by
  by_cases zero : count t u = 0
  · rw [zero]
    exact total_nonneg fun l member => (positive l member).le
  · obtain ⟨member, -⟩ := Table.get_eq_some.mp (get_of_count zero)
    exact mem_le_total (g := Prod.snd) (fun l member => (positive l member).le) member

theorem dropLive_spec {t : Counts} (positive : ∀ l ∈ t, 0 < l.2) (live : 0 < count t name) :
    (dropLive t name).total Prod.snd = t.total Prod.snd - 1 ∧ (∀ l ∈ dropLive t name, 0 < l.2) ∧
      ∀ u, count (dropLive t name) u = count t u - if name = u then 1 else 0 := by
  unfold dropLive
  split
  next last =>
    refine ⟨by rw [total_delete_count (by omega), last], fun l member => positive l (Table.mem_delete.mp member).1, fun u => ?_⟩
    rw [count_delete]
    by_cases here : u = name
    · rw [if_pos here, if_pos here.symm, here, last, sub_self]
    · rw [if_neg here, if_neg (Ne.symm here), sub_zero]
  next more =>
    refine ⟨by rw [total_assign_count]; omega, fun l member => ?_, fun u => ?_⟩
    · rcases Table.mem_assign.mp member with ⟨old, -⟩ | rfl
      · exact positive l old
      · dsimp only
        omega
    · rw [count_assign]
      by_cases here : u = name
      · rw [if_pos here, if_pos here.symm, here]
      · rw [if_neg here, if_neg (Ne.symm here), sub_zero]

/-! ### Subtractions that do not clip -/

theorem subClamp_eq (le : delta ≤ v) : subClamp v delta = subPlain v delta := by
  rw [subClamp, subPlain, Int.max_eq_left (by omega)]

theorem subPlain_eq (nonneg : 0 ≤ delta) : subPlain v delta = v - delta := by
  unfold subPlain
  split <;> omega

theorem subUpstream_clamp (le : l.2 ≤ count t l.1) : subUpstream subClamp t l = subUpstream subPlain t l := by
  unfold subUpstream
  split
  · rfl
  next up found =>
    rw [count, found, Option.elim_some] at le
    rw [subClamp_eq le]

theorem count_subUpstream (positive : 0 < l.2) (le : l.2 ≤ count t l.1) (u : String) :
    count (subUpstream subPlain t l) u = count t u - if l.1 = u then l.2 else 0 := by
  have found := get_of_count (t := t) (u := l.1) (by omega)
  rw [subUpstream, found]
  simp only
  rw [count_assign, subPlain_eq positive.le]
  by_cases here : u = l.1
  · rw [if_pos here, if_pos here.symm, here]
  · rw [if_neg here, if_neg (Ne.symm here), sub_zero]

/-- The walk over the live connections: each upstream gives up its own. -/
theorem foldl_subUpstream {order : List (String × Int)} (distinct : (order.map Prod.fst).Nodup)
    (bounded : ∀ l ∈ order, 0 < l.2 ∧ l.2 ≤ count t l.1) :
    order.foldl (subUpstream subClamp) t = order.foldl (subUpstream subPlain) t ∧
      ∀ u, count (order.foldl (subUpstream subPlain) t) u =
        count t u - (order.map fun l => if l.1 = u then l.2 else 0).sum := by
  induction order generalizing t with
  | nil => exact ⟨rfl, fun u => (sub_zero _).symm⟩
  | cons l order ih =>
    obtain ⟨positive, le⟩ := bounded l List.mem_cons_self
    obtain ⟨fresh, distinct⟩ := List.nodup_cons.mp distinct
    -- the names left are other names, so their gauges are still what they were
    have left : ∀ l' ∈ order, 0 < l'.2 ∧ l'.2 ≤ count (subUpstream subPlain t l) l'.1 := by
      intro l' member
      have other : l.1 ≠ l'.1 := fun same => fresh (same ▸ List.mem_map_of_mem member)
      rw [count_subUpstream positive le, if_neg other, sub_zero]
      exact bounded l' (List.mem_cons_of_mem _ member)
    obtain ⟨same, counts⟩ := ih distinct left
    simp only [List.foldl_cons, List.map_cons, List.sum_cons, subUpstream_clamp le]
    refine ⟨same, fun u => ?_⟩
    rw [counts, count_subUpstream positive le]
    omega

/-! ### One call -/

namespace Reconciled
variable {r : Registry} {fileID : Int} {name : String}

theorem new : Reconciled Registry.new := by
  refine ⟨rfl, ?_, fun u => rfl, ?_⟩
  · intro e member
    exact absurd member (Table.not_mem_empty e)
  · intro e member
    exact absurd member (Table.not_mem_empty e)

theorem entry (held : Reconciled r) (fileID : Int) :
    (r.file fileID).conns = (r.file fileID).live.total Prod.snd ∧ ∀ l ∈ (r.file fileID).live, 0 < l.2 := by
  unfold Registry.file
  cases found : r.files.get fileID with
  | none => exact ⟨rfl, fun l member => absurd member (Table.not_mem_empty l)⟩
  | some e =>
    obtain ⟨member, -⟩ := Table.get_eq_some.mp found
    exact ⟨held.file e member, held.live e member⟩

theorem conns_nonneg (held : Reconciled r) (member : e ∈ r.files) : 0 ≤ e.2.conns := by
  rw [held.file e member]
  exact total_nonneg fun l inside => (held.live e member l inside).le

theorem bounds (held : Reconciled r) (member : e ∈ r.files) :
    e.2.conns ≤ r.conns ∧ ∀ u, count e.2.live u ≤ count r.upstreams u := by
  constructor
  · rw [held.global]
    exact mem_le_total (g := fun e => e.2.conns) (fun e member => held.conns_nonneg member) member
  · intro u
    rw [held.upstream]
    exact mem_le_total (g := fun e => count e.2.live u) (fun e member => count_nonneg (held.live e member) u) member

theorem total_set {g : Int × FileEntry → Int} (zero : g (fileID, .fresh) = 0) (f : FileEntry) :
    (r.files.assign (fileID, f)).total g = r.files.total g - g (fileID, r.file fileID) + g (fileID, f) := by
  have sums : (r.files.assign (fileID, f)).total g + (r.files.get fileID).elim 0 g = r.files.total g + g (fileID, f) :=
    Table.total_assign
  have old : (r.files.get fileID).elim 0 g = g (fileID, r.file fileID) := by
    unfold Registry.file
    cases found : r.files.get fileID with
    | none => exact zero.symm
    | some e =>
      obtain ⟨-, rfl⟩ := Table.get_eq_some.mp found
      rfl
  omega

theorem set (held : Reconciled r) {f : FileEntry} (sum : f.conns = f.live.total Prod.snd) (positive : ∀ l ∈ f.live, 0 < l.2)
    (global : conns = r.conns - (r.file fileID).conns + f.conns)
    (upstream : ∀ u, count upstreams u = count r.upstreams u - count (r.file fileID).live u + count f.live u) :
    Reconciled ⟨conns, r.files.assign (fileID, f), upstreams⟩ where
  global := by
    rw [total_set (g := fun e => e.2.conns) rfl, ← held.global]
    exact global
  file e member := by
    rcases Table.mem_assign.mp member with ⟨old, -⟩ | rfl
    · exact held.file e old
    · exact sum
  upstream u := by
    rw [total_set (g := fun e => count e.2.live u) rfl, ← held.upstream]
    exact upstream u
  live e member := by
    rcases Table.mem_assign.mp member with ⟨old, -⟩ | rfl
    · exact held.live e old
    · exact positive

theorem connStart (held : Reconciled r) : Reconciled (connStart r fileID name) := by
  obtain ⟨sum, positive⟩ := held.entry fileID
  have nonneg := count_nonneg positive name
  refine held.set ?_ ?_ ?_ fun u => ?_
  · rw [total_assign_count]
    dsimp only
    omega
  · intro l member
    rcases Table.mem_assign.mp member with ⟨old, -⟩ | rfl
    · exact positive l old
    · dsimp only
      omega
  · dsimp only
    omega
  · rw [count_assign, count_assign]
    by_cases here : u = name
    · rw [if_pos here, if_pos here, here]
      omega
    · rw [if_neg here, if_neg here, sub_add_cancel]

theorem connEnd (held : Reconciled r) :
    Stats.connEnd subClamp r fileID name = Stats.connEnd subPlain r fileID name ∧
      Reconciled (Stats.connEnd subPlain r fileID name) := by
  unfold Stats.connEnd
  split
  · exact ⟨rfl, held⟩
  next id f found =>
  obtain ⟨member, same⟩ := Table.get_eq_some.mp found
  obtain rfl : id = fileID := same
  have here : r.file id = f := by rw [Registry.file, found, Option.elim_some]
  obtain ⟨sum, positive⟩ := held.entry id
  obtain ⟨ofGlobal, ofUpstream⟩ := held.bounds member
  rw [here] at sum positive
  dsimp only at ofGlobal ofUpstream
  split
  · exact ⟨rfl, held⟩
  next live =>
  have ofFile := count_le_total positive name
  have ofName := ofUpstream name
  have ends : 1 ≤ count r.upstreams name := by omega
  constructor
  · rw [subClamp_eq (by omega), subClamp_eq (by omega), subUpstream_clamp ends]
  · obtain ⟨total, left, counts⟩ := dropLive_spec positive (by omega : 0 < count f.live name)
    refine held.set ?_ left ?_ fun u => ?_
    · rw [total, subPlain_eq Int.one_nonneg, sum]
    · rw [here, subPlain_eq Int.one_nonneg, subPlain_eq Int.one_nonneg]
      dsimp only
      omega
    · rw [here, counts, count_subUpstream Int.one_pos ends]
      dsimp only
      omega

theorem removeFile (held : Reconciled r) :
    Stats.removeFile subClamp r fileID order = Stats.removeFile subPlain r fileID order ∧
      ∀ r', Stats.removeFile subPlain r fileID order = some r' → Reconciled r' := by
  unfold Stats.removeFile
  split
  · refine ⟨rfl, fun r' done => ?_⟩
    obtain ⟨-, ⟨⟩⟩ := Option.ite_none_right_eq_some.mp done
    exact held
  next id f found =>
  obtain ⟨member, same⟩ := Table.get_eq_some.mp found
  obtain rfl : id = fileID := same
  have positive := held.live _ member
  obtain ⟨ofGlobal, ofUpstream⟩ := held.bounds member
  dsimp only at positive ofGlobal ofUpstream
  split
  next walk =>
    have sum : (order.map Prod.snd).sum = f.conns := by
      rw [(walk.map Prod.snd).sum_eq]
      exact (held.file _ member).symm
    have distinct : (order.map Prod.fst).Nodup := (walk.map Prod.fst).nodup_iff.mpr f.live.distinct
    have bounded : ∀ l ∈ order, 0 < l.2 ∧ l.2 ≤ count r.upstreams l.1 := by
      intro l inside
      have live : l ∈ f.live := walk.mem_iff.mp inside
      refine ⟨positive l live, ?_⟩
      have part := ofUpstream l.1
      rwa [count_of_mem live] at part
    obtain ⟨walked, counts⟩ := foldl_subUpstream distinct bounded
    constructor
    · rw [sum, subClamp_eq ofGlobal, walked]
    · rintro r' ⟨⟩
      refine ⟨?_, fun e inside => held.file e (Table.mem_delete.mp inside).1, fun u => ?_,
        fun e inside => held.live e (Table.mem_delete.mp inside).1⟩
      · have rest : (r.files.delete fun e => e.1 = id).total (fun e => e.2.conns) + f.conns = _ := Table.total_delete member
        have nonneg : 0 ≤ f.conns := held.conns_nonneg member
        have global := held.global
        dsimp only
        rw [sum, subPlain_eq nonneg]
        omega
      · have rest : (r.files.delete fun e => e.1 = id).total (fun e => count e.2.live u) + count f.live u = _ :=
          Table.total_delete member
        dsimp only
        rw [counts, (walk.map _).sum_eq, held.upstream]
        have part := total_at f.live u
        rw [Table.total] at part
        omega
  next => exact ⟨rfl, fun r' done => by cases done⟩

theorem step (held : Reconciled r) (call : Call) :
    next subClamp r call = next subPlain r call ∧ ∀ r', next subPlain r call = some r' → Reconciled r' := by
  cases call with
  | connStart fileID name =>
    refine ⟨rfl, ?_⟩
    rintro r' ⟨⟩
    exact held.connStart
  | connEnd fileID name =>
    obtain ⟨same, kept⟩ : Stats.connEnd subClamp r fileID name = _ ∧ _ := held.connEnd
    refine ⟨congrArg some same, ?_⟩
    rintro r' ⟨⟩
    exact kept
  | removeFile fileID order => exact held.removeFile
  | touchFile fileID =>
    refine ⟨rfl, ?_⟩
    rintro r' ⟨⟩
    obtain ⟨sum, positive⟩ := held.entry fileID
    exact held.set sum positive (by omega) fun u => by omega
  | touchUpstream name =>
    refine ⟨rfl, ?_⟩
    rintro r' ⟨⟩
    refine ⟨held.global, held.file, fun u => ?_, held.live⟩
    dsimp only
    rw [count_assign, ← held.upstream]
    split
    next here => rw [here]
    next => rfl

end Reconciled

theorem run_reconciled (held : Reconciled r) :
    run (next subClamp) r calls = run (next subPlain) r calls ∧
      ∀ r', run (next subPlain) r calls = some r' → Reconciled r' := by
  induction calls generalizing r with
  | nil =>
    refine ⟨rfl, ?_⟩
    rintro r' ⟨⟩
    exact held
  | cons call calls ih =>
    obtain ⟨same, kept⟩ := held.step call
    simp only [run, same]
    cases stepped : next subPlain r call with
    | none => exact ⟨rfl, by simp⟩
    | some middle => exact ih (kept middle stepped)

/-- After any calls every gauge is the sum of its parts and none is negative, and the run is the one without the clamp. -/
theorem gauges_reconcile (ran : run (next subClamp) .new calls = some r) :
    r.conns = r.files.total (fun e => e.2.conns) ∧ (∀ e ∈ r.files, e.2.conns = e.2.live.total Prod.snd) ∧
      (∀ u, count r.upstreams u = r.files.total fun e => count e.2.live u) ∧
      0 ≤ r.conns ∧ (∀ e ∈ r.files, 0 ≤ e.2.conns ∧ ∀ u, 0 ≤ count e.2.live u) ∧ (∀ u, 0 ≤ count r.upstreams u) ∧
      run (next subPlain) .new calls = some r := by
  obtain ⟨same, kept⟩ : run (next subClamp) .new calls = _ ∧ _ := run_reconciled Reconciled.new
  rw [same] at ran
  have held := kept r ran
  refine ⟨held.global, held.file, held.upstream, ?_, ?_, ?_, ran⟩
  · rw [held.global]
    exact total_nonneg fun e member => held.conns_nonneg member
  · exact fun e member => ⟨held.conns_nonneg member, count_nonneg (held.live e member)⟩
  · intro u
    rw [held.upstream]
    exact total_nonneg fun e member => count_nonneg (held.live e member) u

/-- Two files on two upstreams, an unpaired end, a removal with live connections and an end after it. -/
def mixed : List Call :=
  [.connStart 1 "a", .connStart 1 "a", .connStart 1 "b", .connStart 2 "a", .connEnd 2 "b", .connEnd 1 "a", .connEnd 7 "a",
    .removeFile 1 [("b", 1), ("a", 1)], .connEnd 1 "a"]

theorem gauges_reconcile_mixed :
    ∃ r, run (next subClamp) .new mixed = some r ∧ r.conns = 1 ∧ count r.upstreams "a" = 1 ∧ count r.upstreams "b" = 0 ∧
      r.conns = r.files.total (fun e => e.2.conns) ∧ run (next subPlain) .new mixed = some r := by
  have ran : (run (next subClamp) .new mixed).map (fun r => (r.conns, count r.upstreams "a", count r.upstreams "b")) =
      some (1, 1, 0) := by decide +kernel
  obtain ⟨r, ran, gauges⟩ := Option.map_eq_some_iff.mp ran
  obtain ⟨global, -, -, -, -, -, plain⟩ := gauges_reconcile ran
  simp only [Prod.mk.injEq] at gauges
  exact ⟨r, ran, gauges.1, gauges.2.1, gauges.2.2, global, plain⟩

end Hfdl.Stats
