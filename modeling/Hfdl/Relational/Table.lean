import Mathlib.Data.List.Nodup

/-! Keyed tables and the statements over them: conditional update, delete,
insert-or-ignore and the claim of the first row in an order. Distinctness of the
primary key is part of a table, so no statement has to re-establish it. -/
namespace Hfdl.Relational
variable {α : Type u} {κ : Type v} {key : α → κ}

structure Table (α : Type u) (key : α → κ) where
  rows : List α
  distinct : (rows.map key).Nodup

/-- An assignment to the columns of a row that leaves its key alone. -/
structure Setter (key : α → κ) where
  set : α → α
  keeps : ∀ r, key (set r) = key r

instance : CoeFun (Setter key) fun _ => α → α := ⟨Setter.set⟩

def least (before : α → α → Bool) : List α → Option α
  | [] => none
  | r :: rs => match least before rs with
    | none => some r
    | some best => if before best r then some best else some r

theorem least_mem (found : least before rs = some r) : r ∈ rs := by
  induction rs generalizing r with
  | nil => cases found
  | cons a rs ih =>
    simp only [least] at found
    cases rest : least before rs with
    | none =>
      rw [rest] at found
      cases found
      exact List.mem_cons_self
    | some best =>
      rw [rest] at found
      simp only at found
      split at found <;> cases found
      · exact List.mem_cons_of_mem _ (ih rest)
      · exact List.mem_cons_self

theorem least_eq_none : least before rs = none ↔ rs = [] := by
  cases rs with
  | nil => simp [least]
  | cons r rs =>
    simp only [least, reduceCtorEq, iff_false]
    split
    · simp
    · split <;> simp

theorem least_le {f : α → Nat} (found : least (fun a b => f a < f b) rs = some r) : ∀ x ∈ rs, f r ≤ f x := by
  induction rs generalizing r with
  | nil => cases found
  | cons a rs ih =>
    simp only [least] at found
    cases rest : least (fun a b => decide (f a < f b)) rs with
    | none =>
      rw [rest] at found
      cases found
      rw [least_eq_none.mp rest]
      simp
    | some best =>
      rw [rest] at found
      simp only [decide_eq_true_eq] at found
      intro x inside
      split at found
      · case isTrue smaller =>
        cases found
        cases inside with
        | head => exact Nat.le_of_lt smaller
        | tail _ inside => exact ih rest x inside
      · case isFalse larger =>
        cases found
        cases inside with
        | head => exact Nat.le_refl _
        | tail _ inside => exact Nat.le_trans (Nat.le_of_not_lt larger) (ih rest x inside)

namespace Table

instance : Membership α (Table α key) := ⟨fun t r => r ∈ t.rows⟩

theorem mem_def {t : Table α key} : r ∈ t ↔ r ∈ t.rows := Iff.rfl

instance [DecidableEq α] (r : α) (t : Table α key) : Decidable (r ∈ t) :=
  inferInstanceAs (Decidable (r ∈ t.rows))

instance (t : Table α key) (p : α → Prop) [DecidablePred p] : Decidable (∃ r ∈ t, p r) :=
  inferInstanceAs (Decidable (∃ r ∈ t.rows, p r))

instance (t : Table α key) (p : α → Prop) [DecidablePred p] : Decidable (∀ r ∈ t, p r) :=
  inferInstanceAs (Decidable (∀ r ∈ t.rows, p r))

instance [DecidableEq α] : DecidableEq (Table α key) := fun a b =>
  decidable_of_iff (a.rows = b.rows) ⟨fun same => by cases a; cases b; cases same; rfl, fun same => same ▸ rfl⟩

def empty : Table α key := ⟨[], List.nodup_nil⟩

@[simp] theorem not_mem_empty (r : α) : ¬ r ∈ (empty : Table α key) := List.not_mem_nil

theorem eq_of_key {t : Table α key} (first : r ∈ t) (second : r' ∈ t) (same : key r = key r') : r = r' :=
  List.inj_on_of_nodup_map t.distinct first second same

/-- `UPDATE ... SET ... WHERE`. -/
def update (t : Table α key) (sel : α → Prop) [DecidablePred sel] (set : Setter key) : Table α key where
  rows := t.rows.map fun r => if sel r then set r else r
  distinct := by
    have same : (t.rows.map fun r => if sel r then set r else r).map key = t.rows.map key := by
      rw [List.map_map]
      refine List.map_congr_left fun r _ => ?_
      simp only [Function.comp]
      split
      · exact set.keeps r
      · rfl
    rw [same]
    exact t.distinct

/-- `DELETE ... WHERE`. -/
def delete (t : Table α key) (sel : α → Prop) [DecidablePred sel] : Table α key where
  rows := t.rows.filter fun r => ¬ sel r
  distinct := t.distinct.sublist (List.filter_sublist.map key)

/-- `INSERT ... ON CONFLICT DO NOTHING` on the key. -/
def insert [DecidableEq κ] (t : Table α key) (r : α) : Table α key :=
  if fresh : key r ∈ t.rows.map key then t
  else ⟨t.rows ++ [r], by
    rw [List.map_append]
    exact List.Nodup.append t.distinct (List.nodup_singleton _) (by simpa using fresh)⟩

/-- The number of rows a `WHERE` clause selects. -/
def count (t : Table α key) (sel : α → Prop) [DecidablePred sel] : Nat :=
  t.rows.countP fun r => sel r

/-- `SELECT ... WHERE ... ORDER BY ... LIMIT 1`. -/
def first (t : Table α key) (sel : α → Prop) [DecidablePred sel] (before : α → α → Bool) : Option α :=
  least before (t.rows.filter fun r => sel r)

def get [DecidableEq κ] (t : Table α key) (k : κ) : Option α := t.rows.find? fun r => key r = k

section
variable {t : Table α key} {sel : α → Prop} [DecidablePred sel] {set : Setter key}

theorem mem_update :
    r ∈ t.update sel set ↔ ∃ old ∈ t, r = if sel old then set old else old := by
  simp only [mem_def, update, List.mem_map, eq_comm]

@[simp] theorem mem_delete : r ∈ t.delete sel ↔ r ∈ t ∧ ¬ sel r := by
  simp [mem_def, delete]

theorem mem_insert [DecidableEq κ] :
    r ∈ t.insert new ↔ r ∈ t ∨ (r = new ∧ ∀ old ∈ t, key old ≠ key new) := by
  simp only [mem_def, insert]
  split
  · rename_i taken
    obtain ⟨old, stored, same⟩ := List.mem_map.mp taken
    refine ⟨Or.inl, fun either => either.elim id fun ⟨_, fresh⟩ => absurd same (fresh old stored)⟩
  · rename_i fresh
    have fresh : ∀ old ∈ t.rows, key old ≠ key new := fun old stored same =>
      fresh (List.mem_map.mpr ⟨old, stored, same⟩)
    simp only [List.mem_append, List.mem_singleton, ne_eq]
    exact or_congr_right ⟨fun same => ⟨same, fresh⟩, And.left⟩

@[ext] theorem ext {a b : Table α key} (same : a.rows = b.rows) : a = b := by
  cases a
  cases b
  cases same
  rfl

/-- Two updates of one transaction that select the same rows are a single one. -/
theorem update_update {set' : Setter key} (again : ∀ r, sel r → sel (set r)) :
    (t.update sel set).update sel set' =
      t.update sel ⟨set' ∘ set, fun r => (set'.keeps _).trans (set.keeps r)⟩ := by
  refine ext ?_
  simp only [update, List.map_map]
  refine List.map_congr_left fun r _ => ?_
  by_cases selected : sel r
  · simp [selected, again r selected]
  · simp [selected]

theorem mem_of_first (found : t.first sel before = some r) : r ∈ t ∧ sel r := by
  simpa [mem_def] using List.mem_filter.mp (least_mem found)

theorem first_eq_none : t.first sel before = none ↔ ∀ r ∈ t, ¬ sel r := by
  simp [first, least_eq_none, mem_def]

theorem first_le {f : α → Nat} (found : t.first sel (fun a b => f a < f b) = some r) :
    ∀ x ∈ t, sel x → f r ≤ f x := by
  intro x stored selected
  exact least_le found x (List.mem_filter.mpr ⟨stored, by simpa using selected⟩)

theorem get_eq_some [DecidableEq κ] : t.get k = some r ↔ r ∈ t ∧ key r = k := by
  constructor
  · intro found
    exact ⟨List.mem_of_find?_eq_some found, by simpa using List.find?_some found⟩
  · rintro ⟨stored, rfl⟩
    cases found : t.get (key r) with
    | none =>
      have missing := List.find?_eq_none.mp found r stored
      simp at missing
    | some other =>
      have same : key other = key r := by simpa using List.find?_some found
      rw [eq_of_key (List.mem_of_find?_eq_some found) stored same]

theorem get_update [DecidableEq κ] (stored : r ∈ t) (selected : sel r) : (t.update sel set).get (key r) = some (set r) :=
  get_eq_some.mpr ⟨mem_update.mpr ⟨r, stored, (if_pos selected).symm⟩, set.keeps r⟩

theorem get_update_eq [DecidableEq κ] (k : κ) :
    (t.update sel set).get k = (t.get k).map fun r => if sel r then set r else r := by
  have keeps (r : α) : key (if sel r then set r else r) = key r := by
    split
    · exact set.keeps r
    · rfl
  simp only [get, update, List.find?_map, Function.comp_def, keeps]

theorem count_eq_zero : t.count sel = 0 ↔ ∀ r ∈ t, ¬ sel r := by
  simp only [count, List.countP_eq_zero, decide_eq_true_eq, mem_def]

theorem update_eq_self (unselected : ∀ r ∈ t, ¬ sel r) : t.update sel set = t := by
  have same : t.rows.map (fun r => if sel r then set r else r) = t.rows.map id :=
    List.map_congr_left fun r stored => if_neg (unselected r stored)
  exact ext (same.trans (List.map_id _))

theorem get_eq_none [DecidableEq κ] : t.get k = none ↔ ∀ r ∈ t, key r ≠ k := by
  simp [get, mem_def]

theorem get_insert [DecidableEq κ] (k : κ) : (t.insert new).get k = (t.get k).or (if k = key new then some new else none) := by
  simp only [get, insert]
  split
  · rename_i taken
    obtain ⟨old, stored, same⟩ := List.mem_map.mp taken
    by_cases here : k = key new
    · have found : (t.rows.find? fun r => key r = k).isSome := by
        rw [List.find?_isSome]
        exact ⟨old, stored, by simp [same, here]⟩
      obtain ⟨r, found⟩ := Option.isSome_iff_exists.mp found
      rw [found, Option.some_or]
    · rw [if_neg here, Option.or_none]
  · by_cases here : k = key new
    · rw [List.find?_append, if_pos here, List.find?_singleton, if_pos (by simp [here])]
    · rw [List.find?_append, if_neg here, List.find?_singleton, if_neg (by simpa using Ne.symm here)]

/-- `INSERT ... ON CONFLICT DO UPDATE` on the key. -/
def upsert [DecidableEq κ] (t : Table α key) (r : α) (set : Setter key) : Table α key :=
  if ∃ old ∈ t, key old = key r then t.update (fun old => key old = key r) set else t.insert r

theorem get_upsert [DecidableEq κ] (k : κ) :
    (t.upsert new set).get k = if k = key new then some ((t.get k).elim new set) else t.get k := by
  rw [upsert]
  split
  · rename_i taken
    obtain ⟨old, stored, same⟩ := taken
    rw [get_update_eq]
    by_cases here : k = key new
    · have found : t.get k = some old := get_eq_some.mpr ⟨stored, same.trans here.symm⟩
      rw [found, if_pos here, Option.map_some, if_pos same]
      rfl
    · rw [if_neg here]
      cases found : t.get k with
      | none => rfl
      | some r =>
        have mine := (get_eq_some.mp found).2
        rw [Option.map_some, if_neg (by rwa [mine])]
  · rename_i fresh
    rw [get_insert]
    by_cases here : k = key new
    · have missing : t.get k = none := get_eq_none.mpr fun r stored same => fresh ⟨r, stored, same.trans here⟩
      rw [missing, if_pos here, if_pos here]
      rfl
    · simp [here]

/-- A statement that pins the key selects one row exactly when it selects any. -/
theorem count_eq_one (pinned : ∀ r, sel r → key r = k) : t.count sel = 1 ↔ ∃ r ∈ t, sel r := by
  constructor
  · intro one
    have some_row : 0 < t.rows.countP fun r => sel r := by
      show 0 < t.count sel
      omega
    simpa [mem_def] using List.countP_pos_iff.mp some_row
  · rintro ⟨r, stored, selected⟩
    have at_least : 0 < t.rows.countP fun r => sel r := List.countP_pos_iff.mpr ⟨r, stored, by simpa using selected⟩
    have nodup : (t.rows.filter fun r => sel r).Nodup := (t.distinct.of_map key).filter _
    have all_same : ∀ x ∈ t.rows.filter (fun r => sel r), x = r := by
      intro x inside
      obtain ⟨stored', selected'⟩ := List.mem_filter.mp inside
      exact eq_of_key (t := t) stored' stored
        ((pinned x (by simpa using selected')).trans (pinned r selected).symm)
    have short : (t.rows.filter fun r => sel r).length ≤ 1 := by
      rcases rows : t.rows.filter (fun r => sel r) with _ | ⟨a, _ | ⟨b, rest⟩⟩
      · simp
      · simp
      · rw [rows] at nodup all_same
        have := all_same a (by simp)
        have := all_same b (by simp)
        simp_all
    rw [List.countP_eq_length_filter] at at_least
    rw [count, List.countP_eq_length_filter]
    omega

end

section many
variable [DecidableEq κ] {row : β → α} {xs : List β}

def insertAll (t : Table α key) (row : β → α) (xs : List β) : Table α key := xs.foldl (fun t x => t.insert (row x)) t

theorem mem_insertAll_of_mem {t : Table α key} (stored : r ∈ t) : r ∈ t.insertAll row xs := by
  induction xs generalizing t with
  | nil => exact stored
  | cons x xs ih => exact ih (mem_insert.mpr (.inl stored))

theorem of_mem_insertAll {t : Table α key} (stored : r ∈ t.insertAll row xs) : r ∈ t ∨ ∃ x ∈ xs, r = row x := by
  induction xs generalizing t with
  | nil => exact .inl stored
  | cons x xs ih =>
    rcases ih stored with before | ⟨y, member, rfl⟩
    · rcases mem_insert.mp before with old | ⟨rfl, -⟩
      · exact .inl old
      · exact .inr ⟨x, List.mem_cons_self, rfl⟩
    · exact .inr ⟨y, List.mem_cons_of_mem _ member, rfl⟩

theorem exists_key_insertAll {t : Table α key} (member : x ∈ xs) : ∃ r ∈ t.insertAll row xs, key r = key (row x) := by
  induction xs generalizing t with
  | nil => cases member
  | cons y xs ih =>
    rcases List.mem_cons.mp member with rfl | later
    · by_cases taken : ∃ r ∈ t, key r = key (row x)
      · obtain ⟨r, stored, same⟩ := taken
        exact ⟨r, mem_insertAll_of_mem stored, same⟩
      · have new : row x ∈ t.insert (row x) := mem_insert.mpr (.inr ⟨rfl, fun r stored same => taken ⟨r, stored, same⟩⟩)
        have later : row x ∈ (t.insert (row x)).insertAll row xs := mem_insertAll_of_mem new
        exact ⟨row x, later, rfl⟩
    · exact ih later

end many

section fresh
variable {key : α → Nat}

/-- The row id SQLite assigns: one past the largest stored one. -/
def nextKey (t : Table α key) : Nat := t.rows.foldr (fun r m => max (key r) m) 0 + 1

theorem key_lt_nextKey {t : Table α key} (stored : r ∈ t) : key r < t.nextKey := by
  suffices bound : ∀ rows : List α, r ∈ rows → key r ≤ rows.foldr (fun r m => max (key r) m) 0 from
    Nat.lt_succ_of_le (bound t.rows stored)
  intro rows inside
  induction rows with
  | nil => cases inside
  | cons a rows ih =>
    simp only [List.foldr_cons]
    rcases List.mem_cons.mp inside with rfl | inside
    · exact Nat.le_max_left _ _
    · exact Nat.le_trans (ih inside) (Nat.le_max_right _ _)

theorem mem_insert_fresh {t : Table α key} (fresh : key new = t.nextKey) :
    r ∈ t.insert new ↔ r ∈ t ∨ r = new := by
  have unused : ∀ old ∈ t, key old ≠ key new := fun old stored same => by
    have := key_lt_nextKey stored
    omega
  rw [mem_insert]
  exact or_congr_right ⟨And.left, fun same => ⟨same, unused⟩⟩

end fresh
end Table
end Hfdl.Relational
