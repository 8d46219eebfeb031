import Hfdl.Relational.Table

/-! How one transaction changes a table, row by row. Every row of the result is a
changed row of the original or an added one, and every original row is still there,
changed, or was removed. -/
namespace Hfdl.Relational
variable {α : Type u} {κ : Type v} {key : α → κ}

structure Evolves (change : α → α → Prop) (added removed : α → Prop) (t t' : Table α key) : Prop where
  origin : ∀ r' ∈ t', (∃ r ∈ t, change r r') ∨ added r'
  kept : ∀ r ∈ t, (∃ r' ∈ t', change r r') ∨ removed r

namespace Evolves
variable {change : α → α → Prop} {added removed : α → Prop} {t t' t'' : Table α key}

theorem refl (unchanged : ∀ r, change r r) : Evolves change added removed t t :=
  ⟨fun r stored => .inl ⟨r, stored, unchanged r⟩, fun r stored => .inl ⟨r, stored, unchanged r⟩⟩

theorem update {sel : α → Prop} [DecidablePred sel] {set : Setter key} (unchanged : ∀ r, change r r)
    (changed : ∀ r ∈ t, sel r → change r (set r)) : Evolves change added removed t (t.update sel set) := by
  have each : ∀ r ∈ t, change r (if sel r then set r else r) := fun r stored => by
    split
    · exact changed r stored ‹_›
    · exact unchanged r
  refine ⟨fun r' stored => ?_, fun r stored => ?_⟩
  · obtain ⟨r, before, rfl⟩ := Table.mem_update.mp stored
    exact .inl ⟨r, before, each r before⟩
  · exact .inl ⟨_, Table.mem_update.mpr ⟨r, stored, rfl⟩, each r stored⟩

theorem insert [DecidableEq κ] (unchanged : ∀ r, change r r) (new : added r) :
    Evolves change added removed t (t.insert r) := by
  refine ⟨fun r' stored => ?_, fun r stored => .inl ⟨r, Table.mem_insert.mpr (.inl stored), unchanged r⟩⟩
  rcases Table.mem_insert.mp stored with old | ⟨rfl, -⟩
  · exact .inl ⟨r', old, unchanged r'⟩
  · exact .inr new

theorem delete {sel : α → Prop} [DecidablePred sel] (unchanged : ∀ r, change r r) (gone : ∀ r ∈ t, sel r → removed r) :
    Evolves change added removed t (t.delete sel) := by
  refine ⟨fun r' stored => .inl ⟨r', (Table.mem_delete.mp stored).1, unchanged r'⟩, fun r stored => ?_⟩
  by_cases selected : sel r
  · exact .inr (gone r stored selected)
  · exact .inl ⟨r, Table.mem_delete.mpr ⟨stored, selected⟩, unchanged r⟩

theorem ite {p : Prop} [Decidable p] {a b : Table α key} (yes : p → Evolves change added removed t a)
    (no : ¬ p → Evolves change added removed t b) : Evolves change added removed t (if p then a else b) := by
  split
  · exact yes ‹_›
  · exact no ‹_›

/-- Two statements of one transaction, when their changes of a row make up one change of it. -/
theorem trans (first : Evolves change added removed t t') (second : Evolves change added removed t' t'')
    (both : ∀ {a b c}, change a b → change b c → change a c) (renewed : ∀ {a b}, added a → change a b → added b)
    (dropped : ∀ {a b}, change a b → removed b → removed a) : Evolves change added removed t t'' := by
  refine ⟨fun r'' stored => ?_, fun r stored => ?_⟩
  · rcases second.origin r'' stored with ⟨r', stored, later⟩ | new
    · rcases first.origin r' stored with ⟨r, stored, earlier⟩ | new
      · exact .inl ⟨r, stored, both earlier later⟩
      · exact .inr (renewed new later)
    · exact .inr new
  · rcases first.kept r stored with ⟨r', stored, earlier⟩ | gone
    · rcases second.kept r' stored with ⟨r'', stored, later⟩ | gone
      · exact .inl ⟨r'', stored, both earlier later⟩
      · exact .inr (dropped earlier gone)
    · exact .inr gone

/-- A property that changes keep and new rows have. -/
theorem preserves {P : α → Prop} (evolves : Evolves change added removed t t') (before : ∀ r ∈ t, P r)
    (keeps : ∀ {r r'}, change r r' → P r → P r') (new : ∀ {r}, added r → P r) : ∀ r' ∈ t', P r' := by
  intro r' stored
  rcases evolves.origin r' stored with ⟨r, stored, changed⟩ | fresh
  · exact keeps changed (before r stored)
  · exact new fresh

/-- What no row with a key satisfies, no change brings about and no new row has, no row with that key has afterwards. -/
theorem absent {P : α → Prop} {k : κ} (evolves : Evolves change added removed t t')
    (back : ∀ {r r'}, change r r' → key r' = key r ∧ (P r' → P r)) (new : ∀ {r}, added r → ¬ P r)
    (before : ∀ r ∈ t, key r = k → ¬ P r) : ∀ r' ∈ t', key r' = k → ¬ P r' := by
  intro r' stored here holds
  rcases evolves.origin r' stored with ⟨r, stored, changed⟩ | fresh
  · obtain ⟨same, old⟩ := back changed
    exact before r stored (same.symm.trans here) (old holds)
  · exact new fresh holds

end Evolves
end Hfdl.Relational
