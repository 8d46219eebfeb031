import Hfdl.Relational.Evolution
import Hfdl.Store.Operation

/-! What a committed operation can do to a row of the reference table. -/
namespace Hfdl
open Relational

inductive ReferenceFile.Change : Operation → ReferenceFile → ReferenceFile → Prop where
  | kept : Change op r r
  | leased (pending : r.status = .pending) :
      Change (.leaseReferenceHash tok now) r { r with toLease := .claim owner tok now, status := .hashing }
  | hashed (held : r.Held row tok) :
      Change (.completeReferenceHash row tok digest cause) r { r with
        toLease := .cleared, status := if cause.isSome then .error else .hashed
        sha256 := if digest = "" then none else some digest, lastError := cause }
  | renewed (held : r.Held row tok) : Change (.renewLease .reference row tok expiry now) r { r with leaseUntil := some expiry }
  | lapsed (hashing : r.status = .hashing) (expired : r.Expired now) :
      Change (.recover now) r { r with toLease := .cleared, status := .pending }
  | invalidated (here : r.id = row) :
      Change (.invalidateReference row) r { r with toLease := .cleared, status := .pending, sha256 := none, lastError := none }
  | restated {stat : ReferenceStat} (listed : stat ∈ stats) (same : r.path = stat.path) :
      Change (.addReferenceFiles stats) r { r with size := stat.size, mtimeNs := stat.mtimeNs, dev := stat.dev, ino := stat.ino }

def ReferenceFile.Added (op : Operation) (r : ReferenceFile) : Prop :=
  ∃ stats, op = .addReferenceFiles stats ∧ ∃ stat ∈ stats, ∃ id, r = .fresh id stat

namespace Operation
abbrev EvolveReferences (op : Operation) (t t' : Table ReferenceFile ReferenceFile.id) : Prop :=
  Evolves (ReferenceFile.Change op) (ReferenceFile.Added op) (fun _ => False) t t'

/-- Two entries of one upsert for the same path make up the later one. -/
theorem change_restated_trans {a b c : ReferenceFile} (first : a.Change (.addReferenceFiles stats) b)
    (second : b.Change (.addReferenceFiles stats) c) : a.Change (.addReferenceFiles stats) c := by
  cases first with
  | kept => exact second
  | restated listed same =>
    cases second with
    | kept => exact .restated listed same
    | restated listed' same' => exact .restated listed' same'

theorem evolveReferences_add (s : Store) (stats : List ReferenceStat) :
    EvolveReferences (.addReferenceFiles stats) s.references (s.addReferenceFiles stats).references := by
  refine foldl_invariant (P := fun t => EvolveReferences (.addReferenceFiles stats) s.references t) (fun listed evolved => ?_)
    (.refl fun _ => .kept)
  refine evolved.trans ?_ change_restated_trans ?_ fun _ gone => gone.elim
  · rw [Store.addReference]
    split
    · exact .update (fun _ => .kept) fun r _ same => .restated listed same
    · exact .insert (fun _ => .kept) ⟨stats, rfl, _, listed, _, rfl⟩
  · rintro a b ⟨_, same, stat, listed, id, rfl⟩ changed
    cases same
    cases changed with
    | kept => exact ⟨_, rfl, stat, listed, id, rfl⟩
    | restated again same => exact ⟨_, rfl, _, again, id, by simp only [ReferenceFile.fresh] at same ⊢; rw [same]⟩

end Operation
end Hfdl
