import Hfdl.Sched.Offline

/-! The offline marking beside the disk workers. A worker claims the oldest downloaded file as
the marking does, renews its lease while it checks the bytes, and then publishes the file,
charges it, puts it back, or goes away. -/
namespace Hfdl
open Relational Transition

/-- The store with a marking and the files that workers hold, by their tokens. -/
structure Serving where
  store : Store
  marking : Marking
  tasks : LeaseToken → Option FileId

namespace Serving

inductive Event where
  | mark (tok : LeaseToken) (now : Time)
  | lease (tok : LeaseToken) (now : Time)
  | renew (tok : LeaseToken) (expiry now : Time)
  | complete (tok : LeaseToken) (cachePath : String)
  | charge (tok : LeaseToken) (cause : Option String)
  | retry (tok : LeaseToken) (cause : Option String) (now : Time)
  | leave (tok : LeaseToken)
deriving DecidableEq, Repr

def Event.marks : Event → Bool
  | .mark .. => true
  | _ => false

def commit (d : Serving) (op : Operation) : Serving := { d with store := op.commit d.store }

def release (d : Serving) (tok : LeaseToken) : Serving := { d with tasks := Function.update d.tasks tok none }

/-- Tokens of claims are not empty, and a worker's is its own. -/
def next (d : Serving) : Event → Option Serving
  | .mark tok now =>
    if tok = "" then none
    else some { d with store := (d.marking.step d.store tok now).1, marking := (d.marking.step d.store tok now).2 }
  | .lease tok now =>
    if tok = "" ∨ (d.tasks tok).isSome then none
    else match d.store.leaseVerify tok now with
      | .ok (f, store) => some { d with store, tasks := Function.update d.tasks tok (some f.id) }
      | .error _ => some d
  | .renew tok expiry now => (d.tasks tok).map fun file => d.commit (.renewLease .file file tok expiry now)
  | .complete tok cachePath => (d.tasks tok).map fun file => (d.commit (.completeVerify file tok cachePath)).release tok
  | .charge tok cause => (d.tasks tok).map fun file => (d.commit (.failVerify file tok cause)).release tok
  | .retry tok cause now =>
    (d.tasks tok).map fun file => (d.commit (.transitionFile file tok .verifying .downloaded cause now)).release tok
  | .leave tok => (d.tasks tok).map fun _ => d.release tok

def start (s : Store) (served : ServedMap) : Serving := ⟨s, .queueing served.entries served.entries, fun _ => none⟩

def unserved (s : Store) : Serving := ⟨s, .ended none, fun _ => none⟩

/-- A worker claims only while the oldest downloaded file is not a served one, the marking only
while it is. -/
def Apart (served : ServedMap) (d : Serving) : Event → Prop
  | .lease _ _ => ∀ f, d.store.oldestDownloaded = some f → f.id ∉ served.entries.ids
  | .mark _ _ => d.marking.Own served.entries d.store
  | _ => True

instance (served : ServedMap) (d : Serving) (e : Event) : Decidable (Apart served d e) := by
  unfold Apart
  split <;> infer_instance

variable {s : Store} {served : ServedMap} {d d' u : Serving} {file : FileId} {tok : LeaseToken}

/-- A state beside the state that the workers alone would have reached: the served files are
where the marking has brought them and uncharged, the workers hold other files, and every other
row is the same. -/
structure Kept (s : Store) (served : ServedMap) (d u : Serving) : Prop where
  inv : Marking.Inv served.entries (∀ id ∈ served.entries.ids, s.At id File.Waits) d.store d.marking
  foreign : ∀ tok file, d.tasks tok = some file → file ∉ served.entries.ids
  uncharged : ∀ k, k ∈ served.entries.ids → (d.store.files.get k).map (·.verifyFails) = (s.files.get k).map (·.verifyFails)
  tasks : u.tasks = d.tasks
  owner : u.store.owner = d.store.owner
  others : ∀ k, k ∉ served.entries.ids → u.store.files.get k = d.store.files.get k
  waiting : ∀ k, k ∈ served.entries.ids → u.store.files.get k = s.files.get k

namespace Kept

theorem start (s : Store) (served : ServedMap) : Kept s served (start s served) (unserved s) where
  inv := Marking.Inv.start s served.entries
  foreign := by intro tok file held; cases held
  uncharged _ _ := rfl
  tasks := rfl
  owner := rfl
  others _ _ := rfl
  waiting _ _ := rfl

theorem mark (kept : Kept s served d u) (own : d.marking.Own served.entries d.store)
    (stepped : Marking.Stepped d.store tok d.marking s' m') :
    Kept s served { d with store := s', marking := m' } u where
  inv := kept.inv.next served.distinct own stepped
  foreign := kept.foreign
  uncharged k listed := (stepped.uncharged k).trans (kept.uncharged k listed)
  tasks := kept.tasks
  owner := kept.owner.trans stepped.owner.symm
  others k other := (kept.others k other).trans (stepped.frame kept.inv.within own other).symm
  waiting := kept.waiting

theorem commit (kept : Kept s served d u) (other : file ∉ served.entries.ids) (own : Store.Local file op) :
    Kept s served (d.commit op) (u.commit op) := by
  obtain ⟨row, elsewhere, acts⟩ := own
  have untouched (t : Store) (k : FileId) (listed : k ∈ served.entries.ids) :
      (op.commit t).files.get k = t.files.get k := by
    rw [(acts t).2 k]
    cases found : t.files.get k with
    | none => rfl
    | some f =>
      have apart : f.id ≠ file := by
        rw [(Table.get_eq_some.mp found).2]
        exact fun same => other (same ▸ listed)
      rw [Option.map_some, elsewhere f apart]
  exact {
    inv := kept.inv.congr (untouched d.store)
    foreign := kept.foreign
    uncharged := by
      intro k listed
      rw [show (d.commit op).store = op.commit d.store from rfl, untouched d.store k listed]
      exact kept.uncharged k listed
    tasks := kept.tasks
    owner := ((acts u.store).1.trans kept.owner).trans (acts d.store).1.symm
    others := by
      intro k other
      show (op.commit u.store).files.get k = (op.commit d.store).files.get k
      rw [(acts u.store).2 k, (acts d.store).2 k, kept.others k other]
    waiting := fun k listed => (untouched u.store k listed).trans (kept.waiting k listed) }

theorem release (kept : Kept s served d u) (tok : LeaseToken) : Kept s served (d.release tok) (u.release tok) :=
  { kept with
    foreign := by
      intro other file held
      obtain ⟨rfl, never⟩ | ⟨-, held⟩ := update_eq_some.mp held
      · cases never
      · exact kept.foreign other file held
    tasks := by
      show Function.update u.tasks tok none = Function.update d.tasks tok none
      rw [kept.tasks] }

theorem oldest (kept : Kept s served d u) (ready : ∀ id ∈ served.entries.ids, s.At id File.Waits)
    (apart : ∀ f, d.store.oldestDownloaded = some f → f.id ∉ served.entries.ids) :
    u.store.oldestDownloaded = d.store.oldestDownloaded := by
  -- alone, the served files stay in the queue of the downloads
  have shared {k : FileId} {g : File} (found : u.store.files.get k = some g) (waits : g.status = .downloaded) :
      d.store.files.get k = some g := by
    by_cases listed : k ∈ served.entries.ids
    · obtain ⟨f, at_k, queued, -⟩ := ready k listed
      cases found.symm.trans ((kept.waiting k listed).trans at_k)
      cases waits.symm.trans queued
    · rw [← kept.others k listed]
      exact found
  cases first : d.store.oldestDownloaded with
  | none =>
    apply Table.first_eq_none.mpr
    intro g stored waits
    exact Store.oldestDownloaded_eq_none first (shared (Table.get_eq_some.mpr ⟨stored, rfl⟩) waits) waits
  | some f =>
    obtain ⟨found, waits, least⟩ := Store.oldestDownloaded_eq_some first
    have here := (kept.others f.id (apart f first)).trans found
    cases again : u.store.oldestDownloaded with
    | none => exact absurd waits (Store.oldestDownloaded_eq_none again here)
    | some g =>
      obtain ⟨at_g, waits', least'⟩ := Store.oldestDownloaded_eq_some again
      have same : g.id = f.id := Nat.le_antisymm (least' f.id f here waits) (least g.id g (shared at_g waits') waits')
      rw [same] at at_g
      exact at_g.symm.trans here

theorem lease (kept : Kept s served d u) (other : f.id ∉ served.entries.ids)
    (sets : d.store.Sets f.id (d.store.verifyClaim tok now f) s')
    (sets' : u.store.Sets f.id (u.store.verifyClaim tok now f) t') :
    Kept s served { d with store := s', tasks := Function.update d.tasks tok (some f.id) }
      { u with store := t', tasks := Function.update u.tasks tok (some f.id) } := by
  have apart {k : FileId} (listed : k ∈ served.entries.ids) : k ≠ f.id := fun same => other (same ▸ listed)
  exact {
    inv := kept.inv.congr fun k listed => sets.frame k (apart listed)
    foreign := by
      intro tok' file held
      obtain ⟨rfl, new⟩ | ⟨-, held⟩ := update_eq_some.mp held
      · cases new
        exact other
      · exact kept.foreign tok' file held
    uncharged := by
      intro k listed
      rw [sets.frame k (apart listed)]
      exact kept.uncharged k listed
    tasks := by
      show Function.update u.tasks tok _ = Function.update d.tasks tok _
      rw [kept.tasks]
    owner := (sets'.owner.trans kept.owner).trans sets.owner.symm
    others := by
      intro k foreign
      by_cases here : k = f.id
      · rw [here, sets.row, sets'.row, Store.verifyClaim, Store.verifyClaim, kept.owner]
      · rw [sets.frame k here, sets'.frame k here]
        exact kept.others k foreign
    waiting := fun k listed => (sets'.frame k (apart listed)).trans (kept.waiting k listed) }

theorem held {act act' : FileId → Serving} (kept : Kept s served d u) (stepped : (d.tasks tok).map act = some d')
    (unmarked : ∀ file, (act file).marking = d.marking)
    (keeps : ∀ {file}, file ∉ served.entries.ids → Kept s served (act file) (act' file)) :
    d'.marking = d.marking ∧ ∃ u', (u.tasks tok).map act' = some u' ∧ Kept s served d' u' := by
  obtain ⟨file, held, rfl⟩ := Option.map_eq_some_iff.mp stepped
  have other := kept.foreign tok file held
  rw [← kept.tasks] at held
  exact ⟨unmarked file, act' file, Option.map_eq_some_iff.mpr ⟨file, held, rfl⟩, keeps other⟩

/-- A step, and what the workers alone do in its place. -/
theorem next (kept : Kept s served d u) (ready : ∀ id ∈ served.entries.ids, s.At id File.Waits)
    (apart : Apart served d e) (stepped : d.next e = some d') :
    (e.marks = true ∧ Kept s served d' u ∧ d'.marking.remaining ≤ d.marking.remaining - 1) ∨
      e.marks = false ∧ d'.marking = d.marking ∧ ∃ u', u.next e = some u' ∧ Kept s served d' u' := by
  cases e with
  | mark tok now =>
    simp only [Serving.next] at stepped
    split at stepped
    · cases stepped
    · cases stepped
      have taken := d.marking.stepped d.store tok now
      exact .inl ⟨rfl, kept.mark apart taken, taken.remaining_le kept.inv.within⟩
  | lease tok now =>
    refine .inr ⟨rfl, ?_⟩
    have same := kept.oldest ready apart
    have tasks := congrFun kept.tasks tok
    simp only [Serving.next, Store.leaseVerify_eq, same, tasks] at stepped ⊢
    split at stepped
    · cases stepped
    · case isFalse fresh =>
      rw [if_neg fresh]
      cases first : d.store.oldestDownloaded with
      | none =>
        rw [first] at stepped
        cases stepped
        exact ⟨rfl, u, rfl, kept⟩
      | some f =>
        rw [first] at stepped same
        cases stepped
        have found := (Store.oldestDownloaded_eq_some first).1
        have found' := (Store.oldestDownloaded_eq_some same).1
        exact ⟨rfl, _, rfl, kept.lease (f := f) (apart f first)
          (Store.sets_of_update (fun _ here => here) found rfl) (Store.sets_of_update (fun _ here => here) found' rfl)⟩
  | renew tok expiry now =>
    exact .inr ⟨rfl, kept.held stepped (fun _ => rfl) fun other => kept.commit other Store.local_renewLease⟩
  | complete tok cachePath =>
    exact .inr ⟨rfl, kept.held stepped (fun _ => rfl) fun other => (kept.commit other Store.local_completeVerify).release tok⟩
  | charge tok cause =>
    exact .inr ⟨rfl, kept.held stepped (fun _ => rfl) fun other => (kept.commit other Store.local_failVerify).release tok⟩
  | retry tok cause now =>
    exact .inr ⟨rfl, kept.held stepped (fun _ => rfl) fun other => (kept.commit other Store.local_retry).release tok⟩
  | leave tok => exact .inr ⟨rfl, kept.held stepped (fun _ => rfl) fun _ => kept.release tok⟩

theorem run (kept : Kept s served d u) (ready : ∀ id ∈ served.entries.ids, s.At id File.Waits)
    (ran : run Serving.next d es = some d') (meets : Meets Serving.next (Apart served) d es) :
    ∃ u', Transition.run Serving.next u (es.filter fun e => !e.marks) = some u' ∧ Kept s served d' u' ∧
      d'.marking.remaining ≤ d.marking.remaining - es.countP Event.marks := by
  induction es generalizing d u with
  | nil =>
    cases ran
    exact ⟨u, rfl, kept, Nat.le_refl _⟩
  | cons e es ih =>
    obtain ⟨middle, stepped, rest⟩ := run_cons_some.mp ran
    rcases kept.next ready meets.head stepped with ⟨marks, kept, closer⟩ | ⟨works, same, u₁, alone, kept⟩
    · obtain ⟨u', beside, kept, bound⟩ := ih kept rest (meets.tail stepped)
      refine ⟨u', ?_, kept, ?_⟩
      · rw [List.filter_cons_of_neg (by simp [marks])]
        exact beside
      · rw [List.countP_cons_of_pos marks]
        omega
    · obtain ⟨u', beside, kept, bound⟩ := ih kept rest (meets.tail stepped)
      refine ⟨u', ?_, kept, ?_⟩
      · rw [List.filter_cons_of_pos (by simp [works])]
        exact run_cons_some.mpr ⟨u₁, alone, beside⟩
      · rw [List.countP_cons_of_neg (by simp [works]), ← same]
        exact bound

end Kept

/-- In every interleaving in which a worker claims only while the oldest downloaded file is not
served and the marking only while it is: no served file is charged, the marking does not fail,
ends within a bounded number of its own steps and leaves every served file cached at its path;
and every other file is where the same steps of the workers alone bring it. -/
theorem serving_apart (s : Store) (served : ServedMap) (ready : ∀ id ∈ served.entries.ids, s.At id File.Waits)
    (es : List Event) (ran : run next (start s served) es = some d)
    (meets : Meets next (Apart served) (start s served) es) :
    (∀ id ∈ served.entries.ids, (d.store.files.get id).map (·.verifyFails) = (s.files.get id).map (·.verifyFails)) ∧
      (∀ err, d.marking ≠ .ended (some err)) ∧
      (3 * served.entries.length + 2 ≤ es.countP Event.marks → d.marking = .ended none) ∧
      (d.marking = .ended none → ∀ entry ∈ served.entries, d.store.At entry.1 (File.CachedAt entry.2)) ∧
      ∃ u, run next (unserved s) (es.filter fun e => !e.marks) = some u ∧ u.tasks = d.tasks ∧
        ∀ id, id ∉ served.entries.ids → u.store.files.get id = d.store.files.get id := by
  obtain ⟨u, alone, kept, bound⟩ := (Kept.start s served).run ready ran meets
  refine ⟨kept.uncharged, kept.inv.clean ready, ?_, ?_, u, alone, kept.tasks, kept.others⟩
  · intro enough
    have whole : (start s served).marking.remaining = 3 * served.entries.length + 2 := by
      simp only [start, Marking.remaining]
      omega
    obtain ⟨err, last⟩ := Marking.eq_ended _ (by omega) kept.inv.within
    cases err with
    | none => exact last
    | some e => exact absurd last (kept.inv.clean ready e)
  · intro last entry inside
    have place := kept.inv.places entry inside
    rw [last] at place
    exact place

/-- A file to be served, between two that wait for verification. -/
def crowded : Store :=
  { Store.empty "worker" with
    files := ⟨[Marking.listedFile 1 .downloaded, Marking.listedFile 2 .queued, Marking.listedFile 3 .downloaded],
      by decide⟩ }

def servedOne : ServedMap := ⟨[(2, "/cache/served")], by decide⟩

/-- The older file is taken before the marking claims, the younger one while it holds the served
file; one is published and the other one charged, as without the marking. -/
theorem serving_apart_crowded : ∃ d u, run next (start crowded servedOne) [.mark "a" 0, .lease "v" 0, .mark "b" 0,
      .mark "c" 0, .lease "w" 0, .complete "v" "/cache/oid", .mark "d" 0, .charge "w" (some "mismatch"), .mark "e" 0] =
      some d ∧
    run next (unserved crowded) [.lease "v" 0, .lease "w" 0, .complete "v" "/cache/oid",
      .charge "w" (some "mismatch")] = some u ∧
    d.marking = .ended none ∧ d.store.At 2 (File.CachedAt "/cache/served") ∧
    u.store.files.get 1 = d.store.files.get 1 ∧ u.store.files.get 3 = d.store.files.get 3 := by
  have ready : ∀ id ∈ servedOne.entries.ids, crowded.At id File.Waits := by
    intro id listed
    cases List.mem_singleton.mp listed
    exact ⟨Marking.listedFile 2 .queued, rfl, rfl, rfl⟩
  have ran : ∃ d, run next (start crowded servedOne) [.mark "a" 0, .lease "v" 0, .mark "b" 0,
      .mark "c" 0, .lease "w" 0, .complete "v" "/cache/oid", .mark "d" 0, .charge "w" (some "mismatch"), .mark "e" 0] =
      some d := ⟨_, rfl⟩
  obtain ⟨d, ran⟩ := ran
  obtain ⟨-, -, ends, caches, u, alone, -, others⟩ := serving_apart crowded servedOne ready _ ran (by decide)
  have last := ends (by decide)
  exact ⟨d, u, ran, alone, last, caches last (2, "/cache/served") (by decide), others 1 (by decide), others 3 (by decide)⟩

/-- A worker claims the served file between the two loops of the marking; its bytes are not
staged, so the file is charged and queued for download again, and the marking ends with an error. -/
theorem worker_takes_served : ∃ d, run next (start crowded servedOne) [.lease "v" 0, .lease "w" 0, .mark "a" 0,
      .lease "x" 0, .charge "x" (some "mismatch"), .mark "b" 0, .mark "c" 0] = some d ∧
    (d.store.files.get 2).map (fun f => (f.status, f.cachePath, f.verifyFails)) = some (.queued, none, 1) ∧
    d.marking = .ended (some (.notClaimable 1)) :=
  ⟨_, rfl, by decide, by decide⟩

end Serving
end Hfdl
