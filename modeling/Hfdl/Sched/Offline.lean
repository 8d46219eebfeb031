import Hfdl.Store.Operation
import Hfdl.Transition

/-! Serving files from the cache layout. The marking first moves every served file to
`downloaded` and then claims files for verification, oldest first, until every served one is
cached; disk workers claim from the same queue. -/
namespace Hfdl
open Relational Transition

/-- Files, each with the path it is served from. -/
abbrev Served := List (FileId × String)

def Served.ids (served : Served) : List FileId := served.map Prod.fst

/-- The map of served files, in the order in which the first loop happens to visit it. -/
structure ServedMap where
  entries : Served
  distinct : entries.ids.Nodup

inductive OfflineError where
  | transition (file : FileId) (cause : StoreError)
  | notClaimable (left : Nat)
  | store (cause : StoreError)
  | mark (file : FileId) (cause : StoreError)
deriving DecidableEq, Repr

/-- Where `markCachedOffline` is: in its first loop, at the head of its second one, with a
claimed file, or back at its caller. -/
inductive Marking where
  | queueing (rest served : Served)
  | claiming (served : Served)
  | holding (file : FileId) (tok : LeaseToken) (served : Served)
  | ended (err : Option OfflineError)
deriving DecidableEq, Repr

/-- One store call of `markCachedOffline`, or the end of one of its loops. -/
def Marking.step (s : Store) (tok : LeaseToken) (now : Time) : Marking → Store × Marking
  | queueing [] served => (s, claiming served)
  | queueing ((file, _) :: rest) served =>
    match s.transitionFile file "" .queued .downloaded none now with
    | .ok s' => (s', queueing rest served)
    | .error e => (s, ended (some (.transition file e)))
  | claiming [] => (s, ended none)
  | claiming (first :: rest) =>
    match s.leaseVerify tok now with
    | .ok (f, s') => (s', holding f.id tok (first :: rest))
    | .error (.noWork _) => (s, ended (some (.notClaimable (first :: rest).length)))
    | .error e => (s, ended (some (.store e)))
  | holding file tok served =>
    match served.lookup file with
    -- a leftover from another flow goes back to the queue
    | none =>
      match s.transitionFile file tok .verifying .downloaded none now with
      | .ok s' => (s', claiming served)
      | .error e => (s, ended (some (.store e)))
    | some path =>
      match s.completeVerify file tok path with
      | .ok s' => (s', claiming (served.filter fun entry => entry.1 ≠ file))
      | .error e => (s, ended (some (.mark file e)))
  | ended err => (s, ended err)

/-- `markCachedOffline` after a number of steps, with a fresh token and the time for each. -/
def markCachedOffline (fresh : Nat → LeaseToken × Time) (s : Store) (served : ServedMap) : Nat → Store × Marking
  | 0 => (s, .queueing served.entries served.entries)
  | n + 1 =>
    let (s', m) := markCachedOffline fresh s served n
    m.step s' (fresh n).1 (fresh n).2

def Store.At (s : Store) (file : FileId) (P : File → Prop) : Prop := ∃ f, s.files.get file = some f ∧ P f

def File.Waits (f : File) : Prop := f.status = .queued ∧ f.leaseToken = none

def File.CachedAt (path : String) (f : File) : Prop := f.status = .cached ∧ f.cachePath = some path

/-- The file the next `LeaseVerify` claims. -/
def Store.oldestDownloaded (s : Store) : Option File := s.files.first (·.status = .downloaded) (·.id < ·.id)

namespace Store
variable {s s' : Store} {file : FileId}

theorem leaseVerify_eq (s : Store) (tok : LeaseToken) (now : Time) :
    s.leaseVerify tok now = match s.oldestDownloaded with
      | none => .error (.noWork "lease verify")
      | some f => .ok (s.verifyClaim tok now f,
          { s with files := s.files.update (·.id = f.id) (s.verifyClaim tok now) }) := rfl

theorem oldestDownloaded_eq_some (found : s.oldestDownloaded = some f) :
    s.files.get f.id = some f ∧ f.status = .downloaded ∧
      ∀ k g, s.files.get k = some g → g.status = .downloaded → f.id ≤ k := by
  obtain ⟨stored, downloaded⟩ := Table.mem_of_first found
  refine ⟨Table.get_eq_some.mpr ⟨stored, rfl⟩, downloaded, ?_⟩
  intro k g held waits
  obtain ⟨inside, rfl⟩ := Table.get_eq_some.mp held
  exact Table.first_le found g inside waits

theorem oldestDownloaded_eq_none (empty : s.oldestDownloaded = none) (held : s.files.get k = some g) :
    g.status ≠ .downloaded :=
  Table.first_eq_none.mp empty g (Table.get_eq_some.mp held).1

/-- One file row is replaced, and nothing else of the table. -/
structure Sets (s : Store) (file : FileId) (f : File) (s' : Store) : Prop where
  row : s'.files.get file = some f
  frame : ∀ k, k ≠ file → s'.files.get k = s.files.get k
  owner : s'.owner = s.owner

namespace Sets
variable {f : File} {P : File → Prop}

theorem here (sets : s.Sets file f s') (holds : P f) : s'.At file P := ⟨f, sets.row, holds⟩

theorem at_iff (sets : s.Sets file f s') (other : k ≠ file) : s'.At k P ↔ s.At k P := by
  rw [At, At, sets.frame k other]

end Sets

theorem sets_of_update {guard : File → Prop} [DecidablePred guard] {set : Setter File.id}
    (pinned : ∀ f, guard f → f.id = file) (found : s.files.get file = some f) (held : guard f) :
    Sets s file (set f) { s with files := s.files.update guard set } where
  row := by rw [Table.get_update_eq, found, Option.map_some, if_pos held]
  frame k other := by
    rw [Table.get_update_eq]
    cases at_k : s.files.get k with
    | none => rfl
    | some g =>
      have elsewhere : g.id ≠ file := by rw [(Table.get_eq_some.mp at_k).2]; exact other
      rw [Option.map_some, if_neg fun held => elsewhere (pinned g held)]
  owner := rfl

theorem transitionFile_ok_iff (edge : tok = "" → tokenlessEdgeAllowed source target = true)
    (other : source ≠ .downloading) :
    s.transitionFile file tok source target cause now = .ok s' ↔ (∃ f ∈ s.files, f.Owned file tok source) ∧
      s' = { s with
        files := s.files.update (File.Owned file tok source)
          ⟨fun f => { f with toLease := .cleared, status := target, lastError := cause }, fun _ => rfl⟩ } := by
  have allowed : ¬ (tok = "" ∧ tokenlessEdgeAllowed source target = false) := by
    intro refused
    rw [edge refused.1] at refused
    cases refused.2
  rw [transitionFile, if_neg allowed]
  by_cases owned : ∃ f ∈ s.files, f.Owned file tok source
  · rw [if_neg (not_not_intro owned), if_neg (fun e => other e.1.1), if_neg (fun e => other e.1.1)]
    exact execGuarded_committed fun _ owned => owned.1
  · rw [if_pos owned]
    constructor
    · intro done
      cases done
    · intro done
      exact absurd done.1 owned

theorem unowned_of_error (edge : tok = "" → tokenlessEdgeAllowed source target = true)
    (other : source ≠ .downloading) (failed : s.transitionFile file tok source target cause now = .error e) :
    ∀ f ∈ s.files, ¬ f.Owned file tok source := by
  intro f stored owned
  have done : s.transitionFile file tok source target cause now = .ok _ :=
    (transitionFile_ok_iff edge other).mpr ⟨⟨f, stored, owned⟩, rfl⟩
  cases failed.symm.trans done

theorem unheld_of_error {set : Setter File.id} (failed : s.guardFile op file statuses tok set = .error e) :
    ∀ f ∈ s.files, ¬ f.Held file statuses tok := by
  intro f stored held
  have done : s.guardFile op file statuses tok set = .ok _ := guardFile_ok.mpr ⟨⟨f, stored, held⟩, rfl⟩
  cases failed.symm.trans done

/-- A call that rewrites one file row, by what is in that row alone. -/
def Local (file : FileId) (op : Operation) : Prop :=
  ∃ row : File → File, (∀ f, f.id ≠ file → row f = f) ∧
    ∀ s, (op.commit s).owner = s.owner ∧ ∀ k, (op.commit s).files.get k = (s.files.get k).map row

theorem commit_of_unmatched {op : Operation} {guard : File → Prop} (does : ∀ {s s'}, op.exec s = .ok s' → ∃ f ∈ s.files, guard f)
    (unmatched : ¬ ∃ f ∈ s.files, guard f) : op.commit s = s := by
  rcases op.commit_cases s with same | done
  · exact same
  · exact absurd (does done) unmatched

theorem map_of_unmatched {guard : File → Prop} {row : File → File} (acts : ∀ f, ¬ guard f → row f = f)
    (unmatched : ¬ ∃ f ∈ s.files, guard f) (k : FileId) : s.files.get k = (s.files.get k).map row := by
  cases found : s.files.get k with
  | none => rfl
  | some f => rw [Option.map_some, acts f fun held => unmatched ⟨f, (Table.get_eq_some.mp found).1, held⟩]

theorem local_of_guard {op : Operation} {guard : File → Prop} [DecidablePred guard] {set : Setter File.id}
    (pinned : ∀ f, guard f → f.id = file)
    (does : ∀ {s s'}, op.exec s = .ok s' ↔
      (∃ f ∈ s.files, guard f) ∧ s' = { s with files := s.files.update guard set }) : Local file op := by
  refine ⟨fun f => if guard f then set f else f, fun f other => if_neg fun held => other (pinned f held), ?_⟩
  intro s
  by_cases held : ∃ f ∈ s.files, guard f
  · rw [Operation.commit_of_exec (does.mpr ⟨held, rfl⟩)]
    exact ⟨rfl, fun k => Table.get_update_eq k⟩
  · rw [commit_of_unmatched (fun done => (does.mp done).1) held]
    exact ⟨rfl, fun k => map_of_unmatched (fun f unheld => if_neg unheld) held k⟩

theorem local_completeVerify : Local file (.completeVerify file tok path) :=
  local_of_guard (fun _ held => held.1) guardFile_ok

theorem local_renewLease : Local file (.renewLease .file file tok expiry now) := by
  have pinned (f : File) (held : f.Held file [.downloading, .salvaging, .verifying] tok ∧ f.Live now) : f.id = file :=
    held.1.1
  exact local_of_guard pinned (execGuarded_committed pinned)

theorem local_retry : Local file (.transitionFile file tok .verifying .downloaded cause now) := by
  by_cases named : tok = ""
  · -- without a token the edge is refused
    refine ⟨id, fun _ _ => rfl, fun s => ?_⟩
    have refused : (Operation.transitionFile file tok .verifying .downloaded cause now).commit s = s := by
      simp [Operation.commit, Operation.exec, transitionFile, named, tokenlessEdgeAllowed]
    rw [refused]
    simp
  · exact local_of_guard (fun _ owned => owned.1)
      (transitionFile_ok_iff (fun empty => absurd empty named) (by decide))

theorem failVerify_done (held : ∃ f ∈ s.files, f.Held file [.verifying] tok) (cause : Option String) :
    ∃ s', s.failVerify file tok cause = .ok s' := by
  let charge : Setter File.id := ⟨fun f => { f with verifyFails := f.verifyFails + 1, lastError := cause }, fun _ => rfl⟩
  have counted : ∃ f ∈ s.files.update (File.Held file [.verifying] tok) charge, f.Held file [.verifying] tok := by
    obtain ⟨f, stored, held⟩ := held
    refine ⟨charge f, Table.mem_update.mpr ⟨f, stored, (if_pos held).symm⟩, held⟩
  have first : s.guardFile "fail verify" file [.verifying] tok charge =
      .ok { s with files := s.files.update (File.Held file [.verifying] tok) charge } :=
    guardFile_ok.mpr ⟨held, rfl⟩
  unfold failVerify
  rw [first]
  simp only [bind, Except.bind]
  split
  · exact ⟨_, guardFile_ok.mpr ⟨counted, rfl⟩⟩
  · exact ⟨_, guardFile_ok.mpr ⟨counted, rfl⟩⟩

def failedRow (cause : Option String) (f : File) : File :=
  if maxVerifyFails ≤ f.verifyFails + 1 then
    { f with toLease := .cleared, status := .error, verifyFails := f.verifyFails + 1, lastError := cause }
  else
    { f with
      toLease := .cleared, status := .queued, progress := none, progressVer := f.progressVer + 1
      verifyFails := f.verifyFails + 1, lastError := cause }

theorem local_failVerify : Local file (.failVerify file tok cause) := by
  have acts (f : File) (unheld : ¬ f.Held file [.verifying] tok) :
      (if f.Held file [.verifying] tok then failedRow cause f else f) = f := if_neg unheld
  refine ⟨fun f => if f.Held file [.verifying] tok then failedRow cause f else f,
    fun f other => acts f fun held => other held.1, ?_⟩
  intro s
  by_cases held : ∃ f ∈ s.files, f.Held file [.verifying] tok
  · obtain ⟨s', done⟩ := failVerify_done held cause
    rw [Operation.commit_of_exec (show (Operation.failVerify file tok cause).exec s = .ok s' from done)]
    obtain ⟨f, stored, held, branches⟩ := failVerify_ok done
    -- the guard finds one row, so the branch taken is the one its own count asks for
    have only {k : FileId} (g : File) (found : s.files.get k = some g) (here : g.Held file [.verifying] tok) : g = f :=
      Table.eq_of_key (Table.get_eq_some.mp found).1 stored (here.1.trans held.1.symm)
    rcases branches with ⟨terminal, rfl⟩ | ⟨again, rfl⟩
    all_goals
      refine ⟨rfl, fun k => ?_⟩
      rw [Table.get_update_eq]
      cases found : s.files.get k with
      | none => rfl
      | some g =>
        simp only [Option.map_some]
        by_cases here : g.Held file [.verifying] tok
        · rw [if_pos here, if_pos here, failedRow, only g found here]
          simp [*]
        · rw [if_neg here, if_neg here]
  · rw [commit_of_unmatched (fun done => ?_) held]
    · exact ⟨rfl, fun k => map_of_unmatched acts held k⟩
    · obtain ⟨f, stored, held, -⟩ := failVerify_ok done
      exact ⟨f, stored, held⟩

end Store

namespace Marking

/-- Everything a step of the marking can do. -/
inductive Stepped (s : Store) (tok : LeaseToken) : Marking → Store → Marking → Prop where
  | listed : Stepped s tok (queueing [] served) s (claiming served)
  | queued (found : s.files.get file = some f) (waits : f.status = .queued) (free : f.leaseToken = none)
      (sets : s.Sets file f' s') (waiting : f'.status = .downloaded) (uncharged : f'.verifyFails = f.verifyFails) :
      Stepped s tok (queueing ((file, path) :: rest) served) s' (queueing rest served)
  | refused (busy : ∀ f, s.files.get file = some f → f.status = .queued → f.leaseToken ≠ none) :
      Stepped s tok (queueing ((file, path) :: rest) served) s (ended (some err))
  | finished : Stepped s tok (claiming []) s (ended none)
  | claimed (oldest : s.oldestDownloaded = some f)
      (sets : s.Sets f.id f' s') (checks : f'.status = .verifying) (holds : f'.leaseToken = some tok)
      (uncharged : f'.verifyFails = f.verifyFails) :
      Stepped s tok (claiming (entry :: left)) s' (holding f.id tok (entry :: left))
  | empty (idle : s.oldestDownloaded = none) : Stepped s tok (claiming (entry :: left)) s (ended (some err))
  | returned (foreign : left.lookup file = none) (found : s.files.get file = some f)
      (sets : s.Sets file f' s') (waiting : f'.status = .downloaded) (uncharged : f'.verifyFails = f.verifyFails) :
      Stepped s tok (holding file held left) s' (claiming left)
  | strayed (foreign : left.lookup file = none)
      (gone : held ≠ "" → ∀ f, s.files.get file = some f → f.status = .verifying → f.leaseToken ≠ some held) :
      Stepped s tok (holding file held left) s (ended (some err))
  | cached (own : left.lookup file = some path) (found : s.files.get file = some f)
      (sets : s.Sets file f' s') (served : f'.status = .cached ∧ f'.cachePath = some path)
      (uncharged : f'.verifyFails = f.verifyFails) :
      Stepped s tok (holding file held left) s' (claiming (left.filter fun entry => entry.1 ≠ file))
  | lost (own : left.lookup file = some path)
      (gone : ∀ f, s.files.get file = some f → f.status = .verifying → f.leaseToken ≠ some held) :
      Stepped s tok (holding file held left) s (ended (some err))
  | ended : Stepped s tok (ended err) s (ended err)

variable {s s' : Store} {m m' : Marking} {file : FileId} {tok : LeaseToken} {now : Time} {served rest left : Served}

theorem stepped (s : Store) (tok : LeaseToken) (now : Time) (m : Marking) :
    Stepped s tok m (m.step s tok now).1 (m.step s tok now).2 := by
  cases m with
  | ended err => exact .ended
  | queueing rest served =>
    cases rest with
    | nil => exact .listed
    | cons entry rest =>
      obtain ⟨file, path⟩ := entry
      simp only [step]
      split
      · case h_1 s' done =>
        obtain ⟨⟨f, stored, owned⟩, rfl⟩ := (Store.transitionFile_ok_iff (by decide) (by decide)).mp done
        have found := Table.get_eq_some.mpr ⟨stored, owned.1⟩
        exact .queued found owned.2.1 owned.2.2 (Store.sets_of_update (fun _ owned => owned.1) found owned) rfl rfl
      · case h_2 e failed =>
        apply Stepped.refused
        intro f found waits free
        obtain ⟨stored, here⟩ := Table.get_eq_some.mp found
        exact Store.unowned_of_error (by decide) (by decide) failed f stored ⟨here, waits, free⟩
  | claiming left =>
    cases left with
    | nil => exact .finished
    | cons entry left =>
      simp only [step, Store.leaseVerify_eq]
      cases oldest : s.oldestDownloaded with
      | none => exact .empty oldest
      | some f =>
        have found := (Store.oldestDownloaded_eq_some oldest).1
        exact .claimed (f := f) oldest (Store.sets_of_update (fun _ here => here) found rfl) rfl rfl rfl
  | holding file held left =>
    simp only [step]
    split
    · case h_1 foreign =>
      split
      · case h_1 s' done =>
        obtain ⟨edge, -⟩ := Store.transitionFile_ok done
        obtain ⟨⟨f, stored, owned⟩, rfl⟩ := (Store.transitionFile_ok_iff edge (by decide)).mp done
        have found := Table.get_eq_some.mpr ⟨stored, owned.1⟩
        exact .returned foreign found (Store.sets_of_update (fun _ owned => owned.1) found owned) rfl rfl
      · case h_2 e failed =>
        apply Stepped.strayed foreign
        intro named f found checks holds
        obtain ⟨stored, here⟩ := Table.get_eq_some.mp found
        exact Store.unowned_of_error (fun empty => absurd empty named) (by decide) failed f stored
          ⟨here, checks, holds.trans (if_neg named).symm⟩
    · case h_2 path own =>
      split
      · case h_1 s' done =>
        obtain ⟨⟨f, stored, owned⟩, rfl⟩ := Store.guardFile_ok.mp done
        have found := Table.get_eq_some.mpr ⟨stored, owned.1⟩
        exact .cached own found (Store.sets_of_update (fun _ owned => owned.1) found owned) ⟨rfl, rfl⟩ rfl
      · case h_2 e failed =>
        apply Stepped.lost own
        intro f found checks holds
        obtain ⟨stored, here⟩ := Table.get_eq_some.mp found
        exact Store.unheld_of_error failed f stored ⟨here, List.mem_singleton.mpr checks, holds⟩

/-- The lists that the marking works on come from the served set, and a claimed file is in its list. -/
def Within (served : Served) : Marking → Prop
  | queueing rest given => given = served ∧ rest.Sublist served
  | claiming left => left.Sublist served
  | holding file _ left => left.Sublist served ∧ file ∈ left.ids
  | ended _ => True

def Place (ready : Prop) (s : Store) (m : Marking) (entry : FileId × String) : Prop :=
  match m with
  | queueing rest _ =>
    if entry ∈ rest then ready → s.At entry.1 File.Waits else s.At entry.1 (·.status = .downloaded)
  | claiming left => if entry ∈ left then s.At entry.1 (·.status = .downloaded) else s.At entry.1 (File.CachedAt entry.2)
  | holding file tok left =>
    if entry.1 = file then s.At file fun f => f.status = .verifying ∧ f.leaseToken = some tok
    else if entry ∈ left then s.At entry.1 (·.status = .downloaded)
    else s.At entry.1 (File.CachedAt entry.2)
  | ended none => s.At entry.1 (File.CachedAt entry.2)
  | ended (some _) => True

/-- What the marking claims next is one of the served files. -/
def Own (served : Served) (s : Store) : Marking → Prop
  | claiming (_ :: _) => ∀ f, s.oldestDownloaded = some f → f.id ∈ served.ids
  | _ => True

instance (m : Marking) : Decidable (m.Own served s) := by
  unfold Own
  split <;> infer_instance

/-- What every step keeps; a marking of files that all wait in the queue does not fail. -/
structure Inv (served : Served) (ready : Prop) (s : Store) (m : Marking) : Prop where
  within : m.Within served
  places : ∀ entry ∈ served, m.Place ready s entry
  clean : ready → ∀ err, m ≠ ended (some err)

namespace Inv
variable {ready : Prop} {f f' : File} {path : String} {entry : FileId × String}

theorem mem_ids (inside : entry ∈ served) : entry.1 ∈ served.ids := List.mem_map_of_mem inside

theorem unique (distinct : served.ids.Nodup) (here : entry ∈ served) (there : other ∈ served)
    (same : entry.1 = other.1) : entry = other :=
  List.inj_on_of_nodup_map distinct here there same

theorem not_mem_ids (foreign : left.lookup file = none) : file ∉ left.ids := by
  intro listed
  obtain ⟨entry, inside, same⟩ := List.mem_map.mp listed
  have other := List.lookup_eq_none_iff.mp foreign entry inside
  simp [same] at other

theorem queued (distinct : served.ids.Nodup) (inv : Inv served ready s (queueing ((file, path) :: rest) given))
    (sets : s.Sets file f' s') (waiting : f'.status = .downloaded) :
    Inv served ready s' (queueing rest given) := by
  obtain ⟨⟨rfl, sub⟩, places, -⟩ := inv
  have taken : (file, path) ∈ given := sub.subset List.mem_cons_self
  refine ⟨⟨rfl, (List.sublist_cons_self _ _).trans sub⟩, fun entry inside => ?_, by simp⟩
  have place := places entry inside
  simp only [Place, List.mem_cons] at place ⊢
  by_cases same : entry = (file, path)
  · subst same
    have once : (file, path) ∉ rest := (List.nodup_cons.mp ((distinct.of_map _).sublist sub)).1
    rw [if_neg once]
    exact sets.here waiting
  · have other : entry.1 ≠ file := fun here => same (unique distinct inside taken here)
    simpa only [same, false_or, sets.at_iff other] using place

theorem claimed (inv : Inv served ready s (claiming left))
    (own : f.id ∈ served.ids) (found : s.files.get f.id = some f) (waits : f.status = .downloaded)
    (sets : s.Sets f.id f' s') (checks : f'.status = .verifying) (holds : f'.leaseToken = some tok) :
    Inv served ready s' (holding f.id tok left) := by
  obtain ⟨sub, places, -⟩ := inv
  obtain ⟨entry, inside, same⟩ := List.mem_map.mp own
  refine ⟨⟨sub, ?_⟩, fun other there => ?_, by simp⟩
  · have place := places entry inside
    by_cases waiting : entry ∈ left
    · rw [← same]
      exact mem_ids waiting
    · -- a served file outside the list is cached already
      simp only [Place, if_neg waiting, same] at place
      obtain ⟨g, again, cached⟩ := place
      cases found.symm.trans again
      cases waits.symm.trans cached.1
  · have place := places other there
    simp only [Place] at place ⊢
    by_cases here : other.1 = f.id
    · rw [if_pos here]
      exact sets.here ⟨checks, holds⟩
    · simpa only [if_neg here, sets.at_iff here] using place

theorem cached (distinct : served.ids.Nodup) (inv : Inv served ready s (holding file held left))
    (own : left.lookup file = some path) (sets : s.Sets file f' s') (done : f'.CachedAt path) :
    Inv served ready s' (claiming (left.filter fun entry => entry.1 ≠ file)) := by
  obtain ⟨⟨sub, -⟩, places, -⟩ := inv
  have listed : (file, path) ∈ left := by
    obtain ⟨front, back, rfl, -⟩ := List.lookup_eq_some_iff.mp own
    simp
  refine ⟨(List.filter_sublist).trans sub, fun entry inside => ?_, by simp⟩
  have place := places entry inside
  simp only [Place, List.mem_filter, decide_eq_true_eq] at place ⊢
  by_cases here : entry.1 = file
  · cases unique distinct inside (sub.subset listed) here
    simp only [ne_eq, not_true_eq_false, and_false, if_false]
    exact sets.here done
  · simpa only [here, ne_eq, not_false_eq_true, and_true, if_false, sets.at_iff here] using place

theorem congr (inv : Inv served ready s m) (same : ∀ k, k ∈ served.ids → s'.files.get k = s.files.get k) :
    Inv served ready s' m := by
  refine ⟨inv.within, fun entry inside => ?_, inv.clean⟩
  have row (P : File → Prop) : s'.At entry.1 P ↔ s.At entry.1 P := by
    rw [Store.At, Store.At, same entry.1 (mem_ids inside)]
  have place := inv.places entry inside
  cases m with
  | queueing | claiming => simpa only [Place, row] using place
  | holding file held left =>
    simp only [Place] at place ⊢
    by_cases here : entry.1 = file
    · rw [if_pos here] at place ⊢
      rw [← here] at place ⊢
      exact (row _).mpr place
    · simpa only [if_neg here, row] using place
  | ended err =>
    cases err with
    | none => exact (row _).mpr place
    | some e => trivial

/-- One step of the marking, provided that what it claims is served. -/
theorem next (distinct : served.ids.Nodup) (inv : Inv served ready s m) (own : m.Own served s)
    (stepped : Stepped s tok m s' m') : Inv served ready s' m' := by
  cases stepped with
  | listed =>
    obtain ⟨⟨rfl, -⟩, places, -⟩ := inv
    refine ⟨List.Sublist.refl _, fun entry inside => ?_, by simp⟩
    have place := places entry inside
    simp only [Place, List.not_mem_nil, if_false] at place
    simpa only [Place, inside, if_true] using place
  | queued _ _ _ sets waiting _ => exact inv.queued distinct sets waiting
  | @refused file path rest given err busy =>
    obtain ⟨⟨-, sub⟩, places, -⟩ := inv
    have place := places (file, path) (sub.subset List.mem_cons_self)
    simp only [Place, List.mem_cons_self, if_true] at place
    refine ⟨trivial, fun _ _ => trivial, fun ready => ?_⟩
    obtain ⟨f, found, waits, free⟩ := place ready
    exact absurd free (busy f found waits)
  | finished => exact ⟨trivial, fun entry inside => by simpa [Place] using inv.places entry inside, by simp⟩
  | claimed oldest sets checks holds _ =>
    obtain ⟨found, waits, -⟩ := Store.oldestDownloaded_eq_some oldest
    exact inv.claimed (own _ oldest) found waits sets checks holds
  | @empty entry left err idle =>
    have place := inv.places entry (inv.within.subset List.mem_cons_self)
    simp only [Place, List.mem_cons_self, if_true] at place
    obtain ⟨f, found, waits⟩ := place
    exact absurd waits (Store.oldestDownloaded_eq_none idle found)
  | returned foreign | strayed foreign => exact absurd inv.within.2 (not_mem_ids foreign)
  | cached listed _ sets done _ => exact inv.cached distinct listed sets done
  | @lost left file path held err listed gone =>
    obtain ⟨entry, inside, same⟩ := List.mem_map.mp inv.within.2
    have place := inv.places entry (inv.within.1.subset inside)
    simp only [Place, same, if_true] at place
    obtain ⟨f, found, checks, holds⟩ := place
    exact absurd holds (gone f found checks)
  | ended => exact inv

end Inv

def remaining : Marking → Nat
  | queueing rest given => rest.length + 2 * given.length + 2
  | claiming left => 2 * left.length + 1
  | holding _ _ left => 2 * left.length
  | ended _ => 0

theorem length_filter_lt (listed : file ∈ left.ids) :
    (left.filter fun entry => entry.1 ≠ file).length < left.length := by
  obtain ⟨entry, inside, same⟩ := List.mem_map.mp listed
  exact List.length_filter_lt_length_iff_exists.mpr ⟨entry, inside, by simp [same]⟩

namespace Stepped
variable (stepped : Stepped s tok m s' m')
include stepped

theorem remaining_le (within : m.Within served) : m'.remaining ≤ m.remaining - 1 := by
  cases stepped with
  | returned foreign => exact absurd within.2 (Inv.not_mem_ids foreign)
  | cached =>
    have fewer := length_filter_lt within.2
    simp only [remaining]
    omega
  | listed | queued | refused | finished | claimed | empty | strayed | lost | ended =>
    simp only [remaining, List.length_cons]
    omega

theorem owner : s'.owner = s.owner := by
  cases stepped with
  | queued _ _ _ sets | claimed _ sets | returned _ _ sets | cached _ _ sets => exact sets.owner
  | listed | refused | finished | empty | strayed | lost | ended => rfl

theorem uncharged (k : FileId) : (s'.files.get k).map (·.verifyFails) = (s.files.get k).map (·.verifyFails) := by
  have row {file : FileId} {f f' : File} (found : s.files.get file = some f) (sets : s.Sets file f' s')
      (same : f'.verifyFails = f.verifyFails) :
      (s'.files.get k).map (·.verifyFails) = (s.files.get k).map (·.verifyFails) := by
    by_cases here : k = file
    · rw [here, sets.row, found, Option.map_some, Option.map_some, same]
    · rw [sets.frame k here]
  cases stepped with
  | queued found _ _ sets _ same => exact row found sets same
  | claimed oldest sets _ _ same => exact row (Store.oldestDownloaded_eq_some oldest).1 sets same
  | returned _ found sets _ same => exact row found sets same
  | cached _ found sets _ same => exact row found sets same
  | listed | refused | finished | empty | strayed | lost | ended => rfl

theorem frame (within : m.Within served) (own : m.Own served s) (other : k ∉ served.ids) :
    s'.files.get k = s.files.get k := by
  have elsewhere {file : FileId} (here : file ∈ served.ids) : k ≠ file := fun same => other (same ▸ here)
  cases stepped with
  | queued _ _ _ sets => exact sets.frame k (elsewhere (Inv.mem_ids (within.2.subset List.mem_cons_self)))
  | claimed oldest sets => exact sets.frame k (elsewhere (own _ oldest))
  | returned foreign => exact absurd within.2 (Inv.not_mem_ids foreign)
  | cached _ _ sets => exact sets.frame k (elsewhere ((within.1.map Prod.fst).subset within.2))
  | listed | refused | finished | empty | strayed | lost | ended => rfl

end Stepped

theorem Inv.own (inv : Inv served ready s m)
    (younger : ∀ k f, k ∉ served.ids → s.files.get k = some f → f.status = .downloaded → ∀ id ∈ served.ids, id < k) :
    m.Own served s := by
  unfold Own
  split
  · case h_1 entry left =>
    intro f oldest
    obtain ⟨found, waits, least⟩ := Store.oldestDownloaded_eq_some oldest
    by_contra foreign
    have listed : entry ∈ served := inv.within.subset List.mem_cons_self
    have place := inv.places entry listed
    simp only [Place, List.mem_cons_self, if_true] at place
    obtain ⟨g, at_entry, waiting⟩ := place
    have before := younger f.id f foreign found waits entry.1 (mem_ids listed)
    exact Nat.lt_irrefl _ (Nat.lt_of_lt_of_le before (least entry.1 g at_entry waiting))
  · trivial

theorem Inv.start (s : Store) (served : Served) :
    Inv served (∀ id ∈ served.ids, s.At id File.Waits) s (queueing served served) where
  within := ⟨rfl, List.Sublist.refl _⟩
  places entry inside := by
    simp only [Place, inside, if_true]
    intro ready
    exact ready entry.1 (mem_ids inside)
  clean := by simp

/-- Alone in the store, and with every other downloaded file younger than the served ones, the
marking keeps its invariant, leaves the other files alone and comes closer to its end. -/
theorem alone (fresh : Nat → LeaseToken × Time) (s : Store) (served : ServedMap)
    (younger : ∀ f ∈ s.files, f.status = .downloaded → f.id ∉ served.entries.ids → ∀ id ∈ served.entries.ids, id < f.id)
    (n : Nat) :
    Inv served.entries (∀ id ∈ served.entries.ids, s.At id File.Waits)
        (markCachedOffline fresh s served n).1 (markCachedOffline fresh s served n).2 ∧
      (∀ k ∉ served.entries.ids, (markCachedOffline fresh s served n).1.files.get k = s.files.get k) ∧
      (markCachedOffline fresh s served n).2.remaining ≤ 3 * served.entries.length + 2 - n := by
  induction n with
  | zero =>
    refine ⟨Inv.start s _, fun _ _ => rfl, ?_⟩
    simp only [markCachedOffline, remaining]
    omega
  | succ n ih =>
    obtain ⟨inv, others, bound⟩ := ih
    have own := inv.own fun k f foreign found waits => by
      rw [others k foreign] at found
      obtain ⟨stored, rfl⟩ := Table.get_eq_some.mp found
      exact younger f stored waits foreign
    have taken := stepped (markCachedOffline fresh s served n).1 (fresh n).1 (fresh n).2
      (markCachedOffline fresh s served n).2
    refine ⟨inv.next served.distinct own taken, fun k foreign => ?_, ?_⟩
    · exact (taken.frame inv.within own foreign).trans (others k foreign)
    · have closer := taken.remaining_le inv.within
      simp only [markCachedOffline]
      omega

theorem eq_ended (m : Marking) (spent : m.remaining ≤ 0) (within : m.Within served) : ∃ err, m = ended err := by
  cases m with
  | ended err => exact ⟨err, rfl⟩
  | queueing rest given | claiming left =>
    simp only [remaining] at spent
    omega
  | holding file held left =>
    obtain ⟨entry, inside, -⟩ := List.mem_map.mp within.2
    have positive := List.length_pos_of_mem inside
    simp only [remaining] at spent
    omega

/-- A file outside the served set is the oldest downloaded one, or claimed and older than all of them. -/
def Stuck (s : Store) : Marking → Prop
  | claiming left => left ≠ [] ∧ ∃ f, s.oldestDownloaded = some f ∧ f.id ∉ left.ids
  | holding file held left =>
    left ≠ [] ∧ held ≠ "" ∧ file ∉ left.ids ∧
      s.At file (fun f => f.status = .verifying ∧ f.leaseToken = some held) ∧
      ∀ k g, k ≠ file → s.files.get k = some g → g.status = .downloaded → file < k
  | _ => False

namespace Stuck

theorem returned (other : file ∉ left.ids) (some_left : left ≠ []) (sets : s.Sets file f s')
    (waiting : f.status = .downloaded)
    (younger : ∀ k g, k ≠ file → s.files.get k = some g → g.status = .downloaded → file < k) :
    Stuck s' (claiming left) := by
  refine ⟨some_left, ?_⟩
  cases oldest : s'.oldestDownloaded with
  | none => exact absurd waiting (Store.oldestDownloaded_eq_none oldest sets.row)
  | some g =>
    obtain ⟨found, waits, least⟩ := Store.oldestDownloaded_eq_some oldest
    have before := least file f sets.row waiting
    by_cases same : g.id = file
    · exact ⟨g, rfl, by rw [same]; exact other⟩
    · rw [sets.frame _ same] at found
      exact absurd (younger g.id g same found waits) (Nat.not_lt.mpr before)

theorem next (stuck : Stuck s m) (named : tok ≠ "") (stepped : Stepped s tok m s' m') : Stuck s' m' := by
  cases stepped with
  | listed | queued | refused | ended => exact stuck.elim
  | finished => exact absurd rfl stuck.1
  | claimed oldest sets checks holds =>
    obtain ⟨some_left, f, again, foreign⟩ := stuck
    cases oldest.symm.trans again
    refine ⟨some_left, named, foreign, sets.here ⟨checks, holds⟩, fun k g other held waits => ?_⟩
    rw [sets.frame k other] at held
    exact Nat.lt_of_le_of_ne ((Store.oldestDownloaded_eq_some oldest).2.2 k g held waits) (Ne.symm other)
  | empty idle =>
    obtain ⟨-, f, oldest, -⟩ := stuck
    cases idle.symm.trans oldest
  | returned foreign found sets waiting => exact returned stuck.2.2.1 stuck.1 sets waiting stuck.2.2.2.2
  | strayed foreign gone =>
    obtain ⟨f, found, checks, holds⟩ := stuck.2.2.2.1
    exact absurd holds (gone stuck.2.1 f found checks)
  | cached own | lost own =>
    obtain ⟨front, back, rfl, -⟩ := List.lookup_eq_some_iff.mp own
    exact absurd (by simp [Served.ids]) stuck.2.2.1

end Stuck

section
variable {served : ServedMap} {first bad entry : FileId × String} {g : File} {fresh : Nat → LeaseToken × Time}

/-- One served file has been moved, and another one that is still to come does not wait in the queue. -/
def Halts (served : ServedMap) (first bad : FileId × String) (s : Store) : Marking → Prop
  | queueing rest _ =>
    rest.Sublist served.entries ∧ first ∉ rest ∧ bad ∈ rest ∧ ¬ s.At bad.1 File.Waits ∧ s.At first.1 (·.status = .downloaded)
  | ended (some _) => s.At first.1 (·.status = .downloaded)
  | _ => False

theorem Halts.next (known : first ∈ served.entries) (halts : Halts served first bad s m) (stepped : Stepped s tok m s' m') :
    Halts served first bad s' m' := by
  cases stepped with
  | listed => exact absurd halts.2.2.1 List.not_mem_nil
  | queued found waits free sets =>
    obtain ⟨sub, moved, ahead, busy, here⟩ := halts
    have other : bad.1 ≠ _ := fun same => busy ⟨_, same ▸ found, waits, free⟩
    have other' : first.1 ≠ _ := fun same =>
      moved (Inv.unique served.distinct known (sub.subset List.mem_cons_self) same ▸ List.mem_cons_self)
    have later := (List.mem_cons.mp ahead).resolve_left fun same => other (congrArg Prod.fst same)
    refine ⟨(List.sublist_cons_self _ _).trans sub, fun again => moved (List.mem_cons_of_mem _ again), later, ?_, ?_⟩
    · rwa [sets.at_iff other]
    · rwa [sets.at_iff other']
  | refused => exact halts.2.2.2.2
  | finished | claimed | empty | returned | strayed | cached | lost => exact halts.elim
  | ended => exact halts

theorem Halts.moved (halts : Halts served first bad s m) : s.At first.1 (·.status = .downloaded) := by
  cases m with
  | queueing => exact halts.2.2.2.2
  | ended err =>
    cases err with
    | none => exact halts.elim
    | some => exact halts
  | claiming | holding => exact halts.elim

theorem refused_first (fresh : Nat → LeaseToken × Time) (distinct : (Served.ids (first :: rest)).Nodup)
    (busy : ¬ s.At first.1 File.Waits) (k : Nat) :
    ∃ err, markCachedOffline fresh s ⟨first :: rest, distinct⟩ (k + 1) = (s, ended (some err)) := by
  induction k with
  | zero =>
    have taken := stepped s (fresh 0).1 (fresh 0).2 (queueing (first :: rest) (first :: rest))
    simp only [markCachedOffline]
    generalize step s (fresh 0).1 (fresh 0).2 (queueing (first :: rest) (first :: rest)) = after at taken
    obtain ⟨s', m'⟩ := after
    cases taken with
    | queued found waits free => exact absurd ⟨_, found, waits, free⟩ busy
    | refused => exact ⟨_, rfl⟩
  | succ k ih =>
    obtain ⟨err, last⟩ := ih
    exact ⟨err, by rw [markCachedOffline, last]; rfl⟩

theorem halts_later (fresh : Nat → LeaseToken × Time) (distinct : (Served.ids (first :: rest)).Nodup)
    (waits : s.At first.1 File.Waits)
    (ahead : bad ∈ rest) (busy : ¬ s.At bad.1 File.Waits) (k : Nat) :
    Halts ⟨first :: rest, distinct⟩ first bad (markCachedOffline fresh s ⟨first :: rest, distinct⟩ (k + 1)).1
      (markCachedOffline fresh s ⟨first :: rest, distinct⟩ (k + 1)).2 := by
  induction k with
  | zero =>
    have once : first.1 ∉ Served.ids rest := (List.nodup_cons.mp distinct).1
    have other : bad.1 ≠ first.1 := fun same => once (same ▸ Inv.mem_ids ahead)
    have taken := stepped s (fresh 0).1 (fresh 0).2 (queueing (first :: rest) (first :: rest))
    simp only [markCachedOffline]
    generalize step s (fresh 0).1 (fresh 0).2 (queueing (first :: rest) (first :: rest)) = after at taken
    obtain ⟨s', m'⟩ := after
    cases taken with
    | queued _ _ _ sets waiting =>
      exact ⟨List.sublist_cons_self _ _, fun again => once (Inv.mem_ids again), ahead, by rwa [sets.at_iff other],
        sets.here waiting⟩
    | refused refuses =>
      obtain ⟨f, found, queued, free⟩ := waits
      exact absurd free (refuses f found queued)
  | succ k ih => exact ih.next List.mem_cons_self (stepped _ _ _ _)

/-- A downloaded file outside the served set comes before a served one that is still to be claimed. -/
def Blocks (served : ServedMap) (ready : Prop) (g : File) (entry : FileId × String) (s : Store) (m : Marking) : Prop :=
  Inv served.entries ready s m ∧ s.files.get g.id = some g ∧
    match m with
    | queueing _ _ => True
    | claiming left => entry ∈ left
    | holding file _ left => entry ∈ left ∧ file ≠ entry.1
    | ended _ => False

theorem Blocks.next (ready : Prop) (waiting : ready) (downloaded : g.status = .downloaded) (foreign : g.id ∉ served.entries.ids)
    (listed : entry ∈ served.entries) (older : g.id < entry.1) (named : tok ≠ "")
    (doomed : Stuck s m ∨ Blocks served ready g entry s m) (stepped : Stepped s tok m s' m') :
    Stuck s' m' ∨ Blocks served ready g entry s' m' := by
  rcases doomed with stuck | ⟨inv, row, ahead⟩
  · exact .inl (stuck.next named stepped)
  by_cases own : m.Own served.entries s
  · have inv' := inv.next served.distinct own stepped
    refine .inr ⟨inv', (stepped.frame inv.within own foreign).trans row, ?_⟩
    cases stepped with
    | listed => exact inv.within.1 ▸ listed
    | queued => trivial
    | finished => exact absurd ahead List.not_mem_nil
    | claimed oldest =>
      have least := (Store.oldestDownloaded_eq_some oldest).2.2 g.id g row downloaded
      exact ⟨ahead, Nat.ne_of_lt (Nat.lt_of_le_of_lt least older)⟩
    | cached => exact List.mem_filter.mpr ⟨ahead.1, by simpa using Ne.symm ahead.2⟩
    | returned stray | strayed stray => exact absurd inv.within.2 (Inv.not_mem_ids stray)
    | refused | empty | lost => exact inv'.clean waiting _ rfl
    | ended => exact ahead
  · refine .inl (Stuck.next ?_ named stepped)
    cases m with
    | claiming left =>
      cases left with
      | nil => exact absurd trivial own
      | cons head left =>
        simp only [Own, not_forall] at own
        obtain ⟨f, oldest, stray⟩ := own
        exact ⟨List.cons_ne_nil _ _, f, oldest, fun inside => stray ((inv.within.map Prod.fst).subset inside)⟩
    | queueing | holding | ended => exact absurd trivial own

theorem Blocks.never (named : ∀ n, (fresh n).1 ≠ "") (ready : ∀ id ∈ served.entries.ids, s.At id File.Waits)
    (stored : g ∈ s.files) (downloaded : g.status = .downloaded) (foreign : g.id ∉ served.entries.ids)
    (listed : entry ∈ served.entries)
    (older : g.id < entry.1) (n : Nat) : (markCachedOffline fresh s served n).2 ≠ ended err := by
  have doomed : Stuck (markCachedOffline fresh s served n).1 (markCachedOffline fresh s served n).2 ∨
      Blocks served (∀ id ∈ served.entries.ids, s.At id File.Waits) g entry (markCachedOffline fresh s served n).1
        (markCachedOffline fresh s served n).2 := by
    induction n with
    | zero => exact .inr ⟨Inv.start s _, Table.get_eq_some.mpr ⟨stored, rfl⟩, trivial⟩
    | succ n ih => exact Blocks.next _ ready downloaded foreign listed older (named n) ih (stepped _ _ _ _)
  intro stopped
  rw [stopped] at doomed
  exact doomed.elim id fun blocks => blocks.2.2

end

theorem not_cached (downloaded : s.At file (·.status = .downloaded)) : ¬ s.At file (File.CachedAt path) := by
  rintro ⟨f, found, cached, -⟩
  obtain ⟨g, found', status⟩ := downloaded
  cases found.symm.trans found'
  cases cached.symm.trans status

/-- Every served file that is downloaded at some point of the first `n` steps is cached in the end. -/
def Settled (fresh : Nat → LeaseToken × Time) (s : Store) (served : ServedMap) (n : Nat) (s' : Store) : Prop :=
  ∀ entry ∈ served.entries, (∃ k ≤ n, (markCachedOffline fresh s served k).1.At entry.1 (·.status = .downloaded)) →
    s'.At entry.1 (File.CachedAt entry.2)

section
variable {fresh : Nat → LeaseToken × Time} {s s' : Store} {served : ServedMap}

theorem younger_of_ended (named : ∀ n, (fresh n).1 ≠ "") (ready : ∀ id ∈ served.entries.ids, s.At id File.Waits)
    (last : markCachedOffline fresh s served n = (s', ended err)) (stored : f ∈ s.files) (downloaded : f.status = .downloaded)
    (foreign : f.id ∉ served.entries.ids) : ∀ id ∈ served.entries.ids, id < f.id := by
  intro id listed
  by_contra younger
  obtain ⟨entry, inside, rfl⟩ := List.mem_map.mp listed
  have older : f.id < entry.1 :=
    Nat.lt_of_le_of_ne (Nat.not_lt.mp younger) fun same => foreign (same ▸ Inv.mem_ids inside)
  exact Blocks.never named ready stored downloaded foreign inside older n (congrArg Prod.snd last)

/-- Where a served file does not wait, the first one is not moved either, or it would be left behind. -/
theorem refused_of_settled (last : markCachedOffline fresh s served n = (s', ended err)) (settled : Settled fresh s served n s')
    (unready : ¬ ∀ id ∈ served.entries.ids, s.At id File.Waits) :
    (∀ entry ∈ served.entries.head?, ¬ s.At entry.1 File.Waits) ∧
      ∀ id ∈ served.entries.ids, ¬ s.At id (·.status = .downloaded) := by
  obtain ⟨entries, distinct⟩ := served
  cases entries with
  | nil => exact absurd (fun _ never => absurd never List.not_mem_nil) unready
  | cons first rest =>
    have some_ : n ≠ 0 := by
      rintro rfl
      cases last
    obtain ⟨k, rfl⟩ : ∃ k, n = k + 1 := ⟨n - 1, by omega⟩
    by_cases waits : s.At first.1 File.Waits
    · -- the first file is moved, and a later one stops the loop
      push Not at unready
      obtain ⟨id, listed, busy⟩ := unready
      obtain ⟨bad, inside, rfl⟩ := List.mem_map.mp listed
      have ahead : bad ∈ rest := (List.mem_cons.mp inside).resolve_left fun same => busy (same ▸ waits)
      have early := (halts_later fresh distinct waits ahead busy 0).moved
      have late := (halts_later fresh distinct waits ahead busy k).moved
      rw [last] at late
      exact (not_cached late (settled first List.mem_cons_self ⟨1, by omega, early⟩)).elim
    · refine ⟨fun entry head => ?_, fun id listed downloaded => ?_⟩
      · cases head
        exact waits
      · obtain ⟨entry, inside, rfl⟩ := List.mem_map.mp listed
        obtain ⟨e, stopped⟩ := refused_first fresh distinct waits k
        cases stopped.symm.trans last
        exact not_cached downloaded (settled entry inside ⟨0, by omega, downloaded⟩)

theorem settled_of_ready (ready : ∀ id ∈ served.entries.ids, s.At id File.Waits)
    (younger : ∀ f ∈ s.files, f.status = .downloaded → f.id ∉ served.entries.ids → ∀ id ∈ served.entries.ids, id < f.id) :
    ∃ n s' err, markCachedOffline fresh s served n = (s', ended err) ∧ Settled fresh s served n s' := by
  obtain ⟨inv, -, spent⟩ := alone fresh s served younger (3 * served.entries.length + 2)
  obtain ⟨err, last⟩ := eq_ended _ (Nat.le_trans spent (Nat.le_of_eq (Nat.sub_self _))) inv.within
  cases err with
  | some e => exact absurd last (inv.clean ready e)
  | none =>
    refine ⟨_, _, none, Prod.ext rfl last, fun entry inside _ => ?_⟩
    have place := inv.places entry inside
    rwa [last] at place

theorem settled_of_refused (refused : ∀ entry ∈ served.entries.head?, ¬ s.At entry.1 File.Waits)
    (undone : ∀ id ∈ served.entries.ids, ¬ s.At id (·.status = .downloaded)) :
    ∃ n s' err, markCachedOffline fresh s served n = (s', ended err) ∧ Settled fresh s served n s' := by
  obtain ⟨entries, distinct⟩ := served
  cases entries with
  | nil => exact ⟨2, s, none, rfl, fun _ never => absurd never List.not_mem_nil⟩
  | cons first rest =>
    obtain ⟨e, stopped⟩ := refused_first fresh distinct (refused first rfl) 0
    refine ⟨1, s, some e, stopped, fun entry inside => ?_⟩
    rintro ⟨k, early, downloaded⟩
    have same : (markCachedOffline fresh s ⟨first :: rest, distinct⟩ k).1 = s := by
      rcases Nat.le_one_iff_eq_zero_or_eq_one.mp early with rfl | rfl
      · rfl
      · rw [stopped]
    exact absurd (same ▸ downloaded) (undone entry.1 (Inv.mem_ids inside))

end

/-- With no other worker running, `markCachedOffline` returns after finitely many store calls and every served file that
was downloaded in between is cached at its path, exactly when either all served files wait in the queue and every other
downloaded file is younger than they are, or the first one does not wait and none of them is downloaded. -/
theorem marking_ends (fresh : Nat → LeaseToken × Time) (named : ∀ n, (fresh n).1 ≠ "") (s : Store) (served : ServedMap) :
    (∃ n s' err, markCachedOffline fresh s served n = (s', ended err) ∧ ∀ entry ∈ served.entries,
      (∃ k ≤ n, (markCachedOffline fresh s served k).1.At entry.1 (·.status = .downloaded)) →
        s'.At entry.1 (File.CachedAt entry.2)) ↔
    ((∀ id ∈ served.entries.ids, s.At id File.Waits) ∧
        ∀ f ∈ s.files, f.status = .downloaded → f.id ∉ served.entries.ids → ∀ id ∈ served.entries.ids, id < f.id) ∨
      (∀ entry ∈ served.entries.head?, ¬ s.At entry.1 File.Waits) ∧
        ∀ id ∈ served.entries.ids, ¬ s.At id (·.status = .downloaded) := by
  constructor
  · rintro ⟨n, s', err, last, settled⟩
    by_cases ready : ∀ id ∈ served.entries.ids, s.At id File.Waits
    · exact .inl ⟨ready, fun f stored downloaded => younger_of_ended named ready last stored downloaded⟩
    · exact .inr (refused_of_settled last settled ready)
  · rintro (⟨ready, younger⟩ | ⟨refused, undone⟩)
    · exact settled_of_ready ready younger
    · exact settled_of_refused refused undone

/-- A listed file whose bytes are those of the blob `oid`. -/
def listedFile (id : FileId) (status : FileStatus) : File :=
  { File.fresh id 1 ⟨"model.bin", 4, "oid", "", "", false⟩ with status }

/-- Two files to be served, between them one that waits for verification, and an older one that is done. -/
def queuedPair : Store :=
  { Store.empty "worker" with
    files := ⟨[listedFile 1 .cached, listedFile 2 .queued, listedFile 3 .queued, listedFile 4 .downloaded], by decide⟩ }

def servedPair : ServedMap := ⟨[(3, "/cache/b"), (2, "/cache/a")], by decide⟩

theorem marking_ends_pair : ∃ n s' err, markCachedOffline (fun n => (toString n, n)) queuedPair servedPair n = (s', ended err) ∧
    ∀ entry ∈ servedPair.entries, (∃ k ≤ n, (markCachedOffline (fun n => (toString n, n)) queuedPair servedPair k).1.At entry.1
      (·.status = .downloaded)) → s'.At entry.1 (File.CachedAt entry.2) := by
  have ready : ∀ id ∈ servedPair.entries.ids, queuedPair.At id File.Waits := by
    intro id listed
    simp only [servedPair, Served.ids, List.map_cons, List.map_nil, List.mem_cons, List.not_mem_nil, or_false] at listed
    rcases listed with rfl | rfl
    · exact ⟨listedFile 3 .queued, rfl, rfl, rfl⟩
    · exact ⟨listedFile 2 .queued, rfl, rfl, rfl⟩
  exact (marking_ends (fun n => (toString n, n)) (by simp) queuedPair servedPair).mpr (.inl ⟨ready, by decide⟩)

/-- A leftover file, and one to be served that is younger. -/
def leftover : Store :=
  { Store.empty "worker" with files := ⟨[listedFile 1 .downloaded, listedFile 2 .queued], by decide⟩ }

def servedYounger : ServedMap := ⟨[(2, "/cache/blob")], by decide⟩

/-- The leftover file is claimed and put back after every number of steps. -/
theorem leftover_loops :
    ¬ ∃ n err, (markCachedOffline (fun n => (toString n, n)) leftover servedYounger n).2 = ended err := by
  rintro ⟨n, err, stopped⟩
  have ready : ∀ id ∈ servedYounger.entries.ids, leftover.At id File.Waits := by
    intro id listed
    cases List.mem_singleton.mp listed
    exact ⟨listedFile 2 .queued, rfl, rfl, rfl⟩
  exact Blocks.never (by simp) ready (show listedFile 1 .downloaded ∈ leftover.files from List.mem_cons_self) rfl (by decide)
    (show (2, "/cache/blob") ∈ servedYounger.entries from List.mem_cons_self) (by decide) n stopped

end Marking
end Hfdl
